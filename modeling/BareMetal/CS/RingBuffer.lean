import BareMetal.CS.Block
import Mathlib.Data.Nat.ModEq

/-!
# Ring buffers

A queue in `cap` cells: `head` is the slot of the oldest element, `tail` the slot
the next one will be written to, and both move forward modulo `cap`.
`Holds cells head tail xs` says that the cells represent the queue `xs`, so that
`push` and `pop` of the ring are `xs ++ [x]` and `x :: xs` of the list.

`cap` may be zero. Then only the empty queue is held, by a head and a tail at
slot zero of nothing.
-/

namespace CS.RingBuffer

variable {cap : ℕ} {α : Type*} {cells : Block cap α} {head tail : ℕ} {xs : List α} {x : α}

/-- The slots `head`, `head + 1`, … modulo `cap` hold the queue `xs`. -/
structure Holds (cells : Block cap α) (head tail : ℕ) (xs : List α) : Prop where
  length_le : xs.length ≤ cap
  head_mod : head % cap = head
  tail_eq : tail = (head + xs.length) % cap
  cells_eq : ∀ (i : ℕ) (hi : i < xs.length) (k : Fin cap), (k : ℕ) = (head + i) % cap →
    cells k = xs[i]

/-- A ring whose head and tail are at the same slot may be empty. -/
theorem holds_empty (cells : Block cap α) (hhead : head % cap = head) :
    Holds cells head head [] where
  length_le := Nat.zero_le _
  head_mod := hhead
  tail_eq := hhead.symm
  cells_eq i hi := absurd hi (Nat.not_lt_zero i)

/-- A ring whose head and tail are both at the first slot is empty. -/
theorem holds_nil (cells : Block cap α) : Holds cells 0 0 [] := holds_empty cells (Nat.zero_mod _)

/-- An 8-bit cursor holds every slot of a ring of at most 256 cells. -/
theorem toNat_ofNat_mod (hpos : 0 < cap) (hcap : cap ≤ UInt8.size) (i : ℕ) :
    (UInt8.ofNat (i % cap)).toNat = i % cap :=
  UInt8.toNat_ofNat_of_lt' ((Nat.mod_lt i hpos).trans_le hcap)

/-- Two slots less than a full turn apart are different. -/
theorem slot_ne {i j : ℕ} (hij : i < j) (hj : j < cap) : (head + i) % cap ≠ (head + j) % cap := by
  intro heq
  have hmod : i % cap = j % cap := Nat.ModEq.add_left_cancel' head heq
  rw [Nat.mod_eq_of_lt (hij.trans hj), Nat.mod_eq_of_lt hj] at hmod
  omega

namespace Holds

theorem tail_lt (h : Holds cells head tail xs) (hcap : 0 < cap) : tail < cap := by
  rw [h.tail_eq]
  exact Nat.mod_lt _ hcap

theorem head_lt (h : Holds cells head tail xs) (hcap : 0 < cap) : head < cap := by
  rw [← h.head_mod]
  exact Nat.mod_lt _ hcap

/-- The slot `tail` of a ring that is not full holds no element of the queue. -/
theorem slot_ne_tail (h : Holds cells head tail xs) (hlen : xs.length < cap) {i : ℕ}
    (hi : i < xs.length) : (head + i) % cap ≠ tail := by
  rw [h.tail_eq]
  exact slot_ne hi hlen

/-- Writing to the slot `tail` of a ring that is not full appends to the queue. -/
theorem push (h : Holds cells head tail xs) (hlen : xs.length < cap) (x : α) {k : Fin cap}
    (hk : (k : ℕ) = tail) :
    Holds (Function.update cells k x) head ((tail + 1) % cap) (xs ++ [x]) where
  length_le := by
    rw [List.length_append, List.length_singleton]
    omega
  head_mod := h.head_mod
  tail_eq := by
    rw [h.tail_eq, Nat.mod_add_mod, List.length_append, List.length_singleton, Nat.add_assoc]
  cells_eq i hi j hj := by
    rw [List.length_append, List.length_singleton] at hi
    rcases Nat.lt_succ_iff_lt_or_eq.mp hi with hold | rfl
    · -- an old slot is not the one written to
      have hne : j ≠ k := by
        rintro rfl
        exact h.slot_ne_tail hlen hold (hj.symm.trans hk)
      rw [Function.update_of_ne hne, List.getElem_append_left hold]
      exact h.cells_eq i hold j hj
    · obtain rfl : j = k := Fin.ext (hj.trans (h.tail_eq.symm.trans hk.symm))
      simp

/-- The slot `head` holds the oldest element. -/
theorem front (h : Holds cells head tail (x :: xs)) {k : Fin cap} (hk : (k : ℕ) = head) :
    cells k = x :=
  h.cells_eq 0 (Nat.zero_lt_succ _) k (hk.trans h.head_mod.symm)

/-- Moving `head` past its slot takes the oldest element out. -/
theorem pop (h : Holds cells head tail (x :: xs)) : Holds cells ((head + 1) % cap) tail xs where
  length_le := (Nat.le_succ _).trans h.length_le
  head_mod := Nat.mod_mod _ _
  tail_eq := by
    rw [h.tail_eq, Nat.mod_add_mod, List.length_cons]
    congr 1
    omega
  cells_eq i hi k hk := by
    rw [Nat.mod_add_mod, Nat.add_assoc, Nat.add_comm 1 i] at hk
    exact h.cells_eq (i + 1) (Nat.succ_lt_succ hi) k hk

end Holds

end CS.RingBuffer
