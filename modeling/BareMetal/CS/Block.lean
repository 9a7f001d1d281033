import BareMetal.CS.Outcome
import Mathlib.Logic.Function.Basic

/-!
# Blocks of memory

A block of `n` cells is a function on `Fin n`. C code reaches a cell through an
`int`, so `load` and `store` take an integer index and stop the program when it
names no cell. An index that is the value of some `Fin n` always succeeds.

## Main results

* `write_eq`, `le_of_write` — a loop that writes values into consecutive cells
-/

namespace CS

/-- `n` consecutive cells, each holding an `α`. -/
abbrev Block (n : ℕ) (α : Type*) := Fin n → α

namespace Block

variable {n : ℕ} {α : Type*}

/-- Read the cell at index `i`. -/
def load (b : Block n α) (i : ℤ) : Outcome α :=
  if h : 0 ≤ i ∧ i < n then .ok (b ⟨i.toNat, by omega⟩) else .error (.outOfBounds i)

/-- Write the cell at index `i`. -/
def store (b : Block n α) (i : ℤ) (value : α) : Outcome (Block n α) :=
  if h : 0 ≤ i ∧ i < n then .ok (Function.update b ⟨i.toNat, by omega⟩ value)
  else .error (.outOfBounds i)

@[simp] theorem load_natCast (b : Block n α) (k : Fin n) : b.load (k : ℕ) = .ok (b k) := by
  have h : (0 : ℤ) ≤ (k : ℕ) ∧ ((k : ℕ) : ℤ) < n := ⟨by omega, by omega⟩
  simp only [load, dif_pos h, Int.toNat_natCast, Fin.eta]

@[simp] theorem store_natCast (b : Block n α) (k : Fin n) (value : α) :
    b.store (k : ℕ) value = .ok (Function.update b k value) := by
  have h : (0 : ℤ) ≤ (k : ℕ) ∧ ((k : ℕ) : ℤ) < n := ⟨by omega, by omega⟩
  simp only [store, dif_pos h, Int.toNat_natCast, Fin.eta]

/-- An index in range is that of a cell. -/
theorem exists_index {i : ℤ} (hnonneg : 0 ≤ i) (hlt : i < n) : ∃ k : Fin n, i = (k : ℕ) :=
  ⟨⟨i.toNat, by omega⟩, (Int.toNat_of_nonneg hnonneg).symm⟩

/-- A read that returns was at the index of a cell. -/
theorem exists_of_load {b : Block n α} {i : ℤ} {value : α} (h : b.load i = .ok value) :
    ∃ k : Fin n, i = (k : ℕ) ∧ value = b k := by
  unfold load at h
  split_ifs at h with hi
  exact ⟨⟨i.toNat, by omega⟩, (Int.toNat_of_nonneg hi.1).symm, (Except.ok.inj h).symm⟩

/-! ### Consecutive cells -/

/-- Write the values one after the other, from the index `i` on. -/
def write (b : Block n α) (i : ℤ) : List α → Outcome (Block n α)
  | [] => .ok b
  | value :: rest => do
    let b ← b.store i value
    write b (i + 1) rest

/-- The block with other values from the index `k` on. -/
def overwrite (b : Block n α) (k : ℕ) (values : List α) : Block n α :=
  fun j => if (j : ℕ) < k then b j else (values[j - k]?).getD (b j)

variable {b b' : Block n α} {k : ℕ} {values : List α}

theorem overwrite_of_lt {j : Fin n} (h : (j : ℕ) < k) : overwrite b k values j = b j := if_pos h

theorem overwrite_of_ge {j : Fin n} (h : k + values.length ≤ j) : overwrite b k values j = b j := by
  rw [overwrite, if_neg (by omega), List.getElem?_eq_none (by omega), Option.getD_none]

theorem overwrite_of_getElem? {j : Fin n} {value : α} (hk : k ≤ j)
    (h : values[j - k]? = some value) : overwrite b k values j = value := by
  rw [overwrite, if_neg (by omega), h, Option.getD_some]

theorem update_overwrite {j : Fin n} (hk : k ≤ j) (hlt : (j : ℕ) < k + values.length) (value : α) :
    Function.update (overwrite b k values) j value = overwrite b k (values.set (j - k) value) := by
  funext i
  rcases eq_or_ne i j with rfl | hne
  · rw [Function.update_self, overwrite, if_neg (by omega), List.getElem?_set_self (by omega),
      Option.getD_some]
  · have hindex : (i : ℕ) ≠ j := fun heq => hne (Fin.ext heq)
    rw [Function.update_of_ne hne, overwrite, overwrite]
    split_ifs with hlt'
    · rfl
    · rw [List.getElem?_set_ne (by omega)]

/-- A loop that stays in the block. -/
theorem write_eq (b : Block n α) (h : k + values.length ≤ n) :
    b.write k values = .ok (overwrite b k values) := by
  induction values generalizing b k with
  | nil =>
    refine congrArg Except.ok (funext fun j => ?_)
    unfold overwrite
    split_ifs <;> rfl
  | cons value rest ih =>
    rw [List.length_cons] at h
    have hrest := ih (k := k + 1) (Function.update b ⟨k, by omega⟩ value) (by omega)
    rw [write, store_natCast b ⟨k, by omega⟩, Outcome.ok_bind]
    refine hrest.trans (congrArg Except.ok (funext fun j => ?_))
    rcases Nat.lt_trichotomy j k with hlt | heq | hgt
    · have hne : j ≠ ⟨k, by omega⟩ := Fin.ne_of_lt hlt
      rw [overwrite_of_lt (by omega), overwrite_of_lt hlt, Function.update_of_ne hne]
    · have hfirst : j = ⟨k, by omega⟩ := Fin.ext heq
      have hvalue : (value :: rest)[(j : ℕ) - k]? = some value := by
        rw [heq, Nat.sub_self, List.getElem?_cons_zero]
      rw [overwrite_of_lt (by omega), overwrite_of_getElem? (by omega) hvalue, hfirst,
        Function.update_self]
    · have hne : j ≠ ⟨k, by omega⟩ := Fin.ne_of_gt hgt
      have hindex : (j : ℕ) - k = j - (k + 1) + 1 := by omega
      rw [overwrite, overwrite, if_neg (by omega), if_neg (by omega), hindex,
        List.getElem?_cons_succ, Function.update_of_ne hne]

/-- A loop that returns has stayed in the block. -/
theorem le_of_write {i : ℤ} (hvalues : values ≠ []) (h : b.write i values = .ok b') :
    0 ≤ i ∧ i + values.length ≤ n := by
  induction values generalizing b i with
  | nil => exact absurd rfl hvalues
  | cons value rest ih =>
    obtain ⟨b₁, hstore, hrest⟩ := Outcome.bind_eq_ok.mp h
    unfold store at hstore
    split_ifs at hstore with hin
    refine ⟨hin.1, ?_⟩
    rw [List.length_cons]
    by_cases hnil : rest = []
    · subst hnil
      rw [List.length_nil]
      omega
    · have hle := (ih hnil hrest).2
      omega

end Block

end CS
