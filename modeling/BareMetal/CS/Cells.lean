import BareMetal.CS.Outcome
import Mathlib.Data.List.Induction

/-!
# Arrays as lists of cells

An array is the list of its cells, and a pointer into it is the distance from the first
one. `load` and `store` stop the program at a distance that is not that of a cell; only
the pointer itself may leave the array. In proofs an array is cut at a pointer: the cells
before it, its own cell, and the cells behind it.

## Main results

* `load_append_cons`, `store_append_cons` — access to the cell at a cut
* `load_append_cons_append`, `store_append_cons_append` — and at the second of two
* `foldlM_load_append` — a loop that reads cells
* `copy_eq`, `exists_copy_eq` — a loop that copies cells
* `exists_store_gap` — a loop that writes behind its own reads
-/

namespace CS

namespace Cells

variable {α : Type} {cells pre seg post : List α} {c d : α} {k : ℕ}

/-- A new array of `n` cells. What they hold at first is `junk`. -/
def fresh (junk : ℕ → α) (n : ℤ) : List α := (List.range n.toNat).map junk

@[simp] theorem length_fresh (junk : ℕ → α) (n : ℕ) : (fresh junk n).length = n := by
  simp [fresh]

/-- The declaration of an array whose bound is computed at run time. -/
def declare (junk : ℕ → α) (bound : ℤ) : Outcome (List α) :=
  if bound ≤ 0 then .error (.arrayBound bound) else .ok (fresh junk bound)

theorem declare_of_pos (junk : ℕ → α) {n : ℕ} (hpos : 0 < n) :
    declare junk n = .ok (fresh junk n) :=
  if_neg (by omega)

/-- Read the cell at distance `i`. -/
def load (cells : List α) (i : ℤ) : Outcome α :=
  if h : 0 ≤ i ∧ i < cells.length then .ok (cells.get ⟨i.toNat, by omega⟩)
  else .error (.outOfBounds i)

/-- Write the cell at distance `i`. -/
def store (cells : List α) (i : ℤ) (value : α) : Outcome (List α) :=
  if 0 ≤ i ∧ i < cells.length then .ok (cells.set i.toNat value) else .error (.outOfBounds i)

theorem load_of_getElem? (h : cells[k]? = some c) : load cells k = .ok c := by
  obtain ⟨hlt, rfl⟩ := List.getElem?_eq_some_iff.mp h
  have hin : (0 : ℤ) ≤ k ∧ (k : ℤ) < cells.length := ⟨by omega, by omega⟩
  exact dif_pos hin

@[simp] theorem load_append_cons (pre post : List α) (c : α) :
    load (pre ++ c :: post) pre.length = .ok c :=
  load_of_getElem? (by simp)

theorem store_of_lt (h : k < cells.length) (value : α) :
    store cells k value = .ok (cells.set k value) :=
  if_pos ⟨by omega, by omega⟩

@[simp] theorem store_append_cons (pre post : List α) (c d : α) :
    store (pre ++ c :: post) pre.length d = .ok (pre ++ d :: post) := by
  rw [store_of_lt (by simp), List.set_append_right _ _ (Nat.le_refl _), Nat.sub_self,
    List.set_cons_zero]

/-- A write to the first cell behind `text`, whatever is there. -/
theorem store_behind (text gap post : List α) (c d : α) :
    store (text ++ gap ++ c :: post) text.length d =
      .ok (text ++ d :: (gap ++ c :: post).tail) := by
  cases gap <;> simp

/-- What was read behind the gap is written to its first cell, or over itself where there is
none. -/
theorem exists_store_gap (done gap post : List α) (c : α) :
    ∃ gap' : List α, gap'.length = gap.length ∧
      store (done ++ gap ++ c :: post) done.length c = .ok (done ++ [c] ++ gap' ++ post) := by
  cases gap with
  | nil => exact ⟨[], rfl, by simp⟩
  | cons g gap => exact ⟨gap ++ [c], by simp, by simp⟩

/-- The index of a cut goes on to the next cell. -/
theorem addInt_length (pre : List α) (c : α) (hmax : (pre.length : ℤ) < intMax) :
    addInt pre.length 1 = .ok ((pre ++ [c]).length : ℕ) := by
  rw [List.length_append, List.length_singleton]
  exact addInt_one hmax

/-- The second of two cuts. -/
theorem append_cons_append (pre mid post : List α) (a z : α) :
    pre ++ a :: (mid ++ z :: post) = (pre ++ a :: mid) ++ z :: post := by
  simp

theorem load_append_cons_append (pre mid post : List α) (a z : α) :
    load (pre ++ a :: (mid ++ z :: post)) (pre ++ a :: mid).length = .ok z := by
  rw [append_cons_append, load_append_cons]

theorem store_append_cons_append (pre mid post : List α) (a z d : α) :
    store (pre ++ a :: (mid ++ z :: post)) (pre ++ a :: mid).length d =
      .ok (pre ++ a :: (mid ++ d :: post)) := by
  rw [append_cons_append, store_append_cons, append_cons_append]

/-- A read that returns was from a cell. -/
theorem exists_of_load {i : ℤ} (h : load cells i = .ok c) :
    0 ≤ i ∧ cells[i.toNat]? = some c := by
  unfold load at h
  split_ifs at h with hin
  refine ⟨hin.1, List.getElem?_eq_some_iff.mpr ⟨by omega, ?_⟩⟩
  exact Except.ok.inj h

/-- A write that returns keeps the number of cells. -/
theorem length_of_store {cells' : List α} {i : ℤ} (h : store cells i d = .ok cells') :
    cells'.length = cells.length := by
  unfold store at h
  split_ifs at h
  cases h
  exact List.length_set

/-- A write changes its own cell only. -/
theorem getElem?_of_store {cells' : List α} {i : ℤ} (h : store cells i d = .ok cells')
    (hk : (k : ℤ) ≠ i) : cells'[k]? = cells[k]? := by
  unfold store at h
  split_ifs at h with hin
  cases h
  apply List.getElem?_set_ne
  omega

/-- A loop over the first cells, which reads them one after the other. -/
theorem foldlM_load_append {σ α : Type} (step : σ → α → Outcome σ) (pre post : List α)
    (s : σ) :
    (List.range pre.length).foldlM (fun s (i : ℕ) => do step s (← load (pre ++ post) i)) s =
      pre.foldlM step s := by
  induction pre using List.reverseRecOn generalizing post with
  | nil => rfl
  | append_singleton pre c ih =>
    rw [List.length_append, List.length_singleton, List.range_succ, List.foldlM_append,
      List.foldlM_append, List.append_assoc, List.singleton_append, ih (c :: post)]
    simp [List.foldlM_cons]

theorem foldlM_load {σ α : Type} (step : σ → α → Outcome σ) (cells : List α) (s : σ) :
    (List.range cells.length).foldlM (fun s (i : ℕ) => do step s (← load cells i)) s =
      cells.foldlM step s := by
  simpa using foldlM_load_append step cells [] s

/-- The loop `for(i = 0; i < count; i++) target[i] = source[base + i]`. -/
def copy (source : List α) (base : ℤ) (count : ℕ) (target : List α) : Outcome (List α) :=
  (List.range count).foldlM (fun target (i : ℕ) => do store target i (← load source (base + i)))
    target

theorem copy_succ (source : List α) (base : ℤ) (count : ℕ) (target : List α) :
    copy source base (count + 1) target =
      (copy source base count target >>= fun target => do
        store target count (← load source (base + count))) := by
  simp [copy, List.range_succ]

/-- The cells `seg` of the source come in front of what is left of the target. -/
theorem copy_eq (pre seg post : List α) {target : List α} (h : seg.length ≤ target.length) :
    copy (pre ++ seg ++ post) pre.length seg.length target =
      .ok (seg ++ target.drop seg.length) := by
  have hfirst : ∀ count ≤ seg.length, copy (pre ++ seg ++ post) pre.length count target =
      .ok (seg.take count ++ target.drop count) := by
    intro count hcount
    induction count with
    | zero => rfl
    | succ count ih =>
      have hlt : count < seg.length := hcount
      have hload : load (pre ++ seg ++ post) ((pre.length : ℤ) + count) = .ok seg[count] := by
        have hcast : (pre.length : ℤ) + count = ((pre.length + count : ℕ) : ℤ) := by omega
        rw [hcast]
        apply load_of_getElem?
        rw [List.append_assoc, List.getElem?_append_right (by omega), Nat.add_sub_cancel_left,
          List.getElem?_append_left hlt, List.getElem?_eq_getElem hlt]
      have hdrop : target.drop count = target[count] :: target.drop (count + 1) :=
        List.drop_eq_getElem_cons (by omega)
      have hlen : (seg.take count).length = count := List.length_take_of_le (Nat.le_of_lt hlt)
      have hstore : store (seg.take count ++ target.drop count) count seg[count] =
          .ok (seg.take count ++ seg[count] :: target.drop (count + 1)) := by
        have hcut := store_append_cons (seg.take count) (target.drop (count + 1)) target[count]
          seg[count]
        rwa [hlen, ← hdrop] at hcut
      rw [copy_succ, ih (Nat.le_of_lt hlt), Outcome.ok_bind, hload, Outcome.ok_bind, hstore,
        List.take_succ_eq_append_getElem hlt, List.append_assoc, List.singleton_append]
  rw [hfirst seg.length (Nat.le_refl _), List.take_length]

/-- A target with one cell more than are copied. -/
theorem exists_copy_eq (pre seg post : List α) {target : List α}
    (h : target.length = seg.length + 1) :
    ∃ c, copy (pre ++ seg ++ post) pre.length seg.length target = .ok (seg ++ [c]) := by
  obtain ⟨c, hc⟩ : ∃ c, target.drop seg.length = [c] := by
    apply List.length_eq_one_iff.mp
    rw [List.length_drop]
    omega
  exact ⟨c, by rw [copy_eq pre seg post (by omega), hc]⟩

end Cells

end CS
