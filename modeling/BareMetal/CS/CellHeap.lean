import BareMetal.CS.Outcome
import Mathlib.Logic.Embedding.Basic
import Mathlib.Logic.Function.Basic

/-!
# Cells on a heap

A heap maps the addresses that are allocated to cells of one type. Reading, changing and
freeing a cell stop the program where nothing is allocated, which includes cells that were
freed before. `free` of a null pointer does nothing.

## Main results

* `modify_some` — a change of one cell
* `free_some` — one cell less
* `modify_single`, `free_single` — a heap with one cell
* `Fresh.succ` — addresses that `malloc` has not returned yet
-/

namespace CS

namespace CellHeap

variable {β : Type*} {heap heap' : ℕ → Option β} {a : ℕ} {cell : β}

/-- Read the cell that `p` points to. -/
def load (heap : ℕ → Option β) : Option ℕ → Outcome β
  | none => .error (.outOfBounds 0)
  | some a =>
    match heap a with
    | none => .error (.outOfBounds a)
    | some cell => .ok cell

/-- Change the cell that `p` points to. -/
def modify (heap : ℕ → Option β) (p : Option ℕ) (f : β → β) : Outcome (ℕ → Option β) :=
  match p with
  | none => .error (.outOfBounds 0)
  | some a =>
    match heap a with
    | none => .error (.outOfBounds a)
    | some cell => .ok (Function.update heap a (some (f cell)))

/-- `free`: a second time for one cell is an error. -/
def free (heap : ℕ → Option β) : Option ℕ → Outcome (ℕ → Option β)
  | none => .ok heap
  | some a =>
    match heap a with
    | none => .error (.outOfBounds a)
    | some _ => .ok (Function.update heap a none)

theorem load_some (h : heap a = some cell) : load heap (some a) = .ok cell := by
  simp only [load, h]

theorem modify_some (h : heap a = some cell) (f : β → β) :
    modify heap (some a) f = .ok (Function.update heap a (some (f cell))) := by
  simp only [modify, h]

theorem free_some (h : heap a = some cell) :
    free heap (some a) = .ok (Function.update heap a none) := by
  simp only [free, h]

/-- A new cell, where nothing was allocated, leaves the others alone. -/
theorem update_of_some (h : heap a = none) {b : ℕ} {c : Option β} (hb : heap b = some cell) :
    Function.update heap a c b = some cell := by
  rw [Function.update_of_ne, hb]
  rintro rfl
  cases h.symm.trans hb

/-! ### A single cell -/

theorem load_single (a : ℕ) (cell : β) :
    load (Function.update (fun _ => none) a (some cell)) (some a) = .ok cell :=
  load_some (Function.update_self ..)

theorem modify_single (a : ℕ) (cell : β) (f : β → β) :
    modify (Function.update (fun _ => none) a (some cell)) (some a) f =
      .ok (Function.update (fun _ => none) a (some (f cell))) := by
  rw [modify_some (Function.update_self ..), Function.update_idem]

/-- Nothing is left. -/
theorem free_single (a : ℕ) (cell : β) :
    free (Function.update (fun _ => none) a (some cell)) (some a) = .ok fun _ => none := by
  rw [free_some (Function.update_self ..), Function.update_idem,
    Function.update_eq_self_iff.mpr rfl]

/-! ### Allocation without `free` -/

/-- The addresses of all calls of `malloc` from the `n`-th on are free. -/
def Fresh (malloc : ℕ ↪ ℕ) (heap : ℕ → Option β) (n : ℕ) : Prop :=
  ∀ m, n ≤ m → heap (malloc m) = none

/-- One more cell, and perhaps changes of old ones. -/
theorem Fresh.succ {malloc : ℕ ↪ ℕ} {n : ℕ} (h : Fresh malloc heap n)
    (hframe : ∀ b, b ≠ malloc n → heap b = none → heap' b = none) :
    Fresh malloc heap' (n + 1) := by
  intro m hm
  refine hframe _ (fun heq => ?_) (h m (by omega))
  have hmn := malloc.injective heq
  omega

end CellHeap

end CS
