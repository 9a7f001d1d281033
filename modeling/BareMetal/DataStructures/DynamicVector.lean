import BareMetal.CS.Growth

/-!
# The vector of `data-structures/dynamic_vector.c`

Size and capacity are `int`s. The capacity is doubled in `int` arithmetic and asked for in
bytes, whose number is a `size_t`.

## Main results

* `intSizes_limit` — up to `INT_MAX` cells the sizes are exact
* `vectorGet_eq` — the element at an index is the value that was pushed there
-/

namespace BareMetal.DynamicVector

open CS Growth

/-- `sizeof(int)`. -/
abbrev sizeOfInt : ℕ := 4

/-- Sizes that are `int`s. -/
def intSizes : Sizes where
  double capacity := mulInt capacity 2
  next size := addInt size 1
  cells capacity := (capacity * sizeOfInt % 2 ^ 64).toNat / sizeOfInt

/-- `struct Vector`. -/
abbrev Vector := Growable Int32

/-- `vector_create`. -/
def vectorCreate (initialCapacity : ℤ) : Vector :=
  ⟨calloc 0 sizeOfInt initialCapacity, 0, initialCapacity⟩

/-- `resize_if_needed`. -/
def resizeIfNeeded (realloc : Realloc Int32) (v : Vector) : Outcome Vector :=
  resize intSizes realloc "Could not resize the data\n" v

/-- `vector_push`. -/
def vectorPush (realloc : Realloc Int32) (v : Vector) (value : Int32) : Outcome Vector :=
  push intSizes realloc "Could not resize the data\n" v value

/-- `vector_get`. -/
def vectorGet (v : Vector) (index : ℤ) : Outcome Int32 :=
  if index < 0 ∨ index ≥ v.size then .error (.exit 1 "Index OutOfBound Error\n")
  else Cells.load v.data index

/-- The greatest capacity. -/
abbrev vectorLimit : ℕ := 2147483647

variable {v : Vector} {values : List Int32} {c i : ℕ} {value : Int32}

theorem vectorLimit_eq : (vectorLimit : ℤ) = intMax := rfl

theorem intSizes_limit : intSizes.Limit vectorLimit where
  double_eq n hle := by
    have hlimit := vectorLimit_eq
    have hdouble : mulInt n 2 = .ok ((n : ℤ) * 2) :=
      mulInt_of_range (intMin_le (by omega)) (by omega)
    have hcast : ((2 * n : ℕ) : ℤ) = (n : ℤ) * 2 := by omega
    rw [hcast]
    exact hdouble
  next_eq n hlt := by
    have hlimit := vectorLimit_eq
    have hmax : (n : ℤ) < intMax := by omega
    simp only [intSizes, addInt_one hmax]
    rfl
  cells_eq n hle := by
    have hlimit := vectorLimit_eq
    rw [intMax] at hlimit
    simp only [intSizes, sizeOfInt]
    omega
  cells_le n m hle hover hdouble := by
    -- twice the capacity is not an `int`
    have hlimit := vectorLimit_eq
    unfold intSizes mulInt at hdouble
    dsimp only at hdouble
    split_ifs at hdouble with hin
    omega

theorem vectorCreate_isNew (hle : c ≤ vectorLimit) : IsNew vectorLimit c (vectorCreate c) where
  size_eq := rfl
  capacity_eq := rfl
  length_eq := by
    have hlimit := vectorLimit_eq
    rw [intMax] at hlimit
    have hbytes : c * 4 < 2 ^ 64 := by omega
    rw [if_pos hle, vectorCreate, length_calloc 0 (by omega), if_pos hbytes]

/-- The element at an index is the value that was pushed there. -/
theorem vectorGet_eq (h : Stores v values) (hi : values[i]? = some value) :
    vectorGet v i = .ok value := by
  obtain ⟨hsize, hprefix⟩ := h
  obtain ⟨hlt, -⟩ := List.getElem?_eq_some_iff.mp hi
  rw [vectorGet, if_neg (by omega)]
  refine Cells.load_of_getElem? ?_
  obtain ⟨rest, hdata⟩ := hprefix
  rw [← hdata, List.getElem?_append_left hlt, hi]

end BareMetal.DynamicVector
