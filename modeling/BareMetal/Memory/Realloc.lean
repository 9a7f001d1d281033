import BareMetal.DataStructures.DynamicVector

/-!
# The growable array of `memory/realloc.c`

Capacity and count are `size_t`s, and so are the bytes that `realloc` is asked for: a product
that is too large is reduced modulo `2 ^ 64`.

## Main results

* `sizeTSizes_limit` — up to `2 ^ 62 - 1` cells the sizes are exact
* `grows_in_bounds_iff` — when this array, and the vector of `data-structures/dynamic_vector.c`,
  hold all that was pushed
-/

namespace BareMetal.GrowingArray

open CS Growth DynamicVector

/-- Sizes that are `size_t`s. -/
def sizeTSizes : Sizes where
  double capacity := .ok (capacity * 2 % 2 ^ 64)
  next count := .ok ((count + 1) % 2 ^ 64)
  cells capacity := (capacity * sizeOfInt % 2 ^ 64).toNat / sizeOfInt

/-- `struct DynamicArray`, with its count as the size. -/
abbrev DynamicArray := Growable Int32

/-- `init_array`. -/
def initArray (capacity : ℕ) : DynamicArray := ⟨calloc 0 sizeOfInt capacity, 0, capacity⟩

/-- `append_item`. -/
def appendItem (realloc : Realloc Int32) (array : DynamicArray) (value : Int32) :
    Outcome DynamicArray :=
  push sizeTSizes realloc "Fatal: Cannot resize the current array. OOM.\n" array value

/-- The greatest capacity whose bytes are a `size_t`. -/
abbrev arrayLimit : ℕ := 4611686018427387903

variable {c : ℕ}

theorem arrayLimit_eq : (arrayLimit : ℤ) = 2 ^ 62 - 1 := rfl

theorem sizeTSizes_limit : sizeTSizes.Limit arrayLimit where
  double_eq n hle := by
    have hlimit := arrayLimit_eq
    simp only [sizeTSizes, Except.ok.injEq]
    omega
  next_eq n hlt := by
    have hlimit := arrayLimit_eq
    simp only [sizeTSizes, Except.ok.injEq]
    omega
  cells_eq n hle := by
    have hlimit := arrayLimit_eq
    simp only [sizeTSizes, sizeOfInt]
    omega
  cells_le n m hle hover hdouble := by
    -- the bytes of twice the capacity have lost `2 ^ 64`
    have hlimit := arrayLimit_eq
    simp only [sizeTSizes, Except.ok.injEq] at hdouble
    simp only [sizeTSizes, sizeOfInt]
    omega

theorem initArray_isNew (hc : c < 2 ^ 64) : IsNew arrayLimit c (initArray c) where
  size_eq := rfl
  capacity_eq := rfl
  length_eq := by
    have hlimit := arrayLimit_eq
    have hbytes : c * sizeOfInt < 2 ^ 64 ↔ c ≤ arrayLimit := by
      simp only [sizeOfInt]
      omega
    rw [initArray, length_calloc 0 hc]
    exact if_congr hbytes rfl rfl

/-- For every first capacity and every sequence of values, all pushes stay in the array and the
array holds the values in order, exactly when the first capacity is not zero, or nothing is
pushed, and no capacity is doubled beyond the range of its type. -/
theorem grows_in_bounds_iff (realloc : Realloc Int32) (c : ℕ) (values : List Int32) :
    ((c : ℤ) ≤ intMax →
      (InBounds (vectorPush realloc) (vectorCreate c) values ↔
        Roomy vectorLimit c values.length)) ∧
    (c < 2 ^ 64 →
      (InBounds (appendItem realloc) (initArray c) values ↔
        Roomy arrayLimit c values.length)) := by
  constructor
  · intro hc
    exact growth_iff (vectorCreate_isNew (Int.ofNat_le.mp hc)) intSizes_limit realloc _ values
  · intro hc
    exact growth_iff (initArray_isNew hc) sizeTSizes_limit realloc _ values

/-- The first values of both `main`s. -/
theorem grows_in_bounds_main :
    InBounds (vectorPush (.copying 0)) (vectorCreate 2) [14, 7, 21] ∧
      InBounds (appendItem (.copying 0)) (initArray 10) [14, 7, 23] :=
  ⟨((grows_in_bounds_iff (.copying 0) 2 [14, 7, 21]).1 (by decide)).mpr
      (.of_le (by decide) (by decide) (by decide)),
    ((grows_in_bounds_iff (.copying 0) 10 [14, 7, 23]).2 (by decide)).mpr
      (.of_le (by decide) (by decide) (by decide))⟩

/-- No cells twice are no cells: the first push writes behind the block, or there is no block. -/
theorem push_on_nothing :
    vectorPush (.copying 0) (vectorCreate 0) 14 = .error (.outOfBounds 0) ∧
      vectorPush (Realloc.copying 0).orNull (vectorCreate 0) 14 =
        .error (.exit 1 "Could not resize the data\n") ∧
      ¬ InBounds (vectorPush (.copying 0)) (vectorCreate 0) [14] ∧
      appendItem (.copying 0) (initArray 0) 14 = .error (.outOfBounds 0) ∧
      ¬ InBounds (appendItem (.copying 0)) (initArray 0) [14] := by
  have hvector : vectorPush (.copying 0) (vectorCreate 0) 14 = .error (.outOfBounds 0) := by rfl
  have harray : appendItem (.copying 0) (initArray 0) 14 = .error (.outOfBounds 0) := by rfl
  refine ⟨hvector, by rfl, fun h => ?_, harray, fun h => ?_⟩
  · obtain ⟨v₁, v₂, hok, hpush, -⟩ := h [] 14 [] rfl
    cases hok
    cases hvector.symm.trans hpush
  · obtain ⟨v₁, v₂, hok, hpush, -⟩ := h [] 14 [] rfl
    cases hok
    cases harray.symm.trans hpush

end BareMetal.GrowingArray
