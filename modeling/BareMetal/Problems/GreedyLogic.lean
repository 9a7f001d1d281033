import BareMetal.CS.Block
import BareMetal.CS.Loop
import Mathlib.Algebra.Order.Ring.Int
import Mathlib.Data.Fin.VecNotation
import Mathlib.Order.Bounds.Basic
import Mathlib.Order.Fin.Basic

/-!
# The container search of `problems/greedy-logic.c`

`max_area` moves two pointers towards each other, and of the two always the one
at the lower height. All pairs that a move gives up have the lower height at one
end and are closer together than the pointers, so none of them has a greater
area than the pair the pointers are at.

## Main results

* `area_le_of_left_lower`, `area_le_of_right_lower` — what a move gives up
* `maxArea_spec` — the search returns the greatest area
-/

namespace BareMetal.GreedyLogic

open CS

/-! ### The search -/

/-- `calculate_distance`. -/
def calculateDistance (idx1 idx2 : ℤ) : Outcome ℤ :=
  if idx1 > idx2 then subInt idx1 idx2 else subInt idx2 idx1

/-- `calculate_water_height`. -/
def calculateWaterHeight (a b : ℤ) : ℤ := if a < b then a else b

/-- `calculate_area`. -/
def calculateArea (w d : ℤ) : Outcome ℤ := mulInt w d

/-- The local variables of `max_area`. -/
structure Search where
  left : ℤ
  right : ℤ
  maxarea : ℤ
  deriving DecidableEq, Repr

variable {n : ℕ} {heights : Block n ℤ} {s : Search} {i j l r : Fin n}

/-- One pass of the `while` loop of `max_area`. -/
def maxAreaPass (heights : Block n ℤ) (s : Search) : Outcome (Pass Search ℤ) :=
  if s.left < s.right then do
    let distance ← calculateDistance s.left s.right
    let wh := calculateWaterHeight (← heights.load s.left) (← heights.load s.right)
    let area ← calculateArea wh distance
    let maxarea := if area > s.maxarea then area else s.maxarea
    if (← heights.load s.left) > (← heights.load s.right) then do
      let right ← subInt s.right 1
      .ok (.again { s with right := right, maxarea := maxarea })
    else do
      let left ← addInt s.left 1
      .ok (.again { s with left := left, maxarea := maxarea })
  else .ok (.leave s.maxarea)

/-- `max_area`. -/
def maxArea (heights : Block n ℤ) (size : ℤ) (fuel : ℕ) : Outcome ℤ := do
  let right ← subInt size 1
  loop (maxAreaPass heights) fuel ⟨0, right, 0⟩

/-! ### Areas -/

/-- The area between two containers. -/
def area (heights : Block n ℤ) (i j : Fin n) : ℤ :=
  min (heights i) (heights j) * (((j : ℕ) : ℤ) - ((i : ℕ) : ℤ))

/-- The areas between any two containers. -/
def areas (heights : Block n ℤ) : Set ℤ := {a | ∃ i j : Fin n, i < j ∧ a = area heights i j}

theorem area_nonneg (hheights : ∀ k, 0 ≤ heights k) (hij : i ≤ j) : 0 ≤ area heights i j := by
  have hmin := le_min (hheights i) (hheights j)
  exact mul_nonneg hmin (by omega)

/-- With the lower height on the left, bringing the right end nearer gains nothing. -/
theorem area_le_of_left_lower (hheights : ∀ k, 0 ≤ heights k) (hlow : heights l ≤ heights r)
    (hlj : l ≤ j) (hjr : j ≤ r) : area heights l j ≤ area heights l r := by
  unfold area
  rw [min_eq_left hlow]
  calc min (heights l) (heights j) * (((j : ℕ) : ℤ) - ((l : ℕ) : ℤ))
      ≤ heights l * (((j : ℕ) : ℤ) - ((l : ℕ) : ℤ)) :=
        mul_le_mul_of_nonneg_right (min_le_left _ _) (by omega)
    _ ≤ heights l * (((r : ℕ) : ℤ) - ((l : ℕ) : ℤ)) :=
        mul_le_mul_of_nonneg_left (by omega) (hheights l)

/-- With the lower height on the right, bringing the left end nearer gains nothing. -/
theorem area_le_of_right_lower (hheights : ∀ k, 0 ≤ heights k) (hlow : heights r ≤ heights l)
    (hli : l ≤ i) (hir : i ≤ r) : area heights i r ≤ area heights l r := by
  unfold area
  rw [min_eq_right hlow]
  calc min (heights i) (heights r) * (((r : ℕ) : ℤ) - ((i : ℕ) : ℤ))
      ≤ heights r * (((r : ℕ) : ℤ) - ((i : ℕ) : ℤ)) :=
        mul_le_mul_of_nonneg_right (min_le_right _ _) (by omega)
    _ ≤ heights r * (((r : ℕ) : ℤ) - ((l : ℕ) : ℤ)) :=
        mul_le_mul_of_nonneg_left (by omega) (hheights r)

/-! ### One pass -/

theorem calculateDistance_of_le {idx1 idx2 : ℤ} (h0 : 0 ≤ idx1) (hle : idx1 ≤ idx2)
    (hmax : idx2 ≤ intMax) : calculateDistance idx1 idx2 = .ok (idx2 - idx1) := by
  unfold calculateDistance
  rw [if_neg (by omega), subInt_of_range (intMin_le (by omega)) (by omega)]

theorem calculateWaterHeight_eq (a b : ℤ) : calculateWaterHeight a b = min a b := by
  unfold calculateWaterHeight
  split_ifs with h
  · exact (min_eq_left h.le).symm
  · exact (min_eq_right (not_lt.mp h)).symm

/-- What `max_area` has found out: a pair with an end outside the pointers is no better than
`maxarea`, which is the area of some pair unless it is still zero. -/
structure Scanned (heights : Block n ℤ) (s : Search) : Prop where
  left_nonneg : 0 ≤ s.left
  right_lt : s.right < n
  found : s.maxarea = 0 ∨ s.maxarea ∈ areas heights
  nonneg : 0 ≤ s.maxarea
  outside : ∀ i j : Fin n, i < j → ¬ (s.left ≤ (i : ℕ) ∧ ((j : ℕ) : ℤ) ≤ s.right) →
    area heights i j ≤ s.maxarea

theorem Scanned.start (heights : Block n ℤ) : Scanned heights ⟨0, n - 1, 0⟩ where
  left_nonneg := le_rfl
  right_lt := by simp
  found := Or.inl rfl
  nonneg := le_rfl
  outside i j _ hout := absurd ⟨by simp, by dsimp only; omega⟩ hout

/-- A pass looks at the pair the pointers are at and moves the one at the lower height. -/
theorem maxAreaPass_again (hheights : ∀ k, 0 ≤ heights k) (hn : (n : ℤ) ≤ intMax)
    (hareas : ∀ a ∈ areas heights, a ≤ intMax) (hlr : l < r) (maxarea : ℤ) :
    maxAreaPass heights ⟨(l : ℕ), (r : ℕ), maxarea⟩ =
      .ok (.again (if heights l > heights r then
          ⟨(l : ℕ), ((r : ℕ) : ℤ) - 1, max maxarea (area heights l r)⟩
        else ⟨((l : ℕ) : ℤ) + 1, (r : ℕ), max maxarea (area heights l r)⟩)) := by
  have hl : ((l : ℕ) : ℤ) < ((r : ℕ) : ℤ) := by exact_mod_cast hlr
  have hr : ((r : ℕ) : ℤ) < n := by exact_mod_cast r.isLt
  have hdistance := calculateDistance_of_le (Int.natCast_nonneg l) hl.le (hr.le.trans hn)
  have harea : calculateArea (min (heights l) (heights r)) (((r : ℕ) : ℤ) - ((l : ℕ) : ℤ)) =
      .ok (area heights l r) := by
    have hnonneg := area_nonneg hheights hlr.le
    refine mulInt_of_range (le_trans ?_ hnonneg) (hareas _ ⟨l, r, hlr, rfl⟩)
    decide
  have hmax : (if area heights l r > maxarea then area heights l r else maxarea) =
      max maxarea (area heights l r) := by
    rcases lt_or_ge maxarea (area heights l r) with hlt | hge
    · rw [if_pos hlt, max_eq_right hlt.le]
    · rw [if_neg (not_lt.mpr hge), max_eq_left hge]
  have hright : subInt ((r : ℕ) : ℤ) 1 = .ok (((r : ℕ) : ℤ) - 1) := subInt_one (by omega)
  have hleft : addInt ((l : ℕ) : ℤ) 1 = .ok (((l : ℕ) : ℤ) + 1) := addInt_one (by omega)
  simp only [maxAreaPass, if_pos hl, hdistance, Block.load_natCast, Outcome.ok_bind,
    calculateWaterHeight_eq, harea, hmax, hright, hleft]
  split_ifs <;> rfl

/-- The move gives up no pair that is better than the one the pointers are at. -/
theorem Scanned.move (hheights : ∀ k, 0 ≤ heights k) {maxarea : ℤ}
    (h : Scanned heights ⟨(l : ℕ), (r : ℕ), maxarea⟩) (hlr : l < r) :
    Scanned heights (if heights l > heights r then
        ⟨(l : ℕ), ((r : ℕ) : ℤ) - 1, max maxarea (area heights l r)⟩
      else ⟨((l : ℕ) : ℤ) + 1, (r : ℕ), max maxarea (area heights l r)⟩) := by
  have hright := h.right_lt
  have hnonneg := h.nonneg
  have hfound : max maxarea (area heights l r) = 0 ∨
      max maxarea (area heights l r) ∈ areas heights := by
    rcases max_choice maxarea (area heights l r) with hold | hnew
    · rw [hold]
      exact h.found
    · rw [hnew]
      exact Or.inr ⟨l, r, hlr, rfl⟩
  have houtside : ∀ i j : Fin n, i < j → ¬ (l ≤ i ∧ j ≤ r) →
      area heights i j ≤ max maxarea (area heights l r) := fun i j hij hout =>
    (h.outside i j hij (by simpa only [Fin.le_def, Nat.cast_le] using hout)).trans (le_max_left _ _)
  split_ifs with hlow
  · refine ⟨h.left_nonneg, by dsimp only at hright ⊢; omega, hfound, le_max_of_le_left hnonneg, ?_⟩
    intro i j hij hout
    by_cases hin : l ≤ i ∧ j ≤ r
    · -- the pair ends at the right pointer
      obtain rfl : j = r := by
        simp only [Fin.ext_iff, Fin.le_def] at hin ⊢
        simp only at hout
        omega
      exact (area_le_of_right_lower hheights hlow.le hin.1 hij.le).trans (le_max_right _ _)
    · exact houtside i j hij hin
  · refine ⟨by dsimp only; omega, hright, hfound, le_max_of_le_left hnonneg, ?_⟩
    intro i j hij hout
    by_cases hin : l ≤ i ∧ j ≤ r
    · -- the pair starts at the left pointer
      obtain rfl : i = l := by
        simp only [Fin.ext_iff, Fin.le_def] at hin ⊢
        simp only at hout
        omega
      exact (area_le_of_left_lower hheights (not_lt.mp hlow) hij.le hin.2).trans
        (le_max_right _ _)
    · exact houtside i j hij hin

/-! ### The whole search -/

/-- What a search is for: the greatest area, and zero when there are no two containers. -/
structure Best (heights : Block n ℤ) (best : ℤ) : Prop where
  isGreatest : (areas heights).Nonempty → IsGreatest (areas heights) best
  eq_zero : areas heights = ∅ → best = 0

/-- When the pointers have met, every pair is outside of them. -/
theorem Scanned.best (hheights : ∀ k, 0 ≤ heights k) (h : Scanned heights s)
    (hmet : s.right ≤ s.left) : Best heights s.maxarea := by
  have hbound : s.maxarea ∈ upperBounds (areas heights) := by
    rintro a ⟨i, j, hij, rfl⟩
    refine h.outside i j hij fun hin => ?_
    have hlt : ((i : ℕ) : ℤ) < ((j : ℕ) : ℤ) := by exact_mod_cast hij
    omega
  constructor
  · rintro ⟨a, ha⟩
    refine ⟨?_, hbound⟩
    rcases h.found with hzero | hmem
    · -- no pair was better than zero, so all areas are zero
      have hle := hbound ha
      obtain ⟨i, j, hij, rfl⟩ := ha
      have hge := area_nonneg hheights hij.le
      exact ⟨i, j, hij, by omega⟩
    · exact hmem
  · intro hempty
    rcases h.found with hzero | hmem
    · exact hzero
    · rw [hempty] at hmem
      exact absurd hmem (Set.notMem_empty _)

/-- **The greedy search is optimal.** It ends, and returns the greatest area between two
containers. -/
theorem maxArea_spec (heights : Block n ℤ) (hn : (n : ℤ) ≤ intMax)
    (hheights : ∀ k, 0 ≤ heights k) (hareas : ∀ a ∈ areas heights, a ≤ intMax) :
    ∃ best, Returns (maxArea heights n) best ∧ Best heights best := by
  -- each pass brings the pointers one nearer
  have hpass : ∀ m s, (m = (s.right - s.left).toNat ∧ Scanned heights s) →
      (∃ k s', k < m ∧ Returns (fun _ => maxAreaPass heights s) (.again s') ∧
        k = (s'.right - s'.left).toNat ∧ Scanned heights s') ∨
      ∃ best, Returns (fun _ => maxAreaPass heights s) (.leave best) ∧ Best heights best := by
    rintro m ⟨left, right, maxarea⟩ ⟨rfl, h⟩
    have hleft := h.left_nonneg
    have hright := h.right_lt
    simp only at hleft hright
    by_cases hlt : left < right
    · obtain ⟨l, rfl⟩ := Block.exists_index hleft (hlt.trans hright)
      obtain ⟨r, rfl⟩ := Block.exists_index (hleft.trans hlt.le) hright
      have hlr : l < r := Int.ofNat_lt.mp hlt
      refine Or.inl ⟨_, _, ?_, .of_eq fun _ =>
        maxAreaPass_again hheights hn hareas hlr maxarea, rfl, h.move hheights hlr⟩
      split_ifs <;> dsimp only <;> omega
    · refine Or.inr ⟨maxarea, .of_eq fun _ => ?_, h.best hheights (not_lt.mp hlt)⟩
      rw [maxAreaPass, if_neg hlt]
  obtain ⟨best, hleaves, hbest⟩ := Returns.exists_leaves hpass ⟨rfl, Scanned.start heights⟩
  have hright : subInt (n : ℤ) 1 = .ok ((n : ℤ) - 1) := subInt_one (by omega)
  refine ⟨best, (Returns.nested hleaves).congr fun fuel => ?_, hbest⟩
  rw [maxArea, hright, Outcome.ok_bind]

/-- The heights of `main`. -/
def mainHeights : Block 9 ℤ := ![1, 8, 6, 2, 5, 4, 8, 3, 7]

/-- The search of `main` returns 49. -/
theorem maxArea_spec_main : Returns (maxArea mainHeights 9) 49 ∧ Best mainHeights 49 := by
  have hareas : ∀ a ∈ areas mainHeights, a ≤ intMax := by
    rintro a ⟨i, j, -, rfl⟩
    revert i j
    decide
  obtain ⟨best, hreturns, hbest⟩ := maxArea_spec mainHeights (by decide) (by decide) hareas
  have hrun : maxArea mainHeights 9 9 = .ok 49 := by decide
  cases hreturns.eq_of_ok hrun
  exact ⟨hreturns, hbest⟩

end BareMetal.GreedyLogic
