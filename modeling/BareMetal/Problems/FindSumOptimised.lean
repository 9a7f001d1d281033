import BareMetal.CS.Block
import BareMetal.CS.Loop
import Mathlib.Data.Fin.VecNotation
import Mathlib.Data.Int.ConditionallyCompleteOrder
import Mathlib.Order.ConditionallyCompleteLattice.Basic
import Mathlib.Order.Fin.Basic

/-!
# The two pointers of `problems/find-sum-optimised.c`

`find_target` looks for two numbers of a sorted array with a given sum. When the sum at
the two pointers is too small, the left number is too small for every partner that is
left, and its pointer moves; likewise on the right. So every solution stays between the
pointers until one is found.

## Main results

* `Window.left_up`, `Window.right_down` — a move gives up no solution
* `findTarget_spec` — the search finds a solution exactly when there is one
-/

namespace BareMetal.FindSumOptimised

open CS

/-- What `find_target` prints: two numbers with their sum, and their indices. -/
structure Match where
  first : ℤ
  second : ℤ
  target : ℤ
  left : ℤ
  right : ℤ
  deriving DecidableEq, Repr

/-- The two pointers. -/
structure Pointers where
  left : ℤ
  right : ℤ
  deriving DecidableEq, Repr

variable {n : ℕ} {numbers : Block n ℤ} {target : ℤ} {s : Pointers} {l r : Fin n}

/-- One pass of the `while` loop of `find_target`. -/
def findTargetPass (numbers : Block n ℤ) (target : ℤ) (s : Pointers) :
    Outcome (Pass Pointers (Option Match)) :=
  if s.left < s.right then do
    let currentSum ← addInt (← numbers.load s.left) (← numbers.load s.right)
    if currentSum = target then do
      let found : Match :=
        ⟨← numbers.load s.left, ← numbers.load s.right, target, s.left, s.right⟩
      .ok (.leave (some found))
    else if currentSum < target then do
      let left ← addInt s.left 1
      .ok (.again { s with left := left })
    else if currentSum > target then do
      let right ← subInt s.right 1
      .ok (.again { s with right := right })
    else .ok (.again s)
  else .ok (.leave none)

/-- `find_target`, with what it prints. -/
def findTarget (numbers : Block n ℤ) (size target : ℤ) (fuel : ℕ) : Outcome (Option Match) := do
  let right ← subInt size 1
  loop (findTargetPass numbers target) fuel ⟨0, right⟩

/-! ### Solutions -/

/-- Two numbers of the array have the sum that is looked for. -/
def IsSolution (numbers : Block n ℤ) (target : ℤ) (i j : Fin n) : Prop :=
  i < j ∧ numbers i + numbers j = target

/-- All solutions lie between the pointers. -/
structure Window (numbers : Block n ℤ) (target : ℤ) (s : Pointers) : Prop where
  left_nonneg : 0 ≤ s.left
  right_lt : s.right < n
  inside : ∀ i j, IsSolution numbers target i j → s.left ≤ (i : ℕ) ∧ ((j : ℕ) : ℤ) ≤ s.right

theorem Window.start (numbers : Block n ℤ) (target : ℤ) : Window numbers target ⟨0, n - 1⟩ where
  left_nonneg := le_rfl
  right_lt := by
    dsimp only
    omega
  inside i j _ := ⟨by simp, by dsimp only; omega⟩

/-- With too small a sum, the left number has no partner. -/
theorem Window.left_up (hsorted : Monotone numbers)
    (h : Window numbers target ⟨(l : ℕ), (r : ℕ)⟩) (hlow : numbers l + numbers r < target) :
    Window numbers target ⟨((l : ℕ) : ℤ) + 1, (r : ℕ)⟩ := by
  refine ⟨by dsimp only; omega, h.right_lt, fun i j hij => ?_⟩
  obtain ⟨hi, hj⟩ := h.inside i j hij
  have hne : i ≠ l := by
    rintro rfl
    have hle : numbers j ≤ numbers r := hsorted (Fin.le_def.mpr (Int.ofNat_le.mp hj))
    have hsum := hij.2
    omega
  have hval : (i : ℕ) ≠ l := fun heq => hne (Fin.ext heq)
  refine ⟨?_, hj⟩
  dsimp only at hi ⊢
  omega

/-- With too great a sum, the right number has none. -/
theorem Window.right_down (hsorted : Monotone numbers)
    (h : Window numbers target ⟨(l : ℕ), (r : ℕ)⟩) (hhigh : target < numbers l + numbers r) :
    Window numbers target ⟨(l : ℕ), ((r : ℕ) : ℤ) - 1⟩ := by
  have hr := h.right_lt
  refine ⟨h.left_nonneg, by dsimp only at hr ⊢; omega, fun i j hij => ?_⟩
  obtain ⟨hi, hj⟩ := h.inside i j hij
  have hne : j ≠ r := by
    rintro rfl
    have hle : numbers l ≤ numbers i := hsorted (Fin.le_def.mpr (Int.ofNat_le.mp hi))
    have hsum := hij.2
    omega
  have hval : (j : ℕ) ≠ r := fun heq => hne (Fin.ext heq)
  refine ⟨hi, ?_⟩
  dsimp only at hj ⊢
  omega

/-- When the pointers have met, there is no solution. -/
theorem Window.not_isSolution (h : Window numbers target s) (hmet : s.right ≤ s.left)
    (i j : Fin n) : ¬ IsSolution numbers target i j := by
  intro hij
  have hin := h.inside i j hij
  have hlt : ((i : ℕ) : ℤ) < ((j : ℕ) : ℤ) := by exact_mod_cast hij.1
  omega

/-! ### The search -/

/-- What one pass does between two pointers that have not met. -/
theorem findTargetPass_cases (hn : (n : ℤ) ≤ intMax)
    (hsums : ∀ i j, i < j → intMin ≤ numbers i + numbers j ∧ numbers i + numbers j ≤ intMax)
    (target : ℤ) (hlr : l < r) :
    numbers l + numbers r = target ∧ findTargetPass numbers target ⟨(l : ℕ), (r : ℕ)⟩ =
        .ok (.leave (some ⟨numbers l, numbers r, target, (l : ℕ), (r : ℕ)⟩)) ∨
      numbers l + numbers r < target ∧ findTargetPass numbers target ⟨(l : ℕ), (r : ℕ)⟩ =
        .ok (.again ⟨((l : ℕ) : ℤ) + 1, (r : ℕ)⟩) ∨
      target < numbers l + numbers r ∧ findTargetPass numbers target ⟨(l : ℕ), (r : ℕ)⟩ =
        .ok (.again ⟨(l : ℕ), ((r : ℕ) : ℤ) - 1⟩) := by
  have hlt : ((l : ℕ) : ℤ) < ((r : ℕ) : ℤ) := by exact_mod_cast hlr
  have hr : ((r : ℕ) : ℤ) < n := by exact_mod_cast r.isLt
  have hsum := addInt_of_range (hsums l r hlr).1 (hsums l r hlr).2
  have hleft : addInt ((l : ℕ) : ℤ) 1 = .ok (((l : ℕ) : ℤ) + 1) := addInt_one (by omega)
  have hright : subInt ((r : ℕ) : ℤ) 1 = .ok (((r : ℕ) : ℤ) - 1) := subInt_one (by omega)
  simp only [findTargetPass, if_pos hlt, Block.load_natCast, Outcome.ok_bind, hsum, hleft, hright]
  rcases lt_trichotomy (numbers l + numbers r) target with hlow | heq | hhigh
  · exact Or.inr (Or.inl ⟨hlow, by rw [if_neg hlow.ne, if_pos hlow]⟩)
  · exact Or.inl ⟨heq, if_pos heq⟩
  · refine Or.inr (Or.inr ⟨hhigh, ?_⟩)
    rw [if_neg hhigh.ne', if_neg (not_lt.mpr hhigh.le), if_pos hhigh]

/-- What a search is for: it finds a solution, unless there is none. -/
structure Answers (numbers : Block n ℤ) (target : ℤ) (answer : Option Match) : Prop where
  isSome_iff : answer.isSome ↔ ∃ i j, IsSolution numbers target i j
  sound : ∀ found, answer = some found → ∃ i j, IsSolution numbers target i j ∧
    found = ⟨numbers i, numbers j, target, (i : ℕ), (j : ℕ)⟩

theorem answers_none (h : ∀ i j, ¬ IsSolution numbers target i j) :
    Answers numbers target none where
  isSome_iff := iff_of_false nofun fun ⟨i, j, hij⟩ => h i j hij
  sound := nofun

theorem answers_some (h : IsSolution numbers target l r) :
    Answers numbers target (some ⟨numbers l, numbers r, target, (l : ℕ), (r : ℕ)⟩) where
  isSome_iff := iff_of_true rfl ⟨l, r, h⟩
  sound _ hfound := ⟨l, r, h, (Option.some.inj hfound).symm⟩

/-- **The search is complete and sound.** It ends; it prints a pair exactly when there is one,
and what it prints is one. -/
theorem findTarget_spec (numbers : Block n ℤ) (target : ℤ) (hn : (n : ℤ) ≤ intMax)
    (hsorted : Monotone numbers)
    (hsums : ∀ i j, i < j → intMin ≤ numbers i + numbers j ∧ numbers i + numbers j ≤ intMax) :
    ∃ answer, Returns (findTarget numbers n target) answer ∧ Answers numbers target answer := by
  -- each pass brings the pointers one nearer
  have hpass : ∀ m s, (m = (s.right - s.left).toNat ∧ Window numbers target s) →
      (∃ k s', k < m ∧ findTargetPass numbers target s = .ok (.again s') ∧
        k = (s'.right - s'.left).toNat ∧ Window numbers target s') ∨
      ∃ answer, findTargetPass numbers target s = .ok (.leave answer) ∧
        Answers numbers target answer := by
    rintro m ⟨left, right⟩ ⟨rfl, h⟩
    have hleft := h.left_nonneg
    have hlast := h.right_lt
    simp only at hleft hlast
    by_cases hlt : left < right
    · obtain ⟨l, rfl⟩ := Block.exists_index hleft (hlt.trans hlast)
      obtain ⟨r, rfl⟩ := Block.exists_index (hleft.trans hlt.le) hlast
      have hlr : l < r := Int.ofNat_lt.mp hlt
      rcases findTargetPass_cases hn hsums target hlr with
        ⟨hsum, hfound⟩ | ⟨hlow, hagain⟩ | ⟨hhigh, hagain⟩
      · exact Or.inr ⟨_, hfound, answers_some ⟨hlr, hsum⟩⟩
      · refine Or.inl ⟨_, _, ?_, hagain, rfl, h.left_up hsorted hlow⟩
        dsimp only
        omega
      · refine Or.inl ⟨_, _, ?_, hagain, rfl, h.right_down hsorted hhigh⟩
        dsimp only
        omega
    · exact Or.inr ⟨none, if_neg hlt, answers_none (h.not_isSolution (not_lt.mp hlt))⟩
  obtain ⟨answer, hreturns, hanswer⟩ :=
    Returns.exists_loop hpass ⟨rfl, Window.start numbers target⟩
  have hright : subInt (n : ℤ) 1 = .ok ((n : ℤ) - 1) := subInt_one (by omega)
  refine ⟨answer, hreturns.congr fun fuel => ?_, hanswer⟩
  rw [findTarget, hright, Outcome.ok_bind]

/-- The numbers of `main`. -/
def mainNumbers : Block 8 ℤ := ![-14, 1, 2, 7, 11, 12, 15, 27]

/-- The search of `main` finds 1 and 2. -/
theorem findTarget_spec_main :
    Returns (findTarget mainNumbers 8 3) (some ⟨1, 2, 3, 1, 2⟩) ∧
      Answers mainNumbers 3 (some ⟨1, 2, 3, 1, 2⟩) := by
  obtain ⟨answer, hreturns, hanswer⟩ :=
    findTarget_spec mainNumbers 3 (by decide) (by decide) (by decide)
  have hrun : findTarget mainNumbers 8 3 8 = .ok (some ⟨1, 2, 3, 1, 2⟩) := by decide
  cases hreturns.eq_of_ok hrun
  exact ⟨hreturns, hanswer⟩

end BareMetal.FindSumOptimised
