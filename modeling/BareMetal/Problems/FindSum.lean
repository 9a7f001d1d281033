import BareMetal.CS.Block
import BareMetal.CS.Loop
import Mathlib.Data.Fin.VecNotation
import Mathlib.Data.List.Nodup
import Mathlib.Order.Fin.Basic

/-!
# The exhaustive search of `problems/find-sum.c`

`find_target` looks at all pairs of indices in one `for` loop: as long as `next` has not
reached the end, a pass takes back the increment of `left`. A pair is skipped when one of
its numbers is greater than the target, although the other one may be negative, and an
index is also paired with itself.

## Main results

* `findTarget_reports` — what the search prints
* `findTarget_exact_iff` — when this is what it should print
-/

namespace BareMetal.FindSum

open CS

/-- What `find_target` prints of a pair: the two numbers with their sum, and their indices. -/
structure Match where
  first : ℤ
  second : ℤ
  target : ℤ
  left : ℤ
  next : ℤ
  deriving DecidableEq, Repr

/-- The local variables of `find_target`, and what it has printed. -/
structure Search where
  left : ℤ
  next : ℤ
  printed : List Match
  deriving DecidableEq, Repr

variable {n : ℕ} {numbers : Block n ℤ} {target : ℤ} {s : Search} {i j l r : Fin n}
  {printed : List Match}

/-- The test of the shortcut. The second number is read unless the first one decides. -/
def isSkipped (numbers : Block n ℤ) (target : ℤ) (s : Search) : Outcome Bool := do
  if (← numbers.load s.left) > target then .ok true
  else .ok (decide ((← numbers.load s.next) > target))

/-- The sum of two numbers, and the line that is printed when it is the target. -/
def printSum (numbers : Block n ℤ) (target : ℤ) (s : Search) : Outcome (List Match) := do
  let sum ← addInt (← numbers.load s.left) (← numbers.load s.next)
  if sum = target then do
    let line : Match := ⟨← numbers.load s.left, ← numbers.load s.next, target, s.left, s.next⟩
    .ok (s.printed ++ [line])
  else .ok s.printed

/-- One pass of the `for` loop of `find_target`, its increment included. -/
def findTargetPass (numbers : Block n ℤ) (size target : ℤ) (s : Search) :
    Outcome (Pass Search (List Match)) :=
  if s.left < size then
    if s.next < size then do
      let printed ← if ← isSkipped numbers target s then .ok s.printed
        else printSum numbers target s
      -- both ways take `left` back, and the loop moves it forward again
      let left ← subInt s.left 1
      let next ← addInt s.next 1
      let left ← addInt left 1
      .ok (.again ⟨left, next, printed⟩)
    else do
      let left ← addInt s.left 1
      .ok (.again ⟨left, 0, s.printed⟩)
  else .ok (.leave s.printed)

/-- `find_target`, with all that it prints. -/
def findTarget (numbers : Block n ℤ) (size target : ℤ) (fuel : ℕ) : Outcome (List Match) :=
  loop (findTargetPass numbers size target) fuel ⟨0, 0, []⟩

/-! ### What is printed -/

/-- The line of a pair of indices. -/
def line (numbers : Block n ℤ) (target : ℤ) (i j : Fin n) : Match :=
  ⟨numbers i, numbers j, target, (i : ℕ), (j : ℕ)⟩

theorem line_injective (numbers : Block n ℤ) (target : ℤ) {i j i' j' : Fin n}
    (h : line numbers target i j = line numbers target i' j') : i = i' ∧ j = j' := by
  have hleft := congrArg Match.left h
  have hnext := congrArg Match.next h
  simp only [line] at hleft hnext
  exact ⟨Fin.ext (by omega), Fin.ext (by omega)⟩

/-- The search prints the pairs that are not skipped and have the sum. -/
def Reports (numbers : Block n ℤ) (target : ℤ) (i j : Fin n) : Prop :=
  numbers i ≤ target ∧ numbers j ≤ target ∧ numbers i + numbers j = target

/-- A pair that the loop has left behind. -/
def Before (s : Search) (i j : Fin n) : Prop :=
  ((i : ℕ) : ℤ) < s.left ∨ ((i : ℕ) : ℤ) = s.left ∧ ((j : ℕ) : ℤ) < s.next

/-- The lines printed are those of the pairs that the loop has left behind. -/
structure Scanned (numbers : Block n ℤ) (target : ℤ) (s : Search) : Prop where
  left_nonneg : 0 ≤ s.left
  left_le : s.left ≤ n
  next_nonneg : 0 ≤ s.next
  next_le : s.next ≤ n
  nodup : s.printed.Nodup
  mem_iff : ∀ m, m ∈ s.printed ↔
    ∃ i j, Before s i j ∧ Reports numbers target i j ∧ m = line numbers target i j

theorem scanned_start (numbers : Block n ℤ) (target : ℤ) : Scanned numbers target ⟨0, 0, []⟩ where
  left_nonneg := le_rfl
  left_le := by
    dsimp only
    omega
  next_nonneg := le_rfl
  next_le := by
    dsimp only
    omega
  nodup := List.nodup_nil
  mem_iff m := by
    refine iff_of_false List.not_mem_nil ?_
    rintro ⟨i, j, hlt | ⟨-, hlt⟩, -⟩
    · dsimp only at hlt
      omega
    · dsimp only at hlt
      omega

/-- The pair at the pointers is the only one that the loop leaves behind with a step of `next`. -/
theorem before_succ_iff (printed printed' : List Match) :
    Before ⟨(l : ℕ), ((r : ℕ) : ℤ) + 1, printed'⟩ i j ↔
      Before ⟨(l : ℕ), (r : ℕ), printed⟩ i j ∨ i = l ∧ j = r := by
  simp only [Before, Fin.ext_iff]
  omega

/-- Once `next` has reached the end, all pairs of `left` are behind. -/
theorem before_row_iff :
    Before ⟨((l : ℕ) : ℤ) + 1, 0, printed⟩ i j ↔ Before ⟨(l : ℕ), n, printed⟩ i j := by
  have hj := j.isLt
  simp only [Before]
  omega

/-- A pair that is not reported. -/
theorem Scanned.pass (h : Scanned numbers target ⟨(l : ℕ), (r : ℕ), printed⟩)
    (hno : ¬ Reports numbers target l r) :
    Scanned numbers target ⟨(l : ℕ), ((r : ℕ) : ℤ) + 1, printed⟩ := by
  refine ⟨h.left_nonneg, h.left_le, by dsimp only; omega, by dsimp only; omega, h.nodup,
    fun m => ?_⟩
  rw [h.mem_iff]
  constructor
  · rintro ⟨i, j, hbefore, hrest⟩
    exact ⟨i, j, (before_succ_iff printed _).mpr (Or.inl hbefore), hrest⟩
  · rintro ⟨i, j, hbefore, hreports, hm⟩
    rcases (before_succ_iff printed _).mp hbefore with hbefore | ⟨rfl, rfl⟩
    · exact ⟨i, j, hbefore, hreports, hm⟩
    · exact absurd hreports hno

/-- A pair that is reported. -/
theorem Scanned.report (h : Scanned numbers target ⟨(l : ℕ), (r : ℕ), printed⟩)
    (hreports : Reports numbers target l r) :
    Scanned numbers target
      ⟨(l : ℕ), ((r : ℕ) : ℤ) + 1, printed ++ [line numbers target l r]⟩ := by
  have hnew : line numbers target l r ∉ printed := by
    intro hmem
    obtain ⟨i, j, hbefore, -, hline⟩ := (h.mem_iff _).mp hmem
    obtain ⟨rfl, rfl⟩ := line_injective numbers target hline
    simp only [Before] at hbefore
    omega
  have hnodup : printed.Nodup := h.nodup
  refine ⟨h.left_nonneg, h.left_le, by dsimp only; omega, by dsimp only; omega, ?_, fun m => ?_⟩
  · rw [← List.concat_eq_append]
    exact hnodup.concat hnew
  · rw [List.mem_append, h.mem_iff, List.mem_singleton]
    constructor
    · rintro (⟨i, j, hbefore, hrest⟩ | rfl)
      · exact ⟨i, j, (before_succ_iff printed _).mpr (Or.inl hbefore), hrest⟩
      · exact ⟨l, r, (before_succ_iff printed _).mpr (Or.inr ⟨rfl, rfl⟩), hreports, rfl⟩
    · rintro ⟨i, j, hbefore, hrest, hm⟩
      rcases (before_succ_iff printed _).mp hbefore with hbefore | ⟨rfl, rfl⟩
      · exact Or.inl ⟨i, j, hbefore, hrest, hm⟩
      · exact Or.inr hm

/-- The end of a row. -/
theorem Scanned.row (h : Scanned numbers target ⟨(l : ℕ), n, printed⟩) :
    Scanned numbers target ⟨((l : ℕ) : ℤ) + 1, 0, printed⟩ := by
  refine ⟨by dsimp only; omega, by dsimp only; omega, le_rfl, by dsimp only; omega, h.nodup,
    fun m => ?_⟩
  rw [h.mem_iff]
  simp only [before_row_iff]

/-! ### The search -/

/-- The sums of all numbers are in range. -/
def SumsFit (numbers : Block n ℤ) : Prop :=
  ∀ i j, intMin ≤ numbers i + numbers j ∧ numbers i + numbers j ≤ intMax

instance : Decidable (SumsFit numbers) :=
  inferInstanceAs
    (Decidable (∀ i j, intMin ≤ numbers i + numbers j ∧ numbers i + numbers j ≤ intMax))

/-- The sum of two numbers is in range when the search computes it. -/
def PairFits (numbers : Block n ℤ) (target : ℤ) (i j : Fin n) : Prop :=
  numbers i ≤ target → numbers j ≤ target →
    intMin ≤ numbers i + numbers j ∧ numbers i + numbers j ≤ intMax

instance : Decidable (PairFits numbers target i j) :=
  inferInstanceAs (Decidable (_ → _ → _ ∧ _))

theorem SumsFit.pairFits (h : SumsFit numbers) (target : ℤ) (i j : Fin n) :
    PairFits numbers target i j := fun _ _ => h i j

theorem isSkipped_eq (numbers : Block n ℤ) (target : ℤ) (l r : Fin n) (printed : List Match) :
    isSkipped numbers target ⟨(l : ℕ), (r : ℕ), printed⟩ =
      .ok (decide (numbers l > target ∨ numbers r > target)) := by
  simp only [isSkipped, Block.load_natCast, Outcome.ok_bind]
  split_ifs with hl
  · simp [hl]
  · simp [hl]

theorem printSum_eq (target : ℤ) {l r : Fin n}
    (hsum : intMin ≤ numbers l + numbers r ∧ numbers l + numbers r ≤ intMax)
    (printed : List Match) :
    printSum numbers target ⟨(l : ℕ), (r : ℕ), printed⟩ =
      .ok (if numbers l + numbers r = target then printed ++ [line numbers target l r]
        else printed) := by
  have hadd := addInt_of_range hsum.1 hsum.2
  simp only [printSum, Block.load_natCast, Outcome.ok_bind, hadd, line]
  split_ifs <;> rfl

/-- A pass at a pair of indices whose sum is skipped or in range. -/
theorem findTargetPass_pair (hn : (n : ℤ) ≤ intMax) {l r : Fin n}
    (hsum : PairFits numbers target l r) (printed : List Match) :
    Reports numbers target l r ∧ findTargetPass numbers n target ⟨(l : ℕ), (r : ℕ), printed⟩ =
        .ok (.again ⟨(l : ℕ), ((r : ℕ) : ℤ) + 1, printed ++ [line numbers target l r]⟩) ∨
      ¬ Reports numbers target l r ∧
        findTargetPass numbers n target ⟨(l : ℕ), (r : ℕ), printed⟩ =
          .ok (.again ⟨(l : ℕ), ((r : ℕ) : ℤ) + 1, printed⟩) := by
  have hl : ((l : ℕ) : ℤ) < n := by exact_mod_cast l.isLt
  have hr : ((r : ℕ) : ℤ) < n := by exact_mod_cast r.isLt
  have hback : subInt ((l : ℕ) : ℤ) 1 = .ok (((l : ℕ) : ℤ) - 1) := subInt_one (by omega)
  have hforth : addInt (((l : ℕ) : ℤ) - 1) 1 = .ok ((l : ℕ) : ℤ) := by
    rw [addInt_of_range (intMin_le (by omega)) (by omega), Int.sub_add_cancel]
  have hnext : addInt ((r : ℕ) : ℤ) 1 = .ok (((r : ℕ) : ℤ) + 1) := addInt_one (by omega)
  simp only [findTargetPass, if_pos hl, if_pos hr, isSkipped_eq, Outcome.ok_bind, hback, hforth,
    hnext, decide_eq_true_eq]
  by_cases hskip : numbers l > target ∨ numbers r > target
  · refine Or.inr ⟨fun hreports => ?_, ?_⟩
    · rcases hskip with hl | hr
      · exact absurd hreports.1 (not_le.mpr hl)
      · exact absurd hreports.2.1 (not_le.mpr hr)
    · rw [if_pos hskip]
  · rw [if_neg hskip]
    push Not at hskip
    rw [printSum_eq target (hsum hskip.1 hskip.2), Outcome.ok_bind]
    by_cases htarget : numbers l + numbers r = target
    · rw [if_pos htarget]
      exact Or.inl ⟨⟨hskip.1, hskip.2, htarget⟩, rfl⟩
    · rw [if_neg htarget]
      exact Or.inr ⟨fun hreports => htarget hreports.2.2, rfl⟩

/-- A pass at the end of a row. -/
theorem findTargetPass_row (hn : (n : ℤ) ≤ intMax) (numbers : Block n ℤ) (target : ℤ) (l : Fin n)
    (printed : List Match) :
    findTargetPass numbers n target ⟨(l : ℕ), n, printed⟩ =
      .ok (.again ⟨((l : ℕ) : ℤ) + 1, 0, printed⟩) := by
  have hl : ((l : ℕ) : ℤ) < n := by exact_mod_cast l.isLt
  have hleft : addInt ((l : ℕ) : ℤ) 1 = .ok (((l : ℕ) : ℤ) + 1) := addInt_one (by omega)
  simp only [findTargetPass, if_pos hl, if_neg (lt_irrefl (n : ℤ)), hleft, Outcome.ok_bind]

/-- The passes that are left. -/
def rank (n : ℕ) (s : Search) : ℕ := (n - s.left).toNat * (n + 1) + (n - s.next).toNat

theorem rank_pair (l r : Fin n) (printed printed' : List Match) :
    rank n ⟨(l : ℕ), (r : ℕ), printed⟩ = rank n ⟨(l : ℕ), ((r : ℕ) : ℤ) + 1, printed'⟩ + 1 := by
  have hnext : ((n : ℤ) - (r : ℕ)).toNat = ((n : ℤ) - (((r : ℕ) : ℤ) + 1)).toNat + 1 := by omega
  simp only [rank, hnext]
  omega

theorem rank_row (l : Fin n) (printed : List Match) :
    rank n ⟨(l : ℕ), n, printed⟩ = rank n ⟨((l : ℕ) : ℤ) + 1, 0, printed⟩ + 1 := by
  have hleft : ((n : ℤ) - (l : ℕ)).toNat = ((n : ℤ) - (((l : ℕ) : ℤ) + 1)).toNat + 1 := by omega
  simp only [rank, hleft, Nat.succ_mul]
  omega

/-- The loop stands at a pair of indices, at the end of a row, or at the end. -/
inductive Stands (n : ℕ) : Search → Prop
  | pair (l r : Fin n) (printed : List Match) : Stands n ⟨(l : ℕ), (r : ℕ), printed⟩
  | row (l : Fin n) (printed : List Match) : Stands n ⟨(l : ℕ), n, printed⟩
  | done (printed : List Match) : Stands n ⟨n, 0, printed⟩

/-- After a pair comes the next one, or the end of the row. -/
theorem stands_next (l r : Fin n) (printed : List Match) :
    Stands n ⟨(l : ℕ), ((r : ℕ) : ℤ) + 1, printed⟩ := by
  rcases Nat.lt_or_ge ((r : ℕ) + 1) n with hlt | hge
  · exact .pair l ⟨(r : ℕ) + 1, hlt⟩ printed
  · have hlast : ((r : ℕ) : ℤ) + 1 = n := by omega
    rw [hlast]
    exact .row l printed

/-- A row begins with a pair, unless there are no more rows. -/
theorem stands_first {k : ℕ} (hk : k ≤ n) (printed : List Match) :
    Stands n ⟨(k : ℕ), 0, printed⟩ := by
  rcases Nat.lt_or_eq_of_le hk with hlt | rfl
  · exact .pair ⟨k, hlt⟩ ⟨0, Nat.zero_lt_of_lt hlt⟩ printed
  · exact .done printed

theorem stands_start (n : ℕ) : Stands n ⟨0, 0, []⟩ := stands_first (Nat.zero_le n) []

/-- **What the search prints.** It ends, and prints each pair that it does not skip once. -/
theorem findTarget_reports (hn : (n : ℤ) ≤ intMax) (hsums : ∀ i j, PairFits numbers target i j) :
    ∃ printed, Returns (findTarget numbers n target) printed ∧ printed.Nodup ∧
      ∀ m, m ∈ printed ↔ ∃ i j, Reports numbers target i j ∧ m = line numbers target i j := by
  -- every pass goes to the next pair or to the next row, and the rank falls
  have hpass : ∀ m s, (m = rank n s ∧ Stands n s ∧ Scanned numbers target s) →
      (∃ k s', k < m ∧ findTargetPass numbers n target s = .ok (.again s') ∧
        k = rank n s' ∧ Stands n s' ∧ Scanned numbers target s') ∨
      ∃ printed, findTargetPass numbers n target s = .ok (.leave printed) ∧ printed.Nodup ∧
        ∀ m, m ∈ printed ↔ ∃ i j, Reports numbers target i j ∧ m = line numbers target i j := by
    rintro m s ⟨rfl, hstands, h⟩
    cases hstands with
    | pair l r printed =>
      have hrank := rank_pair l r printed
      have hnext := stands_next l r
      rcases findTargetPass_pair hn (hsums l r) printed with ⟨hreports, hagain⟩ | ⟨hno, hagain⟩
      · exact Or.inl ⟨_, _, hrank _ ▸ Nat.lt_succ_self _, hagain, rfl, hnext _, h.report hreports⟩
      · exact Or.inl ⟨_, _, hrank _ ▸ Nat.lt_succ_self _, hagain, rfl, hnext _, h.pass hno⟩
    | row l printed =>
      have hrank := rank_row l printed
      exact Or.inl ⟨_, _, hrank ▸ Nat.lt_succ_self _,
        findTargetPass_row hn numbers target l printed, rfl, stands_first l.isLt printed, h.row⟩
    | done printed =>
      -- every pair is behind
      refine Or.inr ⟨printed, if_neg (lt_irrefl _), h.nodup, fun m => ?_⟩
      rw [h.mem_iff]
      constructor
      · rintro ⟨i, j, -, hrest⟩
        exact ⟨i, j, hrest⟩
      · rintro ⟨i, j, hrest⟩
        exact ⟨i, j, Or.inl (Int.ofNat_lt.mpr i.isLt), hrest⟩
  obtain ⟨printed, hreturns, hprinted⟩ :=
    Returns.exists_loop hpass ⟨rfl, stands_start n, scanned_start numbers target⟩
  exact ⟨printed, hreturns, hprinted⟩

/-! ### What should be printed -/

/-- The output is all pairs of two different indices with the sum, each once. -/
structure Exact (numbers : Block n ℤ) (target : ℤ) (printed : List Match) : Prop where
  nodup : printed.Nodup
  mem_iff : ∀ m, m ∈ printed ↔
    ∃ i j, i ≠ j ∧ numbers i + numbers j = target ∧ m = line numbers target i j

/-- **When the search is exact.** It prints the right pairs, each once, exactly when no number
that is not negative is half of the target, and no solution has a negative number. -/
theorem findTarget_exact_iff (numbers : Block n ℤ) (target : ℤ) (hn : (n : ℤ) ≤ intMax)
    (hsums : SumsFit numbers) :
    (∃ printed, Returns (findTarget numbers n target) printed ∧ Exact numbers target printed) ↔
      (∀ i, numbers i + numbers i = target → numbers i < 0) ∧
        ∀ i j, i ≠ j → numbers i + numbers j = target → 0 ≤ numbers i ∧ 0 ≤ numbers j := by
  obtain ⟨printed, hreturns, hnodup, hmem⟩ := findTarget_reports hn (hsums.pairFits target)
  constructor
  · rintro ⟨printed', hreturns', hexact⟩
    obtain rfl := hreturns.unique hreturns'
    constructor
    · -- a pair of an index with itself is no solution, so it is not printed
      intro i hsum
      by_contra hge
      have hin : line numbers target i i ∈ printed :=
        (hmem _).mpr ⟨i, i, ⟨by omega, by omega, hsum⟩, rfl⟩
      obtain ⟨i', j', hne, -, hline⟩ := (hexact.mem_iff _).mp hin
      obtain ⟨rfl, rfl⟩ := line_injective numbers target hline
      exact hne rfl
    · -- a solution is printed, so it is not skipped
      intro i j hne hsum
      have hin : line numbers target i j ∈ printed :=
        (hexact.mem_iff _).mpr ⟨i, j, hne, hsum, rfl⟩
      obtain ⟨i', j', hreports, hline⟩ := (hmem _).mp hin
      obtain ⟨rfl, rfl⟩ := line_injective numbers target hline
      obtain ⟨hi, hj, -⟩ := hreports
      exact ⟨by omega, by omega⟩
  · rintro ⟨hhalf, hnonneg⟩
    refine ⟨printed, hreturns, hnodup, fun m => ?_⟩
    rw [hmem]
    constructor
    · rintro ⟨i, j, ⟨hi, hj, hsum⟩, hline⟩
      refine ⟨i, j, ?_, hsum, hline⟩
      rintro rfl
      have hneg := hhalf i hsum
      omega
    · -- neither number is greater than the sum
      rintro ⟨i, j, hne, hsum, hline⟩
      obtain ⟨hi, hj⟩ := hnonneg i j hne hsum
      exact ⟨i, j, ⟨by omega, by omega, hsum⟩, hline⟩

/-- The search of `main`, where all solutions are found. -/
theorem findTarget_exact_main : ∃ printed,
    Returns (findTarget ![2, 7, 11, 9, 15, 2, 0, 9] 8 9) printed ∧
      Exact ![2, 7, 11, 9, 15, 2, 0, 9] 9 printed :=
  (findTarget_exact_iff ![2, 7, 11, 9, 15, 2, 0, 9] 9 (by decide) (by decide)).mpr
    ⟨by decide, by decide⟩

/-- The number 3 is paired with itself, and 10 with -1 is passed over for 9. -/
theorem findTarget_wrong :
    findTarget ![3] 1 6 3 = .ok [⟨3, 3, 6, 0, 0⟩] ∧ ¬ Exact ![3] 6 [⟨3, 3, 6, 0, 0⟩] ∧
      findTarget ![10, -1] 2 9 7 = .ok [] ∧ ¬ Exact ![10, -1] 9 [] := by
  refine ⟨by decide, fun h => ?_, by decide, fun h => ?_⟩
  · obtain ⟨i, j, hne, -⟩ := (h.mem_iff _).mp (List.mem_singleton_self _)
    exact hne (Subsingleton.elim i j)
  · exact List.not_mem_nil ((h.mem_iff _).mpr ⟨0, 1, by decide, by decide, rfl⟩)

end BareMetal.FindSum
