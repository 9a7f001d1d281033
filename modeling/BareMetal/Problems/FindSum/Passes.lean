import BareMetal.Problems.FindSum

/-!
# The passes of `find_target`

Two of the three ways through the body of the loop take `left` back by one, also to -1, so that
`left` stays where it is while `next` runs through the array; the third way is taken once for
each `left`, when `next` has reached the end.

## Main results

* `findTarget_inBounds` — no pass reads outside the array
* `exists_covers` — the passes from any point on
* `exhausts_iff` — the loop ends after all pairs of indices exactly when no sum that it
  computes leaves the range of `int`
-/

namespace BareMetal.FindSum

open CS

variable {n : ℕ} {numbers : Block n ℤ} {target : ℤ} {s s' : Search} {l r : Fin n}
  {printed printed' : List Match} {visited : List Search}

/-- The pairs `(left, next)` that are considered in a run: those of the passes in which `next`
has not reached the end. -/
def considered (n : ℕ) (visited : List Search) : List (ℤ × ℤ) :=
  (visited.filter fun s => s.next < (n : ℤ)).map fun s => (s.left, s.next)

/-- The loop ends, its body is executed `n * (n + 1)` times, and each pair of indices is
considered once, and no other one. -/
def Exhausts (numbers : Block n ℤ) (target : ℤ) : Prop :=
  ∃ visited printed, Returns (findTarget numbers n target) printed ∧
    LeavesVia (findTargetPass numbers n target) visited ⟨0, 0, []⟩ printed ∧
    visited.length = n * (n + 1) ∧ (considered n visited).Nodup ∧
    ∀ p, p ∈ considered n visited ↔ ∃ i j : Fin n, p = (((i : ℕ) : ℤ), ((j : ℕ) : ℤ))

/-! ### Sums out of range -/

/-- A pass at a pair of indices whose sum is not in range. -/
theorem findTargetPass_overflow (hsum : ¬ PairFits numbers target l r) (printed : List Match) :
    findTargetPass numbers n target ⟨(l : ℕ), (r : ℕ), printed⟩ = .error .overflow := by
  have hl : ((l : ℕ) : ℤ) < n := Int.ofNat_lt.mpr l.isLt
  have hr : ((r : ℕ) : ℤ) < n := Int.ofNat_lt.mpr r.isLt
  unfold PairFits at hsum
  push Not at hsum
  obtain ⟨hfirst, hsecond, hrange⟩ := hsum
  have hread : ¬ (numbers l > target ∨ numbers r > target) := by omega
  have hadd : addInt (numbers l) (numbers r) = .error .overflow := if_neg (by omega)
  have hprint : printSum numbers target ⟨(l : ℕ), (r : ℕ), printed⟩ = .error .overflow := by
    simp only [printSum, Block.load_natCast, Outcome.ok_bind, hadd, Outcome.error_bind]
  simp only [findTargetPass, if_pos hl, if_pos hr, isSkipped_eq, Outcome.ok_bind, hread,
    decide_false, hprint]
  rfl

/-- Wherever the loop stands, a pass goes on, leaves, or has a sum that is not in range. -/
theorem Stands.cases_pass (hn : (n : ℤ) ≤ intMax) (numbers : Block n ℤ) (target : ℤ)
    (h : Stands n s) :
    (∃ s', findTargetPass numbers n target s = .ok (.again s') ∧ Stands n s') ∨
      findTargetPass numbers n target s = .ok (.leave s.printed) ∨
      findTargetPass numbers n target s = .error .overflow := by
  cases h with
  | pair l r printed =>
    by_cases hsum : PairFits numbers target l r
    · rcases findTargetPass_pair hn hsum printed with ⟨-, hagain⟩ | ⟨-, hagain⟩
      · exact Or.inl ⟨_, hagain, stands_next l r _⟩
      · exact Or.inl ⟨_, hagain, stands_next l r _⟩
    · exact Or.inr (Or.inr (findTargetPass_overflow hsum printed))
  | row l printed =>
    exact Or.inl ⟨_, findTargetPass_row hn numbers target l printed, stands_first l.isLt printed⟩
  | done printed => exact Or.inr (Or.inl (if_neg (lt_irrefl _)))

/-- The search reads no number outside the array, whatever the sums are. -/
theorem findTarget_inBounds (hn : (n : ℤ) ≤ intMax) (numbers : Block n ℤ) (target : ℤ) (fuel : ℕ)
    (index : ℤ) : findTarget numbers n target fuel ≠ .error (.outOfBounds index) := by
  intro hrun
  have hstop : Stop.outOfBounds index = .outOfFuel ∨ Stop.outOfBounds index = .overflow := by
    refine loop_stop (I := Stands n) (Q := fun e => e = .overflow) (fun s s' h hagain => ?_)
      (fun s e h hstop => ?_) (stands_start n) hrun
    · rcases h.cases_pass hn numbers target with ⟨s₁, hok, h₁⟩ | hleave | hover
      · cases hok.symm.trans hagain
        exact h₁
      · cases hleave.symm.trans hagain
      · cases hover.symm.trans hagain
    · rcases h.cases_pass hn numbers target with ⟨s₁, hok, -⟩ | hleave | hover
      · cases hok.symm.trans hstop
      · cases hleave.symm.trans hstop
      · cases hover.symm.trans hstop
        rfl
  rcases hstop with hfuel | hover
  · cases hfuel
  · cases hover

/-! ### The passes that are to come -/

/-- The passes from `s` on. `rank` takes the end for the start of one more row, so it is too
large by `n`. The pairs that are considered are those that are not behind. -/
structure Covers (n : ℕ) (s : Search) (visited : List Search) : Prop where
  length_eq : visited.length + n = rank n s
  nodup : (considered n visited).Nodup
  mem_iff : ∀ p, p ∈ considered n visited ↔
    ∃ i j : Fin n, ¬ Before s i j ∧ p = (((i : ℕ) : ℤ), ((j : ℕ) : ℤ))

theorem covers_done (printed : List Match) : Covers n ⟨n, 0, printed⟩ [] where
  length_eq := by simp [rank]
  nodup := List.nodup_nil
  mem_iff p := by
    refine iff_of_false List.not_mem_nil ?_
    rintro ⟨i, j, hnot, -⟩
    exact hnot (Or.inl (Int.ofNat_lt.mpr i.isLt))

/-- At the end of a row no pair is considered. -/
theorem Covers.row (h : Covers n ⟨((l : ℕ) : ℤ) + 1, 0, printed⟩ visited) :
    Covers n ⟨(l : ℕ), n, printed⟩ (⟨(l : ℕ), n, printed⟩ :: visited) := by
  have hconsidered : considered n (⟨(l : ℕ), n, printed⟩ :: visited) = considered n visited := by
    rw [considered, List.filter_cons_of_neg (by simp)]
    rfl
  refine ⟨?_, hconsidered ▸ h.nodup, fun p => ?_⟩
  · have hlength := h.length_eq
    rw [List.length_cons, rank_row]
    omega
  · rw [hconsidered, h.mem_iff]
    simp only [before_row_iff]

/-- The pair at the pointers is considered, and then the others. -/
theorem Covers.pair (h : Covers n ⟨(l : ℕ), ((r : ℕ) : ℤ) + 1, printed'⟩ visited)
    (printed : List Match) :
    Covers n ⟨(l : ℕ), (r : ℕ), printed⟩ (⟨(l : ℕ), (r : ℕ), printed⟩ :: visited) := by
  have hconsidered : considered n (⟨(l : ℕ), (r : ℕ), printed⟩ :: visited) =
      (((l : ℕ) : ℤ), ((r : ℕ) : ℤ)) :: considered n visited := by
    rw [considered, List.filter_cons_of_pos (by simp)]
    rfl
  have hself : ¬ Before ⟨(l : ℕ), (r : ℕ), printed⟩ l r := by
    simp [Before]
  refine ⟨?_, ?_, fun p => ?_⟩
  · have hlength := h.length_eq
    rw [List.length_cons, rank_pair l r printed printed']
    omega
  · rw [hconsidered]
    refine List.nodup_cons.mpr ⟨fun hmem => ?_, h.nodup⟩
    -- it is behind once the loop has gone on
    obtain ⟨i, j, hnot, hp⟩ := (h.mem_iff _).mp hmem
    obtain ⟨hi, hj⟩ := Prod.mk.inj hp
    exact hnot ((before_succ_iff printed printed').mpr
      (Or.inr ⟨Fin.ext (Int.ofNat_inj.mp hi).symm, Fin.ext (Int.ofNat_inj.mp hj).symm⟩))
  · rw [hconsidered, List.mem_cons, h.mem_iff]
    constructor
    · rintro (rfl | ⟨i, j, hnot, hp⟩)
      · exact ⟨l, r, hself, rfl⟩
      · rw [before_succ_iff printed, not_or] at hnot
        exact ⟨i, j, hnot.1, hp⟩
    · rintro ⟨i, j, hnot, hp⟩
      by_cases hcell : i = l ∧ j = r
      · obtain ⟨rfl, rfl⟩ := hcell
        exact Or.inl hp
      · refine Or.inr ⟨i, j, ?_, hp⟩
        rw [before_succ_iff printed, not_or]
        exact ⟨hnot, hcell⟩

/-- The passes from any point on, when the sums are in range. -/
theorem exists_covers (hn : (n : ℤ) ≤ intMax) (hsums : ∀ i j, PairFits numbers target i j)
    (h : Stands n s) :
    ∃ visited printed, LeavesVia (findTargetPass numbers n target) visited s printed ∧
      Covers n s visited := by
  have hpass : ∀ m s, (m = rank n s ∧ Stands n s) →
      (∃ k s', k < m ∧ findTargetPass numbers n target s = .ok (.again s') ∧
        (k = rank n s' ∧ Stands n s') ∧
          ∀ visited, Covers n s' visited → Covers n s (s :: visited)) ∨
      ∃ printed, findTargetPass numbers n target s = .ok (.leave printed) ∧ Covers n s [] := by
    rintro m s ⟨rfl, hstands⟩
    cases hstands with
    | pair l r printed =>
      -- whether the pair is printed or not, the loop goes on to the next one
      have hnext : ∃ printed', findTargetPass numbers n target ⟨(l : ℕ), (r : ℕ), printed⟩ =
          .ok (.again ⟨(l : ℕ), ((r : ℕ) : ℤ) + 1, printed'⟩) := by
        rcases findTargetPass_pair hn (hsums l r) printed with ⟨-, hagain⟩ | ⟨-, hagain⟩
        · exact ⟨_, hagain⟩
        · exact ⟨_, hagain⟩
      obtain ⟨printed', hagain⟩ := hnext
      have hrank := rank_pair l r printed printed'
      exact Or.inl ⟨_, _, hrank ▸ Nat.lt_succ_self _, hagain, ⟨rfl, stands_next l r printed'⟩,
        fun visited h => h.pair printed⟩
    | row l printed =>
      have hrank := rank_row l printed
      exact Or.inl ⟨_, _, hrank ▸ Nat.lt_succ_self _,
        findTargetPass_row hn numbers target l printed, ⟨rfl, stands_first l.isLt printed⟩,
        fun visited h => h.row⟩
    | done printed => exact Or.inr ⟨printed, if_neg (lt_irrefl _), covers_done printed⟩
  exact exists_leavesVia hpass ⟨rfl, h⟩

/-- All pairs are considered when the sums are in range. -/
theorem exhausts_of_pairFits (hn : (n : ℤ) ≤ intMax) (hsums : ∀ i j, PairFits numbers target i j) :
    Exhausts numbers target := by
  obtain ⟨visited, printed, hvia, hlength, hnodup, hmem⟩ :=
    exists_covers hn hsums (stands_start n)
  refine ⟨visited, printed, .loop hvia.leavesAfter, hvia, ?_, hnodup, fun p => ?_⟩
  · have hrank : rank n ⟨0, 0, []⟩ = n * (n + 1) + n := by simp [rank]
    omega
  · rw [hmem]
    have hnone (i j : Fin n) : ¬ Before ⟨0, 0, []⟩ i j := by
      simp [Before]
    simp only [hnone, not_false_eq_true, true_and]

/-- A pair that is considered has a sum that is skipped or in range. -/
theorem Exhausts.pairFits (h : Exhausts numbers target) (i j : Fin n) :
    PairFits numbers target i j := by
  obtain ⟨visited, printed, -, hvia, -, -, hmem⟩ := h
  obtain ⟨s, hs, hp⟩ := List.mem_map.mp ((hmem _).mpr ⟨i, j, rfl⟩)
  obtain ⟨s', hagain⟩ := hvia.exists_again (List.mem_of_mem_filter hs)
  obtain ⟨left, next, printed⟩ := s
  obtain ⟨rfl, rfl⟩ := Prod.mk.inj hp
  -- a pass that overflows would not have gone round
  by_contra hsum
  cases (findTargetPass_overflow hsum printed).symm.trans hagain

/-- **The passes of the search.** It never reads outside the array. It ends after
`n * (n + 1)` passes in which it considers each pair of indices once, exactly when no two numbers
that are not greater than the target have a sum that is out of range. -/
theorem exhausts_iff (numbers : Block n ℤ) (target : ℤ) (hn : (n : ℤ) ≤ intMax) :
    (∀ fuel index, findTarget numbers n target fuel ≠ .error (.outOfBounds index)) ∧
      (Exhausts numbers target ↔ ∀ i j, PairFits numbers target i j) :=
  ⟨findTarget_inBounds hn numbers target, fun h => h.pairFits, exhausts_of_pairFits hn⟩

/-- The search of `main`. -/
theorem exhausts_main :
    (∀ fuel index, findTarget ![2, 7, 11, 9, 15, 2, 0, 9] 8 9 fuel ≠
        .error (.outOfBounds index)) ∧
      Exhausts ![2, 7, 11, 9, 15, 2, 0, 9] 9 := by
  obtain ⟨hbounds, hexhausts⟩ := exhausts_iff ![2, 7, 11, 9, 15, 2, 0, 9] 9 (by decide)
  exact ⟨hbounds, hexhausts.mpr (by decide)⟩

/-- The greatest `int` is added to itself. -/
theorem sum_out_of_range :
    (∀ fuel, findTarget ![2147483647] 1 2147483647 (fuel + 1) = .error .overflow) ∧
      ¬ Exhausts ![2147483647] 2147483647 := by
  have hsum : ¬ PairFits ![2147483647] 2147483647 0 0 := by decide
  refine ⟨fun fuel => ?_, fun h => hsum (h.pairFits 0 0)⟩
  exact loop_succ_stop (findTargetPass_overflow hsum []) fuel

end BareMetal.FindSum
