import BareMetal.CS.Cells
import BareMetal.CS.Loop
import Mathlib.Data.List.Dedup
import Mathlib.Data.List.Perm.Basic

/-!
# The duplicates of `problems/rem-array-duplicates.c`

`remove_duplicates` keeps one of each run of equal numbers in an array, in place. The slow index
is that of the last number that is kept, and the function returns it plus one. An array without
numbers keeps none, but the slow index is 0 then too.

## Main results

* `Kept.pass` — one number
* `exact_iff` — the sorted arrays whose distinct values are kept and counted: those with a number
-/

namespace BareMetal.RemArrayDuplicates

open CS

/-- The array and the slow index of `remove_duplicates`. -/
structure Locals where
  nums : List ℤ
  sw : ℤ
  deriving DecidableEq, Repr

/-- One pass of the first loop of `remove_duplicates`. -/
def keepPass (s : Locals) (fs : ℤ) : Outcome Locals := do
  let a ← Cells.load s.nums fs
  let b ← Cells.load s.nums s.sw
  if a ≠ b then do
    let sw ← addInt s.sw 1
    let a ← Cells.load s.nums fs
    let nums ← Cells.store s.nums sw a
    .ok ⟨nums, sw⟩
  else .ok s

/-- What the second loop of `remove_duplicates` prints. -/
def printNums (nums : List ℤ) (size : ℤ) : Outcome String := do
  let output ← (List.range size.toNat).foldlM (fun output (i : ℕ) => do
    let n ← Cells.load nums i
    .ok (output ++ "[" ++ toString n ++ "]")) "--------------------\n"
  .ok (output ++ "\n")

/-- `remove_duplicates`, with the array after it, its output and the number that it returns. -/
def removeDuplicates (nums : List ℤ) (size : ℤ) : Outcome (List ℤ × String × ℤ) := do
  let s ← (List.range (size - 1).toNat).foldlM (fun s (i : ℕ) => keepPass s (i + 1)) ⟨nums, 0⟩
  let output ← printNums s.nums size
  let res ← addInt s.sw 1
  .ok (s.nums, output, res)

/-- The first `k` cells hold the distinct values in increasing order, and `k` is their number. -/
structure Distinct (nums nums' : List ℤ) (k : ℤ) : Prop where
  count_eq : k = (nums.dedup.length : ℕ)
  increasing : (nums'.take k.toNat).Pairwise (· < ·)
  mem_iff : ∀ v, v ∈ nums'.take k.toNat ↔ v ∈ nums

/-- The call returns the number of distinct values, and they are in front. -/
def Exact (nums : List ℤ) : Prop :=
  ∃ nums' output k, removeDuplicates nums nums.length = .ok (nums', output, k) ∧
    Distinct nums nums' k

variable {nums : List ℤ} {s : Locals} {m : ℕ} {c : ℤ}

/-- After `m` passes: the numbers that are kept, the last of them, and those that were read since
it was written. -/
structure Kept (nums : List ℤ) (m : ℕ) (s : Locals) (front : List ℤ) (last : ℤ) (gap : List ℤ) :
    Prop where
  nums_eq : s.nums = front ++ [last] ++ gap ++ nums.drop (m + 1)
  sw_eq : s.sw = front.length
  length_eq : (front ++ [last] ++ gap).length = m + 1
  increasing : (front ++ [last]).Pairwise (· < ·)
  mem_iff : ∀ v, v ∈ front ++ [last] ↔ v ∈ nums.take (m + 1)

/-- The output for an array: a line, and every number in brackets. -/
def printed (nums : List ℤ) : String :=
  nums.foldl (fun output n => output ++ "[" ++ toString n ++ "]") "--------------------\n" ++ "\n"

theorem printNums_eq (nums : List ℤ) : printNums nums nums.length = .ok (printed nums) := by
  have hloop := Cells.foldlM_load
    (fun (output : String) n => .ok (output ++ "[" ++ toString n ++ "]")) nums
    "--------------------\n"
  have hpure := List.foldlM_pure (m := Outcome)
    (f := fun (output : String) (n : ℤ) => output ++ "[" ++ toString n ++ "]") (l := nums)
    (b := "--------------------\n")
  rw [printNums, Int.toNat_natCast]
  exact congrArg (· >>= fun output => .ok (output ++ "\n")) (hloop.trans hpure)

/-- The numbers before one of a sorted array are not larger. -/
theorem le_of_mem_take (hsorted : nums.Pairwise (· ≤ ·)) (hm : nums[m]? = some c) :
    ∀ v ∈ nums.take m, v ≤ c := by
  obtain ⟨hlt, hc⟩ := List.getElem?_eq_some_iff.mp hm
  rw [← List.take_append_drop m nums, List.drop_eq_getElem_cons hlt, hc] at hsorted
  exact fun v hv => (List.pairwise_append.mp hsorted).2.2 v hv c List.mem_cons_self

/-- One number is read, and kept where it is not the last one that was. -/
theorem Kept.pass {front gap : List ℤ} {last : ℤ} (h : Kept nums m s front last gap)
    (hsorted : nums.Pairwise (· ≤ ·)) (hm : nums[m + 1]? = some c) (hmax : (m : ℤ) < intMax) :
    ∃ s' front' last' gap', keepPass s (m + 1) = .ok s' ∧
      Kept nums (m + 1) s' front' last' gap' := by
  obtain ⟨hlt, hc⟩ := List.getElem?_eq_some_iff.mp hm
  have hdrop : nums.drop (m + 1) = c :: nums.drop (m + 2) := by
    rw [← hc, List.drop_eq_getElem_cons hlt]
  have htake : nums.take (m + 2) = nums.take (m + 1) ++ [c] := by
    rw [List.take_add_one, hm]
    rfl
  have hload : Cells.load s.nums (m + 1) = .ok c := by
    have hindex : (m : ℤ) + 1 = (front ++ [last] ++ gap).length := by
      rw [h.length_eq]
      rfl
    rw [h.nums_eq, hdrop, hindex, Cells.load_append_cons]
  have hlast : Cells.load s.nums s.sw = .ok last := by
    rw [h.nums_eq, h.sw_eq, List.append_assoc, List.append_assoc, List.singleton_append,
      Cells.load_append_cons]
  have htotal := h.length_eq
  simp only [List.length_append, List.length_singleton] at htotal
  by_cases hsame : c = last
  · -- the number joins the gap, and is known already
    refine ⟨s, front, last, gap ++ [c], ?_, ?_, h.sw_eq, ?_, h.increasing, fun v => ?_⟩
    · rw [keepPass, hload, Outcome.ok_bind, hlast, Outcome.ok_bind]
      exact if_neg (not_not.mpr hsame)
    · rw [h.nums_eq, hdrop]
      simp
    · rw [← List.append_assoc, List.length_append, h.length_eq, List.length_singleton]
    · rw [htake, List.mem_append (s := nums.take (m + 1)), ← h.mem_iff, List.mem_singleton]
      refine ⟨Or.inl, fun hv => hv.elim id fun hv => ?_⟩
      rw [hv, hsame]
      exact List.mem_append_right _ (List.mem_singleton_self _)
  · -- the number is written to the first cell behind those that are kept
    obtain ⟨gap', hlength, hstore⟩ :=
      Cells.exists_store_gap (front ++ [last]) gap (nums.drop (m + 2)) c
    have hsw : addInt s.sw 1 = .ok ((front ++ [last]).length : ℕ) := by
      rw [List.length_append, List.length_singleton, h.sw_eq]
      exact addInt_one (by omega)
    refine ⟨⟨front ++ [last] ++ [c] ++ gap' ++ nums.drop (m + 2), (front ++ [last]).length⟩,
      front ++ [last], c, gap', ?_, rfl, rfl, ?_, ?_, fun v => ?_⟩
    · rw [keepPass, hload, Outcome.ok_bind, hlast, Outcome.ok_bind, if_pos hsame, hsw,
        Outcome.ok_bind, Outcome.ok_bind, h.nums_eq, hdrop, hstore]
      rfl
    · simp only [List.length_append, List.length_singleton, hlength]
      omega
    · refine List.pairwise_append.mpr
        ⟨h.increasing, List.pairwise_singleton .., fun v hv w hw => ?_⟩
      rw [List.mem_singleton.mp hw]
      have hle : last ≤ c := le_of_mem_take hsorted hm last
        ((h.mem_iff last).mp (List.mem_append_right _ (List.mem_singleton_self _)))
      -- the last number that is kept is the largest of them
      have hbefore : v ≤ last := by
        rcases List.mem_append.mp hv with hfront | hlast
        · exact Int.le_of_lt ((List.pairwise_append.mp h.increasing).2.2 v hfront last
            (List.mem_singleton_self _))
        · exact Int.le_of_eq (List.mem_singleton.mp hlast)
      omega
    · rw [htake, List.mem_append, List.mem_append (s := nums.take (m + 1)), ← h.mem_iff]

/-- All passes, for an array with a number. -/
theorem exists_kept (hsorted : nums.Pairwise (· ≤ ·)) (hne : nums ≠ [])
    (hmax : (nums.length : ℤ) ≤ intMax) :
    ∃ s front last gap, (List.range (nums.length - 1)).foldlM
        (fun s (i : ℕ) => keepPass s (i + 1)) ⟨nums, 0⟩ = .ok s ∧
      Kept nums (nums.length - 1) s front last gap := by
  obtain ⟨first, rest, rfl⟩ := List.exists_cons_of_ne_nil hne
  have hstep : ∀ i < rest.length, ∀ s,
      (∃ front last gap, Kept (first :: rest) i s front last gap) →
      ∃ s', Returns (fun _ => keepPass s (i + 1)) s' ∧
        ∃ front last gap, Kept (first :: rest) (i + 1) s' front last gap := by
    rintro i hi s ⟨front, last, gap, h⟩
    rw [List.length_cons] at hmax
    have hm : (first :: rest)[i + 1]? = some rest[i] := by
      rw [List.getElem?_cons_succ, List.getElem?_eq_getElem hi]
    obtain ⟨s', front', last', gap', hpass, h'⟩ := h.pass hsorted hm (by omega)
    exact ⟨s', .of_eq fun _ => hpass, front', last', gap', h'⟩
  have hstart : Kept (first :: rest) 0 ⟨first :: rest, 0⟩ [] first [] :=
    ⟨rfl, rfl, rfl, List.pairwise_singleton .., fun v => Iff.rfl⟩
  obtain ⟨s, hreturns, front, last, gap, h⟩ :=
    Returns.foldlM_range hstep ⟨[], first, [], hstart⟩
  obtain ⟨-, hok⟩ := hreturns.exists_ok
  exact ⟨s, front, last, gap, hok, h⟩

/-- The numbers that are kept, when all have been read. -/
theorem Kept.distinct {front gap : List ℤ} {last : ℤ} (h : Kept nums m s front last gap)
    (hm : m + 1 = nums.length) : Distinct nums s.nums ((front.length : ℤ) + 1) := by
  have hfront : s.nums.take ((front.length : ℤ) + 1).toNat = front ++ [last] := by
    have hk : ((front.length : ℤ) + 1).toNat = (front ++ [last]).length := by
      rw [List.length_append, List.length_singleton]
      rfl
    rw [h.nums_eq, hk, List.append_assoc, List.take_left]
  have hmem : ∀ v, v ∈ front ++ [last] ↔ v ∈ nums := by
    intro v
    rw [h.mem_iff, hm, List.take_length]
  refine ⟨?_, ?_, ?_⟩
  · have hnodup : (front ++ [last]).Nodup := h.increasing.imp Int.ne_of_lt
    have hperm : (front ++ [last]).Perm nums.dedup :=
      (List.perm_ext_iff_of_nodup hnodup nums.nodup_dedup).mpr fun v => by
        rw [hmem, List.mem_dedup]
    rw [← hperm.length_eq, List.length_append, List.length_singleton]
    rfl
  · rw [hfront]
    exact h.increasing
  · rw [hfront]
    exact hmem

/-- Without numbers the slow index is 0 too. -/
theorem removeDuplicates_nil :
    removeDuplicates [] 0 = .ok ([], "--------------------\n\n", 1) := rfl

theorem not_exact_nil : ¬ Exact [] := by
  rintro ⟨nums', output, k, hok, hdistinct⟩
  cases removeDuplicates_nil.symm.trans hok
  exact absurd hdistinct.count_eq (by decide)

/-- **Duplicates.** The call on a sorted array returns the number of its distinct values, with
these in front, exactly when the array has a number. -/
theorem exact_iff (hsorted : nums.Pairwise (· ≤ ·)) (hmax : (nums.length : ℤ) ≤ intMax) :
    Exact nums ↔ nums ≠ [] := by
  constructor
  · rintro hexact rfl
    exact not_exact_nil hexact
  · intro hne
    obtain ⟨s, front, last, gap, hloop, h⟩ := exists_kept hsorted hne hmax
    have hpos : 0 < nums.length := List.length_pos_iff.mpr hne
    have htotal := h.length_eq
    simp only [List.length_append, List.length_singleton] at htotal
    have hlength : nums.length = s.nums.length := by
      rw [h.nums_eq, List.length_append, h.length_eq, List.length_drop]
      omega
    have hpasses : ((nums.length : ℤ) - 1).toNat = nums.length - 1 := by omega
    have hres : addInt s.sw 1 = .ok ((front.length : ℤ) + 1) := by
      rw [h.sw_eq]
      exact addInt_one (by omega)
    refine ⟨s.nums, printed s.nums, _, ?_, h.distinct (Nat.sub_add_cancel hpos)⟩
    rw [removeDuplicates, hpasses, hloop, Outcome.ok_bind, hlength, printNums_eq, Outcome.ok_bind,
      hres]
    rfl

/-- The array of `main`. -/
theorem exact_main :
    Exact [1, 2, 3, 4, 5, 5, 5, 5, 6, 6, 7] ↔ [1, 2, 3, 4, 5, 5, 5, 5, 6, 6, (7 : ℤ)] ≠ [] :=
  exact_iff (by decide) (by decide)

/-- The call on an array without numbers returns 1. -/
theorem empty_array_counted :
    removeDuplicates [] 0 = .ok ([], "--------------------\n\n", 1) ∧
      ([] : List ℤ).Pairwise (· ≤ ·) ∧ ¬ Exact [] :=
  ⟨removeDuplicates_nil, List.Pairwise.nil, not_exact_nil⟩

end BareMetal.RemArrayDuplicates
