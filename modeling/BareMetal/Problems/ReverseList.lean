import BareMetal.CS.InPlace

/-!
# The reversal of `problems/reverse_list.c`

`reverse_array` exchanges the first half of an array with the second, from the outside to the
inside. The caller says how many cells there are.

## Main results

* `exists_reverseFrom` — the loop reverses the cells between its two indices
* `reverseArray_returns_iff` — for which sizes the function returns, and what it leaves
-/

namespace BareMetal.ReverseList

open CS

variable {arr pre seg post : List ℤ} {size : ℤ}

/-- One pass of the loop: `i` from the loop, `rewind` from the pass before. -/
def reversePass (s : List ℤ × ℤ) (i : ℕ) : Outcome (List ℤ × ℤ) := do
  let arr ← Cells.exchange s.1 i s.2
  let rewind ← subInt s.2 1
  .ok (arr, rewind)

/-- `reverse_array`. -/
def reverseArray (arr : List ℤ) (size : ℤ) : Outcome (List ℤ) := do
  let iteration := size.tdiv 2
  let rewind ← subInt size 1
  let s ← (List.range iteration.toNat).foldlM reversePass (arr, rewind)
  .ok s.1

/-! ### The loop -/

/-- The passes from the index `pre.length` on. The induction takes one cell off each end, as a
pass does. -/
theorem exists_reverseFrom (pre seg post : List ℤ)
    (hmax : ((pre ++ seg).length : ℤ) ≤ intMax) :
    ∃ rewind, (List.range' pre.length (seg.length / 2)).foldlM reversePass
        (pre ++ seg ++ post, ((pre ++ seg).length : ℤ) - 1) =
      .ok (pre ++ seg.reverse ++ post, rewind) := by
  induction seg using List.bidirectionalRec generalizing pre post with
  | nil => exact ⟨_, rfl⟩
  | singleton c =>
    have hhalf : [c].length / 2 = 0 := by simp
    rw [hhalf]
    exact ⟨_, rfl⟩
  | cons_append a mid z ih =>
    have hcells : pre ++ a :: (mid ++ [z]) ++ post = pre ++ a :: (mid ++ z :: post) := by simp
    have hreverse : pre ++ (a :: (mid ++ [z])).reverse ++ post =
        pre ++ [z] ++ mid.reverse ++ a :: post := by
      simp
    have hhalf : (a :: (mid ++ [z])).length / 2 = mid.length / 2 + 1 := by
      simp only [List.length_append, List.length_cons, List.length_nil]
      omega
    have hrewind : ((pre ++ a :: (mid ++ [z])).length : ℤ) - 1 = (pre ++ a :: mid).length := by
      simp only [List.length_append, List.length_cons, List.length_nil]
      omega
    have hnext : ((pre ++ a :: mid).length : ℤ) - 1 = ((pre ++ [z] ++ mid).length : ℤ) - 1 := by
      simp only [List.length_append, List.length_cons, List.length_nil]
      omega
    have hroom : ((pre ++ a :: mid).length : ℤ) ≤ intMax := by
      simp only [List.length_append, List.length_cons, List.length_nil] at hmax ⊢
      omega
    have hpass : reversePass (pre ++ a :: (mid ++ z :: post), (pre ++ a :: mid).length)
        pre.length =
          .ok (pre ++ [z] ++ mid ++ a :: post, ((pre ++ [z] ++ mid).length : ℤ) - 1) := by
      rw [reversePass, Cells.exchange_ends, Outcome.ok_bind, subInt_one hroom, Outcome.ok_bind,
        hnext]
      simp
    have hinner : ((pre ++ [z] ++ mid).length : ℤ) ≤ intMax := by
      simp only [List.length_append, List.length_cons, List.length_nil] at hmax ⊢
      omega
    obtain ⟨rewind, hrest⟩ := ih (pre ++ [z]) (a :: post) hinner
    have hindex : (pre ++ [z]).length = pre.length + 1 := List.length_append
    rw [hindex] at hrest
    refine ⟨rewind, ?_⟩
    rw [hcells, hhalf, hrewind, hreverse, List.range'_succ, List.foldlM_cons, hpass,
      Outcome.ok_bind]
    exact hrest

/-- The first `n` cells are reversed. -/
theorem reverseArray_eq {n : ℕ} (hn : n ≤ arr.length) (hmax : (n : ℤ) ≤ intMax) :
    reverseArray arr n = .ok ((arr.take n).reverse ++ arr.drop n) := by
  have hlen : (arr.take n).length = n := List.length_take_of_le hn
  have hhalf : ((n : ℤ).tdiv 2).toNat = n / 2 := by
    rw [Int.tdiv_eq_ediv_of_nonneg (by omega)]
    omega
  obtain ⟨rewind, hloop⟩ := exists_reverseFrom [] (arr.take n) (arr.drop n)
    (by rwa [List.nil_append, hlen])
  rw [List.nil_append, List.nil_append, hlen, List.length_nil, List.take_append_drop,
    ← List.range_eq_range'] at hloop
  rw [reverseArray, subInt_one hmax, Outcome.ok_bind, hhalf, hloop]
  rfl

/-- Without a pair to exchange nothing is read. -/
theorem reverseArray_of_le (hmin : intMin < size) (hle : size ≤ 1) :
    reverseArray arr size = .ok arr := by
  have hhalf : (size.tdiv 2).toNat = 0 := by
    rcases le_or_gt 0 size with hnonneg | hneg
    · rw [Int.tdiv_eq_ediv_of_nonneg hnonneg]
      omega
    · have hle := Int.tdiv_le_tdiv (by decide : (0 : ℤ) < 2) hneg.le
      rw [Int.zero_tdiv] at hle
      omega
  have hsub : subInt size 1 = .ok (size - 1) := by
    apply subInt_of_range <;> simp only [intMin, intMax] at hmin ⊢ <;> omega
  rw [reverseArray, hsub, Outcome.ok_bind, hhalf]
  rfl

/-- The first pass reads the last cell. -/
theorem le_of_reverseArray {out : List ℤ} (h : reverseArray arr size = .ok out) (hlt : 1 < size) :
    size ≤ arr.length := by
  obtain ⟨rewind, hsub, h⟩ := Outcome.bind_eq_ok.mp h
  obtain ⟨s, hloop, -⟩ := Outcome.bind_eq_ok.mp h
  have hhalf : 0 < (size.tdiv 2).toNat := by
    rw [Int.tdiv_eq_ediv_of_nonneg (by omega)]
    omega
  obtain ⟨k, hk⟩ := Nat.exists_eq_add_of_lt hhalf
  rw [hk, Nat.zero_add, List.range_succ_eq_map, List.foldlM_cons] at hloop
  obtain ⟨s', hpass, -⟩ := Outcome.bind_eq_ok.mp hloop
  obtain ⟨arr', hexchange, -⟩ := Outcome.bind_eq_ok.mp hpass
  obtain ⟨temp, -, hexchange⟩ := Outcome.bind_eq_ok.mp hexchange
  obtain ⟨last, hload, -⟩ := Outcome.bind_eq_ok.mp hexchange
  unfold subInt at hsub
  split_ifs at hsub
  cases hsub
  obtain ⟨hnonneg, hcell⟩ := Cells.exists_of_load hload
  obtain ⟨hin, -⟩ := List.getElem?_eq_some_iff.mp hcell
  dsimp only at hnonneg hin
  omega

/-- **When an array is reversed.** For the sizes that are no more than the number of cells, for
those that leave no pair to exchange, and for no other one: the least `int` overflows, and a size
that is too large reads behind the last cell. A second call brings the array back. -/
theorem reverseArray_returns_iff (arr : List ℤ) (size : Int32) :
    ((∃ out, reverseArray arr size.toInt = .ok out) ↔
        intMin < size.toInt ∧ (size.toInt ≤ 1 ∨ size.toInt ≤ arr.length)) ∧
      ∀ out, reverseArray arr size.toInt = .ok out →
        out = (arr.take size.toInt.toNat).reverse ++ arr.drop size.toInt.toNat ∧
          reverseArray out size.toInt = .ok arr := by
  have hmax : size.toInt ≤ intMax := Int.le_of_lt_add_one size.toInt_lt
  generalize size.toInt = size at hmax
  have hconverse : ∀ out, reverseArray arr size = .ok out →
      intMin < size ∧ (size ≤ 1 ∨ size ≤ arr.length) := by
    intro out hrun
    refine ⟨?_, ?_⟩
    · obtain ⟨rewind, hsub, -⟩ := Outcome.bind_eq_ok.mp hrun
      unfold subInt at hsub
      split_ifs at hsub with hrange
      omega
    · by_contra hnot
      obtain ⟨hgt, hlong⟩ := not_or.mp hnot
      exact hlong (le_of_reverseArray hrun (not_le.mp hgt))
  refine ⟨⟨?_, ?_⟩, fun out hrun => ?_⟩
  · rintro ⟨out, hrun⟩
    exact hconverse out hrun
  · rintro ⟨hmin, hle | hle⟩
    · exact ⟨arr, reverseArray_of_le hmin hle⟩
    · rcases le_or_gt size 1 with hone | hgt
      · exact ⟨arr, reverseArray_of_le hmin hone⟩
      · lift size to ℕ using by omega
        exact ⟨_, reverseArray_eq (by omega) hmax⟩
  · obtain ⟨hmin, hle⟩ := hconverse out hrun
    rcases le_or_gt size 1 with hone | hgt
    · -- at most one cell is in front, and it stays there
      have hnone : reverseArray arr size = .ok arr := reverseArray_of_le hmin hone
      cases hnone.symm.trans hrun
      refine ⟨?_, hnone⟩
      have hself : ∀ cells : List ℤ, cells.length ≤ 1 → cells.reverse = cells := by
        intro cells hfew
        rcases Nat.le_one_iff_eq_zero_or_eq_one.mp hfew with hzero | hsingle
        · rw [List.length_eq_zero_iff.mp hzero, List.reverse_nil]
        · obtain ⟨c, rfl⟩ := List.length_eq_one_iff.mp hsingle
          rw [List.reverse_singleton]
      rw [hself _ (by rw [List.length_take]; omega), List.take_append_drop]
    · lift size to ℕ using by omega
      have hn : size ≤ arr.length := by omega
      have hlen : (arr.take size).reverse.length = size := by
        rw [List.length_reverse, List.length_take_of_le hn]
      cases (reverseArray_eq hn hmax).symm.trans hrun
      refine ⟨rfl, ?_⟩
      rw [reverseArray_eq (by rw [List.length_append, hlen]; omega) hmax]
      rw [List.take_left' hlen, List.drop_left' hlen, List.reverse_reverse, List.take_append_drop]

end BareMetal.ReverseList
