import BareMetal.CS.InPlace
import Mathlib.Data.List.Basic

/-!
# The zeros of `problems/zero-gravity.c`

`move_zeroes` brings the zeros of an array to its end, in place: the other numbers are moved to
the front, one after the other, zeros are written behind them, and the array is printed.

## Main results

* `exists_front`, `fill_eq` — what the two loops leave
* `moveZeroes_returns_iff` — the zeros are behind all other numbers, which have kept their order
-/

namespace BareMetal.ZeroGravity

open CS

variable {nums kept gap pre post : List Int32} {size : ℤ}

/-- One pass of the first loop: the numbers and `sw`. -/
def frontPass (s : List Int32 × ℤ) (fs : ℕ) : Outcome (List Int32 × ℤ) := do
  let num ← Cells.load s.1 fs
  Cells.compactStep (fun num => num ≠ 0) s.1 s.2 num

/-- One pass of the last loop: what has been printed so far. -/
def printPass (nums : List Int32) (printed : List Int32) (i : ℕ) : Outcome (List Int32) := do
  let num ← Cells.load nums i
  .ok (printed ++ [num])

/-- `move_zeroes`, with the numbers it prints. -/
def moveZeroes (nums : List Int32) (size : ℤ) : Outcome (List Int32 × List Int32) := do
  let s ← (List.range size.toNat).foldlM frontPass (nums, 0)
  let nums ← (List.range (size - s.2).toNat).foldlM
    (fun nums (k : ℕ) => Cells.store nums (s.2 + k) 0) s.1
  let printed ← (List.range size.toNat).foldlM (printPass nums) []
  .ok (nums, printed)

/-! ### The numbers in their new order -/

/-- The numbers that are not zero. -/
def front (nums : List Int32) : List Int32 := nums.filter fun num => num ≠ 0

/-- The numbers with the zeros behind all others. -/
def moved (nums : List Int32) : List Int32 :=
  front nums ++ List.replicate (nums.length - (front nums).length) 0

theorem length_front_le (nums : List Int32) : (front nums).length ≤ nums.length :=
  List.length_filter_le _ _

@[simp] theorem length_moved (nums : List Int32) : (moved nums).length = nums.length := by
  have hle := length_front_le nums
  rw [moved, List.length_append, List.length_replicate]
  omega

theorem front_concat (pre : List Int32) (num : Int32) :
    front (pre ++ [num]) = front pre ++ [num].filter fun num => num ≠ 0 :=
  List.filter_append _ _

theorem moved_moved (nums : List Int32) : moved (moved nums) = moved nums := by
  have hfront : front (moved nums) = front nums := by
    have hzeros : ∀ n : ℕ, (List.replicate n (0 : Int32)).filter (fun num => num ≠ 0) = [] := by
      intro n
      apply List.filter_eq_nil_iff.mpr
      intro num hnum
      rw [List.eq_of_mem_replicate hnum]
      decide
    rw [moved, front, List.filter_append, hzeros, List.append_nil, front, List.filter_filter]
    simp only [Bool.and_self]
  rw [moved, hfront, length_moved, moved]

/-- No number is lost, and none is new. -/
theorem perm_moved (nums : List Int32) : (moved nums).Perm nums := by
  have hzeros : nums.filter (fun num => !decide (num ≠ 0)) =
      List.replicate (nums.length - (front nums).length) 0 := by
    have hlen := nums.length_eq_length_filter_add fun num => decide (num ≠ 0)
    apply List.eq_replicate_iff.mpr
    refine ⟨?_, fun num hnum => ?_⟩
    · rw [front]
      omega
    · simpa using (List.mem_filter.mp hnum).2
  rw [moved, ← hzeros]
  exact List.filter_append_perm _ nums

/-! ### The loops -/

/-- After the first passes the numbers they have kept are in front. -/
theorem exists_front (pre post : List Int32) (hmax : (pre.length : ℤ) ≤ intMax) :
    ∃ gap : List Int32, gap.length = pre.length - (front pre).length ∧
      (List.range pre.length).foldlM frontPass (pre ++ post, 0) =
        .ok (front pre ++ gap ++ post, ((front pre).length : ℕ)) := by
  induction pre using List.reverseRecOn generalizing post with
  | nil => exact ⟨[], rfl, rfl⟩
  | append_singleton pre num ih =>
    rw [List.length_append, List.length_singleton] at hmax
    have hle := length_front_le pre
    obtain ⟨gap, hgap, hloop⟩ := ih (num :: post) (by omega)
    obtain ⟨gap', hcount, hstep⟩ := Cells.exists_compactStep (fun num => num ≠ 0) (front pre) gap
      post num (by omega)
    rw [← front_concat] at hcount hstep
    have hread : (pre.length : ℤ) = (front pre ++ gap).length := by
      rw [List.length_append]
      omega
    refine ⟨gap', ?_, ?_⟩
    · rw [List.length_append, List.length_singleton]
      omega
    · rw [List.length_append, List.length_singleton, List.range_succ, List.foldlM_append,
        List.append_assoc, List.singleton_append, hloop, Outcome.ok_bind, List.foldlM_cons,
        frontPass, hread, Cells.load_append_cons, Outcome.ok_bind, hstep]
      rfl

/-- The second loop writes over the gap. -/
theorem fill_eq (kept gap post : List Int32) :
    (List.range gap.length).foldlM
        (fun nums (k : ℕ) => Cells.store nums ((kept.length : ℤ) + k) 0) (kept ++ gap ++ post) =
      .ok (kept ++ List.replicate gap.length 0 ++ post) := by
  induction gap using List.reverseRecOn generalizing post with
  | nil => rfl
  | append_singleton gap g ih =>
    have hcells : kept ++ (gap ++ [g]) ++ post = kept ++ gap ++ (g :: post) := by simp
    have hindex : (kept.length : ℤ) + gap.length =
        (kept ++ List.replicate gap.length (0 : Int32)).length := by
      rw [List.length_append, List.length_replicate, Nat.cast_add]
    rw [hcells, List.length_append, List.length_singleton, List.range_succ, List.foldlM_append,
      ih (g :: post), Outcome.ok_bind, List.foldlM_cons, hindex, Cells.store_append_cons,
      Outcome.ok_bind, List.foldlM_nil, List.replicate_succ', ← List.append_assoc,
      ← List.append_cons]
    rfl

/-- The three loops over the first cells. -/
theorem moveZeroes_eq (pre post : List Int32) (hmax : (pre.length : ℤ) ≤ intMax) :
    moveZeroes (pre ++ post) pre.length = .ok (moved pre ++ post, moved pre) := by
  obtain ⟨gap, hgap, hfront⟩ := exists_front pre post hmax
  have hle := length_front_le pre
  have hrest : ((pre.length : ℤ) - (front pre).length).toNat = gap.length := by omega
  have hprint := Cells.foldlM_note (moved pre) post
  rw [length_moved] at hprint
  rw [moveZeroes, Int.toNat_natCast, hfront, Outcome.ok_bind]
  dsimp only
  rw [hrest, fill_eq, Outcome.ok_bind, hgap, ← moved]
  unfold printPass
  rw [hprint, Outcome.ok_bind]

/-- A pass reads the number at its index, and there are as many numbers as before. -/
theorem of_frontPass {s s' : List Int32 × ℤ} {fs : ℕ} (h : frontPass s fs = .ok s') :
    fs < s.1.length ∧ s'.1.length = s.1.length := by
  obtain ⟨num, hload, hstep⟩ := Outcome.bind_eq_ok.mp h
  obtain ⟨hin, -⟩ := List.getElem?_eq_some_iff.mp (Cells.exists_of_load hload).2
  refine ⟨by rwa [Int.toNat_natCast] at hin, ?_⟩
  unfold Cells.compactStep at hstep
  split_ifs at hstep
  · obtain ⟨cells, hstore, hstep⟩ := Outcome.bind_eq_ok.mp hstep
    obtain ⟨w, -, hstep⟩ := Outcome.bind_eq_ok.mp hstep
    cases hstep
    exact Cells.length_of_store hstore
  · cases hstep
    rfl

/-- A size that is too large reads behind the last cell. -/
theorem le_of_moveZeroes {out : List Int32 × List Int32} (h : moveZeroes nums size = .ok out) :
    size ≤ nums.length := by
  obtain ⟨s, hloop, -⟩ := Outcome.bind_eq_ok.mp h
  have hle := (le_of_foldlM_range (fun s : List Int32 × ℤ => s.1.length)
    (fun _ _ _ _ hpass => of_frontPass hpass) hloop).1
  dsimp only at hle
  omega

/-- **The zeros are moved to the end.** The function returns exactly for the sizes that are no
more than the number of cells. Then the numbers in front are those that are not zero, in their
order, and zeros behind them; no number is lost; it prints what is there now; and a second call
changes nothing. -/
theorem moveZeroes_returns_iff (nums : List Int32) (size : Int32) :
    ((∃ out, moveZeroes nums size.toInt = .ok out) ↔ size.toInt ≤ nums.length) ∧
      ∀ out, moveZeroes nums size.toInt = .ok out →
        out.1 = moved (nums.take size.toInt.toNat) ++ nums.drop size.toInt.toNat ∧
          out.1.Perm nums ∧ out.2 = out.1.take size.toInt.toNat ∧
          moveZeroes out.1 size.toInt = .ok out := by
  have hmax : size.toInt ≤ intMax := Int.le_of_lt_add_one size.toInt_lt
  generalize size.toInt = size at hmax
  -- a negative size does what 0 does
  have hneg : size ≤ 0 → ∀ cells : List Int32, moveZeroes cells size = .ok (cells, []) := by
    intro hle cells
    have hsize : size.toNat = 0 := by omega
    simp only [moveZeroes, hsize, List.range_zero, List.foldlM_nil, pure_bind, sub_zero]
  have heq : ∀ cells : List Int32, size ≤ cells.length → moveZeroes cells size =
      .ok (moved (cells.take size.toNat) ++ cells.drop size.toNat,
        moved (cells.take size.toNat)) := by
    intro cells hle
    rcases le_or_gt size 0 with hnone | hpos
    · have hsize : size.toNat = 0 := by omega
      rw [hneg hnone, hsize]
      rfl
    · lift size to ℕ using hpos.le
      have hlen : (cells.take size).length = size := List.length_take_of_le (by omega)
      have hrun := moveZeroes_eq (cells.take size) (cells.drop size) (by rwa [hlen])
      rwa [List.take_append_drop, hlen] at hrun
  refine ⟨⟨?_, fun hle => ⟨_, heq nums hle⟩⟩, fun out hrun => ?_⟩
  · rintro ⟨out, hrun⟩
    exact le_of_moveZeroes hrun
  · have hle := le_of_moveZeroes hrun
    cases (heq nums hle).symm.trans hrun
    have hlen : (moved (nums.take size.toNat)).length = size.toNat := by
      rw [length_moved, List.length_take]
      omega
    refine ⟨rfl, ?_, (List.take_left' hlen).symm, ?_⟩
    · have hperm := (perm_moved (nums.take size.toNat)).append_right (nums.drop size.toNat)
      rwa [List.take_append_drop] at hperm
    · rw [heq _ (by rw [List.length_append, hlen]; omega), List.take_left' hlen,
        List.drop_left' hlen, moved_moved]

end BareMetal.ZeroGravity
