import BareMetal.CS.TextBuffer
import Mathlib.Algebra.Group.Nat.Defs

/-!
# The splitting of `strings/string_options.c`

`split_string` cuts a string at the last delimiter in it and returns how many there are.
The positions are counted in `int`s.

## Main results

* `exists_scan` — what the scan knows about the characters that it has passed
* `splits_iff` — nothing is lost, for every string whose length is an `int`
-/

namespace BareMetal.StringOptions

open CS

/-- What the scan counts: the position of the last delimiter, and the delimiters. -/
structure Counts where
  leftCount : ℤ
  found : ℤ
  deriving DecidableEq, Repr

/-- The pointers `*left_part` and `*right_part`, with the memory that they point to. -/
structure Parts where
  leftPart : Option CString
  rightPart : Option CString
  deriving DecidableEq, Repr

/-- One step of the scan. -/
def splitStep (delimiter : Int8) (s : Counts) (counter : ℤ) (c : Int8) : Outcome Counts :=
  if c = delimiter then do
    let found ← addInt s.found 1
    .ok ⟨counter, found⟩
  else .ok s

/-- The two buffers. The bytes that `malloc` leaves in them are `leftJunk` and `rightJunk`. -/
def takeParts (rawInput : CString) (counter leftCount : ℤ) (leftJunk rightJunk : ℕ → Int8) :
    Outcome Parts := do
  let rightCount ← subInt (← subInt counter 1) leftCount
  let left := Cells.fresh leftJunk (← addInt leftCount 1)
  let right := Cells.fresh rightJunk (← addInt rightCount 1)
  let left ← Cells.copy rawInput 0 leftCount.toNat left
  let right ← Cells.copy rawInput (← addInt leftCount 1) rightCount.toNat right
  let left ← Cells.store left leftCount 0
  let right ← Cells.store right rightCount 0
  .ok ⟨some left, some right⟩

/-- `split_string`. -/
def splitString (rawInput : CString) (delimiter : Int8) (parts : Parts)
    (leftJunk rightJunk : ℕ → Int8) (fuel : ℕ) : Outcome (ℤ × Parts) := do
  let (counter, s) ← TextBuffer.scan (splitStep delimiter) rawInput ⟨0, 0⟩ fuel
  if s.found = 0 then .ok (0, parts)
  else do
    let parts ← takeParts rawInput counter s.leftCount leftJunk rightJunk
    .ok (s.found, parts)

variable {b : TextBuffer} {pre left right : CString} {delimiter c : Int8} {s : Counts}

/-! ### The scan -/

/-- The scan has passed the characters in `pre`. -/
structure Scanned (delimiter : Int8) (pre : CString) (s : Counts) : Prop where
  found_eq : s.found = pre.count delimiter
  last : delimiter ∈ pre → ∃ left right, pre = left ++ delimiter :: right ∧ delimiter ∉ right ∧
    s.leftCount = left.length

theorem Scanned.step (h : Scanned delimiter pre s) (hlt : (pre.length : ℤ) < intMax) (c : Int8) :
    ∃ s', splitStep delimiter s pre.length c = .ok s' ∧ Scanned delimiter (pre ++ [c]) s' := by
  by_cases hc : c = delimiter
  · subst hc
    have hle := List.count_le_length (a := c) (l := pre)
    have hfound : addInt s.found 1 = .ok (s.found + 1) := by
      rw [h.found_eq]
      exact addInt_one (by omega)
    refine ⟨⟨pre.length, s.found + 1⟩, ?_, ?_, fun _ => ⟨pre, [], rfl, List.not_mem_nil, rfl⟩⟩
    · rw [splitStep, if_pos rfl, hfound, Outcome.ok_bind]
    · simp [h.found_eq]
  · refine ⟨s, if_neg hc, ?_, fun hmem => ?_⟩
    · simp [h.found_eq, hc]
    · have hpre : delimiter ∈ pre := by simpa [Ne.symm hc] using hmem
      obtain ⟨left, right, rfl, hright, hleft⟩ := h.last hpre
      refine ⟨left, right ++ [c], by simp, ?_, hleft⟩
      simpa [Ne.symm hc] using hright

theorem exists_scan (b : TextBuffer) (delimiter : Int8) (hlen : (b.chars.length : ℤ) ≤ intMax) :
    ∃ s, Returns (TextBuffer.scan (splitStep delimiter) b.cells ⟨0, 0⟩) (b.chars.length, s) ∧
      Scanned delimiter b.chars s := by
  have hstep : ∀ pre c post s, b.chars = pre ++ c :: post → Scanned delimiter pre s →
      ∃ s', splitStep delimiter s pre.length c = .ok s' ∧ Scanned delimiter (pre ++ [c]) s' := by
    intro pre c post s hsplit h
    apply h.step
    have hsum := congrArg List.length hsplit
    simp only [List.length_append, List.length_cons] at hsum
    omega
  exact b.exists_scan hlen hstep ⟨rfl, nofun⟩

/-! ### The parts -/

/-- Nothing is lost: the delimiters are counted, and the parts are what stands before and
behind the last one. -/
structure Splits (text : CString) (delimiter : Int8) (parts : Parts) (found : ℤ)
    (parts' : Parts) : Prop where
  found_eq : found = text.count delimiter
  untouched : found = 0 → parts' = parts
  split : 0 < found → ∃ left right : CString, parts' = ⟨some (left ++ [0]), some (right ++ [0])⟩ ∧
    left ++ delimiter :: right = text ∧ delimiter ∉ right

/-- The buffers have room for the parts and their terminators. -/
theorem takeParts_eq (h : b.chars = left ++ delimiter :: right)
    (hlen : (b.chars.length : ℤ) ≤ intMax) (leftJunk rightJunk : ℕ → Int8) :
    takeParts b.cells b.chars.length left.length leftJunk rightJunk =
      .ok ⟨some (left ++ [0]), some (right ++ [0])⟩ := by
  have htotal : b.chars.length = left.length + right.length + 1 := by
    rw [h, List.length_append, List.length_cons, Nat.add_assoc]
  have hsub : subInt b.chars.length 1 = .ok ((left.length : ℤ) + right.length) := by
    rw [subInt_of_range (intMin_le (by omega)) (by omega), htotal]
    congr 1
    omega
  have hright : subInt ((left.length : ℤ) + right.length) left.length = .ok (right.length : ℤ) := by
    rw [subInt_of_range (intMin_le (by omega)) (by omega), add_sub_cancel_left]
  have hleftSize : addInt left.length 1 = .ok ((left.length + 1 : ℕ) : ℤ) :=
    addInt_one (by omega)
  have hrightSize : addInt right.length 1 = .ok ((right.length + 1 : ℕ) : ℤ) :=
    addInt_one (by omega)
  -- one cell of each buffer is left for the terminator
  obtain ⟨c, hcopyLeft⟩ := Cells.exists_copy_eq [] left (delimiter :: right ++ 0 :: b.rest)
    (Cells.length_fresh leftJunk (left.length + 1))
  obtain ⟨d, hcopyRight⟩ := Cells.exists_copy_eq (left ++ [delimiter]) right (0 :: b.rest)
    (Cells.length_fresh rightJunk (right.length + 1))
  have hcellsLeft : [] ++ left ++ (delimiter :: right ++ 0 :: b.rest) = b.cells := by
    simp [TextBuffer.cells, h]
  have hcellsRight : left ++ [delimiter] ++ right ++ 0 :: b.rest = b.cells := by
    simp [TextBuffer.cells, h]
  have hbase : (left ++ [delimiter]).length = left.length + 1 := by simp
  rw [hcellsLeft] at hcopyLeft
  rw [hcellsRight, hbase] at hcopyRight
  rw [List.length_nil, Nat.cast_zero] at hcopyLeft
  rw [takeParts, hsub, Outcome.ok_bind, hright, Outcome.ok_bind, hleftSize, Outcome.ok_bind,
    hrightSize, Outcome.ok_bind, Int.toNat_natCast, Int.toNat_natCast, hcopyLeft, Outcome.ok_bind,
    Outcome.ok_bind, hcopyRight, Outcome.ok_bind, Cells.store_append_cons, Outcome.ok_bind,
    Cells.store_append_cons, Outcome.ok_bind]

/-- What follows the scan has no loop with a bound. -/
theorem returns_of_scan {parts : Parts} {leftJunk rightJunk : ℕ → Int8} {counter : ℤ}
    {out : ℤ × Parts}
    (hscan : Returns (TextBuffer.scan (splitStep delimiter) b.cells ⟨0, 0⟩) (counter, s))
    (hrest : (if s.found = 0 then .ok (0, parts)
      else takeParts b.cells counter s.leftCount leftJunk rightJunk >>= fun parts =>
        .ok (s.found, parts)) = .ok out) :
    Returns (splitString b.cells delimiter parts leftJunk rightJunk) out :=
  hscan.bind (g := fun (p : ℤ × Counts) _ => if p.2.found = 0 then .ok (0, parts)
    else takeParts b.cells p.1 p.2.leftCount leftJunk rightJunk >>= fun parts =>
      .ok (p.2.found, parts)) (.of_eq fun _ => hrest)

theorem returns_splitString (b : TextBuffer) (delimiter : Int8) (parts : Parts)
    (leftJunk rightJunk : ℕ → Int8) (hlen : (b.chars.length : ℤ) ≤ intMax) :
    ∃ found parts', Returns (splitString b.cells delimiter parts leftJunk rightJunk)
      (found, parts') ∧ Splits b.chars delimiter parts found parts' := by
  obtain ⟨s, hscan, hscanned⟩ := exists_scan b delimiter hlen
  have hfound := hscanned.found_eq
  by_cases hmem : delimiter ∈ b.chars
  · obtain ⟨left, right, hsplit, hright, hleft⟩ := hscanned.last hmem
    have hpos : 0 < s.found := by
      rw [hfound]
      exact_mod_cast List.count_pos_iff.mpr hmem
    have hparts := takeParts_eq hsplit hlen leftJunk rightJunk
    rw [← hleft] at hparts
    refine ⟨s.found, _, returns_of_scan hscan ?_, hfound, fun hzero => absurd hzero hpos.ne',
      fun _ => ⟨left, right, rfl, hsplit.symm, hright⟩⟩
    rw [if_neg hpos.ne', hparts, Outcome.ok_bind]
  · have hzero : s.found = 0 := by
      rw [hfound, List.count_eq_zero.mpr hmem]
      rfl
    exact ⟨0, parts, returns_of_scan hscan (if_pos hzero), hzero ▸ hfound, fun _ => rfl,
      fun hpos => absurd hpos (lt_irrefl 0)⟩

theorem splitString_ne_ok (b : TextBuffer) (delimiter : Int8) (parts : Parts)
    (leftJunk rightJunk : ℕ → Int8) (hlen : intMax < (b.chars.length : ℤ)) (fuel : ℕ)
    (out : ℤ × Parts) : splitString b.cells delimiter parts leftJunk rightJunk fuel ≠ .ok out := by
  intro hrun
  obtain ⟨s, hscan, -⟩ := Outcome.bind_eq_ok.mp hrun
  exact b.scan_ne_ok hlen fuel s hscan

/-- **Splitting loses nothing**, unless there are more characters than an `int` can count. -/
theorem splits_iff (b : TextBuffer) (delimiter : Int8) (parts : Parts)
    (leftJunk rightJunk : ℕ → Int8) :
    (∃ found parts', Returns (splitString b.cells delimiter parts leftJunk rightJunk)
      (found, parts') ∧ Splits b.chars delimiter parts found parts') ↔
      (b.chars.length : ℤ) ≤ intMax := by
  constructor
  · rintro ⟨found, parts', hreturns, -⟩
    by_contra hlen
    obtain ⟨fuel, hrun⟩ := hreturns.exists_ok
    exact splitString_ne_ok b delimiter parts leftJunk rightJunk (not_le.mp hlen) fuel _ hrun
  · exact returns_splitString b delimiter parts leftJunk rightJunk

/-- 2³¹ letters are too many. -/
theorem not_splits_longText :
    ¬ ∃ found parts', Returns (splitString (TextBuffer.ofLength (2 ^ 31)).cells 58 ⟨none, none⟩
      (fun _ => 0) fun _ => 0) (found, parts') ∧
        Splits (TextBuffer.ofLength (2 ^ 31)).chars 58 ⟨none, none⟩ found parts' := by
  rintro ⟨found, parts', hreturns, -⟩
  obtain ⟨fuel, hrun⟩ := hreturns.exists_ok
  refine splitString_ne_ok _ 58 ⟨none, none⟩ _ _ ?_ fuel _ hrun
  rw [TextBuffer.length_ofLength]
  decide

end BareMetal.StringOptions
