import BareMetal.CS.InPlace

/-!
# The string edits of `problems/strip_vowels.c`

`reverse_string` finds the length of a string with an `int` and then exchanges the characters at
an index and at its mirror image; `reverse_string_p` lets two pointers walk towards each other.
`strip_vowels` moves the characters that are no vowels to the front. All three work in place.

## Main results

* `returns_reverseStringP`, `returns_reverseString` — the characters come out in reverse order
* `both_reverse_in_place` — both functions do the same, as long as the length is an `int`
* `strips_vowels` — the vowels are gone, and nothing behind the string has changed
-/

namespace BareMetal.StripVowels

open CS

variable {b : TextBuffer} {pre seg post : CString} {c : Int8}

/-! ### The functions -/

/-- The characters that `strip_vowels` compares with. -/
def isVowel (c : Int8) : Bool :=
  c = 97 || c = 65 || (c = 101 || c = 69) || (c = 105 || c = 73) || (c = 111 || c = 79) ||
    (c = 117 || c = 85)

/-- `strip_vowels`. -/
def stripVowels (str : CString) (fuel : ℕ) : Outcome CString := do
  let s ← TextBuffer.edit
    (fun sCount str _ c => Cells.compactStep (fun c => !isVowel c) str sCount c) str (0 : ℤ) fuel
  Cells.store s.str s.acc 0

/-- The memory, the loop variable and the count of `reverse_string`. -/
structure Mirror where
  str : CString
  i : ℤ
  count : ℤ
  deriving DecidableEq, Repr

/-- One pass of the loop of `reverse_string`. -/
def mirrorPass (strLen : ℤ) (s : Mirror) : Outcome (Pass Mirror CString) :=
  if s.i > 0 then
    if s.count = strLen.tdiv 2 then .ok (.leave s.str)
    else do
      let str ← Cells.exchange s.str s.count s.i
      let count ← addInt s.count 1
      let i ← subInt s.i 1
      .ok (.again ⟨str, i, count⟩)
  else .ok (.leave s.str)

/-- `reverse_string`. -/
def reverseString (str : Option CString) (fuel : ℕ) : Outcome (Option CString) :=
  match str with
  | none => .ok none
  | some str => do
    let c ← Cells.load str 0
    if c = 0 then .ok (some str)
    else do
      let s ← TextBuffer.scan (fun _ _ _ => .ok ()) str () fuel
      let i ← subInt s.1 1
      let str ← loop (mirrorPass s.1) fuel ⟨str, i, 0⟩
      .ok (some str)

/-- The memory and the two pointers of `reverse_string_p`. -/
structure Pointers where
  str : CString
  left : ℤ
  right : ℤ
  deriving DecidableEq, Repr

/-- One pass of the loop of `reverse_string_p`. -/
def pointersPass (s : Pointers) : Outcome (Pass Pointers CString) :=
  if s.left < s.right then do
    let str ← Cells.exchange s.str s.left s.right
    .ok (.again ⟨str, s.left + 1, s.right - 1⟩)
  else .ok (.leave s.str)

/-- `reverse_string_p`. -/
def reverseStringP (str : Option CString) (fuel : ℕ) : Outcome (Option CString) :=
  match str with
  | none => .ok none
  | some str => do
    let c ← Cells.load str 0
    if c = 0 then .ok (some str)
    else do
      let right ← skip (fun c => c ≠ 0) str 0 fuel
      let str ← loop pointersPass fuel ⟨str, 0, right - 1⟩
      .ok (some str)

/-! ### Reversals -/

/-- The string in memory with its characters in reverse order. -/
def reversed (b : TextBuffer) : TextBuffer where
  chars := b.chars.reverse
  rest := b.rest
  nul_notMem := fun h => b.nul_notMem (List.mem_reverse.mp h)

@[simp] theorem reversed_reversed (b : TextBuffer) : reversed (reversed b) = b := by
  simp only [reversed, List.reverse_reverse]

theorem cells_reversed_nil (h : b.chars = []) : (reversed b).cells = b.cells := by
  simp [TextBuffer.cells, reversed, h]

/-- The ends of a piece and what is between them. -/
theorem append_ends (pre mid post : CString) (a z : Int8) :
    pre ++ a :: (mid ++ [z]) ++ post = pre ++ a :: (mid ++ z :: post) := by
  simp

theorem append_reverse_ends (pre mid post : CString) (a z : Int8) :
    pre ++ (a :: (mid ++ [z])).reverse ++ post = pre ++ [z] ++ mid.reverse ++ a :: post := by
  simp

/-- The pointers at the ends of a piece. The induction takes one character off each end, as a
pass does. -/
theorem returns_pointers (pre seg post : CString) :
    Returns (fun fuel => loop pointersPass fuel
        ⟨pre ++ seg ++ post, pre.length, ((pre ++ seg).length : ℤ) - 1⟩)
      (pre ++ seg.reverse ++ post) := by
  induction seg using List.bidirectionalRec generalizing pre post with
  | nil =>
    apply Returns.loop_leave
    exact if_neg (by simp)
  | singleton c =>
    apply Returns.loop_leave
    exact if_neg (by simp)
  | cons_append a mid z ih =>
    have hright : ((pre ++ a :: (mid ++ [z])).length : ℤ) - 1 = (pre ++ a :: mid).length := by
      simp only [List.length_append, List.length_cons, List.length_nil]
      omega
    have hlt : (pre.length : ℤ) < (pre ++ a :: mid).length := by
      simp only [List.length_append, List.length_cons]
      omega
    have hnext : ((pre ++ a :: mid).length : ℤ) - 1 = ((pre ++ [z] ++ mid).length : ℤ) - 1 := by
      simp only [List.length_append, List.length_cons, List.length_nil]
      omega
    have hleft : (pre.length : ℤ) + 1 = (pre ++ [z]).length := by simp
    have hpass : pointersPass ⟨pre ++ a :: (mid ++ z :: post), pre.length,
        (pre ++ a :: mid).length⟩ = .ok (.again ⟨pre ++ [z] ++ mid ++ a :: post,
          (pre ++ [z]).length, ((pre ++ [z] ++ mid).length : ℤ) - 1⟩) := by
      rw [pointersPass, if_pos hlt, Cells.exchange_ends, Outcome.ok_bind, hnext, hleft]
      simp
    rw [append_ends, hright, append_reverse_ends]
    exact .loop_again hpass (ih (pre ++ [z]) (a :: post))

/-- The indices at the ends of a piece with as much before it as behind it in a string of
`strLen` characters. -/
theorem returns_mirror (pre seg post : CString) {strLen : ℕ}
    (hlen : strLen = 2 * pre.length + seg.length) (hmax : (strLen : ℤ) ≤ intMax) :
    Returns (fun fuel => loop (mirrorPass strLen) fuel
        ⟨pre ++ seg ++ post, ((pre ++ seg).length : ℤ) - 1, pre.length⟩)
      (pre ++ seg.reverse ++ post) := by
  have hhalf : (strLen : ℤ).tdiv 2 = ((strLen / 2 : ℕ) : ℤ) := by
    rw [Int.tdiv_eq_ediv_of_nonneg (by omega)]
    omega
  induction seg using List.bidirectionalRec generalizing pre post with
  | nil =>
    rw [List.length_nil] at hlen
    have hcount : (pre.length : ℤ) = (strLen : ℤ).tdiv 2 := by
      rw [hhalf]
      omega
    apply Returns.loop_leave
    unfold mirrorPass
    rw [if_pos hcount, ite_self, List.reverse_nil]
  | singleton c =>
    rw [List.length_singleton] at hlen
    have hcount : (pre.length : ℤ) = (strLen : ℤ).tdiv 2 := by
      rw [hhalf]
      omega
    apply Returns.loop_leave
    unfold mirrorPass
    rw [if_pos hcount, ite_self, List.reverse_singleton]
  | cons_append a mid z ih =>
    simp only [List.length_cons, List.length_append, List.length_nil] at hlen
    have hi : ((pre ++ a :: (mid ++ [z])).length : ℤ) - 1 = (pre ++ a :: mid).length := by
      simp only [List.length_append, List.length_cons, List.length_nil]
      omega
    have hpos : ((pre ++ a :: mid).length : ℤ) > 0 := by
      rw [List.length_append, List.length_cons]
      omega
    have hcount : (pre.length : ℤ) ≠ (strLen : ℤ).tdiv 2 := by
      rw [hhalf]
      omega
    have hroom : ((pre ++ a :: mid).length : ℤ) ≤ intMax := by
      rw [List.length_append, List.length_cons]
      omega
    have hnext : ((pre ++ a :: mid).length : ℤ) - 1 = ((pre ++ [z] ++ mid).length : ℤ) - 1 := by
      simp only [List.length_append, List.length_cons, List.length_nil]
      omega
    have hpass : mirrorPass strLen ⟨pre ++ a :: (mid ++ z :: post), (pre ++ a :: mid).length,
        pre.length⟩ = .ok (.again ⟨pre ++ [z] ++ mid ++ a :: post,
          ((pre ++ [z] ++ mid).length : ℤ) - 1, (pre ++ [z]).length⟩) := by
      rw [mirrorPass, if_pos hpos, if_neg hcount, Cells.exchange_ends, Outcome.ok_bind,
        Cells.addInt_length pre z (by omega), Outcome.ok_bind, subInt_one hroom, Outcome.ok_bind,
        hnext]
      simp
    have hrest := ih (pre ++ [z]) (a :: post)
      (by rw [List.length_append, List.length_singleton]; omega)
    rw [append_ends, hi, append_reverse_ends]
    exact .loop_again hpass hrest

theorem returns_reverseStringP (b : TextBuffer) :
    Returns (reverseStringP (some b.cells)) (some (reversed b).cells) := by
  cases hchars : b.chars with
  | nil =>
    refine .of_eq fun fuel => ?_
    rw [reverseStringP, TextBuffer.load_cells_nil hchars, Outcome.ok_bind, if_pos rfl,
      cells_reversed_nil hchars]
  | cons c post =>
    have hc : c ≠ 0 := TextBuffer.first_ne_zero hchars
    have hrun := b.returns_end.bind
      (g := fun right fuel => loop pointersPass fuel ⟨b.cells, 0, right - 1⟩ >>= fun str =>
        .ok (some str)) ((returns_pointers [] b.chars (0 :: b.rest)).map some)
    refine hrun.congr fun fuel => ?_
    rw [reverseStringP, TextBuffer.load_cells_first hchars, Outcome.ok_bind, if_neg hc]

theorem returns_reverseString (b : TextBuffer) (hlen : (b.chars.length : ℤ) ≤ intMax) :
    Returns (reverseString (some b.cells)) (some (reversed b).cells) := by
  cases hchars : b.chars with
  | nil =>
    refine .of_eq fun fuel => ?_
    rw [reverseString, TextBuffer.load_cells_nil hchars, Outcome.ok_bind, if_pos rfl,
      cells_reversed_nil hchars]
  | cons c post =>
    have hc : c ≠ 0 := TextBuffer.first_ne_zero hchars
    have hexists : ∃ acc, Returns (TextBuffer.scan (fun _ _ _ => .ok ()) b.cells ())
        (b.chars.length, acc) ∧ True :=
      b.exists_scan hlen (P := fun _ _ => True) (fun _ _ _ _ _ _ => ⟨(), rfl, trivial⟩) trivial
    obtain ⟨acc, hscan, -⟩ := hexists
    have hmirror := returns_mirror [] b.chars (0 :: b.rest) (by simp) hlen
    have hsub : subInt b.chars.length 1 = .ok ((b.chars.length : ℤ) - 1) := subInt_one hlen
    have hrun := hscan.bind
      (g := fun s fuel => subInt s.1 1 >>= fun i => loop (mirrorPass s.1) fuel ⟨b.cells, i, 0⟩ >>=
        fun str => .ok (some str)) (b := some (reversed b).cells)
      ((hmirror.map some).congr fun fuel => by
        dsimp only
        rw [hsub, Outcome.ok_bind]
        rfl)
    refine hrun.congr fun fuel => ?_
    rw [reverseString, TextBuffer.load_cells_first hchars, Outcome.ok_bind, if_neg hc]

/-- The length of a longer string is no `int`. -/
theorem reverseString_ne_ok (b : TextBuffer) (hlen : intMax < (b.chars.length : ℤ)) (fuel : ℕ)
    (out : Option CString) : reverseString (some b.cells) fuel ≠ .ok out := by
  intro hrun
  cases hchars : b.chars with
  | nil =>
    rw [hchars] at hlen
    exact absurd hlen (by decide)
  | cons c post =>
    rw [reverseString, TextBuffer.load_cells_first hchars, Outcome.ok_bind,
      if_neg (TextBuffer.first_ne_zero hchars)] at hrun
    obtain ⟨s, hscan, -⟩ := Outcome.bind_eq_ok.mp hrun
    exact b.scan_ne_ok hlen fuel s hscan

/-- **Both functions reverse a string in place.** The one with the pointers does so for every
string, and the one with the indices exactly for those whose length is an `int`. A second call
brings the string back. -/
theorem both_reverse_in_place (b : TextBuffer) :
    Returns (reverseStringP (some b.cells)) (some (reversed b).cells) ∧
      Returns (reverseStringP (some (reversed b).cells)) (some b.cells) ∧
      (Returns (reverseString (some b.cells)) (some (reversed b).cells) ↔
        (b.chars.length : ℤ) ≤ intMax) ∧
      ((∃ out, Returns (reverseString (some b.cells)) out) ↔
        Returns (reverseString (some b.cells)) (some (reversed b).cells)) := by
  have hiff : (∃ out, Returns (reverseString (some b.cells)) out) ↔
      (b.chars.length : ℤ) ≤ intMax := by
    constructor
    · rintro ⟨out, hreturns⟩
      obtain ⟨fuel, hok⟩ := hreturns.exists_ok
      exact not_lt.mp fun hlt => reverseString_ne_ok b hlt fuel out hok
    · exact fun hlen => ⟨_, returns_reverseString b hlen⟩
  have hself : Returns (reverseString (some b.cells)) (some (reversed b).cells) ↔
      (b.chars.length : ℤ) ≤ intMax :=
    ⟨fun h => hiff.mp ⟨_, h⟩, returns_reverseString b⟩
  have hback := returns_reverseStringP (reversed b)
  rw [reversed_reversed] at hback
  exact ⟨returns_reverseStringP b, hback, hself, hiff.trans hself.symm⟩

/-! ### Vowels -/

/-- The characters that `strip_vowels` keeps. -/
def strip (text : CString) : CString := text.filter fun c => !isVowel c

theorem strip_strip (text : CString) : strip (strip text) = strip text := by
  unfold strip
  rw [List.filter_filter]
  simp only [Bool.and_self]

theorem strip_reverse (text : CString) : strip text.reverse = (strip text).reverse :=
  List.filter_reverse

/-- What the first characters have become: those that are kept, and then a gap. -/
def Stripped (pre done : CString) (sCount : ℤ) : Prop :=
  ∃ gap, done = strip pre ++ gap ∧ sCount = (strip pre).length

theorem edits_strip (b : TextBuffer) :
    TextBuffer.Edits (fun sCount str _ c => Cells.compactStep (fun c => !isVowel c) str sCount c) b
      Stripped := by
  rintro pre c post done sCount - hlen hmax ⟨gap, rfl, rfl⟩
  have hle : (strip pre).length ≤ pre.length := List.length_filter_le _ _
  obtain ⟨gap', hcount, hstep⟩ := Cells.exists_compactStep (fun c => !isVowel c) (strip pre) gap
    (post ++ 0 :: b.rest) c (by omega)
  have hstrip : strip (pre ++ [c]) = strip pre ++ [c].filter fun c => !isVowel c :=
    List.filter_append _ _
  rw [← hstrip] at hcount hstep
  refine ⟨_, _, hstep, ?_, gap', rfl, rfl⟩
  rw [List.length_append] at hlen ⊢
  rw [List.length_append, List.length_singleton]
  omega

/-- The last store of `strip_vowels` puts the terminator behind what is kept. -/
theorem exists_stripVowels (b : TextBuffer) (hlen : (b.chars.length : ℤ) ≤ intMax) :
    ∃ b' : TextBuffer, Returns (stripVowels b.cells) b'.cells ∧ b'.chars = strip b.chars ∧
      b'.cells.length = b.cells.length ∧ b'.cells.drop (b.chars.length + 1) = b.rest := by
  obtain ⟨done, sCount, hedit, hdone, gap, rfl, rfl⟩ := b.exists_edit (edits_strip b) hlen
    ⟨[], rfl, rfl⟩
  have hnul : 0 ∉ strip b.chars := fun h => b.nul_notMem (List.mem_filter.mp h).1
  have hsplit : (strip b.chars ++ 0 :: (gap ++ 0 :: b.rest).tail).length = b.cells.length ∧
      (strip b.chars ++ 0 :: (gap ++ 0 :: b.rest).tail).drop (b.chars.length + 1) = b.rest := by
    rw [← hdone]
    cases gap with
    | nil => simp [TextBuffer.cells, ← hdone]
    | cons g gap =>
      have hcells : strip b.chars ++ 0 :: (g :: gap ++ 0 :: b.rest).tail =
          (strip b.chars ++ 0 :: (gap ++ [0])) ++ b.rest := by simp
      have hgap : (strip b.chars ++ (g :: gap)).length + 1 =
          (strip b.chars ++ 0 :: (gap ++ [0])).length := by
        simp only [List.length_append, List.length_cons, List.length_nil]
        omega
      rw [hcells, hgap, List.drop_left, TextBuffer.cells, List.length_append, ← hgap, hdone,
        List.length_append, List.length_cons]
      exact ⟨by omega, rfl⟩
  refine ⟨⟨strip b.chars, (gap ++ 0 :: b.rest).tail, hnul⟩, ?_, rfl, hsplit⟩
  refine hedit.bind (g := fun s _ => Cells.store s.str s.acc 0) (.of_eq fun _ => ?_)
  rw [Cells.store_behind]
  rfl

/-- **The vowels are stripped in place.** The function returns exactly when the length of the
string is an `int`. Then the characters that are left are in their order, nothing behind the
string has changed, a second call finds nothing more to strip, and a string that was reversed
before gives what is left in reverse order. -/
theorem strips_vowels (b : TextBuffer) :
    ((∃ cells, Returns (stripVowels b.cells) cells) ↔ (b.chars.length : ℤ) ≤ intMax) ∧
      ∀ cells, Returns (stripVowels b.cells) cells →
        ∃ b' again turned : TextBuffer, cells = b'.cells ∧ b'.chars = strip b.chars ∧
          cells.length = b.cells.length ∧ cells.drop (b.chars.length + 1) = b.rest ∧
          Returns (stripVowels b'.cells) again.cells ∧ again.chars = b'.chars ∧
          Returns (stripVowels (reversed b).cells) turned.cells ∧
          turned.chars = b'.chars.reverse := by
  have hint : ∀ cells, Returns (stripVowels b.cells) cells →
      (b.chars.length : ℤ) ≤ intMax := by
    intro cells h
    obtain ⟨fuel, hok⟩ := h.exists_ok
    obtain ⟨s, hedit, -⟩ := Outcome.bind_eq_ok.mp hok
    exact not_lt.mp fun hlt => b.edit_ne_ok (edits_strip b) hlt ⟨[], rfl, rfl⟩ fuel s hedit
  refine ⟨⟨?_, fun hlen => ?_⟩, fun cells h => ?_⟩
  · rintro ⟨cells, h⟩
    exact hint cells h
  · obtain ⟨b', h, -⟩ := exists_stripVowels b hlen
    exact ⟨_, h⟩
  · have hlen := hint cells h
    obtain ⟨b', hstrip, hchars, hcount, hdrop⟩ := exists_stripVowels b hlen
    obtain rfl := h.unique hstrip
    have hle : (b'.chars.length : ℤ) ≤ intMax := by
      have hfilter := List.length_filter_le (fun c => !isVowel c) b.chars
      rw [hchars, strip]
      omega
    have hturned : ((reversed b).chars.length : ℤ) ≤ intMax := by
      rwa [reversed, List.length_reverse]
    obtain ⟨again, hagain, hagainChars, -⟩ := exists_stripVowels b' hle
    obtain ⟨turned, hrun, hturnedChars, -⟩ := exists_stripVowels (reversed b) hturned
    refine ⟨b', again, turned, rfl, hchars, hcount, hdrop, hagain, ?_, hrun, ?_⟩
    · rw [hagainChars, hchars, strip_strip]
    · rw [hturnedChars, reversed, strip_reverse, hchars]

end BareMetal.StripVowels
