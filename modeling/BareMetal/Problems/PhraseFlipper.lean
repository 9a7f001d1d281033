import BareMetal.CS.TextBuffer
import BareMetal.Math.JoinedLists

/-!
# The phrases of `problems/phrase_flipper.c`

`reverse_words` turns the order of the words of a phrase around, in place: it reverses the
whole string and then every word of it once more. Words are what stands between two
spaces, so there may be empty ones.

## Main results

* `returns_reverseChunk` — a chunk is reversed and nothing else changes
* `returns_reverseEach` — the second step reverses every word in its place
* `reverseWords_flips` — the words come out in reverse order, and a second call undoes the first
-/

namespace BareMetal.PhraseFlipper

open CS Math

/-- The memory and the two pointers of `reverse_chunk`. -/
structure Chunk where
  str : CString
  left : ℤ
  right : ℤ
  deriving DecidableEq, Repr

/-- The memory and the pointer to the current word. -/
structure Words where
  str : CString
  wordStart : ℤ
  deriving DecidableEq, Repr

/-- One pass of the loop of `reverse_chunk`. -/
def reverseChunkPass (s : Chunk) : Outcome (Pass Chunk CString) :=
  if s.left < s.right then do
    let temp ← Cells.load s.str s.left
    let str ← Cells.store s.str s.left (← Cells.load s.str s.right)
    let str ← Cells.store str s.right temp
    .ok (.again ⟨str, s.left + 1, s.right - 1⟩)
  else .ok (.leave s.str)

/-- `reverse_chunk`. -/
def reverseChunk (str : CString) (left right : ℤ) (fuel : ℕ) : Outcome CString :=
  loop reverseChunkPass fuel ⟨str, left, right⟩

/-- The move to the next word, if there is one. -/
def nextWord (str : CString) (wordEnd : ℤ) : Outcome (Pass Words CString) := do
  let c ← Cells.load str wordEnd
  if c = 0 then .ok (.leave str) else .ok (.again ⟨str, wordEnd + 1⟩)

/-- One pass of the loop over the words. -/
def wordPass (fuel : ℕ) (s : Words) : Outcome (Pass Words CString) := do
  let c ← Cells.load s.str s.wordStart
  if c ≠ 0 then do
    let wordEnd ← skip (fun c => c ≠ 32 ∧ c ≠ 0) s.str s.wordStart fuel
    let str ← reverseChunk s.str s.wordStart (wordEnd - 1) fuel
    nextWord str wordEnd
  else .ok (.leave s.str)

/-- `reverse_words`. -/
def reverseWords (str : CString) (fuel : ℕ) : Outcome CString := do
  let c ← Cells.load str 0
  if c = 0 then .ok str
  else do
    let endPtr ← skip (fun c => c ≠ 0) str 0 fuel
    let str ← reverseChunk str 0 (endPtr - 1) fuel
    loop (wordPass fuel) fuel ⟨str, 0⟩

/-! ### Words -/

/-- The words of a phrase in reverse order. -/
def flipWords (phrase : CString) : CString := [32].intercalate (phrase.splitOn 32).reverse

variable {ws : List CString} {phrase pre seg post w : CString} {c : Int8}

theorem splitOn_flipWords (phrase : CString) :
    (flipWords phrase).splitOn 32 = (phrase.splitOn 32).reverse := by
  apply List.splitOn_intercalate
  · intro w hw
    exact notMem_of_mem_splitOn (List.mem_reverse.mp hw)
  · simp

theorem flipWords_flipWords (phrase : CString) : flipWords (flipWords phrase) = phrase := by
  rw [flipWords, splitOn_flipWords, List.reverse_reverse, List.intercalate_splitOn]

theorem zero_notMem_flipWords (h : 0 ∉ phrase) : 0 ∉ flipWords phrase := by
  intro hmem
  rcases mem_of_mem_intercalate hmem with hsep | ⟨w, hw, hzero⟩
  · exact absurd hsep (by decide)
  · exact h (mem_of_mem_splitOn (List.mem_reverse.mp hw) hzero)

/-- Every word reversed, in a phrase that is reversed as a whole. -/
theorem intercalate_map_reverse (phrase : CString) :
    ∃ ws : List CString, ws ≠ [] ∧ (∀ w ∈ ws, 32 ∉ w ∧ (0 ∉ phrase → 0 ∉ w)) ∧
      phrase.reverse = [32].intercalate ws ∧
      flipWords phrase = [32].intercalate (ws.map List.reverse) := by
  refine ⟨((phrase.splitOn 32).map List.reverse).reverse, by simp, ?_, ?_, ?_⟩
  · intro w hw
    obtain ⟨v, hv, rfl⟩ := List.mem_map.mp (List.mem_reverse.mp hw)
    simp only [List.mem_reverse]
    exact ⟨notMem_of_mem_splitOn hv, fun h hzero => h (mem_of_mem_splitOn hv hzero)⟩
  · rw [← reverse_intercalate, List.intercalate_splitOn]
  · simp [flipWords, List.map_reverse]

/-- The phrase in memory with its words in reverse order. -/
def flip (b : TextBuffer) : TextBuffer where
  chars := flipWords b.chars
  rest := b.rest
  nul_notMem := zero_notMem_flipWords b.nul_notMem

theorem flip_flip (b : TextBuffer) : flip (flip b) = b := by
  simp only [flip, flipWords_flipWords]

/-! ### The chunks -/

/-- A chunk is reversed. The induction takes one character off each end, as a pass does. -/
theorem returns_reverseChunk (pre seg post : CString) :
    Returns (reverseChunk (pre ++ seg ++ post) pre.length (((pre ++ seg).length : ℤ) - 1))
      (pre ++ seg.reverse ++ post) := by
  induction seg using List.bidirectionalRec generalizing pre post with
  | nil =>
    apply Returns.loop_leave
    exact if_neg (by simp)
  | singleton c =>
    apply Returns.loop_leave
    exact if_neg (by simp)
  | cons_append a mid z ih =>
    have hcells : pre ++ a :: (mid ++ [z]) ++ post = pre ++ a :: (mid ++ z :: post) := by simp
    have hlen : (pre ++ z :: mid).length = (pre ++ a :: mid).length := by simp
    have hright : ((pre ++ a :: (mid ++ [z])).length : ℤ) - 1 = (pre ++ a :: mid).length := by
      simp only [List.length_append, List.length_cons, List.length_nil]
      omega
    have hlt : (pre.length : ℤ) < (pre ++ a :: mid).length := by
      simp only [List.length_append, List.length_cons]
      omega
    have hreverse : pre ++ (a :: (mid ++ [z])).reverse ++ post =
        pre ++ [z] ++ mid.reverse ++ a :: post := by
      simp
    -- the last character is already in front when the first one is stored
    have hstore := Cells.store_append_cons_append pre mid post z z a
    rw [hlen] at hstore
    have hswap : reverseChunkPass ⟨pre ++ a :: (mid ++ z :: post), pre.length,
        (pre ++ a :: mid).length⟩ = .ok (.again ⟨pre ++ [z] ++ mid ++ a :: post,
          (pre ++ [z]).length, ((pre ++ [z] ++ mid).length : ℤ) - 1⟩) := by
      simp only [reverseChunkPass, if_pos hlt, Cells.load_append_cons, Outcome.ok_bind,
        Cells.load_append_cons_append, Cells.store_append_cons, hstore]
      simp
    rw [hcells, hright, hreverse]
    exact .loop_again hswap (ih (pre ++ [z]) (a :: post))

/-- One word is reversed where it stands. -/
theorem returns_wordPass (pre w post : CString) (hw : 32 ∉ w ∧ 0 ∉ w) {d : Int8}
    (hd : d = 32 ∨ d = 0) (hne : w ≠ [] ∨ d ≠ 0) :
    Returns (fun fuel => wordPass fuel ⟨pre ++ w ++ d :: post, pre.length⟩)
      (if d = 0 then .leave (pre ++ w.reverse ++ d :: post)
        else .again ⟨pre ++ w.reverse ++ [d] ++ post, (pre ++ w.reverse ++ [d]).length⟩) := by
  -- the phrase does not end in front of the word, so the pass is made
  obtain ⟨c, tail, hsplit, hc⟩ : ∃ c tail, w ++ d :: post = c :: tail ∧ c ≠ 0 := by
    cases w with
    | nil => exact ⟨d, post, rfl, hne.resolve_left (not_not_intro rfl)⟩
    | cons c tail =>
      refine ⟨c, tail ++ d :: post, rfl, ?_⟩
      rintro rfl
      exact hw.2 List.mem_cons_self
  have hload : Cells.load (pre ++ w ++ d :: post) pre.length = .ok c := by
    rw [List.append_assoc, hsplit, Cells.load_append_cons]
  have hend : Cells.load (pre ++ w.reverse ++ d :: post) (pre ++ w).length = .ok d := by
    have hlen : (pre ++ w).length = (pre ++ w.reverse).length := by simp
    rw [hlen, Cells.load_append_cons]
  have hskip : Returns (skip (fun c => c ≠ 32 ∧ c ≠ 0) (pre ++ w ++ d :: post) pre.length)
      (pre ++ w).length := by
    rw [List.append_assoc, List.length_append, Nat.cast_add]
    apply returns_skip
    · intro c hmem
      have hspace : c ≠ 32 := fun heq => hw.1 (heq ▸ hmem)
      have hzero : c ≠ 0 := fun heq => hw.2 (heq ▸ hmem)
      exact decide_eq_true ⟨hspace, hzero⟩
    · rcases hd with rfl | rfl <;> decide
  have hnext : nextWord (pre ++ w.reverse ++ d :: post) (pre ++ w).length =
      .ok (if d = 0 then .leave (pre ++ w.reverse ++ d :: post)
        else .again ⟨pre ++ w.reverse ++ [d] ++ post, (pre ++ w.reverse ++ [d]).length⟩) := by
    have hstart : ((pre ++ w).length : ℤ) + 1 = (pre ++ w.reverse ++ [d]).length := by
      simp only [List.length_append, List.length_reverse, List.length_singleton, Nat.cast_add,
        Nat.cast_one]
    rw [nextWord, hend, Outcome.ok_bind, hstart, List.append_cons]
    split_ifs <;> rfl
  have hpass := hskip.bind
    (g := fun wordEnd fuel => reverseChunk (pre ++ w ++ d :: post) pre.length (wordEnd - 1) fuel >>=
      fun str => nextWord str wordEnd)
    ((returns_reverseChunk pre w (d :: post)).bind
      (g := fun str _ => nextWord str (pre ++ w).length) (.of_eq fun _ => hnext))
  refine hpass.congr fun fuel => ?_
  rw [wordPass, hload, Outcome.ok_bind, if_pos hc]

/-- The second step: every word is reversed where it stands. -/
theorem returns_reverseEach (pre : CString) (ws : List CString) (rest : CString) (hne : ws ≠ [])
    (hws : ∀ w ∈ ws, 32 ∉ w ∧ 0 ∉ w) :
    Returns.Leaves wordPass ⟨pre ++ [32].intercalate ws ++ 0 :: rest, pre.length⟩
      (pre ++ [32].intercalate (ws.map List.reverse) ++ 0 :: rest) := by
  induction ws generalizing pre with
  | nil => exact absurd rfl hne
  | cons w ws ih =>
    obtain ⟨hw, hws⟩ := List.forall_mem_cons.mp hws
    cases ws with
    | nil =>
      -- the last word, after which there is a 0
      simp only [List.map_cons, List.map_nil, List.intercalate_singleton]
      by_cases hempty : w = []
      · subst hempty
        refine .leave (.of_eq fun fuel => ?_)
        simp [wordPass]
      · exact .leave (returns_wordPass pre w rest hw (Or.inr rfl) (Or.inl hempty))
    | cons v ws =>
      have hpass := returns_wordPass pre w ([32].intercalate (v :: ws) ++ 0 :: rest) hw
        (Or.inl rfl) (Or.inr (by decide))
      have hrest := ih (pre ++ w.reverse ++ [32]) (by simp) hws
      rw [if_neg (by decide)] at hpass
      simp only [List.map_cons, List.intercalate_cons_cons, List.append_assoc, List.cons_append,
        List.nil_append] at hpass hrest ⊢
      exact .again hpass hrest

theorem returns_reverseWords (b : TextBuffer) : Returns (reverseWords b.cells) (flip b).cells := by
  obtain ⟨ws, hne, hws, hreverse, hflip⟩ := intercalate_map_reverse b.chars
  cases hchars : b.chars with
  | nil =>
    have hload : Cells.load b.cells 0 = .ok 0 := TextBuffer.load_cells_nil hchars
    have hcells : (flip b).cells = b.cells := by
      simp [TextBuffer.cells, flip, hchars, flipWords]
    refine .of_eq fun fuel => ?_
    rw [reverseWords, hload, Outcome.ok_bind, if_pos rfl, hcells]
  | cons c post =>
    have hload : Cells.load b.cells 0 = .ok c := TextBuffer.load_cells_first hchars
    have hc : c ≠ 0 := TextBuffer.first_ne_zero hchars
    have hchunk := returns_reverseChunk [] b.chars (0 :: b.rest)
    have hwords := Returns.nested (returns_reverseEach [] ws b.rest hne fun w hw =>
      ⟨(hws w hw).1, (hws w hw).2 b.nul_notMem⟩)
    rw [← hreverse, ← hflip] at hwords
    have hrun := b.returns_end.bind
      (g := fun endPtr fuel => reverseChunk b.cells 0 (endPtr - 1) fuel >>= fun str =>
        loop (wordPass fuel) fuel ⟨str, 0⟩)
      (hchunk.bind (g := fun str fuel => loop (wordPass fuel) fuel ⟨str, 0⟩) hwords)
    refine hrun.congr fun fuel => ?_
    rw [reverseWords, hload, Outcome.ok_bind, if_neg hc]

/-- **The words come out in reverse order**, and a second call brings the phrase back. -/
theorem reverseWords_flips (b : TextBuffer) :
    Returns (reverseWords b.cells) (flip b).cells ∧
      Returns (reverseWords (flip b).cells) b.cells := by
  have hback := returns_reverseWords (flip b)
  rw [flip_flip] at hback
  exact ⟨returns_reverseWords b, hback⟩

end BareMetal.PhraseFlipper
