import BareMetal.CS.TextBuffer
import Mathlib.Data.List.DropRight

/-!
# The trimming of `problems/trim.c`

`trim` is to remove the spaces at both ends of a string, in place. Before it looks for
spaces at the left end, `trim_left` tests the second character and not the first, so a
single space in front of another character stays.

## Main results

* `exists_trimLeft`, `exists_trimRight` — what the two passes leave
* `trims_iff` — the strings that are trimmed: those that do not start with a single space
  and another character
-/

namespace BareMetal.Trim

open CS

/-- The memory and the two pointers of `trim_left`. -/
structure Cursor where
  str : CString
  read : ℤ
  write : ℤ
  deriving DecidableEq, Repr

def isSpace (c : Int8) : Bool := c = 32

/-- One pass of the loop of `trim_left` that copies. -/
def copyPass (s : Cursor) : Outcome (Pass Cursor Cursor) := do
  let c ← Cells.load s.str s.read
  if c ≠ 0 then do
    let str ← Cells.store s.str s.write c
    .ok (.again ⟨str, s.read + 1, s.write + 1⟩)
  else .ok (.leave s)

/-- `trim_left`. -/
def trimLeft (str : CString) (fuel : ℕ) : Outcome CString := do
  let c ← Cells.load str 0
  if c = 0 then .ok str
  else do
    let d ← Cells.load str 1
    if d ≠ 32 then .ok str
    else do
      let read ← skip isSpace str 0 fuel
      let s ← loop copyPass fuel ⟨str, read, 0⟩
      Cells.store s.str s.write 0

/-- One pass of `while(read > str && *(read - 1) == ' ') read--`. -/
def backPass (str : CString) (read : ℤ) : Outcome (Pass ℤ ℤ) :=
  if read > 0 then do
    let c ← Cells.load str (read - 1)
    if c = 32 then .ok (.again (read - 1)) else .ok (.leave read)
  else .ok (.leave read)

/-- What `trim_right` does at the end of the string. -/
def cutRight (str : CString) (read : ℤ) (fuel : ℕ) : Outcome CString := do
  let c ← Cells.load str (read - 1)
  if c ≠ 32 then .ok str
  else do
    let read ← loop (backPass str) fuel read
    Cells.store str read 0

/-- `trim_right`. -/
def trimRight (str : CString) (fuel : ℕ) : Outcome CString := do
  let c ← Cells.load str 0
  if c = 0 then .ok str
  else do
    let read ← skip (fun c => c ≠ 0) str 0 fuel
    cutRight str read fuel

/-- `trim`. -/
def trim (str : CString) (fuel : ℕ) : Outcome CString := do
  let str ← trimLeft str fuel
  trimRight str fuel

variable {b : TextBuffer} {pre seg post text : CString} {c d : Int8}

/-! ### What trimming is for -/

/-- A text without the spaces at its ends. -/
def strip (text : CString) : CString := (text.dropWhile isSpace).rdropWhile isSpace

/-- The text is stripped, and a second call changes nothing. -/
def Trims (b : TextBuffer) : Prop :=
  ∃ b' : TextBuffer, Returns (trim b.cells) b'.cells ∧ b'.chars = strip b.chars ∧
    Returns (trim b'.cells) b'.cells

/-- The first character is a space and the second one is not. -/
def OneSpace (text : CString) : Prop := ∃ c rest, text = 32 :: c :: rest ∧ c ≠ 32

theorem dropWhile_of_prefix {text' : CString} (h : text.dropWhile isSpace = text)
    (hpre : text' <+: text) : text'.dropWhile isSpace = text' := by
  cases text' with
  | nil => rfl
  | cons c text' =>
    obtain ⟨post, rfl⟩ := hpre
    have hc : ¬ isSpace c := List.dropWhile_eq_self_iff.mp h (by simp)
    exact List.dropWhile_cons_of_neg hc

theorem dropWhile_strip (text : CString) : (strip text).dropWhile isSpace = strip text :=
  dropWhile_of_prefix (List.dropWhile_idempotent ..) ( List.rdropWhile_prefix ..)

theorem rdropWhile_strip (text : CString) : (strip text).rdropWhile isSpace = strip text :=
  List.rdropWhile_idempotent ..

/-! ### The left end -/

/-- The loop that copies. Between the two pointers there is a gap that keeps its size. -/
theorem exists_copy (done gap todo rest : CString) (h : 0 ∉ todo) :
    ∃ gap' : CString, gap'.length = gap.length ∧ Returns (fun fuel => loop copyPass fuel
        ⟨done ++ gap ++ todo ++ 0 :: rest, (done ++ gap).length, done.length⟩)
      ⟨done ++ todo ++ gap' ++ 0 :: rest, (done ++ todo ++ gap').length,
        (done ++ todo).length⟩ := by
  induction todo generalizing done gap with
  | nil =>
    refine ⟨gap, rfl, .loop_leave ?_⟩
    simp only [List.append_nil, copyPass, Cells.load_append_cons, Outcome.ok_bind]
    rfl
  | cons c todo ih =>
    rw [List.mem_cons, not_or] at h
    have hc : c ≠ 0 := Ne.symm h.1
    have hcells : done ++ gap ++ c :: todo ++ 0 :: rest = done ++ gap ++ c :: (todo ++ 0 :: rest) :=
      List.append_assoc ..
    have hload : Cells.load (done ++ gap ++ c :: (todo ++ 0 :: rest)) (done ++ gap).length =
        .ok c := Cells.load_append_cons ..
    obtain ⟨gap₁, hgap, hstore⟩ := Cells.exists_store_gap done gap (todo ++ 0 :: rest) c
    obtain ⟨gap', hlen, hreturns⟩ := ih (done ++ [c]) gap₁ h.2
    have hread : ((done ++ [c] ++ gap₁).length : ℤ) = ((done ++ gap).length : ℤ) + 1 := by
      simp only [List.length_append, List.length_singleton, hgap, Nat.cast_add, Nat.cast_one]
      omega
    have hwrite : ((done ++ [c]).length : ℤ) = (done.length : ℤ) + 1 := by
      rw [List.length_append, List.length_singleton, Nat.cast_add, Nat.cast_one]
    refine ⟨gap', hlen.trans hgap, ?_⟩
    rw [List.append_cons done c todo]
    refine .loop_again ?_ hreturns
    rw [hcells, copyPass, hload, Outcome.ok_bind, if_pos hc, hstore, Outcome.ok_bind, hread, hwrite,
      List.append_assoc _ todo]

/-- The spaces at the left end are passed. -/
theorem returns_skip_spaces (b : TextBuffer) :
    Returns (skip isSpace b.cells 0) (b.chars.takeWhile isSpace).length := by
  have hsplit := List.takeWhile_append_dropWhile (p := isSpace) (l := b.chars)
  have hspaces : ∀ c ∈ b.chars.takeWhile isSpace, isSpace c := fun c => List.mem_takeWhile_imp
  obtain ⟨c, post, hpost, hc⟩ :
      ∃ c post, b.chars.dropWhile isSpace ++ 0 :: b.rest = c :: post ∧ ¬ isSpace c := by
    cases hkept : b.chars.dropWhile isSpace with
    | nil => exact ⟨0, b.rest, rfl, by decide⟩
    | cons c kept =>
      refine ⟨c, kept ++ 0 :: b.rest, rfl, ?_⟩
      have hself := List.dropWhile_idempotent isSpace b.chars
      rw [hkept, List.dropWhile_eq_self_iff] at hself
      exact hself (by simp)
  have hcells : b.cells = [] ++ (b.chars.takeWhile isSpace ++ c :: post) := by
    rw [← hpost, List.nil_append, ← List.append_assoc, hsplit, TextBuffer.cells]
  have hskip := returns_skip [] post hspaces hc
  rw [← hcells] at hskip
  simpa using hskip

/-- The second character is a space, so the spaces at the left end are removed. -/
theorem exists_trimLeft (h : b.chars = c :: 32 :: text) :
    ∃ b' : TextBuffer, Returns (trimLeft b.cells) b'.cells ∧
      b'.chars = b.chars.dropWhile isSpace ∧
      (b.chars.dropWhile isSpace = b.chars → b'.cells = b.cells) := by
  have hload : Cells.load b.cells 0 = .ok c := TextBuffer.load_cells_first h
  have hsecond : Cells.load b.cells 1 = .ok 32 := TextBuffer.load_cells_second h
  have hc : c ≠ 0 := TextBuffer.first_ne_zero h
  have hnul : 0 ∉ b.chars.dropWhile isSpace :=
    fun hmem => b.nul_notMem ((List.dropWhile_sublist _).mem hmem)
  obtain ⟨gap, hgap, hcopy⟩ := exists_copy [] (b.chars.takeWhile isSpace)
    (b.chars.dropWhile isSpace) b.rest hnul
  simp only [List.nil_append, List.takeWhile_append_dropWhile] at hcopy
  refine ⟨⟨b.chars.dropWhile isSpace, (gap ++ 0 :: b.rest).tail, hnul⟩, ?_, rfl, fun hself => ?_⟩
  · have hmove := hcopy.bind (g := fun s _ => Cells.store s.str s.write 0)
      (.of_eq fun _ => Cells.store_behind ..)
    have hrun := (returns_skip_spaces b).bind
      (g := fun read fuel => loop copyPass fuel ⟨b.cells, read, 0⟩ >>= fun s =>
        Cells.store s.str s.write 0) hmove
    refine hrun.congr fun fuel => ?_
    rw [trimLeft, hload, Outcome.ok_bind, if_neg hc, hsecond, Outcome.ok_bind,
      if_neg (not_not_intro rfl)]
  · -- no space was passed, so there is no gap
    have hnil : gap = [] := by
      have hlen := congrArg List.length
        (List.takeWhile_append_dropWhile (p := isSpace) (l := b.chars))
      rw [hself, List.length_append] at hlen
      exact List.eq_nil_of_length_eq_zero (by omega)
    simp [TextBuffer.cells, hself, hnil]

theorem trimLeft_of_ne {d : Int8} (h : b.chars = c :: text)
    (hsecond : Cells.load b.cells 1 = .ok d) (hd : d ≠ 32) (fuel : ℕ) :
    trimLeft b.cells fuel = .ok b.cells := by
  have hc : c ≠ 0 := TextBuffer.first_ne_zero h
  rw [trimLeft, TextBuffer.load_cells_first h, Outcome.ok_bind, if_neg hc, hsecond,
    Outcome.ok_bind, if_pos hd]

/-- The second character is not a space, so nothing is done. -/
theorem returns_trimLeft_self (h : ∀ c text, b.chars ≠ c :: 32 :: text) :
    Returns (trimLeft b.cells) b.cells := by
  refine .of_eq fun fuel => ?_
  match hchars : b.chars with
  | [] => rw [trimLeft, TextBuffer.load_cells_nil hchars, Outcome.ok_bind, if_pos rfl]
  | [c] =>
    -- the second character is the 0 at the end
    have hsecond : Cells.load b.cells 1 = .ok 0 := TextBuffer.load_cells_end hchars
    exact trimLeft_of_ne hchars hsecond (by decide) fuel
  | c :: d :: text =>
    have hd : d ≠ 32 := by
      rintro rfl
      exact h c text hchars
    exact trimLeft_of_ne hchars (TextBuffer.load_cells_second hchars) hd fuel

/-! ### The right end -/

/-- The pointer goes back over the spaces. -/
theorem returns_back (kept spaces post : CString) (hspaces : ∀ c ∈ spaces, isSpace c)
    (hkept : ∀ hne : kept ≠ [], ¬ isSpace (kept.getLast hne)) :
    Returns (fun fuel => loop (backPass (kept ++ spaces ++ post)) fuel (kept ++ spaces).length)
      kept.length := by
  induction spaces using List.reverseRecOn generalizing post with
  | nil =>
    rw [List.append_nil]
    apply Returns.loop_leave
    rcases List.eq_nil_or_concat kept with rfl | ⟨init, c, rfl⟩
    · rfl
    · rw [List.concat_eq_append] at hkept ⊢
      have hc : ¬ isSpace c := by simpa using hkept
      have hload : Cells.load (init ++ [c] ++ post) init.length = .ok c := by simp
      have hread : ((init ++ [c]).length : ℤ) - 1 = init.length := by simp
      have hpos : ((init ++ [c]).length : ℤ) > 0 := by
        rw [List.length_append, List.length_singleton]
        omega
      rw [backPass, if_pos hpos, hread, hload, Outcome.ok_bind]
      exact if_neg fun heq => hc (decide_eq_true heq)
  | append_singleton spaces c ih =>
    have hc : c = 32 := of_decide_eq_true (hspaces c (by simp))
    have hrest := ih (c :: post) fun d hd => hspaces d (List.mem_append_left _ hd)
    have hcells : kept ++ (spaces ++ [c]) ++ post = kept ++ spaces ++ c :: post := by simp
    have hread : ((kept ++ (spaces ++ [c])).length : ℤ) - 1 = (kept ++ spaces).length := by
      simp only [List.length_append, List.length_singleton]
      omega
    have hpos : ((kept ++ (spaces ++ [c])).length : ℤ) > 0 := by
      simp only [List.length_append, List.length_singleton]
      omega
    rw [hcells]
    refine .loop_again ?_ hrest
    rw [backPass, if_pos hpos, hread, Cells.load_append_cons, Outcome.ok_bind, if_pos hc]

theorem returns_trimRight (hne : b.chars ≠ []) {str : CString}
    (h : Returns (cutRight b.cells b.chars.length) str) : Returns (trimRight b.cells) str := by
  obtain ⟨c, tail, hchars⟩ := List.exists_cons_of_ne_nil hne
  have hload : Cells.load b.cells 0 = .ok c := TextBuffer.load_cells_first hchars
  have hc : c ≠ 0 := TextBuffer.first_ne_zero hchars
  refine (b.returns_end.bind (g := cutRight b.cells) h).congr fun fuel => ?_
  rw [trimRight, hload, Outcome.ok_bind, if_neg hc]

/-- The spaces at the right end are removed. -/
theorem exists_trimRight (b : TextBuffer) :
    ∃ b' : TextBuffer, Returns (trimRight b.cells) b'.cells ∧
      b'.chars = b.chars.rdropWhile isSpace ∧
      (b.chars.rdropWhile isSpace = b.chars → b'.cells = b.cells) := by
  rcases List.eq_nil_or_concat b.chars with hchars | ⟨init, c, hchars⟩
  · have hload : Cells.load b.cells 0 = .ok 0 := TextBuffer.load_cells_nil hchars
    refine ⟨b, .of_eq fun fuel => ?_, by simp [hchars], fun _ => rfl⟩
    rw [trimRight, hload, Outcome.ok_bind, if_pos rfl]
  · rw [List.concat_eq_append] at hchars
    have hne : b.chars ≠ [] := by simp [hchars]
    have hlast : Cells.load b.cells ((b.chars.length : ℤ) - 1) = .ok c := by
      have hindex : (b.chars.length : ℤ) - 1 = init.length := by simp [hchars]
      rw [hindex]
      exact TextBuffer.load_cells hchars
    by_cases hc : isSpace c
    · -- the pointer goes back over the spaces, and the first one of them becomes the end
      have hsplit := List.rdropWhile_append_rtakeWhile (p := isSpace) (l := b.chars)
      have hback := returns_back (b.chars.rdropWhile isSpace) (b.chars.rtakeWhile isSpace)
        (0 :: b.rest) (fun _ => List.mem_rtakeWhile_imp) (List.rdropWhile_last_not _ _)
      have hnul : 0 ∉ b.chars.rdropWhile isSpace :=
        fun hmem => b.nul_notMem (( List.rdropWhile_prefix _ _).mem hmem)
      have hstore := Cells.store_behind (b.chars.rdropWhile isSpace) (b.chars.rtakeWhile isSpace)
        b.rest 0 0
      rw [hsplit] at hback hstore
      have hcut := hback.bind (g := fun read _ => Cells.store b.cells read 0)
        (.of_eq fun _ => hstore)
      refine ⟨⟨b.chars.rdropWhile isSpace, (b.chars.rtakeWhile isSpace ++ 0 :: b.rest).tail, hnul⟩,
        returns_trimRight hne (hcut.congr fun fuel => ?_), rfl, fun hself => ?_⟩
      · rw [cutRight, hlast, Outcome.ok_bind, if_neg (not_not_intro (of_decide_eq_true hc))]
        rfl
      · have hnil : b.chars.rtakeWhile isSpace = [] := by
          rw [hself] at hsplit
          exact List.append_right_eq_self.mp hsplit
        simp only [TextBuffer.cells, hself, hnil, List.nil_append, List.tail_cons]
    · refine ⟨b, returns_trimRight hne (.of_eq fun fuel => ?_), ?_, fun _ => rfl⟩
      · rw [cutRight, hlast, Outcome.ok_bind, if_pos fun heq => hc (decide_eq_true heq)]
      · rw [hchars, List.rdropWhile_concat_neg _ _ _ hc]

/-! ### Both ends -/

/-- Without spaces at the ends nothing changes. -/
theorem returns_trim_self (hleft : b.chars.dropWhile isSpace = b.chars)
    (hright : b.chars.rdropWhile isSpace = b.chars) : Returns (trim b.cells) b.cells := by
  have htrimLeft : Returns (trimLeft b.cells) b.cells := by
    by_cases hsecond : ∃ c text, b.chars = c :: 32 :: text
    · obtain ⟨c, text, hchars⟩ := hsecond
      obtain ⟨b', hreturns, -, hsame⟩ := exists_trimLeft hchars
      rwa [hsame hleft] at hreturns
    · exact returns_trimLeft_self fun c text hchars => hsecond ⟨c, text, hchars⟩
  obtain ⟨b', hreturns, -, hsame⟩ := exists_trimRight b
  rw [hsame hright] at hreturns
  exact htrimLeft.bind hreturns

/-- Where the second character is not a space, only the right end has to be cut. -/
theorem rdropWhile_eq_strip (h : ¬ OneSpace text) (hsecond : ∀ c rest, text ≠ c :: 32 :: rest) :
    text.rdropWhile isSpace = strip text := by
  match text with
  | [] => rfl
  | [c] => by_cases hc : isSpace c <;> simp [strip, hc]
  | c :: d :: rest =>
    have hd : d ≠ 32 := by
      rintro rfl
      exact hsecond c rest rfl
    have hc : ¬ isSpace c := by
      intro hspace
      obtain rfl : c = 32 := of_decide_eq_true hspace
      exact h ⟨d, rest, rfl, hd⟩
    rw [strip, List.dropWhile_cons_of_neg hc]

theorem trims_of_not_oneSpace (h : ¬ OneSpace b.chars) : Trims b := by
  -- what the left pass leaves has only spaces at its right end
  obtain ⟨b₁, htrimLeft, hchars₁⟩ : ∃ b₁ : TextBuffer, Returns (trimLeft b.cells) b₁.cells ∧
      b₁.chars.rdropWhile isSpace = strip b.chars := by
    by_cases hsecond : ∃ c text, b.chars = c :: 32 :: text
    · obtain ⟨c, text, hchars⟩ := hsecond
      obtain ⟨b₁, hreturns, hchars₁, -⟩ := exists_trimLeft hchars
      exact ⟨b₁, hreturns, by rw [hchars₁, strip]⟩
    · have hsecond' : ∀ c text, b.chars ≠ c :: 32 :: text :=
        fun c text hchars => hsecond ⟨c, text, hchars⟩
      exact ⟨b, returns_trimLeft_self hsecond', rdropWhile_eq_strip h hsecond'⟩
  obtain ⟨b₂, htrimRight, hchars₂, -⟩ := exists_trimRight b₁
  rw [hchars₁] at hchars₂
  refine ⟨b₂, htrimLeft.bind htrimRight, hchars₂, returns_trim_self ?_ ?_⟩
  · rw [hchars₂, dropWhile_strip]
  · rw [hchars₂, rdropWhile_strip]

theorem not_trims_of_oneSpace (h : OneSpace b.chars) : ¬ Trims b := by
  rintro ⟨b', hreturns, hchars', -⟩
  obtain ⟨c, rest, hchars, hc⟩ := h
  have htrimLeft : Returns (trimLeft b.cells) b.cells := by
    apply returns_trimLeft_self
    intro d text heq
    rw [hchars, List.cons_eq_cons, List.cons_eq_cons] at heq
    exact hc heq.2.1
  obtain ⟨b₂, htrimRight, hchars₂, -⟩ := exists_trimRight b
  have hcells := hreturns.unique (htrimLeft.bind htrimRight)
  have heq : b.chars.rdropWhile isSpace = strip b.chars := by
    rw [← hchars₂, ← hchars', TextBuffer.chars_eq_of_cells_eq hcells]
  -- the first character is still there, and it is a space
  have hne : b.chars.rdropWhile isSpace ≠ [] := by
    intro hnil
    have hspace : isSpace c := List.rdropWhile_eq_nil_iff.mp hnil c (by simp [hchars])
    exact hc (of_decide_eq_true hspace)
  obtain ⟨d, kept, hkept⟩ := List.exists_cons_of_ne_nil hne
  have hd : d = 32 := by
    have hpre := List.rdropWhile_prefix isSpace b.chars
    rw [hkept, hchars, List.cons_prefix_cons] at hpre
    exact hpre.1
  have hstripped := dropWhile_strip b.chars
  rw [← heq, hkept, List.dropWhile_eq_self_iff] at hstripped
  exact hstripped (by simp) (decide_eq_true hd)

/-- **A single space stays.** The string is stripped unless it starts with one space and then
another character. -/
theorem trims_iff (b : TextBuffer) : Trims b ↔ ¬ OneSpace b.chars :=
  ⟨fun h hone => not_trims_of_oneSpace hone h, trims_of_not_oneSpace⟩

/-- One space in front of a letter. -/
def indented : TextBuffer := ⟨[32, 97], [], by decide⟩

theorem not_trims_indented : ¬ Trims indented := not_trims_of_oneSpace ⟨97, [], rfl, by decide⟩

end BareMetal.Trim
