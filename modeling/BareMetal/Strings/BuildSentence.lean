import BareMetal.CS.TextBuffer
import BareMetal.Math.JoinedLists

/-!
# The sentences of `strings/build_sentence.c`

`build_sentence` joins words with single spaces. It adds up the length of the sentence
first, and writes a terminator at the last character instead of behind it. The memory is
zero already, and the last character is written later; but a sentence without characters
has no last one.

## Main results

* `foldlM_addWord` — the words come one behind the other
* `builds_iff` — the lists of words that are joined: the sentence has a character, and its
  length with the terminator is an `int`
-/

namespace BareMetal.BuildSentence

open CS Math

/-- The sentence and `char_counter`. -/
structure Draft where
  sentence : CString
  charCounter : ℤ
  deriving DecidableEq, Repr

/-- `strlen`. -/
def strlen (word : TextBuffer) : ℕ := word.chars.length

def charSpace : Int8 := 32

/-- `phrase_lenth += strlen(word)`, which is added as a `size_t` and stored in an `int`. -/
def addLength (phraseLenth : ℤ) (word : TextBuffer) : Outcome ℤ :=
  .ok (Int.bmod (phraseLenth + strlen word) (2 ^ 32))

/-- `sentence[char_counter] = c; char_counter++`. -/
def putChar (d : Draft) (c : Int8) : Outcome Draft := do
  let sentence ← Cells.store d.sentence d.charCounter c
  let charCounter ← addInt d.charCounter 1
  .ok ⟨sentence, charCounter⟩

/-- One pass of the loop over the words. -/
def addWord (phraseLenth : ℤ) (d : Draft) (word : TextBuffer) : Outcome Draft := do
  let singleWordSize := Int.bmod (strlen word) (2 ^ 32)
  let d ← (List.range singleWordSize.toNat).foldlM
    (fun d (j : ℕ) => do putChar d (← Cells.load word.cells j)) d
  if d.charCounter < phraseLenth then putChar d charSpace else .ok d

/-- `build_sentence`. `calloc` has no memory for a negative size, which is a huge `size_t`. -/
def buildSentence (words : List TextBuffer) (numWords : ℤ) : Outcome CString := do
  let phraseLenth ← subInt numWords 1
  let phraseLenth ← (List.range numWords.toNat).foldlM
    (fun n (i : ℕ) => do addLength n (← Cells.load words i)) phraseLenth
  let size ← addInt phraseLenth 1
  if size < 0 then .error (.exit 1 "")
  else do
    let sentence := List.replicate size.toNat 0
    let sentence ← Cells.store sentence (← subInt phraseLenth 1) 0
    let d ← (List.range numWords.toNat).foldlM
      (fun d (i : ℕ) => do addWord phraseLenth d (← Cells.load words i)) ⟨sentence, 0⟩
    .ok d.sentence

variable {words ws : List TextBuffer} {w v : TextBuffer} {text sentence : CString} {d d' : Draft}
  {c : Int8} {n phraseLenth : ℤ}

/-! ### Sentences -/

/-- The words, joined with single spaces. -/
def join (words : List TextBuffer) : CString := [charSpace].intercalate (words.map TextBuffer.chars)

/-- The length of the words. -/
def total (words : List TextBuffer) : ℕ := (words.map strlen).sum

/-- There is a character to write, and the words and what goes between and behind them are no
more than an `int` can count. -/
def Fits (words : List TextBuffer) : Prop :=
  (2 ≤ words.length ∨ ∃ w ∈ words, w.chars ≠ []) ∧ (total words + words.length : ℤ) ≤ intMax

/-- The words are joined and terminated in memory. -/
def Builds (words : List TextBuffer) : Prop :=
  ∃ rest, buildSentence words words.length = .ok (join words ++ 0 :: rest)

theorem length_join (h : words ≠ []) : (join words).length + 1 = total words + words.length := by
  have hne : words.map TextBuffer.chars ≠ [] := by simpa using h
  have hlen := length_intercalate charSpace hne
  rw [List.map_map, List.length_map] at hlen
  exact hlen

theorem join_cons_cons (w v : TextBuffer) (ws : List TextBuffer) :
    join (w :: v :: ws) = w.chars ++ charSpace :: join (v :: ws) := by
  simp [join]

/-! ### The loops -/

/-- The additions of a sentence whose length is an `int`. -/
theorem foldlM_addLength (hnonneg : 0 ≤ n) (hmax : n + total words ≤ intMax) :
    words.foldlM addLength n = .ok (n + total words) := by
  induction words generalizing n with
  | nil => simp [total]; rfl
  | cons w ws ih =>
    have htotal : total (w :: ws) = strlen w + total ws := by simp [total]
    rw [htotal, Nat.cast_add] at hmax ⊢
    have hbmod : Int.bmod (n + strlen w) (2 ^ 32) = n + strlen w := by
      unfold intMax at hmax
      exact Int.bmod_eq_of_le (by omega) (by omega)
    rw [List.foldlM_cons, addLength, hbmod, Outcome.ok_bind, ih (by omega) (by omega), add_assoc]

theorem putChar_eq (text : CString) (room : ℕ) (c : Int8) (hmax : (text.length : ℤ) < intMax) :
    putChar ⟨text ++ List.replicate (room + 1) 0, text.length⟩ c =
      .ok ⟨text ++ [c] ++ List.replicate room 0, (text ++ [c]).length⟩ := by
  have hcounter := Cells.addInt_length text c hmax
  simp [putChar, List.replicate_succ, hcounter]

/-- The characters of a word. -/
theorem foldlM_putChar (text word : CString) (room : ℕ)
    (hmax : ((text ++ word).length : ℤ) ≤ intMax) :
    word.foldlM putChar ⟨text ++ List.replicate (word.length + room) 0, text.length⟩ =
      .ok ⟨text ++ word ++ List.replicate room 0, (text ++ word).length⟩ := by
  induction word generalizing text with
  | nil => simp; rfl
  | cons c word ih =>
    have hcut : text ++ c :: word = text ++ [c] ++ word := by simp
    have hroom : (c :: word).length + room = word.length + room + 1 := by
      rw [List.length_cons]
      omega
    have hlt : (text.length : ℤ) < intMax := by
      simp only [List.length_append, List.length_cons] at hmax
      omega
    rw [hcut] at hmax ⊢
    rw [List.foldlM_cons, hroom, putChar_eq text _ c hlt, Outcome.ok_bind, ih (text ++ [c]) hmax]

/-- One word, and a space unless the sentence is complete. -/
theorem addWord_eq (text : CString) (w : TextBuffer) (room : ℕ)
    (hmax : ((text ++ w.chars).length : ℤ) ≤ intMax) :
    addWord phraseLenth ⟨text ++ List.replicate (w.chars.length + room) 0, text.length⟩ w =
      if ((text ++ w.chars).length : ℤ) < phraseLenth then
        putChar ⟨text ++ w.chars ++ List.replicate room 0, (text ++ w.chars).length⟩ charSpace
      else .ok ⟨text ++ w.chars ++ List.replicate room 0, (text ++ w.chars).length⟩ := by
  have hsize : (Int.bmod (strlen w) (2 ^ 32)).toNat = w.chars.length := by
    rw [List.length_append] at hmax
    unfold intMax at hmax
    rw [strlen, Int.bmod_eq_of_le (by omega) (by omega), Int.toNat_natCast]
  have hloop := Cells.foldlM_load_append putChar w.chars (0 :: w.rest)
    ⟨text ++ List.replicate (w.chars.length + room) 0, text.length⟩
  rw [foldlM_putChar text w.chars room hmax] at hloop
  rw [addWord, hsize, TextBuffer.cells, hloop, Outcome.ok_bind]

/-- The words come one behind the other. The induction is on the words that are left. -/
theorem foldlM_addWord (text : CString) (words : List TextBuffer) (hne : words ≠ [])
    (hmax : ((text ++ join words).length : ℤ) ≤ intMax) :
    words.foldlM (addWord (text ++ join words).length)
        ⟨text ++ List.replicate ((join words).length + 1) 0, text.length⟩ =
      .ok ⟨text ++ join words ++ [0], (text ++ join words).length⟩ := by
  induction words generalizing text with
  | nil => exact absurd rfl hne
  | cons w ws ih =>
    cases ws with
    | nil =>
      have hjoin : join [w] = w.chars := by simp [join]
      rw [hjoin] at hmax ⊢
      rw [List.foldlM_cons, addWord_eq text w 1 hmax, if_neg (lt_irrefl _)]
      rfl
    | cons v ws =>
      have hjoin : text ++ join (w :: v :: ws) =
          text ++ w.chars ++ [charSpace] ++ join (v :: ws) := by
        rw [join_cons_cons]
        simp
      -- behind this word there is room for a space, the other words and the terminator
      have hroom : (join (w :: v :: ws)).length + 1 =
          w.chars.length + ((join (v :: ws)).length + 1 + 1) := by
        rw [join_cons_cons, List.length_append, List.length_cons]
        omega
      rw [hjoin] at hmax ⊢
      have hlt : ((text ++ w.chars).length : ℤ) <
          (text ++ w.chars ++ [charSpace] ++ join (v :: ws)).length := by
        simp only [List.length_append, List.length_singleton]
        omega
      rw [List.foldlM_cons, hroom, addWord_eq text w _ (by omega), if_pos hlt,
        putChar_eq _ _ _ (by omega), Outcome.ok_bind,
        ih (text ++ w.chars ++ [charSpace]) (by simp) hmax]

/-! ### The whole run -/

/-- A sentence whose length is an `int` is built, unless there is no character before which
the terminator could be written. -/
theorem buildSentence_eq (hne : words ≠ []) (hmax : (total words + words.length : ℤ) ≤ intMax) :
    buildSentence words words.length =
      if join words = [] then .error (.outOfBounds (-1)) else .ok (join words ++ [0]) := by
  have hlen := length_join hne
  have hpos := List.length_pos_iff.mpr hne
  have hstart : subInt words.length 1 = .ok ((words.length : ℤ) - 1) := subInt_one (by omega)
  have hlengths : words.foldlM addLength ((words.length : ℤ) - 1) = .ok (join words).length := by
    rw [foldlM_addLength (by omega) (by omega)]
    congr 1
    omega
  have hsize : addInt (join words).length 1 = .ok (((join words).length + 1 : ℕ) : ℤ) :=
    addInt_one (by omega)
  have hlast : subInt (join words).length 1 = .ok (((join words).length : ℤ) - 1) :=
    subInt_one (by omega)
  have hnonneg : ¬ (((join words).length + 1 : ℕ) : ℤ) < 0 := by omega
  rw [buildSentence, hstart, Outcome.ok_bind, Int.toNat_natCast, Cells.foldlM_load, hlengths,
    Outcome.ok_bind, hsize, Outcome.ok_bind, if_neg hnonneg, Int.toNat_natCast, hlast,
    Outcome.ok_bind]
  by_cases hjoin : join words = []
  · rw [if_pos hjoin, hjoin]
    rfl
  · have hchars := List.length_pos_iff.mpr hjoin
    have hindex : ((join words).length : ℤ) - 1 = ((join words).length - 1 : ℕ) := by omega
    have hwords := foldlM_addWord [] words hne (by rw [List.nil_append]; omega)
    rw [hindex, Cells.store_of_lt (by rw [List.length_replicate]; omega), List.set_replicate_self,
      Outcome.ok_bind, Cells.foldlM_load, if_neg hjoin]
    simp only [List.nil_append, List.length_nil, Nat.cast_zero] at hwords
    rw [hwords, Outcome.ok_bind]

theorem join_ne_nil_iff (hne : words ≠ []) :
    join words ≠ [] ↔ 2 ≤ words.length ∨ ∃ w ∈ words, w.chars ≠ [] := by
  have hlen := length_join hne
  have hpos := List.length_pos_iff.mpr hne
  have htotal : 0 < total words ↔ ∃ w ∈ words, w.chars ≠ [] := by
    simp [total, strlen, List.sum_pos_iff_exists_pos_nat, List.length_pos_iff]
  rw [← List.length_pos_iff, ← htotal]
  omega

theorem length_of_putChar (h : putChar d c = .ok d') : d'.sentence.length = d.sentence.length := by
  obtain ⟨sentence, hstore, h⟩ := Outcome.bind_eq_ok.mp h
  obtain ⟨counter, -, h⟩ := Outcome.bind_eq_ok.mp h
  cases h
  exact Cells.length_of_store hstore

theorem length_of_addWord (h : addWord phraseLenth d w = .ok d') :
    d'.sentence.length = d.sentence.length := by
  obtain ⟨d₁, hloop, h⟩ := Outcome.bind_eq_ok.mp h
  have hlen : d₁.sentence.length = d.sentence.length := by
    refine foldlM_invariant (P := fun _ d' => d'.sentence.length = d.sentence.length) ?_ rfl hloop
    intro pre j a a' ha hpass
    obtain ⟨c, -, hpass⟩ := Outcome.bind_eq_ok.mp hpass
    rw [length_of_putChar hpass, ha]
  split_ifs at h
  · rw [length_of_putChar h, hlen]
  · cases h
    exact hlen

/-- The memory is what `calloc` returned. -/
theorem length_of_buildSentence (h : buildSentence words n = .ok sentence) :
    (sentence.length : ℤ) ≤ intMax := by
  obtain ⟨start, -, h⟩ := Outcome.bind_eq_ok.mp h
  obtain ⟨phraseLenth, -, h⟩ := Outcome.bind_eq_ok.mp h
  obtain ⟨size, hsize, h⟩ := Outcome.bind_eq_ok.mp h
  split_ifs at h with hneg
  obtain ⟨last, -, h⟩ := Outcome.bind_eq_ok.mp h
  obtain ⟨memory, hstore, h⟩ := Outcome.bind_eq_ok.mp h
  obtain ⟨d, hwords, h⟩ := Outcome.bind_eq_ok.mp h
  cases h
  have hmemory : memory.length = size.toNat := by
    rw [Cells.length_of_store hstore, List.length_replicate]
  have hlen : d.sentence.length = memory.length := by
    refine foldlM_invariant (P := fun _ d => d.sentence.length = memory.length) ?_ rfl hwords
    intro pre i a a' ha hpass
    obtain ⟨w, -, hpass⟩ := Outcome.bind_eq_ok.mp hpass
    rw [length_of_addWord hpass, ha]
  obtain ⟨rfl, hmax⟩ := of_addInt_eq_ok hsize
  omega

/-- **Sentences are built** for exactly these lists of words. -/
theorem builds_iff (words : List TextBuffer) : Builds words ↔ Fits words := by
  by_cases hne : words = []
  · subst hne
    have hnil : buildSentence [] (0 : ℕ) = .error (.outOfBounds (-2)) := rfl
    refine iff_of_false ?_ ?_
    · rintro ⟨rest, h⟩
      cases hnil.symm.trans h
    · rintro ⟨hchars, -⟩
      simp at hchars
  · rw [Fits, ← join_ne_nil_iff hne]
    constructor
    · rintro ⟨rest, h⟩
      have hsize := length_of_buildSentence h
      rw [List.length_append, List.length_cons] at hsize
      have hlen := length_join hne
      have hmax : (total words + words.length : ℤ) ≤ intMax := by omega
      refine ⟨fun hjoin => ?_, hmax⟩
      rw [buildSentence_eq hne hmax, if_pos hjoin] at h
      cases h
    · rintro ⟨hjoin, hmax⟩
      exact ⟨[], by rw [buildSentence_eq hne hmax, if_neg hjoin]⟩

/-- The empty word. -/
def emptyWord : TextBuffer := ⟨[], [], by decide⟩

/-- The sentence of one empty word is written outside of its memory. -/
theorem not_builds_emptyWord : ¬ Builds [emptyWord] := by
  rintro ⟨rest, h⟩
  have hstop : buildSentence [emptyWord] (1 : ℕ) = .error (.outOfBounds (-1)) := by
    rw [← List.length_singleton (a := emptyWord)]
    exact (buildSentence_eq (by simp) (by decide)).trans (if_pos rfl)
  cases hstop.symm.trans h

end BareMetal.BuildSentence
