import BareMetal.CS.Outcome

/-!
# Formatted output and input

`%d` of `fprintf` writes an `int` in decimal. `fscanf` works through its directives: white
space skips white space, `%*s` skips a word and `%d` reads an `int`, both after white space
of their own. The first directive that fails ends the call, and the result is the number of
values read, or `EOF` when the input ends before anything was converted.

## Main results

* `readInt_decimal` — `%d` reads back what `%d` has written
* `scan_skipWord`, `scan_int`, `scan_space` — one directive each
-/

namespace CS

namespace FormattedIO

/-- `isspace`. -/
def isSpace (c : Char) : Bool := c == ' ' || ('\t' ≤ c && c ≤ '\r')

/-- `%d` of `printf`. -/
def decimal : ℤ → List Char
  | .ofNat n => Nat.toDigits 10 n
  | .negSucc n => '-' :: Nat.toDigits 10 (n + 1)

/-- The directives of a `scanf` format that are needed here. -/
inductive Directive
  | space
  /-- `%*s`. -/
  | skipWord
  /-- `%d`. -/
  | int
  deriving DecidableEq, Repr

/-- What a call of `fscanf` leaves: its result, the values it assigned, and the input
behind what it has read. -/
structure Scanned where
  ret : ℤ
  assigned : List ℤ
  rest : List Char
  deriving DecidableEq, Repr

/-- `EOF`. -/
def eof : ℤ := -1

/-- The input behind its leading white space. -/
def skipSpace (input : List Char) : List Char := input.dropWhile isSpace

/-- The leading digits and their value. -/
def readNat (input : List Char) : Option (ℕ × List Char) :=
  if input.takeWhile Char.isDigit = [] then none
  else some (Nat.ofDigitChars 10 (input.takeWhile Char.isDigit) 0, input.dropWhile Char.isDigit)

/-- The input behind an optional sign. -/
def dropSign : List Char → List Char
  | '-' :: input => input
  | '+' :: input => input
  | input => input

/-- A number with an optional sign. -/
def readInt (input : List Char) : Option (ℤ × List Char) :=
  (readNat (dropSign input)).map fun (n, rest) =>
    (if input.head? = some '-' then -(n : ℤ) else n, rest)

/-- The directives one after the other. `converted` tells whether a conversion has
succeeded; a number outside the range of `int` has no meaning. -/
def scan : List Directive → Bool → List ℤ → List Char → Outcome Scanned
  | [], _, assigned, input => .ok ⟨assigned.length, assigned, input⟩
  | .space :: directives, converted, assigned, input =>
    scan directives converted assigned (skipSpace input)
  | .skipWord :: directives, converted, assigned, input =>
    if skipSpace input = [] then .ok ⟨if converted then assigned.length else eof, assigned, []⟩
    else scan directives true assigned ((skipSpace input).dropWhile fun c => !isSpace c)
  | .int :: directives, converted, assigned, input =>
    if skipSpace input = [] then .ok ⟨if converted then assigned.length else eof, assigned, []⟩
    else
      match readInt (skipSpace input) with
      | none => .ok ⟨assigned.length, assigned, dropSign (skipSpace input)⟩
      | some (value, rest) =>
        if intMin ≤ value ∧ value ≤ intMax then scan directives true (assigned ++ [value]) rest
        else .error .overflow

/-- `fscanf`. -/
def fscanf (directives : List Directive) (input : List Char) : Outcome Scanned :=
  scan directives false [] input

variable {c : Char} {input word rest : List Char} {directives : List Directive} {converted : Bool}
  {assigned : List ℤ} {value : ℤ}

/-! ### White space and words -/

/-- The input is not blank and does not start with white space. -/
def StartsWord (input : List Char) : Prop := ∃ c rest, input = c :: rest ∧ isSpace c = false

theorem startsWord_cons (h : isSpace c = false) : StartsWord (c :: rest) := ⟨c, rest, rfl, h⟩

theorem StartsWord.append (h : StartsWord word) (rest : List Char) : StartsWord (word ++ rest) := by
  obtain ⟨c, tail, rfl, hc⟩ := h
  exact startsWord_cons hc

theorem StartsWord.ne_nil (h : StartsWord input) : input ≠ [] := by
  obtain ⟨c, rest, rfl, -⟩ := h
  simp

/-- White space in front of a word is skipped, and nothing else. -/
theorem skipSpace_append (blank : List Char) (hblank : ∀ c ∈ blank, isSpace c = true)
    (h : StartsWord input) : skipSpace (blank ++ input) = input := by
  obtain ⟨c, rest, rfl, hc⟩ := h
  rw [skipSpace, List.dropWhile_append_of_pos hblank]
  simp [hc]

theorem StartsWord.skipSpace_eq (h : StartsWord input) : skipSpace input = input :=
  skipSpace_append [] (by simp) h

/-- A word is skipped up to the white space behind it. -/
theorem dropWord {space : Char} (hword : ∀ c ∈ word, isSpace c = false)
    (hspace : isSpace space = true) :
    (word ++ space :: rest).dropWhile (fun c => !isSpace c) = space :: rest := by
  rw [List.dropWhile_append_of_pos fun c hc => by simp [hword c hc]]
  simp [hspace]

/-! ### Numbers -/

theorem isSpace_eq_false_of_isDigit (h : c.isDigit = true) : isSpace c = false := by
  have hdigit := Char.isDigit_iff_toNat.mp h
  have hle : ¬ c ≤ '\r' := by
    rw [Char.le_def, UInt32.le_iff_toNat_le]
    exact fun hle => absurd (Nat.le_trans hdigit.1 hle) (by decide)
  have hne : c ≠ ' ' := by
    rintro rfl
    exact absurd hdigit.1 (by decide)
  simp [isSpace, hle, hne]

theorem isDigit_of_mem_decimal {n : ℕ} (hc : c ∈ Nat.toDigits 10 n) : c.isDigit = true :=
  Nat.isDigit_of_mem_toDigits (by decide) (by decide) hc

theorem startsWord_toDigits (n : ℕ) : StartsWord (Nat.toDigits 10 n) := by
  cases hdigits : Nat.toDigits 10 n with
  | nil => exact absurd hdigits Nat.toDigits_ne_nil
  | cons c rest =>
    have hc : c ∈ Nat.toDigits 10 n := by simp [hdigits]
    exact startsWord_cons (isSpace_eq_false_of_isDigit (isDigit_of_mem_decimal hc))

theorem startsWord_decimal (value : ℤ) : StartsWord (decimal value) := by
  cases value with
  | ofNat n => exact startsWord_toDigits n
  | negSucc n => exact startsWord_cons (by decide)

/-- No character of a number is white space. -/
theorem isSpace_of_mem_decimal (hc : c ∈ decimal value) : isSpace c = false := by
  cases value with
  | ofNat n => exact isSpace_eq_false_of_isDigit (isDigit_of_mem_decimal hc)
  | negSucc n =>
    rcases List.mem_cons.mp hc with rfl | hc
    · decide
    · exact isSpace_eq_false_of_isDigit (isDigit_of_mem_decimal hc)

/-- Digits are read up to a character that is none. -/
theorem readNat_toDigits (n : ℕ) (h : c.isDigit = false) (rest : List Char) :
    readNat (Nat.toDigits 10 n ++ c :: rest) = some (n, c :: rest) := by
  have hdigits : ∀ d ∈ Nat.toDigits 10 n, d.isDigit = true := fun d hd => isDigit_of_mem_decimal hd
  have htake : (Nat.toDigits 10 n ++ c :: rest).takeWhile Char.isDigit = Nat.toDigits 10 n := by
    rw [List.takeWhile_append_of_pos hdigits]
    simp [h]
  have hdrop : (Nat.toDigits 10 n ++ c :: rest).dropWhile Char.isDigit = c :: rest := by
    rw [List.dropWhile_append_of_pos hdigits]
    simp [h]
  rw [readNat, htake, hdrop, if_neg Nat.toDigits_ne_nil, Nat.ofDigitChars_ten_toDigits]

/-- Digits have no sign. -/
theorem dropSign_of_isDigit (h : c.isDigit = true) : dropSign (c :: rest) = c :: rest := by
  unfold dropSign
  split
  · rename_i heq
    cases heq
    cases h
  · rename_i heq
    cases heq
    cases h
  · rfl

/-- A number is read back up to a character that is no digit. -/
theorem readInt_decimal (value : ℤ) (h : c.isDigit = false) :
    readInt (decimal value ++ c :: rest) = some (value, c :: rest) := by
  cases value with
  | ofNat n =>
    have hread := readNat_toDigits n h rest
    have hmem : ∀ d ∈ Nat.toDigits 10 n, d.isDigit = true := fun d hd => isDigit_of_mem_decimal hd
    -- the first digit is no sign
    obtain ⟨d, digits, hdigits, -⟩ := startsWord_toDigits n
    have hd : d.isDigit = true := hmem d (by simp [hdigits])
    have hminus : d ≠ '-' := by
      rintro rfl
      cases hd
    rw [hdigits, List.cons_append] at hread
    rw [decimal, hdigits, List.cons_append, readInt, dropSign_of_isDigit hd, hread]
    simp [hminus]
  | negSucc n =>
    have hread := readNat_toDigits (n + 1) h rest
    rw [decimal, List.cons_append, readInt, dropSign, hread]
    rfl

/-! ### Directives -/

theorem scan_nil :
    scan [] converted assigned input = .ok ⟨assigned.length, assigned, input⟩ := rfl

theorem scan_space (blank : List Char) (hblank : ∀ c ∈ blank, isSpace c = true)
    (h : StartsWord input) :
    scan (.space :: directives) converted assigned (blank ++ input) =
      scan directives converted assigned input := by
  rw [scan, skipSpace_append blank hblank h]

/-- `%*s` in front of a word. -/
theorem scan_skipWord {space : Char} (hstart : StartsWord word)
    (hword : ∀ c ∈ word, isSpace c = false) (hspace : isSpace space = true) :
    scan (.skipWord :: directives) converted assigned (word ++ space :: rest) =
      scan directives true assigned (space :: rest) := by
  have hinput : skipSpace (word ++ space :: rest) = word ++ space :: rest :=
    (hstart.append _).skipSpace_eq
  rw [scan, hinput, if_neg (hstart.append _).ne_nil, dropWord hword hspace]

/-- `%d` in front of a number. -/
theorem scan_int (hmin : intMin ≤ value) (hmax : value ≤ intMax) (h : c.isDigit = false) :
    scan (.int :: directives) converted assigned (decimal value ++ c :: rest) =
      scan directives true (assigned ++ [value]) (c :: rest) := by
  have hstart := (startsWord_decimal value).append (c :: rest)
  rw [scan, hstart.skipSpace_eq, if_neg hstart.ne_nil, readInt_decimal value h]
  exact if_pos ⟨hmin, hmax⟩

end FormattedIO

end CS
