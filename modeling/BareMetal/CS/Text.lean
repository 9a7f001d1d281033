import BareMetal.CS.Outcome
import Mathlib.Algebra.Order.Ring.Int
import Mathlib.Data.List.Induction

/-!
# C strings and a hash of their characters

`char` is signed, so a C string is a list of `Int8`. `charHash` adds the characters
up and takes the remainder after each addition, in `int` arithmetic: an addition
that leaves the range of `int` stops the program, and a string with negative
characters may have a negative hash.

## Main results

* `charHash_eq_iff` — for ASCII text the hash is the sum of the characters modulo the
  capacity, unless an addition overflows
* `noOverflow_of_le` — for a capacity well inside the range of `int` none does
-/

namespace CS

/-- A C string without its terminator. -/
abbrev CString := List Int8

namespace CString

/-- The `char`s of a literal. -/
def ofString (text : String) : CString := text.toList.map fun c => Int8.ofNat c.toNat

/-- A C string as it is printed. -/
def toText (text : CString) : String :=
  String.ofList (text.map fun c => Char.ofNat c.toUInt8.toNat)

/-- `strlen(text) + 1`, converted to an `int`. -/
def size (text : CString) : ℤ := Int.bmod (text.length + 1) (2 ^ 32)

theorem size_eq {text : CString} (h : text.length < 2 ^ 31 - 1) : text.size = text.length + 1 :=
  Int.bmod_eq_of_le (by omega) (by omega)

/-- All characters are positive, as those of ASCII text are. -/
def IsAscii (key : CString) : Prop := ∀ c ∈ key, 0 < c

instance (key : CString) : Decidable key.IsAscii :=
  inferInstanceAs (Decidable (∀ c ∈ key, 0 < c))

end CString

/-- `a % b` on `int`s: the remainder has the sign of the dividend. -/
def modInt (a b : ℤ) : Outcome ℤ :=
  if b = 0 then .error .divByZero else .ok (a.tmod b)

/-- One pass of the loop of a hash: `hash = (hash + c) % capacity`. -/
def charHashStep (capacity hash : ℤ) (c : Int8) : Outcome ℤ := do
  let sum ← addInt hash c.toInt
  modInt sum capacity

/-- The sum of the characters of `key`, reduced after each addition. -/
def charHash (key : CString) (capacity : ℤ) : Outcome ℤ :=
  key.foldlM (charHashStep capacity) 0

/-- An `int` in the range of a byte is converted without loss. -/
theorem toNat_ofInt_of_lt {hash : ℤ} (hnonneg : 0 ≤ hash) (hlt : hash < 256) :
    (UInt8.ofInt hash).toNat = hash.toNat := by
  have hmod : hash % 2 ^ 8 = hash := Int.emod_eq_of_lt hnonneg hlt
  have hsize : hash.toNat < 256 := by omega
  rw [UInt8.ofInt, hmod, UInt8.toNat_ofNat_of_lt' hsize]

/-- Different indices of up to 256 cells are different bytes. -/
theorem ofNat_inj_of_le {n : ℕ} (hn : n ≤ 256) {i j : Fin n} :
    UInt8.ofNat i = UInt8.ofNat j ↔ i = j := by
  constructor
  · intro heq
    have hbyte := congrArg UInt8.toNat heq
    rw [UInt8.toNat_ofNat_of_lt' (i.isLt.trans_le hn),
      UInt8.toNat_ofNat_of_lt' (j.isLt.trans_le hn)] at hbyte
    exact Fin.ext hbyte
  · rintro rfl
    rfl

/-! ### The hash of ASCII text -/

/-- The sum of the characters. -/
def charSum (key : CString) : ℤ := (key.map Int8.toInt).sum

/-- No addition leaves the range of `int`. -/
def NoOverflow (capacity : ℤ) (key : CString) : Prop :=
  ∀ pre c, pre ++ [c] <+: key → charSum pre % capacity + c.toInt ≤ intMax

variable {key pre : CString} {capacity hash : ℤ} {c : Int8}

@[simp] theorem charSum_nil : charSum [] = 0 := rfl

theorem charSum_concat (pre : CString) (c : Int8) :
    charSum (pre ++ [c]) = charSum pre + c.toInt := by
  simp [charSum]

theorem charHash_concat (pre : CString) (c : Int8) (capacity : ℤ) :
    charHash (pre ++ [c]) capacity =
      charHash pre capacity >>= fun hash => charHashStep capacity hash c := by
  simp [charHash, List.foldlM_append]

theorem noOverflow_nil (capacity : ℤ) : NoOverflow capacity [] := by
  intro pre c hprefix
  simp at hprefix

theorem noOverflow_concat :
    NoOverflow capacity (key ++ [c]) ↔
      NoOverflow capacity key ∧ charSum key % capacity + c.toInt ≤ intMax := by
  constructor
  · intro h
    exact ⟨fun pre d hpre => h pre d (hpre.trans (List.prefix_append ..)),
      h key c List.prefix_rfl⟩
  · rintro ⟨h, hc⟩ pre d hpre
    rcases List.prefix_concat_iff.mp hpre with heq | hold
    · obtain ⟨rfl, hd⟩ := List.append_inj' heq rfl
      cases hd
      exact hc
    · exact h pre d hold

theorem CString.IsAscii.of_concat (h : CString.IsAscii (key ++ [c])) : key.IsAscii ∧ 0 < c := by
  refine ⟨fun d hd => h d (List.mem_append_left _ hd), h c ?_⟩
  exact List.mem_append_right _ (List.mem_singleton_self c)

/-- One addition, from a hash that is a remainder. -/
theorem charHashStep_eq_ok_iff (hcapacity : 0 < capacity) (hhash : 0 ≤ hash) (hc : 0 < c)
    {hash' : ℤ} :
    charHashStep capacity hash c = .ok hash' ↔
      hash + c.toInt ≤ intMax ∧ hash' = (hash + c.toInt) % capacity := by
  have hpos : 0 < c.toInt := Int8.lt_iff_toInt_lt.mp hc
  have hmin : intMin ≤ hash + c.toInt := by
    unfold intMin
    omega
  have hne : capacity ≠ 0 := by omega
  unfold charHashStep addInt modInt
  by_cases hmax : hash + c.toInt ≤ intMax
  · rw [if_pos ⟨hmin, hmax⟩, Outcome.ok_bind, if_neg hne,
      Int.tmod_eq_emod_of_nonneg (by omega), Except.ok.injEq]
    exact ⟨fun h => ⟨hmax, h.symm⟩, fun h => h.2.symm⟩
  · rw [if_neg fun h => hmax h.2]
    exact iff_of_false nofun fun h => hmax h.1

/-- The hash of ASCII text. The induction is on the characters read so far. -/
theorem charHash_eq_iff (hcapacity : 0 < capacity) (h : key.IsAscii) :
    charHash key capacity = .ok hash ↔
      NoOverflow capacity key ∧ hash = charSum key % capacity := by
  induction key using List.reverseRecOn generalizing hash with
  | nil =>
    have hnil : charHash [] capacity = .ok 0 := rfl
    rw [hnil, Except.ok.injEq, charSum_nil, Int.zero_emod]
    exact ⟨fun heq => ⟨noOverflow_nil capacity, heq.symm⟩, fun heq => heq.2.symm⟩
  | append_singleton key c ih =>
    obtain ⟨hkey, hc⟩ := h.of_concat
    have hnonneg : 0 ≤ charSum key % capacity := Int.emod_nonneg _ (by omega)
    rw [charHash_concat, Outcome.bind_eq_ok, noOverflow_concat, charSum_concat]
    constructor
    · rintro ⟨hash₁, hhash₁, hstep⟩
      obtain ⟨hsafe, rfl⟩ := (ih hkey).mp hhash₁
      obtain ⟨hmax, rfl⟩ := (charHashStep_eq_ok_iff hcapacity hnonneg hc).mp hstep
      exact ⟨⟨hsafe, hmax⟩, Int.emod_add_emod ..⟩
    · rintro ⟨⟨hsafe, hmax⟩, rfl⟩
      refine ⟨_, (ih hkey).mpr ⟨hsafe, rfl⟩, ?_⟩
      exact (charHashStep_eq_ok_iff hcapacity hnonneg hc).mpr ⟨hmax, (Int.emod_add_emod ..).symm⟩

/-- A capacity that leaves room for one more character. -/
theorem noOverflow_of_le (hcapacity : 0 < capacity) (hle : capacity ≤ intMax - 126)
    (key : CString) : NoOverflow capacity key := by
  intro pre c _
  have hlt := Int.emod_lt_of_pos (charSum pre) hcapacity
  have hc := c.toInt_lt
  omega

theorem charHash_eq (hcapacity : 0 < capacity) (hle : capacity ≤ intMax - 126) (h : key.IsAscii) :
    charHash key capacity = .ok (charSum key % capacity) :=
  (charHash_eq_iff hcapacity h).mpr ⟨noOverflow_of_le hcapacity hle key, rfl⟩

/-- The hash of ASCII text as the index of one of up to 256 cells, in one byte. -/
theorem exists_charHash_eq {n : ℕ} (hpos : 0 < n) (hle : n ≤ 256) (h : key.IsAscii) :
    ∃ i : Fin n, charHash key n = .ok (i : ℕ) ∧ (UInt8.ofInt (i : ℕ)).toNat = i := by
  have hmax : (n : ℤ) ≤ intMax - 126 := by
    unfold intMax
    omega
  have hhash := charHash_eq (by omega : (0 : ℤ) < n) hmax h
  have hnonneg : 0 ≤ charSum key % n := Int.emod_nonneg _ (by omega)
  have hlt : charSum key % n < n := Int.emod_lt_of_pos _ (by omega)
  refine ⟨⟨(charSum key % n).toNat, by omega⟩, ?_, ?_⟩
  · rw [hhash, Int.toNat_of_nonneg hnonneg]
  · rw [Int.toNat_of_nonneg hnonneg]
    exact toNat_ofInt_of_lt hnonneg (by omega)

end CS
