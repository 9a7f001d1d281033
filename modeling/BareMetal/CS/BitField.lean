import Mathlib.Algebra.Group.Nat.Defs
import Mathlib.Tactic.Common

/-!
# Fields of a 32-bit word

A word is cut into fields of consecutive bits. `x & mask` keeps the low bits of a value,
`word |= x << lo` puts it on top of the fields that are there, and `(word >> lo) & mask`
reads it. As numbers these are remainders, sums and quotients by powers of two.

## Main results

* `toNat_or_shiftLeft` — a value is put on top of a word
* `toNat_shiftRight_and` — a field is read
* `field_eq_mod_iff`, `field_eq_field_iff` — what a field holds, bit by bit
-/

namespace CS.BitField

variable {word word' x mask lo : UInt32} {i j k m v : ℕ}

/-- `x & mask`, for a mask of `k` ones. -/
theorem toNat_and (hmask : mask.toNat = 2 ^ k - 1) : (x &&& mask).toNat = x.toNat % 2 ^ k := by
  rw [UInt32.toNat_and, hmask, Nat.and_two_pow_sub_one_eq_mod]

/-- `(word >> lo) & mask`. -/
theorem toNat_shiftRight_and (hlo : lo.toNat = i) (hi : i < 32) (hmask : mask.toNat = 2 ^ k - 1) :
    ((word >>> lo) &&& mask).toNat = word.toNat / 2 ^ i % 2 ^ k := by
  rw [toNat_and hmask, UInt32.toNat_shiftRight, hlo, Nat.mod_eq_of_lt hi,
    Nat.shiftRight_eq_div_pow]

/-- `word | (x << lo)`, for a word that ends below the bit `lo` and a value that fits. -/
theorem toNat_or_shiftLeft (hword : word.toNat = m) (hx : x.toNat = v) (hlo : lo.toNat = i)
    (hi : i < 32) (hm : m < 2 ^ i) (hv : v * 2 ^ i < 2 ^ 32) :
    (word ||| (x <<< lo)).toNat = m + v * 2 ^ i := by
  have hshift : (x <<< lo).toNat = v <<< i := by
    rw [UInt32.toNat_shiftLeft, hlo, hx, Nat.mod_eq_of_lt hi, Nat.shiftLeft_eq,
      Nat.mod_eq_of_lt hv]
  rw [UInt32.toNat_or, hshift, hword, Nat.or_comm, ← Nat.shiftLeft_add_eq_or_of_lt hm,
    Nat.shiftLeft_eq, Nat.add_comm]

/-! ### Bits -/

/-- `word | (x << lo)`, for any word and any value. -/
theorem testBit_or_shiftLeft (word x : UInt32) (hlo : lo.toNat = i) (hi : i < 32) (hj : j < 32) :
    (word ||| (x <<< lo)).toNat.testBit j =
      (word.toNat.testBit j || (decide (i ≤ j) && x.toNat.testBit (j - i))) := by
  rw [UInt32.toNat_or, UInt32.toNat_shiftLeft, hlo, Nat.mod_eq_of_lt hi, Nat.testBit_or,
    Nat.testBit_mod_two_pow, Nat.testBit_shiftLeft, decide_eq_true hj, Bool.true_and]

/-- A field holds a value, cut to its width, when the bits agree. -/
theorem field_eq_mod_iff (hlo : lo.toNat = i) (hi : i < 32) (hmask : mask.toNat = 2 ^ k - 1) :
    ((word >>> lo) &&& mask).toNat = v % 2 ^ k ↔
      ∀ j < k, word.toNat.testBit (i + j) = v.testBit j := by
  rw [toNat_shiftRight_and hlo hi hmask]
  have hbit (j : ℕ) : (word.toNat / 2 ^ i % 2 ^ k).testBit j =
      (decide (j < k) && word.toNat.testBit (i + j)) := by
    rw [Nat.testBit_mod_two_pow, Nat.testBit_div_two_pow, Nat.add_comm]
  constructor
  · intro heq j hj
    have hsame := congrArg (Nat.testBit · j) heq
    rwa [hbit, Nat.testBit_mod_two_pow, decide_eq_true hj, Bool.true_and, Bool.true_and] at hsame
  · intro hbits
    refine Nat.eq_of_testBit_eq fun j => ?_
    rw [hbit, Nat.testBit_mod_two_pow]
    by_cases hj : j < k
    · rw [hbits j hj]
    · rw [decide_eq_false hj, Bool.false_and, Bool.false_and]

/-- The same field of two words. -/
theorem field_eq_field_iff (hlo : lo.toNat = i) (hi : i < 32) (hmask : mask.toNat = 2 ^ k - 1) :
    (word >>> lo) &&& mask = (word' >>> lo) &&& mask ↔
      ∀ j < k, word.toNat.testBit (i + j) = word'.toNat.testBit (i + j) := by
  have hfield' : ((word' >>> lo) &&& mask).toNat = word'.toNat / 2 ^ i % 2 ^ k :=
    toNat_shiftRight_and hlo hi hmask
  rw [← UInt32.toNat_inj, hfield', field_eq_mod_iff hlo hi hmask]
  simp only [Nat.testBit_div_two_pow, Nat.add_comm]

end CS.BitField
