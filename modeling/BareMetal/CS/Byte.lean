import Mathlib.Data.Nat.Notation
import Mathlib.Tactic.Common

/-!
# Flags in a byte

Programs keep flags in the bits of a byte: `x & mask` tests, `x |= mask` sets and
`x &= ~mask` clears. `Has x mask` is the test, and the lemmas say what the other two
do to it.
-/

namespace CS.Byte

variable {x mask other : UInt8}

/-- `(x & mask) != 0`. -/
def Has (x mask : UInt8) : Prop := x &&& mask ≠ 0

instance (x mask : UInt8) : Decidable (Has x mask) := inferInstanceAs (Decidable (_ ≠ _))

/-- `x |= other`. -/
theorem has_or_iff : Has (x ||| other) mask ↔ Has x mask ∨ Has other mask := by
  have hdistrib : (x ||| other) &&& mask = (x &&& mask) ||| (other &&& mask) :=
    UInt8.toBitVec_inj.mp BitVec.and_or_distrib_right
  unfold Has
  rw [hdistrib, Ne, UInt8.or_eq_zero_iff, not_and_or]

/-- Other bits are set. -/
theorem has_or_of_not (h : ¬ Has other mask) : Has (x ||| other) mask ↔ Has x mask := by
  rw [has_or_iff, or_iff_left h]

theorem has_or_of_has (h : Has other mask) : Has (x ||| other) mask := has_or_iff.mpr (Or.inr h)

/-- `x &= ~other`, tested with another mask. -/
theorem has_clear_of_ne (h : ~~~other &&& mask = mask) :
    Has (x &&& ~~~other) mask ↔ Has x mask := by
  unfold Has
  rw [UInt8.and_assoc, h]

/-- `x &= ~other`, tested with bits that it clears. -/
theorem not_has_clear (h : ~~~other &&& mask = 0) : ¬ Has (x &&& ~~~other) mask := by
  unfold Has
  rw [UInt8.and_assoc, h, UInt8.and_zero]
  exact not_not_intro rfl

/-- Clearing bits that are clear. -/
theorem clear_of_not_has (h : ¬ Has x mask) : x &&& ~~~mask = x := by
  have hzero : x.toBitVec &&& mask.toBitVec = 0#8 := congrArg UInt8.toBitVec (not_not.mp h)
  apply UInt8.toBitVec_inj.mp
  ext i hi
  have hbit := congrArg (fun bits => bits[i]) hzero
  simp only [BitVec.getElem_and, BitVec.getElem_zero] at hbit
  rw [UInt8.toBitVec_and, UInt8.toBitVec_not, BitVec.getElem_and, BitVec.getElem_not]
  cases hx : x.toBitVec[i] with
  | false => rfl
  | true =>
    rw [hx, Bool.true_and] at hbit
    rw [hbit]
    rfl

end CS.Byte
