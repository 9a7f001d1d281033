import BareMetal.CS.BitField

/-!
# The packed transaction of `system-design-bootcamp/bit-packing.c`

`pack_transaction` masks four values and puts them side by side into one word of 32
bits; `unpack_transaction` shifts and masks them back out.

## Main results

* `toNat_packTransaction`, `toNat_unpackTransaction` — both functions as arithmetic
* `pack_bijective` — what is packed is unpacked, and what is unpacked packs to the same
  word
-/

namespace BareMetal.BitPacking

open CS

/-- The locals of `unpack_transaction` that it prints. -/
@[ext]
structure Fields where
  store : UInt32
  reg : UInt32
  refund : UInt32
  amt : UInt32
  deriving DecidableEq, Repr

/-- `pack_transaction`. -/
def packTransaction (store reg refund amt : UInt32) : UInt32 :=
  let packet : UInt32 := 0
  let store := store &&& 0xFFF
  let reg := reg &&& 0xF
  let refund := refund &&& 0x1
  let amt := amt &&& 0x7FFF
  let packet := packet ||| store
  let packet := packet ||| (reg <<< 12)
  let packet := packet ||| (refund <<< 16)
  packet ||| (amt <<< 17)

/-- `unpack_transaction`. -/
def unpackTransaction (packet : UInt32) : Fields where
  store := packet &&& 0xFFF
  reg := (packet >>> 12) &&& 0xF
  refund := (packet >>> 16) &&& 0x1
  amt := (packet >>> 17) &&& 0x7FFF

variable {store reg refund amt packet : UInt32}

/-- The word is a number whose digits are the fields. -/
theorem toNat_packTransaction :
    (packTransaction store reg refund amt).toNat =
      store.toNat % 2 ^ 12 + reg.toNat % 2 ^ 4 * 2 ^ 12 + refund.toNat % 2 ^ 1 * 2 ^ 16 +
        amt.toNat % 2 ^ 15 * 2 ^ 17 := by
  have hreg : (reg &&& 0xF).toNat = reg.toNat % 2 ^ 4 := BitField.toNat_and rfl
  have hrefund : (refund &&& 0x1).toNat = refund.toNat % 2 ^ 1 := BitField.toNat_and rfl
  have hamt : (amt &&& 0x7FFF).toNat = amt.toNat % 2 ^ 15 := BitField.toNat_and rfl
  have hstore : (0 ||| (store &&& 0xFFF)).toNat = store.toNat % 2 ^ 12 := by
    rw [UInt32.zero_or]
    exact BitField.toNat_and rfl
  -- each value goes on top of the fields that are in the word already
  have hpacket₂ := BitField.toNat_or_shiftLeft hstore hreg (by rfl : (12 : UInt32).toNat = 12)
    (by omega) (by omega) (by omega)
  have hpacket₃ := BitField.toNat_or_shiftLeft hpacket₂ hrefund (by rfl : (16 : UInt32).toNat = 16)
    (by omega) (by omega) (by omega)
  exact BitField.toNat_or_shiftLeft hpacket₃ hamt rfl (by omega) (by omega) (by omega)

theorem toNat_unpackTransaction (packet : UInt32) :
    (unpackTransaction packet).store.toNat = packet.toNat % 2 ^ 12 ∧
      (unpackTransaction packet).reg.toNat = packet.toNat / 2 ^ 12 % 2 ^ 4 ∧
      (unpackTransaction packet).refund.toNat = packet.toNat / 2 ^ 16 % 2 ^ 1 ∧
      (unpackTransaction packet).amt.toNat = packet.toNat / 2 ^ 17 % 2 ^ 15 := by
  refine ⟨BitField.toNat_and rfl, ?_, ?_, ?_⟩
  · exact BitField.toNat_shiftRight_and rfl (by decide) rfl
  · exact BitField.toNat_shiftRight_and rfl (by decide) rfl
  · exact BitField.toNat_shiftRight_and rfl (by decide) rfl

/-- **Packing is a bijection.** The fields that are unpacked from a packed transaction are
the values that were packed, modulo the sizes of their fields, and the fields of any word
pack to that word. -/
theorem pack_bijective :
    (∀ store reg refund amt : UInt32,
        unpackTransaction (packTransaction store reg refund amt) =
          ⟨store % 4096, reg % 16, refund % 2, amt % 32768⟩) ∧
      ∀ w : UInt32,
        packTransaction (unpackTransaction w).store (unpackTransaction w).reg
          (unpackTransaction w).refund (unpackTransaction w).amt = w := by
  constructor
  · intro store reg refund amt
    have hpack : (packTransaction store reg refund amt).toNat = _ := toNat_packTransaction
    obtain ⟨hstore, hreg, hrefund, hamt⟩ :=
      toNat_unpackTransaction (packTransaction store reg refund amt)
    rw [hpack] at hstore hreg hrefund hamt
    refine Fields.ext ?_ ?_ ?_ ?_
    all_goals
      refine UInt32.toNat_inj.mp ?_
      simp only [UInt32.toNat_mod, UInt32.reduceToNat]
      omega
  · intro w
    obtain ⟨hstore, hreg, hrefund, hamt⟩ := toNat_unpackTransaction w
    have hw := w.toNat_lt
    refine UInt32.toNat_inj.mp ?_
    rw [toNat_packTransaction, hstore, hreg, hrefund, hamt]
    omega

end BareMetal.BitPacking
