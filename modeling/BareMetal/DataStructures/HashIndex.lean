import BareMetal.CS.HashSign
import BareMetal.DataStructures.HashTable
import BareMetal.Multithreading.Banking.Basic
import BareMetal.Problems.Cargo.Basic
import BareMetal.Problems.RpgInventory
import BareMetal.Pthread.ProdCons

/-!
# Hashes as indices

`hash_function` stands in five programs, twice with an `int` as its result and three times with
a byte. All copies index an array with what it returns.

## Main results

* `isIndex_of_isAscii` — keys in ASCII have an index in each copy
* `hash_index_iff` — which keys have an index in each copy
-/

namespace BareMetal.DataStructures

open CS

/-- The copy with a fixed capacity computes the same hash. -/
theorem prodCons_hashFunction_eq (key : CString) {hash : ℤ}
    (hok : charHash key ProdCons.viewsCount = .ok hash) :
    ProdCons.hashFunction key = UInt8.ofInt hash := by
  rw [ProdCons.hashFunction]
  refine congrArg UInt8.ofInt ?_
  induction key using List.reverseRecOn generalizing hash with
  | nil => exact Except.ok.inj hok
  | append_singleton key c ih =>
    rw [charHash_concat] at hok
    obtain ⟨hash₀, hok₀, hstep⟩ := Outcome.bind_eq_ok.mp hok
    rw [List.foldl_concat, ih hok₀, charHashStep_eq_ok hstep]

/-- The copy with a fixed capacity. -/
theorem prodCons_isByteIndex_iff (key : CString) :
    IsByteIndex ProdCons.viewsCount (.ok (ProdCons.hashFunction key)) ↔
      ¬ Fallen ProdCons.viewsCount key := by
  have hpositive : (0 : ℤ) < ProdCons.viewsCount := by decide
  have hviews := isByteIndex_charHash_iff hpositive (by decide) key
  obtain ⟨hash, hok⟩ := exists_charHash hpositive (by decide) key
  rwa [hok, Outcome.ok_bind, ← prodCons_hashFunction_eq key hok] at hviews

/-- A key in ASCII has an index in every copy. -/
theorem isIndex_of_isAscii {key : CString} (hascii : key.IsAscii) {capacity : ℕ}
    (hpos : 1 ≤ capacity) (hle : capacity ≤ 127) :
    IsIndex capacity (hashFunction key capacity) ∧
      IsIndex capacity (Banking.hashFunction key capacity) ∧
      IsByteIndex capacity (RpgInventory.hashFunction key capacity) ∧
      IsByteIndex capacity (Cargo.hashFunction key capacity) ∧
      IsByteIndex ProdCons.viewsCount (.ok (ProdCons.hashFunction key)) := by
  have hcapacity : (0 : ℤ) < capacity := by omega
  have hsmall : (capacity : ℤ) ≤ 127 := by omega
  have hindex := (isIndex_charHash_iff hcapacity (hsmall.trans (by decide)) key).mpr
    hascii.not_fallen
  have hbyte := (isByteIndex_charHash_iff hcapacity hsmall key).mpr hascii.not_fallen
  exact ⟨hindex, hindex, hbyte, hbyte, (prodCons_isByteIndex_iff key).mpr hascii.not_fallen⟩

/-- For every string and every capacity that a signed byte can hold, each copy of the hash
returns an index exactly when the sum of the characters has not come down from a multiple of the
capacity to stay above the next one. -/
theorem hash_index_iff (key : CString) {capacity : ℕ} (hpos : 1 ≤ capacity) (hle : capacity ≤ 127) :
    (IsIndex capacity (hashFunction key capacity) ↔ ¬ Fallen capacity key) ∧
      (IsIndex capacity (Banking.hashFunction key capacity) ↔ ¬ Fallen capacity key) ∧
      (IsByteIndex capacity (RpgInventory.hashFunction key capacity) ↔ ¬ Fallen capacity key) ∧
      (IsByteIndex capacity (Cargo.hashFunction key capacity) ↔ ¬ Fallen capacity key) ∧
      (IsByteIndex ProdCons.viewsCount (.ok (ProdCons.hashFunction key)) ↔
        ¬ Fallen ProdCons.viewsCount key) := by
  have hcapacity : (0 : ℤ) < capacity := by omega
  have hsmall : (capacity : ℤ) ≤ 127 := by omega
  have hindex := isIndex_charHash_iff hcapacity (hsmall.trans (by decide)) key
  have hbyte := isByteIndex_charHash_iff hcapacity hsmall key
  exact ⟨hindex, hindex, hbyte, hbyte, prodCons_isByteIndex_iff key⟩

/-- The letter é, in UTF-8. -/
def eAcute : CString := [-61, -87]

theorem hash_index_eAcute :
    (IsIndex 5 (hashFunction eAcute 5) ↔ ¬ Fallen 5 eAcute) ∧
      (IsIndex 5 (Banking.hashFunction eAcute 5) ↔ ¬ Fallen 5 eAcute) ∧
      (IsByteIndex 5 (RpgInventory.hashFunction eAcute 5) ↔ ¬ Fallen 5 eAcute) ∧
      (IsByteIndex 5 (Cargo.hashFunction eAcute 5) ↔ ¬ Fallen 5 eAcute) ∧
      (IsByteIndex ProdCons.viewsCount (.ok (ProdCons.hashFunction eAcute)) ↔
        ¬ Fallen ProdCons.viewsCount eAcute) :=
  hash_index_iff eAcute (by decide) (by decide)

/-- The hash of é is -3, and 253 as a byte. -/
theorem hash_eAcute :
    hashFunction eAcute 5 = .ok (-3) ∧ ¬ IsIndex 5 (hashFunction eAcute 5) ∧
      Cargo.hashFunction eAcute 5 = .ok 253 ∧ ¬ IsByteIndex 5 (Cargo.hashFunction eAcute 5) := by
  have hhash : hashFunction eAcute 5 = .ok (-3) := by decide
  have hbyte : Cargo.hashFunction eAcute 5 = .ok 253 := by decide
  refine ⟨hhash, ?_, hbyte, ?_⟩
  · rw [hhash]
    rintro ⟨h, heq, hnonneg, -⟩
    cases heq
    exact absurd hnonneg (by decide)
  · rw [hbyte]
    rintro ⟨h, heq, hlt⟩
    cases heq
    exact absurd hlt (by decide)

end BareMetal.DataStructures
