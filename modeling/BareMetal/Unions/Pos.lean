import BareMetal.CS.BitField

/-!
# The point of sale of `unions/pos.c`

`perform_transaction` shifts four values of 32 bits into one word and does not cut them to the
width of their fields, so the bits that are too high land in the next fields. `request_refund`
puts the refund bit on top of a new union, whose word has not been set.

## Main results

* `recovered_iff` — the transactions whose fields are recovered
* `refund_iff` — the refunds that change nothing but the refund bit
-/

namespace BareMetal.Pos

open CS

/-- `Transaction`. -/
structure Transaction where
  storeId : UInt32
  registerId : UInt32
  isRefund : UInt32
  amount : UInt32
  deriving DecidableEq, Repr

/-- `POS`, as a word. -/
structure POS where
  transaction : UInt32
  deriving DecidableEq, Repr

/-- `perform_transaction`, with the union that it stores. -/
def performTransaction (transaction : Transaction) : POS :=
  let new := transaction.storeId <<< 0
  let new := new ||| (transaction.registerId <<< 12)
  let new := new ||| (transaction.isRefund <<< 16)
  ⟨new ||| (transaction.amount <<< 17)⟩

/-- `request_refund`, with its output. The local union has some word before it is set. -/
def requestRefund (new : UInt32) (pos : POS) : POS × String :=
  let payload := pos.transaction
  let isRefunded := (payload >>> 16) &&& 0x1
  if isRefunded = 0 then (⟨new ||| ((1 : UInt32) <<< 16)⟩, "")
  else (pos, "This transaction cannot be refunded\n")

/-- The locals of `prinf_invoice` that it prints. -/
@[ext]
structure Invoice where
  recoveredStore : UInt32
  recoveredRegister : UInt32
  recoveredRefund : UInt32
  recoveredAmount : UInt32
  deriving DecidableEq, Repr

/-- The fields that `prinf_invoice` recovers. -/
def recovered (pos : POS) : Invoice where
  recoveredStore := (pos.transaction >>> 0) &&& 0xFFF
  recoveredRegister := (pos.transaction >>> 12) &&& 0xF
  recoveredRefund := (pos.transaction >>> 16) &&& 0x1
  recoveredAmount := (pos.transaction >>> 17) &&& 0x7FFF

/-- `%.2f` of a number of cents divided by 100. -/
def dollars (cents : ℕ) : String :=
  toString (cents / 100) ++ "." ++ toString (cents % 100 / 10) ++ toString (cents % 10)

/-- `prinf_invoice`, with its output. -/
def prinfInvoice (pos : POS) : String :=
  let invoice := recovered pos
  "\n--- Receiver Engine (Unpacking) ---\n" ++
    "Store ID      : " ++ toString invoice.recoveredStore ++ "\n" ++
    "Register      : " ++ toString invoice.recoveredRegister ++ "\n" ++
    "Is Refund     : " ++ (if invoice.recoveredRefund ≠ 0 then "True" else "False") ++ "\n" ++
    "Amount        : $" ++ dollars invoice.recoveredAmount.toNat ++ "\n"

/-- Every bit above the width of its field is set in the field that it lands in. -/
structure Absorbed (t : Transaction) : Prop where
  register : ∀ j < 4, t.storeId.toNat.testBit (12 + j) → t.registerId.toNat.testBit j
  refund : t.storeId.toNat.testBit 16 ∨ t.registerId.toNat.testBit 4 → t.isRefund.toNat.testBit 0
  amount : ∀ j < 15, t.storeId.toNat.testBit (17 + j) ∨ t.registerId.toNat.testBit (5 + j) ∨
    t.isRefund.toNat.testBit (1 + j) → t.amount.toNat.testBit j

/-- What the fields should be. -/
def invoiceOf (t : Transaction) : Invoice :=
  ⟨t.storeId % 4096, t.registerId % 16, t.isRefund % 2, t.amount % 32768⟩

variable {t : Transaction} {pos pos' : POS} {new : UInt32} {i j : ℕ}

/-! ### Words, bit by bit -/

theorem testBit_performTransaction (t : Transaction) (hj : j < 32) :
    (performTransaction t).transaction.toNat.testBit j =
      (t.storeId.toNat.testBit j || (decide (12 ≤ j) && t.registerId.toNat.testBit (j - 12)) ||
        (decide (16 ≤ j) && t.isRefund.toNat.testBit (j - 16)) ||
        (decide (17 ≤ j) && t.amount.toNat.testBit (j - 17))) := by
  rw [performTransaction, UInt32.shiftLeft_zero]
  rw [BitField.testBit_or_shiftLeft _ _ (by rfl : (17 : UInt32).toNat = 17) (by omega) hj,
    BitField.testBit_or_shiftLeft _ _ (by rfl : (16 : UInt32).toNat = 16) (by omega) hj,
    BitField.testBit_or_shiftLeft _ _ (by rfl : (12 : UInt32).toNat = 12) (by omega) hj]

/-- The fields of a word, bit by bit. -/
theorem recovered_eq_invoiceOf_iff : recovered pos = invoiceOf t ↔
    (∀ j < 12, pos.transaction.toNat.testBit (0 + j) = t.storeId.toNat.testBit j) ∧
      (∀ j < 4, pos.transaction.toNat.testBit (12 + j) = t.registerId.toNat.testBit j) ∧
      (∀ j < 1, pos.transaction.toNat.testBit (16 + j) = t.isRefund.toNat.testBit j) ∧
      ∀ j < 15, pos.transaction.toNat.testBit (17 + j) = t.amount.toNat.testBit j := by
  rw [Invoice.ext_iff]
  simp only [← UInt32.toNat_inj]
  exact and_congr (BitField.field_eq_mod_iff (i := 0) (k := 12) rfl (by decide) rfl) <|
    and_congr (BitField.field_eq_mod_iff (i := 12) (k := 4) rfl (by decide) rfl) <|
    and_congr (BitField.field_eq_mod_iff (i := 16) (k := 1) rfl (by decide) rfl)
      (BitField.field_eq_mod_iff (i := 17) (k := 15) rfl (by decide) rfl)

/-- Two words hold the same fields, apart from the refund bit. -/
theorem recovered_eq_iff (refund : UInt32) :
    recovered pos' = { recovered pos with recoveredRefund := refund } ↔
      (∀ j < 32, j ≠ 16 → pos'.transaction.toNat.testBit j = pos.transaction.toNat.testBit j) ∧
        (recovered pos').recoveredRefund = refund := by
  have hfields : recovered pos' = { recovered pos with recoveredRefund := refund } ↔
      (∀ j < 12, pos'.transaction.toNat.testBit (0 + j) = pos.transaction.toNat.testBit (0 + j)) ∧
      (∀ j < 4, pos'.transaction.toNat.testBit (12 + j) = pos.transaction.toNat.testBit (12 + j)) ∧
      (recovered pos').recoveredRefund = refund ∧
      ∀ j < 15, pos'.transaction.toNat.testBit (17 + j) =
        pos.transaction.toNat.testBit (17 + j) := by
    rw [Invoice.ext_iff]
    exact and_congr (BitField.field_eq_field_iff (i := 0) (k := 12) rfl (by decide) rfl) <|
      and_congr (BitField.field_eq_field_iff (i := 12) (k := 4) rfl (by decide) rfl) <|
      and_congr Iff.rfl (BitField.field_eq_field_iff (i := 17) (k := 15) rfl (by decide) rfl)
  rw [hfields]
  constructor
  · rintro ⟨hstore, hregister, hrefund, hamount⟩
    refine ⟨fun j hj hne => ?_, hrefund⟩
    -- the field that the bit belongs to
    rcases Nat.lt_or_ge j 12 with hlow | hge
    · have hbit := hstore j hlow
      rwa [Nat.zero_add] at hbit
    · rcases Nat.lt_or_ge j 16 with hlow | hhigh
      · have hbit := hregister (j - 12) (by omega)
        rwa [Nat.add_sub_cancel' hge] at hbit
      · have hbit := hamount (j - 17) (by omega)
        rwa [Nat.add_sub_cancel' (by omega)] at hbit
  · rintro ⟨hbits, hrefund⟩
    exact ⟨fun j hj => hbits _ (by omega) (by omega), fun j hj => hbits _ (by omega) (by omega),
      hrefund, fun j hj => hbits _ (by omega) (by omega)⟩

/-! ### Transactions -/

theorem testBit_store (t : Transaction) (hj : j < 12) :
    (performTransaction t).transaction.toNat.testBit (0 + j) = t.storeId.toNat.testBit j := by
  rw [Nat.zero_add, testBit_performTransaction t (by omega), decide_eq_false (by omega),
    decide_eq_false (by omega), decide_eq_false (by omega)]
  simp only [Bool.false_and, Bool.or_false]

theorem testBit_register (t : Transaction) (hj : j < 4) :
    (performTransaction t).transaction.toNat.testBit (12 + j) =
      (t.storeId.toNat.testBit (12 + j) || t.registerId.toNat.testBit j) := by
  rw [testBit_performTransaction t (by omega), decide_eq_true (by omega),
    decide_eq_false (by omega), decide_eq_false (by omega), Nat.add_sub_cancel_left]
  simp only [Bool.true_and, Bool.false_and, Bool.or_false]

theorem testBit_refund (t : Transaction) :
    (performTransaction t).transaction.toNat.testBit 16 =
      (t.storeId.toNat.testBit 16 || t.registerId.toNat.testBit 4 ||
        t.isRefund.toNat.testBit 0) := by
  rw [testBit_performTransaction t (by decide)]
  simp only [Nat.reduceLeDiff, Nat.reduceSub, decide_true, decide_false, Bool.true_and,
    Bool.false_and, Bool.or_false]

theorem testBit_amount (t : Transaction) (hj : j < 15) :
    (performTransaction t).transaction.toNat.testBit (17 + j) =
      (t.storeId.toNat.testBit (17 + j) || t.registerId.toNat.testBit (5 + j) ||
        t.isRefund.toNat.testBit (1 + j) || t.amount.toNat.testBit j) := by
  have hregister : 17 + j - 12 = 5 + j := by omega
  have hrefund : 17 + j - 16 = 1 + j := by omega
  rw [testBit_performTransaction t (by omega), decide_eq_true (by omega),
    decide_eq_true (by omega), decide_eq_true (by omega), hregister, hrefund,
    Nat.add_sub_cancel_left]
  simp only [Bool.true_and]

/-- **The recovered fields.** They are the values of the transaction, cut to the widths of the
fields, exactly when every bit that is too high for its field is set in the field where it
lands. -/
theorem recovered_iff (t : Transaction) :
    recovered (performTransaction t) = invoiceOf t ↔ Absorbed t := by
  rw [recovered_eq_invoiceOf_iff]
  constructor
  · rintro ⟨-, hregister, hrefund, hamount⟩
    refine ⟨fun j hj hbit => ?_, fun hbit => ?_, fun j hj hbit => ?_⟩
    · rw [← hregister j hj, testBit_register t hj, hbit, Bool.true_or]
    · rw [← hrefund 0 (by decide), testBit_refund, Bool.or_eq_true, Bool.or_eq_true]
      exact Or.inl hbit
    · rw [← hamount j hj, testBit_amount t hj, Bool.or_eq_true, Bool.or_eq_true, Bool.or_eq_true,
        or_assoc (a := t.storeId.toNat.testBit _ = true)]
      exact Or.inl hbit
  · rintro ⟨hregister, hrefund, hamount⟩
    refine ⟨fun j hj => testBit_store t hj, fun j hj => ?_, fun j hj => ?_, fun j hj => ?_⟩
    · rw [testBit_register t hj]
      exact Bool.or_eq_right_iff_imp.mpr (hregister j hj)
    · obtain rfl : j = 0 := Nat.lt_one_iff.mp hj
      rw [testBit_refund]
      exact Bool.or_eq_right_iff_imp.mpr fun hbit => hrefund (Bool.or_eq_true_iff.mp hbit)
    · rw [testBit_amount t hj]
      refine Bool.or_eq_right_iff_imp.mpr fun hbit => hamount j hj ?_
      rwa [Bool.or_eq_true, Bool.or_eq_true, or_assoc] at hbit

/-- Nothing is lost of a transaction whose values fit. -/
theorem absorbed_of_lt (hstore : t.storeId.toNat < 2 ^ 12) (hregister : t.registerId.toNat < 2 ^ 4)
    (hrefund : t.isRefund.toNat < 2 ^ 1) : Absorbed t := by
  -- no bit is too high
  have hhigh {v k i : ℕ} (hv : v < 2 ^ k) (hi : k ≤ i) : ¬ v.testBit i = true := by
    rw [Nat.testBit_lt_two_pow (Nat.lt_of_lt_of_le hv (Nat.pow_le_pow_right (by decide) hi))]
    exact Bool.false_ne_true
  refine ⟨fun j _ hbit => absurd hbit (hhigh hstore (by omega)), fun hbit => ?_,
    fun j _ hbit => ?_⟩
  · rcases hbit with hbit | hbit
    · exact absurd hbit (hhigh hstore (by decide))
    · exact absurd hbit (hhigh hregister (by decide))
  · rcases hbit with hbit | hbit | hbit
    · exact absurd hbit (hhigh hstore (by omega))
    · exact absurd hbit (hhigh hregister (by omega))
    · exact absurd hbit (hhigh hrefund (by omega))

/-- The first invoice of `main`. -/
example : prinfInvoice (performTransaction ⟨1050, 8, 0, 1499⟩) =
    "\n--- Receiver Engine (Unpacking) ---\nStore ID      : 1050\nRegister      : 8\n" ++
      "Is Refund     : False\nAmount        : $14.99\n" := by
  decide +kernel

/-- A store that is too large for its field becomes a register. -/
theorem store_bleeds : recovered (performTransaction ⟨4096, 0, 0, 0⟩) = ⟨0, 1, 0, 0⟩ ∧
    recovered (performTransaction ⟨4096, 0, 0, 0⟩) ≠ invoiceOf ⟨4096, 0, 0, 0⟩ := by
  decide

/-! ### Refunds -/

/-- What a refund should do to the fields. -/
def TouchesRefundOnly (pos pos' : POS) : Prop :=
  if (recovered pos).recoveredRefund = 0 then
    recovered pos' = { recovered pos with recoveredRefund := 1 }
  else pos' = pos

theorem requestRefund_of_ne (h : (recovered pos).recoveredRefund ≠ 0) :
    (requestRefund new pos).1 = pos := by
  have hrefunded : ¬ (pos.transaction >>> 16) &&& 0x1 = 0 := h
  rw [requestRefund, if_neg hrefunded]

theorem requestRefund_of_eq (h : (recovered pos).recoveredRefund = 0) :
    (requestRefund new pos).1 = ⟨new ||| ((1 : UInt32) <<< 16)⟩ := by
  have hrefunded : (pos.transaction >>> 16) &&& 0x1 = 0 := h
  rw [requestRefund, if_pos hrefunded]

/-- The word that a refund stores, bit by bit. -/
theorem testBit_refunded (new : UInt32) (j : ℕ) :
    (new ||| ((1 : UInt32) <<< 16)).toNat.testBit j = (new.toNat.testBit j || decide (16 = j)) := by
  have hone : ((1 : UInt32) <<< 16).toNat = 2 ^ 16 := by decide
  rw [UInt32.toNat_or, Nat.testBit_or, hone, Nat.testBit_two_pow]

/-- The refund bit, as a field and as a bit. -/
theorem recoveredRefund_eq_iff {v : UInt32} (hv : v.toNat % 2 ^ 1 = v.toNat) :
    (recovered pos).recoveredRefund = v ↔
      pos.transaction.toNat.testBit 16 = v.toNat.testBit 0 := by
  have hfield : (recovered pos).recoveredRefund.toNat = v.toNat % 2 ^ 1 ↔
      ∀ j < 1, pos.transaction.toNat.testBit (16 + j) = v.toNat.testBit j :=
    BitField.field_eq_mod_iff (i := 16) (k := 1) rfl (by decide) rfl
  rw [← UInt32.toNat_inj, ← hv, hfield, hv]
  refine ⟨fun hbits => hbits 0 (by decide), fun hbit j hj => ?_⟩
  obtain rfl : j = 0 := Nat.lt_one_iff.mp hj
  exact hbit

/-- **Refunds.** A refund changes the refund bit and nothing else exactly when the transaction is
a refund already, or the union that has not been set has the bits of the transaction by
chance. -/
theorem refund_iff (new : UInt32) (pos : POS) :
    TouchesRefundOnly pos (requestRefund new pos).1 ↔
      pos.transaction.toNat.testBit 16 ∨
        ∀ j < 32, j ≠ 16 → new.toNat.testBit j = pos.transaction.toNat.testBit j := by
  unfold TouchesRefundOnly
  have hbit : (recovered pos).recoveredRefund = 0 ↔ pos.transaction.toNat.testBit 16 = false :=
    recoveredRefund_eq_iff rfl
  by_cases hrefund : (recovered pos).recoveredRefund = 0
  · have hclear : ¬ pos.transaction.toNat.testBit 16 = true :=
      Bool.eq_false_iff.mp (hbit.mp hrefund)
    have hset : (recovered ⟨new ||| ((1 : UInt32) <<< 16)⟩).recoveredRefund = 1 := by
      rw [recoveredRefund_eq_iff rfl, testBit_refunded]
      simp
    rw [if_pos hrefund, requestRefund_of_eq hrefund, recovered_eq_iff, or_iff_right hclear,
      and_iff_left hset]
    refine forall_congr' fun j => forall_congr' fun hj => forall_congr' fun hne => ?_
    rw [testBit_refunded, decide_eq_false (Ne.symm hne), Bool.or_false]
  · have hset : pos.transaction.toNat.testBit 16 = true :=
      Bool.of_not_eq_false fun hclear => hrefund (hbit.mpr hclear)
    rw [if_neg hrefund, requestRefund_of_ne hrefund]
    exact iff_of_true rfl (Or.inl hset)

/-- With zeros in the union that has not been set, a refund loses the store. -/
theorem refund_loses_store :
    recovered (performTransaction ⟨1050, 8, 0, 1499⟩) = ⟨1050, 8, 0, 1499⟩ ∧
      recovered (requestRefund 0 (performTransaction ⟨1050, 8, 0, 1499⟩)).1 = ⟨0, 0, 1, 0⟩ ∧
      ¬ TouchesRefundOnly (performTransaction ⟨1050, 8, 0, 1499⟩)
        (requestRefund 0 (performTransaction ⟨1050, 8, 0, 1499⟩)).1 := by
  unfold TouchesRefundOnly
  decide

end BareMetal.Pos
