import BareMetal.Multithreading.Accounts.Basic
import Mathlib.Data.Nat.ModEq

/-!
# What the transfers conserve

No transfer asks whether its amount is there. Each balance follows the debits and
credits made so far modulo `2 ^ 16`, so the sum of the two balances is conserved
modulo `2 ^ 16` and nothing more can be said for all amounts.

The balances are followed as integers, in every interleaving, exactly when the
amounts fit: all that may leave an account was there at the start, and all that
may arrive has room on top of that.

## Main results

* `conserves_iff_fits` — conservation modulo `2 ^ 16`, and when it is exact
-/

namespace BareMetal.Accounts

open CS Transition

variable {n : ℕ} {balance : Account → UInt16} {transfers : Fin n → Transfer} {watched : Fin n}
  {world world' : World n} {e : Event n} {trace : Trace (World n) (Event n)}

/-! ### Debits and credits -/

/-- The amount has left its origin. -/
def Position.debited : Position → Bool
  | .lockA | .lockB | .debit => false
  | _ => true

/-- The amount has reached its destination. -/
def Position.credited : Position → Bool
  | .lockA | .lockB | .debit | .credit => false
  | _ => true

/-- What the transfer `t` has taken out of the account `a`. -/
def debitOf (transfers : Fin n → Transfer) (a : Account) (t : Fin n) (k : Position) : ℕ :=
  if k.debited ∧ (transfers t).origin = a then (transfers t).amount.toNat else 0

/-- What the transfer `t` has put into the account `a`. -/
def creditOf (transfers : Fin n → Transfer) (a : Account) (t : Fin n) (k : Position) : ℕ :=
  if k.credited ∧ (transfers t).destination = a then (transfers t).amount.toNat else 0

/-- Every balance is what the debits and credits so far make of it, modulo `2 ^ 16`. -/
def Booked (balance : Account → UInt16) (transfers : Fin n → Transfer) (world : World n) : Prop :=
  ∀ a, (world.balance a).toNat + tally (debitOf transfers a) world.tellers ≡
    (balance a).toNat + tally (creditOf transfers a) world.tellers [MOD 2 ^ 16]

@[simp] theorem Transfer.debited_afterCredit (trans : Transfer) :
    trans.afterCredit.debited = true := by
  unfold Transfer.afterCredit
  cases trans.callback <;> rfl

@[simp] theorem Transfer.credited_afterCredit (trans : Transfer) :
    trans.afterCredit.credited = true := by
  unfold Transfer.afterCredit
  cases trans.callback <;> rfl

@[simp] theorem Transfer.debited_afterUnlock (trans : Transfer) :
    trans.afterUnlock.debited = true := by
  unfold Transfer.afterUnlock
  cases trans.callback <;> rfl

@[simp] theorem Transfer.credited_afterUnlock (trans : Transfer) :
    trans.afterUnlock.credited = true := by
  unfold Transfer.afterUnlock
  cases trans.callback <;> rfl

section

variable {k k' : Position} {a : Account} {t : Fin n}

theorem debitOf_congr (h : k'.debited = k.debited) (a : Account) (t : Fin n) :
    debitOf transfers a t k' = debitOf transfers a t k := by
  simp only [debitOf, h]

theorem creditOf_congr (h : k'.credited = k.credited) (a : Account) (t : Fin n) :
    creditOf transfers a t k' = creditOf transfers a t k := by
  simp only [creditOf, h]

/-- A debit that is not made yet, or is not from `a`. -/
theorem debitOf_eq_zero (h : k.debited = false ∨ (transfers t).origin ≠ a) :
    debitOf transfers a t k = 0 := by
  refine if_neg ?_
  rintro ⟨hk, ha⟩
  rcases h with h | h
  · cases hk.symm.trans h
  · exact h ha

theorem debitOf_origin (h : k.debited = true) :
    debitOf transfers (transfers t).origin t k = (transfers t).amount.toNat := if_pos ⟨h, rfl⟩

/-- A credit that is not made yet, or is not to `a`. -/
theorem creditOf_eq_zero (h : k.credited = false ∨ (transfers t).destination ≠ a) :
    creditOf transfers a t k = 0 := by
  refine if_neg ?_
  rintro ⟨hk, ha⟩
  rcases h with h | h
  · cases hk.symm.trans h
  · exact h ha

theorem creditOf_destination (h : k.credited = true) :
    creditOf transfers (transfers t).destination t k = (transfers t).amount.toNat :=
  if_pos ⟨h, rfl⟩

end

/-- A thread that neither debits nor credits keeps the books. -/
theorem Booked.move (h : Booked balance transfers world) {t : Fin n} {k : Position}
    (ht : world.tellers t = k) (k' : Position) (hdebited : k'.debited = k.debited)
    (hcredited : k'.credited = k.credited) (hbalance : world'.balance = world.balance)
    (htellers : world'.tellers = Function.update world.tellers t k') :
    Booked balance transfers world' := by
  intro a
  rw [hbalance, htellers, tally_move_eq ht (debitOf_congr hdebited a t),
    tally_move_eq ht (creditOf_congr hcredited a t)]
  exact h a

/-- A subtraction may wrap, but taking the amount back gives the old balance. -/
theorem toNat_sub_add (x amount : UInt16) :
    ((x - amount).toNat + amount.toNat) % 2 ^ 16 = x.toNat := by
  rw [← UInt16.toNat_add, UInt16.sub_add_cancel]

theorem Booked.debit (h : Booked balance transfers world) {t : Fin n}
    (ht : world.tellers t = .debit)
    (hbalance : world'.balance = Function.update world.balance (transfers t).origin
      (world.balance (transfers t).origin - (transfers t).amount))
    (htellers : world'.tellers = Function.update world.tellers t .credit) :
    Booked balance transfers world' := by
  intro a
  have hbook := h a
  have hdebit := tally_move (debitOf transfers a) ht .credit
  have hcredit : tally (creditOf transfers a) (Function.update world.tellers t .credit) =
      tally (creditOf transfers a) world.tellers :=
    tally_move_eq ht (creditOf_congr rfl a t)
  rw [debitOf_eq_zero (Or.inl rfl)] at hdebit
  rw [hbalance, htellers, hcredit]
  unfold Nat.ModEq at hbook ⊢
  by_cases ha : (transfers t).origin = a
  · subst ha
    -- the account pays, and its balance may wrap
    have hback := toNat_sub_add (world.balance (transfers t).origin) (transfers t).amount
    rw [debitOf_origin rfl] at hdebit
    rw [Function.update_self]
    omega
  · rw [debitOf_eq_zero (Or.inr ha)] at hdebit
    rw [Function.update_of_ne (Ne.symm ha)]
    omega

theorem Booked.credit (h : Booked balance transfers world) {t : Fin n}
    (ht : world.tellers t = .credit)
    (hbalance : world'.balance = Function.update world.balance (transfers t).destination
      (world.balance (transfers t).destination + (transfers t).amount))
    (htellers : world'.tellers = Function.update world.tellers t (transfers t).afterCredit) :
    Booked balance transfers world' := by
  intro a
  have hbook := h a
  have hcredit := tally_move (creditOf transfers a) ht (transfers t).afterCredit
  have hdebit : tally (debitOf transfers a)
      (Function.update world.tellers t (transfers t).afterCredit) =
      tally (debitOf transfers a) world.tellers :=
    tally_move_eq ht (debitOf_congr (transfers t).debited_afterCredit a t)
  rw [creditOf_eq_zero (Or.inl rfl)] at hcredit
  rw [hbalance, htellers, hdebit]
  unfold Nat.ModEq at hbook ⊢
  by_cases ha : (transfers t).destination = a
  · subst ha
    have hadd := UInt16.toNat_add (world.balance (transfers t).destination) (transfers t).amount
    rw [creditOf_destination (transfers t).credited_afterCredit] at hcredit
    rw [Function.update_self]
    omega
  · rw [creditOf_eq_zero (Or.inr ha)] at hcredit
    rw [Function.update_of_ne (Ne.symm ha)]
    omega

theorem Booked.step (h : Booked balance transfers world)
    (hstep : Step transfers watched world e world') : Booked balance transfers world' := by
  cases hstep with
  | lockA ht => exact h.move ht .lockB rfl rfl rfl rfl
  | lockB ht => exact h.move ht .debit rfl rfl rfl rfl
  | debit ht => exact h.debit ht rfl rfl
  | credit ht => exact h.credit ht rfl rfl
  | mark ht => exact h.move ht .unlockB rfl rfl rfl rfl
  | unlockB ht => exact h.move ht .unlockA rfl rfl rfl rfl
  | unlockA ht =>
    exact h.move ht _ (Transfer.debited_afterUnlock _) (Transfer.credited_afterUnlock _) rfl rfl
  | signal ht => exact h.move ht .finished rfl rfl rfl rfl
  -- `check_balance` changes no balance
  | checkLock | checkWait | checkProceed | checkOrigin | checkDestination | checkUnlock
  | spurious => exact h

theorem booked (hrun : Run (system balance transfers watched) trace world) :
    Booked balance transfers world := by
  refine Run.invariant (I := fun _ => Booked balance transfers) ?_ (fun _ _ _ _ h hstep => ?_) hrun
  · rintro _ rfl a
    rw [tally_eq_zero fun t => by simp [start, debitOf, Position.debited],
      tally_eq_zero fun t => by simp [start, creditOf, Position.credited]]
    rfl
  · exact h.step hstep

/-! ### The sum of the balances -/

/-- No transfer is between its debit and its credit. -/
def Settled (world : World n) : Prop := ∀ t, world.tellers t ≠ .credit

/-- The sum of the two balances as integers. -/
def total (balance : Account → UInt16) : ℕ := (balance .acc1).toNat + (balance .acc2).toNat

theorem Settled.debited_eq_credited (h : Settled world) (t : Fin n) :
    (world.tellers t).debited = (world.tellers t).credited := by
  have ht := h t
  cases hk : world.tellers t with
  | credit => exact absurd hk ht
  | _ => rfl

/-- In a settled state all that left the accounts has arrived. -/
theorem Settled.debits_eq_credits (h : Settled world) (transfers : Fin n → Transfer) :
    tally (debitOf transfers .acc1) world.tellers + tally (debitOf transfers .acc2) world.tellers =
      tally (creditOf transfers .acc1) world.tellers +
        tally (creditOf transfers .acc2) world.tellers := by
  rw [← tally_add, ← tally_add]
  refine tally_congr fun t => ?_
  unfold debitOf creditOf Transfer.origin Transfer.destination
  rw [h.debited_eq_credited t]
  cases (transfers t).callback with
  | transferAToB => simp
  | transferBToA => simp

theorem total_modEq (hrun : Run (system balance transfers watched) trace world)
    (hsettled : Settled world) : total world.balance ≡ total balance [MOD 2 ^ 16] := by
  have h1 := booked hrun .acc1
  have h2 := booked hrun .acc2
  have hsum := hsettled.debits_eq_credits transfers
  unfold Nat.ModEq at h1 h2 ⊢
  unfold total
  omega

/-! ### Amounts that fit -/

/-- All that the transfers take out of the account `a`. -/
def leaving (transfers : Fin n → Transfer) (a : Account) : ℕ :=
  ∑ t with (transfers t).origin = a, (transfers t).amount.toNat

/-- All that the transfers put into the account `a`. -/
def arriving (transfers : Fin n → Transfer) (a : Account) : ℕ :=
  ∑ t with (transfers t).destination = a, (transfers t).amount.toNat

/-- Every account can pay all its debits before a credit arrives, and take all its
credits before a debit leaves. -/
def Fits (balance : Account → UInt16) (transfers : Fin n → Transfer) : Prop :=
  ∀ a, leaving transfers a ≤ (balance a).toNat ∧ (balance a).toNat + arriving transfers a < 2 ^ 16

/-- Money is conserved in every interleaving: in a settled state the balances add up
to what they did at the start, and no debit exceeds the balance it is taken from. -/
def Conserves (balance : Account → UInt16) (transfers : Fin n → Transfer) (watched : Fin n) :
    Prop :=
  ∀ trace world, Run (system balance transfers watched) trace world →
    (Settled world → total world.balance = total balance) ∧
      ∀ t world', Step transfers watched world (.debit t) world' →
        (transfers t).amount ≤ world.balance (transfers t).origin

theorem debits_le (transfers : Fin n → Transfer) (a : Account) (tellers : Fin n → Position) :
    tally (debitOf transfers a) tellers ≤ leaving transfers a :=
  tally_le_sum (fun t => (transfers t).amount.toNat) tellers

theorem credits_le (transfers : Fin n → Transfer) (a : Account) (tellers : Fin n → Position) :
    tally (creditOf transfers a) tellers ≤ arriving transfers a :=
  tally_le_sum (fun t => (transfers t).amount.toNat) tellers

/-- Where the amounts fit, the books hold for the integers. -/
theorem Fits.exact (hfits : Fits balance transfers) (h : Booked balance transfers world)
    (a : Account) :
    (world.balance a).toNat + tally (debitOf transfers a) world.tellers =
      (balance a).toNat + tally (creditOf transfers a) world.tellers := by
  have hbook := h a
  have hdebits := debits_le transfers a world.tellers
  have hcredits := credits_le transfers a world.tellers
  obtain ⟨hleaving, harriving⟩ := hfits a
  have hlt := (world.balance a).toNat_lt
  unfold Nat.ModEq at hbook
  omega

theorem Fits.conserves (hfits : Fits balance transfers) : Conserves balance transfers watched := by
  intro trace world hrun
  have hbook := booked hrun
  constructor
  · intro hsettled
    have h1 := hfits.exact hbook .acc1
    have h2 := hfits.exact hbook .acc2
    have hsum := hsettled.debits_eq_credits transfers
    unfold total
    omega
  · intro t world' hstep
    cases hstep with
    | debit ht =>
      -- the debit is one of those that fit
      have hexact := hfits.exact hbook (transfers t).origin
      have hmove := tally_move (debitOf transfers (transfers t).origin) ht .credit
      have hle := debits_le transfers (transfers t).origin
        (Function.update world.tellers t .credit)
      obtain ⟨hleaving, -⟩ := hfits (transfers t).origin
      rw [debitOf_eq_zero (Or.inl rfl), debitOf_origin rfl] at hmove
      rw [UInt16.le_iff_toNat_le]
      omega

/-! ### Amounts that do not fit -/

/-- The account at the other end of a transfer. -/
def Account.other : Account → Account
  | .acc1 => .acc2
  | .acc2 => .acc1

theorem Account.other_other (a : Account) : a.other.other = a := by
  cases a <;> rfl

theorem Transfer.origin_ne_destination (trans : Transfer) : trans.origin ≠ trans.destination := by
  unfold Transfer.destination Transfer.origin
  cases trans.callback <;> decide

theorem Transfer.destination_eq_other_iff (trans : Transfer) (a : Account) :
    trans.destination = a.other ↔ trans.origin = a := by
  unfold Transfer.destination Transfer.origin
  cases trans.callback <;> cases a <;> decide

theorem total_eq (balance : Account → UInt16) (a : Account) :
    total balance = (balance a).toNat + (balance a.other).toNat := by
  cases a with
  | acc1 => rfl
  | acc2 => exact Nat.add_comm _ _

theorem arriving_other (transfers : Fin n → Transfer) (a : Account) :
    arriving transfers a.other = leaving transfers a := by
  unfold arriving leaving
  simp only [Transfer.destination_eq_other_iff]

theorem afterUnlock_ne_credit (trans : Transfer) : trans.afterUnlock ≠ .credit := by
  intro h
  have hcredited := trans.credited_afterUnlock
  rw [h] at hcredited
  cases hcredited

/-- The end of a transfer: both locks are given up. -/
theorem exists_unlocked (hrun : Run (system balance transfers watched) trace world) {t : Fin n}
    (ht : world.tellers t = .unlockB) :
    ∃ trace' world', Run (system balance transfers watched) trace' world' ∧
      world'.lockA = false ∧ world'.lockB = false ∧ world'.balance = world.balance ∧
      world'.tellers = Function.update world.tellers t (transfers t).afterUnlock := by
  have hunlockB := hrun.step (Step.unlockB ht)
  have hunlockA := hunlockB.step (Step.unlockA (Function.update_self t _ _))
  exact ⟨_, _, hunlockA, rfl, rfl, rfl, Function.update_idem ..⟩

/-- While nobody holds a lock, a transfer can run from its start to its last unlock. If
money is conserved, its amount was there. -/
theorem Conserves.transfer (h : Conserves balance transfers watched)
    (hrun : Run (system balance transfers watched) trace world) (hA : world.lockA = false)
    (hB : world.lockB = false) {t : Fin n} (ht : world.tellers t = .lockA) :
    ∃ trace' world', Run (system balance transfers watched) trace' world' ∧
      world'.lockA = false ∧ world'.lockB = false ∧
      world'.tellers = Function.update world.tellers t (transfers t).afterUnlock ∧
      (world'.balance (transfers t).origin).toNat + (transfers t).amount.toNat =
        (world.balance (transfers t).origin).toNat := by
  have hlockA := hrun.step (Step.lockA ht hA)
  have hlockB := hlockA.step (Step.lockB (Function.update_self t _ _) hB)
  have hamount := (h _ _ hlockB).2 t _ (Step.debit (Function.update_self t _ _))
  have hdebit := hlockB.step (Step.debit (Function.update_self t _ _))
  have hcredit := hdebit.step (Step.credit (Function.update_self t _ _))
  have hleft : (world.balance (transfers t).origin - (transfers t).amount).toNat +
      (transfers t).amount.toNat = (world.balance (transfers t).origin).toNat := by
    rw [UInt16.toNat_sub_of_le _ _ hamount, Nat.sub_add_cancel (UInt16.le_iff_toNat_le.mp hamount)]
  have hne := (transfers t).origin_ne_destination
  cases hcallback : (transfers t).callback with
  | transferAToB =>
    have hafter : (transfers t).afterCredit = .unlockB := by rw [Transfer.afterCredit, hcallback]
    obtain ⟨trace', world', hunlocked, hA', hB', hbalance, htellers⟩ :=
      exists_unlocked hcredit ((Function.update_self t _ _).trans hafter)
    refine ⟨trace', world', hunlocked, hA', hB', ?_, ?_⟩
    · simp only [htellers, Function.update_idem]
    · simpa [hbalance, Function.update_of_ne hne] using hleft
  | transferBToA =>
    have hafter : (transfers t).afterCredit = .mark := by rw [Transfer.afterCredit, hcallback]
    have hmark := hcredit.step (Step.mark ((Function.update_self t _ _).trans hafter))
    obtain ⟨trace', world', hunlocked, hA', hB', hbalance, htellers⟩ :=
      exists_unlocked hmark (Function.update_self t _ _)
    refine ⟨trace', world', hunlocked, hA', hB', ?_, ?_⟩
    · simp only [htellers, Function.update_idem]
    · simpa [hbalance, Function.update_of_ne hne] using hleft

/-- If money is conserved, all transfers out of an account can run one after the other. -/
theorem Conserves.transferAll (h : Conserves balance transfers watched) (a : Account)
    (S : Finset (Fin n)) (hS : ∀ t ∈ S, (transfers t).origin = a) :
    ∃ trace world, Run (system balance transfers watched) trace world ∧
      world.lockA = false ∧ world.lockB = false ∧ Settled world ∧
      (∀ t, t ∉ S → world.tellers t = .lockA) ∧
      (world.balance a).toNat + ∑ t ∈ S, (transfers t).amount.toNat = (balance a).toNat := by
  induction S using Finset.induction_on with
  | empty => exact ⟨[], start n balance, .start rfl, rfl, rfl, fun _ => nofun, fun _ _ => rfl, rfl⟩
  | insert t S htS ih =>
    obtain ⟨trace, world, hrun, hA, hB, hsettled, hwaiting, hsum⟩ :=
      ih fun u hu => hS u (Finset.mem_insert_of_mem hu)
    obtain ⟨trace', world', hrun', hA', hB', htellers, hleft⟩ :=
      h.transfer hrun hA hB (hwaiting t htS)
    refine ⟨trace', world', hrun', hA', hB', ?_, ?_, ?_⟩
    · intro u
      rw [htellers]
      exact forall_move (P := fun _ k => k ≠ Position.credit) hsettled t (afterUnlock_ne_credit _) u
    · intro u hu
      have hne : u ≠ t := fun heq => hu (heq ▸ Finset.mem_insert_self t S)
      rw [htellers, Function.update_of_ne hne]
      exact hwaiting u fun hmem => hu (Finset.mem_insert_of_mem hmem)
    · obtain rfl := hS t (Finset.mem_insert_self t S)
      rw [Finset.sum_insert htS]
      omega

theorem Conserves.fits (h : Conserves balance transfers watched) : Fits balance transfers := by
  have hleaving : ∀ a, leaving transfers a ≤ (balance a).toNat ∧
      (balance a.other).toNat + leaving transfers a < 2 ^ 16 := by
    intro a
    obtain ⟨trace, world, hrun, -, -, hsettled, -, hsum⟩ :=
      h.transferAll a {t | (transfers t).origin = a} fun t ht => (Finset.mem_filter.mp ht).2
    -- all of it has arrived at the other account, whose balance has 16 bits
    have htotal := (h _ _ hrun).1 hsettled
    have hlt := (world.balance a.other).toNat_lt
    rw [total_eq _ a, total_eq _ a] at htotal
    unfold leaving
    omega
  intro a
  have harriving := (hleaving a.other).2
  rw [← arriving_other transfers a.other, Account.other_other] at harriving
  exact ⟨(hleaving a).1, harriving⟩

/-- **What the transfers conserve.** In every interleaving of any number of transfers,
whenever none is between its debit and its credit, the sum of the balances is what
it was at the start modulo `2 ^ 16`. As an integer it is conserved, with no debit
below zero, in every interleaving if and only if the amounts fit. -/
theorem conserves_iff_fits (balance : Account → UInt16) (transfers : Fin n → Transfer)
    (watched : Fin n) :
    (∀ trace world, Run (system balance transfers watched) trace world → Settled world →
        total world.balance ≡ total balance [MOD 2 ^ 16]) ∧
      (Conserves balance transfers watched ↔ Fits balance transfers) :=
  ⟨fun _ _ => total_modEq, Conserves.fits, Fits.conserves⟩

/-- The accounts of `main` with 500 and 400, and a first transfer of 600. -/
theorem not_conserves_main :
    ¬ ∀ (n : ℕ) (balance : Account → UInt16) (transfers : Fin n → Transfer) (watched : Fin n),
      Conserves balance transfers watched := by
  intro h
  let balance : Account → UInt16 := fun a => if a = .acc1 then 500 else 400
  have hrun : Run (system balance (mainTransfers 600 300) 1) [] (start 2 balance) := .start rfl
  have hlockA := hrun.step (@Step.lockA _ _ _ _ 0 rfl rfl)
  have hlockB := hlockA.step (@Step.lockB _ _ _ _ 0 rfl rfl)
  have hamount := (h 2 balance (mainTransfers 600 300) 1 _ _ hlockB).2 0 _ (Step.debit rfl)
  exact absurd hamount (by decide)

end BareMetal.Accounts
