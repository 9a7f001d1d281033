import BareMetal.Multithreading.Banking.Refinement
import Mathlib.Algebra.BigOperators.Group.List.Basic

/-!
# Deposits

A balance is an `int` and a deposit adds an unsigned amount to it, with no look at the sum. A
customer whom nobody knows leads `deposit` to a message that takes the name of the customer
from the account that it has not found.

## Main results

* `balanced` — a balance is what was deposited, modulo `2 ^ 32`
* `deposits_add_up_iff` — it is what was deposited exactly while no deposit brings an account
  above the range of an `int`
* `deposit_unknown` — a deposit to an unknown customer reads through a null pointer
-/

namespace BareMetal.Banking

open CS Transition LinkedList

/-- The balance with which a call opens the account `a`. -/
def Call.opening (a : ℕ) : Call → ℤ
  | .openAccount account _ _ isPremium => if account = a then if isPremium then 100 else 0 else 0
  | _ => 0

/-- The amount that a call deposits on the account `a`. -/
def Ledger.amount (ledger : Ledger) (a : ℕ) : Call → ℤ
  | .deposit branchId customerName amt =>
    if (ledger.findBranch branchId).bind (ledger.findAccount customerName) = some a then amt.toNat
    else 0
  | _ => 0

/-- The balance with which the account `a` was opened. -/
def opening (a : ℕ) (calls : List Call) : ℤ := (calls.map (Call.opening a)).sum

/-- All amounts that were deposited on the account `a`. -/
def deposited (a : ℕ) (calls : List Call) : ℤ :=
  (calls.foldl (fun (s : Ledger × ℤ) call => (s.1.apply call, s.2 + s.1.amount a call))
    (⟨[], fun _ => []⟩, 0)).2

/-- Every account of a branch has the balance with which it was opened and the amounts that
were deposited on it. -/
def AddsUp (calls : List Call) (bank : Bank) : Prop :=
  ∀ b a account next, a ∈ addresses ((ledger calls).accounts b) →
    bank.accountHeap a = some ⟨account, next⟩ →
    account.balance.toInt = opening a calls + deposited a calls

/-- A deposit leaves the account that it finds in the range of an `int`. -/
def Room (bank : Bank) : Call → Prop
  | .deposit branchId customerName amt => ∀ fuel a account next,
    findCustomer bank branchId customerName fuel = .ok (some a) →
    bank.accountHeap a = some ⟨account, next⟩ → account.balance.toInt + amt.toNat ≤ intMax
  | _ => True

/-- A deposit lowers no balance. -/
def NeverLowers (bank : Bank) : Call → Prop
  | .deposit branchId customerName amt => ∀ bank' a account account' next next',
    Step bank (.deposit branchId customerName amt) bank' →
    bank.accountHeap a = some ⟨account, next⟩ → bank'.accountHeap a = some ⟨account', next'⟩ →
    account.balance.toInt ≤ account'.balance.toInt
  | _ => True

/-- A deposit writes its message and ends the process. -/
def FailsCleanly (bank : Bank) (branchId customerName : CString) (amt : UInt32) : Prop :=
  ∃ bound, ∀ fuel, bound ≤ fuel →
    ∃ message, deposit bank branchId customerName amt fuel = .error (.exit 1 message)

variable {bank bank' : Bank} {ends : ℕ → Ends} {calls : List Call} {e : Call} {a b : ℕ}
  {branchId customerName : CString} {account : Account} {amt : UInt32}

/-! ### Sums -/

theorem ledger_concat (calls : List Call) (e : Call) :
    Banking.ledger (calls ++ [e]) = (Banking.ledger calls).apply e :=
  List.foldl_concat ..

theorem opening_concat (a : ℕ) (calls : List Call) (e : Call) :
    opening a (calls ++ [e]) = opening a calls + e.opening a := by
  simp [opening]

theorem deposited_concat (a : ℕ) (calls : List Call) (e : Call) :
    deposited a (calls ++ [e]) = deposited a calls + (Banking.ledger calls).amount a e := by
  -- the pair that is folded keeps the ledger
  have hledger : ∀ calls : List Call,
      (calls.foldl (fun (s : Ledger × ℤ) call => (s.1.apply call, s.2 + s.1.amount a call))
        (⟨[], fun _ => []⟩, 0)).1 = Banking.ledger calls := by
    intro calls
    induction calls using List.reverseRecOn with
    | nil => rfl
    | append_singleton calls e ih => rw [List.foldl_concat, ledger_concat, ih]
  rw [deposited, List.foldl_concat, hledger]
  rfl

theorem Call.opening_nonneg (a : ℕ) (e : Call) : 0 ≤ e.opening a := by
  unfold Call.opening
  split
  · split_ifs <;> decide
  · exact Int.le_refl 0

theorem Ledger.amount_nonneg (ledger : Ledger) (a : ℕ) (e : Call) : 0 ≤ ledger.amount a e := by
  unfold Ledger.amount
  split
  · split_ifs
    · exact Int.natCast_nonneg _
    · exact Int.le_refl 0
  · exact Int.le_refl 0

theorem total_nonneg (a : ℕ) (calls : List Call) : 0 ≤ opening a calls + deposited a calls := by
  induction calls using List.reverseRecOn with
  | nil => exact Int.le_refl 0
  | append_singleton calls e ih =>
    have hopening := e.opening_nonneg a
    have hamount := (Banking.ledger calls).amount_nonneg a e
    rw [opening_concat, deposited_concat]
    omega

/-- `account->balance += amt` adds modulo `2 ^ 32`. -/
theorem toInt_credit (account : Account) (amt : UInt32) :
    (account.credit amt).balance.toInt = (account.balance.toInt + amt.toNat).bmod (2 ^ 32) := by
  have hamt : amt.toInt32.toInt = (amt.toNat : ℤ).bmod (2 ^ 32) := BitVec.toInt_eq_toNat_bmod _
  rw [Account.credit, Int32.toInt_add, hamt, Int.add_bmod_bmod]

/-- A sum that is an `int` is what is stored. -/
theorem toInt_credit_of_le (account : Account) (h : account.balance.toInt + amt.toNat ≤ intMax) :
    (account.credit amt).balance.toInt = account.balance.toInt + amt.toNat := by
  have hmin := account.balance.le_toInt
  rw [intMax] at h
  rw [toInt_credit]
  exact Int.bmod_eq_of_le (by omega) (by omega)

/-! ### What a balance is -/

/-- Balances are sums modulo `2 ^ 32`. -/
structure Balanced (calls : List Call) : Prop where
  listed : ∀ b a account, (a, account) ∈ (ledger calls).accounts b →
    account.balance.toInt = (opening a calls + deposited a calls).bmod (2 ^ 32)
  unlisted : ∀ a, (∀ b, a ∉ addresses ((ledger calls).accounts b)) →
    opening a calls + deposited a calls = 0

theorem balanced_nil : Balanced [] :=
  ⟨fun _ _ _ hmem => absurd hmem List.not_mem_nil, fun _ _ => rfl⟩

/-- The address of an account is allocated. -/
theorem Represents.ne_none (h : Represents bank ends (Banking.ledger calls))
    (ha : a ∈ addresses ((Banking.ledger calls).accounts b)) : bank.accountHeap a ≠ none := by
  obtain ⟨⟨a', account⟩, hmem, rfl⟩ := List.mem_map.mp ha
  obtain ⟨next, hcell⟩ := (h.accounts.holds b).chain.exists_next hmem
  rw [hcell]
  exact Option.some_ne_none _

/-- What a call adds to an account, besides what was there. -/
theorem total_concat (a : ℕ) (calls : List Call) (e : Call) :
    opening a (calls ++ [e]) + deposited a (calls ++ [e]) =
      opening a calls + deposited a calls + (e.opening a + (Banking.ledger calls).amount a e) := by
  rw [opening_concat, deposited_concat]
  omega

theorem Balanced.addBranch (h : Balanced calls) (newBranch : ℕ) (branchName : CString) :
    Balanced (calls ++ [.addBranch newBranch branchName]) := by
  have htotal : ∀ a, opening a (calls ++ [.addBranch newBranch branchName]) +
      deposited a (calls ++ [.addBranch newBranch branchName]) =
        opening a calls + deposited a calls := by
    intro a
    rw [total_concat]
    exact Int.add_zero _
  refine ⟨fun b a account hmem => ?_, fun a hnone => ?_⟩
  · rw [ledger_concat] at hmem
    rw [htotal]
    exact h.listed b a account hmem
  · rw [ledger_concat] at hnone
    rw [htotal]
    exact h.unlisted a hnone

/-- A new account has the balance with which it is opened. -/
theorem Balanced.openAccount (h : Balanced calls)
    (hrepresents : Represents bank ends (Banking.ledger calls)) (hfree : bank.accountHeap a = none)
    (hb : (Banking.ledger calls).findBranch branchId = some b) (customerName : CString)
    (isPremium : Bool) : Balanced (calls ++ [.openAccount a branchId customerName isPremium]) := by
  have htotal : ∀ a', opening a' (calls ++ [.openAccount a branchId customerName isPremium]) +
      deposited a' (calls ++ [.openAccount a branchId customerName isPremium]) =
        opening a' calls + deposited a' calls +
          if a = a' then if isPremium then 100 else 0 else 0 := by
    intro a'
    rw [total_concat]
    exact congrArg _ (Int.add_zero _)
  have hnew : ∀ b, a ∉ addresses ((Banking.ledger calls).accounts b) := fun b hmem =>
    hrepresents.ne_none hmem hfree
  have haccounts :
      (Banking.ledger (calls ++ [.openAccount a branchId customerName isPremium])).accounts =
        Function.update (Banking.ledger calls).accounts b ((Banking.ledger calls).accounts b ++
          [(a, newAccount customerName isPremium
            (UInt32.ofNat (((Banking.ledger calls).accounts b).length + 1)))]) := by
    rw [ledger_concat, Ledger.apply, hb]
    rfl
  refine ⟨fun b' a' account hmem => ?_, fun a' hnone => ?_⟩
  · -- an account that was there has another address
    have hold : (a', account) ∈ (Banking.ledger calls).accounts b' →
        account.balance.toInt =
          (opening a' calls + deposited a' calls + if a = a' then if isPremium then 100 else 0
            else 0).bmod (2 ^ 32) := by
      intro hmem
      have hne : a ≠ a' := by
        rintro rfl
        exact hnew b' (List.mem_map_of_mem hmem)
      rw [if_neg hne, Int.add_zero]
      exact h.listed b' a' account hmem
    rw [htotal]
    rw [haccounts] at hmem
    rcases eq_or_ne b' b with rfl | hne
    · rw [Function.update_self] at hmem
      rcases List.mem_append.mp hmem with hmem | hlast
      · exact hold hmem
      · cases List.mem_singleton.mp hlast
        rw [h.unlisted a hnew, if_pos rfl, Banking.newAccount]
        cases isPremium <;> rfl
    · rw [Function.update_of_ne hne] at hmem
      exact hold hmem
  · rw [haccounts] at hnone
    have hne : a ≠ a' := by
      rintro rfl
      refine hnone b ?_
      rw [Function.update_self, addresses_concat]
      exact List.mem_append_right _ (List.mem_singleton_self _)
    rw [htotal, if_neg hne, Int.add_zero]
    refine h.unlisted a' fun b' hmem => hnone b' ?_
    rcases eq_or_ne b' b with rfl | hother
    · rw [Function.update_self, addresses_concat]
      exact List.mem_append_left _ hmem
    · rwa [Function.update_of_ne hother]

theorem Ledger.amount_deposit {ledger : Ledger} (hb : ledger.findBranch branchId = some b)
    (ha : ledger.findAccount customerName b = some a) (amt : UInt32) (a' : ℕ) :
    ledger.amount a' (.deposit branchId customerName amt) =
      if a = a' then (amt.toNat : ℤ) else 0 := by
  rw [Ledger.amount, hb, Option.bind_some, ha]
  simp only [Option.some.injEq]

/-- A deposit moves no account. -/
theorem Ledger.addresses_apply_deposit {ledger : Ledger} (branchId customerName : CString)
    (amt : UInt32) (b : ℕ) :
    addresses ((ledger.apply (.deposit branchId customerName amt)).accounts b) =
      addresses (ledger.accounts b) := by
  rw [Ledger.apply]
  split
  · rfl
  · rw [Ledger.deposit, addresses, addresses, List.map_map]
    refine List.map_congr_left fun node _ => ?_
    dsimp only [Function.comp_apply]
    split_ifs with hcase
    · exact hcase.symm
    · rfl

/-- A deposit adds to one account. -/
theorem Balanced.deposit (h : Balanced calls)
    (hb : (Banking.ledger calls).findBranch branchId = some b)
    (ha : (Banking.ledger calls).findAccount customerName b = some a) (amt : UInt32) :
    Balanced (calls ++ [.deposit branchId customerName amt]) := by
  have htotal : ∀ a', opening a' (calls ++ [.deposit branchId customerName amt]) +
      deposited a' (calls ++ [.deposit branchId customerName amt]) =
        opening a' calls + deposited a' calls + if a = a' then (amt.toNat : ℤ) else 0 := by
    intro a'
    rw [total_concat, Ledger.amount_deposit hb ha]
    exact congrArg _ (Int.zero_add _)
  have haccounts : (Banking.ledger (calls ++ [.deposit branchId customerName amt])).accounts =
      fun b => ((Banking.ledger calls).accounts b).map fun node =>
        if node.1 = a then (a, node.2.credit amt) else node := by
    rw [ledger_concat, Ledger.apply, hb, Option.bind_some, ha]
    rfl
  refine ⟨fun b' a' account hmem => ?_, fun a' hnone => ?_⟩
  · rw [haccounts] at hmem
    obtain ⟨⟨a₀, account₀⟩, hmem₀, heq⟩ := List.mem_map.mp hmem
    have hlisted := h.listed b' a₀ account₀ hmem₀
    rw [htotal]
    dsimp only at heq
    split_ifs at heq with hcase
    · -- a sum modulo `2 ^ 32`, and one more amount
      cases heq
      rw [if_pos rfl, toInt_credit, hlisted, hcase, Int.bmod_add_bmod]
    · cases heq
      rw [if_neg (Ne.symm hcase), Int.add_zero, hlisted]
  · have hnone' : ∀ b', a' ∉ addresses ((Banking.ledger calls).accounts b') := by
      intro b'
      rw [← Ledger.addresses_apply_deposit branchId customerName amt b', ← ledger_concat]
      exact hnone b'
    have hne : a ≠ a' := by
      rintro rfl
      obtain ⟨account, -, hmem⟩ := find_eq_some ha
      exact hnone' b (List.mem_map_of_mem hmem)
    rw [htotal, if_neg hne, Int.add_zero]
    exact h.unlisted a' hnone'

/-- In every run the balances are sums modulo `2 ^ 32`. -/
theorem balanced {trace : Trace Bank Call} (hrun : Run system trace bank) :
    Balanced (events trace) := by
  have h := hrun.invariant (I := fun calls bank =>
    (∃ ends, Represents bank ends (Banking.ledger calls)) ∧ Balanced calls) ?_ ?_
  · exact h.2
  · rintro s rfl
    exact ⟨⟨_, represents_initBank⟩, balanced_nil⟩
  · rintro calls s e s' ⟨⟨ends, hrepresents⟩, h⟩ hstep
    rw [ledger_concat]
    refine ⟨hrepresents.step hstep, ?_⟩
    cases hstep with
    | addBranch => exact h.addBranch _ _
    | @openAccount account fuel branchId customerName isPremium _ hfree hcall =>
      obtain ⟨found, hfound, hcall⟩ := Outcome.bind_eq_ok.mp hcall
      have hfind := hrepresents.find_eq_of_ok hfound
      cases found with
      | none => cases hcall
      | some b => exact h.openAccount hrepresents hfree hfind.symm customerName isPremium
    | @deposit fuel branchId customerName amt _ hcall =>
      obtain ⟨b, a, -, -, hb, ha, -, -⟩ := hrepresents.deposit_of_ok hcall
      exact h.deposit hb ha amt

/-! ### Balances in range -/

/-- The account at an address that is listed is the one in the list. -/
theorem Represents.mem_accounts (h : Represents bank ends (Banking.ledger calls)) {next : Option ℕ}
    (ha : a ∈ addresses ((Banking.ledger calls).accounts b))
    (hcell : bank.accountHeap a = some ⟨account, next⟩) :
    (a, account) ∈ (Banking.ledger calls).accounts b := by
  obtain ⟨⟨a', account'⟩, hmem, rfl⟩ := List.mem_map.mp ha
  obtain ⟨next', hcell'⟩ := (h.accounts.holds b).chain.exists_next hmem
  cases hcell.symm.trans hcell'
  exact hmem

/-- The balances are the sums where the sums are in the range of an `int`. -/
theorem Balanced.addsUp_iff (h : Balanced calls)
    (hrepresents : Represents bank ends (Banking.ledger calls)) :
    AddsUp calls bank ↔ ∀ b a, a ∈ addresses ((Banking.ledger calls).accounts b) →
      opening a calls + deposited a calls ≤ intMax := by
  constructor
  · intro hadds b a ha
    obtain ⟨⟨a', account⟩, hmem, rfl⟩ := List.mem_map.mp ha
    obtain ⟨next, hcell⟩ := (hrepresents.accounts.holds b).chain.exists_next hmem
    rw [← hadds b a' account next ha hcell]
    exact Int.le_sub_one_of_lt account.balance.toInt_lt
  · intro hrange b a account next ha hcell
    have htotal := total_nonneg a calls
    have hmax := hrange b a ha
    rw [intMax] at hmax
    rw [h.listed b a account (hrepresents.mem_accounts ha hcell)]
    exact Int.bmod_eq_of_le (by omega) (by omega)

/-- A deposit that returns has found the account of the customer. -/
theorem Represents.findCustomer_of_deposit {ledger : Ledger} {fuel : ℕ}
    (h : Represents bank ends ledger)
    (hcall : Banking.deposit bank branchId customerName amt fuel = .ok bank')
    (hb : ledger.findBranch branchId = some b) (ha : ledger.findAccount customerName b = some a) :
    findCustomer bank branchId customerName fuel = .ok (some a) := by
  obtain ⟨found, hfind, -⟩ := Outcome.bind_eq_ok.mp hcall
  obtain ⟨b', hb', hfound⟩ := h.findCustomer_of_ok hfind
  cases hb.symm.trans hb'
  rwa [hfound, ha] at hfind

/-- A deposit keeps balances and sums together exactly when there is room for it. -/
theorem addsUp_step {trace : Trace Bank Call} (hrun : Run system trace bank)
    (hadds : AddsUp (events trace) bank) (hstep : Step bank e bank') :
    AddsUp (events trace ++ [e]) bank' ↔ Room bank e := by
  obtain ⟨ends, h⟩ := represents hrun
  have hbalanced := balanced hrun
  obtain ⟨ends', h'⟩ := h.step hstep
  rw [← ledger_concat] at h'
  have hbalanced' : Balanced (events trace ++ [e]) := by
    have hrun' : Run system (trace ++ [(bank, e)]) bank' := hrun.step hstep
    have hlonger := balanced hrun'
    rwa [events_concat] at hlonger
  -- balances are sums modulo `2 ^ 32` before and after the step: only the ranges are compared
  have hrange := (hbalanced.addsUp_iff h).mp hadds
  rw [hbalanced'.addsUp_iff h', ledger_concat]
  simp only [total_concat]
  cases hstep with
  | @addBranch newBranch fuel branchName =>
    refine iff_of_true (fun b a ha => ?_) trivial
    exact (Int.add_zero _).trans_le (hrange b a ha)
  | @openAccount account fuel branchId customerName isPremium _ hfree hcall =>
    refine iff_of_true (fun b a _ => ?_) trivial
    have hopening : Call.opening a (.openAccount account branchId customerName isPremium) =
        if account = a then if isPremium then 100 else 0 else 0 := rfl
    have hamount : (Banking.ledger (events trace)).amount a
        (.openAccount account branchId customerName isPremium) = 0 := rfl
    rw [hopening, hamount, Int.add_zero]
    by_cases hlisted : ∃ b, a ∈ addresses ((Banking.ledger (events trace)).accounts b)
    · -- the address of the new account was free
      obtain ⟨b, ha⟩ := hlisted
      have hne : account ≠ a := by
        rintro rfl
        exact h.ne_none ha hfree
      rw [if_neg hne, Int.add_zero]
      exact hrange b a ha
    · rw [hbalanced.unlisted a (not_exists.mp hlisted)]
      split_ifs <;> decide
  | @deposit fuel branchId customerName amt _ hcall =>
    obtain ⟨b, a, account, next, hb, ha, hcell, -⟩ := h.deposit_of_ok hcall
    have hlisted : a ∈ addresses ((Banking.ledger (events trace)).accounts b) := by
      obtain ⟨account', -, hmem⟩ := find_eq_some ha
      exact List.mem_map_of_mem hmem
    have hbalance := hadds b a account next hlisted hcell
    have hopening : ∀ a', Call.opening a' (.deposit branchId customerName amt) = 0 := fun _ => rfl
    simp only [Ledger.addresses_apply_deposit, Ledger.amount_deposit hb ha, hopening, Int.zero_add]
    constructor
    · intro hmax fuel' a' account' next' hfind hcell'
      obtain ⟨b', hb', ha'⟩ := h.findCustomer_of_ok hfind
      cases hb.symm.trans hb'
      cases ha'.trans ha
      cases hcell.symm.trans hcell'
      have hsum := hmax b a hlisted
      rw [if_pos rfl] at hsum
      rwa [hbalance]
    · intro hroom b' a' hlisted'
      split_ifs with heq
      · -- the account that is credited
        subst heq
        have hfind := h.findCustomer_of_deposit hcall hb ha
        rw [← hbalance]
        exact hroom fuel a account next hfind hcell
      · rw [Int.add_zero]
        exact hrange b' a' hlisted'

/-- A deposit for which there is room lowers no balance. -/
theorem Represents.neverLowers {ledger : Ledger} (h : Represents bank ends ledger)
    (hroom : Room bank e) : NeverLowers bank e := by
  cases e with
  | addBranch | openAccount => trivial
  | deposit branchId customerName amt =>
    intro bank' a account account' next next' hstep hcell hcell'
    cases hstep with
    | @deposit fuel _ _ _ _ hcall =>
      obtain ⟨b, a₀, account₀, next₀, hb, ha₀, hcell₀, rfl⟩ := h.deposit_of_ok hcall
      dsimp only at hcell'
      rcases eq_or_ne a a₀ with rfl | hne
      · -- there is room, so the sum is what is stored
        rw [Function.update_self] at hcell'
        cases hcell.symm.trans hcell₀
        cases hcell'
        have hfind := h.findCustomer_of_deposit hcall hb ha₀
        rw [toInt_credit_of_le account (hroom fuel a account next hfind hcell)]
        exact Int.le_add_of_nonneg_right (Int.natCast_nonneg _)
      · rw [Function.update_of_ne hne] at hcell'
        cases hcell.symm.trans hcell'
        exact Int.le_refl _

/-- In every run the balances are what was deposited, and no deposit lowers one, exactly while
no deposit brings its account above the range of an `int`. -/
theorem deposits_add_up_iff {trace : Trace Bank Call} (hrun : Run system trace bank) :
    ((∀ pre v, Stage trace bank pre v → AddsUp (events pre) v) ∧
      ∀ v e, (v, e) ∈ trace → NeverLowers v e) ↔ ∀ v e, (v, e) ∈ trace → Room v e := by
  have hstages := Run.stages_iff (P := fun pre v => AddsUp (events pre) v) (C := Room)
    (fun s _ b a account next ha => absurd ha List.not_mem_nil)
    (fun trace s e s' hrun hadds hstep => by
      rw [events_concat]
      exact addsUp_step hrun (hadds _ _ (Stage.last _ _)) hstep) hrun
  rw [hstages]
  refine ⟨And.left, fun hroom => ⟨hroom, fun v e hmem => ?_⟩⟩
  obtain ⟨pre, v', hpre, -, -⟩ := hrun.next_stage hmem
  obtain ⟨ends, h⟩ := represents hpre
  exact h.neverLowers (hroom v e hmem)

/-! ### Runs with a deposit -/

/-- A customer that is found takes any amount. -/
theorem Represents.exists_deposit {ledger : Ledger} (h : Represents bank ends ledger)
    (hascii : branchId.IsAscii) (hb : ledger.findBranch branchId = some b)
    (ha : ledger.findAccount customerName b = some a) (amt : UInt32) :
    ∃ bank', Step bank (.deposit branchId customerName amt) bank' := by
  obtain ⟨idx, i, hidx, hi⟩ := exists_branchIdx hascii
  obtain ⟨fuel, hfind⟩ := (h.findCustomer_of_find hb (hb ▸ h.find hidx hi)).exists_ok
  obtain ⟨account, -, hmem⟩ := find_eq_some ha
  obtain ⟨next, hcell⟩ := (h.accounts.holds b).chain.exists_next hmem
  have hcall : Banking.deposit bank branchId customerName amt fuel = .ok { bank with
      accountHeap := Function.update bank.accountHeap a (some ⟨account.credit amt, next⟩) } := by
    rw [Banking.deposit, hfind, ha, Outcome.ok_bind, Heap.load_some hcell, Outcome.ok_bind,
      Heap.store_some hcell]
    rfl
  exact ⟨_, .deposit hcall⟩

/-- One account of `main`, which is found, and one deposit. -/
theorem exists_run_deposit (amt : UInt32) :
    ∃ trace bank bank', Run system trace bank ∧
      events trace = [.addBranch 0 ger, .openAccount 0 ger mario false] ∧
      (∀ fuel a, findCustomer bank ger mario fuel = .ok (some a) → a = 0) ∧
      Step bank (.deposit ger mario amt) bank' := by
  obtain ⟨trace, bank, hrun, hevents, -⟩ := faithful_ger
  obtain ⟨ends, h⟩ := represents hrun
  have hb : (Banking.ledger (events trace)).findBranch ger = some 0 := by
    rw [hevents]
    decide +kernel
  have ha : (Banking.ledger (events trace)).findAccount mario 0 = some 0 := by
    rw [hevents]
    decide +kernel
  have hascii : ger.IsAscii := by decide +kernel
  obtain ⟨bank', hstep⟩ := h.exists_deposit hascii hb ha amt
  refine ⟨trace, bank, bank', hrun, hevents, fun fuel a hfind => ?_, hstep⟩
  obtain ⟨idx, i, hidx, hi⟩ := exists_branchIdx hascii
  have hzero := (h.findCustomer_of_find hb (hb ▸ h.find hidx hi)).eq_of_ok hfind
  exact Option.some.inj (hzero.trans ha)

/-- The first deposit of `main`. -/
theorem deposits_add_up_main :
    ∃ trace bank, Run system trace bank ∧
      events trace = [.addBranch 0 ger, .openAccount 0 ger mario false, .deposit ger mario 100] ∧
      (∀ pre v, Stage trace bank pre v → AddsUp (events pre) v) ∧
        ∀ v e, (v, e) ∈ trace → NeverLowers v e := by
  obtain ⟨trace, bank, bank', hrun, hevents, hfound, hstep⟩ := exists_run_deposit 100
  have hrun' : Run system (trace ++ [(bank, .deposit ger mario 100)]) bank' := hrun.step hstep
  have hevents' : events (trace ++ [(bank, .deposit ger mario 100)]) =
      [.addBranch 0 ger, .openAccount 0 ger mario false, .deposit ger mario 100] := by
    rw [events_concat, hevents]
    rfl
  -- the calls before the deposit are none
  have hbefore : ∀ v e, (v, e) ∈ trace → Room v e := by
    intro v e hmem
    have hcall : e ∈ events trace := List.mem_map_of_mem hmem
    rw [hevents] at hcall
    rcases List.mem_pair.mp hcall with rfl | rfl <;> trivial
  refine ⟨_, bank', hrun', hevents', (deposits_add_up_iff hrun').mpr fun v e hmem => ?_⟩
  rcases List.mem_append.mp hmem with hold | hnew
  · exact hbefore v e hold
  · cases List.mem_singleton.mp hnew
    intro fuel a account next hfind hcell
    obtain rfl := hfound fuel a hfind
    have hbalance := ((deposits_add_up_iff hrun).mpr hbefore).1 trace bank (Stage.last _ _) 0 0
      account next (by rw [hevents]; decide +kernel) hcell
    rw [hbalance, hevents]
    decide +kernel

/-- A deposit of `2 ^ 31` makes the balance negative. -/
theorem deposit_wraps :
    ∃ trace bank, Run system trace bank ∧
      events trace =
        [.addBranch 0 ger, .openAccount 0 ger mario false, .deposit ger mario 2147483648] ∧
      ¬ AddsUp (events trace) bank := by
  obtain ⟨trace, bank, bank', hrun, hevents, -, hstep⟩ := exists_run_deposit 2147483648
  have hrun' : Run system (trace ++ [(bank, .deposit ger mario 2147483648)]) bank' :=
    hrun.step hstep
  have hevents' : events (trace ++ [(bank, .deposit ger mario 2147483648)]) =
      [.addBranch 0 ger, .openAccount 0 ger mario false, .deposit ger mario 2147483648] := by
    rw [events_concat, hevents]
    rfl
  refine ⟨_, bank', hrun', hevents', fun hadds => ?_⟩
  obtain ⟨ends, h⟩ := represents hrun'
  have hrange := ((balanced hrun').addsUp_iff h).mp hadds 0 0
  rw [hevents'] at hrange
  exact absurd (hrange (by decide +kernel)) (by decide +kernel)

/-! ### Unknown customers -/

/-- The account of an unknown customer is looked for, and then read. -/
theorem Represents.deposit_outOfBounds {ledger : Ledger} (h : Represents bank ends ledger)
    (hb : ledger.findBranch branchId = some b) (ha : ledger.findAccount customerName b = none)
    (amt : UInt32) :
    ∃ bound, ∀ fuel, bound ≤ fuel →
      Banking.deposit bank branchId customerName amt fuel = .error (.outOfBounds 0) := by
  obtain ⟨i, hidx⟩ := h.hashed _ (Ledger.mem_of_findBranch hb)
  have hbyte : (UInt8.ofNat i).toNat = i :=
    UInt8.toNat_ofNat_of_lt' (Nat.lt_trans i.isLt (by decide))
  obtain ⟨bound, hbound⟩ := (h.findCustomer_of_find hb (hb ▸ h.find hidx hbyte)).enough
  refine ⟨bound, fun fuel hfuel => ?_⟩
  rw [Banking.deposit, hbound fuel hfuel, ha]
  rfl

theorem Represents.not_failsCleanly {ledger : Ledger} (h : Represents bank ends ledger)
    (hb : ledger.findBranch branchId = some b) (ha : ledger.findAccount customerName b = none)
    (amt : UInt32) : ¬ FailsCleanly bank branchId customerName amt := by
  rintro ⟨bound', hclean⟩
  obtain ⟨bound, hbound⟩ := h.deposit_outOfBounds hb ha amt
  obtain ⟨message, hexit⟩ := hclean (max bound bound') (Nat.le_max_right _ _)
  cases (hbound _ (Nat.le_max_left _ _)).symm.trans hexit

/-- In every bank, a deposit to a customer who has no account in a branch reads through a null
pointer before it can end the process. -/
theorem deposit_unknown {trace : Trace Bank Call} (hrun : Run system trace bank)
    (hb : (Banking.ledger (events trace)).findBranch branchId = some b)
    (ha : (Banking.ledger (events trace)).findAccount customerName b = none) (amt : UInt32) :
    (∃ bound, ∀ fuel, bound ≤ fuel →
      Banking.deposit bank branchId customerName amt fuel = .error (.outOfBounds 0)) ∧
      ¬ FailsCleanly bank branchId customerName amt := by
  obtain ⟨ends, h⟩ := represents hrun
  exact ⟨h.deposit_outOfBounds hb ha amt, h.not_failsCleanly hb ha amt⟩

/-- A branch of `main` without accounts. -/
theorem exists_run_empty :
    ∃ trace bank, Run system trace bank ∧ events trace = [.addBranch 0 ger] ∧
      (Banking.ledger (events trace)).findBranch ger = some 0 ∧
      (Banking.ledger (events trace)).findAccount mario 0 = none := by
  obtain ⟨trace, bank, hrun, hevents, -⟩ := exists_run_ger
  refine ⟨trace, bank, hrun, hevents, ?_, ?_⟩
  · rw [hevents]
    decide +kernel
  · rw [hevents]
    rfl

theorem deposit_unknown_ger :
    ∃ trace bank, Run system trace bank ∧ events trace = [.addBranch 0 ger] ∧
      (∃ bound, ∀ fuel, bound ≤ fuel →
        Banking.deposit bank ger mario 100 fuel = .error (.outOfBounds 0)) ∧
      ¬ FailsCleanly bank ger mario 100 := by
  obtain ⟨trace, bank, hrun, hevents, hb, ha⟩ := exists_run_empty
  exact ⟨trace, bank, hrun, hevents, deposit_unknown hrun hb ha 100⟩

/-- A customer without an account, in a branch that exists. -/
theorem not_failsCleanly_ger :
    ∃ trace bank, Run system trace bank ∧
      (Banking.ledger (events trace)).findBranch ger = some 0 ∧
      (Banking.ledger (events trace)).findAccount mario 0 = none ∧
      ¬ FailsCleanly bank ger mario 100 := by
  obtain ⟨trace, bank, hrun, -, hb, ha⟩ := exists_run_empty
  obtain ⟨ends, h⟩ := represents hrun
  exact ⟨trace, bank, hrun, hb, ha, h.not_failsCleanly hb ha 100⟩

end BareMetal.Banking
