import BareMetal.CS.Tally
import BareMetal.CS.Transition

/-!
# The two accounts of `deadlock_accounts.c`

Two accounts with 16-bit balances, threads that transfer money between them, and
one thread that waits for a given transfer and then reads both balances.
`transfer_a_to_b` and `transfer_b_to_a` take `lock_A` and then `lock_B`; the
second also marks its `Transfer` as completed and signals after it has released
both locks. `check_balance` takes `lock_B` only.

A lock, an unlock, an update of one balance, a read, a wait and a signal are one
step each. There may be any number of transfers; `main` starts one of each kind.
A thread may also return from `pthread_cond_wait` without a signal.

## Main results

* `system` — the interleavings
* `held` — who holds which lock
-/

namespace BareMetal.Accounts

open CS Transition

/-- `acc1` and `acc2` of `main`. -/
inductive Account
  | acc1
  | acc2
  deriving DecidableEq, Repr

/-- The callback a transfer is started with. -/
inductive Callback
  | transferAToB
  | transferBToA
  deriving DecidableEq, Repr

/-- What a thread is started with: its callback, and the amount in its `Transfer`. -/
structure Transfer where
  callback : Callback
  amount : UInt16
  deriving DecidableEq, Repr

/-- `trans->origin`, as `main` sets it for each callback. -/
def Transfer.origin (trans : Transfer) : Account :=
  match trans.callback with
  | .transferAToB => .acc1
  | .transferBToA => .acc2

/-- `trans->destination`. -/
def Transfer.destination (trans : Transfer) : Account :=
  match trans.callback with
  | .transferAToB => .acc2
  | .transferBToA => .acc1

/-- Where a transfer stands, named by what it does next. -/
inductive Position
  | lockA
  | lockB
  | debit
  | credit
  | mark
  | unlockB
  | unlockA
  | signal
  | finished
  deriving DecidableEq, Repr

/-- After the credit, only `transfer_b_to_a` marks the transfer. -/
def Transfer.afterCredit (trans : Transfer) : Position :=
  match trans.callback with
  | .transferAToB => .unlockB
  | .transferBToA => .mark

/-- After the last unlock, only `transfer_b_to_a` signals. -/
def Transfer.afterUnlock (trans : Transfer) : Position :=
  match trans.callback with
  | .transferAToB => .finished
  | .transferBToA => .signal

/-- Where `check_balance` stands, with the balances it has read. `lockB` is both its
start and the way back from `pthread_cond_wait`. -/
inductive Check
  | lockB
  | test
  | asleep
  | readOrigin
  | readDestination (origin : UInt16)
  | unlockB (origin destination : UInt16)
  | finished (origin destination : UInt16)
  deriving DecidableEq, Repr

/-- A signal on `completed`. Nobody else sleeps on it. -/
def Check.signalled : Check → Check
  | .asleep => .lockB
  | check => check

/-- The two balances read, once both are. -/
def Check.snapshot : Check → Option (UInt16 × UInt16)
  | .unlockB origin destination => some (origin, destination)
  | .finished origin destination => some (origin, destination)
  | _ => none

/-- The shared state and the positions of the threads. -/
structure World (n : ℕ) where
  balance : Account → UInt16
  lockA : Bool
  lockB : Bool
  transactionCompleted : Fin n → UInt8
  tellers : Fin n → Position
  check : Check

/-- The steps of the threads. -/
inductive Event (n : ℕ)
  | lockA (t : Fin n)
  | lockB (t : Fin n)
  | debit (t : Fin n)
  | credit (t : Fin n)
  | mark (t : Fin n)
  | unlockB (t : Fin n)
  | unlockA (t : Fin n)
  | signal (t : Fin n)
  | checkLock
  | checkWait
  | checkProceed
  | checkOrigin
  | checkDestination
  | checkUnlock
  | spurious
  deriving DecidableEq, Repr

variable {n : ℕ}

/-- One step of the program. `check_balance` was given the transfer `watched`. -/
inductive Step (transfers : Fin n → Transfer) (watched : Fin n) : World n → Event n → World n → Prop
  | lockA {world : World n} {t : Fin n} :
      world.tellers t = .lockA → world.lockA = false →
      Step transfers watched world (.lockA t)
        { world with lockA := true, tellers := Function.update world.tellers t .lockB }
  | lockB {world : World n} {t : Fin n} :
      world.tellers t = .lockB → world.lockB = false →
      Step transfers watched world (.lockB t)
        { world with lockB := true, tellers := Function.update world.tellers t .debit }
  -- no test whether the amount is there
  | debit {world : World n} {t : Fin n} :
      world.tellers t = .debit →
      Step transfers watched world (.debit t)
        { world with
          balance := Function.update world.balance (transfers t).origin
            (world.balance (transfers t).origin - (transfers t).amount)
          tellers := Function.update world.tellers t .credit }
  | credit {world : World n} {t : Fin n} :
      world.tellers t = .credit →
      Step transfers watched world (.credit t)
        { world with
          balance := Function.update world.balance (transfers t).destination
            (world.balance (transfers t).destination + (transfers t).amount)
          tellers := Function.update world.tellers t (transfers t).afterCredit }
  | mark {world : World n} {t : Fin n} :
      world.tellers t = .mark →
      Step transfers watched world (.mark t)
        { world with
          transactionCompleted := Function.update world.transactionCompleted t 1
          tellers := Function.update world.tellers t .unlockB }
  | unlockB {world : World n} {t : Fin n} :
      world.tellers t = .unlockB →
      Step transfers watched world (.unlockB t)
        { world with lockB := false, tellers := Function.update world.tellers t .unlockA }
  | unlockA {world : World n} {t : Fin n} :
      world.tellers t = .unlockA →
      Step transfers watched world (.unlockA t)
        { world with
          lockA := false
          tellers := Function.update world.tellers t (transfers t).afterUnlock }
  -- both locks are released by now
  | signal {world : World n} {t : Fin n} :
      world.tellers t = .signal →
      Step transfers watched world (.signal t)
        { world with
          tellers := Function.update world.tellers t .finished, check := world.check.signalled }
  | checkLock {world : World n} :
      world.check = .lockB → world.lockB = false →
      Step transfers watched world .checkLock { world with lockB := true, check := .test }
  -- `pthread_cond_wait` releases `lock_B` as it falls asleep
  | checkWait {world : World n} :
      world.check = .test → world.transactionCompleted watched = 0 →
      Step transfers watched world .checkWait { world with lockB := false, check := .asleep }
  | checkProceed {world : World n} :
      world.check = .test → world.transactionCompleted watched ≠ 0 →
      Step transfers watched world .checkProceed { world with check := .readOrigin }
  | checkOrigin {world : World n} :
      world.check = .readOrigin →
      Step transfers watched world .checkOrigin
        { world with check := .readDestination (world.balance (transfers watched).origin) }
  | checkDestination {world : World n} {origin : UInt16} :
      world.check = .readDestination origin →
      Step transfers watched world .checkDestination
        { world with check := .unlockB origin (world.balance (transfers watched).destination) }
  | checkUnlock {world : World n} {origin destination : UInt16} :
      world.check = .unlockB origin destination →
      Step transfers watched world .checkUnlock
        { world with lockB := false, check := .finished origin destination }
  | spurious {world : World n} :
      world.check = .asleep →
      Step transfers watched world .spurious { world with check := .lockB }

/-- Everything before the first step. -/
def start (n : ℕ) (balance : Account → UInt16) : World n where
  balance := balance
  lockA := false
  lockB := false
  transactionCompleted := fun _ => 0
  tellers := fun _ => .lockA
  check := .lockB

/-- The interleavings of the transfers and `check_balance`. -/
def system (balance : Account → UInt16) (transfers : Fin n → Transfer) (watched : Fin n) :
    System (World n) (Event n) where
  start world := world = start n balance
  step := Step transfers watched

/-- The two transfers of `main`, for any amounts; `check_balance` watches the second. -/
def mainTransfers (amount1 amount2 : UInt16) : Fin 2 → Transfer :=
  ![⟨.transferAToB, amount1⟩, ⟨.transferBToA, amount2⟩]

/-! ### Who holds the locks -/

/-- A transfer between taking and releasing `lock_A`. -/
def Position.holdsA : Position → ℕ
  | .lockA | .signal | .finished => 0
  | .lockB | .debit | .credit | .mark | .unlockB | .unlockA => 1

/-- A transfer between taking and releasing `lock_B`. -/
def Position.holdsB : Position → ℕ
  | .lockA | .lockB | .unlockA | .signal | .finished => 0
  | .debit | .credit | .mark | .unlockB => 1

/-- `check_balance` holds `lock_B`. -/
def Check.holdsB : Check → ℕ
  | .lockB | .asleep | .finished _ _ => 0
  | .test | .readOrigin | .readDestination _ | .unlockB _ _ => 1

@[simp] theorem Transfer.holdsA_afterCredit (trans : Transfer) : trans.afterCredit.holdsA = 1 := by
  unfold Transfer.afterCredit
  cases trans.callback <;> rfl

@[simp] theorem Transfer.holdsB_afterCredit (trans : Transfer) : trans.afterCredit.holdsB = 1 := by
  unfold Transfer.afterCredit
  cases trans.callback <;> rfl

@[simp] theorem Transfer.holdsA_afterUnlock (trans : Transfer) : trans.afterUnlock.holdsA = 0 := by
  unfold Transfer.afterUnlock
  cases trans.callback <;> rfl

@[simp] theorem Transfer.holdsB_afterUnlock (trans : Transfer) : trans.afterUnlock.holdsB = 0 := by
  unfold Transfer.afterUnlock
  cases trans.callback <;> rfl

@[simp] theorem Check.holdsB_signalled (check : Check) :
    check.signalled.holdsB = check.holdsB := by
  cases check <;> rfl

/-- A lock is taken exactly when one thread holds it. -/
structure Held (world : World n) : Prop where
  tellersA : tally (fun _ => Position.holdsA) world.tellers = world.lockA.toNat
  threadsB : tally (fun _ => Position.holdsB) world.tellers + world.check.holdsB =
    world.lockB.toNat

variable {balance : Account → UInt16} {transfers : Fin n → Transfer} {watched : Fin n}
  {world world' : World n} {e : Event n} {trace : Trace (World n) (Event n)}

theorem Held.lockA_eq_true (h : Held world) {t : Fin n}
    (ht : (world.tellers t).holdsA = 1) : world.lockA = true := by
  have hle := le_tally (fun _ => Position.holdsA) world.tellers t
  rw [h.tellersA, ht] at hle
  exact Bool.toNat_eq_one.mp (le_antisymm (Bool.toNat_le _) hle)

theorem Held.lockB_eq_true (h : Held world) {t : Fin n}
    (ht : (world.tellers t).holdsB = 1) : world.lockB = true := by
  have hle := le_tally (fun _ => Position.holdsB) world.tellers t
  have hthreads := h.threadsB
  have hbound := Bool.toNat_le world.lockB
  exact Bool.toNat_eq_one.mp (by omega)

theorem Held.lockB_eq_true_of_check (h : Held world) (hcheck : world.check.holdsB = 1) :
    world.lockB = true := by
  have hthreads := h.threadsB
  have hbound := Bool.toNat_le world.lockB
  exact Bool.toNat_eq_one.mp (by omega)

/-- While `check_balance` holds `lock_B`, no transfer does. -/
theorem Held.tellers_of_check (h : Held world) (hcheck : world.check.holdsB = 1) (t : Fin n) :
    (world.tellers t).holdsB = 0 := by
  have hle := le_tally (fun _ => Position.holdsB) world.tellers t
  have hthreads := h.threadsB
  have hbound := Bool.toNat_le world.lockB
  omega

/-- A transfer that moves takes or releases the locks that its positions differ in. -/
theorem Held.move (h : Held world) {t : Fin n} {k : Position} (ht : world.tellers t = k)
    (k' : Position) (htellers : world'.tellers = Function.update world.tellers t k')
    (hcheck : world'.check.holdsB = world.check.holdsB)
    (hA : k'.holdsA + world.lockA.toNat = k.holdsA + world'.lockA.toNat)
    (hB : k'.holdsB + world.lockB.toNat = k.holdsB + world'.lockB.toNat) : Held world' := by
  have hmoveA := tally_move (fun _ => Position.holdsA) ht k'
  have hmoveB := tally_move (fun _ => Position.holdsB) ht k'
  have htellersA := h.tellersA
  have hthreadsB := h.threadsB
  constructor
  · rw [htellers]
    omega
  · rw [htellers]
    omega

/-- The same for `check_balance`. -/
theorem Held.moveCheck (h : Held world) (htellers : world'.tellers = world.tellers)
    (hA : world'.lockA = world.lockA)
    (hB : world'.check.holdsB + world.lockB.toNat =
      world.check.holdsB + world'.lockB.toNat) : Held world' := by
  have htellersA := h.tellersA
  have hthreadsB := h.threadsB
  constructor
  · rw [htellers, hA]
    exact htellersA
  · rw [htellers]
    omega

theorem Held.step (h : Held world) (hstep : Step transfers watched world e world') :
    Held world' := by
  cases hstep with
  | lockA ht hfree =>
    refine h.move ht .lockB rfl rfl ?_ rfl
    rw [hfree]
    rfl
  | lockB ht hfree =>
    refine h.move ht .debit rfl rfl rfl ?_
    rw [hfree]
    rfl
  | debit ht => exact h.move ht .credit rfl rfl rfl rfl
  | @credit t ht =>
    refine h.move ht (transfers t).afterCredit rfl rfl ?_ ?_
    · rw [Transfer.holdsA_afterCredit]
      rfl
    · rw [Transfer.holdsB_afterCredit]
      rfl
  | mark ht => exact h.move ht .unlockB rfl rfl rfl rfl
  | @unlockB t ht =>
    -- a thread at this position holds the lock, and afterwards nobody does
    refine h.move ht .unlockA rfl rfl rfl ?_
    rw [h.lockB_eq_true (t := t) (by rw [ht]; rfl)]
    rfl
  | @unlockA t ht =>
    refine h.move ht (transfers t).afterUnlock rfl rfl ?_ ?_
    · rw [h.lockA_eq_true (t := t) (by rw [ht]; rfl), Transfer.holdsA_afterUnlock]
      rfl
    · rw [Transfer.holdsB_afterUnlock]
      rfl
  | signal ht => exact h.move ht .finished rfl (Check.holdsB_signalled _) rfl rfl
  | checkLock hcheck hfree =>
    refine h.moveCheck rfl rfl ?_
    rw [hcheck, hfree]
    rfl
  | checkWait hcheck =>
    -- waiting gives the lock back
    refine h.moveCheck rfl rfl ?_
    rw [h.lockB_eq_true_of_check (by rw [hcheck]; rfl), hcheck]
    rfl
  | checkProceed hcheck =>
    refine h.moveCheck rfl rfl ?_
    rw [hcheck]
    rfl
  | checkOrigin hcheck =>
    refine h.moveCheck rfl rfl ?_
    rw [hcheck]
    rfl
  | checkDestination hcheck =>
    refine h.moveCheck rfl rfl ?_
    rw [hcheck]
    rfl
  | checkUnlock hcheck =>
    refine h.moveCheck rfl rfl ?_
    rw [h.lockB_eq_true_of_check (by rw [hcheck]; rfl), hcheck]
    rfl
  | spurious hcheck =>
    refine h.moveCheck rfl rfl ?_
    rw [hcheck]
    rfl

theorem held (hrun : Run (system balance transfers watched) trace world) : Held world := by
  refine Run.invariant (I := fun _ => Held) ?_ (fun _ _ _ _ h hstep => h.step hstep) hrun
  rintro _ rfl
  constructor
  · exact tally_eq_zero fun _ => rfl
  · simp [start, tally, Position.holdsB, Check.holdsB]

end BareMetal.Accounts
