import BareMetal.Multithreading.Accounts.Conservation

/-!
# The balance check, and why nobody deadlocks

`check_balance` holds `lock_B` only, but every update is made under both locks, so
no transfer is half done while the two balances are read. The transfer it waits
for is marked under `lock_B` as well; the signal comes after both locks were
released, and a check that fell asleep in between is still asleep when it comes.

`lock_A` is taken before `lock_B` by whoever takes both.

## Main results

* `check_consistent` — what `check_balance` reads, and freedom from deadlock, for
  the threads of `main`
* `not_deadlocked` — freedom from deadlock for any number of transfers
* `reads` — what is read is what some set of whole transfers leaves
-/

namespace BareMetal.Accounts

open CS Transition

variable {n : ℕ} {balance : Account → UInt16} {transfers : Fin n → Transfer} {watched : Fin n}
  {world world' : World n} {e : Event n} {trace : Trace (World n) (Event n)}

/-! ### The completed transfer -/

/-- A transfer that is past its `mark`. -/
def Position.marked : Position → Bool
  | .unlockB | .unlockA | .signal | .finished => true
  | _ => false

/-- `check_balance` has found the transfer completed. -/
def Check.proceeded : Check → Bool
  | .lockB | .test | .asleep => false
  | _ => true

/-- The flag of the watched transfer tells where the transfer stands. Once the transfer
has signalled, `check_balance` does not sleep. -/
structure Announced (watched : Fin n) (world : World n) : Prop where
  completed_iff : world.transactionCompleted watched ≠ 0 ↔ (world.tellers watched).marked = true
  not_asleep : world.check = .asleep → world.tellers watched ≠ .finished
  proceeded : world.check.proceeded = true → world.transactionCompleted watched ≠ 0

theorem Position.credited_of_marked {k : Position} (h : k.marked = true) : k.credited = true := by
  cases k <;> first | rfl | cases h

theorem Check.signalled_ne_asleep (check : Check) : check.signalled ≠ .asleep := by
  cases check <;> exact Check.noConfusion

theorem Check.proceeded_signalled (check : Check) :
    check.signalled.proceeded = check.proceeded := by
  cases check <;> rfl

/-- A transfer that moves without marking itself, and signals before it finishes. -/
theorem Announced.move (h : Announced watched world) {t : Fin n} {k : Position}
    (ht : world.tellers t = k) (k' : Position)
    (htellers : world'.tellers = Function.update world.tellers t k')
    (hflags : world'.transactionCompleted = world.transactionCompleted)
    (hcheck : world'.check = world.check)
    (hwatched : t = watched → k'.marked = k.marked ∧ k' ≠ .finished) :
    Announced watched world' := by
  constructor
  · rw [hflags, htellers, h.completed_iff]
    rcases eq_or_ne t watched with rfl | hne
    · rw [Function.update_self, (hwatched rfl).1, ht]
    · rw [Function.update_of_ne hne.symm]
  · rw [hcheck, htellers]
    intro hasleep
    rcases eq_or_ne t watched with rfl | hne
    · rw [Function.update_self]
      exact (hwatched rfl).2
    · rw [Function.update_of_ne hne.symm]
      exact h.not_asleep hasleep
  · rw [hflags, hcheck]
    exact h.proceeded

theorem Announced.mark (h : Announced watched world) (t : Fin n) :
    Announced watched { world with
      transactionCompleted := Function.update world.transactionCompleted t 1
      tellers := Function.update world.tellers t .unlockB } := by
  rcases eq_or_ne t watched with rfl | hne
  · constructor
    · simp [Position.marked]
    · simp
    · simp
  · constructor
    · simpa [Function.update_of_ne hne.symm] using h.completed_iff
    · simpa [Function.update_of_ne hne.symm] using h.not_asleep
    · simpa [Function.update_of_ne hne.symm] using h.proceeded

theorem Announced.signal (h : Announced watched world) {t : Fin n}
    (ht : world.tellers t = .signal) :
    Announced watched { world with
      tellers := Function.update world.tellers t .finished, check := world.check.signalled } where
  completed_iff := by
    rcases eq_or_ne t watched with rfl | hne
    · simpa [ht, Position.marked] using h.completed_iff
    · simpa [Function.update_of_ne hne.symm] using h.completed_iff
  not_asleep hasleep := absurd hasleep (Check.signalled_ne_asleep _)
  proceeded := by
    rw [Check.proceeded_signalled]
    exact h.proceeded

/-- `check_balance` moves. It falls asleep only while the flag is not set. -/
theorem Announced.moveCheck (h : Announced watched world) (lockB : Bool) {check : Check}
    (hasleep : check = .asleep → world.transactionCompleted watched = 0)
    (hproceeded : check.proceeded = true → world.transactionCompleted watched ≠ 0) :
    Announced watched { world with lockB := lockB, check := check } where
  completed_iff := h.completed_iff
  not_asleep hcheck hfinished := by
    have hmarked : (world.tellers watched).marked = true := by
      change world.tellers watched = .finished at hfinished
      rw [hfinished]
      rfl
    exact h.completed_iff.mpr hmarked (hasleep hcheck)
  proceeded := hproceeded

section

variable (hcallback : (transfers watched).callback = .transferBToA)
include hcallback

theorem Announced.step (h : Announced watched world)
    (hstep : Step transfers watched world e world') : Announced watched world' := by
  cases hstep with
  | lockA ht => exact h.move ht .lockB rfl rfl rfl fun _ => ⟨rfl, Position.noConfusion⟩
  | lockB ht => exact h.move ht .debit rfl rfl rfl fun _ => ⟨rfl, Position.noConfusion⟩
  | debit ht => exact h.move ht .credit rfl rfl rfl fun _ => ⟨rfl, Position.noConfusion⟩
  | credit ht =>
    refine h.move ht _ rfl rfl rfl ?_
    rintro rfl
    -- the watched transfer goes on to its mark
    rw [Transfer.afterCredit, hcallback]
    exact ⟨rfl, Position.noConfusion⟩
  | mark => exact h.mark _
  | unlockB ht => exact h.move ht .unlockA rfl rfl rfl fun _ => ⟨rfl, Position.noConfusion⟩
  | unlockA ht =>
    refine h.move ht _ rfl rfl rfl ?_
    rintro rfl
    -- and from its last unlock to its signal
    rw [Transfer.afterUnlock, hcallback]
    exact ⟨rfl, Position.noConfusion⟩
  | signal ht => exact h.signal ht
  | checkLock => exact h.moveCheck _ Check.noConfusion Bool.noConfusion
  | checkWait _ hflag => exact h.moveCheck _ (fun _ => hflag) Bool.noConfusion
  | checkProceed _ hflag => exact h.moveCheck _ Check.noConfusion fun _ => hflag
  | checkOrigin hcheck =>
    refine h.moveCheck _ Check.noConfusion fun _ => h.proceeded ?_
    rw [hcheck]
    rfl
  | checkDestination hcheck =>
    refine h.moveCheck _ Check.noConfusion fun _ => h.proceeded ?_
    rw [hcheck]
    rfl
  | checkUnlock hcheck =>
    refine h.moveCheck _ Check.noConfusion fun _ => h.proceeded ?_
    rw [hcheck]
    rfl
  | spurious => exact h.moveCheck _ Check.noConfusion Bool.noConfusion

theorem announced (hrun : Run (system balance transfers watched) trace world) :
    Announced watched world := by
  refine Run.invariant (I := fun _ => Announced watched) ?_ (fun _ _ _ _ h hstep => ?_) hrun
  · rintro _ rfl
    exact ⟨by simp [start, Position.marked], Check.noConfusion, Bool.noConfusion⟩
  · exact h.step hcallback hstep

end

/-! ### Nobody deadlocks -/

/-- The transfer waits for a mutex that is taken. -/
def TellerBlocked (world : World n) (t : Fin n) : Prop :=
  world.tellers t = .lockA ∧ world.lockA = true ∨ world.tellers t = .lockB ∧ world.lockB = true

/-- `check_balance` waits for a mutex that is taken, or sleeps. -/
def CheckBlocked (world : World n) : Prop :=
  world.check = .lockB ∧ world.lockB = true ∨ world.check = .asleep

/-- `check_balance` has returned. -/
def CheckFinished (world : World n) : Prop :=
  ∃ origin destination, world.check = .finished origin destination

/-- Some thread has not returned, and no such thread can go on. -/
def Deadlocked (world : World n) : Prop :=
  ((∃ t, world.tellers t ≠ .finished) ∨ ¬ CheckFinished world) ∧
    (∀ t, world.tellers t ≠ .finished → TellerBlocked world t) ∧
    (¬ CheckFinished world → CheckBlocked world)

/-- Whoever holds `lock_B` can go on. -/
theorem Held.lockB_eq_false (h : Held world)
    (htellers : ∀ t, world.tellers t ≠ .finished → TellerBlocked world t)
    (hcheck : ¬ CheckFinished world → CheckBlocked world) : world.lockB = false := by
  -- no blocked thread is between `lock_B` and its unlock
  have hzero : tally (fun _ => Position.holdsB) world.tellers = 0 := by
    refine tally_eq_zero fun t => ?_
    by_cases hfinished : world.tellers t = .finished
    · rw [hfinished]
      rfl
    · rcases htellers t hfinished with ⟨ht, -⟩ | ⟨ht, -⟩ <;> rw [ht] <;> rfl
  have hcheckB : world.check.holdsB = 0 := by
    by_cases hfinished : CheckFinished world
    · obtain ⟨origin, destination, hfinished⟩ := hfinished
      rw [hfinished]
      rfl
    · rcases hcheck hfinished with ⟨hlock, -⟩ | hasleep
      · rw [hlock]
        rfl
      · rw [hasleep]
        rfl
  have hthreads := h.threadsB
  rw [hzero, hcheckB] at hthreads
  exact Bool.toNat_eq_zero.mp hthreads.symm

/-- Whoever holds `lock_A` can go on, or waits for `lock_B`. -/
theorem Held.lockA_eq_false (h : Held world) (hB : world.lockB = false)
    (htellers : ∀ t, world.tellers t ≠ .finished → TellerBlocked world t) :
    world.lockA = false := by
  have hzero : tally (fun _ => Position.holdsA) world.tellers = 0 := by
    refine tally_eq_zero fun t => ?_
    by_cases hfinished : world.tellers t = .finished
    · rw [hfinished]
      rfl
    · rcases htellers t hfinished with ⟨ht, -⟩ | ⟨-, hlock⟩
      · rw [ht]
        rfl
      · cases hlock.symm.trans hB
  have htellersA := h.tellersA
  rw [hzero] at htellersA
  exact Bool.toNat_eq_zero.mp htellersA.symm

/-- **Nobody deadlocks.** In no reachable state is some thread unfinished while all
unfinished threads wait for a mutex or sleep. -/
theorem not_deadlocked (hcallback : (transfers watched).callback = .transferBToA)
    (hrun : Run (system balance transfers watched) trace world) : ¬ Deadlocked world := by
  rintro ⟨hunfinished, htellers, hcheck⟩
  have hheld := held hrun
  have hB := hheld.lockB_eq_false htellers hcheck
  have hA := hheld.lockA_eq_false hB htellers
  -- with both locks free, all transfers are finished
  have hfinished : ∀ t, world.tellers t = .finished := by
    intro t
    by_contra hne
    rcases htellers t hne with ⟨-, hlock⟩ | ⟨-, hlock⟩
    · cases hlock.symm.trans hA
    · cases hlock.symm.trans hB
  have hnot : ¬ CheckFinished world := by
    rcases hunfinished with ⟨t, ht⟩ | hnot
    · exact absurd (hfinished t) ht
    · exact hnot
  rcases hcheck hnot with ⟨-, hlock⟩ | hasleep
  · cases hlock.symm.trans hB
  · exact (announced hcallback hrun).not_asleep hasleep (hfinished watched)

/-! ### What is read -/

/-- The balance `v` of the account `a` is what the transfers in `S` leave, each made as a
whole, modulo `2 ^ 16`. -/
def After (balance : Account → UInt16) (transfers : Fin n → Transfer) (S : Finset (Fin n))
    (a : Account) (v : UInt16) : Prop :=
  v.toNat + ∑ t ∈ S with (transfers t).origin = a, (transfers t).amount.toNat ≡
    (balance a).toNat + ∑ t ∈ S with (transfers t).destination = a, (transfers t).amount.toNat
    [MOD 2 ^ 16]

/-- In a settled state the balances are those after the transfers that were made. -/
theorem Booked.after (h : Booked balance transfers world) (hsettled : Settled world) (a : Account) :
    After balance transfers {t | (world.tellers t).credited = true} a (world.balance a) := by
  have hdebits : tally (debitOf transfers a) world.tellers =
      ∑ t ∈ {t | (world.tellers t).credited = true} with (transfers t).origin = a,
        (transfers t).amount.toNat := by
    unfold tally debitOf
    rw [Finset.sum_filter, Finset.sum_filter]
    refine Finset.sum_congr rfl fun t _ => ?_
    rw [hsettled.debited_eq_credited t, ite_and]
  have hcredits : tally (creditOf transfers a) world.tellers =
      ∑ t ∈ {t | (world.tellers t).credited = true} with (transfers t).destination = a,
        (transfers t).amount.toNat := by
    unfold tally creditOf
    rw [Finset.sum_filter, Finset.sum_filter]
    refine Finset.sum_congr rfl fun t _ => ?_
    rw [ite_and]
  have hbook := h a
  rwa [hdebits, hcredits] at hbook

/-- `check_balance` still finds the first balance as it read it, and both balances it
reads are those after the same transfers, the watched one among them. -/
structure Reads (balance : Account → UInt16) (transfers : Fin n → Transfer) (watched : Fin n)
    (world : World n) : Prop where
  origin_eq : ∀ v, world.check = .readDestination v →
    v = world.balance (transfers watched).origin
  snapshot_after : ∀ v w, world.check.snapshot = some (v, w) →
    ∃ S : Finset (Fin n), watched ∈ S ∧
      After balance transfers S (transfers watched).origin v ∧
      After balance transfers S (transfers watched).destination w

/-- While `check_balance` holds `lock_B`, no transfer is half done. -/
theorem Held.settled (h : Held world) (hcheck : world.check.holdsB = 1) : Settled world := by
  intro t ht
  have hzero := h.tellers_of_check hcheck t
  rw [ht] at hzero
  cases hzero

/-- A transfer that moves a balance holds `lock_B`, so `check_balance` is not between
its two reads. -/
theorem Reads.moveBalance (h : Reads balance transfers watched world) (hheld : Held world)
    {t : Fin n} (ht : (world.tellers t).holdsB = 1) (hcheck : world'.check = world.check) :
    Reads balance transfers watched world' where
  origin_eq v hv := by
    rw [hcheck] at hv
    have hzero := hheld.tellers_of_check (by rw [hv]; rfl) t
    rw [ht] at hzero
    cases hzero
  snapshot_after := by
    rw [hcheck]
    exact h.snapshot_after

/-- A step that changes neither the balances nor the position of `check_balance`. -/
theorem Reads.keep (h : Reads balance transfers watched world)
    (hcheck : world'.check = world.check) (hbalance : world'.balance = world.balance) :
    Reads balance transfers watched world' where
  origin_eq := by
    rw [hcheck, hbalance]
    exact h.origin_eq
  snapshot_after := by
    rw [hcheck]
    exact h.snapshot_after

/-- A step of `check_balance` that reads nothing. -/
theorem Reads.of_check (horigin : ∀ v, world'.check ≠ .readDestination v)
    (hsnapshot : world'.check.snapshot = none) : Reads balance transfers watched world' where
  origin_eq v hv := absurd hv (horigin v)
  snapshot_after v w hvw := by
    rw [hsnapshot] at hvw
    cases hvw

theorem Reads.signal (h : Reads balance transfers watched world)
    (hcheck : world'.check = world.check.signalled) (hbalance : world'.balance = world.balance) :
    Reads balance transfers watched world' := by
  by_cases hasleep : world.check = .asleep
  · rw [hasleep] at hcheck
    exact .of_check (by simp [hcheck, Check.signalled]) (by rw [hcheck]; rfl)
  · refine h.keep (hcheck.trans ?_) hbalance
    unfold Check.signalled
    split
    · exact absurd ‹_› hasleep
    · rfl

theorem Reads.step (h : Reads balance transfers watched world) (hheld : Held world)
    (hbooked : Booked balance transfers world) (hannounced : Announced watched world)
    (hstep : Step transfers watched world e world') : Reads balance transfers watched world' := by
  cases hstep with
  | lockA | lockB | mark | unlockB | unlockA => exact h.keep rfl rfl
  | debit ht => exact h.moveBalance hheld (by rw [ht]; rfl) rfl
  | credit ht => exact h.moveBalance hheld (by rw [ht]; rfl) rfl
  | signal => exact h.signal rfl rfl
  | checkLock | checkWait | checkProceed | spurious =>
    exact .of_check (fun _ => Check.noConfusion) rfl
  | checkOrigin =>
    refine ⟨?_, fun _ _ hnone => by cases hnone⟩
    rintro _ ⟨⟩
    rfl
  | @checkDestination v hcheck =>
    refine ⟨fun _ => Check.noConfusion, ?_⟩
    rintro _ _ ⟨⟩
    have hsettled := hheld.settled (by rw [hcheck]; rfl)
    refine ⟨_, ?_, ?_, hbooked.after hsettled _⟩
    · -- the flag was set, so the watched transfer is past its credit
      have hmarked := hannounced.completed_iff.mp (hannounced.proceeded (by rw [hcheck]; rfl))
      rw [Finset.mem_filter]
      exact ⟨Finset.mem_univ _, Position.credited_of_marked hmarked⟩
    · rw [h.origin_eq v hcheck]
      exact hbooked.after hsettled _
  | checkUnlock hcheck =>
    refine ⟨fun _ => Check.noConfusion, ?_⟩
    rintro _ _ ⟨⟩
    exact h.snapshot_after _ _ (by rw [hcheck]; rfl)

/-- What `check_balance` reads is what some set of whole transfers leaves, the watched
one among them. -/
theorem reads (hcallback : (transfers watched).callback = .transferBToA)
    (hrun : Run (system balance transfers watched) trace world) :
    Reads balance transfers watched world := by
  induction hrun with
  | start hs =>
    cases hs
    exact .of_check (fun _ => Check.noConfusion) rfl
  | step hrun hstep ih => exact ih.step (held hrun) (booked hrun) (announced hcallback hrun) hstep

/-! ### The threads of `main` -/

section Main

variable {amount1 amount2 v w : UInt16} {world : World 2} {trace : Trace (World 2) (Event 2)}

theorem origin_zero : (mainTransfers amount1 amount2 0).origin = .acc1 := rfl

theorem origin_one : (mainTransfers amount1 amount2 1).origin = .acc2 := rfl

theorem destination_zero : (mainTransfers amount1 amount2 0).destination = .acc2 := rfl

theorem destination_one : (mainTransfers amount1 amount2 1).destination = .acc1 := rfl

theorem amount_zero : (mainTransfers amount1 amount2 0).amount = amount1 := rfl

theorem amount_one : (mainTransfers amount1 amount2 1).amount = amount2 := rfl

/-- Congruent sums are equal sums of 16 bits. -/
theorem add_eq_of_modEq {x y a b : UInt16}
    (h : x.toNat + a.toNat ≡ y.toNat + b.toNat [MOD 2 ^ 16]) : x + a = y + b := by
  rw [← UInt16.toNat_inj, UInt16.toNat_add, UInt16.toNat_add]
  exact h

/-- The balances after the second transfer alone. -/
theorem After.second (hv : After balance (mainTransfers amount1 amount2) {1} .acc2 v)
    (hw : After balance (mainTransfers amount1 amount2) {1} .acc1 w) :
    v = balance .acc2 - amount2 ∧ w = balance .acc1 + amount2 := by
  have hv' : v + amount2 = balance .acc2 + 0 := by
    refine add_eq_of_modEq ?_
    simpa [After, Finset.filter_singleton, origin_one, destination_one, amount_one] using hv
  have hw' : w + 0 = balance .acc1 + amount2 := by
    refine add_eq_of_modEq ?_
    simpa [After, Finset.filter_singleton, origin_one, destination_one, amount_one] using hw
  grind

/-- The balances after both transfers. -/
theorem After.both (hv : After balance (mainTransfers amount1 amount2) {0, 1} .acc2 v)
    (hw : After balance (mainTransfers amount1 amount2) {0, 1} .acc1 w) :
    v = balance .acc2 + amount1 - amount2 ∧ w = balance .acc1 - amount1 + amount2 := by
  have hv' : v + amount2 = balance .acc2 + amount1 := by
    refine add_eq_of_modEq ?_
    simpa [After, Finset.filter_insert, Finset.filter_singleton, origin_zero, origin_one,
      destination_zero, destination_one, amount_zero, amount_one] using hv
  have hw' : w + amount1 = balance .acc1 + amount2 := by
    refine add_eq_of_modEq ?_
    simpa [After, Finset.filter_insert, Finset.filter_singleton, origin_zero, origin_one,
      destination_zero, destination_one, amount_zero, amount_one] using hw
  grind

theorem mem_one_cases : ∀ S : Finset (Fin 2), 1 ∈ S → S = {1} ∨ S = {0, 1} := by decide

/-- **The balance check sees a consistent snapshot, and nobody deadlocks.** In every
state of every interleaving of the three threads of `main`, whatever the balances and
the amounts: the two balances that `check_balance` has read add up to the initial sum
modulo `2 ^ 16` and are those after the second transfer, with or without the first; and
some unfinished thread can go on, if there is one. -/
theorem check_consistent
    (hrun : Run (system balance (mainTransfers amount1 amount2) 1) trace world) :
    (∀ origin destination, world.check.snapshot = some (origin, destination) →
      origin + destination = balance .acc2 + balance .acc1 ∧
        (origin = balance .acc2 - amount2 ∧ destination = balance .acc1 + amount2 ∨
          origin = balance .acc2 + amount1 - amount2 ∧
            destination = balance .acc1 - amount1 + amount2)) ∧
      ¬ Deadlocked world := by
  refine ⟨fun v w hsnapshot => ?_, not_deadlocked rfl hrun⟩
  obtain ⟨S, hS, hv, hw⟩ := (reads rfl hrun).snapshot_after v w hsnapshot
  rw [origin_one] at hv
  rw [destination_one] at hw
  rcases mem_one_cases S hS with rfl | rfl
  · obtain ⟨rfl, rfl⟩ := hv.second hw
    exact ⟨by grind, Or.inl ⟨rfl, rfl⟩⟩
  · obtain ⟨rfl, rfl⟩ := hv.both hw
    exact ⟨by grind, Or.inr ⟨rfl, rfl⟩⟩

/-- `main` with the balances 500 and 400: the check falls asleep, is woken by the second
transfer before the first one has started, and reads 100 and 800. -/
theorem check_consistent_main :
    ∃ (trace : Trace (World 2) (Event 2)) (world : World 2),
      Run (system (fun a => if a = .acc1 then 500 else 400) (mainTransfers 250 300) 1)
        trace world ∧
      world.check.snapshot = some (100, 800) ∧ (100 : UInt16) + 800 = 400 + 500 ∧
      ¬ Deadlocked world := by
  have hstart : Run (system (fun a => if a = .acc1 then 500 else 400) (mainTransfers 250 300) 1) []
      (start 2 _) := .start rfl
  have hlock := hstart.step (Step.checkLock rfl rfl)
  have hsleep := hlock.step (Step.checkWait rfl rfl)
  have hlockA := hsleep.step (@Step.lockA _ _ _ _ 1 rfl rfl)
  have hlockB := hlockA.step (@Step.lockB _ _ _ _ 1 rfl rfl)
  have hdebit := hlockB.step (@Step.debit _ _ _ _ 1 rfl)
  have hcredit := hdebit.step (@Step.credit _ _ _ _ 1 rfl)
  have hmark := hcredit.step (@Step.mark _ _ _ _ 1 rfl)
  have hunlockB := hmark.step (@Step.unlockB _ _ _ _ 1 rfl)
  have hunlockA := hunlockB.step (@Step.unlockA _ _ _ _ 1 rfl)
  have hsignal := hunlockA.step (@Step.signal _ _ _ _ 1 rfl)
  have hrelock := hsignal.step (Step.checkLock rfl rfl)
  have hproceed := hrelock.step (Step.checkProceed rfl (by decide))
  have horigin := hproceed.step (Step.checkOrigin rfl)
  have hdestination := horigin.step (Step.checkDestination rfl)
  have hconsistent := check_consistent hdestination
  exact ⟨_, _, hdestination, rfl, (hconsistent.1 100 800 rfl).1, hconsistent.2⟩

end Main

end BareMetal.Accounts
