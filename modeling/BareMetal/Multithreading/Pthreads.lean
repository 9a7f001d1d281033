import BareMetal.CS.CondVar
import BareMetal.CS.Progress
import BareMetal.CS.Tally
import Mathlib.Data.Int.ModEq

/-!
# The balance of `multithreading/pthreads.c`

`increment` adds ten to the balance; the call that finds `MAX_BALANCE` raises the flag
`show_total` and signals once. `show_total` sleeps until the flag is raised and prints the
balance after it has given up the lock.

There is a single signal for each time the balance is `MAX_BALANCE`, whoever sleeps. The
balance has 32 bits, so it is `MAX_BALANCE` once in `2 ^ 31` calls.

## Main results

* `Counted.step`, `Woken.step` — the balance, and the sleepers that the signals have left
* `show_never_hangs_iff` — no interleaving hangs exactly when each `show_total` has a signal
-/

namespace BareMetal.Pthreads

open CS Transition

/-- `MAX_BALANCE`. -/
def maxBalance : UInt32 := 1000

/-- Where `increment` stands. -/
inductive Incrementer
  | start
  | finished
  deriving DecidableEq, Repr

/-- Where `show_total` stands: before a test of the flag, asleep, before it prints, or at the
end. -/
inductive Shower
  | start
  | asleep
  | print
  | finished
  deriving DecidableEq, Repr

/-- `cond`. -/
def cond : CondVar Shower where
  asleep k := decide (k = .asleep)
  woken _ := .start
  not_asleep_woken _ _ := rfl

/-- `Balance`, and the threads. -/
structure World (incrementCount showCount : ℕ) where
  total : UInt32
  showTotal : UInt8
  incrementers : Fin incrementCount → Incrementer
  showers : Fin showCount → Shower

/-- The steps of the threads, with the balance that is printed. -/
inductive Event (incrementCount showCount : ℕ)
  | increment (i : Fin incrementCount)
  | wait (k : Fin showCount)
  | wake (k : Fin showCount)
  | pass (k : Fin showCount)
  | print (k : Fin showCount) (total : UInt32)
  deriving DecidableEq, Repr

variable {incrementCount showCount : ℕ}

/-- One step of the program. -/
inductive Step : World incrementCount showCount → Event incrementCount showCount →
    World incrementCount showCount → Prop
  | increment {world : World incrementCount showCount} {i : Fin incrementCount} :
      world.incrementers i = .start → world.total + 10 ≠ maxBalance →
      Step world (.increment i)
        { world with
          total := world.total + 10
          incrementers := Function.update world.incrementers i .finished }
  | reach {world : World incrementCount showCount} {i : Fin incrementCount}
      {choice : Option (Fin showCount)} :
      world.incrementers i = .start → world.total + 10 = maxBalance →
      cond.CanSignal world.showers choice →
      Step world (.increment i)
        { total := world.total + 10
          showTotal := 1
          incrementers := Function.update world.incrementers i .finished
          showers := cond.signal world.showers choice }
  | wait {world : World incrementCount showCount} {k : Fin showCount} :
      world.showers k = .start → world.showTotal = 0 →
      Step world (.wait k) { world with showers := Function.update world.showers k .asleep }
  | wake {world : World incrementCount showCount} {k : Fin showCount} :
      world.showers k = .asleep →
      Step world (.wake k) { world with showers := Function.update world.showers k .start }
  | pass {world : World incrementCount showCount} {k : Fin showCount} :
      world.showers k = .start → world.showTotal ≠ 0 →
      Step world (.pass k) { world with showers := Function.update world.showers k .print }
  | print {world : World incrementCount showCount} {k : Fin showCount} :
      world.showers k = .print →
      Step world (.print k world.total)
        { world with showers := Function.update world.showers k .finished }

/-- `init`, and threads that have not begun. -/
def init (incrementCount showCount : ℕ) : World incrementCount showCount :=
  ⟨0, 0, fun _ => .start, fun _ => .start⟩

/-- Any number of threads of each kind. -/
def system (incrementCount showCount : ℕ) :
    System (World incrementCount showCount) (Event incrementCount showCount) where
  start world := world = init incrementCount showCount
  step := Step

variable {world world' : World incrementCount showCount} {e : Event incrementCount showCount}
  {trace : Trace (World incrementCount showCount) (Event incrementCount showCount)}

/-- The steps that a thread takes without luck. -/
def Driven : Event incrementCount showCount → Prop
  | .wake _ => False
  | _ => True

/-- All threads have returned. -/
def Finished (world : World incrementCount showCount) : Prop :=
  (∀ i, world.incrementers i = .finished) ∧ ∀ k, world.showers k = .finished

/-! ### The balance -/

def Incrementer.done : Incrementer → ℕ
  | .start => 0
  | .finished => 1

/-- The calls of `increment` so far. -/
def World.added (world : World incrementCount showCount) : ℕ :=
  tally (fun _ => Incrementer.done) world.incrementers

/-- How often the balance has been `MAX_BALANCE` after some calls. -/
def hits : ℕ → ℕ
  | 0 => 0
  | n + 1 => hits n + if UInt32.ofNat (10 * (n + 1)) = maxBalance then 1 else 0

/-- The balance is `MAX_BALANCE` after `100` calls, and again whenever it has wrapped around. -/
theorem hit_iff (n : ℕ) : UInt32.ofNat (10 * n) = maxBalance ↔ n ≡ 100 [MOD 2147483648] := by
  have hmod : UInt32.ofNat (10 * n) = maxBalance ↔ 10 * n ≡ 10 * 100 [MOD 4294967296] := by
    rw [← UInt32.toNat_inj, UInt32.toNat_ofNat']
    exact Iff.rfl
  rw [hmod]
  constructor
  · intro h
    have hcancel := h.cancel_left_div_gcd (by decide)
    rwa [show 4294967296 / Nat.gcd 4294967296 10 = 2147483648 by decide] at hcancel
  · intro h
    exact (h.mul_left' 10).of_dvd (by decide)

theorem hits_eq (n : ℕ) : hits n = (n + 2147483548) / 2147483648 := by
  induction n with
  | zero =>
    rw [hits, Nat.zero_add, Nat.div_eq_of_lt (by omega)]
  | succ n ih =>
    have hdvd : n + 1 ≡ 100 [MOD 2147483648] ↔ 2147483648 ∣ n + 2147483548 + 1 := by
      rw [Nat.ModEq, Nat.dvd_iff_mod_eq_zero]
      omega
    have hdiv : (n + 2147483548 + 1) / 2147483648 = (n + 2147483548) / 2147483648 +
        if 2147483648 ∣ n + 2147483548 + 1 then 1 else 0 := Nat.succ_div
    rw [hits, ih, Nat.add_right_comm, hdiv, if_congr ((hit_iff (n + 1)).trans hdvd) rfl rfl]

/-- The balance is ten times the number of calls, in 32 bits, and the flag tells whether it has
been `MAX_BALANCE`. -/
structure Counted (world : World incrementCount showCount) : Prop where
  total_eq : world.total = UInt32.ofNat (10 * world.added)
  showTotal_iff : world.showTotal = 0 ↔ hits world.added = 0

theorem total_succ {n : ℕ} {total : UInt32} (h : total = UInt32.ofNat (10 * n)) :
    total + 10 = UInt32.ofNat (10 * (n + 1)) := by
  rw [h, Nat.mul_succ, UInt32.ofNat_add]
  rfl

theorem added_increment {i : Fin incrementCount} (hi : world.incrementers i = .start)
    {total : UInt32} {showTotal : UInt8} {showers : Fin showCount → Shower} :
    World.added ⟨total, showTotal, Function.update world.incrementers i .finished, showers⟩ =
      world.added + 1 :=
  tally_move (fun _ => Incrementer.done) hi .finished

theorem hits_reach {n : ℕ} (h : UInt32.ofNat (10 * (n + 1)) = maxBalance) :
    hits (n + 1) = hits n + 1 := by
  rw [hits, if_pos h]

theorem hits_increment {n : ℕ} (h : UInt32.ofNat (10 * (n + 1)) ≠ maxBalance) :
    hits (n + 1) = hits n := by
  rw [hits, if_neg h, Nat.add_zero]

theorem Counted.step (h : Counted world) (hstep : Step world e world') : Counted world' := by
  have htotal := total_succ h.total_eq
  cases hstep with
  | increment hi hne =>
    rw [htotal] at hne
    refine ⟨?_, ?_⟩
    · rw [added_increment hi, ← htotal]
    · rw [added_increment hi, hits_increment hne]
      exact h.showTotal_iff
  | @reach i choice hi heq =>
    rw [htotal] at heq
    refine ⟨?_, iff_of_false nofun ?_⟩
    · rw [added_increment hi, ← htotal]
    · rw [added_increment hi, hits_reach heq]
      exact Nat.succ_ne_zero _
  | wait | wake | pass | print => exact ⟨h.total_eq, h.showTotal_iff⟩

theorem counted (hrun : Run (system incrementCount showCount) trace world) : Counted world := by
  refine Run.invariant (I := fun _ => Counted) ?_ (fun _ _ _ _ h hstep => h.step hstep) hrun
  rintro _ rfl
  have hadded : (init incrementCount showCount).added = 0 := tally_eq_zero fun _ => rfl
  refine ⟨?_, ?_⟩
  · rw [hadded]
    rfl
  · rw [hadded]
    exact iff_of_true rfl rfl

/-! ### The sleepers -/

/-- The `show_total` calls that sleep. -/
def World.sleepers (world : World incrementCount showCount) : ℕ := countAt .asleep world.showers

/-- Each signal has woken a sleeper, if there was one, and once the flag is raised nobody falls
asleep any more. -/
def Woken (world : World incrementCount showCount) : Prop :=
  world.showTotal ≠ 0 → world.sleepers = 0 ∨ world.sleepers + hits world.added ≤ showCount

theorem sleepers_move {k : Fin showCount} {p : Shower} (hk : world.showers k = p) (p' : Shower) :
    World.sleepers { world with showers := Function.update world.showers k p' } +
        (if p = .asleep then 1 else 0) =
      world.sleepers + if p' = .asleep then 1 else 0 :=
  countAt_move hk p' .asleep

/-- A signal wakes one sleeper, unless there is none. -/
theorem sleepers_signal {choice : Option (Fin showCount)}
    (h : cond.CanSignal world.showers choice) :
    countAt .asleep (cond.signal world.showers choice) = 0 ∧ world.sleepers = 0 ∨
      countAt .asleep (cond.signal world.showers choice) + 1 = world.sleepers := by
  cases choice with
  | none =>
    have hzero : world.sleepers = 0 :=
      countAt_eq_zero_iff.mpr fun k => of_decide_eq_false (h k)
    exact Or.inl ⟨hzero, hzero⟩
  | some k =>
    have hk : world.showers k = .asleep := of_decide_eq_true h
    have hmove := countAt_move hk (cond.woken (world.showers k)) .asleep
    exact Or.inr hmove

theorem sleepers_le (world : World incrementCount showCount) : world.sleepers ≤ showCount := by
  have hle : countAt .asleep world.showers ≤ Fintype.card (Fin showCount) * 1 := by
    refine tally_le fun k => ?_
    split_ifs <;> decide
  rwa [Fintype.card_fin, Nat.mul_one] at hle

theorem Woken.step (h : Woken world) (hcounted : Counted world) (hstep : Step world e world') :
    Woken world' := by
  cases hstep with
  | increment hi hne =>
    rw [total_succ hcounted.total_eq] at hne
    unfold Woken at *
    rw [added_increment hi, hits_increment hne]
    exact h
  | @reach i choice hi heq hsignal =>
    rw [total_succ hcounted.total_eq] at heq
    intro _
    rw [added_increment hi, hits_reach heq]
    have hle := sleepers_le world
    have hwoken := sleepers_signal hsignal
    change countAt .asleep (cond.signal world.showers choice) = 0 ∨
      countAt .asleep (cond.signal world.showers choice) + (hits world.added + 1) ≤ showCount
    by_cases hflag : world.showTotal = 0
    · have hnone := hcounted.showTotal_iff.mp hflag
      omega
    · have hold := h hflag
      omega
  | wait _ hflag => exact fun hraised => absurd hflag hraised
  | wake hk =>
    intro hraised
    have hold := h hraised
    have hmove := sleepers_move hk .start
    simp only [reduceCtorEq, if_true, if_false] at hmove
    change _ ∨ _ + hits world.added ≤ showCount
    omega
  | pass hk =>
    intro hraised
    have hold := h hraised
    have hmove := sleepers_move hk .print
    simp only [reduceCtorEq, if_false] at hmove
    change _ ∨ _ + hits world.added ≤ showCount
    omega
  | print hk =>
    intro hraised
    have hold := h hraised
    have hmove := sleepers_move hk .finished
    simp only [reduceCtorEq, if_false] at hmove
    change _ ∨ _ + hits world.added ≤ showCount
    omega

theorem woken (hrun : Run (system incrementCount showCount) trace world) : Woken world := by
  refine hrun.keeps (C := fun _ _ => True) ?_
    (fun _ _ _ _ hrun h _ hstep => h.step (counted hrun) hstep) fun _ _ _ => trivial
  rintro _ rfl
  exact fun hraised => absurd rfl hraised

/-! ### Runs that come to rest -/

/-- What a call of `increment` has before it: its signal may bring a sleeper back to its test. -/
def Incrementer.left : Incrementer → ℕ
  | .start => 2
  | .finished => 0

def Shower.left : Shower → ℕ
  | .start => 3
  | .asleep => 2
  | .print => 1
  | .finished => 0

def World.left (world : World incrementCount showCount) : ℕ :=
  tally (fun _ => Incrementer.left) world.incrementers + tally (fun _ => Shower.left) world.showers

theorem left_signal {choice : Option (Fin showCount)} (h : cond.CanSignal world.showers choice) :
    tally (fun _ => Shower.left) (cond.signal world.showers choice) ≤
      tally (fun _ => Shower.left) world.showers + 1 := by
  cases choice with
  | none => exact Nat.le_succ _
  | some k =>
    have hk : world.showers k = .asleep := of_decide_eq_true h
    have hmove := tally_move (fun _ => Shower.left) hk .start
    simp only [Shower.left] at hmove
    change tally _ (Function.update world.showers k .start) ≤ _
    omega

theorem left_lt (hdriven : Driven e) (hstep : Step world e world') :
    world'.left < world.left := by
  unfold World.left
  cases hstep with
  | increment hi =>
    have hmove := tally_move (fun _ => Incrementer.left) hi .finished
    simp only [Incrementer.left] at hmove
    dsimp only
    omega
  | reach hi _ hsignal =>
    have hmove := tally_move (fun _ => Incrementer.left) hi .finished
    have hwoken := left_signal hsignal
    simp only [Incrementer.left] at hmove
    dsimp only
    omega
  | wait hk =>
    have hmove := tally_move (fun _ => Shower.left) hk .asleep
    simp only [Shower.left] at hmove
    dsimp only
    omega
  | wake => exact hdriven.elim
  | pass hk =>
    have hmove := tally_move (fun _ => Shower.left) hk .print
    simp only [Shower.left] at hmove
    dsimp only
    omega
  | print hk =>
    have hmove := tally_move (fun _ => Shower.left) hk .finished
    simp only [Shower.left] at hmove
    dsimp only
    omega

/-- At rest, all calls of `increment` have returned, and the others sleep or have returned. -/
structure AtRest (world : World incrementCount showCount) : Prop where
  incrementer : ∀ i, world.incrementers i = .finished
  shower : ∀ k, world.showers k = .asleep ∨ world.showers k = .finished

theorem atRest (hstuck : ((system incrementCount showCount).restrict Driven).Stuck world) :
    AtRest world := by
  constructor
  · intro i
    cases hi : world.incrementers i with
    | start =>
      by_cases htotal : world.total + 10 = maxBalance
      · obtain ⟨choice, hsignal⟩ := cond.exists_canSignal world.showers
        exact (hstuck.elim (.reach hi htotal hsignal) trivial).elim
      · exact (hstuck.elim (.increment hi htotal) trivial).elim
    | finished => rfl
  · intro k
    cases hk : world.showers k with
    | start =>
      by_cases hflag : world.showTotal = 0
      · exact (hstuck.elim (.wait hk hflag) trivial).elim
      · exact (hstuck.elim (.pass hk hflag) trivial).elim
    | asleep => exact Or.inl rfl
    | print => exact (hstuck.elim (.print hk) trivial).elim
    | finished => exact Or.inr rfl

theorem AtRest.added_eq (h : AtRest world) : world.added = incrementCount := by
  have hall : tally (fun _ => Incrementer.done) world.incrementers =
      Fintype.card (Fin incrementCount) * 1 :=
    tally_eq_card_mul fun i => by rw [h.incrementer i, Incrementer.done]
  rwa [Fintype.card_fin, Nat.mul_one] at hall

theorem AtRest.finished_iff (h : AtRest world) : Finished world ↔ world.sleepers = 0 := by
  have hnone : world.sleepers = 0 ↔ ∀ k, world.showers k ≠ .asleep := countAt_eq_zero_iff
  rw [hnone]
  constructor
  · intro hfinished k hk
    cases hk.symm.trans (hfinished.2 k)
  · exact fun hawake => ⟨h.incrementer, fun k => (h.shower k).resolve_left (hawake k)⟩

/-- Where each `show_total` has a signal, nobody sleeps at rest. -/
theorem AtRest.sleepers_eq_zero (h : AtRest world) (hcounted : Counted world) (hwoken : Woken world)
    (hcount : showCount ≤ hits incrementCount) : world.sleepers = 0 := by
  have hle := sleepers_le world
  have hadded := h.added_eq
  by_cases hflag : world.showTotal = 0
  · have hnone := hcounted.showTotal_iff.mp hflag
    rw [hadded] at hnone
    omega
  · have hold := hwoken hflag
    rw [hadded] at hold
    omega

/-! ### Runs that hang -/

/-- Only `show_total` runs, as far as its first sleep. -/
def Waiting : Event incrementCount showCount → Prop
  | .wait _ => True
  | _ => False

/-- Everybody can fall asleep before the first increment. -/
theorem exists_all_asleep (incrementCount showCount : ℕ) :
    ∃ (trace : Trace (World incrementCount showCount) (Event incrementCount showCount))
      (world : World incrementCount showCount),
      Run (system incrementCount showCount) trace world ∧ world.sleepers = showCount := by
  have hlowers :
      ((system incrementCount showCount).restrict Waiting).Lowers Waiting World.left := by
    rintro trace world e world' - - ⟨hwaiting, hstep⟩
    refine left_lt ?_ hstep
    cases e with
    | wake => exact hwaiting
    | _ => trivial
  have hstart : Run ((system incrementCount showCount).restrict Waiting) []
    (init incrementCount showCount) := .start rfl
  obtain ⟨rest, world, hrun, hstuck⟩ := hstart.exists_stuck hlowers
  have hasleep : world.showTotal = 0 ∧
      ∀ k, world.showers k = .start ∨ world.showers k = .asleep := by
    refine Run.invariant (I := fun _ (world : World incrementCount showCount) =>
      world.showTotal = 0 ∧ ∀ k, world.showers k = .start ∨ world.showers k = .asleep) ?_ ?_ hrun
    · rintro _ rfl
      exact ⟨rfl, fun _ => Or.inl rfl⟩
    · rintro _ v e v' ⟨hflag, hall⟩ ⟨hwaiting, hstep⟩
      cases hstep with
      | @wait k hk =>
        exact ⟨hflag, forall_move (P := fun _ p => p = Shower.start ∨ p = .asleep) hall k
          (Or.inr rfl)⟩
      | increment | reach | wake | pass | print => exact hwaiting.elim
  refine ⟨_, world, hrun.of_restrict, ?_⟩
  have hall : countAt .asleep world.showers = Fintype.card (Fin showCount) := by
    refine countAt_eq_card_iff.mpr fun k => (hasleep.2 k).resolve_left fun hk => ?_
    have hwaiting : Waiting (.wait k : Event incrementCount showCount) := trivial
    exact hstuck _ _ ⟨hwaiting, hwaiting, .wait hk hasleep.1⟩
  rwa [Fintype.card_fin] at hall

/-- From then on there is a sleeper for each `show_total` that has had no signal. -/
theorem le_sleepers {s : World incrementCount showCount}
    (hrun : Run (system incrementCount showCount) trace s) (hs : s.sleepers = showCount)
    {rest : Trace (World incrementCount showCount) (Event incrementCount showCount)}
    (hrest : Run (((system incrementCount showCount).restrict Driven).startAt s) rest world) :
    showCount ≤ world.sleepers + hits world.added := by
  refine Run.keeps (I := fun world : World incrementCount showCount =>
    showCount ≤ world.sleepers + hits world.added) (C := fun _ _ => True) ?_ ?_ hrest
    fun _ _ _ => trivial
  · rintro _ rfl
    omega
  · rintro rest v e v' hrest h - ⟨hdriven, hstep⟩
    have hcounted : Counted v := counted (hrun.append (Run.of_restrict (p := Driven) hrest))
    cases hstep with
    | increment hi hne =>
      rw [total_succ hcounted.total_eq] at hne
      rw [added_increment hi, hits_increment hne]
      exact h
    | @reach i choice hi heq hsignal =>
      rw [total_succ hcounted.total_eq] at heq
      rw [added_increment hi, hits_reach heq]
      have hwoken := sleepers_signal hsignal
      change showCount ≤ countAt .asleep (cond.signal v.showers choice) + _
      omega
    | wait hk =>
      have hmove := sleepers_move hk .asleep
      simp only [reduceCtorEq, if_true, if_false] at hmove
      change showCount ≤ _ + hits v.added
      omega
    | wake => exact hdriven.elim
    | pass hk =>
      have hmove := sleepers_move hk .print
      simp only [reduceCtorEq, if_false] at hmove
      change showCount ≤ _ + hits v.added
      omega
    | print hk =>
      have hmove := sleepers_move hk .finished
      simp only [reduceCtorEq, if_false] at hmove
      change showCount ≤ _ + hits v.added
      omega

/-- **When `show_total` never hangs**, if a sleeper wakes only when it is signalled: the steps of
the threads come to an end, and no interleaving ends with a sleeper exactly when there are no
more calls of `show_total` than times that the balance is `MAX_BALANCE`. At rest the balance
is ten times the number of increments, in 32 bits. -/
theorem show_never_hangs_iff (incrementCount showCount : ℕ) :
    (system incrementCount showCount).Lowers Driven World.left ∧
      ((system incrementCount showCount).NeverHangs Driven Finished ↔
        showCount ≤ (incrementCount + 2147483548) / 2147483648) ∧
      (system incrementCount showCount).NeverHangs Driven
        fun world => world.total = UInt32.ofNat (10 * incrementCount) := by
  refine ⟨fun _ _ _ _ _ => left_lt, ?_, fun trace world hrun hstuck => ?_⟩
  · rw [← hits_eq]
    constructor
    · intro hnever
      obtain ⟨trace, s, hrun, hs⟩ := exists_all_asleep incrementCount showCount
      have hlowers : (((system incrementCount showCount).restrict Driven).startAt s).Lowers Driven
          World.left := fun _ _ _ _ _ hdriven hstep => left_lt hdriven hstep.2
      have hstart : Run (((system incrementCount showCount).restrict Driven).startAt s) [] s :=
        .start rfl
      obtain ⟨rest, world, hrest, hstuck⟩ := hstart.exists_stuck hlowers
      have hstuck' : ((system incrementCount showCount).restrict Driven).Stuck world :=
        fun e world' hstep => hstuck e world' ⟨hstep.1, hstep⟩
      have hend := hnever _ world (hrun.append (Run.of_restrict (p := Driven) hrest)) hstuck'
      have hle := le_sleepers hrun hs hrest
      rw [(atRest hstuck').finished_iff.mp hend, (atRest hstuck').added_eq] at hle
      omega
    · intro hcount trace world hrun hstuck
      have hrest := atRest hstuck
      exact hrest.finished_iff.mpr (hrest.sleepers_eq_zero (counted hrun) (woken hrun) hcount)
  · dsimp only
    rw [(counted hrun).total_eq, (atRest hstuck).added_eq]

end BareMetal.Pthreads
