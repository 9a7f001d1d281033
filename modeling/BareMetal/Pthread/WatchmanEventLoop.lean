import BareMetal.CS.Progress
import BareMetal.CS.Tally

/-!
# The watchman of `pthread/watchman_event_loop.c`

A sensor counts `alarm_triggered` up and signals; the watchman sleeps as long as the count is
zero, sounds the alarm when it is one, and takes anything else for a false alarm, which ends the
program. The count has 8 bits, so it is zero again after `256` sensors.

A section between lock and unlock is one step, a signal comes after the lock is released, and
the watchman may also wake by itself.

## Main results

* `Counted.step`, `awaited_of_step` — the count is that of the sensors, and a watchman who sleeps
  on a count that is not zero has a signal to come
* `watchman_iff` — when the watchman can hang, and when the alarm is always sounded
-/

namespace BareMetal.WatchmanEventLoop

open CS Transition

/-- Where a sensor stands: before its section, before its signal with the state that it has
read, or at the end. -/
inductive Sensor
  | start
  | signal (currentState : UInt8)
  | finished
  deriving DecidableEq, Repr

/-- Where the watchman stands: before a test, asleep, or with a verdict. A false alarm is the
end of the program. -/
inductive Watchman
  | ready
  | asleep
  | sounded
  | exited
  deriving DecidableEq, Repr

/-- A signal on `alert_cond`. -/
def Watchman.signalled : Watchman → Watchman
  | .asleep => .ready
  | k => k

/-- The shared count and the threads. -/
structure World (sensorCount : ℕ) where
  alarmTriggered : UInt8
  sensors : Fin sensorCount → Sensor
  watchman : Watchman

/-- The steps of the threads. After its signal a sensor reports whether the alarm is on. -/
inductive Event (sensorCount : ℕ)
  | trigger (i : Fin sensorCount)
  | signal (i : Fin sensorCount) (alarmOn : Bool)
  | wait
  | wake
  | soundAlarm
  | falseAlarm
  deriving DecidableEq, Repr

/-- One step of the program, which goes on until there is a false alarm. -/
inductive Step {sensorCount : ℕ} : World sensorCount → Event sensorCount → World sensorCount → Prop
  | trigger {world : World sensorCount} {i : Fin sensorCount} :
      world.watchman ≠ .exited → world.sensors i = .start →
      Step world (.trigger i)
        { world with
          alarmTriggered := world.alarmTriggered + 1
          sensors := Function.update world.sensors i (.signal (world.alarmTriggered + 1)) }
  | signal {world : World sensorCount} {i : Fin sensorCount} {currentState : UInt8} :
      world.watchman ≠ .exited → world.sensors i = .signal currentState →
      Step world (.signal i (decide (currentState = 1)))
        { world with
          sensors := Function.update world.sensors i .finished
          watchman := world.watchman.signalled }
  | wait {world : World sensorCount} :
      world.watchman = .ready → world.alarmTriggered = 0 →
      Step world .wait { world with watchman := .asleep }
  | wake {world : World sensorCount} :
      world.watchman = .asleep → Step world .wake { world with watchman := .ready }
  | soundAlarm {world : World sensorCount} :
      world.watchman = .ready → world.alarmTriggered = 1 →
      Step world .soundAlarm { world with watchman := .sounded }
  | falseAlarm {world : World sensorCount} :
      world.watchman = .ready → world.alarmTriggered ≠ 0 → world.alarmTriggered ≠ 1 →
      Step world .falseAlarm { world with watchman := .exited }

/-- The threads of `main`, with any number of sensors. -/
def system (sensorCount : ℕ) : System (World sensorCount) (Event sensorCount) where
  start world := world = ⟨0, fun _ => .start, .ready⟩
  step := Step

variable {sensorCount : ℕ} {world world' : World sensorCount} {e : Event sensorCount}
  {trace : Trace (World sensorCount) (Event sensorCount)} {i : Fin sensorCount}

/-- The threads return the address of the count, and `assert` adds up what it finds there. -/
def assertSucceeds (world : World sensorCount) : Bool :=
  decide (world.alarmTriggered.toNat + world.alarmTriggered.toNat = 2)

/-- The steps that a thread takes without luck. -/
def Driven : Event sensorCount → Prop
  | .wake => False
  | _ => True

/-- The watchman has come to a verdict, and nobody is left. -/
def Ended (world : World sensorCount) : Prop :=
  world.watchman = .exited ∨ world.watchman = .sounded ∧ ∀ i, world.sensors i = .finished

/-- The alarm was sounded, and `main` reports success. -/
def Success (world : World sensorCount) : Prop :=
  world.watchman = .sounded ∧ (∀ i, world.sensors i = .finished) ∧ assertSucceeds world = true

/-! ### The count -/

/-- A sensor that has counted. -/
def Sensor.counted : Sensor → ℕ
  | .start => 0
  | .signal _ | .finished => 1

theorem Sensor.counted_le (k : Sensor) : k.counted ≤ 1 := by
  cases k with
  | start => exact Nat.zero_le _
  | signal | finished => exact Nat.le_refl _

/-- The count is the number of sensors that have counted, in 8 bits. -/
def Counted (world : World sensorCount) : Prop :=
  world.alarmTriggered = UInt8.ofNat (tally (fun _ => Sensor.counted) world.sensors)

theorem Counted.step (h : Counted world) (hstep : Step world e world') : Counted world' := by
  unfold Counted at *
  cases hstep with
  | trigger _ hi =>
    have hmove := tally_move (fun _ => Sensor.counted) hi (.signal (world.alarmTriggered + 1))
    simp only [Sensor.counted, Nat.add_zero] at hmove
    dsimp only
    rw [hmove, UInt8.ofNat_add, ← h]
    rfl
  | signal _ hi =>
    have hmove : tally (fun _ => Sensor.counted) (Function.update world.sensors _ .finished) =
        tally (fun _ => Sensor.counted) world.sensors := tally_move_eq hi rfl
    rw [hmove]
    exact h
  | wait | wake | soundAlarm | falseAlarm => exact h

theorem counted (hrun : Run (system sensorCount) trace world) : Counted world := by
  refine Run.invariant (I := fun _ => Counted) ?_ (fun _ _ _ _ h hstep => h.step hstep) hrun
  rintro _ rfl
  exact (congrArg UInt8.ofNat (tally_eq_zero fun _ => rfl)).symm

/-- When all sensors are done, the count is their number. -/
theorem Counted.eq_ofNat (h : Counted world) (hall : ∀ i, world.sensors i = .finished) :
    world.alarmTriggered = UInt8.ofNat sensorCount := by
  have htally : tally (fun _ => Sensor.counted) world.sensors = sensorCount * 1 := by
    rw [tally_eq_card_mul fun i => by rw [hall i, Sensor.counted], Fintype.card_fin]
  rw [h, htally, Nat.mul_one]

theorem ofNat_eq_zero_iff (n : ℕ) : UInt8.ofNat n = 0 ↔ 256 ∣ n := by
  rw [← UInt8.toNat_inj, UInt8.toNat_ofNat']
  exact Nat.dvd_iff_mod_eq_zero.symm

/-! ### The watchman's sleep -/

/-- A sensor before its signal. -/
def Sensor.Signalling : Sensor → Prop
  | .signal _ => True
  | _ => False

/-- Who sleeps has found the count at zero, or will be signalled. -/
def Awaited (world : World sensorCount) : Prop :=
  world.watchman = .asleep → world.alarmTriggered ≠ 0 → ∃ i, (world.sensors i).Signalling

theorem Watchman.signalled_ne_asleep (k : Watchman) : k.signalled ≠ .asleep := by
  cases k <;> decide

theorem awaited_of_step (hstep : Step world e world') : Awaited world' := by
  cases hstep with
  | trigger => exact fun _ _ => exists_move Sensor.Signalling trivial
  | signal => exact fun hasleep => absurd hasleep world.watchman.signalled_ne_asleep
  | wait _ hzero => exact fun _ hne => absurd hzero hne
  | wake => exact nofun
  | soundAlarm => exact nofun
  | falseAlarm => exact nofun

theorem awaited (hrun : Run (system sensorCount) trace world) : Awaited world := by
  cases hrun with
  | start hstart =>
    obtain rfl := hstart
    exact nofun
  | step _ hstep => exact awaited_of_step hstep

/-! ### Runs that come to rest -/

/-- What a sensor has before it: its signal may bring the watchman back to its test. -/
def Sensor.left : Sensor → ℕ
  | .start => 3
  | .signal _ => 2
  | .finished => 0

def Watchman.left : Watchman → ℕ
  | .ready => 2
  | .asleep => 1
  | .sounded | .exited => 0

def World.left (world : World sensorCount) : ℕ :=
  tally (fun _ => Sensor.left) world.sensors + world.watchman.left

theorem Watchman.left_signalled (k : Watchman) : k.signalled.left ≤ k.left + 1 := by
  cases k <;> decide

theorem left_lt (hdriven : Driven e) (hstep : Step world e world') :
    world'.left < world.left := by
  unfold World.left
  cases hstep with
  | trigger _ hi =>
    have hmove := tally_move (fun _ => Sensor.left) hi (.signal (world.alarmTriggered + 1))
    simp only [Sensor.left] at hmove
    dsimp only
    omega
  | signal _ hi =>
    have hmove := tally_move (fun _ => Sensor.left) hi .finished
    have hwoken := world.watchman.left_signalled
    simp only [Sensor.left] at hmove
    dsimp only
    omega
  | wait hready =>
    simp only [hready, Watchman.left]
    omega
  | wake => exact hdriven.elim
  | soundAlarm hready =>
    simp only [hready, Watchman.left]
    omega
  | falseAlarm hready =>
    simp only [hready, Watchman.left]
    omega

/-- At rest the program has ended, or the sensors are done and the watchman sleeps or has
sounded the alarm. -/
theorem atRest (hstuck : ((system sensorCount).restrict Driven).Stuck world) :
    world.watchman = .exited ∨ (∀ i, world.sensors i = .finished) ∧
      (world.watchman = .asleep ∨ world.watchman = .sounded) := by
  rcases eq_or_ne world.watchman .exited with hexited | hlive
  · exact Or.inl hexited
  refine Or.inr ⟨fun i => ?_, ?_⟩
  · cases hi : world.sensors i with
    | start => exact (hstuck.elim (.trigger hlive hi) trivial).elim
    | signal => exact (hstuck.elim (.signal hlive hi) trivial).elim
    | finished => rfl
  · cases hk : world.watchman with
    | ready =>
      by_cases hzero : world.alarmTriggered = 0
      · exact (hstuck.elim (.wait hk hzero) trivial).elim
      by_cases hone : world.alarmTriggered = 1
      · exact (hstuck.elim (.soundAlarm hk hone) trivial).elim
      · exact (hstuck.elim (.falseAlarm hk hzero hone) trivial).elim
    | asleep => exact Or.inl rfl
    | sounded => exact Or.inr rfl
    | exited => exact absurd hk hlive

/-- At rest with a count that is not zero, the watchman has come to a verdict. -/
theorem ended_of_ne_zero (hrun : Run (system sensorCount) trace world)
    (hstuck : ((system sensorCount).restrict Driven).Stuck world)
    (hcount : ¬ 256 ∣ sensorCount) : Ended world := by
  rcases atRest hstuck with hexited | ⟨hsensors, hasleep | hsounded⟩
  · exact Or.inl hexited
  · have hne : world.alarmTriggered ≠ 0 := by
      rw [(counted hrun).eq_ofNat hsensors]
      exact fun hzero => hcount ((ofNat_eq_zero_iff sensorCount).mp hzero)
    obtain ⟨i, hi⟩ := awaited hrun hasleep hne
    rw [hsensors i] at hi
    exact hi.elim
  · exact Or.inr ⟨hsounded, hsensors⟩

/-! ### Runs without a verdict -/

/-- The sensors come before the watchman has tested anything. -/
def Sensing : Event sensorCount → Prop
  | .trigger _ | .signal _ _ => True
  | _ => False

theorem ready_of_sensing (hrun : Run ((system sensorCount).restrict Sensing) trace world) :
    world.watchman = .ready := by
  refine Run.invariant (I := fun _ (world : World sensorCount) => world.watchman = .ready) ?_ ?_
    hrun
  · rintro _ rfl
    rfl
  · rintro _ v e v' hready ⟨hsensing, hstep⟩
    cases hstep with
    | trigger => exact hready
    | signal =>
      dsimp only
      rw [hready]
      rfl
    | wait | wake | soundAlarm | falseAlarm => exact hsensing.elim

/-- All sensors can be done before the watchman begins. -/
theorem exists_sensors_first (sensorCount : ℕ) :
    ∃ (trace : Trace (World sensorCount) (Event sensorCount)) (world : World sensorCount),
      Run (system sensorCount) trace world ∧ (∀ i, world.sensors i = .finished) ∧
        world.watchman = .ready := by
  have hlowers : ((system sensorCount).restrict Sensing).Lowers Sensing World.left := by
    rintro trace world e world' - - ⟨hsensing, hstep⟩
    refine left_lt ?_ hstep
    cases e with
    | wake => exact hsensing
    | _ => trivial
  have hstart : Run ((system sensorCount).restrict Sensing) [] ⟨0, fun _ => .start, .ready⟩ :=
    .start rfl
  obtain ⟨rest, world, hrun, hstuck⟩ := hstart.exists_stuck hlowers
  have hready := ready_of_sensing hrun
  have hlive : world.watchman ≠ .exited := by
    rw [hready]
    exact nofun
  refine ⟨_, world, hrun.of_restrict, fun i => ?_, hready⟩
  cases hi : world.sensors i with
  | start =>
    have hsensing : Sensing (.trigger i) := trivial
    exact (hstuck _ _ ⟨hsensing, hsensing, .trigger hlive hi⟩).elim
  | signal currentState =>
    have hsensing : Sensing (.signal i (decide (currentState = 1))) := trivial
    exact (hstuck _ _ ⟨hsensing, hsensing, .signal hlive hi⟩).elim
  | finished => rfl

/-- A count that has wrapped around to zero sends the watchman to sleep for ever. -/
theorem exists_hang (hcount : 256 ∣ sensorCount) :
    ∃ (trace : Trace (World sensorCount) (Event sensorCount)) (world : World sensorCount),
      Run (system sensorCount) trace world ∧
        ((system sensorCount).restrict Driven).Stuck world ∧ world.watchman = .asleep := by
  obtain ⟨trace, world, hrun, hsensors, hready⟩ := exists_sensors_first sensorCount
  have hzero : world.alarmTriggered = 0 := by
    rw [(counted hrun).eq_ofNat hsensors]
    exact (ofNat_eq_zero_iff sensorCount).mpr hcount
  refine ⟨_, _, hrun.step (.wait hready hzero), ?_, rfl⟩
  rintro e world' ⟨hdriven, hstep⟩
  cases hstep with
  | trigger _ hi => cases hi.symm.trans (hsensors _)
  | signal _ hi => cases hi.symm.trans (hsensors _)
  | wait hk | soundAlarm hk | falseAlarm hk => cases hk
  | wake => exact hdriven

/-- Two sensors that come before the watchman make a false alarm. -/
theorem exists_falseAlarm (hcount : 2 ≤ sensorCount) :
    ∃ (trace : Trace (World sensorCount) (Event sensorCount)) (world : World sensorCount),
      Run (system sensorCount) trace world ∧ world.watchman = .exited := by
  let first : Fin sensorCount := ⟨0, by omega⟩
  let second : Fin sensorCount := ⟨1, by omega⟩
  have hne : second ≠ first := by simp [first, second]
  have hstart : Run (system sensorCount) [] ⟨0, fun _ => .start, .ready⟩ := .start rfl
  have hfirst := hstart.step (.trigger (i := first) nofun rfl)
  have hwaits : Function.update (fun _ => Sensor.start) first (.signal (0 + 1)) second = .start :=
    Function.update_of_ne hne _ _
  have hsecond := hfirst.step (.trigger (i := second) nofun hwaits)
  have hfalse := hsecond.step (.falseAlarm rfl (by dsimp only; decide) (by dsimp only; decide))
  exact ⟨_, _, hfalse, rfl⟩

/-- A program that has ended with a false alarm is at rest. -/
theorem stuck_of_exited (hexited : world.watchman = .exited) :
    ((system sensorCount).restrict Driven).Stuck world := by
  rintro e world' ⟨-, hstep⟩
  cases hstep with
  | trigger hlive => exact hlive hexited
  | signal hlive => exact hlive hexited
  | wait hk | wake hk | soundAlarm hk | falseAlarm hk => cases hk.symm.trans hexited

/-- One sensor makes no false alarm. -/
theorem ne_exited_of_one {trace : Trace (World 1) (Event 1)} {world : World 1}
    (hrun : Run (system 1) trace world) : world.watchman ≠ .exited := by
  refine Run.keeps (I := fun world : World 1 => world.watchman ≠ .exited)
    (C := fun _ _ => True) ?_ ?_ hrun fun _ _ _ => trivial
  · rintro _ rfl
    exact nofun
  · intro trace v e v' hrun hlive _ hstep
    cases hstep with
    | trigger => exact hlive
    | wake | wait | soundAlarm => exact nofun
    | signal =>
      dsimp only
      cases hk : v.watchman with
      | exited => exact absurd hk hlive
      | ready | asleep | sounded => exact nofun
    | falseAlarm _ hzero hone =>
      have hle : tally (fun _ => Sensor.counted) v.sensors ≤ Fintype.card (Fin 1) * 1 :=
        tally_le fun i => (v.sensors i).counted_le
      rw [Fintype.card_fin] at hle
      rw [counted hrun] at hzero hone
      rcases Nat.le_one_iff_eq_zero_or_eq_one.mp hle with htally | htally
      · rw [htally] at hzero
        exact absurd rfl hzero
      · rw [htally] at hone
        exact absurd rfl hone

/-- At rest after the one sensor of `main`, the alarm was sounded. -/
theorem success_of_one {trace : Trace (World 1) (Event 1)} {world : World 1}
    (hrun : Run (system 1) trace world) (hstuck : ((system 1).restrict Driven).Stuck world) :
    Success world := by
  rcases ended_of_ne_zero hrun hstuck (by decide) with hexited | ⟨hsounded, hsensors⟩
  · exact absurd hexited (ne_exited_of_one hrun)
  · refine ⟨hsounded, hsensors, ?_⟩
    rw [assertSucceeds, (counted hrun).eq_ofNat hsensors]
    decide

/-- **The watchman**, if he wakes only when he is signalled. The steps of the threads come to an
end; he always comes to a verdict exactly when the number of sensors is no multiple of `256`;
and the alarm is always sounded, with `main` reporting success, exactly for the one sensor
that `main` has. -/
theorem watchman_iff (sensorCount : ℕ) :
    (system sensorCount).Lowers Driven World.left ∧
      ((system sensorCount).NeverHangs Driven Ended ↔ ¬ 256 ∣ sensorCount) ∧
      ((system sensorCount).NeverHangs Driven Success ↔ sensorCount = 1) := by
  refine ⟨fun _ _ _ _ _ => left_lt, ?_, ?_⟩
  · constructor
    · rintro hnever hcount
      obtain ⟨trace, world, hrun, hstuck, hasleep⟩ := exists_hang hcount
      rcases hnever trace world hrun hstuck with hexited | ⟨hsounded, -⟩
      · cases hasleep.symm.trans hexited
      · cases hasleep.symm.trans hsounded
    · exact fun hcount trace world hrun hstuck => ended_of_ne_zero hrun hstuck hcount
  · constructor
    · intro hnever
      by_contra hone
      rcases Nat.lt_or_ge sensorCount 2 with hlt | hge
      · obtain rfl : sensorCount = 0 := by omega
        obtain ⟨trace, world, hrun, hstuck, hasleep⟩ := exists_hang (Nat.dvd_zero 256)
        cases hasleep.symm.trans (hnever trace world hrun hstuck).1
      · obtain ⟨trace, world, hrun, hexited⟩ := exists_falseAlarm hge
        cases hexited.symm.trans (hnever trace world hrun (stuck_of_exited hexited)).1
    · rintro rfl trace world hrun hstuck
      exact success_of_one hrun hstuck

end BareMetal.WatchmanEventLoop
