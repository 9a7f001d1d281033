import BareMetal.CS.Byte
import BareMetal.CS.Loop
import BareMetal.CS.Transition

/-!
# The pump of `pthread/water_pump.c`

`fill_water` fills the tank, `get_water` empties it again and `show_report` prints. The
empty bit of `state` is set at first and whenever the level is zero.

`get_water` is meant to wait for a full tank, but it tests two bits that nobody ever sets:
it goes on at once, and when it comes first it returns without a drop. `show_report` waits
for the empty bit to be cleared, on a condition variable that nobody signals.

A section between lock and unlock is one step, and so is the test of the loop of
`get_water` that is made without the lock. Sleepers wake only through a signal.

## Main results

* `user_waits_iff` — `get_water` behaves as it should exactly when its section comes after
  that of `fill_water`
* `pump_never_hangs_iff` — the threads can hang exactly when `show_report` has its section while
  the empty bit is set
-/

namespace BareMetal.WaterPump

open CS Transition Byte

/-- `BIT`. -/
def bit (x : UInt8) : UInt8 := 1 <<< x

/-- `DEFAULT_STATE`. -/
def defaultState : UInt8 := 0x02

/-- `READY_STATE`. -/
def readyState : UInt8 := 0x09

/-- `EMPTY_BIT`. -/
def emptyBit : UInt8 := 1

/-- `MAX_LEVEL`. -/
def maxLevel : UInt8 := 100

/-- The fields of `Pump` that the threads share. -/
structure Pump where
  level : UInt8
  state : UInt8
  deriving DecidableEq, Repr

/-- `init`. -/
def init : Pump := ⟨0, defaultState⟩

/-- Where `fill_water` stands: before its section, before the last signal, or at the end. -/
inductive Device
  | start
  | signal
  | finished
  deriving DecidableEq, Repr

/-- Where `get_water` stands: before its section, asleep in it, before the test of the
second loop, in the body of that loop, or at the end. -/
inductive User
  | start
  | asleep
  | test
  | draw
  | finished
  deriving DecidableEq, Repr

/-- Where `show_report` stands. -/
inductive Reporter
  | start
  | asleep
  | finished
  deriving DecidableEq, Repr

/-- A signal on `is_ready`. Only `get_water` can sleep there. -/
def signalIsReady : User → User
  | .asleep => .start
  | k => k

/-- A pass of the loop of `fill_water`. -/
def fillPass (s : Pump × User) : Outcome (Pass (Pump × User) (Pump × User)) :=
  let (pump, user) := s
  if Has pump.state (bit emptyBit) then
    let level := pump.level + 10
    if maxLevel ≤ level then
      .ok (.again (⟨level, pump.state &&& ~~~bit emptyBit⟩, signalIsReady user))
    else .ok (.again (⟨level, pump.state⟩, user))
  else .ok (.leave (pump, user))

/-- The locked section of `fill_water`. -/
def fillSection (s : Pump × User) (fuel : ℕ) : Outcome (Pump × User) := loop fillPass fuel s

/-- The locked section in the second loop of `get_water`. -/
def drawSection (pump : Pump) : Pump :=
  let level := pump.level - 10
  if level = 0 then ⟨level, pump.state ||| bit emptyBit⟩ else ⟨level, pump.state⟩

/-- The pump and its threads. -/
structure World where
  pump : Pump
  device : Device
  user : User
  reporter : Reporter
  deriving DecidableEq, Repr

/-- The steps of the threads. A draw names the level that it finds. -/
inductive Event
  | fill
  | signal
  | userWait
  | pass
  | enter
  | leave
  | draw (level : UInt8)
  | report
  deriving DecidableEq, Repr

/-- One step of the program. -/
inductive Step : World → Event → World → Prop
  | fill {world : World} {fuel : ℕ} {pump : Pump} {user : User} :
      world.device = .start → fillSection (world.pump, world.user) fuel = .ok (pump, user) →
      Step world .fill { world with pump := pump, device := .signal, user := user }
  | signal {world : World} :
      world.device = .signal →
      Step world .signal { world with device := .finished, user := signalIsReady world.user }
  | userWait {world : World} :
      world.user = .start → Has world.pump.state readyState →
      Step world .userWait { world with user := .asleep }
  | pass {world : World} :
      world.user = .start → ¬ Has world.pump.state readyState →
      Step world .pass { world with user := .test }
  | enter {world : World} :
      world.user = .test → ¬ Has world.pump.state (bit emptyBit) →
      Step world .enter { world with user := .draw }
  | leave {world : World} :
      world.user = .test → Has world.pump.state (bit emptyBit) →
      Step world .leave { world with user := .finished }
  | draw {world : World} :
      world.user = .draw →
      Step world (.draw world.pump.level)
        { world with pump := drawSection world.pump, user := .test }
  -- `show_report` sleeps on `is_level`
  | reportWait {world : World} :
      world.reporter = .start → Has world.pump.state (bit emptyBit) →
      Step world .report { world with reporter := .asleep }
  | report {world : World} :
      world.reporter = .start → ¬ Has world.pump.state (bit emptyBit) →
      Step world .report { world with reporter := .finished }

/-- The threads of `main`. -/
def system : System World Event where
  start world := world = ⟨init, .start, .start, .start⟩
  step := Step

/-- The levels that were drawn from, in order. -/
def draws (es : List Event) : List UInt8 :=
  es.filterMap fun
    | .draw level => some level
    | _ => none

variable {world world' : World} {e : Event} {es : List Event} {trace : Trace World Event}
  {user : User} {k : ℕ}

/-! ### The sections -/

/-- The tank after `k` draws. -/
def tank (k : ℕ) : Pump :=
  ⟨UInt8.ofNat (100 - 10 * k), if k < 10 then 0 else defaultState⟩

/-- The levels of the first `k` draws. -/
def levels (k : ℕ) : List UInt8 := (List.range k).map fun i => (tank i).level

theorem toNat_fill {level : UInt8} (hlevel : level.toNat + 10 * (k + 1) = 100) :
    (level + 10).toNat = level.toNat + 10 := by
  have hten : (10 : UInt8).toNat = 10 := rfl
  rw [UInt8.toNat_add, hten]
  exact Nat.mod_eq_of_lt (by omega)

/-- The loop fills what is missing, and then clears the empty bit. -/
theorem leavesAfter_fillPass {level : UInt8} (hlevel : level.toNat + 10 * (k + 1) = 100)
    (user : User) :
    LeavesAfter fillPass (k + 1) (⟨level, defaultState⟩, user)
      (⟨maxLevel, 0⟩, signalIsReady user) := by
  induction k generalizing level with
  | zero =>
    have hfull : level + 10 = maxLevel :=
      UInt8.toNat_inj.mp (by rw [toNat_fill hlevel]; exact hlevel)
    have hpass : fillPass (⟨level, defaultState⟩, user) =
        .ok (.again (⟨maxLevel, 0⟩, signalIsReady user)) := by
      unfold fillPass
      dsimp only
      rw [if_pos (by decide), hfull, if_pos (UInt8.le_refl _)]
      rfl
    exact .again hpass (.leave rfl)
  | succ k ih =>
    have hlow : ¬ maxLevel ≤ level + 10 := by
      have hmax : maxLevel.toNat = 100 := rfl
      rw [UInt8.le_iff_toNat_le, toNat_fill hlevel, hmax]
      omega
    have hpass : fillPass (⟨level, defaultState⟩, user) =
        .ok (.again (⟨level + 10, defaultState⟩, user)) := by
      unfold fillPass
      dsimp only
      rw [if_pos (by decide), if_neg hlow]
    exact .again hpass (ih (by rw [toNat_fill hlevel]; omega))

/-- The section of `fill_water` on a new pump. -/
theorem fillSection_returns (user : User) :
    Returns (fillSection (init, user)) (tank 0, signalIsReady user) :=
  .loop (leavesAfter_fillPass (k := 9) rfl user)

theorem tank_level_toNat (k : ℕ) : (tank k).level.toNat = 100 - 10 * k :=
  UInt8.toNat_ofNat_of_lt' (by simp [UInt8.size]; omega)

/-- The empty bit is set when there is nothing left to draw. -/
theorem tank_has_iff (hk : k ≤ 10) : Has (tank k).state (bit emptyBit) ↔ k = 10 := by
  unfold tank
  dsimp only
  split_ifs with hlt
  · exact iff_of_false (by decide) (by omega)
  · exact iff_of_true (by decide) (by omega)

/-- Nobody sets the bits that `get_water` tests first. -/
theorem tank_not_ready (k : ℕ) : ¬ Has (tank k).state readyState := by
  unfold tank
  dsimp only
  split_ifs <;> decide

theorem drawSection_tank (hk : k < 10) : drawSection (tank k) = tank (k + 1) := by
  have hlevel : (tank k).level - 10 = (tank (k + 1)).level := by
    have hten : (10 : UInt8).toNat = 10 := rfl
    have hle : 10 ≤ (tank k).level := by
      rw [UInt8.le_iff_toNat_le, tank_level_toNat, hten]
      omega
    apply UInt8.toNat_inj.mp
    rw [UInt8.toNat_sub_of_le _ _ hle, tank_level_toNat, tank_level_toNat, hten]
    omega
  unfold drawSection
  rw [hlevel]
  by_cases hlast : k = 9
  · subst hlast
    rfl
  · have hleft : (tank (k + 1)).level ≠ 0 := by
      intro hzero
      have hnat := congrArg UInt8.toNat hzero
      rw [tank_level_toNat] at hnat
      simp only [UInt8.toNat_zero] at hnat
      omega
    dsimp only
    rw [if_neg hleft]
    have hstate : (tank k).state = (tank (k + 1)).state := by
      unfold tank
      dsimp only
      rw [if_pos hk, if_pos (by omega)]
    rw [hstate]

theorem levels_succ (k : ℕ) : levels (k + 1) = levels k ++ [(tank k).level] := by
  rw [levels, List.range_succ, List.map_append]
  rfl

theorem draws_concat (es : List Event) (e : Event) : draws (es ++ [e]) = draws es ++ draws [e] :=
  List.filterMap_append

theorem signalIsReady_of_ne (h : user ≠ .asleep) : signalIsReady user = user := by
  cases user with
  | asleep => exact absurd rfl h
  | start | test | draw | finished => rfl

/-! ### What every run keeps -/

/-- Before `fill_water` has its section nothing is drawn; after it the tank is what the
draws have left in it. -/
structure Sound (es : List Event) (world : World) : Prop where
  awake : world.user ≠ .asleep
  empty : world.device = .start → world.pump = init ∧ world.user ≠ .draw ∧ draws es = []
  filled : world.device ≠ .start → ∃ k ≤ 10, draws es = levels k ∧ world.pump = tank k ∧
    (world.user = .start → k = 0) ∧ (world.user = .draw → k < 10)

theorem Sound.not_ready (h : Sound es world) : ¬ Has world.pump.state readyState := by
  by_cases hdevice : world.device = .start
  · rw [(h.empty hdevice).1]
    decide
  · obtain ⟨k, -, -, hpump, -⟩ := h.filled hdevice
    rw [hpump]
    exact tank_not_ready k

/-- A step that draws nothing and leaves pump and device alone. -/
theorem Sound.keep (h : Sound es world) (hpump : world'.pump = world.pump)
    (hdevice : world'.device = .start ↔ world.device = .start) (hdraws : draws [e] = [])
    (hawake : world'.user ≠ .asleep) (hstart : world'.user = .start → world.user = .start)
    (hdraw : world'.user = .draw → world.user = .draw ∨ ¬ Has world.pump.state (bit emptyBit)) :
    Sound (es ++ [e]) world' := by
  have hdraws' : draws (es ++ [e]) = draws es := by rw [draws_concat, hdraws, List.append_nil]
  constructor
  · exact hawake
  · intro hnew
    obtain ⟨hinit, hnodraw, hnil⟩ := h.empty (hdevice.mp hnew)
    refine ⟨hpump.trans hinit, fun hdrawing => ?_, hdraws'.trans hnil⟩
    rcases hdraw hdrawing with hold | hclear
    · exact hnodraw hold
    · rw [hinit] at hclear
      exact hclear (by decide)
  · intro hdone
    obtain ⟨k, hk, hlevels, htank, hfull, hsome⟩ := h.filled (mt hdevice.mpr hdone)
    refine ⟨k, hk, hdraws'.trans hlevels, hpump.trans htank, fun hu => hfull (hstart hu),
      fun hu => ?_⟩
    rcases hdraw hu with hold | hclear
    · exact hsome hold
    · rw [htank, tank_has_iff hk] at hclear
      omega

theorem Sound.step (h : Sound es world) (hstep : Step world e world') :
    Sound (es ++ [e]) world' := by
  cases hstep with
  | fill hdevice hcall =>
    obtain ⟨hpump, hnodraw, hnil⟩ := h.empty hdevice
    rw [hpump] at hcall
    obtain ⟨rfl, rfl⟩ := Prod.mk.inj ((fillSection_returns _).eq_of_ok hcall)
    rw [signalIsReady_of_ne h.awake]
    refine ⟨h.awake, fun hstart => absurd hstart nofun, fun _ => ⟨0, by omega, ?_, rfl,
      fun _ => rfl, fun hdraw => absurd hdraw hnodraw⟩⟩
    rw [draws_concat, hnil]
    rfl
  | signal hdevice =>
    rw [signalIsReady_of_ne h.awake]
    exact h.keep rfl (iff_of_false nofun (by rw [hdevice]; nofun)) rfl h.awake id Or.inl
  | userWait _ hready => exact absurd hready h.not_ready
  | pass _ _ => exact h.keep rfl Iff.rfl rfl nofun nofun nofun
  | enter _ hclear => exact h.keep rfl Iff.rfl rfl nofun nofun fun _ => Or.inr hclear
  | leave _ _ => exact h.keep rfl Iff.rfl rfl nofun nofun nofun
  | draw huser =>
    have hdevice : world.device ≠ .start := fun hstart => (h.empty hstart).2.1 huser
    obtain ⟨k, -, hlevels, hpump, -, hsome⟩ := h.filled hdevice
    have hk := hsome huser
    refine ⟨nofun, fun hstart => absurd hstart hdevice, fun _ => ⟨k + 1, hk, ?_, ?_, nofun, nofun⟩⟩
    · rw [draws_concat, hlevels, levels_succ, hpump]
      rfl
    · dsimp only
      rw [hpump, drawSection_tank hk]
  | reportWait _ _ => exact h.keep rfl Iff.rfl rfl h.awake id Or.inl
  | report _ _ => exact h.keep rfl Iff.rfl rfl h.awake id Or.inl

theorem sound (hrun : Run system trace world) : Sound (events trace) world := by
  refine hrun.invariant (I := Sound) ?_ fun _ _ _ _ h hstep => h.step hstep
  rintro _ rfl
  exact ⟨nofun, fun _ => ⟨rfl, nofun, rfl⟩, fun hstart => absurd rfl hstart⟩

/-- A user that has not begun after the device has finds the tank full. -/
theorem Sound.pump_eq_full (h : Sound es world) (hdevice : world.device ≠ .start)
    (huser : world.user = .start) : world.pump = tank 0 := by
  obtain ⟨k, -, -, hpump, hfull, -⟩ := h.filled hdevice
  rw [hpump, hfull huser]

/-- There is water left for a draw. -/
theorem Sound.exists_draw (h : Sound es world) (huser : world.user = .draw) :
    ∃ k < 10, world.pump = tank k := by
  obtain ⟨k, -, -, hpump, -, hsome⟩ := h.filled fun hstart => (h.empty hstart).2.1 huser
  exact ⟨k, hsome huser, hpump⟩

/-- A tank that was filled and is empty was drawn from ten times. -/
theorem Sound.draws_eq (h : Sound es world) (hdevice : world.device ≠ .start)
    (hempty : world.pump = tank 10) : draws es = levels 10 := by
  obtain ⟨k, hk, hlevels, hpump, -⟩ := h.filled hdevice
  have hlast : k = 10 := by
    rw [← tank_has_iff hk, ← hpump, hempty]
    decide
  rw [hlevels, hlast]

/-! ### The user and the device -/

/-- What `get_water` is meant to do: it gets past its first loop only when the tank is full
and the empty bit clear, no draw wraps, and it returns only after it has drawn the whole
tank in steps of ten. -/
structure Waits (trace : Trace World Event) (world : World) : Prop where
  pass : ∀ v, (v, .pass) ∈ trace →
    v.pump.level = maxLevel ∧ ¬ Has v.pump.state (bit emptyBit)
  draw : ∀ v level, (v, .draw level) ∈ trace → v.pump.level = level ∧ 10 ≤ level
  returns : world.user = .finished →
    draws (events trace) = [100, 90, 80, 70, 60, 50, 40, 30, 20, 10] ∧ world.pump.level = 0

/-- The section of `get_water` that ends its first loop comes before that of `fill_water`. -/
def TooSoon (world : World) (e : Event) : Prop := e = .pass ∧ world.device = .start

/-- The user has not gone on before the device, and what it has left behind. -/
structure Waited (world : World) : Prop where
  passed : world.user ≠ .start → world.device ≠ .start
  returned : world.user = .finished → world.pump = tank 10

theorem Waited.step (h : Waited world) (hsound : Sound es world) (hlate : ¬ TooSoon world e)
    (hstep : Step world e world') : Waited world' := by
  cases hstep with
  | fill hdevice hcall =>
    obtain ⟨hpump, -, -⟩ := hsound.empty hdevice
    rw [hpump] at hcall
    obtain ⟨rfl, rfl⟩ := Prod.mk.inj ((fillSection_returns _).eq_of_ok hcall)
    rw [signalIsReady_of_ne hsound.awake]
    refine ⟨fun _ => nofun, fun hfinished => ?_⟩
    -- a user that has returned has gone on after an earlier section
    exact absurd hdevice (h.passed (by rw [hfinished]; nofun))
  | signal _ =>
    rw [signalIsReady_of_ne hsound.awake]
    exact ⟨fun _ => nofun, h.returned⟩
  | userWait _ hready => exact absurd hready hsound.not_ready
  | pass _ _ => exact ⟨fun _ hstart => hlate ⟨rfl, hstart⟩, nofun⟩
  | enter huser _ => exact ⟨fun _ => h.passed (by rw [huser]; nofun), nofun⟩
  | leave huser hset =>
    have hdevice := h.passed (by rw [huser]; nofun)
    obtain ⟨k, hk, -, hpump, -⟩ := hsound.filled hdevice
    rw [hpump, tank_has_iff hk] at hset
    exact ⟨fun _ => hdevice, fun _ => hset ▸ hpump⟩
  | draw huser => exact ⟨fun _ => h.passed (by rw [huser]; nofun), nofun⟩
  | reportWait _ _ => exact ⟨h.passed, h.returned⟩
  | report _ _ => exact ⟨h.passed, h.returned⟩

theorem waited (hrun : Run system trace world)
    (hlate : ∀ v e, (v, e) ∈ trace → ¬ TooSoon v e) : Waited world := by
  refine hrun.keeps (C := fun v e => ¬ TooSoon v e) ?_ (fun _ _ _ _ hrun h hC hstep => ?_) hlate
  · rintro _ rfl
    exact ⟨fun huser => absurd rfl huser, nofun⟩
  · exact h.step (sound hrun) hC hstep

/-- **When the user waits for a full pump.** In a run, with or without `show_report`,
`get_water` does what it is meant to do exactly when it does not get past its first loop
before `fill_water` has had its section. -/
theorem user_waits_iff (hrun : Run system trace world) :
    Waits trace world ↔ ∀ v e, (v, e) ∈ trace → ¬ TooSoon v e := by
  constructor
  · rintro hwaits v e hmem ⟨rfl, hdevice⟩
    -- the tank is still empty
    obtain ⟨pre, v', hpre, -, -⟩ := hrun.next_stage hmem
    have hempty := ((sound hpre).empty hdevice).1
    have hlevel := (hwaits.pass v hmem).1
    rw [hempty] at hlevel
    exact absurd hlevel (by decide)
  · intro hlate
    constructor
    · intro v hmem
      obtain ⟨pre, v', hpre, hstep, -⟩ := hrun.next_stage hmem
      cases hstep with
      | pass huser _ =>
        rw [(sound hpre).pump_eq_full (fun hstart => hlate v _ hmem ⟨rfl, hstart⟩) huser]
        decide
    · intro v level hmem
      obtain ⟨pre, v', hpre, hstep, -⟩ := hrun.next_stage hmem
      cases hstep with
      | draw huser =>
        obtain ⟨k, hk, hpump⟩ := (sound hpre).exists_draw huser
        have hten : (10 : UInt8).toNat = 10 := rfl
        refine ⟨rfl, ?_⟩
        rw [hpump, UInt8.le_iff_toNat_le, tank_level_toNat, hten]
        omega
    · intro hfinished
      have hwaited := waited hrun hlate
      have hdevice := hwaited.passed (by rw [hfinished]; nofun)
      have hempty := hwaited.returned hfinished
      rw [(sound hrun).draws_eq hdevice hempty, hempty]
      exact ⟨rfl, rfl⟩

/-- The device fills the tank before the other threads do anything. -/
theorem run_fill :
    Run system [(⟨init, .start, .start, .start⟩, .fill)] ⟨tank 0, .signal, .start, .start⟩ := by
  have hstart : Run system [] ⟨init, .start, .start, .start⟩ := .start rfl
  obtain ⟨fuel, hcall⟩ := (fillSection_returns .start).exists_ok
  exact hstart.step (.fill rfl hcall)

/-- A user that comes after the device. -/
theorem user_waits_first_draw : ∃ trace world, Run system trace world ∧
    events trace = [.fill, .pass, .enter, .draw 100] ∧ Waits trace world := by
  have hpass := run_fill.step (.pass rfl (by decide))
  have henter := hpass.step (.enter rfl (by decide))
  have hdraw := henter.step (.draw rfl)
  refine ⟨_, _, hdraw, rfl, (user_waits_iff hdraw).mpr ?_⟩
  rintro v e hmem ⟨rfl, hdevice⟩
  have hv : v = ⟨tank 0, .signal, .start, .start⟩ := by simpa using hmem
  cases hv
  cases hdevice

/-- A user that comes first returns without a drop. -/
theorem user_first : ∃ trace world, Run system trace world ∧
    events trace = [.pass, .leave] ∧ world.user = .finished ∧ draws (events trace) = [] ∧
    world.device = .start ∧ ¬ Waits trace world := by
  have hstart : Run system [] ⟨init, .start, .start, .start⟩ := .start rfl
  have hpass := hstart.step (.pass rfl (by decide))
  have hleave := hpass.step (.leave rfl (by decide))
  refine ⟨_, _, hleave, rfl, rfl, rfl, rfl, fun hwaits => ?_⟩
  exact absurd (hwaits.pass _ (List.mem_cons_self ..)).1 (by decide)

/-! ### The reporter -/

/-- Some thread has not returned, and all such threads sleep. `fill_water` never does. -/
def Hung (world : World) : Prop :=
  (world.device ≠ .finished ∨ world.user ≠ .finished ∨ world.reporter ≠ .finished) ∧
    world.device = .finished ∧ (world.user = .finished ∨ world.user = .asleep) ∧
    (world.reporter = .finished ∨ world.reporter = .asleep)

/-- `show_report` has its section while the empty bit is set. -/
def Early (world : World) (e : Event) : Prop := e = .report ∧ Has world.pump.state (bit emptyBit)

/-- Only such a section puts the reporter to sleep. -/
theorem reporter_awake (h : world.reporter ≠ .asleep) (hearly : ¬ Early world e)
    (hstep : Step world e world') : world'.reporter ≠ .asleep := by
  cases hstep with
  | fill | signal | userWait | pass | enter | leave | draw => exact h
  | reportWait _ hset => exact absurd ⟨rfl, hset⟩ hearly
  | report _ _ => exact nofun

/-- Nobody wakes the reporter. -/
theorem reporter_asleep (h : world.reporter = .asleep ∨ Early world e)
    (hstep : Step world e world') : world'.reporter = .asleep := by
  cases hstep with
  | fill | signal | userWait | pass | enter | leave | draw =>
    rcases h with h | ⟨hreport, -⟩
    · exact h
    · cases hreport
  | reportWait _ _ => rfl
  | report hstart hclear =>
    rcases h with h | ⟨-, hset⟩
    · cases hstart.symm.trans h
    · exact absurd hset hclear

theorem Sound.not_hung (h : Sound es world) (hreporter : world.reporter ≠ .asleep) :
    ¬ Hung world := by
  rintro ⟨hopen, hdevice, huser, hreport⟩
  have huser' := huser.resolve_right h.awake
  have hreport' := hreport.resolve_right hreporter
  rcases hopen with hne | hne | hne
  · exact hne hdevice
  · exact hne huser'
  · exact hne hreport'

/-- What is left to do for the device. -/
def Device.rank : Device → ℕ
  | .start => 600
  | .signal => 1
  | .finished => 0

/-- What is left to do for the user. -/
def User.rank (user : User) (level : ℕ) : ℕ :=
  match user with
  | .start => 2 * level + 2
  | .test => 2 * level + 1
  | .draw => 2 * level
  | .asleep => 0
  | .finished => 0

/-- Without the reporter the others get to their ends. -/
theorem Sound.progress (h : Sound es world) (hreporter : world.reporter = .asleep) :
    Hung world ∨ ∃ e world', Step world e world' ∧
      world'.device.rank + world'.user.rank world'.pump.level.toNat <
        world.device.rank + world.user.rank world.pump.level.toNat := by
  cases hdevice : world.device with
  | start =>
    obtain ⟨hpump, -, -⟩ := h.empty hdevice
    obtain ⟨fuel, hcall⟩ := (fillSection_returns world.user).exists_ok
    rw [← hpump] at hcall
    refine Or.inr ⟨.fill, _, .fill hdevice hcall, ?_⟩
    rw [signalIsReady_of_ne h.awake, tank_level_toNat]
    -- the fill leaves the user more to do, which the rank of the device allows for
    have hrank : ∀ user : User, 1 + user.rank (100 - 10 * 0) < 600 := by
      intro user
      cases user <;> decide
    exact Nat.lt_of_lt_of_le (hrank _) (Nat.le_add_right _ _)
  | signal =>
    refine Or.inr ⟨.signal, _, .signal hdevice, ?_⟩
    rw [signalIsReady_of_ne h.awake]
    dsimp only [Device.rank]
    omega
  | finished =>
    cases huser : world.user with
    | start =>
      refine Or.inr ⟨.pass, _, .pass huser h.not_ready, ?_⟩
      simp only [hdevice, User.rank]
      omega
    | asleep => exact absurd huser h.awake
    | test =>
      by_cases hset : Has world.pump.state (bit emptyBit)
      · refine Or.inr ⟨.leave, _, .leave huser hset, ?_⟩
        simp only [hdevice, User.rank]
        omega
      · refine Or.inr ⟨.enter, _, .enter huser hset, ?_⟩
        simp only [hdevice, User.rank]
        omega
    | draw =>
      obtain ⟨k, hk, hpump⟩ := h.exists_draw huser
      refine Or.inr ⟨.draw _, _, .draw huser, ?_⟩
      simp only [hdevice, hpump, drawSection_tank hk, tank_level_toNat, User.rank]
      omega
    | finished =>
      refine Or.inl ⟨Or.inr (Or.inr ?_), hdevice, Or.inl huser, Or.inr hreporter⟩
      rw [hreporter]
      exact nofun

theorem asleep_of_early (hrun : Run system trace world)
    (hearly : ∃ v e, (v, e) ∈ trace ∧ Early v e) : world.reporter = .asleep :=
  hrun.since (I := fun world => world.reporter = .asleep)
    (fun _ _ _ _ _ h hstep => reporter_asleep h hstep) hearly

/-- **When the pump threads hang.** If in no step of a run `show_report` has its section while
the empty bit is set, no state of the run has an unfinished thread and all unfinished threads
asleep. After such a step the run ends in such a state. -/
theorem pump_never_hangs_iff (hrun : Run system trace world) :
    ((∀ v e, (v, e) ∈ trace → ¬ Early v e) →
        ∀ pre v, Stage trace world pre v → ¬ Hung v) ∧
      ((∃ v e, (v, e) ∈ trace ∧ Early v e) →
        ∃ rest world', Run system (trace ++ rest) world' ∧ Hung world') := by
  constructor
  · intro hlate pre v hstage
    have hpre := hstage.run hrun
    refine (sound hpre).not_hung ?_
    refine hpre.keeps (I := fun world => world.reporter ≠ .asleep)
      (C := fun v e => ¬ Early v e) ?_ (fun _ _ _ _ _ h hearly hstep => ?_)
      fun u e hmem => hlate u e (hstage.isPrefix.subset hmem)
    · rintro _ rfl
      exact nofun
    · exact reporter_awake h hearly hstep
  · intro hearly
    refine Run.reach (P := fun n world => (∃ es, Sound es world) ∧ world.reporter = .asleep ∧
      world.device.rank + world.user.rank world.pump.level.toNat = n) (fun n v h => ?_) hrun
      ⟨⟨_, sound hrun⟩, asleep_of_early hrun hearly, rfl⟩
    obtain ⟨⟨es, hsound⟩, hreporter, rfl⟩ := h
    rcases hsound.progress hreporter with hhung | ⟨e, v', hstep, hlt⟩
    · exact Or.inl hhung
    · exact Or.inr ⟨_, e, v', hlt, hstep, ⟨_, hsound.step hstep⟩,
        reporter_asleep (Or.inl hreporter) hstep, rfl⟩

/-- The reporter after the device. -/
theorem never_hangs_late : ∃ trace world, Run system trace world ∧
    events trace = [.fill, .report] ∧ world.reporter = .finished ∧ ¬ Hung world := by
  have hreport := run_fill.step (.report rfl (by decide))
  refine ⟨_, _, hreport, rfl, rfl, (pump_never_hangs_iff hreport).1 ?_ _ _ (Stage.last _ _)⟩
  rintro v e hmem ⟨rfl, hset⟩
  have hv : v = ⟨tank 0, .signal, .start, .start⟩ := by simpa using hmem
  cases hv
  exact absurd hset (by decide)

/-- All three threads in turn, the reporter first and the user before the device. -/
theorem reporter_first_hangs : ∃ trace world, Run system trace world ∧
    events trace = [.report, .pass, .leave, .fill, .signal] ∧ Hung world := by
  have hstart : Run system [] ⟨init, .start, .start, .start⟩ := .start rfl
  have hreport := hstart.step (.reportWait rfl (by decide))
  have hpass := hreport.step (.pass rfl (by decide))
  have hleave := hpass.step (.leave rfl (by decide))
  obtain ⟨fuel, hcall⟩ := (fillSection_returns .finished).exists_ok
  have hfill := hleave.step (.fill rfl hcall)
  have hsignal := hfill.step (.signal rfl)
  exact ⟨_, _, hsignal, rfl, Or.inr (Or.inr nofun), rfl, Or.inl rfl, Or.inr rfl⟩

end BareMetal.WaterPump
