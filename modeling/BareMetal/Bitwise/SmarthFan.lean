import BareMetal.CS.Outcome
import Mathlib.Data.Fintype.Prod
import Mathlib.Logic.Function.Basic

/-!
# The fan of `bitwise/smarth_fan.c`

The state of a fan is one register: the power switch in bit `7`, the speed in bits `4` to `6`,
the oscillation in bit `3` and the colour of the LED in bits `0` to `2`. The functions change it
with masks and shifts. `Fan` is the same state with a field for each of these, and the commands
are stated once more for it.

What the functions print is left out, the messages of `exit` apart.

## Main results

* `Fan.bijective_ofByte` — a register is a fan
* `ofByte_perform` — a command on the register is the command on the fan
* `commands_on_fan` — the same for all commands, and when they end the program
-/

namespace BareMetal.SmarthFan

open CS

/-- `BIT`. -/
def bit (x : UInt8) : UInt8 := 1 <<< x

/-- `MASK_ON`. -/
def maskOn : UInt8 := 0x80

/-- `MASK_FAN_ISOLATE`. -/
def maskFanIsolate : UInt8 := 0x70

/-- `FAN_SHIFT_OFFSET`. -/
def fanShiftOffset : UInt8 := 4

/-- `MASK_FAN_CLEAR`. -/
def maskFanClear : UInt8 := 0x8F

/-- `TURN_ON_VAL`. -/
def turnOnVal : UInt8 := 128

/-- `INCREASE`. -/
def increase : UInt8 := 1

/-- `DECREASE`. -/
def decrease : UInt8 := 0

/-- `MAX_SPEED_VAL`. -/
def maxSpeedVal : UInt8 := 7

/-- `MIN_SPEED_VAL`. -/
def minSpeedVal : UInt8 := 0

/-! ### The functions on the register -/

/-- `is_on`. -/
def isOn (fan : UInt8) : UInt8 := fan &&& maskOn

/-- `get_fan_speed`. -/
def getFanSpeed (fan : UInt8) : UInt8 := (fan &&& maskFanIsolate) >>> fanShiftOffset

/-- `set_speed_direct`. -/
def setSpeedDirect (fan speed : UInt8) : UInt8 :=
  (fan &&& maskFanClear) ||| (speed <<< fanShiftOffset)

/-- `reset_speed_flags`. -/
def resetSpeedFlags (fan : UInt8) : Outcome UInt8 :=
  let fan := (fan &&& maskFanClear) ||| 0
  if getFanSpeed fan ≠ 0 then .error (.exit 1 "Reset failed, turning the fan off...\n")
  else .ok fan

/-- `check_speed_status`. -/
def checkSpeedStatus (fan value : UInt8) : Outcome UInt8 :=
  if getFanSpeed fan ≠ value then resetSpeedFlags fan else .ok fan

/-- `set_max_speed`. -/
def setMaxSpeed (fan : UInt8) : Outcome UInt8 :=
  if isOn fan = turnOnVal then checkSpeedStatus (setSpeedDirect fan maxSpeedVal) maxSpeedVal
  else .error (.exit 1 "Cannot set Max speed when the fan is OFF\n")

/-- `set_min_speed`. -/
def setMinSpeed (fan : UInt8) : Outcome UInt8 := do
  let fan ← resetSpeedFlags fan
  checkSpeedStatus fan minSpeedVal

/-- `turn_on`. -/
def turnOn (fan : UInt8) : Outcome UInt8 :=
  if isOn fan = turnOnVal then .ok fan
  else
    let fan := fan ||| bit 7
    if isOn fan = turnOnVal then .ok fan
    else .error (.exit 1 "Something went wrong, could not turn the fan ON\n")

/-- `turn_off`. -/
def turnOff (fan : UInt8) : UInt8 := fan &&& ~~~bit 7

/-- `change_speed`. -/
def changeSpeed (fan cmd : UInt8) : UInt8 :=
  if isOn fan = turnOnVal then
    let currentSpeed := getFanSpeed fan
    if cmd = increase then
      if currentSpeed = maxSpeedVal then fan else setSpeedDirect fan (currentSpeed + 1)
    else if cmd = decrease then
      if currentSpeed = minSpeedVal then fan else setSpeedDirect fan (currentSpeed - 1)
    else fan
  else fan

/-- The commands of a user. -/
inductive Command
  | turnOn
  | turnOff
  | setMaxSpeed
  | setMinSpeed
  | changeSpeed (cmd : UInt8)
  deriving DecidableEq, Repr

/-- One command on the register. -/
def perform (fan : UInt8) : Command → Outcome UInt8
  | .turnOn => turnOn fan
  | .turnOff => .ok (turnOff fan)
  | .setMaxSpeed => setMaxSpeed fan
  | .setMinSpeed => setMinSpeed fan
  | .changeSpeed cmd => .ok (changeSpeed fan cmd)

/-- A sequence of commands. -/
def run (commands : List Command) (fan : UInt8) : Outcome UInt8 := commands.foldlM perform fan

/-! ### The fan -/

/-- What a user knows of a fan. -/
structure Fan where
  power : Bool
  speed : Fin 8
  oscillating : Bool
  colour : Fin 8
  deriving DecidableEq, Repr

namespace Fan

/-- The fan with the given register. -/
def ofByte (fan : UInt8) : Fan where
  power := fan.toNat / 128 % 2 = 1
  speed := Fin.ofNat 8 (fan.toNat / 16)
  oscillating := fan.toNat / 8 % 2 = 1
  colour := Fin.ofNat 8 fan.toNat

/-- The register of a fan. -/
def toByte (fan : Fan) : UInt8 :=
  UInt8.ofNat (fan.power.toNat * 128 + fan.speed * 16 + fan.oscillating.toNat * 8 + fan.colour)

/-- One level faster, up to the highest one. -/
def faster (fan : Fan) : Fan := if fan.speed = 7 then fan else { fan with speed := fan.speed + 1 }

/-- One level slower, down to the lowest one. -/
def slower (fan : Fan) : Fan := if fan.speed = 0 then fan else { fan with speed := fan.speed - 1 }

/-- What the commands are for. The highest speed is the only one that needs a fan that is on,
and the speed is changed only then. -/
def perform (fan : Fan) : Command → Outcome Fan
  | .turnOn => .ok { fan with power := true }
  | .turnOff => .ok { fan with power := false }
  | .setMaxSpeed =>
    if fan.power then .ok { fan with speed := 7 }
    else .error (.exit 1 "Cannot set Max speed when the fan is OFF\n")
  | .setMinSpeed => .ok { fan with speed := 0 }
  | .changeSpeed cmd =>
    .ok (if fan.power then
      if cmd = increase then fan.faster else if cmd = decrease then fan.slower else fan
    else fan)

/-- A sequence of commands. -/
def run (commands : List Command) (fan : Fan) : Outcome Fan := commands.foldlM Fan.perform fan

end Fan

/-- Whether a fan is on after some commands. -/
def powered (power : Bool) (commands : List Command) : Bool :=
  commands.foldl (fun power command =>
    match command with
    | .turnOn => true
    | .turnOff => false
    | _ => power) power

/-! ### Masks and shifts -/

/-- What holds of all eight bits holds of a byte. -/
theorem forall_byte {P : UInt8 → Prop} (h : ∀ bits : BitVec 8, P ⟨bits⟩) : ∀ fan, P fan :=
  fun fan => h fan.toBitVec

theorem toByte_ofByte : ∀ fan, (Fan.ofByte fan).toByte = fan :=
  forall_byte (by decide +kernel)

theorem ofByte_toByte (fan : Fan) : Fan.ofByte fan.toByte = fan := by
  obtain ⟨power, speed, oscillating, colour⟩ := fan
  revert power speed oscillating colour
  decide +kernel

/-- A register is a fan. -/
theorem Fan.bijective_ofByte : Function.Bijective Fan.ofByte :=
  Function.bijective_iff_has_inverse.mpr ⟨Fan.toByte, toByte_ofByte, ofByte_toByte⟩

theorem isOn_eq_iff : ∀ fan, isOn fan = turnOnVal ↔ (Fan.ofByte fan).power = true :=
  forall_byte (by decide +kernel)

theorem getFanSpeed_eq : ∀ fan, getFanSpeed fan = UInt8.ofNat (Fan.ofByte fan).speed :=
  forall_byte (by decide +kernel)

theorem ofByte_setSpeedDirect : ∀ (fan : UInt8) (speed : Fin 8),
    Fan.ofByte (setSpeedDirect fan (UInt8.ofNat speed)) = { Fan.ofByte fan with speed := speed } :=
  forall_byte (by decide +kernel)

theorem ofByte_turnOff : ∀ fan,
    Fan.ofByte (turnOff fan) = { Fan.ofByte fan with power := false } :=
  forall_byte (by decide +kernel)

theorem ofByte_or_bit : ∀ fan,
    Fan.ofByte (fan ||| bit 7) = { Fan.ofByte fan with power := true } :=
  forall_byte (by decide +kernel)

theorem getFanSpeed_setSpeedDirect (fan : UInt8) (speed : Fin 8) :
    getFanSpeed (setSpeedDirect fan (UInt8.ofNat speed)) = UInt8.ofNat speed := by
  rw [getFanSpeed_eq, ofByte_setSpeedDirect]

theorem ofNat_speed_eq_max_iff : ∀ speed : Fin 8, UInt8.ofNat speed = maxSpeedVal ↔ speed = 7 := by
  decide

theorem ofNat_speed_eq_min_iff : ∀ speed : Fin 8, UInt8.ofNat speed = minSpeedVal ↔ speed = 0 := by
  decide

theorem ofNat_speed_add_one : ∀ speed : Fin 8, speed ≠ 7 →
    UInt8.ofNat speed + 1 = UInt8.ofNat (speed + 1 : Fin 8) := by
  decide

theorem ofNat_speed_sub_one : ∀ speed : Fin 8, speed ≠ 0 →
    UInt8.ofNat speed - 1 = UInt8.ofNat (speed - 1 : Fin 8) := by
  decide

/-! ### The functions on a fan -/

/-- The check of `check_speed_status` succeeds after a speed was set. -/
theorem checkSpeedStatus_set (fan : UInt8) (speed : Fin 8) :
    checkSpeedStatus (setSpeedDirect fan (UInt8.ofNat speed)) (UInt8.ofNat speed) =
      .ok (setSpeedDirect fan (UInt8.ofNat speed)) := by
  rw [checkSpeedStatus, if_neg]
  exact not_not_intro (getFanSpeed_setSpeedDirect fan speed)

/-- And so does the check of `reset_speed_flags`. -/
theorem resetSpeedFlags_eq (fan : UInt8) :
    resetSpeedFlags fan = .ok (setSpeedDirect fan (UInt8.ofNat (0 : Fin 8))) := by
  rw [resetSpeedFlags]
  exact if_neg (not_not_intro (getFanSpeed_setSpeedDirect fan 0))

theorem ofByte_turnOn (fan : UInt8) :
    Fan.ofByte <$> turnOn fan = .ok { Fan.ofByte fan with power := true } := by
  unfold turnOn
  by_cases hon : isOn fan = turnOnVal
  · have hpower : (Fan.ofByte fan).power = true := (isOn_eq_iff fan).mp hon
    rw [if_pos hon, ← hpower]
    rfl
  · have hset : isOn (fan ||| bit 7) = turnOnVal := by
      rw [isOn_eq_iff, ofByte_or_bit]
    rw [if_neg hon]
    dsimp only
    rw [if_pos hset, ← ofByte_or_bit]
    rfl

theorem ofByte_setMaxSpeed (fan : UInt8) :
    Fan.ofByte <$> setMaxSpeed fan = (Fan.ofByte fan).perform .setMaxSpeed := by
  unfold setMaxSpeed Fan.perform
  simp only [isOn_eq_iff]
  split_ifs with hon
  · have hcheck := checkSpeedStatus_set fan 7
    rw [← ofByte_setSpeedDirect]
    exact congrArg (Fan.ofByte <$> ·) hcheck
  · rfl

theorem ofByte_setMinSpeed (fan : UInt8) :
    Fan.ofByte <$> setMinSpeed fan = .ok { Fan.ofByte fan with speed := 0 } := by
  have hcheck := checkSpeedStatus_set fan 0
  rw [setMinSpeed, resetSpeedFlags_eq, Outcome.ok_bind, ← ofByte_setSpeedDirect]
  exact congrArg (Fan.ofByte <$> ·) hcheck

theorem ofByte_faster (fan : UInt8) :
    Fan.ofByte (if getFanSpeed fan = maxSpeedVal then fan
      else setSpeedDirect fan (getFanSpeed fan + 1)) = (Fan.ofByte fan).faster := by
  rw [getFanSpeed_eq, Fan.faster]
  by_cases hmax : (Fan.ofByte fan).speed = 7
  · rw [if_pos ((ofNat_speed_eq_max_iff _).mpr hmax), if_pos hmax]
  · rw [if_neg (mt (ofNat_speed_eq_max_iff _).mp hmax), if_neg hmax, ofNat_speed_add_one _ hmax,
      ofByte_setSpeedDirect]

theorem ofByte_slower (fan : UInt8) :
    Fan.ofByte (if getFanSpeed fan = minSpeedVal then fan
      else setSpeedDirect fan (getFanSpeed fan - 1)) = (Fan.ofByte fan).slower := by
  rw [getFanSpeed_eq, Fan.slower]
  by_cases hmin : (Fan.ofByte fan).speed = 0
  · rw [if_pos ((ofNat_speed_eq_min_iff _).mpr hmin), if_pos hmin]
  · rw [if_neg (mt (ofNat_speed_eq_min_iff _).mp hmin), if_neg hmin, ofNat_speed_sub_one _ hmin,
      ofByte_setSpeedDirect]

/-- A command on the register is the command on the fan. -/
theorem ofByte_perform (fan : UInt8) (command : Command) :
    Fan.ofByte <$> perform fan command = (Fan.ofByte fan).perform command := by
  cases command with
  | turnOn => exact ofByte_turnOn fan
  | turnOff => exact congrArg Except.ok (ofByte_turnOff fan)
  | setMaxSpeed => exact ofByte_setMaxSpeed fan
  | setMinSpeed => exact ofByte_setMinSpeed fan
  | changeSpeed cmd =>
    refine congrArg Except.ok ?_
    unfold changeSpeed
    simp only [isOn_eq_iff]
    by_cases hon : (Fan.ofByte fan).power = true
    · rw [if_pos hon, if_pos hon]
      by_cases hup : cmd = increase
      · rw [if_pos hup, if_pos hup]
        exact ofByte_faster fan
      · rw [if_neg hup, if_neg hup]
        by_cases hdown : cmd = decrease
        · rw [if_pos hdown, if_pos hdown]
          exact ofByte_slower fan
        · rw [if_neg hdown, if_neg hdown]
    · rw [if_neg hon, if_neg hon]

/-! ### Sequences of commands -/

theorem run_cons (command : Command) (commands : List Command) (fan : UInt8) :
    run (command :: commands) fan = perform fan command >>= run commands :=
  List.foldlM_cons ..

theorem Fan.run_cons (command : Command) (commands : List Command) (fan : Fan) :
    Fan.run (command :: commands) fan = fan.perform command >>= Fan.run commands :=
  List.foldlM_cons ..

/-- All commands on the register are the commands on the fan. -/
theorem ofByte_run (commands : List Command) (fan : UInt8) :
    Fan.ofByte <$> run commands fan = Fan.run commands (Fan.ofByte fan) := by
  induction commands generalizing fan with
  | nil => rfl
  | cons command commands ih =>
    rw [run_cons, Fan.run_cons, ← ofByte_perform]
    cases hperform : perform fan command with
    | error stop => rfl
    | ok fan' => exact ih fan'

/-- What a command leaves alone, and the switch. -/
theorem Fan.perform_keeps {fan fan' : Fan} {command : Command}
    (hperform : fan.perform command = .ok fan') :
    fan'.power = powered fan.power [command] ∧ fan'.oscillating = fan.oscillating ∧
      fan'.colour = fan.colour := by
  cases command with
  | turnOn | turnOff | setMinSpeed =>
    cases hperform
    exact ⟨rfl, rfl, rfl⟩
  | setMaxSpeed =>
    unfold Fan.perform at hperform
    split_ifs at hperform with hon
    cases hperform
    exact ⟨rfl, rfl, rfl⟩
  | changeSpeed cmd =>
    cases hperform
    unfold faster slower
    split_ifs <;> exact ⟨rfl, rfl, rfl⟩

theorem Fan.run_keeps {commands : List Command} {fan fan' : Fan}
    (hrun : Fan.run commands fan = .ok fan') :
    fan'.power = powered fan.power commands ∧ fan'.oscillating = fan.oscillating ∧
      fan'.colour = fan.colour := by
  induction commands generalizing fan with
  | nil =>
    cases hrun
    exact ⟨rfl, rfl, rfl⟩
  | cons command commands ih =>
    rw [Fan.run_cons] at hrun
    obtain ⟨fan₁, hperform, hrun⟩ := Outcome.bind_eq_ok.mp hrun
    obtain ⟨hpower₁, hoscillating₁, hcolour₁⟩ := Fan.perform_keeps hperform
    obtain ⟨hpower, hoscillating, hcolour⟩ := ih hrun
    rw [hpower, hpower₁]
    exact ⟨rfl, hoscillating.trans hoscillating₁, hcolour.trans hcolour₁⟩

/-- A command ends the program when it asks a fan that is off for the highest speed. -/
theorem Fan.perform_stops_iff {fan : Fan} {command : Command} :
    (∃ stop, fan.perform command = .error stop) ↔
      command = .setMaxSpeed ∧ fan.power = false := by
  cases command with
  | turnOn | turnOff | setMinSpeed | changeSpeed => simp [Fan.perform]
  | setMaxSpeed =>
    cases hpower : fan.power with
    | true => simp [Fan.perform, hpower]
    | false => simp [Fan.perform, hpower]

theorem Fan.run_stops_iff {commands : List Command} {fan : Fan} :
    (∃ stop, Fan.run commands fan = .error stop) ↔
      ∃ pre post, commands = pre ++ .setMaxSpeed :: post ∧ powered fan.power pre = false := by
  induction commands generalizing fan with
  | nil =>
    constructor
    · rintro ⟨stop, hrun⟩
      cases hrun
    · rintro ⟨pre, post, heq, -⟩
      exact absurd heq (by simp)
  | cons command commands ih =>
    rw [Fan.run_cons]
    cases hperform : fan.perform command with
    | error stop =>
      obtain ⟨rfl, hoff⟩ := Fan.perform_stops_iff.mp ⟨stop, hperform⟩
      exact iff_of_true ⟨stop, rfl⟩ ⟨[], commands, rfl, hoff⟩
    | ok fan₁ =>
      have hpower := (Fan.perform_keeps hperform).1
      rw [Outcome.ok_bind, ih, hpower]
      constructor
      · rintro ⟨pre, post, rfl, hoff⟩
        exact ⟨command :: pre, post, rfl, hoff⟩
      · rintro ⟨pre, post, heq, hoff⟩
        cases pre with
        | nil =>
          -- the first command would have ended the program
          obtain ⟨rfl, -⟩ := List.cons.inj heq
          obtain ⟨stop, hstop⟩ := Fan.perform_stops_iff.mpr ⟨rfl, hoff⟩
          cases hperform.symm.trans hstop
        | cons first pre =>
          obtain ⟨rfl, rfl⟩ := List.cons.inj heq
          exact ⟨pre, post, rfl, hoff⟩

/-- **The register is a fan.** No two registers are the same fan, and any commands do to the
register what they do to the fan. The program ends exactly when the highest speed is asked for
while the last switch was off; otherwise the commands leave the oscillation and the LED as
they were. -/
theorem commands_on_fan (commands : List Command) (fan : UInt8) :
    Function.Bijective Fan.ofByte ∧
      Fan.ofByte <$> run commands fan = Fan.run commands (Fan.ofByte fan) ∧
      ((∃ stop, run commands fan = .error stop) ↔
        ∃ pre post, commands = pre ++ .setMaxSpeed :: post ∧
          powered (Fan.ofByte fan).power pre = false) ∧
      ∀ fan', run commands fan = .ok fan' →
        (Fan.ofByte fan').power = powered (Fan.ofByte fan).power commands ∧
          (Fan.ofByte fan').oscillating = (Fan.ofByte fan).oscillating ∧
          (Fan.ofByte fan').colour = (Fan.ofByte fan).colour := by
  have hrefines := ofByte_run commands fan
  refine ⟨Fan.bijective_ofByte, hrefines, ?_, fun fan' hrun => ?_⟩
  · rw [← Fan.run_stops_iff, ← hrefines]
    cases run commands fan with
    | error stop => exact iff_of_true ⟨stop, rfl⟩ ⟨stop, rfl⟩
    | ok fan' => exact iff_of_false (by rintro ⟨stop, ⟨⟩⟩) (by rintro ⟨stop, ⟨⟩⟩)
  · rw [hrun] at hrefines
    exact Fan.run_keeps hrefines.symm

/-- The commands of `main`. -/
example : run [.turnOn, .setMaxSpeed, .setMinSpeed, .changeSpeed increase, .changeSpeed increase,
    .changeSpeed increase, .changeSpeed increase, .changeSpeed decrease, .changeSpeed decrease,
    .turnOff] 0 = .ok 0x20 := by
  decide

end BareMetal.SmarthFan
