import BareMetal.CS.Byte
import BareMetal.CS.Chains
import BareMetal.CS.Text
import BareMetal.CS.Transition

/-!
# The flight controls of `problems/fcw.c`

An airplane keeps its facts in three bytes: where it is and its fuel, its engines, and a
checklist that the control tower looks at before a departure. Every operation changes
bits and hands a name and a state to a recorder, which appends them to the black box.

The operations take the recorder as their argument. A run is a sequence of operations
that return, with `record_command` as the recorder and allocations that succeed.
-/

namespace BareMetal.Fcw

open CS Transition LinkedList Byte

/-- `SWITCH`. -/
def switch (x : UInt8) : UInt8 := 1 <<< x

/-- `PLANE_DEFAULT_MASK`. -/
def planeDefaultMask : UInt8 := 0x00

/-- `GROUND_MASK`. -/
def groundMask : UInt8 := 0x01

/-- `AIRBORN_MASK`. -/
def airbornMask : UInt8 := 0x02

/-- `FUEl_MASK`. -/
def fuelMask : UInt8 := 0x04

/-- `LANDING_GEAR_MASK`. -/
def landingGearMask : UInt8 := 0x80

/-- `GROUND_BIT`. -/
def groundBit : UInt8 := 0

/-- `AIRBORNE_BIT`. -/
def airborneBit : UInt8 := 1

/-- `LEFT_ENGINE_MASK`. -/
def leftEngineMask : UInt8 := 0x02

/-- `RIGHT_ENGINE_MASK`. -/
def rightEngineMask : UInt8 := 0x04

/-- `LEFT_ENGINE_BIT`. -/
def leftEngineBit : UInt8 := 1

/-- `RIGHT_ENGINE_BIT`, which is not the bit of `RIGHT_ENGINE_MASK`. -/
def rightEngineBit : UInt8 := 3

/-- `AUTH_GROUND`. -/
def authGround : UInt8 := 0x01

/-- `AUTH_FUEL`. -/
def authFuel : UInt8 := 0x02

/-- `AUTH_L_ENG`. -/
def authLEng : UInt8 := 0x04

/-- `AUTH_R_ENG`. -/
def authREng : UInt8 := 0x80

/-- `AUTH_APPROVAL_CODE`. -/
def authApprovalCode : ℕ := 4

/-- `MAX_CMD_SIZE`. -/
def maxCmdSize : ℕ := 10

/-- `CMDState`. -/
inductive CMDState
  | on
  | off
  | ignored
  | mayday
  deriving DecidableEq, Repr

/-- `ControlSwitch`, and the other values of its type. -/
inductive ControlSwitch
  | left
  | right
  | other
  deriving DecidableEq, Repr

/-- `Command`, without the pointer to the next one. -/
structure Command where
  name : CString
  state : CMDState
  deriving DecidableEq, Repr

/-- `Airplane`; `bb` are the ends of the black box. -/
structure Airplane where
  id : String
  bb : Ends
  flightControls : UInt8
  engineControl : UInt8
  authorizedToFlight : UInt8
  deriving DecidableEq, Repr

/-- An airplane, and the heap that its black box is on. -/
structure Cockpit where
  airplane : Airplane
  heap : Heap Command
  allocated : ℕ

/-- The type of the callback `rec`. -/
abbrev Recorder := Cockpit → CString → CMDState → Outcome Cockpit

/-- `record_command`, with the address that `malloc` returns for the command. A name that
is too long is not recorded. -/
def recordCommand (malloc : ℕ ↪ ℕ) : Recorder := fun s cmd cmdState =>
  let command := malloc s.allocated
  if cmd.length + 1 > maxCmdSize then .ok { s with allocated := s.allocated + 1 }
  else do
    let (heap, bb) ← insertLast (s.heap.alloc command ⟨cmd, cmdState⟩) s.airplane.bb command
    .ok ⟨{ s.airplane with bb := bb }, heap, s.allocated + 1⟩

/-- `airplane->flight_controls = …`. -/
def Cockpit.setFlight (s : Cockpit) (flightControls : UInt8) : Cockpit :=
  { s with airplane := { s.airplane with flightControls := flightControls } }

/-- `airplane->engine_control = …`. -/
def Cockpit.setEngine (s : Cockpit) (engineControl : UInt8) : Cockpit :=
  { s with airplane := { s.airplane with engineControl := engineControl } }

/-- `airplane->authorized_to_flight = …`. -/
def Cockpit.setAuth (s : Cockpit) (authorizedToFlight : UInt8) : Cockpit :=
  { s with airplane := { s.airplane with authorizedToFlight := authorizedToFlight } }

@[simp] theorem setFlight_flightControls (s : Cockpit) (x : UInt8) :
    (s.setFlight x).airplane.flightControls = x := rfl

@[simp] theorem setFlight_engineControl (s : Cockpit) (x : UInt8) :
    (s.setFlight x).airplane.engineControl = s.airplane.engineControl := rfl

@[simp] theorem setFlight_authorizedToFlight (s : Cockpit) (x : UInt8) :
    (s.setFlight x).airplane.authorizedToFlight = s.airplane.authorizedToFlight := rfl

/-- `init`. -/
def init (id : String) (rec : Recorder) : Outcome Cockpit := do
  let s : Cockpit :=
    ⟨⟨id, ⟨none, none⟩, planeDefaultMask, planeDefaultMask, 0⟩, fun _ => none, 0⟩
  let s := s.setFlight (s.airplane.flightControls ||| groundMask)
  let s ← rec s (.ofString "IS-GROUND") .on
  .ok (s.setAuth (s.airplane.authorizedToFlight ||| authGround))

/-- `refill`. -/
def refill (s : Cockpit) (rec : Recorder) : Outcome Cockpit :=
  if ¬ Has s.airplane.flightControls groundMask then
    .error (.exit 1
      s!"Flight {s.airplane.id} GROUND control state is NOT valid. Operation aborted\n")
  else if ¬ Has s.airplane.flightControls fuelMask ∧
      Has s.airplane.flightControls groundMask then
    let s := s.setFlight (s.airplane.flightControls ||| fuelMask)
    let s := s.setAuth (s.airplane.authorizedToFlight ||| authFuel)
    rec s (.ofString "REFILL") .on
  else rec s (.ofString "REFILL") .ignored

/-- `toggle_engine_switch_on`. -/
def toggleEngineSwitchOn (s : Cockpit) (cs : ControlSwitch) (rec : Recorder) : Outcome Cockpit :=
  if Has s.airplane.engineControl leftEngineMask ∧
      Has s.airplane.engineControl rightEngineMask then
    rec s (.ofString "ENGINE-ON") .ignored
  else
    match cs with
    | .left =>
      if ¬ Has s.airplane.engineControl leftEngineMask ∧
          Has s.airplane.flightControls groundMask then
        let s := s.setEngine (s.airplane.engineControl ||| leftEngineMask)
        let s := s.setAuth (s.airplane.authorizedToFlight ||| authLEng)
        rec s (.ofString "LEFT-ENG") .on
      else do
        let _ ← rec s (.ofString "LEFT-ENG") .ignored
        .error (.exit 1
          "ALERT: An attempt to turn the LEFT engine ON failed. Departure aborted\n")
    | .right =>
      if ¬ Has s.airplane.engineControl rightEngineMask ∧
          Has s.airplane.flightControls groundMask then
        let s := s.setEngine (s.airplane.engineControl ||| rightEngineMask)
        let s := s.setAuth (s.airplane.authorizedToFlight ||| authREng)
        rec s (.ofString "RIGHT-ENG") .on
      else do
        let _ ← rec s (.ofString "RIGHT-ENG") .ignored
        .error (.exit 1
          "ALERT: An attempt to turn the RIGHT engine ON failed. Departure aborted\n")
    | .other => do
      let _ ← rec s (.ofString "ENGINE-ON") .ignored
      .error (.exit 1 "CODE: Invalid ControlSwitch, the Operation will be aborted\n")

/-- The steps of the checklist that `request_departure_auth` counts. -/
def approvalSteps (checklistStatus : UInt8) : ℕ :=
  (if Has checklistStatus authGround then 1 else 0) +
    (if Has checklistStatus authFuel then 1 else 0) +
    (if Has checklistStatus authLEng then 1 else 0) +
    (if Has checklistStatus authREng then 1 else 0)

/-- `request_departure_auth`. -/
def requestDepartureAuth (airplane : Airplane) : Outcome Unit :=
  if approvalSteps airplane.authorizedToFlight = authApprovalCode then .ok ()
  else .error (.exit 1 s!"Flight {airplane.id} authorization DENIED\n")

/-- `execute_departure`. -/
def executeDeparture (s : Cockpit) (rec : Recorder) : Outcome Cockpit := do
  requestDepartureAuth s.airplane
  let s := s.setFlight (s.airplane.flightControls &&& ~~~switch groundBit)
  if ¬ Has s.airplane.flightControls groundMask then
    let s ← rec s (.ofString "IS-GROUND") .off
    let s := s.setFlight (s.airplane.flightControls ||| landingGearMask)
    let s ← rec s (.ofString "LAND-GEAR") .off
    let s := s.setFlight (s.airplane.flightControls ||| switch airborneBit)
    rec s (.ofString "IS-ONAIR") .on
  else .error (.exit 1 "ALERT: GROUND Switch failed, departure aborted\n")

/-- `declare_emergency`, for the line that the pilot types. -/
def declareEmergency (buffer : CString) : UInt8 :=
  if buffer = .ofString "YES" ∨ buffer = .ofString "yes" then 1 else 0

/-- `turn_eng_off`. -/
def turnEngOff (s : Cockpit) (cs : ControlSwitch) (rec : Recorder) : Outcome Cockpit :=
  match cs with
  | .left =>
    rec (s.setEngine (s.airplane.engineControl &&& ~~~switch leftEngineBit))
      (.ofString "LEFT-ENG") .off
  | .right =>
    rec (s.setEngine (s.airplane.engineControl &&& ~~~switch rightEngineBit))
      (.ofString "RIGHT_ENG") .off
  | .other => do
    let _ ← rec s (.ofString "ENG-OFF") .ignored
    .error (.exit 1 "CODE: Invalid ControlSwitch, the Operation will be aborted\n")

/-- What `toggle_engine_switch_off` does on the ground. -/
def groundEngOff (s : Cockpit) (cs : ControlSwitch) (rec : Recorder) : Outcome Cockpit :=
  if Has s.airplane.flightControls groundMask ∧ ¬ Has s.airplane.flightControls airbornMask then
    if ¬ Has s.airplane.engineControl leftEngineMask ∧
        ¬ Has s.airplane.engineControl rightEngineMask then
      rec s (.ofString "ENG-OFF") .ignored
    else turnEngOff s cs rec
  else .ok s

/-- `toggle_engine_switch_off`, for the lines that the two pilots type. -/
def toggleEngineSwitchOff (s : Cockpit) (cs : ControlSwitch) (p1 p2 : CString) (rec : Recorder) :
    Outcome Cockpit :=
  if Has s.airplane.flightControls airbornMask then do
    let s ← rec s (.ofString "ABENG-OFF") .ignored
    if declareEmergency p1 = 1 ∧ declareEmergency p2 = 1 then
      let s ← rec s (.ofString "EMERGENCY") .on
      let s ← turnEngOff s cs rec
      groundEngOff s cs rec
    else rec s (.ofString "EMERGENCY") .ignored
  else groundEngOff s cs rec

/-- `request_landing_auth`. -/
def requestLandingAuth (airplane : Airplane) : UInt8 :=
  if Has airplane.flightControls landingGearMask ∧ Has airplane.flightControls airbornMask then 1
  else 0

/-- `execute_landing`. -/
def executeLanding (s : Cockpit) (rec : Recorder) : Outcome Cockpit :=
  if requestLandingAuth s.airplane = 1 then
    let s := s.setFlight (s.airplane.flightControls ||| landingGearMask)
    if ¬ Has s.airplane.flightControls landingGearMask then
      .error (.exit 1 "ALERT: Problem retreating LANDING GEAR. Go Around Required")
    else do
      let s ← rec s (.ofString "LAND-GEAR") .on
      let s := s.setFlight (s.airplane.flightControls &&& ~~~switch airborneBit)
      if Has s.airplane.flightControls airbornMask then
        .error (.exit 1 "ALERT: Wrong Airplane STATE. Expected AIRBORN to be OFF\n")
      else
        let s ← rec s (.ofString "LANDED") .on
        let s := s.setFlight (s.airplane.flightControls ||| switch groundBit)
        if ¬ Has s.airplane.flightControls groundMask then
          .error (.exit 1 "ALERT: Wrong Airplane STATE. Expected GROUND to be ON\n")
        else rec s (.ofString "IS-GROUD") .on
  else
    .error (.exit 1
      "Authorization DENIED, please go around and perform the landing checklist again\n")

/-! ### Runs -/

/-- An operation, with the lines that the pilots type. -/
inductive Operation
  | refill
  | engineOn (cs : ControlSwitch)
  | engineOff (cs : ControlSwitch) (p1 p2 : CString)
  | departure
  | landing
  deriving DecidableEq, Repr

/-- What the operations do. -/
def perform (s : Cockpit) (rec : Recorder) : Operation → Outcome Cockpit
  | .refill => refill s rec
  | .engineOn cs => toggleEngineSwitchOn s cs rec
  | .engineOff cs p1 p2 => toggleEngineSwitchOff s cs p1 p2 rec
  | .departure => executeDeparture s rec
  | .landing => executeLanding s rec

/-- Sequences of operations that return, on a new airplane. -/
def system (malloc : ℕ ↪ ℕ) : System Cockpit Operation where
  start s := ∃ id, init id (recordCommand malloc) = .ok s
  step s e s' := perform s (recordCommand malloc) e = .ok s'

end BareMetal.Fcw
