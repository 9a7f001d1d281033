import BareMetal.Problems.Fcw.Basic

/-!
# The flight of an airplane

`Flight` is the history of an airplane as far as the operations depend on it. What the
bytes and the black box of an airplane say is a matter of its flight alone: `Controls` and
`Journal` list what they say, and `Represents` is both together.

## Main results

* `record` — a command with a short name is recorded, and no byte changes
* `Represents.silent` — most records leave airplane and flight as they are
-/

namespace BareMetal.Fcw

open CS Transition LinkedList Byte

/-- Both pilots have confirmed the emergency. -/
def confirmed (p1 p2 : CString) : Bool := declareEmergency p1 == 1 && declareEmergency p2 == 1

/-- What has happened to an airplane. -/
@[ext]
structure Flight where
  /-- The last departure has no landing after it. -/
  aloft : Bool
  departed : Bool
  refilled : Bool
  leftOn : Bool
  leftEver : Bool
  rightEver : Bool
  deriving DecidableEq, Repr

namespace Flight

/-- A new airplane. -/
def new : Flight := ⟨false, false, false, false, false, false⟩

/-- What an operation that returns does. The right engine never goes off. -/
def apply (f : Flight) : Operation → Flight
  | .refill => { f with refilled := true }
  | .engineOn .left => { f with leftOn := true, leftEver := true }
  | .engineOn .right => { f with rightEver := true }
  | .engineOn .other => f
  | .engineOff .left p1 p2 => { f with leftOn := f.leftOn && f.aloft && !confirmed p1 p2 }
  | .engineOff .right _ _ => f
  | .engineOff .other _ _ => f
  | .departure => { f with aloft := true, departed := true }
  | .landing => { f with aloft := false }

/-- The operations that return. -/
def Allows (f : Flight) : Operation → Prop
  | .refill => f.aloft = false
  | .engineOn .left => f.leftOn ∧ f.rightEver ∨ f.leftOn = false ∧ f.aloft = false
  | .engineOn .right => f.leftOn ∧ f.rightEver ∨ f.rightEver = false ∧ f.aloft = false
  | .engineOn .other => f.leftOn ∧ f.rightEver
  | .engineOff .left _ _ => True
  | .engineOff .right _ _ => True
  | .engineOff .other p1 p2 =>
    if f.aloft then confirmed p1 p2 = false else f.leftOn = false ∧ f.rightEver = false
  | .departure => f.refilled ∧ f.leftEver ∧ f.rightEver
  | .landing => f.aloft

instance (f : Flight) (operation : Operation) : Decidable (f.Allows operation) :=
  match operation with
  | .refill => inferInstanceAs (Decidable (_ = _))
  | .engineOn .left => inferInstanceAs (Decidable (_ ∨ _))
  | .engineOn .right => inferInstanceAs (Decidable (_ ∨ _))
  | .engineOn .other => inferInstanceAs (Decidable (_ ∧ _))
  | .engineOff .left _ _ => inferInstanceAs (Decidable True)
  | .engineOff .right _ _ => inferInstanceAs (Decidable True)
  | .engineOff .other _ _ => inferInstanceAs (Decidable (ite _ _ _))
  | .departure => inferInstanceAs (Decidable (_ ∧ _))
  | .landing => inferInstanceAs (Decidable (_ = _))

/-- Each operation of a sequence returns after the ones before it. -/
def Permits (f : Flight) : List Operation → Prop
  | [] => True
  | operation :: rest => f.Allows operation ∧ (f.apply operation).Permits rest

instance decidablePermits : (f : Flight) → (operations : List Operation) →
    Decidable (f.Permits operations)
  | _, [] => inferInstanceAs (Decidable True)
  | f, operation :: rest =>
    have := decidablePermits (f.apply operation) rest
    inferInstanceAs (Decidable (_ ∧ _))

end Flight

/-- The flight after a sequence of operations. -/
def flight (operations : List Operation) : Flight := operations.foldl Flight.apply Flight.new

/-- The bytes of an airplane. -/
structure Controls (flightControls engineControl authorizedToFlight : UInt8) (f : Flight) :
    Prop where
  ground : Has flightControls groundMask ↔ f.aloft = false
  airborn : Has flightControls airbornMask ↔ f.aloft
  fuel : Has flightControls fuelMask ↔ f.refilled
  gear : f.departed → Has flightControls landingGearMask
  left : Has engineControl leftEngineMask ↔ f.leftOn
  right : Has engineControl rightEngineMask ↔ f.rightEver
  authGround : Has authorizedToFlight authGround
  authFuel : Has authorizedToFlight authFuel ↔ f.refilled
  authLEng : Has authorizedToFlight authLEng ↔ f.leftEver
  authREng : Has authorizedToFlight authREng ↔ f.rightEver
  departed : f.aloft → f.departed
  leftEver : f.leftOn → f.leftEver

/-- The state of the latest record of a name that is `ON` or `OFF`. -/
def latest (name : CString) (log : List Command) : Option CMDState :=
  (log.reverse.find? fun command =>
    command.name == name && (command.state == .on || command.state == .off)).map Command.state

/-- The name under which a departure leaves the ground. -/
def isGround : CString := .ofString "IS-GROUND"

/-- The name under which a departure is in the air. -/
def isOnAir : CString := .ofString "IS-ONAIR"

/-- The name of the left engine. -/
def leftEng : CString := .ofString "LEFT-ENG"

/-- The name of the right engine. -/
def rightEng : CString := .ofString "RIGHT-ENG"

/-- What the black box says. -/
structure Journal (log : List Command) (f : Flight) : Prop where
  ground : latest isGround log = some (if f.departed then .off else .on)
  onAir : latest isOnAir log = if f.departed then some .on else none
  left : latest leftEng log = some .on ↔ f.leftOn
  right : latest rightEng log = some .on ↔ f.rightEver

/-- The black box holds the log. -/
def Recorded (malloc : ℕ ↪ ℕ) (heap : Heap Command) (bb : Ends) (allocated : ℕ)
    (log : List Command) : Prop :=
  ∃ nodes, Holds heap bb nodes ∧ nodes.map Prod.snd = log ∧ Fresh malloc heap allocated

/-- The airplane is on the flight, and its black box agrees with it. -/
structure Represents (malloc : ℕ ↪ ℕ) (s : Cockpit) (f : Flight) : Prop where
  controls : Controls s.airplane.flightControls s.airplane.engineControl
    s.airplane.authorizedToFlight f
  recorded : ∃ log, Recorded malloc s.heap s.airplane.bb s.allocated log ∧ Journal log f

variable {malloc : ℕ ↪ ℕ} {s : Cockpit} {f : Flight} {log : List Command} {cmd : CString}

/-! ### Recording -/

theorem latest_concat (name : CString) (log : List Command) (command : Command) :
    latest name (log ++ [command]) =
      if command.name = name ∧ (command.state = .on ∨ command.state = .off) then
        some command.state
      else latest name log := by
  unfold latest
  rw [List.reverse_append, List.reverse_singleton, List.singleton_append]
  split_ifs with h
  · rw [List.find?_cons_of_pos (by simpa using h), Option.map_some]
  · rw [List.find?_cons_of_neg (by simpa using h)]

theorem latest_of_ne {name : CString} {command : Command} (h : command.name ≠ name) :
    latest name (log ++ [command]) = latest name log := by
  rw [latest_concat, if_neg fun hsays => h hsays.1]

theorem latest_on (name : CString) (log : List Command) :
    latest name (log ++ [⟨name, .on⟩]) = some .on := by
  rw [latest_concat, if_pos ⟨rfl, Or.inl rfl⟩]

theorem latest_off (name : CString) (log : List Command) :
    latest name (log ++ [⟨name, .off⟩]) = some .off := by
  rw [latest_concat, if_pos ⟨rfl, Or.inr rfl⟩]

/-- A command with a short name is recorded, and no byte changes. -/
theorem record (h : Recorded malloc s.heap s.airplane.bb s.allocated log)
    (hlength : cmd.length < maxCmdSize) (cmdState : CMDState) :
    ∃ s', recordCommand malloc s cmd cmdState = .ok s' ∧
      Recorded malloc s'.heap s'.airplane.bb s'.allocated (log ++ [⟨cmd, cmdState⟩]) ∧
      s'.airplane.flightControls = s.airplane.flightControls ∧
      s'.airplane.engineControl = s.airplane.engineControl ∧
      s'.airplane.authorizedToFlight = s.airplane.authorizedToFlight := by
  obtain ⟨nodes, hholds, rfl, hfresh⟩ := h
  have hfree := hfresh s.allocated (Nat.le_refl _)
  obtain ⟨heap, bb, hinsert, hholds', hframe⟩ := hholds.insertLast hfree ⟨cmd, cmdState⟩
  refine ⟨⟨{ s.airplane with bb := bb }, heap, s.allocated + 1⟩, ?_,
    ⟨_, hholds', by simp, hfresh.succ fun b hb hnone => ?_⟩, rfl, rfl, rfl⟩
  · rw [recordCommand, if_neg (by omega), hinsert, Outcome.ok_bind]
  · exact (hframe b (fun hmem => hholds.fresh hnone hmem) hb).trans hnone

/-- A record that says nothing of the four names. -/
theorem Journal.ignore (h : Journal log f) {command : Command}
    (hother : ∀ name ∈ [isGround, isOnAir, leftEng, rightEng],
      ¬ (command.name = name ∧ (command.state = .on ∨ command.state = .off))) :
    Journal (log ++ [command]) f where
  ground := by rw [latest_concat, if_neg (hother _ (by simp)), h.ground]
  onAir := by rw [latest_concat, if_neg (hother _ (by simp)), h.onAir]
  left := by rw [latest_concat, if_neg (hother _ (by simp)), h.left]
  right := by rw [latest_concat, if_neg (hother _ (by simp)), h.right]

/-- A last record, after which the bytes and the log agree. -/
theorem Recorded.last (h : Recorded malloc s.heap s.airplane.bb s.allocated log)
    (hc : Controls s.airplane.flightControls s.airplane.engineControl
      s.airplane.authorizedToFlight f) {cmdState : CMDState}
    (hj : Journal (log ++ [⟨cmd, cmdState⟩]) f) (hlength : cmd.length < maxCmdSize) :
    ∃ s', recordCommand malloc s cmd cmdState = .ok s' ∧ Represents malloc s' f := by
  obtain ⟨s', hcall, hrec, hflight, hengine, hauth⟩ := record h hlength cmdState
  rw [← hflight, ← hengine, ← hauth] at hc
  exact ⟨s', hcall, hc, _, hrec, hj⟩

/-- A record that says nothing of the four names leaves airplane and flight as they are. -/
theorem Represents.silent (h : Represents malloc s f) {cmdState : CMDState}
    (hother : ∀ name ∈ [isGround, isOnAir, leftEng, rightEng],
      ¬ (cmd = name ∧ (cmdState = .on ∨ cmdState = .off)))
    (hlength : cmd.length < maxCmdSize) :
    ∃ s', recordCommand malloc s cmd cmdState = .ok s' ∧ Represents malloc s' f := by
  obtain ⟨hc, log, hrec, hj⟩ := h
  exact hrec.last hc (hj.ignore hother) hlength

end BareMetal.Fcw
