import BareMetal.Problems.Fcw.Operations

/-!
# Switching an engine off

`turn_eng_off` clears a bit by its number, and `toggle_engine_switch_on` tests it by a mask of
its own. The number and the mask of the left engine are of the same bit. Those of the right
engine are not: the bit that is cleared is one that no operation sets.

## Main results

* `spare` — the bit that is cleared for the right engine is never set
* `switchedOff_iff` — a switch that gets to `turn_eng_off` does what it should exactly when it
  is the left one, or the right engine was off
-/

namespace BareMetal.Fcw

open CS Transition LinkedList Byte

/-- The bit that `toggle_engine_switch_on` tests for a switch. -/
def engineMask : ControlSwitch → UInt8
  | .left => leftEngineMask
  | .right => rightEngineMask
  | .other => 0

/-- The number of the bit that `turn_eng_off` clears for a switch. -/
def engineBit : ControlSwitch → UInt8
  | .left => leftEngineBit
  | .right => rightEngineBit
  | .other => 0

/-- `toggle_engine_switch_off` gets to `turn_eng_off`. -/
def TurnsOff (s : Airplane) (p1 p2 : CString) : Prop :=
  Has s.flightControls airbornMask ∧ declareEmergency p1 = 1 ∧ declareEmergency p2 = 1 ∨
    ¬ Has s.flightControls airbornMask ∧ Has s.flightControls groundMask ∧
      (Has s.engineControl leftEngineMask ∨ Has s.engineControl rightEngineMask)

/-- The bit of the switch is clear, and all others are as they were. -/
structure SwitchedOff (s s' : Airplane) (cs : ControlSwitch) : Prop where
  engine : s'.engineControl = s.engineControl &&& ~~~engineMask cs
  flight : s'.flightControls = s.flightControls
  auth : s'.authorizedToFlight = s.authorizedToFlight

/-- On the ground the engine can be switched on. -/
def CanRestart (s : Cockpit) (cs : ControlSwitch) (rec : Recorder) : Prop :=
  Has s.airplane.flightControls groundMask → ∃ s', toggleEngineSwitchOn s cs rec = .ok s' ∧
    Has s'.airplane.engineControl (engineMask cs)

variable {malloc : ℕ ↪ ℕ} {s s' : Cockpit} {cs : ControlSwitch} {p1 p2 cmd : CString}
  {cmdState : CMDState} {operation : Operation} {log : List Command}

/-! ### The bit that nothing sets -/

/-- `record_command` does not change the engines. -/
theorem engineControl_of_record (hcall : recordCommand malloc s cmd cmdState = .ok s') :
    s'.airplane.engineControl = s.airplane.engineControl := by
  unfold recordCommand at hcall
  dsimp only at hcall
  split_ifs at hcall
  · cases hcall
    rfl
  · obtain ⟨⟨heap, bb⟩, -, hcall⟩ := Outcome.bind_eq_ok.mp hcall
    cases hcall
    rfl

/-- The bit with the number 3 is clear. -/
def Spare (s : Cockpit) : Prop := ¬ Has s.airplane.engineControl (switch rightEngineBit)

theorem Spare.record (h : Spare s) (hcall : recordCommand malloc s cmd cmdState = .ok s') :
    Spare s' := by
  unfold Spare
  rwa [engineControl_of_record hcall]

theorem Spare.setFlight (h : Spare s) (flightControls : UInt8) :
    Spare (s.setFlight flightControls) := h

theorem Spare.setAuth (h : Spare s) (authorizedToFlight : UInt8) :
    Spare (s.setAuth authorizedToFlight) := h

/-- An engine is switched on. -/
theorem Spare.setEngine_or (h : Spare s) {mask : UInt8}
    (hmask : ¬ Has mask (switch rightEngineBit)) :
    Spare (s.setEngine (s.airplane.engineControl ||| mask)) :=
  fun hhas => h ((has_or_of_not hmask).mp hhas)

/-- Bits are cleared. -/
theorem Spare.setEngine_clear (h : Spare s) {mask : UInt8}
    (hmask : ~~~mask &&& switch rightEngineBit = switch rightEngineBit ∨
      ~~~mask &&& switch rightEngineBit = 0) :
    Spare (s.setEngine (s.airplane.engineControl &&& ~~~mask)) := by
  rcases hmask with hkept | hcleared
  · exact fun hhas => h ((has_clear_of_ne hkept).mp hhas)
  · exact not_has_clear hcleared

theorem Spare.turnEngOff (h : Spare s)
    (hcall : turnEngOff s cs (recordCommand malloc) = .ok s') : Spare s' := by
  cases cs with
  | left =>
    have hleft : Spare (s.setEngine (s.airplane.engineControl &&& ~~~switch leftEngineBit)) :=
      h.setEngine_clear (Or.inl (by decide))
    unfold Fcw.turnEngOff at hcall
    exact hleft.record hcall
  | right =>
    have hright : Spare (s.setEngine (s.airplane.engineControl &&& ~~~switch rightEngineBit)) :=
      h.setEngine_clear (Or.inr (by decide))
    unfold Fcw.turnEngOff at hcall
    exact hright.record hcall
  | other => exact absurd hcall (turnEngOff_other _ _ _)

theorem Spare.groundEngOff (h : Spare s)
    (hcall : groundEngOff s cs (recordCommand malloc) = .ok s') : Spare s' := by
  unfold Fcw.groundEngOff at hcall
  split_ifs at hcall
  · exact h.record hcall
  · exact h.turnEngOff hcall
  · cases hcall
    exact h

theorem Spare.refill (h : Spare s) (hcall : refill s (recordCommand malloc) = .ok s') :
    Spare s' := by
  unfold Fcw.refill at hcall
  dsimp only at hcall
  split_ifs at hcall
  · exact ((h.setFlight _).setAuth _).record hcall
  · exact h.record hcall

/-- An engine is switched on, or the attempt ends the program. -/
theorem Spare.attempt (h : Spare s) {mask auth : UInt8} {message : String} {p : Prop} [Decidable p]
    (hmask : ¬ Has mask (switch rightEngineBit))
    (hcall : (if p then
        recordCommand malloc ((s.setEngine (s.airplane.engineControl ||| mask)).setAuth auth) cmd
          .on
      else do
        let _ ← recordCommand malloc s cmd .ignored
        .error (.exit 1 message)) = .ok s') : Spare s' := by
  split_ifs at hcall
  · exact ((h.setEngine_or hmask).setAuth auth).record hcall
  · obtain ⟨_, -, herror⟩ := Outcome.bind_eq_ok.mp hcall
    cases herror

theorem Spare.engineOn (h : Spare s)
    (hcall : toggleEngineSwitchOn s cs (recordCommand malloc) = .ok s') : Spare s' := by
  unfold toggleEngineSwitchOn at hcall
  by_cases hboth : Has s.airplane.engineControl leftEngineMask ∧
      Has s.airplane.engineControl rightEngineMask
  · rw [if_pos hboth] at hcall
    exact h.record hcall
  · rw [if_neg hboth] at hcall
    cases cs with
    | left => exact h.attempt (by decide) hcall
    | right => exact h.attempt (by decide) hcall
    | other =>
      obtain ⟨_, -, herror⟩ := Outcome.bind_eq_ok.mp hcall
      cases herror

theorem Spare.engineOff (h : Spare s)
    (hcall : toggleEngineSwitchOff s cs p1 p2 (recordCommand malloc) = .ok s') : Spare s' := by
  unfold toggleEngineSwitchOff at hcall
  split_ifs at hcall
  · obtain ⟨s₁, hcall₁, hcall⟩ := Outcome.bind_eq_ok.mp hcall
    obtain ⟨s₂, hcall₂, hcall⟩ := Outcome.bind_eq_ok.mp hcall
    obtain ⟨s₃, hcall₃, hcall⟩ := Outcome.bind_eq_ok.mp hcall
    exact (((h.record hcall₁).record hcall₂).turnEngOff hcall₃).groundEngOff hcall
  · obtain ⟨s₁, hcall₁, hcall⟩ := Outcome.bind_eq_ok.mp hcall
    exact (h.record hcall₁).record hcall
  · exact h.groundEngOff hcall

theorem Spare.departure (h : Spare s)
    (hcall : executeDeparture s (recordCommand malloc) = .ok s') : Spare s' := by
  obtain ⟨_, -, hcall⟩ := Outcome.bind_eq_ok.mp hcall
  dsimp only at hcall
  split_ifs at hcall
  obtain ⟨s₁, hcall₁, hcall⟩ := Outcome.bind_eq_ok.mp hcall
  obtain ⟨s₂, hcall₂, hcall⟩ := Outcome.bind_eq_ok.mp hcall
  have h₁ : Spare s₁ := (h.setFlight _).record hcall₁
  have h₂ : Spare s₂ := (h₁.setFlight _).record hcall₂
  exact (h₂.setFlight _).record hcall

theorem Spare.landing (h : Spare s)
    (hcall : executeLanding s (recordCommand malloc) = .ok s') : Spare s' := by
  unfold executeLanding at hcall
  dsimp only at hcall
  split_ifs at hcall
  obtain ⟨s₁, hcall₁, hcall⟩ := Outcome.bind_eq_ok.mp hcall
  split_ifs at hcall
  obtain ⟨s₂, hcall₂, hcall⟩ := Outcome.bind_eq_ok.mp hcall
  split_ifs at hcall
  have h₁ : Spare s₁ := (h.setFlight _).record hcall₁
  have h₂ : Spare s₂ := (h₁.setFlight _).record hcall₂
  exact (h₂.setFlight _).record hcall

theorem Spare.perform (h : Spare s)
    (hcall : perform s (recordCommand malloc) operation = .ok s') : Spare s' := by
  cases operation with
  | refill => exact h.refill hcall
  | engineOn cs => exact h.engineOn hcall
  | engineOff cs p1 p2 => exact h.engineOff hcall
  | departure => exact h.departure hcall
  | landing => exact h.landing hcall

theorem spare {trace : Trace Cockpit Operation} (hrun : Run (system malloc) trace s) :
    Spare s := by
  refine hrun.invariant (I := fun _ s => Spare s) (fun s hstart => ?_)
    fun _ s operation s' h hstep => h.perform hstep
  obtain ⟨id, hinit⟩ := hstart
  unfold init at hinit
  obtain ⟨s₁, hcall, hinit⟩ := Outcome.bind_eq_ok.mp hinit
  cases hinit
  have hnew : Spare ⟨⟨id, ⟨none, none⟩, planeDefaultMask, planeDefaultMask, 0⟩, fun _ => none, 0⟩ :=
    fun hhas => absurd hhas (by decide : ¬ Has planeDefaultMask (switch rightEngineBit))
  have h₁ : Spare s₁ := (hnew.setFlight _).record hcall
  exact h₁.setAuth _

/-! ### Switching off -/

/-- The bytes after `turn_eng_off`. -/
theorem exists_turnEngOff (h : Recorded malloc s.heap s.airplane.bb s.allocated log)
    (hcs : cs ≠ .other) :
    ∃ s', turnEngOff s cs (recordCommand malloc) = .ok s' ∧
      s'.airplane.flightControls = s.airplane.flightControls ∧
      s'.airplane.engineControl = s.airplane.engineControl &&& ~~~switch (engineBit cs) ∧
      s'.airplane.authorizedToFlight = s.airplane.authorizedToFlight := by
  cases cs with
  | left =>
    obtain ⟨s', hcall, -, hbytes⟩ :=
      record (s := s.setEngine (s.airplane.engineControl &&& ~~~switch leftEngineBit)) h
        (by decide : (CString.ofString "LEFT-ENG").length < maxCmdSize) .off
    exact ⟨s', hcall, hbytes⟩
  | right =>
    obtain ⟨s', hcall, -, hbytes⟩ :=
      record (s := s.setEngine (s.airplane.engineControl &&& ~~~switch rightEngineBit)) h
        (by decide : (CString.ofString "RIGHT_ENG").length < maxCmdSize) .off
    exact ⟨s', hcall, hbytes⟩
  | other => exact absurd rfl hcs

/-- The bytes after a switch that gets to `turn_eng_off`. -/
theorem exists_toggleEngineSwitchOff (h : Recorded malloc s.heap s.airplane.bb s.allocated log)
    (hcs : cs ≠ .other) (hturns : TurnsOff s.airplane p1 p2) :
    ∃ s', toggleEngineSwitchOff s cs p1 p2 (recordCommand malloc) = .ok s' ∧
      s'.airplane.flightControls = s.airplane.flightControls ∧
      s'.airplane.engineControl = s.airplane.engineControl &&& ~~~switch (engineBit cs) ∧
      s'.airplane.authorizedToFlight = s.airplane.authorizedToFlight := by
  unfold toggleEngineSwitchOff
  rcases hturns with ⟨hair, h1, h2⟩ | ⟨hair, hground, hon⟩
  · -- the emergency: two records, and then the engine
    obtain ⟨s₁, hcall₁, hrec₁, hflight₁, hengine₁, hauth₁⟩ :=
      record h (by decide : (CString.ofString "ABENG-OFF").length < maxCmdSize) .ignored
    obtain ⟨s₂, hcall₂, hrec₂, hflight₂, hengine₂, hauth₂⟩ :=
      record hrec₁ (by decide : (CString.ofString "EMERGENCY").length < maxCmdSize) .on
    obtain ⟨s₃, hcall₃, hflight₃, hengine₃, hauth₃⟩ := exists_turnEngOff hrec₂ hcs
    -- the airplane is in the air all the time
    have hair₃ : ¬ (Has s₃.airplane.flightControls groundMask ∧
        ¬ Has s₃.airplane.flightControls airbornMask) := by
      rw [hflight₃, hflight₂, hflight₁]
      exact fun hphase => hphase.2 hair
    rw [if_pos hair, hcall₁, Outcome.ok_bind, if_pos ⟨h1, h2⟩, hcall₂, Outcome.ok_bind, hcall₃,
      Outcome.ok_bind, groundEngOff, if_neg hair₃]
    refine ⟨s₃, rfl, ?_, ?_, ?_⟩
    · rw [hflight₃, hflight₂, hflight₁]
    · rw [hengine₃, hengine₂, hengine₁]
    · rw [hauth₃, hauth₂, hauth₁]
  · rw [if_neg hair, groundEngOff, if_pos ⟨hground, hair⟩,
      if_neg fun hoff => hon.elim hoff.1 hoff.2]
    exact exists_turnEngOff h hcs

/-- An engine whose bit is clear can be switched on. -/
theorem canRestart (h : Recorded malloc s.heap s.airplane.bb s.allocated log) (hcs : cs ≠ .other)
    (hoff : ¬ Has s.airplane.engineControl (engineMask cs)) :
    CanRestart s cs (recordCommand malloc) := by
  intro hground
  unfold toggleEngineSwitchOn
  cases cs with
  | left =>
    rw [if_neg fun hboth => hoff hboth.1]
    dsimp only
    rw [if_pos ⟨hoff, hground⟩]
    obtain ⟨s', hcall, -, -, hengine, -⟩ := record
      (s := (s.setEngine (s.airplane.engineControl ||| leftEngineMask)).setAuth
        (s.airplane.authorizedToFlight ||| authLEng)) h
      (by decide : (CString.ofString "LEFT-ENG").length < maxCmdSize) .on
    refine ⟨s', hcall, ?_⟩
    rw [hengine]
    exact has_or_of_has (by decide)
  | right =>
    rw [if_neg fun hboth => hoff hboth.2]
    dsimp only
    rw [if_pos ⟨hoff, hground⟩]
    obtain ⟨s', hcall, -, -, hengine, -⟩ := record
      (s := (s.setEngine (s.airplane.engineControl ||| rightEngineMask)).setAuth
        (s.airplane.authorizedToFlight ||| authREng)) h
      (by decide : (CString.ofString "RIGHT-ENG").length < maxCmdSize) .on
    refine ⟨s', hcall, ?_⟩
    rw [hengine]
    exact has_or_of_has (by decide)
  | other => exact absurd rfl hcs

/-- The switch does what it should. -/
def SwitchesOff (s : Cockpit) (cs : ControlSwitch) (p1 p2 : CString) (rec : Recorder) : Prop :=
  ∃ s', toggleEngineSwitchOff s cs p1 p2 rec = .ok s' ∧ SwitchedOff s.airplane s'.airplane cs ∧
    CanRestart s' cs rec

/-- **Switching an engine off.** After every run, a switch that gets to `turn_eng_off` clears
the bit of its engine and no other, so that the engine can be switched on again, exactly when
it is not the switch of a right engine that is on. -/
theorem switchedOff_iff {trace : Trace Cockpit Operation} (hrun : Run (system malloc) trace s)
    (hcs : cs ≠ .other) (hturns : TurnsOff s.airplane p1 p2) :
    SwitchesOff s cs p1 p2 (recordCommand malloc) ↔
      (cs = .right → ¬ Has s.airplane.engineControl rightEngineMask) := by
  have h := represents hrun
  obtain ⟨log, hrec, -⟩ := h.recorded
  obtain ⟨s', hcall, hflight, hengine, hauth⟩ := exists_toggleEngineSwitchOff hrec hcs hturns
  constructor
  · rintro ⟨s'', hcall', hoff, -⟩ rfl hon
    obtain rfl := Except.ok.inj (hcall.symm.trans hcall')
    -- the bit of the engine is still set
    have hstill : Has s'.airplane.engineControl rightEngineMask := by
      rw [hengine]
      exact (has_clear_of_ne (by decide)).mpr hon
    rw [hoff.engine] at hstill
    exact not_has_clear (by decide) hstill
  · intro hright
    have hclear : s'.airplane.engineControl = s.airplane.engineControl &&& ~~~engineMask cs := by
      rw [hengine]
      cases cs with
      | left => rfl
      | right =>
        -- both the bit that is cleared and the one that should be are clear already
        rw [engineBit, engineMask, clear_of_not_has (hright rfl)]
        exact clear_of_not_has (spare hrun)
      | other => exact absurd rfl hcs
    have hstep : perform s (recordCommand malloc) (.engineOff cs p1 p2) = .ok s' := hcall
    obtain ⟨log', hrec', -⟩ := (h.step hstep).recorded
    -- the bit that the other switch tests is clear now
    refine ⟨s', hcall, ⟨hclear, hflight, hauth⟩, canRestart hrec' hcs ?_⟩
    rw [hclear]
    apply not_has_clear
    cases cs <;> decide

/-- `main` switches the left engine off after the landing. -/
theorem switchedOff_left : ∃ trace s, Run (system (.refl ℕ)) trace s ∧
    events trace = [.refill, .engineOn .right, .engineOn .left, .departure, .landing] ∧
    SwitchesOff s .left [] [] (recordCommand (.refl ℕ)) := by
  obtain ⟨trace, s, hrun, hevents⟩ := exists_run (.refl ℕ) "WA-777"
    (by decide : Flight.new.Permits
      [.refill, .engineOn .right, .engineOn .left, .departure, .landing])
  have hc := (represents hrun).controls
  rw [hevents] at hc
  have hturns : TurnsOff s.airplane [] [] :=
    Or.inr ⟨fun hair => absurd (hc.airborn.mp hair) (by decide), hc.ground.mpr (by decide),
      Or.inl (hc.left.mpr (by decide))⟩
  have hcs : ControlSwitch.left ≠ .other := by decide
  exact ⟨trace, s, hrun, hevents, (switchedOff_iff hrun hcs hturns).mpr fun heq => nomatch heq⟩

/-- The right engine stays on when it is switched off on the ground, and an attempt to switch
it on again ends the process. -/
theorem right_engine_stays_on : ∃ trace s s', Run (system (.refl ℕ)) trace s ∧
    events trace = [.refill, .engineOn .right] ∧
    toggleEngineSwitchOff s .right [] [] (recordCommand (.refl ℕ)) = .ok s' ∧
    Has s'.airplane.engineControl rightEngineMask ∧
    toggleEngineSwitchOn s' .right (recordCommand (.refl ℕ)) = .error (.exit 1
      "ALERT: An attempt to turn the RIGHT engine ON failed. Departure aborted\n") := by
  obtain ⟨trace, s, hrun, hevents⟩ := exists_run (.refl ℕ) "WA-777"
    (by decide : Flight.new.Permits [.refill, .engineOn .right])
  have h := represents hrun
  rw [hevents] at h
  obtain ⟨s', hcall, h'⟩ : ∃ s', toggleEngineSwitchOff s .right [] [] (recordCommand (.refl ℕ)) =
      .ok s' ∧ Represents (.refl ℕ) s' _ := h.engineOff trivial
  have hright : Has s'.airplane.engineControl rightEngineMask := h'.controls.right.mpr (by decide)
  have hleft : ¬ Has s'.airplane.engineControl leftEngineMask :=
    fun hon => absurd (h'.controls.left.mp hon) (by decide)
  obtain ⟨s'', hrecord, -⟩ : ∃ s'', recordCommand (.refl ℕ) s' (.ofString "RIGHT-ENG") .ignored =
      .ok s'' ∧ _ := h'.silent (by decide) (by decide)
  refine ⟨trace, s, s', hrun, hevents, hcall, hright, ?_⟩
  rw [toggleEngineSwitchOn, if_neg fun hboth => hleft hboth.1]
  dsimp only
  rw [if_neg fun hoff => hoff.1 hright]
  exact (congrArg (· >>= _) hrecord).trans rfl

end BareMetal.Fcw
