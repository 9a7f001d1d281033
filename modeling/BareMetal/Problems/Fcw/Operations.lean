import BareMetal.Problems.Fcw.Flight

/-!
# What the operations do to a flight

## Main results

* `Represents.perform` — an operation that the flight allows returns
* `Represents.step` — an operation that returns does to the airplane what it does to
  the flight
* `represents` — after every run the airplane is on the flight of the operations
* `exists_run` — a sequence of operations, each allowed after the ones before it, has a run
-/

namespace BareMetal.Fcw

open CS Transition LinkedList Byte

variable {malloc : ℕ ↪ ℕ} {s s' : Cockpit} {f : Flight}

theorem Represents.refill (h : Represents malloc s f) (hallows : f.Allows .refill) :
    ∃ s', refill s (recordCommand malloc) = .ok s' ∧ Represents malloc s' (f.apply .refill) := by
  have hground : Has s.airplane.flightControls groundMask := h.controls.ground.mpr hallows
  unfold Fcw.refill
  rw [if_neg (not_not_intro hground)]
  by_cases hfuel : Has s.airplane.flightControls fuelMask
  · have hsame : f.apply .refill = f :=
      Flight.ext rfl rfl (Eq.symm (h.controls.fuel.mp hfuel)) rfl rfl rfl
    rw [if_neg fun hempty => hempty.1 hfuel, hsame]
    exact h.silent (by decide) (by decide)
  · rw [if_pos ⟨hfuel, hground⟩]
    obtain ⟨hc, log, hrec, hj⟩ := h
    have hc' : Controls (s.airplane.flightControls ||| fuelMask) s.airplane.engineControl
        (s.airplane.authorizedToFlight ||| authFuel) (f.apply .refill) :=
      { hc with
        ground := (has_or_of_not (by decide)).trans hc.ground
        airborn := (has_or_of_not (by decide)).trans hc.airborn
        fuel := iff_of_true (has_or_of_has (by decide)) rfl
        gear := fun hdeparted => (has_or_of_not (by decide)).mpr (hc.gear hdeparted)
        authGround := (has_or_of_not (by decide)).mpr hc.authGround
        authFuel := iff_of_true (has_or_of_has (by decide)) rfl
        authLEng := (has_or_of_not (by decide)).trans hc.authLEng
        authREng := (has_or_of_not (by decide)).trans hc.authREng }
    have hj' : Journal log (f.apply .refill) := ⟨hj.ground, hj.onAir, hj.left, hj.right⟩
    exact Recorded.last (s := (s.setFlight (s.airplane.flightControls ||| fuelMask)).setAuth
      (s.airplane.authorizedToFlight ||| authFuel)) hrec hc' (hj'.ignore (by decide)) (by decide)

/-- What `toggle_engine_switch_on` does to a left engine that is off. -/
theorem Represents.turnLeftOn (h : Represents malloc s f) :
    ∃ s', recordCommand malloc ((s.setEngine (s.airplane.engineControl ||| leftEngineMask)).setAuth
        (s.airplane.authorizedToFlight ||| authLEng)) leftEng .on = .ok s' ∧
      Represents malloc s' (f.apply (.engineOn .left)) := by
  obtain ⟨hc, log, hrec, hj⟩ := h
  have hc' : Controls s.airplane.flightControls (s.airplane.engineControl ||| leftEngineMask)
      (s.airplane.authorizedToFlight ||| authLEng) (f.apply (.engineOn .left)) :=
    { hc with
      left := iff_of_true (has_or_of_has (by decide)) rfl
      right := (has_or_of_not (by decide)).trans hc.right
      authGround := (has_or_of_not (by decide)).mpr hc.authGround
      authFuel := (has_or_of_not (by decide)).trans hc.authFuel
      authLEng := iff_of_true (has_or_of_has (by decide)) rfl
      authREng := (has_or_of_not (by decide)).trans hc.authREng
      leftEver := fun _ => rfl }
  have hj' : Journal (log ++ [⟨leftEng, .on⟩]) (f.apply (.engineOn .left)) :=
    { ground := (latest_of_ne (by decide)).trans hj.ground
      onAir := (latest_of_ne (by decide)).trans hj.onAir
      left := iff_of_true (latest_on _ _) rfl
      right := by rw [latest_of_ne (by decide)]; exact hj.right }
  exact Recorded.last (s := (s.setEngine (s.airplane.engineControl ||| leftEngineMask)).setAuth
    (s.airplane.authorizedToFlight ||| authLEng)) hrec hc' hj' (by decide)

/-- The same for the right engine. -/
theorem Represents.turnRightOn (h : Represents malloc s f) :
    ∃ s', recordCommand malloc ((s.setEngine (s.airplane.engineControl ||| rightEngineMask)).setAuth
        (s.airplane.authorizedToFlight ||| authREng)) rightEng .on = .ok s' ∧
      Represents malloc s' (f.apply (.engineOn .right)) := by
  obtain ⟨hc, log, hrec, hj⟩ := h
  have hc' : Controls s.airplane.flightControls (s.airplane.engineControl ||| rightEngineMask)
      (s.airplane.authorizedToFlight ||| authREng) (f.apply (.engineOn .right)) :=
    { hc with
      left := (has_or_of_not (by decide)).trans hc.left
      right := iff_of_true (has_or_of_has (by decide)) rfl
      authGround := (has_or_of_not (by decide)).mpr hc.authGround
      authFuel := (has_or_of_not (by decide)).trans hc.authFuel
      authLEng := (has_or_of_not (by decide)).trans hc.authLEng
      authREng := iff_of_true (has_or_of_has (by decide)) rfl }
  have hj' : Journal (log ++ [⟨rightEng, .on⟩]) (f.apply (.engineOn .right)) :=
    { ground := (latest_of_ne (by decide)).trans hj.ground
      onAir := (latest_of_ne (by decide)).trans hj.onAir
      left := by rw [latest_of_ne (by decide)]; exact hj.left
      right := iff_of_true (latest_on _ _) rfl }
  exact Recorded.last (s := (s.setEngine (s.airplane.engineControl ||| rightEngineMask)).setAuth
    (s.airplane.authorizedToFlight ||| authREng)) hrec hc' hj' (by decide)

theorem Represents.engineOn (h : Represents malloc s f) {cs : ControlSwitch}
    (hallows : f.Allows (.engineOn cs)) :
    ∃ s', toggleEngineSwitchOn s cs (recordCommand malloc) = .ok s' ∧
      Represents malloc s' (f.apply (.engineOn cs)) := by
  have hc := h.controls
  unfold toggleEngineSwitchOn
  by_cases hboth : f.leftOn ∧ f.rightEver
  · -- the switch makes no difference
    have hsame : f.apply (.engineOn cs) = f := by
      cases cs with
      | left =>
        exact Flight.ext rfl rfl rfl hboth.1.symm (Eq.symm (hc.leftEver hboth.1)) rfl
      | right => exact Flight.ext rfl rfl rfl rfl rfl hboth.2.symm
      | other => rfl
    rw [if_pos ⟨hc.left.mpr hboth.1, hc.right.mpr hboth.2⟩, hsame]
    exact h.silent (by decide) (by decide)
  · rw [if_neg fun hhas => hboth ⟨hc.left.mp hhas.1, hc.right.mp hhas.2⟩]
    cases cs with
    | left =>
      obtain ⟨hoff, hground⟩ := hallows.resolve_left hboth
      have hleft : ¬ Has s.airplane.engineControl leftEngineMask := by
        rw [hc.left, hoff]
        decide
      dsimp only
      rw [if_pos ⟨hleft, hc.ground.mpr hground⟩]
      exact h.turnLeftOn
    | right =>
      obtain ⟨hoff, hground⟩ := hallows.resolve_left hboth
      have hright : ¬ Has s.airplane.engineControl rightEngineMask := by
        rw [hc.right, hoff]
        decide
      dsimp only
      rw [if_pos ⟨hright, hc.ground.mpr hground⟩]
      exact h.turnRightOn
    | other => exact absurd hallows hboth

/-- An engine is switched off. The bit of the right one stays set. -/
theorem Represents.turnEngOff (h : Represents malloc s f) {cs : ControlSwitch} (hcs : cs ≠ .other) :
    ∃ s', turnEngOff s cs (recordCommand malloc) = .ok s' ∧
      Represents malloc s' { f with leftOn := f.leftOn && cs != .left } := by
  obtain ⟨hc, log, hrec, hj⟩ := h
  cases cs with
  | left =>
    have hoff : (f.leftOn && ControlSwitch.left != .left) = false := Bool.and_false _
    rw [hoff]
    have hc' : Controls s.airplane.flightControls
        (s.airplane.engineControl &&& ~~~switch leftEngineBit) s.airplane.authorizedToFlight
        { f with leftOn := false } :=
      { hc with
        left := iff_of_false (not_has_clear (by decide)) nofun
        right := (has_clear_of_ne (by decide)).trans hc.right
        leftEver := nofun }
    have hj' : Journal (log ++ [⟨leftEng, .off⟩]) { f with leftOn := false } :=
      { ground := (latest_of_ne (by decide)).trans hj.ground
        onAir := (latest_of_ne (by decide)).trans hj.onAir
        left := by rw [latest_off]; exact iff_of_false nofun nofun
        right := by rw [latest_of_ne (by decide)]; exact hj.right }
    exact Recorded.last (s := s.setEngine (s.airplane.engineControl &&& ~~~switch leftEngineBit))
      hrec hc' hj' (by decide)
  | right =>
    have hsame : (f.leftOn && ControlSwitch.right != .left) = f.leftOn := Bool.and_true _
    rw [hsame]
    have hc' : Controls s.airplane.flightControls
        (s.airplane.engineControl &&& ~~~switch rightEngineBit) s.airplane.authorizedToFlight f :=
      { hc with
        left := (has_clear_of_ne (by decide)).trans hc.left
        right := (has_clear_of_ne (by decide)).trans hc.right }
    -- the name has an underscore where the one of the other records has a dash
    have hj' : Journal (log ++ [⟨.ofString "RIGHT_ENG", .off⟩]) f := hj.ignore (by decide)
    exact Recorded.last (s := s.setEngine (s.airplane.engineControl &&& ~~~switch rightEngineBit))
      hrec hc' hj' (by decide)
  | other => exact absurd rfl hcs

theorem Represents.groundEngOff (h : Represents malloc s f) {cs : ControlSwitch}
    (hground : f.aloft = false) (hcs : cs = .other → f.leftOn = false ∧ f.rightEver = false) :
    ∃ s', groundEngOff s cs (recordCommand malloc) = .ok s' ∧
      Represents malloc s' { f with leftOn := f.leftOn && cs != .left } := by
  have hhas := h.controls.ground.mpr hground
  have hair : ¬ Has s.airplane.flightControls airbornMask := by
    rw [h.controls.airborn, hground]
    decide
  unfold Fcw.groundEngOff
  rw [if_pos ⟨hhas, hair⟩]
  by_cases hoff : f.leftOn = false ∧ f.rightEver = false
  · have hleft : ¬ Has s.airplane.engineControl leftEngineMask := by
      rw [h.controls.left, hoff.1]
      decide
    have hright : ¬ Has s.airplane.engineControl rightEngineMask := by
      rw [h.controls.right, hoff.2]
      decide
    have hsame : ({ f with leftOn := f.leftOn && cs != .left } : Flight) = f := by
      refine Flight.ext rfl rfl rfl ?_ rfl rfl
      rw [hoff.1, Bool.false_and]
    rw [if_pos ⟨hleft, hright⟩, hsame]
    exact h.silent (by decide) (by decide)
  · have hon : ¬ (¬ Has s.airplane.engineControl leftEngineMask ∧
        ¬ Has s.airplane.engineControl rightEngineMask) := by
      rw [h.controls.left, h.controls.right, Bool.not_eq_true, Bool.not_eq_true]
      exact hoff
    rw [if_neg hon]
    exact h.turnEngOff fun heq => hoff (hcs heq)

theorem Represents.groundEngOff_of_aloft (h : Represents malloc s f) (haloft : f.aloft = true)
    (cs : ControlSwitch) : Fcw.groundEngOff s cs (recordCommand malloc) = .ok s := by
  have hair : Has s.airplane.flightControls airbornMask := h.controls.airborn.mpr haloft
  unfold Fcw.groundEngOff
  rw [if_neg fun hground => hground.2 hair]

theorem confirmed_iff {p1 p2 : CString} :
    confirmed p1 p2 = true ↔ declareEmergency p1 = 1 ∧ declareEmergency p2 = 1 := by
  simp [confirmed]

theorem Represents.engineOff (h : Represents malloc s f) {cs : ControlSwitch} {p1 p2 : CString}
    (hallows : f.Allows (.engineOff cs p1 p2)) :
    ∃ s', toggleEngineSwitchOff s cs p1 p2 (recordCommand malloc) = .ok s' ∧
      Represents malloc s' (f.apply (.engineOff cs p1 p2)) := by
  unfold toggleEngineSwitchOff
  have happly : f.apply (.engineOff cs p1 p2) =
      { f with leftOn := f.leftOn && (cs != .left || f.aloft && !confirmed p1 p2) } := by
    cases cs with
    | left => exact Flight.ext rfl rfl rfl (Bool.and_assoc ..) rfl rfl
    | right => exact Flight.ext rfl rfl rfl (Bool.and_true _).symm rfl rfl
    | other => exact Flight.ext rfl rfl rfl (Bool.and_true _).symm rfl rfl
  cases haloft : f.aloft with
  | true =>
    -- in the air the pilots are asked, and both have to confirm
    rw [if_pos (h.controls.airborn.mpr haloft)]
    obtain ⟨s₁, hcall₁, h₁⟩ :
        ∃ s', recordCommand malloc s (.ofString "ABENG-OFF") .ignored = .ok s' ∧
          Represents malloc s' f := h.silent (by decide) (by decide)
    rw [hcall₁, Outcome.ok_bind]
    by_cases hconfirmed : confirmed p1 p2 = true
    · rw [if_pos (confirmed_iff.mp hconfirmed)]
      have hcs : cs ≠ .other := by
        rintro rfl
        simp [Flight.Allows, haloft, hconfirmed] at hallows
      obtain ⟨s₂, hcall₂, h₂⟩ :
          ∃ s', recordCommand malloc s₁ (.ofString "EMERGENCY") .on = .ok s' ∧
            Represents malloc s' f := h₁.silent (by decide) (by decide)
      obtain ⟨s₃, hcall₃, h₃⟩ := h₂.turnEngOff hcs
      rw [hcall₂, Outcome.ok_bind, hcall₃, Outcome.ok_bind,
        h₃.groundEngOff_of_aloft (by exact haloft) cs]
      refine ⟨s₃, rfl, ?_⟩
      rwa [happly, hconfirmed, Bool.not_true, Bool.and_false, Bool.or_false]
    · -- without a confirmation the engine runs on
      rw [if_neg (mt confirmed_iff.mpr hconfirmed)]
      have hsame : f.apply (.engineOff cs p1 p2) = f := by
        rw [happly, haloft, Bool.eq_false_iff.mpr hconfirmed, Bool.not_false, Bool.and_true,
          Bool.or_true, Bool.and_true, ← haloft]
      rw [hsame]
      exact h₁.silent (by decide) (by decide)
  | false =>
    rw [if_neg (by rw [h.controls.airborn, haloft]; decide)]
    have hcs : cs = .other → f.leftOn = false ∧ f.rightEver = false := by
      rintro rfl
      simpa [Flight.Allows, haloft] using hallows
    obtain ⟨s', hcall, h'⟩ := h.groundEngOff haloft hcs
    refine ⟨s', hcall, ?_⟩
    rw [happly, haloft, Bool.false_and, Bool.or_false, ← haloft]
    exact h'

/-- The checklist has been gone through. -/
theorem Controls.authorised_iff
    (hc : Controls s.airplane.flightControls s.airplane.engineControl
      s.airplane.authorizedToFlight f) :
    requestDepartureAuth s.airplane = .ok () ↔ f.Allows .departure := by
  unfold requestDepartureAuth approvalSteps
  rw [if_pos hc.authGround]
  simp only [hc.authFuel, hc.authLEng, hc.authREng, Flight.Allows, authApprovalCode]
  cases f.refilled <;> cases f.leftEver <;> cases f.rightEver <;> simp

theorem Represents.departure (h : Represents malloc s f) (hallows : f.Allows .departure) :
    ∃ s', executeDeparture s (recordCommand malloc) = .ok s' ∧
      Represents malloc s' (f.apply .departure) := by
  obtain ⟨hc, log, hrec, hj⟩ := h
  unfold executeDeparture
  rw [hc.authorised_iff.mpr hallows, Outcome.ok_bind]
  dsimp only
  -- the airplane leaves the ground
  have hleft : ¬ Has (s.airplane.flightControls &&& ~~~switch groundBit) groundMask :=
    not_has_clear (by decide)
  obtain ⟨s₁, hcall₁, hrec₁, hflight₁, hengine₁, hauth₁⟩ :=
    record (s := s.setFlight (s.airplane.flightControls &&& ~~~switch groundBit)) hrec
      (by decide : (CString.ofString "IS-GROUND").length < maxCmdSize) .off
  rw [if_pos (show ¬ Has (s.setFlight _).airplane.flightControls groundMask from hleft), hcall₁,
    Outcome.ok_bind]
  -- the gear goes up
  obtain ⟨s₂, hcall₂, hrec₂, hflight₂, hengine₂, hauth₂⟩ :=
    record (s := s₁.setFlight (s₁.airplane.flightControls ||| landingGearMask)) hrec₁
      (by decide : (CString.ofString "LAND-GEAR").length < maxCmdSize) .off
  rw [hcall₂, Outcome.ok_bind]
  -- the airplane is in the air
  have hc' : Controls (s₂.airplane.flightControls ||| switch airborneBit)
      s₂.airplane.engineControl s₂.airplane.authorizedToFlight (f.apply .departure) := by
    simp only [hflight₂, hengine₂, hauth₂, hflight₁, hengine₁, hauth₁, setFlight_flightControls,
      setFlight_engineControl, setFlight_authorizedToFlight]
    exact { hc with
      ground := by
        rw [has_or_of_not (by decide), has_or_of_not (by decide)]
        exact iff_of_false hleft nofun
      airborn := iff_of_true (has_or_of_has (by decide)) rfl
      fuel := by
        rw [has_or_of_not (by decide), has_or_of_not (by decide), has_clear_of_ne (by decide)]
        exact hc.fuel
      gear := fun _ => (has_or_of_not (by decide)).mpr (has_or_of_has (by decide))
      departed := fun _ => rfl }
  have hj' : Journal (log ++ [⟨isGround, .off⟩] ++ [⟨.ofString "LAND-GEAR", .off⟩] ++
      [⟨isOnAir, .on⟩]) (f.apply .departure) :=
    { ground := by rw [latest_of_ne (by decide), latest_of_ne (by decide), latest_off]; rfl
      onAir := latest_on _ _
      left := by
        rw [latest_of_ne (by decide), latest_of_ne (by decide), latest_of_ne (by decide)]
        exact hj.left
      right := by
        rw [latest_of_ne (by decide), latest_of_ne (by decide), latest_of_ne (by decide)]
        exact hj.right }
  exact Recorded.last (s := s₂.setFlight (s₂.airplane.flightControls ||| switch airborneBit))
    hrec₂ hc' hj' (by decide)

/-- The tower sees the airplane in the air, with its gear set. -/
theorem Controls.landing_iff
    (hc : Controls s.airplane.flightControls s.airplane.engineControl
      s.airplane.authorizedToFlight f) :
    requestLandingAuth s.airplane = 1 ↔ f.Allows .landing := by
  unfold requestLandingAuth
  rw [ite_eq_left_iff, not_imp_comm]
  constructor
  · intro h
    exact hc.airborn.mp (h (by decide)).2
  · intro hallows _
    exact ⟨hc.gear (hc.departed hallows), hc.airborn.mpr hallows⟩

theorem Represents.landing (h : Represents malloc s f) (hallows : f.Allows .landing) :
    ∃ s', executeLanding s (recordCommand malloc) = .ok s' ∧
      Represents malloc s' (f.apply .landing) := by
  obtain ⟨hc, log, hrec, hj⟩ := h
  unfold executeLanding
  rw [if_pos (hc.landing_iff.mpr hallows)]
  dsimp only
  -- the gear is down
  have hdown : Has (s.airplane.flightControls ||| landingGearMask) landingGearMask :=
    has_or_of_has (by decide)
  rw [if_neg (show ¬ ¬ Has (s.setFlight _).airplane.flightControls landingGearMask from
    not_not_intro hdown)]
  obtain ⟨s₁, hcall₁, hrec₁, hflight₁, hengine₁, hauth₁⟩ :=
    record (s := s.setFlight (s.airplane.flightControls ||| landingGearMask)) hrec
      (by decide : (CString.ofString "LAND-GEAR").length < maxCmdSize) .on
  rw [hcall₁, Outcome.ok_bind]
  -- the airplane is no longer in the air
  have hlanded : ¬ Has (s₁.airplane.flightControls &&& ~~~switch airborneBit) airbornMask :=
    not_has_clear (by decide)
  rw [if_neg (show ¬ Has (s₁.setFlight _).airplane.flightControls airbornMask from hlanded)]
  obtain ⟨s₂, hcall₂, hrec₂, hflight₂, hengine₂, hauth₂⟩ :=
    record (s := s₁.setFlight (s₁.airplane.flightControls &&& ~~~switch airborneBit)) hrec₁
      (by decide : (CString.ofString "LANDED").length < maxCmdSize) .on
  rw [hcall₂, Outcome.ok_bind]
  -- it is on the ground
  have hground : Has (s₂.airplane.flightControls ||| switch groundBit) groundMask :=
    has_or_of_has (by decide)
  rw [if_neg (show ¬ ¬ Has (s₂.setFlight _).airplane.flightControls groundMask from
    not_not_intro hground)]
  have hc' : Controls (s₂.airplane.flightControls ||| switch groundBit)
      s₂.airplane.engineControl s₂.airplane.authorizedToFlight (f.apply .landing) := by
    simp only [hflight₂, hengine₂, hauth₂, hflight₁, hengine₁, hauth₁, setFlight_flightControls,
      setFlight_engineControl, setFlight_authorizedToFlight]
    exact { hc with
      ground := iff_of_true (has_or_of_has (by decide)) rfl
      airborn := by
        rw [has_or_of_not (by decide)]
        exact iff_of_false (not_has_clear (by decide)) nofun
      fuel := by
        rw [has_or_of_not (by decide), has_clear_of_ne (by decide), has_or_of_not (by decide)]
        exact hc.fuel
      gear := fun _ => by
        rw [has_or_of_not (by decide), has_clear_of_ne (by decide)]
        exact hdown
      departed := nofun }
  have hj' : Journal log (f.apply .landing) := ⟨hj.ground, hj.onAir, hj.left, hj.right⟩
  have hj₁ : Journal (log ++ [⟨.ofString "LAND-GEAR", .on⟩]) (f.apply .landing) :=
    hj'.ignore (by decide)
  have hj₂ : Journal (log ++ [⟨.ofString "LAND-GEAR", .on⟩] ++ [⟨.ofString "LANDED", .on⟩])
      (f.apply .landing) := hj₁.ignore (by decide)
  exact Recorded.last (s := s₂.setFlight (s₂.airplane.flightControls ||| switch groundBit))
    hrec₂ hc' (hj₂.ignore (by decide)) (by decide)

/-! ### Runs -/

/-- An operation that the flight allows returns. -/
theorem Represents.perform (h : Represents malloc s f) {operation : Operation}
    (hallows : f.Allows operation) :
    ∃ s', perform s (recordCommand malloc) operation = .ok s' ∧
      Represents malloc s' (f.apply operation) := by
  cases operation with
  | refill => exact h.refill hallows
  | engineOn cs => exact h.engineOn hallows
  | engineOff cs p1 p2 => exact h.engineOff hallows
  | departure => exact h.departure hallows
  | landing => exact h.landing hallows

/-- The engine switches know a left and a right engine only. -/
theorem turnEngOff_other (s s' : Cockpit) (rec : Recorder) :
    turnEngOff s .other rec ≠ .ok s' := by
  intro hcall
  obtain ⟨_, -, herror⟩ := Outcome.bind_eq_ok.mp hcall
  cases herror

theorem Represents.allows_engineOn (h : Represents malloc s f) {cs : ControlSwitch}
    (hcall : toggleEngineSwitchOn s cs (recordCommand malloc) = .ok s') :
    f.Allows (.engineOn cs) := by
  have hc := h.controls
  unfold toggleEngineSwitchOn at hcall
  by_cases hboth : Has s.airplane.engineControl leftEngineMask ∧
      Has s.airplane.engineControl rightEngineMask
  · rw [hc.left, hc.right] at hboth
    cases cs with
    | left => exact Or.inl hboth
    | right => exact Or.inl hboth
    | other => exact hboth
  · rw [if_neg hboth] at hcall
    cases cs with
    | left =>
      dsimp only at hcall
      split_ifs at hcall with hoff
      · rw [hc.left, hc.ground, Bool.not_eq_true] at hoff
        exact Or.inr hoff
      · obtain ⟨_, -, herror⟩ := Outcome.bind_eq_ok.mp hcall
        cases herror
    | right =>
      dsimp only at hcall
      split_ifs at hcall with hoff
      · rw [hc.right, hc.ground, Bool.not_eq_true] at hoff
        exact Or.inr hoff
      · obtain ⟨_, -, herror⟩ := Outcome.bind_eq_ok.mp hcall
        cases herror
    | other =>
      obtain ⟨_, -, herror⟩ := Outcome.bind_eq_ok.mp hcall
      cases herror

theorem Represents.allows_engineOff (h : Represents malloc s f) {cs : ControlSwitch}
    {p1 p2 : CString}
    (hcall : toggleEngineSwitchOff s cs p1 p2 (recordCommand malloc) = .ok s') :
    f.Allows (.engineOff cs p1 p2) := by
  cases cs with
  | left => exact trivial
  | right => exact trivial
  | other =>
    unfold toggleEngineSwitchOff at hcall
    cases haloft : f.aloft with
    | true =>
      rw [if_pos (h.controls.airborn.mpr haloft)] at hcall
      obtain ⟨s₁, -, hcall⟩ := Outcome.bind_eq_ok.mp hcall
      by_cases hconfirmed : confirmed p1 p2 = true
      · rw [if_pos (confirmed_iff.mp hconfirmed)] at hcall
        obtain ⟨s₂, -, hcall⟩ := Outcome.bind_eq_ok.mp hcall
        obtain ⟨s₃, hturn, -⟩ := Outcome.bind_eq_ok.mp hcall
        exact absurd hturn (turnEngOff_other _ _ _)
      · simpa [Flight.Allows, haloft] using hconfirmed
    | false =>
      have hair : ¬ Has s.airplane.flightControls airbornMask := by
        rw [h.controls.airborn, haloft]
        decide
      unfold Fcw.groundEngOff at hcall
      rw [if_neg hair, if_pos ⟨h.controls.ground.mpr haloft, hair⟩] at hcall
      split_ifs at hcall with hoff
      · rw [h.controls.left, h.controls.right, Bool.not_eq_true, Bool.not_eq_true] at hoff
        simpa [Flight.Allows, haloft] using hoff
      · exact absurd hcall (turnEngOff_other _ _ _)

/-- An operation that returns is one that the flight allows. -/
theorem Represents.allows (h : Represents malloc s f) {operation : Operation}
    (hcall : Fcw.perform s (recordCommand malloc) operation = .ok s') : f.Allows operation := by
  cases operation with
  | refill =>
    by_contra hair
    unfold Fcw.perform Fcw.refill at hcall
    rw [if_pos (mt h.controls.ground.mp hair)] at hcall
    cases hcall
  | engineOn cs => exact h.allows_engineOn hcall
  | engineOff cs p1 p2 => exact h.allows_engineOff hcall
  | departure =>
    obtain ⟨_, hauth, -⟩ := Outcome.bind_eq_ok.mp hcall
    exact h.controls.authorised_iff.mp hauth
  | landing =>
    unfold Fcw.perform executeLanding at hcall
    split_ifs at hcall with hauth
    exact h.controls.landing_iff.mp hauth

theorem Represents.step (h : Represents malloc s f) {operation : Operation}
    (hcall : Fcw.perform s (recordCommand malloc) operation = .ok s') :
    Represents malloc s' (f.apply operation) := by
  obtain ⟨s'', hcall', h'⟩ := h.perform (h.allows hcall)
  cases hcall.symm.trans hcall'
  exact h'

theorem controls_new :
    Controls (planeDefaultMask ||| groundMask) planeDefaultMask (0 ||| authGround) .new := by
  constructor <;> decide

theorem journal_new : Journal [⟨isGround, .on⟩] .new := by
  constructor <;> decide

/-- A new airplane is on the ground, and its black box says so. -/
theorem represents_init (malloc : ℕ ↪ ℕ) (id : String) :
    ∃ s, init id (recordCommand malloc) = .ok s ∧ Represents malloc s .new := by
  have hrec : Recorded malloc (fun _ => none) ⟨none, none⟩ 0 [] :=
    ⟨[], holds_nil _, rfl, fun _ _ => rfl⟩
  obtain ⟨s₁, hcall, hrec₁, hflight, hengine, hauth⟩ :=
    record (s := ⟨⟨id, ⟨none, none⟩, planeDefaultMask ||| groundMask, planeDefaultMask, 0⟩,
      fun _ => none, 0⟩) hrec (by decide : (CString.ofString "IS-GROUND").length < maxCmdSize) .on
  refine ⟨s₁.setAuth (s₁.airplane.authorizedToFlight ||| authGround), ?_, ?_, _, hrec₁, ?_⟩
  · unfold init
    exact congrArg (· >>= _) hcall
  · change Controls s₁.airplane.flightControls s₁.airplane.engineControl
      (s₁.airplane.authorizedToFlight ||| authGround) .new
    rw [hflight, hengine, hauth]
    exact controls_new
  · exact journal_new

theorem flight_concat (operations : List Operation) (operation : Operation) :
    flight (operations ++ [operation]) = (flight operations).apply operation :=
  List.foldl_concat ..

/-- After every run the airplane is on the flight of the operations. -/
theorem represents {trace : Trace Cockpit Operation} (hrun : Run (system malloc) trace s) :
    Represents malloc s (flight (events trace)) := by
  refine hrun.invariant (I := fun operations s => Represents malloc s (flight operations))
    (fun s hstart => ?_) fun operations s operation s' h hstep => ?_
  · obtain ⟨id, hinit⟩ := hstart
    obtain ⟨s', hinit', h⟩ := represents_init malloc id
    cases hinit.symm.trans hinit'
    exact h
  · rw [flight_concat]
    exact h.step hstep

/-- A run can be prolonged by the operations that its flight permits. -/
theorem exists_prolonged {trace : Trace Cockpit Operation} (hrun : Run (system malloc) trace s)
    (h : Represents malloc s f) {operations : List Operation} (hpermits : f.Permits operations) :
    ∃ trace' s', Run (system malloc) trace' s' ∧ events trace' = events trace ++ operations := by
  induction operations generalizing trace s f with
  | nil => exact ⟨trace, s, hrun, (List.append_nil _).symm⟩
  | cons operation rest ih =>
    obtain ⟨s₁, hcall, h₁⟩ := h.perform hpermits.1
    obtain ⟨trace', s', hrun', hevents⟩ := ih (hrun.step hcall) h₁ hpermits.2
    refine ⟨trace', s', hrun', ?_⟩
    rw [hevents, events_concat, List.append_assoc, List.singleton_append]

theorem exists_run (malloc : ℕ ↪ ℕ) (id : String) {operations : List Operation}
    (hpermits : Flight.new.Permits operations) :
    ∃ trace s, Run (system malloc) trace s ∧ events trace = operations := by
  obtain ⟨s, hinit, h⟩ := represents_init malloc id
  obtain ⟨trace, s', hrun, hevents⟩ := exists_prolonged (.start ⟨id, hinit⟩) h hpermits
  exact ⟨trace, s', hrun, hevents⟩

end BareMetal.Fcw
