import BareMetal.Problems.Fcw.Operations

/-!
# When an authorised departure is a safe one

The tower looks at a checklist byte to which the operations only ever add: a step that
has been ticked stays ticked when the engine goes off again, and when the airplane takes
off. So the tower also lets an airplane go that has lost what the checklist says.

## Main results

* `ready_iff` — after a run, an authorised departure finds the ground bit, the fuel bit and
  both engine bits set exactly when the checklist of the flight is not stale
-/

namespace BareMetal.Fcw

open CS Transition LinkedList Byte

/-- The ground bit, the fuel bit and both engine bits are set. -/
def Ready (airplane : Airplane) : Prop :=
  Has airplane.flightControls groundMask ∧ Has airplane.flightControls fuelMask ∧
    Has airplane.engineControl leftEngineMask ∧ Has airplane.engineControl rightEngineMask

/-- The checklist has been completed, and since then the airplane has left the ground or
its left engine has gone off. -/
def Flight.Stale (f : Flight) : Prop :=
  f.refilled ∧ f.leftEver ∧ f.rightEver ∧ (f.aloft ∨ f.leftOn = false)

instance (f : Flight) : Decidable f.Stale := inferInstanceAs (Decidable (_ ∧ _))

variable {malloc : ℕ ↪ ℕ} {s : Cockpit} {f : Flight}

theorem Represents.ready_iff_flight (h : Represents malloc s f) :
    Ready s.airplane ↔ f.aloft = false ∧ f.refilled ∧ f.leftOn ∧ f.rightEver := by
  unfold Ready
  rw [h.controls.ground, h.controls.fuel, h.controls.left, h.controls.right]

/-- A departure that gets past the tower finds the airplane ready, unless its checklist is
stale. -/
theorem ready_iff {trace : Trace Cockpit Operation} (hrun : Run (system malloc) trace s) :
    (requestDepartureAuth s.airplane = .ok () → Ready s.airplane) ↔
      ¬ (flight (events trace)).Stale := by
  have h := represents hrun
  rw [h.controls.authorised_iff, h.ready_iff_flight]
  unfold Flight.Allows Flight.Stale
  constructor
  · rintro hready ⟨hrefilled, hleft, hright, hlost⟩
    obtain ⟨hground, -, hon, -⟩ := hready ⟨hrefilled, hleft, hright⟩
    rcases hlost with haloft | hoff
    · exact absurd haloft (Bool.eq_false_iff.mp hground)
    · exact absurd hon (Bool.eq_false_iff.mp hoff)
  · rintro hstale ⟨hrefilled, hleft, hright⟩
    have hkept : ¬ ((flight (events trace)).aloft = true ∨
        (flight (events trace)).leftOn = false) :=
      fun hlost => hstale ⟨hrefilled, hleft, hright, hlost⟩
    rw [not_or, Bool.not_eq_true, Bool.not_eq_false] at hkept
    exact ⟨hkept.1, hrefilled, hkept.2, hright⟩

/-- The departure of `main`. -/
theorem ready_main : ∃ trace s, Run (system (.refl ℕ)) trace s ∧
    events trace = [.refill, .engineOn .right, .engineOn .left, .engineOn .left] ∧
    requestDepartureAuth s.airplane = .ok () ∧ Ready s.airplane := by
  obtain ⟨trace, s, hrun, hevents⟩ := exists_run (.refl ℕ) "WA-777"
    (by decide : Flight.new.Permits
      [.refill, .engineOn .right, .engineOn .left, .engineOn .left])
  have hauth : requestDepartureAuth s.airplane = .ok () := by
    rw [(represents hrun).controls.authorised_iff, hevents]
    decide
  exact ⟨trace, s, hrun, hevents, hauth, (ready_iff hrun).mpr (by rw [hevents]; decide) hauth⟩

/-- An engine that is switched off on the ground does not keep the airplane there. -/
theorem departure_left_engine_off : ∃ trace s, Run (system (.refl ℕ)) trace s ∧
    events trace = [.refill, .engineOn .right, .engineOn .left, .engineOff .left [] []] ∧
    requestDepartureAuth s.airplane = .ok () ∧
    ¬ Has s.airplane.engineControl leftEngineMask := by
  obtain ⟨trace, s, hrun, hevents⟩ := exists_run (.refl ℕ) "WA-777"
    (by decide : Flight.new.Permits
      [.refill, .engineOn .right, .engineOn .left, .engineOff .left [] []])
  refine ⟨trace, s, hrun, hevents, ?_, ?_⟩
  · rw [(represents hrun).controls.authorised_iff, hevents]
    decide
  · rw [(represents hrun).controls.left, hevents]
    decide

end BareMetal.Fcw
