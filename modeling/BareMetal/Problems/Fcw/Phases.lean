import BareMetal.Problems.Fcw.Operations
import Mathlib.Logic.Basic

/-!
# The phases of a flight

An airplane is on the ground or in the air. Fuel and engines are matters of the ground; in the
air an engine goes off only when both pilots have confirmed that there is an emergency.

## Main results

* `Represents.disciplined` — what an operation that returns may change
* `phases` — all runs keep to the phases
-/

namespace BareMetal.Fcw

open CS Transition LinkedList Byte

/-- The pilot has answered `YES` or `yes`. -/
def Answered (p : CString) : Prop := p = .ofString "YES" ∨ p = .ofString "yes"

/-- What an operation may change in the phase in which it finds the airplane. -/
structure Disciplined (s s' : Airplane) (operation : Operation) : Prop where
  fuel : ¬ Has s.flightControls fuelMask → Has s'.flightControls fuelMask →
    Has s.flightControls groundMask ∧ Has s'.flightControls groundMask
  engineOn : ∀ mask ∈ [leftEngineMask, rightEngineMask], ¬ Has s.engineControl mask →
    Has s'.engineControl mask → Has s.flightControls groundMask ∧ Has s'.flightControls groundMask
  engineOff : ∀ mask ∈ [leftEngineMask, rightEngineMask], Has s.flightControls airbornMask →
    Has s.engineControl mask → ¬ Has s'.engineControl mask →
    ∃ cs p1 p2, operation = .engineOff cs p1 p2 ∧ Answered p1 ∧ Answered p2

variable {malloc : ℕ ↪ ℕ} {s s' : Cockpit} {f : Flight} {operation : Operation} {p1 p2 : CString}

theorem declareEmergency_iff {p : CString} : declareEmergency p = 1 ↔ Answered p := by
  unfold declareEmergency Answered
  split_ifs with h
  · exact iff_of_true rfl h
  · exact iff_of_false (by decide) h

/-! ### What a flight allows -/

/-- Fuel comes from a refill. -/
theorem Flight.refill_of_refilled (hoff : f.refilled = false)
    (hon : (f.apply operation).refilled = true) : operation = .refill := by
  cases operation with
  | refill => rfl
  | engineOn cs => cases cs <;> exact absurd (hoff.symm.trans hon) (by decide)
  | engineOff cs p1 p2 => cases cs <;> exact absurd (hoff.symm.trans hon) (by decide)
  | departure => exact absurd (hoff.symm.trans hon) (by decide)
  | landing => exact absurd (hoff.symm.trans hon) (by decide)

/-- An engine that was off goes on by its switch, on the ground. -/
theorem Flight.ground_of_engineOn (hallows : f.Allows operation)
    (hon : f.leftOn = false ∧ (f.apply operation).leftOn = true ∨
      f.rightEver = false ∧ (f.apply operation).rightEver = true) :
    f.aloft = false ∧ (f.apply operation).aloft = false := by
  cases operation with
  | engineOn cs =>
    have hboth : ¬ (f.leftOn = true ∧ f.rightEver = true) := by
      rcases hon with ⟨hoff, -⟩ | ⟨hoff, -⟩
      · simp [hoff]
      · simp [hoff]
    cases cs with
    | left =>
      have hground := (hallows.resolve_left hboth).2
      exact ⟨hground, hground⟩
    | right =>
      have hground := (hallows.resolve_left hboth).2
      exact ⟨hground, hground⟩
    | other => exact absurd hallows hboth
  | engineOff cs p1 p2 =>
    -- the switch of an engine that is off leaves it off
    cases cs with
    | left =>
      rcases hon with ⟨hoff, hon⟩ | ⟨hoff, hon⟩
      · simp [Flight.apply, hoff] at hon
      · exact absurd (hoff.symm.trans hon) (by decide)
    | right => exact absurd hon (by simp [Flight.apply])
    | other => exact absurd hon (by simp [Flight.apply])
  | refill => exact absurd hon (by simp [Flight.apply])
  | departure => exact absurd hon (by simp [Flight.apply])
  | landing => exact absurd hon (by simp [Flight.apply])

/-- The left engine goes off by its switch, and in the air only after a confirmation. -/
theorem Flight.confirmed_of_leftOff (haloft : f.aloft = true) (hon : f.leftOn = true)
    (hoff : (f.apply operation).leftOn = false) :
    ∃ p1 p2, operation = .engineOff .left p1 p2 ∧ confirmed p1 p2 = true := by
  cases operation with
  | engineOff cs p1 p2 =>
    cases cs with
    | left =>
      refine ⟨p1, p2, rfl, ?_⟩
      simpa [Flight.apply, hon, haloft] using hoff
    | right => exact absurd (hon.symm.trans hoff) (by decide)
    | other => exact absurd (hon.symm.trans hoff) (by decide)
  | engineOn cs =>
    cases cs with
    | left => cases hoff
    | right => exact absurd (hon.symm.trans hoff) (by decide)
    | other => exact absurd (hon.symm.trans hoff) (by decide)
  | refill => exact absurd (hon.symm.trans hoff) (by decide)
  | departure => exact absurd (hon.symm.trans hoff) (by decide)
  | landing => exact absurd (hon.symm.trans hoff) (by decide)

/-- The right engine never goes off. -/
theorem Flight.rightEver_apply (hon : f.rightEver = true) :
    (f.apply operation).rightEver = true := by
  cases operation with
  | engineOn cs =>
    cases cs with
    | right => rfl
    | left => exact hon
    | other => exact hon
  | engineOff cs p1 p2 => cases cs <;> exact hon
  | refill => exact hon
  | departure => exact hon
  | landing => exact hon

/-! ### Airplanes -/

theorem Represents.disciplined (h : Represents malloc s f)
    (hcall : Fcw.perform s (recordCommand malloc) operation = .ok s') :
    Disciplined s.airplane s'.airplane operation := by
  have hallows := h.allows hcall
  have hc := h.controls
  have hc' := (h.step hcall).controls
  refine ⟨fun hoff hon => ?_, fun mask hmask hoff hon => ?_, fun mask hmask hair hon hoff => ?_⟩
  · -- a refill that returns finds the airplane on the ground and leaves it there
    rw [hc.fuel, Bool.not_eq_true] at hoff
    obtain rfl := Flight.refill_of_refilled hoff (hc'.fuel.mp hon)
    exact ⟨hc.ground.mpr hallows, hc'.ground.mpr hallows⟩
  · have hground : f.aloft = false ∧ (f.apply operation).aloft = false := by
      rcases List.mem_cons.mp hmask with rfl | hmask
      · rw [hc.left, Bool.not_eq_true] at hoff
        exact Flight.ground_of_engineOn hallows (Or.inl ⟨hoff, hc'.left.mp hon⟩)
      · obtain rfl := List.mem_singleton.mp hmask
        rw [hc.right, Bool.not_eq_true] at hoff
        exact Flight.ground_of_engineOn hallows (Or.inr ⟨hoff, hc'.right.mp hon⟩)
    exact ⟨hc.ground.mpr hground.1, hc'.ground.mpr hground.2⟩
  · rcases List.mem_cons.mp hmask with rfl | hmask
    · rw [hc'.left, Bool.not_eq_true] at hoff
      obtain ⟨p1, p2, rfl, hconfirmed⟩ :=
        Flight.confirmed_of_leftOff (hc.airborn.mp hair) (hc.left.mp hon) hoff
      obtain ⟨h1, h2⟩ := confirmed_iff.mp hconfirmed
      exact ⟨.left, p1, p2, rfl, declareEmergency_iff.mp h1, declareEmergency_iff.mp h2⟩
    · -- the right engine has stayed on
      obtain rfl := List.mem_singleton.mp hmask
      exact absurd (hc'.right.mpr (Flight.rightEver_apply (hc.right.mp hon))) hoff

theorem Represents.xor_phase (h : Represents malloc s f) :
    Xor (Has s.airplane.flightControls groundMask) (Has s.airplane.flightControls airbornMask) := by
  rw [h.controls.ground, h.controls.airborn]
  cases f.aloft with
  | false => exact Or.inl ⟨rfl, nofun⟩
  | true => exact Or.inr ⟨rfl, nofun⟩

/-- **Flight phase discipline.** After every run exactly one of the ground bit and the airborne
bit is set, and the next operation that returns changes fuel and engines in their phase only. -/
theorem phases {trace : Trace Cockpit Operation} (hrun : Run (system malloc) trace s) :
    Xor (Has s.airplane.flightControls groundMask) (Has s.airplane.flightControls airbornMask) ∧
      ∀ operation s', perform s (recordCommand malloc) operation = .ok s' →
        Disciplined s.airplane s'.airplane operation :=
  ⟨(represents hrun).xor_phase, fun _ _ hcall => (represents hrun).disciplined hcall⟩

/-- The emergency of `main`, in the air. -/
theorem phases_main : ∃ trace s s', Run (system (.refl ℕ)) trace s ∧
    events trace = [.refill, .engineOn .right, .engineOn .left, .engineOn .left, .departure] ∧
    Xor (Has s.airplane.flightControls groundMask) (Has s.airplane.flightControls airbornMask) ∧
    perform s (recordCommand (.refl ℕ)) (.engineOff .left (.ofString "YES") (.ofString "yes")) =
      .ok s' ∧
    Disciplined s.airplane s'.airplane (.engineOff .left (.ofString "YES") (.ofString "yes")) := by
  obtain ⟨trace, s, hrun, hevents⟩ := exists_run (.refl ℕ) "WA-777"
    (by decide : Flight.new.Permits
      [.refill, .engineOn .right, .engineOn .left, .engineOn .left, .departure])
  obtain ⟨hphase, hnext⟩ := phases hrun
  obtain ⟨s', hcall, -⟩ : ∃ s', perform s (recordCommand (.refl ℕ))
      (.engineOff .left (.ofString "YES") (.ofString "yes")) = .ok s' ∧ _ :=
    (represents hrun).perform trivial
  exact ⟨trace, s, s', hrun, hevents, hphase, hcall, hnext _ _ hcall⟩

end BareMetal.Fcw
