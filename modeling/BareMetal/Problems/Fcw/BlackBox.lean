import BareMetal.Problems.Fcw.Operations

/-!
# When the black box agrees with the airplane

A landing is recorded under names of its own: the one for the ground is misspelt, and the
end of the flight is `LANDED`, not `IS-ONAIR`. So the black box goes on saying that the
airplane is in the air until the next departure makes it true again.

## Main results

* `agrees_iff` — after a run, the black box agrees with the bits of the airplane exactly
  when the airplane has not landed since it departed
-/

namespace BareMetal.Fcw

open CS Transition LinkedList Byte

/-- For each of the four names, the latest record that is `ON` or `OFF` is `ON` if and only
if the bit is set. -/
structure Agrees (airplane : Airplane) (log : List Command) : Prop where
  ground : latest isGround log = some .on ↔ Has airplane.flightControls groundMask
  onAir : latest isOnAir log = some .on ↔ Has airplane.flightControls airbornMask
  left : latest leftEng log = some .on ↔ Has airplane.engineControl leftEngineMask
  right : latest rightEng log = some .on ↔ Has airplane.engineControl rightEngineMask

/-- The airplane has departed, and has landed since. -/
def Flight.Landed (f : Flight) : Prop := f.departed ∧ f.aloft = false

instance (f : Flight) : Decidable f.Landed := inferInstanceAs (Decidable (_ ∧ _))

variable {malloc : ℕ ↪ ℕ} {s : Cockpit} {f : Flight} {log : List Command}

theorem Represents.agrees_iff_flight (h : Represents malloc s f) (hj : Journal log f) :
    Agrees s.airplane log ↔ ¬ f.Landed := by
  have hc := h.controls
  have hground : latest isGround log = some .on ↔ f.departed = false := by
    rw [hj.ground]
    cases f.departed <;> decide
  have honAir : latest isOnAir log = some .on ↔ f.departed := by
    rw [hj.onAir]
    cases f.departed <;> decide
  constructor
  · rintro hagrees ⟨hdeparted, hlanded⟩
    have haloft := hc.airborn.mp (hagrees.onAir.mp (honAir.mpr hdeparted))
    exact absurd haloft (Bool.eq_false_iff.mp hlanded)
  · intro hlanded
    have hsame : f.departed = f.aloft := by
      cases haloft : f.aloft with
      | true => exact hc.departed haloft
      | false => exact Bool.eq_false_iff.mpr fun hdeparted => hlanded ⟨hdeparted, haloft⟩
    exact {
      ground := by rw [hground, hc.ground, hsame]
      onAir := by rw [honAir, hc.airborn, hsame]
      left := hj.left.trans hc.left.symm
      right := hj.right.trans hc.right.symm }

/-- The black box is a list that ends at `bb_tail`, and it agrees with the airplane unless
the airplane has landed since it departed. -/
theorem agrees_iff {trace : Trace Cockpit Operation} (hrun : Run (system malloc) trace s) :
    ∃ nodes, Holds s.heap s.airplane.bb nodes ∧
      (Agrees s.airplane (nodes.map Prod.snd) ↔ ¬ (flight (events trace)).Landed) := by
  have h := represents hrun
  obtain ⟨log, ⟨nodes, hholds, rfl, -⟩, hj⟩ := h.recorded
  exact ⟨nodes, hholds, h.agrees_iff_flight hj⟩

/-- `main`, up to the emergency that the pilots confirm. -/
theorem agrees_main : ∃ trace s nodes, Run (system (.refl ℕ)) trace s ∧
    events trace = [.refill, .engineOn .right, .engineOn .left, .engineOn .left, .departure,
      .engineOff .left (.ofString "YES") (.ofString "yes")] ∧
    Holds s.heap s.airplane.bb nodes ∧ Agrees s.airplane (nodes.map Prod.snd) := by
  obtain ⟨trace, s, hrun, hevents⟩ := exists_run (.refl ℕ) "WA-777"
    (by decide : Flight.new.Permits
      [.refill, .engineOn .right, .engineOn .left, .engineOn .left, .departure,
        .engineOff .left (.ofString "YES") (.ofString "yes")])
  obtain ⟨nodes, hholds, hagrees⟩ := agrees_iff hrun
  exact ⟨trace, s, nodes, hrun, hevents, hholds, hagrees.mpr (by rw [hevents]; decide)⟩

/-- After a landing the black box says that the airplane is in the air. -/
theorem landing_not_recorded : ∃ trace s, Run (system (.refl ℕ)) trace s ∧
    events trace = [.refill, .engineOn .right, .engineOn .left, .departure, .landing] ∧
    ∃ nodes, Holds s.heap s.airplane.bb nodes ∧
      latest isOnAir (nodes.map Prod.snd) = some .on ∧
      ¬ Has s.airplane.flightControls airbornMask := by
  obtain ⟨trace, s, hrun, hevents⟩ := exists_run (.refl ℕ) "WA-777"
    (by decide : Flight.new.Permits
      [.refill, .engineOn .right, .engineOn .left, .departure, .landing])
  have h := represents hrun
  obtain ⟨log, ⟨nodes, hholds, rfl, -⟩, hj⟩ := h.recorded
  refine ⟨trace, s, hrun, hevents, nodes, hholds, ?_, ?_⟩
  · rw [hj.onAir, hevents]
    decide
  · rw [h.controls.airborn, hevents]
    decide

end BareMetal.Fcw
