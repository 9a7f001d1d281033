import BareMetal.CS.CondVar
import BareMetal.CS.Transition
import Mathlib.Data.Fintype.Basic

/-!
# The scanner of `scanner.c`

`set_power`, `set_frequency` and `read_value` share one condition variable. The
second waits for the power, the third for the power and the frequency, and each
change is announced by `pthread_cond_signal`, which wakes one sleeper. A section
between lock and unlock, or the wait that gives up the lock, is one step; sleepers
wake only through a signal.

If both other threads sleep when the power is set, the one signal may wake
`read_value`. It finds the frequency missing and sleeps again, and nobody is left
who would wake `set_frequency`.

## Main results

* `never_hangs_iff` — a signal that goes to `read_value` past a sleeping
  `set_frequency` is the only way to hang, and always leads there
* `misdirected_hangs` — a run that hangs
-/

namespace BareMetal.PowerScanner

open CS Transition

/-- `TOGGLE(x)`. -/
def toggle (x : UInt8) : UInt8 := 1 <<< x

/-- `POWER_BIT`. -/
def powerBit : UInt8 := 0

/-- `FREQU_BIT`. -/
def frequBit : UInt8 := 1

/-- `READ_MASK`. -/
def readMask : UInt8 := 0x03

/-- `MAX_POWER_LEVEL`. -/
def maxPowerLevel : UInt8 := 100

/-- `Scanner`. -/
structure Scanner where
  powerLevel : UInt8
  frequencyLocked : UInt8
  flags : UInt8
  deriving DecidableEq, Repr

/-- The three threads. -/
inductive Thread
  | setPower
  | setFrequency
  | readValue
  deriving DecidableEq, Repr

instance : Fintype Thread :=
  ⟨{.setPower, .setFrequency, .readValue}, fun i => by cases i <;> decide⟩

/-- Where a thread stands. `ready` is before its section, at the start or on the way back
from `pthread_cond_wait`. -/
inductive Position
  | ready
  | asleep
  | finished
  deriving DecidableEq, Repr

/-- `state_changed`. -/
def stateChanged : CondVar Position where
  asleep
    | .asleep => true
    | _ => false
  woken _ := .ready
  not_asleep_woken _ _ := rfl

/-- What `set_power` does to the scanner. -/
def Scanner.setPower (scanner : Scanner) : Scanner :=
  { scanner with powerLevel := maxPowerLevel, flags := scanner.flags ||| toggle powerBit }

/-- What `set_frequency` does once the power is on. -/
def Scanner.setFrequency (scanner : Scanner) : Scanner :=
  { scanner with frequencyLocked := 1, flags := scanner.flags ||| toggle frequBit }

/-- The test of the loop in `set_frequency`. -/
def Scanner.PowerOff (scanner : Scanner) : Prop := scanner.flags &&& toggle powerBit = 0

/-- The test of the loop in `read_value`. -/
def Scanner.NotReadable (scanner : Scanner) : Prop := scanner.flags &&& readMask ≠ readMask

instance (scanner : Scanner) : Decidable scanner.PowerOff :=
  inferInstanceAs (Decidable (_ = _))

instance (scanner : Scanner) : Decidable scanner.NotReadable :=
  inferInstanceAs (Decidable (_ ≠ _))

/-- The scanner and its threads. -/
structure World where
  scanner : Scanner
  threads : Thread → Position

/-- The steps of the threads. A signal names the thread it wakes, and `read_value` the
levels it prints. -/
inductive Event
  | setPower (choice : Option Thread)
  | frequencyWait
  | setFrequency (choice : Option Thread)
  | readWait
  | read (powerLevel frequencyLocked : UInt8)
  deriving DecidableEq, Repr

/-- One step of the program. -/
inductive Step : World → Event → World → Prop
  -- the signal comes before the unlock, so no section runs in between
  | setPower {world : World} {choice : Option Thread} :
      world.threads .setPower = .ready → stateChanged.CanSignal world.threads choice →
      Step world (.setPower choice)
        { scanner := world.scanner.setPower
          threads := Function.update (stateChanged.signal world.threads choice)
            .setPower .finished }
  | frequencyWait {world : World} :
      world.threads .setFrequency = .ready → world.scanner.PowerOff →
      Step world .frequencyWait
        { world with threads := Function.update world.threads .setFrequency .asleep }
  | setFrequency {world : World} {choice : Option Thread} :
      world.threads .setFrequency = .ready → ¬ world.scanner.PowerOff →
      stateChanged.CanSignal world.threads choice →
      Step world (.setFrequency choice)
        { scanner := world.scanner.setFrequency
          threads := Function.update (stateChanged.signal world.threads choice)
            .setFrequency .finished }
  -- a sleeper tests its condition again when it is woken
  | readWait {world : World} :
      world.threads .readValue = .ready → world.scanner.NotReadable →
      Step world .readWait
        { world with threads := Function.update world.threads .readValue .asleep }
  | read {world : World} :
      world.threads .readValue = .ready → ¬ world.scanner.NotReadable →
      Step world (.read world.scanner.powerLevel world.scanner.frequencyLocked)
        { world with threads := Function.update world.threads .readValue .finished }

/-- The threads of `main`. -/
def system : System World Event where
  start world := world = ⟨⟨0, 0, 0x00⟩, fun _ => .ready⟩
  step := Step

/-- Some thread has not returned, and all such threads sleep. -/
def Hung (world : World) : Prop :=
  (∃ i, world.threads i ≠ .finished) ∧
    ∀ i, world.threads i ≠ .finished → world.threads i = .asleep

/-- The signal of `set_power` goes to `read_value` while `set_frequency` sleeps. -/
def Misdirected (world : World) (e : Event) : Prop :=
  world.threads .setFrequency = .asleep ∧ e = .setPower (some .readValue)

variable {world world' : World} {e : Event} {trace : Trace World Event} {choice : Option Thread}

/-! ### The flags -/

/-- The flags when the power, and when the frequency too, has been set. -/
def expectedFlags (power frequency : Position) : UInt8 :=
  if frequency = .finished then 3 else if power = .finished then 1 else 0

/-- The flags say which of the two changes have been made, the power first. -/
structure Flagged (world : World) : Prop where
  power_awake : world.threads .setPower ≠ .asleep
  power_first : world.threads .setFrequency = .finished → world.threads .setPower = .finished
  flags_eq : world.scanner.flags =
    expectedFlags (world.threads .setPower) (world.threads .setFrequency)

theorem Flagged.powerOff_iff (h : Flagged world) :
    world.scanner.PowerOff ↔ world.threads .setPower ≠ .finished := by
  unfold Scanner.PowerOff
  rw [h.flags_eq]
  unfold expectedFlags
  by_cases hf : world.threads .setFrequency = .finished
  · rw [if_pos hf]
    exact iff_of_false (by decide) (not_not_intro (h.power_first hf))
  · rw [if_neg hf]
    split_ifs with hp
    · exact iff_of_false (by decide) (not_not_intro hp)
    · exact iff_of_true (by decide) hp

theorem Flagged.notReadable_iff (h : Flagged world) :
    world.scanner.NotReadable ↔ world.threads .setFrequency ≠ .finished := by
  unfold Scanner.NotReadable
  rw [h.flags_eq]
  unfold expectedFlags
  by_cases hf : world.threads .setFrequency = .finished
  · rw [if_pos hf]
    exact iff_of_false (by decide) (not_not_intro hf)
  · rw [if_neg hf]
    split_ifs <;> exact iff_of_true (by decide) hf

/-- A step in which neither of the two changes is made. -/
theorem Flagged.keep (h : Flagged world) (hscanner : world'.scanner = world.scanner)
    (hpower : world'.threads .setPower = world.threads .setPower)
    (hfrequency : world'.threads .setFrequency = .finished ↔
      world.threads .setFrequency = .finished) : Flagged world' where
  power_awake := hpower ▸ h.power_awake
  power_first := by
    rw [hpower, hfrequency]
    exact h.power_first
  flags_eq := by
    rw [hscanner, h.flags_eq, hpower]
    simp only [expectedFlags, hfrequency]

/-- Waking up makes nobody return. -/
theorem signal_finished_iff (h : stateChanged.CanSignal world.threads choice) (i : Thread) :
    stateChanged.signal world.threads choice i = .finished ↔ world.threads i = .finished := by
  refine CondVar.signal_iff (fun k => k = Position.finished) (fun k hk => ?_) h i
  cases k with
  | asleep => exact iff_of_false Position.noConfusion Position.noConfusion
  | ready => cases hk
  | finished => cases hk

theorem Flagged.step (h : Flagged world) (hstep : Step world e world') : Flagged world' := by
  cases hstep with
  | setPower hpower hsignal =>
    -- the frequency cannot have been set before
    have hfrequency : world.threads .setFrequency ≠ .finished := fun hfinished => by
      cases hpower.symm.trans (h.power_first hfinished)
    -- so the flags are still clear
    have hflags := h.flags_eq
    rw [hpower, expectedFlags, if_neg hfrequency, if_neg Position.noConfusion] at hflags
    have hfrequency' := mt (signal_finished_iff hsignal .setFrequency).mp hfrequency
    constructor
    · simp
    · simp
    · simp [Scanner.setPower, hflags, expectedFlags, hfrequency', toggle, powerBit]
  | frequencyWait hfrequency =>
    exact h.keep rfl rfl (by simp [hfrequency])
  | setFrequency hfrequency hon hsignal =>
    have hpower : world.threads .setPower = .finished := by
      by_contra hne
      exact hon (h.powerOff_iff.mpr hne)
    have hpower' := (signal_finished_iff hsignal .setPower).mpr hpower
    have hflags := h.flags_eq
    rw [hpower, hfrequency, expectedFlags, if_neg Position.noConfusion, if_pos rfl] at hflags
    constructor
    · simp [hpower']
    · simp [hpower']
    · rw [Scanner.setFrequency, hflags, expectedFlags, if_pos (Function.update_self ..)]
      rfl
  | readWait => exact h.keep rfl rfl Iff.rfl
  | read => exact h.keep rfl rfl Iff.rfl

theorem flagged (hrun : Run system trace world) : Flagged world := by
  refine Run.invariant (I := fun _ => Flagged) ?_ (fun _ _ _ _ h hstep => h.step hstep) hrun
  rintro _ rfl
  exact ⟨Position.noConfusion, nofun, rfl⟩

/-! ### Runs without a misdirected signal -/

/-- Whoever sleeps waits for a change that is still to be made. -/
structure Awaited (world : World) : Prop where
  frequency : world.threads .setFrequency = .asleep → world.threads .setPower ≠ .finished
  read : world.threads .readValue = .asleep → world.threads .setFrequency ≠ .finished

/-- A thread that sleeps through a signal was passed over for another one. -/
theorem passed_over (h : stateChanged.CanSignal world.threads choice) {j : Thread}
    (hj : stateChanged.signal world.threads choice j = .asleep) :
    world.threads j = .asleep ∧ ∃ i, i ≠ j ∧ choice = some i ∧ world.threads i = .asleep := by
  obtain ⟨hsame, i, hne, hchoice, hi⟩ := CondVar.asleep_signal h (j := j) (by rw [hj]; rfl)
  refine ⟨hsame.symm.trans hj, i, hne, hchoice, ?_⟩
  cases hk : world.threads i with
  | asleep => rfl
  | ready => cases hi.symm.trans (congrArg stateChanged.asleep hk)
  | finished => cases hi.symm.trans (congrArg stateChanged.asleep hk)

theorem Awaited.step (h : Awaited world) (hflagged : Flagged world)
    (hdirected : ¬ Misdirected world e) (hstep : Step world e world') : Awaited world' := by
  cases hstep with
  | @setPower choice hpower hsignal =>
    have hfrequency : world.threads .setFrequency ≠ .finished := fun hfinished => by
      cases hpower.symm.trans (hflagged.power_first hfinished)
    constructor
    · intro hasleep
      obtain ⟨hasleep, i, hne, rfl, hi⟩ := passed_over hsignal (j := .setFrequency) hasleep
      -- only `read_value` can have been woken instead
      cases i with
      | setPower => cases hpower.symm.trans hi
      | setFrequency => exact absurd rfl hne
      | readValue => exact absurd ⟨hasleep, rfl⟩ hdirected
    · intro _
      exact mt (signal_finished_iff hsignal .setFrequency).mp hfrequency
  | frequencyWait hfrequency hoff =>
    constructor
    · intro _
      simpa using hflagged.powerOff_iff.mp hoff
    · intro _
      simp
  | @setFrequency choice hfrequency _ hsignal =>
    constructor
    · simp
    · intro hasleep
      obtain ⟨hasleep, i, hne, rfl, hi⟩ := passed_over hsignal (j := .readValue) hasleep
      cases i with
      | setPower => exact absurd hi hflagged.power_awake
      | setFrequency => cases hfrequency.symm.trans hi
      | readValue => exact absurd rfl hne
  | readWait hread hnot =>
    constructor
    · simpa using h.frequency
    · intro _
      simpa using hflagged.notReadable_iff.mp hnot
  | read hread =>
    constructor
    · simpa using h.frequency
    · simp

/-- Nobody is asleep without a thread that will wake it. -/
theorem Awaited.not_hung (h : Awaited world) (hflagged : Flagged world) : ¬ Hung world := by
  rintro ⟨⟨i, hi⟩, hasleep⟩
  have hpower : world.threads .setPower = .finished := by
    by_contra hne
    exact hflagged.power_awake (hasleep _ hne)
  have hfrequency : world.threads .setFrequency = .finished := by
    by_contra hne
    exact h.frequency (hasleep _ hne) hpower
  have hread : world.threads .readValue = .finished := by
    by_contra hne
    exact h.read (hasleep _ hne) hfrequency
  cases i with
  | setPower => exact hi hpower
  | setFrequency => exact hi hfrequency
  | readValue => exact hi hread

theorem awaited (hrun : Run system trace world)
    (hdirected : ∀ v e, (v, e) ∈ trace → ¬ Misdirected v e) : Awaited world := by
  refine hrun.keeps (C := fun v e => ¬ Misdirected v e) ?_ (fun _ _ _ _ hrun h hC hstep => ?_)
    hdirected
  · rintro _ rfl
    exact ⟨Position.noConfusion, Position.noConfusion⟩
  · exact h.step (flagged hrun) hC hstep

/-! ### After a misdirected signal -/

/-- The power is set, `set_frequency` sleeps, and nobody will signal again. -/
structure Doomed (world : World) : Prop where
  power : world.threads .setPower = .finished
  frequency : world.threads .setFrequency = .asleep
  read : world.threads .readValue ≠ .finished

theorem Doomed.of_misdirected (hmisdirected : Misdirected world e)
    (hstep : Step world e world') : Doomed world' := by
  obtain ⟨hfrequency, rfl⟩ := hmisdirected
  cases hstep with
  | setPower hpower hsignal =>
    constructor
    · simp
    · simpa [CondVar.signal] using hfrequency
    · simp [CondVar.signal, stateChanged]

theorem Doomed.step (h : Doomed world) (hflagged : Flagged world) (hstep : Step world e world') :
    Doomed world' := by
  cases hstep with
  | setPower hpower => cases hpower.symm.trans h.power
  | frequencyWait hfrequency => cases hfrequency.symm.trans h.frequency
  | setFrequency hfrequency => cases hfrequency.symm.trans h.frequency
  | readWait => exact ⟨by simpa using h.power, by simpa using h.frequency, by simp⟩
  | read _ hreadable =>
    -- the frequency has not been set, so there is nothing to read
    refine absurd (hflagged.notReadable_iff.mpr ?_) hreadable
    rw [h.frequency]
    exact Position.noConfusion

theorem doomed (hrun : Run system trace world)
    (hmisdirected : ∃ v e, (v, e) ∈ trace ∧ Misdirected v e) : Doomed world := by
  refine hrun.since (fun _ _ _ _ hrun h hstep => ?_) hmisdirected
  rcases h with h | hwrong
  · exact h.step (flagged hrun) hstep
  · exact .of_misdirected hwrong hstep

theorem Doomed.hung (h : Doomed world) (hread : world.threads .readValue = .asleep) :
    Hung world := by
  refine ⟨⟨.setFrequency, ?_⟩, fun i hi => ?_⟩
  · rw [h.frequency]
    exact Position.noConfusion
  · cases i with
    | setPower => exact absurd h.power hi
    | setFrequency => exact h.frequency
    | readValue => exact hread

/-- From a doomed state at most one step is left, and it leads to a hang. -/
theorem Doomed.hangs (h : Doomed world) (hrun : Run system trace world) :
    ∃ rest world', Run system (trace ++ rest) world' ∧ Hung world' := by
  cases hread : world.threads .readValue with
  | asleep => exact ⟨[], world, by rwa [List.append_nil], h.hung hread⟩
  | finished => exact absurd hread h.read
  | ready =>
    have hflagged := flagged hrun
    have hnot : world.scanner.NotReadable := by
      rw [hflagged.notReadable_iff, h.frequency]
      exact Position.noConfusion
    have hstep : Step world .readWait _ := .readWait hread hnot
    refine ⟨_, _, hrun.step hstep, (h.step hflagged hstep).hung ?_⟩
    exact Function.update_self Thread.readValue Position.asleep world.threads

/-- **When the scanner hangs.** If no step of a run is a signal of `set_power` that wakes
`read_value` while `set_frequency` sleeps, no state of the run has an unfinished thread
and all unfinished threads asleep. After such a signal the run ends in such a state. -/
theorem never_hangs_iff (hrun : Run system trace world) :
    ((∀ v e, (v, e) ∈ trace → ¬ Misdirected v e) →
        ∀ pre v, Stage trace world pre v → ¬ Hung v) ∧
      ((∃ v e, (v, e) ∈ trace ∧ Misdirected v e) →
        ∃ rest world', Run system (trace ++ rest) world' ∧ Hung world') := by
  refine ⟨fun hdirected pre v hstage => ?_,
    fun hmisdirected => (doomed hrun hmisdirected).hangs hrun⟩
  have hpre := hstage.run hrun
  refine (awaited hpre fun u e hmem => hdirected u e ?_).not_hung (flagged hpre)
  exact hstage.isPrefix.mem hmem

/-- Both other threads are asleep when the power is set, and the signal goes the right
way. -/
theorem never_hangs_iff_directed :
    ∃ trace world, Run system trace world ∧ (∀ i, world.threads i = .finished) ∧
      ∀ pre v, Stage trace world pre v → ¬ Hung v := by
  have hstart : Run system [] ⟨⟨0, 0, 0x00⟩, fun _ => .ready⟩ := .start rfl
  have hread := hstart.step (Step.readWait rfl (by decide))
  have hfrequency := hread.step (Step.frequencyWait rfl (by decide))
  have hpower := hfrequency.step (@Step.setPower _ (some .setFrequency) rfl (by decide))
  have hlocked := hpower.step (@Step.setFrequency _ (some .readValue) rfl (by decide) (by decide))
  have hdone := hlocked.step (Step.read rfl (by decide))
  refine ⟨_, _, hdone, by decide, (never_hangs_iff hdone).1 ?_⟩
  intro v e hmem
  simp only [List.nil_append, List.cons_append, List.mem_cons, Prod.mk.injEq, List.not_mem_nil,
    or_false] at hmem
  rintro ⟨-, rfl⟩
  simp at hmem

/-- The same sleepers, but the signal of `set_power` wakes `read_value`. -/
theorem misdirected_hangs : ∃ trace world, Run system trace world ∧ Hung world := by
  have hstart : Run system [] ⟨⟨0, 0, 0x00⟩, fun _ => .ready⟩ := .start rfl
  have hread := hstart.step (Step.readWait rfl (by decide))
  have hfrequency := hread.step (Step.frequencyWait rfl (by decide))
  have hpower := hfrequency.step (@Step.setPower _ (some .readValue) rfl (by decide))
  have hagain := hpower.step (Step.readWait rfl (by decide))
  exact ⟨_, _, hagain, ⟨.setFrequency, by decide⟩, by decide⟩

end BareMetal.PowerScanner
