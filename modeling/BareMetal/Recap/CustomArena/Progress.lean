import BareMetal.CS.Progress
import BareMetal.Recap.CustomArena

/-!
# When the threads of `custom_arena.c` finish

A signal for `cond` or `reset_cond` is sent together with the change of the flag, so the one
thread that waits for it either sleeps and is woken, or finds the flag raised when it tests it.

## Main results

* `Awaited.step` — the printer and the destroyer sleep only while their flag is down
* `arena_never_hangs` — no interleaving hangs, and at rest the arena was printed and freed
-/

namespace BareMetal.CustomArena

open CS Transition

variable {capacity : ℕ} {world world' : World capacity} {e : Event capacity}
  {arena arena' : Arena capacity} {signal : Bool}
  {trace : Trace (World capacity) (Event capacity)}

/-- The steps that a thread takes without luck. -/
def Driven : Event capacity → Prop
  | .spuriousPrinter | .spuriousDestroyer => False
  | _ => True

/-- The arena was freed and all threads have returned. -/
def Finished (world : World capacity) : Prop :=
  world.arena = none ∧ ∀ thread, world.position thread = .finished

/-! ### The flags and the sleepers -/

/-- The flags after the section of an adder. -/
theorem workerAdd_flags (hcall : workerAdd arena = .ok (arena', signal)) :
    arena'.canReset = arena.canReset ∧ (signal = false → arena'.isFull = arena.isFull) := by
  unfold workerAdd add at hcall
  split_ifs at hcall with hfull
  · cases hcall
    exact ⟨rfl, Bool.noConfusion⟩
  · obtain ⟨buffer, -, hcall⟩ := Outcome.bind_eq_ok.mp hcall
    cases hcall
    exact ⟨rfl, fun _ => rfl⟩

theorem Position.signalled_ne_asleep (k : Position) : k.signalled ≠ .asleep := by
  cases k <;> decide

/-- No adder sleeps, who else sleeps has its flag still to come, and the destroyer ends with
the arena. -/
structure Awaited (world : World capacity) : Prop where
  adder : ∀ i, world.adders i ≠ .asleep
  printer : world.printer = .asleep → ∀ arena, world.arena = some arena → arena.isFull = false
  destroyer : world.destroyer = .asleep →
    ∀ arena, world.arena = some arena → arena.canReset = false
  freed : world.destroyer = .finished → world.arena = none

theorem Awaited.step (h : Awaited world) (hstep : Step world e world') : Awaited world' := by
  cases hstep with
  | @add arena arena' i signal harena hi hcall =>
    obtain ⟨hreset, hfull⟩ := workerAdd_flags hcall
    refine ⟨forall_move (P := fun _ k => k ≠ Position.asleep) h.adder i nofun, ?_, ?_, ?_⟩
    · rintro hasleep _ ⟨⟩
      cases signal with
      | true => exact absurd hasleep world.printer.signalled_ne_asleep
      | false => exact (hfull rfl).trans (h.printer hasleep _ harena)
    · rintro hasleep _ ⟨⟩
      exact hreset.trans (h.destroyer hasleep _ harena)
    · intro hfinished
      cases harena.symm.trans (h.freed hfinished)
  | printWait harena _ hfull =>
    refine ⟨h.adder, fun _ arena harena' => ?_, h.destroyer, h.freed⟩
    cases harena.symm.trans harena'
    exact hfull
  | print harena =>
    refine ⟨h.adder, nofun, fun hasleep => ?_, fun hfinished => ?_⟩
    · exact absurd hasleep world.destroyer.signalled_ne_asleep
    · cases harena.symm.trans (h.freed (world.destroyer.signalled_eq_finished_iff.mp hfinished))
  | resetWait harena _ hreset =>
    refine ⟨h.adder, h.printer, fun _ arena harena' => ?_, nofun⟩
    cases harena.symm.trans harena'
    exact hreset
  | free => exact ⟨h.adder, fun _ => nofun, nofun, fun _ => rfl⟩
  | dangling => exact h
  | spuriousPrinter => exact ⟨h.adder, nofun, h.destroyer, h.freed⟩
  | spuriousDestroyer => exact ⟨h.adder, h.printer, nofun, nofun⟩

theorem awaited (hrun : Run (system capacity) trace world) : Awaited world := by
  refine Run.invariant (I := fun _ => Awaited) ?_ (fun _ _ _ _ h hstep => h.step hstep) hrun
  rintro _ rfl
  exact ⟨fun _ => nofun, nofun, nofun, nofun⟩

/-! ### Runs that come to rest -/

/-- What an adder has before it: its signal may bring the printer back to its test. -/
def Position.addLeft : Position → ℕ
  | .ready => 2
  | .asleep | .finished => 0

def Position.printLeft : Position → ℕ
  | .ready => 4
  | .asleep => 3
  | .finished => 0

def Position.resetLeft : Position → ℕ
  | .ready => 2
  | .asleep => 1
  | .finished => 0

/-- What all threads have before them. -/
def World.left (world : World capacity) : ℕ :=
  tally (fun _ => Position.addLeft) world.adders + world.printer.printLeft +
    world.destroyer.resetLeft

theorem Position.printLeft_signalled (k : Position) :
    k.signalled.printLeft ≤ k.printLeft + 1 := by
  cases k <;> decide

theorem Position.resetLeft_signalled (k : Position) :
    k.signalled.resetLeft ≤ k.resetLeft + 1 := by
  cases k <;> decide

section

variable (hcapacity : capacity ≤ 254)
include hcapacity

theorem lowers_left : (system capacity).Lowers Driven World.left := by
  intro trace world e world' hrun hdriven hstep
  unfold World.left
  cases hstep with
  | @add arena arena' i signal harena hi =>
    have hmove := tally_move (fun _ => Position.addLeft) hi .finished
    have hprinter : (if signal then world.printer.signalled else world.printer).printLeft ≤
        world.printer.printLeft + 1 := by
      split_ifs
      · exact world.printer.printLeft_signalled
      · exact Nat.le_succ _
    simp only [Position.addLeft] at hmove
    dsimp only
    omega
  | printWait _ hready =>
    simp only [hready, Position.printLeft]
    omega
  | print _ hready =>
    have hwoken := world.destroyer.resetLeft_signalled
    simp only [hready, Position.printLeft]
    omega
  | resetWait _ hready =>
    simp only [hready, Position.resetLeft]
    omega
  | free _ hready =>
    simp only [hready, Position.resetLeft]
    omega
  | dangling hnone hready =>
    cases hready.symm.trans ((safe hcapacity hrun).freed hnone _)
  | spuriousPrinter => exact hdriven.elim
  | spuriousDestroyer => exact hdriven.elim

/-- An adder that is to run its section can do so. -/
theorem add_returns (hrun : Run (system capacity) trace world) (harena : world.arena = some arena)
    {i : Fin (capacity + 1)} (hi : world.adders i = .ready) :
    ∃ world', Step world (.add i) world' := by
  have hlt := added_lt hi
  have hfilled := ((safe hcapacity hrun).live _ harena).filled
  rcases Nat.lt_or_ge world.added capacity with hroom | hfull
  · rw [min_eq_left hroom.le] at hfilled
    obtain ⟨arena', hok, -⟩ := hfilled.add hroom
    exact ⟨_, .add harena hi hok⟩
  · rw [min_eq_right hfull] at hfilled
    exact ⟨_, .add harena hi hfilled.addFull⟩

/-- At rest the arena is gone: an arena that is left has somebody to go on. -/
theorem arena_eq_none (hrun : Run (system capacity) trace world)
    (hstuck : ((system capacity).restrict Driven).Stuck world) : world.arena = none := by
  by_contra hsome
  obtain ⟨arena, harena⟩ := Option.ne_none_iff_exists'.mp hsome
  have hawaited := awaited hrun
  have hlive := (safe hcapacity hrun).live _ harena
  have hadders (i : Fin (capacity + 1)) : world.adders i = .finished := by
    cases hi : world.adders i with
    | ready =>
      obtain ⟨world', hstep⟩ := add_returns hcapacity hrun harena hi
      exact (hstuck.elim hstep trivial).elim
    | asleep => exact absurd hi (hawaited.adder i)
    | finished => rfl
  have hadded : world.added = capacity + 1 := by
    have hall : world.added = Fintype.card (Fin (capacity + 1)) * 1 := by
      refine tally_eq_card_mul fun i => ?_
      rw [hadders i]
      rfl
    rwa [Fintype.card_fin, Nat.mul_one] at hall
  have hfull : arena.isFull = true := hlive.isFull_iff.mpr hadded
  have hprinter : world.printer = .finished := by
    cases hk : world.printer with
    | ready =>
      obtain ⟨lines, world', hstep⟩ := print_returns hcapacity hrun harena hk hfull
      exact (hstuck.elim hstep trivial).elim
    | asleep => cases hfull.symm.trans (hawaited.printer hk _ harena)
    | finished => rfl
  have hreset : arena.canReset = true := hlive.canReset_iff.mpr hprinter
  cases hk : world.destroyer with
  | ready => exact hstuck.elim (.free harena hk hreset) trivial
  | asleep => cases hreset.symm.trans (hawaited.destroyer hk _ harena)
  | finished => cases harena.symm.trans (hawaited.freed hk)

/-- **The arena program never hangs**, for every capacity up to 254, if a sleeper wakes only
when it is signalled: the steps of the threads come to an end, and then the arena was freed and
all threads have returned. -/
theorem arena_never_hangs :
    (system capacity).Lowers Driven World.left ∧ (system capacity).NeverHangs Driven Finished := by
  refine ⟨lowers_left hcapacity, fun trace world hrun hstuck => ?_⟩
  have hnone := arena_eq_none hcapacity hrun hstuck
  exact ⟨hnone, (safe hcapacity hrun).freed hnone⟩

end

/-- The capacity of `main`. -/
theorem arena_never_hangs_main : (system 5).NeverHangs Driven Finished :=
  (arena_never_hangs (by decide)).2

end BareMetal.CustomArena
