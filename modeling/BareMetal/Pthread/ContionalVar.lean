import BareMetal.CS.Byte
import BareMetal.CS.CondVar
import BareMetal.CS.Transition

/-!
# Pool preparation in `pthread/contional_var.c`

`clean` sets the clean bit of a pool, `fill` waits for it and sets the fill bit, and
`open_pool` waits for both and sets the open bit. `fill` gives up the lock while it
works, so the pool may have changed when it takes the lock again.

There may be any number of threads of each role. A section between lock and unlock is
one step, a broadcast is made after the lock is released, and a sleeper may also wake by
itself; it then tests its condition again.

## Main results

* `phase_forward` — the bits of a pool are always those of a phase, and a step moves
  the pool forward
* `preparation_ordered` — the bits are set in order, and a pool that is opened is ready
-/

namespace BareMetal.ContionalVar

open CS Transition Byte

/-- `BIT`. -/
def bit (x : UInt8) : UInt8 := 1 <<< x

/-- `DEFAULT_MASK`. -/
def defaultMask : UInt8 := 0x00

/-- `READY_MASK`. -/
def readyMask : UInt8 := 0x0B

/-- `CLEAN_BIT`. -/
def cleanBit : UInt8 := 0

/-- `FILL_BIT`. -/
def fillBit : UInt8 := 1

/-- `OPEN_BIT`. -/
def openBit : UInt8 := 3

/-! ### The threads -/

/-- Where `clean` stands: before its section, before its broadcast, or at the end. -/
inductive Cleaner
  | start
  | broadcast
  | finished
  deriving DecidableEq, Repr

/-- Where `fill` stands: before its first section, asleep in it, before its second section,
before its broadcast, or at the end. -/
inductive Filler
  | start
  | asleep
  | fill
  | broadcast
  | finished
  deriving DecidableEq, Repr

/-- Where `open_pool` stands. -/
inductive Opener
  | start
  | asleep
  | finished
  deriving DecidableEq, Repr

/-- The condition variable `is_clean`, on which `fill` waits. -/
def isClean : CondVar Filler where
  asleep k := decide (k = .asleep)
  woken _ := .start
  not_asleep_woken _ _ := rfl

/-- The condition variable `is_full`, on which `open_pool` waits. -/
def isFull : CondVar Opener where
  asleep k := decide (k = .asleep)
  woken _ := .start
  not_asleep_woken _ _ := rfl

/-- The state of a pool and the threads that prepare it. -/
structure World (ι κ μ : Type*) where
  state : UInt8
  cleaners : ι → Cleaner
  fillers : κ → Filler
  openers : μ → Opener

/-- The steps of the threads. An `open_pool` that ends its wait names the state that it
compares with `READY_MASK`. -/
inductive Event (ι κ μ : Type*)
  | clean (i : ι)
  | broadcastClean (i : ι)
  | fillWait (j : κ)
  | fillWake (j : κ)
  | pass (j : κ)
  | fill (j : κ)
  | broadcastFull (j : κ)
  | openWait (k : μ)
  | openWake (k : μ)
  | openPool (k : μ) (state : UInt8)
  deriving DecidableEq, Repr

variable {ι κ μ : Type*} [DecidableEq ι] [DecidableEq κ] [DecidableEq μ]

/-- One step of the program. -/
inductive Step : World ι κ μ → Event ι κ μ → World ι κ μ → Prop
  | clean {world : World ι κ μ} {i : ι} :
      world.cleaners i = .start →
      Step world (.clean i)
        { world with
          state := world.state ||| bit cleanBit
          cleaners := Function.update world.cleaners i .broadcast }
  | broadcastClean {world : World ι κ μ} {i : ι} :
      world.cleaners i = .broadcast →
      Step world (.broadcastClean i)
        { world with
          cleaners := Function.update world.cleaners i .finished
          fillers := isClean.broadcast world.fillers }
  | fillWait {world : World ι κ μ} {j : κ} :
      world.fillers j = .start → world.state &&& bit cleanBit = 0 →
      Step world (.fillWait j) { world with fillers := Function.update world.fillers j .asleep }
  | fillWake {world : World ι κ μ} {j : κ} :
      world.fillers j = .asleep →
      Step world (.fillWake j) { world with fillers := Function.update world.fillers j .start }
  | pass {world : World ι κ μ} {j : κ} :
      world.fillers j = .start → world.state &&& bit cleanBit ≠ 0 →
      Step world (.pass j) { world with fillers := Function.update world.fillers j .fill }
  | fill {world : World ι κ μ} {j : κ} :
      world.fillers j = .fill →
      Step world (.fill j)
        { world with
          state := world.state ||| bit fillBit
          fillers := Function.update world.fillers j .broadcast }
  | broadcastFull {world : World ι κ μ} {j : κ} :
      world.fillers j = .broadcast →
      Step world (.broadcastFull j)
        { world with
          fillers := Function.update world.fillers j .finished
          openers := isFull.broadcast world.openers }
  | openWait {world : World ι κ μ} {k : μ} :
      world.openers k = .start → world.state &&& (bit cleanBit ||| bit fillBit) ≠ 3 →
      Step world (.openWait k) { world with openers := Function.update world.openers k .asleep }
  | openWake {world : World ι κ μ} {k : μ} :
      world.openers k = .asleep →
      Step world (.openWake k) { world with openers := Function.update world.openers k .start }
  | openPool {world : World ι κ μ} {k : μ} :
      world.openers k = .start → world.state &&& (bit cleanBit ||| bit fillBit) = 3 →
      Step world (.openPool k (world.state ||| bit openBit))
        { world with
          state := world.state ||| bit openBit
          openers := Function.update world.openers k .finished }

/-- A new pool, and threads that have not begun. -/
def system : System (World ι κ μ) (Event ι κ μ) where
  start world := world = ⟨defaultMask, fun _ => .start, fun _ => .start, fun _ => .start⟩
  step := Step

variable {world world' : World ι κ μ} {e : Event ι κ μ} {trace : Trace (World ι κ μ) (Event ι κ μ)}

/-! ### Phases of the preparation -/

/-- What has been done to a pool. -/
inductive Phase
  | dirty
  | clean
  | full
  | opened
  deriving DecidableEq, Repr

namespace Phase

/-- The bits of a pool in a phase. -/
def mask : Phase → UInt8
  | dirty => defaultMask
  | clean => bit cleanBit
  | full => bit cleanBit ||| bit fillBit
  | opened => readyMask

/-- How far the preparation has come. -/
def rank : Phase → ℕ
  | dirty => 0
  | clean => 1
  | full => 2
  | opened => 3

variable {p : Phase}

/-- A pool is at least clean once it is cleaned. -/
theorem exists_clean (p : Phase) :
    ∃ q : Phase, p.mask ||| bit cleanBit = q.mask ∧ p.rank ≤ q.rank ∧ q ≠ dirty := by
  cases p with
  | dirty => exact ⟨clean, rfl, by decide, by decide⟩
  | clean => exact ⟨clean, rfl, by decide, by decide⟩
  | full => exact ⟨full, rfl, by decide, by decide⟩
  | opened => exact ⟨opened, rfl, by decide, by decide⟩

/-- A clean pool is at least full once it is filled. -/
theorem exists_fill (h : p ≠ dirty) :
    ∃ q : Phase, p.mask ||| bit fillBit = q.mask ∧ p.rank ≤ q.rank := by
  cases p with
  | dirty => exact absurd rfl h
  | clean => exact ⟨full, rfl, by decide⟩
  | full => exact ⟨full, rfl, by decide⟩
  | opened => exact ⟨opened, rfl, by decide⟩

/-- `fill` gets past its wait when the pool is clean. -/
theorem ne_dirty (h : p.mask &&& bit cleanBit ≠ 0) : p ≠ dirty := by
  rintro rfl
  exact h rfl

/-- `open_pool` gets past its wait when the pool is full, and opening it makes it ready. -/
theorem mask_open (h : p.mask &&& (bit cleanBit ||| bit fillBit) = 3) :
    p.mask ||| bit openBit = readyMask := by
  cases p with
  | dirty => exact absurd h (by decide)
  | clean => exact absurd h (by decide)
  | full => rfl
  | opened => rfl

theorem rank_le_opened (p : Phase) : p.rank ≤ opened.rank := by
  cases p <;> decide

end Phase

/-! ### What every run keeps -/

/-- The bits of the pool are those of the phase `p`, and a thread that is to fill it has found
it clean. -/
structure InPhase (p : Phase) (world : World ι κ μ) : Prop where
  state_eq : world.state = p.mask
  fill : ∀ j, world.fillers j = .fill → p ≠ .dirty

omit [DecidableEq ι] [DecidableEq κ] [DecidableEq μ] in
/-- A step that leaves the bits alone and sends no thread to fill the pool. -/
theorem InPhase.keep {p : Phase} (h : InPhase p world) (hstate : world'.state = world.state)
    (hfill : ∀ j, world'.fillers j = .fill → world.fillers j = .fill) : InPhase p world' where
  state_eq := hstate.trans h.state_eq
  fill j hj := h.fill j (hfill j hj)

/-- A thread that moves elsewhere is not one that moves to the second section of `fill`. -/
theorem fill_of_move {fillers : κ → Filler} {j j' : κ} {k : Filler} (hk : k ≠ .fill)
    (h : Function.update fillers j k j' = .fill) : fillers j' = .fill := by
  by_cases hj : j' = j
  · subst hj
    rw [Function.update_self] at h
    exact absurd h hk
  · rwa [Function.update_of_ne hj] at h

omit [DecidableEq κ] in
theorem fill_of_broadcast {fillers : κ → Filler} {j : κ}
    (h : isClean.broadcast fillers j = .fill) : fillers j = .fill := by
  refine (isClean.broadcast_iff (fun k => k = .fill) (fun k hk => ?_) j).mp h
  have hasleep : k = .asleep := of_decide_eq_true hk
  rw [hasleep]
  decide

/-- A step takes the pool from a phase to the same or a later one. -/
theorem phase_forward {p : Phase} (h : InPhase p world) (hstep : Step world e world') :
    ∃ q : Phase, InPhase q world' ∧ p.rank ≤ q.rank := by
  cases hstep with
  | clean _ =>
    obtain ⟨q, hmask, hrank, hq⟩ := p.exists_clean
    refine ⟨q, ⟨?_, fun _ _ => hq⟩, hrank⟩
    rw [h.state_eq, hmask]
  | broadcastClean _ => exact ⟨p, h.keep rfl fun _ => fill_of_broadcast, Nat.le_refl _⟩
  | fillWait _ _ => exact ⟨p, h.keep rfl fun _ => fill_of_move nofun, Nat.le_refl _⟩
  | fillWake _ => exact ⟨p, h.keep rfl fun _ => fill_of_move nofun, Nat.le_refl _⟩
  | pass _ hclean =>
    rw [h.state_eq] at hclean
    exact ⟨p, ⟨h.state_eq, fun _ _ => Phase.ne_dirty hclean⟩, Nat.le_refl _⟩
  | @fill j hfill =>
    have hp := h.fill j hfill
    obtain ⟨q, hmask, hrank⟩ := Phase.exists_fill hp
    refine ⟨q, ⟨?_, fun _ _ hq => ?_⟩, hrank⟩
    · rw [h.state_eq, hmask]
    · -- a pool that was clean before is not dirty now
      rw [hq] at hrank
      cases p with
      | dirty => exact hp rfl
      | clean | full | opened => exact absurd hrank (by decide)
  | broadcastFull _ => exact ⟨p, h.keep rfl fun _ => fill_of_move nofun, Nat.le_refl _⟩
  | openWait _ _ => exact ⟨p, h.keep rfl fun _ => id, Nat.le_refl _⟩
  | openWake _ => exact ⟨p, h.keep rfl fun _ => id, Nat.le_refl _⟩
  | openPool _ hfull =>
    rw [h.state_eq] at hfull
    refine ⟨.opened, ⟨?_, fun _ _ => nofun⟩, p.rank_le_opened⟩
    rw [h.state_eq, Phase.mask_open hfull]
    rfl

theorem exists_phase (hrun : Run system trace world) : ∃ p : Phase, InPhase p world := by
  refine hrun.invariant (I := fun _ world => ∃ p : Phase, InPhase p world) ?_ ?_
  · rintro _ rfl
    exact ⟨.dirty, rfl, nofun⟩
  · rintro _ _ _ _ ⟨p, h⟩ hstep
    obtain ⟨q, h', -⟩ := phase_forward h hstep
    exact ⟨q, h'⟩

/-! ### The order of the preparation -/

/-- The bits of the pool are set in order, and each `open_pool` that has finished its wait has
found the pool ready. -/
structure Ordered (trace : Trace (World ι κ μ) (Event ι κ μ)) (world : World ι κ μ) : Prop where
  fill : Has world.state (bit fillBit) → Has world.state (bit cleanBit)
  opened : Has world.state (bit openBit) →
    Has world.state (bit cleanBit) ∧ Has world.state (bit fillBit)
  no_other : world.state &&& ~~~readyMask = 0
  ready : ∀ v k state, (v, .openPool k state) ∈ trace → state = readyMask

/-- **Pool preparation is ordered**, with any number of threads of each role and in any
interleaving. -/
theorem preparation_ordered (hrun : Run system trace world) : Ordered trace world := by
  obtain ⟨p, h⟩ := exists_phase hrun
  constructor
  · rw [h.state_eq]
    cases p <;> decide
  · rw [h.state_eq]
    cases p <;> decide
  · rw [h.state_eq]
    cases p <;> decide
  · intro v k state hmem
    -- the wait has ended in the phase before the step
    obtain ⟨pre, v', hpre, hstep, -⟩ := hrun.next_stage hmem
    obtain ⟨q, hq⟩ := exists_phase hpre
    cases hstep with
    | openPool _ hfull =>
      rw [hq.state_eq] at hfull ⊢
      exact Phase.mask_open hfull

/-- One thread of each role; `fill` and `open_pool` come too early at first. -/
theorem preparation_ordered_three : ∃ (trace : Trace (World Unit Unit Unit) (Event Unit Unit Unit))
    (world : World Unit Unit Unit), Run system trace world ∧
      events trace = [.openWait (), .fillWait (), .clean (), .broadcastClean (), .pass (),
        .fill (), .broadcastFull (), .openPool () readyMask] ∧ Ordered trace world := by
  have hstart : Run (system : System (World Unit Unit Unit) (Event Unit Unit Unit)) []
    ⟨defaultMask, fun _ => .start, fun _ => .start, fun _ => .start⟩ := .start rfl
  have hopenWait := hstart.step (.openWait (k := ()) rfl (by decide))
  have hfillWait := hopenWait.step (.fillWait (j := ()) rfl (by decide))
  have hclean := hfillWait.step (.clean (i := ()) rfl)
  have hbroadcast := hclean.step (.broadcastClean (i := ()) rfl)
  have hpass := hbroadcast.step (.pass (j := ()) rfl (by decide))
  have hfill := hpass.step (.fill (j := ()) rfl)
  have hfull := hfill.step (.broadcastFull (j := ()) rfl)
  have hopen := hfull.step (.openPool (k := ()) rfl (by decide))
  exact ⟨_, _, hopen, rfl, preparation_ordered hopen⟩

end BareMetal.ContionalVar
