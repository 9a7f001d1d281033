import BareMetal.CS.Tally
import BareMetal.CS.Transition

/-!
# The lock-free counter of `cas.c`

Every thread increments a shared counter `iterations` times, each time by a
compare-exchange that is retried until it succeeds. The counter is the 32 bits of
an `_Atomic int`, and `expected + 1` is taken modulo `2 ^ 32`. The loop index is
a natural number: it stays at most `iterations`, so an index of 32 bits counts
the same iterations whenever they fit.

`atomic_compare_exchange_weak` may fail although the counter has the expected
value. A failure, whatever its cause, reads the counter into `expected`.

## Main results

* `counter_eq_successes` — the counter is the number of successful exchanges, and
  in the end one for every iteration of every thread
* `toInt_counter` — while the increments fit in an `int`, the addition never
  overflows
-/

namespace BareMetal.Cas

open CS Transition

/-- Where a thread stands in `worker_loop`: before the test of the `for` loop, or
before the exchange of an iteration. -/
inductive Worker
  | test (i : ℕ)
  | exchange (i : ℕ) (expected : BitVec 32)
  deriving DecidableEq, Repr

/-- The thread has left the `for` loop. -/
def Worker.Finished (iterations : ℕ) : Worker → Prop
  | .test i => ¬ i < iterations
  | .exchange _ _ => False

instance (iterations : ℕ) : (k : Worker) → Decidable (k.Finished iterations)
  | .test i => inferInstanceAs (Decidable (¬ i < iterations))
  | .exchange _ _ => inferInstanceAs (Decidable False)

/-- The counter and the position of every thread. -/
structure World (threadCount : ℕ) where
  counter : BitVec 32
  workers : Fin threadCount → Worker

/-- One atomic operation on the counter. -/
inductive Event (threadCount : ℕ)
  | load (t : Fin threadCount)
  | success (t : Fin threadCount)
  | failure (t : Fin threadCount)
  deriving DecidableEq, Repr

/-- The event is a successful exchange. -/
def Event.isSuccess {threadCount : ℕ} : Event threadCount → Bool
  | .success _ => true
  | _ => false

/-- The number of successful exchanges. -/
def successes {threadCount : ℕ} (es : List (Event threadCount)) : ℕ := es.countP Event.isSuccess

variable {threadCount iterations : ℕ} {world world' : World threadCount}
  {es : List (Event threadCount)} {e : Event threadCount}
  {trace : Trace (World threadCount) (Event threadCount)}

/-- The steps of the threads. -/
inductive Step (iterations : ℕ) :
    World threadCount → Event threadCount → World threadCount → Prop
  | load {world : World threadCount} {t : Fin threadCount} {i : ℕ} :
      world.workers t = .test i → i < iterations →
      Step iterations world (.load t)
        { world with workers := Function.update world.workers t (.exchange i world.counter) }
  | success {world : World threadCount} {t : Fin threadCount} {i : ℕ} {expected : BitVec 32} :
      world.workers t = .exchange i expected → world.counter = expected →
      Step iterations world (.success t)
        { counter := expected + 1
          workers := Function.update world.workers t (.test (i + 1)) }
  -- a weak exchange may fail also when the counter has the expected value
  | failure {world : World threadCount} {t : Fin threadCount} {i : ℕ} {expected : BitVec 32} :
      world.workers t = .exchange i expected →
      Step iterations world (.failure t)
        { world with workers := Function.update world.workers t (.exchange i world.counter) }

/-- The threads of `main`, for any number of threads and iterations. -/
def system (threadCount iterations : ℕ) : System (World threadCount) (Event threadCount) where
  start world := world = ⟨0, fun _ => .test 0⟩
  step := Step iterations

/-- The iterations that a thread has completed. -/
def Worker.completed : Worker → ℕ
  | .test i => i
  | .exchange i _ => i

@[simp] theorem Worker.completed_test (i : ℕ) : (Worker.test i).completed = i := rfl

@[simp] theorem Worker.completed_exchange (i : ℕ) (expected : BitVec 32) :
    (Worker.exchange i expected).completed = i := rfl

theorem successes_concat (es : List (Event threadCount)) (e : Event threadCount) :
    successes (es ++ [e]) = successes es + if e.isSuccess then 1 else 0 := by
  simp [successes, List.countP_append, List.countP_singleton]

/-- The iteration a thread is in is one of the loop, and no position is past its end. -/
def Worker.InLoop (iterations : ℕ) : Worker → Prop
  | .test i => i ≤ iterations
  | .exchange i _ => i < iterations

/-- What `expected` holds does not matter: the counter and the completed iterations
both move with the successes. -/
structure Counted (iterations : ℕ) (es : List (Event threadCount)) (world : World threadCount) :
    Prop where
  counter_eq : world.counter = BitVec.ofNat 32 (successes es)
  tally_eq : tally (fun _ => Worker.completed) world.workers = successes es
  inLoop : ∀ t, (world.workers t).InLoop iterations

/-- A thread that reads the counter stays in its iteration. -/
theorem Counted.read (h : Counted iterations es world) (he : e.isSuccess = false)
    {t : Fin threadCount} {k : Worker} {i : ℕ} (ht : world.workers t = k) (hk : k.completed = i)
    (hi : i < iterations) :
    Counted iterations (es ++ [e])
      { world with workers := Function.update world.workers t (.exchange i world.counter) } where
  counter_eq := by simpa [successes_concat, he] using h.counter_eq
  tally_eq := by
    have hmove := tally_move (fun _ => Worker.completed) ht (.exchange i world.counter)
    have hsum := h.tally_eq
    simp only [successes_concat, he, Bool.false_eq_true, if_false, Worker.completed_exchange,
      hk] at hmove ⊢
    omega
  inLoop :=
    forall_move (P := fun _ => Worker.InLoop iterations) h.inLoop t hi

theorem Counted.step (h : Counted iterations es world) (hstep : Step iterations world e world') :
    Counted iterations (es ++ [e]) world' := by
  cases hstep with
  | load ht hi => exact h.read rfl ht rfl hi
  | @failure t i expected ht =>
    have hi := h.inLoop t
    rw [ht] at hi
    exact h.read rfl ht rfl hi
  | @success t i expected ht hcounter =>
    have hi := h.inLoop t
    rw [ht] at hi
    constructor
    · -- the counter had the expected value, however old the read was
      rw [successes_concat, ← hcounter, h.counter_eq]
      simp [Event.isSuccess, BitVec.ofNat_add]
    · have hmove := tally_move (fun _ => Worker.completed) ht (.test (i + 1))
      have hsum := h.tally_eq
      simp only [successes_concat, Event.isSuccess, if_true, Worker.completed_test,
        Worker.completed_exchange] at hmove ⊢
      omega
    · exact forall_move (P := fun _ => Worker.InLoop iterations) h.inLoop t hi

theorem counted (hrun : Run (system threadCount iterations) trace world) :
    Counted iterations (events trace) world := by
  refine Run.invariant (I := Counted iterations) ?_ (fun _ _ _ _ h hstep => h.step hstep) hrun
  rintro _ rfl
  constructor
  · rfl
  · exact tally_eq_zero fun _ => rfl
  · exact fun _ => Nat.zero_le iterations

theorem Worker.InLoop.completed_le {k : Worker} (h : k.InLoop iterations) :
    k.completed ≤ iterations := by
  cases k with
  | test i => exact h
  | exchange i expected => exact Nat.le_of_lt h

/-- A thread that has left the loop has completed all iterations. -/
theorem Worker.InLoop.completed_eq {k : Worker} (h : k.InLoop iterations)
    (hfinished : k.Finished iterations) : k.completed = iterations := by
  cases k with
  | test i => exact le_antisymm h (not_lt.mp hfinished)
  | exchange i expected => exact hfinished.elim

theorem successes_le (hrun : Run (system threadCount iterations) trace world) :
    successes (events trace) ≤ threadCount * iterations := by
  have h := counted hrun
  have htally := tally_le fun t => (h.inLoop t).completed_le
  rwa [h.tally_eq, Fintype.card_fin] at htally

/-- While all increments together fit in an `int`, the counter is the number of
successful exchanges itself, so `expected + 1` never overflows. -/
theorem toInt_counter (hrun : Run (system threadCount iterations) trace world)
    (hfit : threadCount * iterations < 2 ^ 31) :
    world.counter.toInt = successes (events trace) := by
  have hle := successes_le hrun
  have hcounter : world.counter.toNat = successes (events trace) := by
    rw [(counted hrun).counter_eq, BitVec.toNat_ofNat, Nat.mod_eq_of_lt (by omega)]
  rw [BitVec.toInt_eq_toNat_of_lt (by omega), hcounter]

/-- **No increment is lost.** In every state of every interleaving the counter is
the number of successful exchanges modulo `2 ^ 32`; once all threads have left
their loops, it is one for each iteration of each thread. While all increments
together fit in an `int` it is these numbers themselves. -/
theorem counter_eq_successes (hrun : Run (system threadCount iterations) trace world) :
    world.counter.toNat = successes (events trace) % 2 ^ 32 ∧
      ((∀ t, (world.workers t).Finished iterations) →
        world.counter.toNat = threadCount * iterations % 2 ^ 32) ∧
      (threadCount * iterations < 2 ^ 31 → world.counter.toInt = successes (events trace)) := by
  have h := counted hrun
  have hcounter : world.counter.toNat = successes (events trace) % 2 ^ 32 := by
    rw [h.counter_eq, BitVec.toNat_ofNat]
  refine ⟨hcounter, fun hfinished => ?_, toInt_counter hrun⟩
  have htally := tally_eq_card_mul fun t => (h.inLoop t).completed_eq (hfinished t)
  rw [hcounter, ← h.tally_eq, htally, Fintype.card_fin]

/-- Two threads with one iteration each: both read 0, one exchange fails and is
retried. -/
theorem counter_eq_successes_two :
    ∃ (trace : Trace (World 2) (Event 2)) (world : World 2),
      Run (system 2 1) trace world ∧ (∀ t, (world.workers t).Finished 1) ∧
        world.counter.toNat = 2 * 1 % 2 ^ 32 := by
  have hstart : Run (system 2 1) [] ⟨0, fun _ => .test 0⟩ := .start rfl
  have hload := hstart.step (@Step.load 2 1 _ 0 0 rfl (by decide))
  have hload' := hload.step (@Step.load _ _ _ 1 0 rfl (by decide))
  have hsuccess := hload'.step (@Step.success _ _ _ 0 0 0 rfl rfl)
  have hfailure := hsuccess.step (@Step.failure _ _ _ 1 0 0 rfl)
  have hretry := hfailure.step (@Step.success _ _ _ 1 0 1 rfl rfl)
  refine ⟨_, _, hretry, ?_, (counter_eq_successes hretry).2.1 ?_⟩
  · decide
  · decide

end BareMetal.Cas
