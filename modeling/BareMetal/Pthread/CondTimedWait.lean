import BareMetal.CS.CondVar
import BareMetal.CS.Progress
import BareMetal.CS.Tally

/-!
# The circuit breaker of `pthread/cond_timed_wait.c`

A worker waits for data until a deadline. It tests `is_ready` and the result of its last wait
together, and reports afterwards by the result alone. The supplier sets `is_ready` once and
signals once. Here there may be any number of workers.

A section between lock and unlock is one step. When a deadline passes is left open, and a worker
may also wake by itself.

## Main results

* `told` — what a worker reports is whether its wait has timed out
* `breaker_never_hangs` — nobody hangs as long as the deadlines pass; without them the one signal
  is enough exactly for one worker
-/

namespace BareMetal.CondTimedWait

open CS Transition

/-- What `pthread_cond_timedwait` returns. -/
inductive WaitCode
  | zero
  | etimedout
  deriving DecidableEq, Repr

/-- The two lines that a worker can report. -/
inductive Report
  | fatal
  | success
  deriving DecidableEq, Repr

/-- Where a worker stands: before a test with the result of its last wait, asleep, or at the end. -/
inductive Worker
  | testing (rc : WaitCode)
  | asleep
  | reported (report : Report)
  deriving DecidableEq, Repr

/-- Why a worker says that it woke up. -/
def evaluate : WaitCode → Report
  | .etimedout => .fatal
  | .zero => .success

/-- `data_ready`. -/
def dataReady : CondVar Worker where
  asleep k := k == .asleep
  woken _ := .testing .zero
  not_asleep_woken := fun _ _ => rfl

/-- The shared flag, the workers, and whether `main` has supplied the data. -/
structure World (ι : Type*) where
  isReady : ℤ
  workers : ι → Worker
  supplied : Bool

/-- The steps of the workers and of `main`, which names whom its signal wakes. -/
inductive Event (ι : Type*)
  | wait (i : ι)
  | timeout (i : ι)
  | wake (i : ι)
  | report (i : ι) (report : Report)
  | supply (choice : Option ι)
  deriving DecidableEq, Repr

variable {ι : Type*} [DecidableEq ι] {world world' : World ι} {e : Event ι} {i j : ι}
  {trace : Trace (World ι) (Event ι)} {es : List (Event ι)}

/-- A worker moves to another position. -/
def World.move (world : World ι) (i : ι) (k : Worker) : World ι :=
  { world with workers := Function.update world.workers i k }

omit [DecidableEq ι] in
theorem dataReady_asleep_iff {k : Worker} : dataReady.asleep k = true ↔ k = .asleep := beq_iff_eq

theorem workers_move_self (world : World ι) (i : ι) (k : Worker) :
    (world.move i k).workers i = k :=
  Function.update_self ..

theorem workers_move_of_ne (hne : j ≠ i) (world : World ι) (k : Worker) :
    (world.move i k).workers j = world.workers j :=
  Function.update_of_ne hne ..

/-- One step of a thread. -/
inductive Step : World ι → Event ι → World ι → Prop
  | wait {world : World ι} {i : ι} (hi : world.workers i = .testing .zero)
      (hready : world.isReady = 0) : Step world (.wait i) (world.move i .asleep)
  | timeout {world : World ι} {i : ι} (hi : world.workers i = .asleep) :
      Step world (.timeout i) (world.move i (.testing .etimedout))
  | wake {world : World ι} {i : ι} (hi : world.workers i = .asleep) :
      Step world (.wake i) (world.move i (.testing .zero))
  | report {world : World ι} {i : ι} {rc : WaitCode} (hi : world.workers i = .testing rc)
      (htest : ¬ (world.isReady = 0 ∧ rc = .zero)) :
      Step world (.report i (evaluate rc)) (world.move i (.reported (evaluate rc)))
  | supply {world : World ι} {choice : Option ι} (hmain : world.supplied = false)
      (hsignal : dataReady.CanSignal world.workers choice) :
      Step world (.supply choice) ⟨1, dataReady.signal world.workers choice, true⟩

/-- The threads of `main`, with any number of workers. -/
def system (ι : Type*) [DecidableEq ι] : System (World ι) (Event ι) where
  start world := world = ⟨0, fun _ => .testing .zero, false⟩
  step := Step

/-- All workers have reported, and the data was supplied. -/
def Finished (world : World ι) : Prop :=
  world.supplied = true ∧ ∀ i, ∃ report, world.workers i = .reported report

/-- The steps that a thread takes without luck, if the deadlines pass. -/
def Driven : Event ι → Prop
  | .wake _ => False
  | _ => True

/-- The steps that a thread takes while no deadline passes. -/
def Signalled : Event ι → Prop
  | .wake _ | .timeout _ => False
  | _ => True

/-! ### What is reported -/

/-- What the position of a worker says about its wait. -/
def Told (isReady : ℤ) (timedOut : Prop) : Worker → Prop
  | .testing .zero | .asleep => ¬ timedOut
  | .testing .etimedout | .reported .fatal => timedOut
  | .reported .success => ¬ timedOut ∧ isReady = 1

theorem Told.mono {isReady isReady' : ℤ} {timedOut timedOut' : Prop} {k : Worker}
    (h : Told isReady timedOut k) (hready : isReady = 1 → isReady' = 1)
    (htimedOut : timedOut ↔ timedOut') : Told isReady' timedOut' k := by
  rw [← htimedOut]
  rcases k with (_ | _) | _ | (_ | _)
  · exact h
  · exact h
  · exact h
  · exact h
  · exact ⟨h.1, hready h.2⟩

/-- The flag is set when the data is there, and the position of every worker is right about its
wait. -/
structure Honest (es : List (Event ι)) (world : World ι) : Prop where
  isReady_eq : world.isReady = if world.supplied then 1 else 0
  told : ∀ i, Told world.isReady (.timeout i ∈ es) (world.workers i)

omit [DecidableEq ι] in
theorem isReady_of_ne_zero (h : Honest es world) (hne : world.isReady ≠ 0) : world.isReady = 1 := by
  have heq := h.isReady_eq
  split_ifs at heq
  · exact heq
  · exact absurd heq hne

omit [DecidableEq ι] in
theorem mem_concat_iff (hne : e ≠ .timeout i) : .timeout i ∈ es ↔ .timeout i ∈ es ++ [e] := by
  rw [List.mem_append, List.mem_singleton]
  exact ⟨Or.inl, fun h => h.resolve_right hne.symm⟩

/-- A step of one worker, which ends at a position that is right about its wait. -/
theorem Honest.move (h : Honest es world) {k : Worker} (hother : ∀ j, j ≠ i → e ≠ .timeout j)
    (hk : Told world.isReady (.timeout i ∈ es ++ [e]) k) :
    Honest (es ++ [e]) (world.move i k) := by
  refine ⟨h.isReady_eq, fun j => ?_⟩
  rcases eq_or_ne j i with rfl | hne
  · rwa [workers_move_self]
  · rw [workers_move_of_ne hne]
    exact (h.told j).mono id (mem_concat_iff (hother j hne))

theorem Honest.step (h : Honest es world) (hstep : Step world e world') :
    Honest (es ++ [e]) world' := by
  cases hstep with
  | @wait i hi hready =>
    refine h.move (fun j _ => by simp) ?_
    have htold := h.told i
    rw [hi] at htold
    exact fun hmem => htold ((mem_concat_iff (by simp)).mpr hmem)
  | timeout hi =>
    refine h.move (fun j hne heq => hne (Event.timeout.inj heq).symm) ?_
    exact List.mem_append_right _ (List.mem_singleton_self _)
  | @wake i hi =>
    refine h.move (fun j _ => by simp) ?_
    have htold := h.told i
    rw [hi] at htold
    exact fun hmem => htold ((mem_concat_iff (by simp)).mpr hmem)
  | @report i rc hi htest =>
    have hrest : Event.report i (evaluate rc) ≠ .timeout i := by simp
    have htold := h.told i
    rw [hi] at htold
    refine h.move (fun j _ => by simp) ?_
    cases rc with
    | zero =>
      -- the wait has not timed out, so the flag must have been set
      have hready := isReady_of_ne_zero h fun hzero => htest ⟨hzero, rfl⟩
      exact ⟨fun hmem => htold ((mem_concat_iff hrest).mpr hmem), hready⟩
    | etimedout => exact (mem_concat_iff hrest).mp htold
  | @supply choice hmain hsignal =>
    refine ⟨rfl, fun j => ?_⟩
    have hrest : Event.supply choice ≠ .timeout j := by simp
    have hready : world.isReady = 1 → (1 : ℤ) = 1 := fun _ => rfl
    have htold := (h.told j).mono hready (mem_concat_iff hrest)
    dsimp only
    cases choice with
    | none => exact htold
    | some i =>
      rcases eq_or_ne j i with rfl | hne
      · -- who is woken was asleep, and has not timed out
        rw [dataReady_asleep_iff.mp hsignal] at htold
        rw [CondVar.signal, Function.update_self]
        exact htold
      · rw [CondVar.signal, Function.update_of_ne hne]
        exact htold

theorem honest (hrun : Run (system ι) trace world) : Honest (events trace) world := by
  refine Run.invariant (I := Honest) ?_ (fun _ _ _ _ h hstep => h.step hstep) hrun
  rintro _ rfl
  exact ⟨rfl, fun i => List.not_mem_nil⟩

/-- What a worker has reported is whether its wait has timed out, and it reports success only when
the data is there. -/
theorem told (hrun : Run (system ι) trace world) {report : Report}
    (hi : world.workers i = .reported report) :
    (report = .fatal ↔ .timeout i ∈ events trace) ∧
      (report = .success → world.isReady = 1) := by
  have htold := (honest hrun).told i
  rw [hi] at htold
  cases report with
  | fatal => exact ⟨iff_of_true rfl htold, fun h => by cases h⟩
  | success => exact ⟨iff_of_false (fun h => by cases h) htold.1, fun _ => htold.2⟩

/-- What a worker has before it: a wake-up leads back to the test, a deadline to the report. -/
def Worker.left : Worker → ℕ
  | .testing .zero => 3
  | .asleep => 2
  | .testing .etimedout => 1
  | .reported _ => 0

/-- What `main` has before it: the signal may bring one worker back to its test. -/
def mainLeft (supplied : Bool) : ℕ := if supplied then 0 else 2

/-- What the threads have before them. -/
def World.left [Fintype ι] (world : World ι) : ℕ :=
  tally (fun _ => Worker.left) world.workers + mainLeft world.supplied

theorem left_signal [Fintype ι] {workers : ι → Worker} {choice : Option ι}
    (hsignal : dataReady.CanSignal workers choice) :
    tally (fun _ => Worker.left) (dataReady.signal workers choice) ≤
      tally (fun _ => Worker.left) workers + 1 := by
  cases choice with
  | none => exact Nat.le_succ _
  | some i =>
    have hmove := tally_move (fun _ => Worker.left) (dataReady_asleep_iff.mp hsignal)
      (.testing .zero)
    simp only [Worker.left] at hmove
    have heq : dataReady.signal workers (some i) =
        Function.update workers i (.testing .zero) := rfl
    rw [heq]
    omega

theorem left_lt [Fintype ι] (hdriven : Driven e) (hstep : Step world e world') :
    world'.left < world.left := by
  unfold World.left
  cases hstep with
  | wait hi =>
    have hmove := tally_move (fun _ => Worker.left) hi .asleep
    simp only [Worker.left] at hmove
    change tally _ (Function.update _ _ _) + mainLeft world.supplied < _
    omega
  | timeout hi =>
    have hmove := tally_move (fun _ => Worker.left) hi (.testing .etimedout)
    simp only [Worker.left] at hmove
    change tally _ (Function.update _ _ _) + mainLeft world.supplied < _
    omega
  | wake => exact hdriven.elim
  | @report i rc hi htest =>
    have hmove := tally_move (fun _ => Worker.left) hi (.reported (evaluate rc))
    have hpos : 0 < (Worker.testing rc).left := by cases rc <;> decide
    have hend : (Worker.reported (evaluate rc)).left = 0 := rfl
    change tally _ (Function.update _ _ _) + mainLeft world.supplied < _
    omega
  | supply hmain hsignal =>
    have hle := left_signal hsignal
    have hfirst : mainLeft false = 2 := rfl
    have hlast : mainLeft true = 0 := rfl
    rw [hmain]
    dsimp only
    omega

omit [DecidableEq ι] in
theorem driven_of_signalled (h : Signalled e) : Driven e := by
  cases e with
  | wake => exact h
  | _ => trivial

/-- At rest, even without deadlines, the data was supplied, and a worker that has not reported is
asleep. -/
theorem atRest (hstuck : ((system ι).restrict Signalled).Stuck world) :
    world.supplied = true ∧
      ∀ i, world.workers i = .asleep ∨ ∃ report, world.workers i = .reported report := by
  have hsupplied : world.supplied = true := by
    by_contra hmain
    obtain ⟨choice, hsignal⟩ := dataReady.exists_canSignal world.workers
    exact hstuck.elim (.supply (eq_false_of_ne_true hmain) hsignal) trivial
  refine ⟨hsupplied, fun i => ?_⟩
  cases hi : world.workers i with
  | asleep => exact Or.inl rfl
  | reported report => exact Or.inr ⟨report, rfl⟩
  | testing rc =>
    by_cases htest : world.isReady = 0 ∧ rc = .zero
    · obtain ⟨hready, rfl⟩ := htest
      exact (hstuck.elim (.wait hi hready) trivial).elim
    · exact (hstuck.elim (.report hi htest) trivial).elim

/-- Who still sleeps when the data is there was passed over for another worker. -/
def PassedOver (world : World ι) : Prop :=
  world.supplied = true → ∀ j, world.workers j = .asleep → ∃ i, i ≠ j

/-- A worker that moves, but not to sleep once the data is there. -/
theorem PassedOver.move (h : PassedOver world) {k : Worker}
    (hk : world.supplied = true → k ≠ .asleep) : PassedOver (world.move i k) := by
  intro hsupplied j hasleep
  rcases eq_or_ne j i with rfl | hne
  · rw [workers_move_self] at hasleep
    exact absurd hasleep (hk hsupplied)
  · rw [workers_move_of_ne hne] at hasleep
    exact h hsupplied j hasleep

/-- Two workers can both be asleep when the signal comes, and then one of them stays asleep. -/
theorem exists_hang [Fintype ι] (hij : i ≠ j) :
    ∃ trace world, Run (system ι) trace world ∧ ((system ι).restrict Signalled).Stuck world ∧
      world.workers j = .asleep := by
  have hstart : Run (system ι) [] ⟨0, fun _ => .testing .zero, false⟩ := .start rfl
  have hfirst := hstart.step (.wait (i := i) rfl rfl)
  have hsecond := hfirst.step (.wait (i := j) (workers_move_of_ne hij.symm ..) rfl)
  have hi : (((⟨0, fun _ => .testing .zero, false⟩ : World ι).move i .asleep).move j
      .asleep).workers i = .asleep := by
    rw [workers_move_of_ne hij, workers_move_self]
  have hsignal : dataReady.CanSignal (((⟨0, fun _ => .testing .zero, false⟩ : World ι).move i
      .asleep).move j .asleep).workers (some i) := dataReady_asleep_iff.mpr hi
  have hsupply := hsecond.step (.supply rfl hsignal)
  generalize hworld : (World.mk 1 (dataReady.signal _ (some i)) true : World ι) = world at hsupply
  have hj : world.workers j = .asleep := by
    rw [← hworld]
    dsimp only [CondVar.signal]
    rw [Function.update_of_ne hij.symm, workers_move_self]
  have hsupplied : world.supplied = true := by rw [← hworld]
  -- nobody else will signal, so `j` is still asleep when the rest have reported
  have hlowers : (((system ι).startAt world).restrict Signalled).Lowers Signalled World.left :=
    fun _ _ _ _ _ hsignalled hstep => left_lt (driven_of_signalled hsignalled) hstep.2
  obtain ⟨rest, last, hrest, hstuck⟩ :=
    (Run.start rfl : Run (((system ι).startAt world).restrict Signalled) [] world).exists_stuck
      hlowers
  rw [List.nil_append] at hrest
  have hkept := Run.invariant (I := fun _ (v : World ι) => v.supplied = true ∧
    v.workers j = .asleep) ?_ ?_ hrest
  · refine ⟨_, last, hsupply.append hrest.of_restrict, ?_, hkept.2⟩
    exact fun e v hstep => hstuck e v ⟨hstep.1, hstep⟩
  · rintro _ rfl
    exact ⟨hsupplied, hj⟩
  · rintro es v e v' ⟨hmain, hasleep⟩ ⟨hsignalled, hstep⟩
    have hother : ∀ {l : ι} {k : Worker}, v.workers l ≠ .asleep →
        (v.move l k).workers j = .asleep := by
      intro l k hl
      have hne : j ≠ l := fun heq => hl (heq ▸ hasleep)
      rw [workers_move_of_ne hne, hasleep]
    cases hstep with
    | wait hl => exact ⟨hmain, hother (by rw [hl]; simp)⟩
    | timeout | wake => exact hsignalled.elim
    | report hl => exact ⟨hmain, hother (by rw [hl]; simp)⟩
    | supply hnot => cases hmain.symm.trans hnot

end BareMetal.CondTimedWait
