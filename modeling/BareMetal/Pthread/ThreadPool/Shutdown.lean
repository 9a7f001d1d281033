import BareMetal.CS.Progress
import BareMetal.CS.Tally
import BareMetal.Pthread.ThreadPool.Workers

/-!
# The end of the thread pool

The end of `main` sets `shutdown`, wakes all workers and joins them. A worker leaves only an
empty queue, and no worker goes to sleep once the flag is set.

## Main results

* `Served.step` — the tasks that were taken are done or in the hands of a worker
* `shutdown_runs_all` — after a shutdown the workers come to rest, and then they have left and
  every accepted task was called once
-/

namespace BareMetal.ThreadPool

open CS Transition

variable {threadCount queueSize : UInt8} {world world' : World threadCount queueSize}
  {es : List (Event threadCount)} {e : Event threadCount}
  {trace : Trace (World threadCount queueSize) (Event threadCount)} {i : Fin threadCount.toNat}

/-- The calls that were made, in the order in which they returned. -/
def called (events : List (Event threadCount)) : List (Option (ℕ × Pointer)) :=
  events.filterMap fun
    | .finish _ call => some call
    | _ => none

/-- The steps that a worker takes without being woken. -/
def Driven : Event threadCount → Prop
  | .sleep _ | .leave _ | .take _ _ | .finish _ _ => True
  | _ => False

/-! ### Tasks in the hands of a worker -/

/-- A worker that is making the call. -/
def Worker.making (call : Option (ℕ × Pointer)) : Worker → ℕ
  | .running task => if task.call = call then 1 else 0
  | _ => 0

/-- The calls of the tasks that were taken are made or being made. -/
def Served (es : List (Event threadCount)) (world : World threadCount queueSize) : Prop :=
  ∀ call, ((taken es).map Task.call).count call =
    (called es).count call + tally (fun _ => Worker.making call) world.workers

theorem called_concat (es : List (Event threadCount)) (e : Event threadCount) :
    called (es ++ [e]) = called es ++ called [e] :=
  List.filterMap_append

/-- A step that neither takes a task nor ends one. -/
theorem Served.keep (h : Served es world) (htaken : taken [e] = []) (hcalled : called [e] = [])
    (hmaking : ∀ call, tally (fun _ => Worker.making call) world'.workers =
      tally (fun _ => Worker.making call) world.workers) : Served (es ++ [e]) world' := by
  intro call
  rw [taken_concat, called_concat, htaken, hcalled, List.append_nil, List.append_nil, hmaking]
  exact h call

/-- Waking up has nothing to do with the calls. -/
theorem making_woken (call : Option (ℕ × Pointer)) (k : Worker) (hk : notify.asleep k = true) :
    (notify.woken k).making call = k.making call := by
  cases k with
  | asleep => rfl
  | ready => cases hk
  | running => cases hk
  | exited => cases hk

theorem making_signal {workers : Fin threadCount.toNat → Worker}
    {choice : Option (Fin threadCount.toNat)} (hsignal : notify.CanSignal workers choice)
    (call : Option (ℕ × Pointer)) :
    tally (fun _ => Worker.making call) (notify.signal workers choice) =
      tally (fun _ => Worker.making call) workers := by
  cases choice with
  | none => rfl
  | some i => exact tally_move_eq rfl (making_woken call _ hsignal)

theorem making_broadcast (workers : Fin threadCount.toNat → Worker)
    (call : Option (ℕ × Pointer)) :
    tally (fun _ => Worker.making call) (notify.broadcast workers) =
      tally (fun _ => Worker.making call) workers := by
  refine Finset.sum_congr rfl fun i _ => ?_
  unfold CondVar.broadcast
  split_ifs with hi
  · exact making_woken call _ hi
  · rfl

theorem Served.step (h : Served es world) (hstep : Step world e world') :
    Served (es ++ [e]) world' := by
  cases hstep with
  | accept _ hsignal => exact h.keep rfl rfl (making_signal hsignal)
  | reject => exact h.keep rfl rfl fun _ => rfl
  | sleep hready => exact h.keep rfl rfl fun _ => tally_move_eq hready rfl
  | leave hready => exact h.keep rfl rfl fun _ => tally_move_eq hready rfl
  | @take i task _ hready =>
    intro call
    have hmove := tally_move (fun _ => Worker.making call) hready (.running task)
    have hold := h call
    have hnew : ((taken [Event.take i task]).map Task.call).count call =
        (Worker.running task).making call := by
      simp [taken, Worker.making, List.count_singleton]
    rw [taken_concat, called_concat, List.map_append, List.count_append, List.count_append, hnew]
    have hnone : (called [Event.take i task]).count call = 0 := rfl
    have hidle : Worker.ready.making call = 0 := rfl
    dsimp only
    omega
  | @finish i task hrunning =>
    intro call
    have hmove := tally_move (fun _ => Worker.making call) hrunning .ready
    have hold := h call
    have hnew : (called [Event.finish i task.call]).count call =
        (Worker.running task).making call := by
      simp [called, Worker.making, List.count_singleton]
    rw [taken_concat, called_concat, List.map_append, List.count_append, List.count_append, hnew]
    have hnone : ((taken [Event.finish i task.call]).map Task.call).count call = 0 := rfl
    have hidle : Worker.ready.making call = 0 := rfl
    dsimp only
    omega
  | shutdown => exact h.keep rfl rfl (making_broadcast _)
  | spurious hasleep => exact h.keep rfl rfl fun _ => tally_move_eq hasleep rfl

theorem served (hrun : Run (system threadCount queueSize) trace world) :
    Served (events trace) world := by
  refine hrun.invariant ?_ fun es s e s' h hstep => h.step hstep
  rintro _ rfl call
  have hidle : tally (fun _ => Worker.making call)
      (fun _ : Fin threadCount.toNat => Worker.ready) = 0 := tally_eq_zero fun _ => rfl
  exact ((Nat.zero_add _).trans hidle).symm

/-! ### The flag -/

/-- A worker gives up the lock to sleep only while the pool is open. -/
theorem shutdown_of_wait {pool pool' : Threadpool queueSize}
    (hcall : workerSection pool = .ok (pool', .wait)) : pool.shutdown = false := by
  unfold workerSection at hcall
  split_ifs at hcall with hwait hleave
  · exact hwait.2
  · cases hcall
  · obtain ⟨task, -, hcall⟩ := Outcome.bind_eq_ok.mp hcall
    obtain ⟨head, -, hcall⟩ := Outcome.bind_eq_ok.mp hcall
    cases hcall

/-- The sections leave the flag alone. -/
theorem shutdown_workerSection {pool pool' : Threadpool queueSize} {verdict : Verdict}
    (hcall : workerSection pool = .ok (pool', verdict)) : pool'.shutdown = pool.shutdown := by
  unfold workerSection at hcall
  split_ifs at hcall with hwait hleave
  · cases hcall
    rfl
  · cases hcall
    rfl
  · obtain ⟨task, -, hcall⟩ := Outcome.bind_eq_ok.mp hcall
    obtain ⟨head, -, hcall⟩ := Outcome.bind_eq_ok.mp hcall
    cases hcall
    rfl

theorem shutdown_submitTask {pool pool' : Threadpool queueSize} {task : Task} {result : Bool}
    (hcall : submitTask pool task = .ok (pool', result)) : pool'.shutdown = pool.shutdown := by
  unfold submitTask at hcall
  split_ifs at hcall with hfull
  · cases hcall
    rfl
  · obtain ⟨queue, -, hcall⟩ := Outcome.bind_eq_ok.mp hcall
    obtain ⟨tail, -, hcall⟩ := Outcome.bind_eq_ok.mp hcall
    cases hcall
    rfl

/-- The flag is set and nobody sleeps. -/
structure Closing (world : World threadCount queueSize) : Prop where
  shutdown : world.pool.shutdown = true
  awake : ∀ i, world.workers i ≠ .asleep

/-- The broadcast wakes them all. -/
theorem closing_shutdown (world : World threadCount queueSize) :
    Closing ⟨{ world.pool with shutdown := true }, notify.broadcast world.workers⟩ := by
  refine ⟨rfl, fun j hj => ?_⟩
  have hawake : notify.asleep (notify.broadcast world.workers j) = false :=
    CondVar.not_asleep_broadcast j
  dsimp only at hj
  rw [hj] at hawake
  cases hawake

theorem Closing.step (h : Closing world) (hstep : Step world e world') : Closing world' := by
  have hmove (i : Fin threadCount.toNat) {k : Worker} (hk : k ≠ .asleep) :
      ∀ j, Function.update world.workers i k j ≠ .asleep :=
    forall_move (P := fun _ k => k ≠ Worker.asleep) h.awake i hk
  cases hstep with
  | @accept task pool choice hcall hsignal =>
    refine ⟨(shutdown_submitTask hcall).trans h.shutdown, fun j hj => ?_⟩
    dsimp only at hj
    have hasleep : notify.asleep (notify.signal world.workers choice j) = true := by
      rw [hj]
      rfl
    obtain ⟨heq, -⟩ := CondVar.asleep_signal hsignal hasleep
    exact h.awake j (heq.symm.trans hj)
  | reject hcall => exact ⟨(shutdown_submitTask hcall).trans h.shutdown, h.awake⟩
  | sleep _ hcall => cases h.shutdown.symm.trans (shutdown_of_wait hcall)
  | leave _ hcall =>
    exact ⟨(shutdown_workerSection hcall).trans h.shutdown, hmove _ Worker.noConfusion⟩
  | take _ hcall =>
    exact ⟨(shutdown_workerSection hcall).trans h.shutdown, hmove _ Worker.noConfusion⟩
  | finish => exact ⟨h.shutdown, hmove _ Worker.noConfusion⟩
  | shutdown => exact closing_shutdown world
  | spurious hasleep => exact absurd hasleep (h.awake _)

/-- After a shutdown, nobody sleeps any more. -/
theorem closing (hrun : Run (system threadCount queueSize) trace world)
    (hshutdown : .shutdown ∈ events trace) : Closing world := by
  obtain ⟨⟨v, e⟩, hmem, rfl⟩ := List.mem_map.mp hshutdown
  refine hrun.since (C := fun _ e => e = .shutdown) ?_ ⟨v, _, hmem, rfl⟩
  rintro _ v e v' _ (h | rfl) hstep
  · exact h.step hstep
  · cases hstep
    exact closing_shutdown v

/-! ### Coming to rest -/

/-- The steps that a worker has before it, the tasks in the queue apart. -/
def Worker.left : Worker → ℕ
  | .running _ => 2
  | .ready => 1
  | .asleep | .exited => 0

/-- A task in the queue stands for two steps of some worker. -/
def World.left (world : World threadCount queueSize) : ℕ :=
  2 * world.pool.count.toNat + tally (fun _ => Worker.left) world.workers

theorem Represents.count_take {pool pool' : Threadpool queueSize} {tasks : List Task} {task : Task}
    (h : Represents pool tasks) (hcall : workerSection pool = .ok (pool', .take task)) :
    pool'.count.toNat + 1 = pool.count.toNat := by
  obtain ⟨rest, rfl, hrest⟩ := h.take hcall
  rw [hrest.count_eq, h.count_eq, List.length_cons]

theorem left_lt (hrun : Run (system threadCount queueSize) trace world) (hdriven : Driven e)
    (hstep : Step world e world') : world'.left < world.left := by
  unfold World.left
  cases hstep with
  | accept | reject | shutdown | spurious => exact hdriven.elim
  | sleep hready hcall =>
    obtain ⟨rfl, -⟩ := workerSection_idle hcall fun _ => Verdict.noConfusion
    have hmove := tally_move (fun _ => Worker.left) hready .asleep
    simp only [Worker.left] at hmove
    dsimp only
    omega
  | leave hready hcall =>
    obtain ⟨rfl, -⟩ := workerSection_idle hcall fun _ => Verdict.noConfusion
    have hmove := tally_move (fun _ => Worker.left) hready .exited
    simp only [Worker.left] at hmove
    dsimp only
    omega
  | @take i task pool hready hcall =>
    obtain ⟨tasks, -, hpool⟩ := queued hrun
    have hcount := hpool.count_take hcall
    have hmove := tally_move (fun _ => Worker.left) hready (.running task)
    simp only [Worker.left] at hmove
    dsimp only
    omega
  | finish hrunning =>
    have hmove := tally_move (fun _ => Worker.left) hrunning .ready
    simp only [Worker.left] at hmove
    dsimp only
    omega

/-- The section of a worker returns. -/
theorem exists_verdict (hrun : Run (system threadCount queueSize) trace world) :
    ∃ pool verdict, workerSection world.pool = .ok (pool, verdict) := by
  obtain ⟨tasks, -, hpool⟩ := queued hrun
  cases tasks with
  | nil => exact ⟨_, _, workerSection_empty hpool⟩
  | cons task rest =>
    obtain ⟨pool, hok, -⟩ := workerSection_take hpool
    exact ⟨pool, _, hok⟩

/-- A worker at rest sleeps or has left. -/
theorem atRest (hrun : Run (system threadCount queueSize) trace world)
    (hstuck : ((system threadCount queueSize).restrict Driven).Stuck world)
    (i : Fin threadCount.toNat) : world.workers i = .asleep ∨ world.workers i = .exited := by
  cases hi : world.workers i with
  | ready =>
    obtain ⟨pool, verdict, hcall⟩ := exists_verdict hrun
    cases verdict with
    | wait => exact (hstuck.elim (.sleep hi hcall) trivial).elim
    | leave => exact (hstuck.elim (.leave hi hcall) trivial).elim
    | take task => exact (hstuck.elim (.take hi hcall) trivial).elim
  | asleep => exact Or.inl rfl
  | running task => exact (hstuck.elim (.finish hi) trivial).elim
  | exited => exact Or.inr rfl

/-- Once all workers have left an empty queue, what was accepted was called. -/
theorem called_perm (hrun : Run (system threadCount queueSize) trace world)
    (hall : AllExited world) (hcount : world.pool.count = 0) :
    (called (events trace)).Perm ((accepted (events trace)).map Task.call) := by
  rw [← (taken_eq_accepted_iff (queued hrun)).mpr hcount]
  refine List.perm_iff_count.mpr fun call => ?_
  have hidle : tally (fun _ => Worker.making call) world.workers = 0 := by
    refine tally_eq_zero fun i => ?_
    rw [hall i]
    rfl
  rw [served hrun call, hidle, Nat.add_zero]

/-- **What a shutdown waits for.** In a run with a shutdown in which no task is accepted once
all workers have left: a step of a worker brings the workers nearer to rest, and at rest
all of them have left `worker_loop` and every accepted task was called exactly once. -/
theorem shutdown_runs_all (hrun : Run (system threadCount queueSize) trace world)
    (hshutdown : .shutdown ∈ events trace)
    (hlate : ∀ v task, (v, .submit task true) ∈ trace → ¬ AllExited v) :
    (∀ e world', Driven e → Step world e world' → world'.left < world.left) ∧
      (((system threadCount queueSize).restrict Driven).Stuck world →
        AllExited world ∧
          (called (events trace)).Perm ((accepted (events trace)).map Task.call)) := by
  refine ⟨fun e world' => left_lt hrun, fun hstuck => ?_⟩
  have hall : AllExited world := by
    intro i
    exact (atRest hrun hstuck i).resolve_left ((closing hrun hshutdown).awake i)
  refine ⟨hall, called_perm hrun hall (count_eq_zero_of_allExited hrun ?_ hall)⟩
  rintro v _ hmem task rfl
  exact hlate v task hmem

/-- Workers that have left do nothing more. -/
theorem stuck_of_allExited (hall : AllExited world) :
    ((system threadCount queueSize).restrict Driven).Stuck world := by
  rintro e world' ⟨hdriven, hstep⟩
  cases hstep with
  | accept | reject | shutdown | spurious => exact hdriven
  | sleep hready => cases (hall _).symm.trans hready
  | leave hready => cases (hall _).symm.trans hready
  | take hready => cases (hall _).symm.trans hready
  | finish hrunning => cases (hall _).symm.trans hrunning

/-- A pool as in `main`: one task, taken after the shutdown. -/
theorem shutdown_runs_all_main :
    ∃ (trace : Trace (World 2 10) (Event 2)) (world : World 2 10),
      Run (system 2 10) trace world ∧ accepted (events trace) = [⟨some 1, some 2⟩] ∧
        AllExited world ∧
          (called (events trace)).Perm ((accepted (events trace)).map Task.call) := by
  have hstart : Run (system 2 10) [] ⟨initThreadpool 10, fun _ => .ready⟩ := .start rfl
  have haccept := hstart.step (@Step.accept _ _ _ ⟨some 1, some 2⟩ _ none rfl (by decide))
  have hshutdown := haccept.step Step.shutdown
  have htake := hshutdown.step (@Step.take _ _ _ ⟨0, by decide⟩ _ _ rfl rfl)
  have hfinish := htake.step (@Step.finish _ _ _ ⟨0, by decide⟩ _ rfl)
  have hfirst := hfinish.step (@Step.leave _ _ _ ⟨0, by decide⟩ _ rfl rfl)
  have hlast := hfirst.step (@Step.leave _ _ _ ⟨1, by decide⟩ _ rfl rfl)
  refine ⟨_, _, hlast, rfl, (shutdown_runs_all hlast ?_ ?_).2 (stuck_of_allExited ?_)⟩
  · simp [events]
  · -- the task is accepted before anything else happens
    intro v task hmem hall
    simp at hmem
    rw [hmem.1] at hall
    cases hall ⟨0, by decide⟩
  · intro i
    revert i
    decide

end BareMetal.ThreadPool
