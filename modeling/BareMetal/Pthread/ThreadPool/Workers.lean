import BareMetal.Pthread.ThreadPool.Queue

/-!
# Shutdown and wake-ups of the thread pool

`submit_task` never reads `shutdown`, and a worker leaves when it finds the flag
set and the queue empty. So a task that is accepted after the last worker left
stays in the queue for ever. `drains_iff` says that this is the only way in which
a shutdown loses a task.

## Main results

* `lateSubmit_lost` — a run that loses a task
* `drains_iff` — the runs that do not
* `exists_awake` — while a task waits, not every remaining worker sleeps
-/

namespace BareMetal.ThreadPool

open CS Transition

variable {threadCount queueSize : UInt8} {world world' : World threadCount queueSize}
  {es : List (Event threadCount)} {e : Event threadCount}
  {trace : Trace (World threadCount queueSize) (Event threadCount)}

/-- Every worker has left `worker_loop`. -/
def AllExited (world : World threadCount queueSize) : Prop :=
  ∀ i, world.workers i = .exited

/-- Waking up neither revives a worker nor makes one leave. -/
theorem woken_exited_iff (k : Worker) (hk : notify.asleep k = true) :
    notify.woken k = .exited ↔ k = .exited := by
  cases k with
  | asleep => exact iff_of_false Worker.noConfusion Worker.noConfusion
  | ready => cases hk
  | running => cases hk
  | exited => cases hk

theorem signal_exited_iff {workers : Fin threadCount.toNat → Worker}
    {choice : Option (Fin threadCount.toNat)} (h : notify.CanSignal workers choice)
    (i : Fin threadCount.toNat) : notify.signal workers choice i = .exited ↔ workers i = .exited :=
  CondVar.signal_iff (fun k => k = Worker.exited) woken_exited_iff h i

theorem broadcast_exited_iff (workers : Fin threadCount.toNat → Worker)
    (i : Fin threadCount.toNat) : notify.broadcast workers i = .exited ↔ workers i = .exited :=
  CondVar.broadcast_iff (fun k => k = Worker.exited) woken_exited_iff i

/-- A worker that has just moved anywhere else keeps `AllExited` from holding. -/
theorem not_allExited_update {pool : Threadpool queueSize} {i : Fin threadCount.toNat}
    {position : Worker} (hposition : position ≠ .exited) :
    ¬ AllExited ⟨pool, Function.update world.workers i position⟩ := by
  intro hall
  exact hposition ((Function.update_self i position world.workers).symm.trans (hall i))

/-- The last worker to leave finds the queue empty, and nothing but its leaving
makes all workers gone. -/
theorem allExited_of_step (hstep : Step world e world') (hall : AllExited world') :
    AllExited world ∨ ∃ i, e = .leave i := by
  cases hstep with
  | accept _ hsignal =>
    exact Or.inl fun i => (signal_exited_iff hsignal i).mp (hall i)
  | reject => exact Or.inl hall
  | sleep => exact absurd hall (not_allExited_update Worker.noConfusion)
  | leave => exact Or.inr ⟨_, rfl⟩
  | take => exact absurd hall (not_allExited_update Worker.noConfusion)
  | finish => exact absurd hall (not_allExited_update Worker.noConfusion)
  | shutdown => exact Or.inl fun i => (broadcast_exited_iff _ i).mp (hall i)
  | spurious => exact absurd hall (not_allExited_update Worker.noConfusion)

/-- A worker leaves an empty queue behind. -/
theorem count_eq_zero_of_leave {i : Fin threadCount.toNat} (hstep : Step world (.leave i) world') :
    world'.pool.count = 0 := by
  cases hstep with
  | leave _ hcall =>
    obtain ⟨rfl, hcount⟩ := workerSection_idle hcall fun _ => Verdict.noConfusion
    exact hcount

/-- Once all workers are gone, only an accepted task changes the number of tasks
that wait. -/
theorem count_eq_of_allExited (hall : AllExited world) (hsubmit : ∀ task, e ≠ .submit task true)
    (hstep : Step world e world') : world'.pool.count = world.pool.count := by
  cases hstep with
  | accept => exact absurd rfl (hsubmit _)
  | reject hcall => rw [submitTask_refused hcall]
  | sleep hready => cases (hall _).symm.trans hready
  | leave hready => cases (hall _).symm.trans hready
  | take hready => cases (hall _).symm.trans hready
  | finish hrunning => cases (hall _).symm.trans hrunning
  | shutdown => rfl
  | spurious hasleep => cases (hall _).symm.trans hasleep

/-- No accepted task waits exactly when the counter is zero. -/
theorem taken_eq_accepted_iff (h : Queued es world) :
    taken es = accepted es ↔ world.pool.count = 0 := by
  obtain ⟨tasks, hsplit, hpool⟩ := h
  rw [hpool.count_eq_zero, hsplit, List.self_eq_append_right]

/-- If no task is accepted once all workers are gone, none waits by then. -/
theorem count_eq_zero_of_allExited (hrun : Run (system threadCount queueSize) trace world)
    (hlate : ∀ v e, (v, e) ∈ trace → ∀ task, e = .submit task true → ¬ AllExited v)
    (hall : AllExited world) : world.pool.count = 0 := by
  refine Run.invariant_of_trace (I := fun _ v => AllExited v → v.pool.count = 0) ?_ ?_ hrun hlate
    hall
  · rintro _ rfl -
    rfl
  · intro _ v e v' hv hC hstep hall'
    rcases allExited_of_step hstep hall' with hall | ⟨i, rfl⟩
    · rw [count_eq_of_allExited hall (fun task he => hC task he hall) hstep]
      exact hv hall
    · exact count_eq_zero_of_leave hstep

/-- **What a shutdown loses.** In a run, no state in which all workers have left
`worker_loop` has an accepted task waiting, if and only if every call of
`submit_task` made after all workers had left found the queue full. -/
theorem drains_iff (hrun : Run (system threadCount queueSize) trace world) :
    (∀ pre v, Stage trace world pre v → AllExited v →
        taken (events pre) = accepted (events pre)) ↔
      ∀ v task result, (v, .submit task result) ∈ trace → AllExited v →
        v.pool.count = queueSize := by
  constructor
  · intro hdrains v task result hmem hall
    obtain ⟨pre, v', hpre, hstep, hstage⟩ := hrun.next_stage hmem
    cases hstep with
    | accept _ hsignal =>
      -- the accepted task is one more than those taken before it
      have hlost := hdrains _ _ hstage fun i => (signal_exited_iff hsignal i).mpr (hall i)
      obtain ⟨tasks, hsplit, -⟩ := queued hpre
      rw [events_concat, accepted_concat, taken_concat, hsplit] at hlost
      have hlen := congrArg List.length hlost
      simp [accepted, taken] at hlen
    | reject hcall => exact (submitTask_result hcall).mp rfl
  · intro hfull pre v hstage hall
    have hpre := hstage.run hrun
    refine (taken_eq_accepted_iff (queued hpre)).mpr (count_eq_zero_of_allExited hpre ?_ hall)
    rintro u _ hmem task rfl hallu
    have hcount := hfull u task true (hstage.isPrefix.mem hmem) hallu
    obtain ⟨before, u', -, hstep, -⟩ := hrun.next_stage (hstage.isPrefix.mem hmem)
    cases hstep with
    | accept hcall => cases (submitTask_result hcall).mpr hcount

/-- A pool as in `main`, shut down before any task: both workers leave, and the
task that is accepted afterwards waits for ever. -/
theorem lateSubmit_lost :
    ∃ (trace : Trace (World 2 10) (Event 2)) (world : World 2 10),
      Run (system 2 10) trace world ∧ AllExited world ∧
        accepted (events trace) = [⟨some 1, some 2⟩] ∧ taken (events trace) = [] := by
  have hstart : Run (system 2 10) [] ⟨initThreadpool 10, fun _ => .ready⟩ := .start rfl
  have hshutdown := hstart.step Step.shutdown
  have hfirst := hshutdown.step (@Step.leave _ _ _ ⟨0, by decide⟩ _ rfl rfl)
  have hlast := hfirst.step (@Step.leave _ _ _ ⟨1, by decide⟩ _ rfl rfl)
  have haccept := hlast.step (@Step.accept _ _ _ ⟨some 1, some 2⟩ _ none rfl (by decide))
  refine ⟨_, _, haccept, ?_, rfl, rfl⟩
  intro i
  revert i
  decide

/-- The same pool, with the task submitted before the shutdown. -/
theorem drains_iff_main :
    ∃ (trace : Trace (World 2 10) (Event 2)) (world : World 2 10),
      Run (system 2 10) trace world ∧ AllExited world ∧
      accepted (events trace) = [⟨some 1, some 2⟩] ∧
      ∀ pre v, Stage trace world pre v → AllExited v →
        taken (events pre) = accepted (events pre) := by
  have hstart : Run (system 2 10) [] ⟨initThreadpool 10, fun _ => .ready⟩ := .start rfl
  have haccept := hstart.step (@Step.accept _ _ _ ⟨some 1, some 2⟩ _ none rfl (by decide))
  have hshutdown := haccept.step Step.shutdown
  have htake := hshutdown.step (@Step.take _ _ _ ⟨0, by decide⟩ _ _ rfl rfl)
  have hfinish := htake.step (@Step.finish _ _ _ ⟨0, by decide⟩ _ rfl)
  have hfirst := hfinish.step (@Step.leave _ _ _ ⟨0, by decide⟩ _ rfl rfl)
  have hlast := hfirst.step (@Step.leave _ _ _ ⟨1, by decide⟩ _ rfl rfl)
  refine ⟨_, _, hlast, ?_, rfl, (drains_iff hlast).mpr fun v task result hmem hall => ?_⟩
  · intro i
    revert i
    decide
  -- the only task is submitted when the workers are at the start
  simp only [List.nil_append, List.cons_append, List.mem_cons, Prod.mk.injEq, reduceCtorEq,
    and_false, or_false, List.not_mem_nil] at hmem
  obtain ⟨rfl, -⟩ := hmem
  cases hall ⟨0, by decide⟩

/-! ### Wake-ups -/

/-- While a task waits, some remaining worker, if there is one, is awake. -/
def NoLostWakeup (world : World threadCount queueSize) : Prop :=
  world.pool.count ≠ 0 → (∃ i, world.workers i ≠ .exited) →
    ∃ i, world.workers i ≠ .exited ∧ notify.asleep (world.workers i) = false

/-- A worker that has just moved and is awake is the one looked for. -/
theorem NoLostWakeup.of_moved {pool : Threadpool queueSize} {i : Fin threadCount.toNat}
    {position : Worker} (hexited : position ≠ .exited) (hawake : notify.asleep position = false) :
    NoLostWakeup ⟨pool, Function.update world.workers i position⟩ := by
  intro _ _
  refine ⟨i, ?_, ?_⟩
  · simpa using hexited
  · simpa using hawake

theorem NoLostWakeup.step (h : NoLostWakeup world) (hstep : Step world e world') :
    NoLostWakeup world' := by
  cases hstep with
  | accept _ hsignal =>
    -- the signal wakes a sleeper, or nobody sleeps
    rintro - ⟨i, hi⟩
    refine CondVar.exists_awake_of_signal (fun k => k ≠ .exited) (fun _ _ => Worker.noConfusion)
      hsignal ⟨i, fun hexited => hi ?_⟩
    exact (signal_exited_iff hsignal i).mpr hexited
  | reject hcall =>
    obtain rfl := submitTask_refused hcall
    exact h
  | sleep _ hcall =>
    -- a worker goes to sleep on an empty queue only, whoever emptied it
    obtain ⟨rfl, hcount⟩ := workerSection_idle hcall fun _ => Verdict.noConfusion
    exact fun hpos => absurd hcount hpos
  | leave _ hcall =>
    obtain ⟨rfl, hcount⟩ := workerSection_idle hcall fun _ => Verdict.noConfusion
    exact fun hpos => absurd hcount hpos
  | take => exact .of_moved Worker.noConfusion rfl
  | finish => exact .of_moved Worker.noConfusion rfl
  | shutdown =>
    rintro - ⟨i, hi⟩
    exact ⟨i, hi, CondVar.not_asleep_broadcast i⟩
  | spurious => exact .of_moved Worker.noConfusion rfl

/-- **No wake-up is lost.** In every state of every interleaving in which a task
waits and some worker has not left, some worker that has not left is not asleep
on `notify`. -/
theorem exists_awake (hrun : Run (system threadCount queueSize) trace world)
    (hcount : 0 < world.pool.count) (hlive : ∃ i, world.workers i ≠ .exited) :
    ∃ i, world.workers i ≠ .exited ∧ world.workers i ≠ .asleep := by
  have hinv : NoLostWakeup world := by
    refine Run.invariant (I := fun _ v => NoLostWakeup v) ?_ (fun _ _ _ _ h hstep => ?_) hrun
    · rintro _ rfl hpos
      exact absurd rfl hpos
    · exact h.step hstep
  obtain ⟨i, hexited, hawake⟩ := hinv (UInt8.pos_iff_ne_zero.mp hcount) hlive
  refine ⟨i, hexited, fun hasleep => ?_⟩
  rw [hasleep] at hawake
  cases hawake

/-- Two workers, both asleep when a task is accepted: one of them is awake. -/
theorem exists_awake_two :
    ∃ (trace : Trace (World 2 10) (Event 2)) (world : World 2 10),
      Run (system 2 10) trace world ∧ 0 < world.pool.count ∧
        world.workers ⟨0, by decide⟩ = .asleep ∧
        ∃ i, world.workers i ≠ .exited ∧ world.workers i ≠ .asleep := by
  have hstart : Run (system 2 10) [] ⟨initThreadpool 10, fun _ => .ready⟩ := .start rfl
  have hfirst := hstart.step (@Step.sleep _ _ _ ⟨0, by decide⟩ _ rfl rfl)
  have hsecond := hfirst.step (@Step.sleep _ _ _ ⟨1, by decide⟩ _ rfl rfl)
  have haccept := hsecond.step
    (@Step.accept _ _ _ ⟨some 1, some 2⟩ _ (some ⟨1, by decide⟩) rfl (by decide))
  refine ⟨_, _, haccept, by decide, by decide, exists_awake haccept (by decide) ?_⟩
  exact ⟨⟨1, by decide⟩, by decide⟩

end BareMetal.ThreadPool
