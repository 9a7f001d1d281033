import BareMetal.CS.CondVar
import BareMetal.CS.RingBuffer
import BareMetal.CS.Transition
import Mathlib.Data.Fintype.Basic

/-!
# The thread pool of `thread_pool.c` and `tp_engine.c`

Both files have the same `worker_loop` and `submit_task`; they differ in how a
task is run once it has left the queue, which no other thread can see. The model
is of both.

A section between `pthread_mutex_lock` and the matching unlock, or the wait that
gives up the lock, is one step. Any number of threads may call `submit_task` at
any time, so a caller has no state of its own: each call is one step. A worker
has a position in `worker_loop`. The shutdown at the end of `main` is a step too.

The counters of the pool are 8-bit and its arithmetic is the one of the code,
`head + 1` in `int` and the remainder stored back.

## Main results

* `submitTask_full`, `submitTask_accepted`, `workerSection_empty`,
  `workerSection_take` — what each section does to a pool that holds a queue
* `system` — the interleavings of callers, workers and shutdown
-/

namespace BareMetal.ThreadPool

open CS Transition

/-- A pointer of the program, `none` for `NULL`. -/
abbrev Pointer := Option ℕ

/-- `task_t`: a function and the argument to call it with. -/
structure Task where
  function : Pointer
  argument : Pointer
  deriving DecidableEq, Repr

/-- `threadpool_t` for a given `queue_size`: what is shared under the lock. -/
structure Threadpool (queueSize : UInt8) where
  queue : Block queueSize.toNat Task
  head : UInt8
  tail : UInt8
  count : UInt8
  shutdown : Bool

variable {queueSize : UInt8}

/-- `init_threadpool`, `init` in `tp_engine.c`: `calloc` leaves null tasks. -/
def initThreadpool (queueSize : UInt8) : Threadpool queueSize where
  queue := fun _ => ⟨none, none⟩
  head := 0
  tail := 0
  count := 0
  shutdown := false

/-! ### The locked sections -/

/-- The locked section of `submit_task`, up to the signal: the pool it leaves
and the result of the call. -/
def submitTask (pool : Threadpool queueSize) (task : Task) :
    Outcome (Threadpool queueSize × Bool) :=
  -- a queue of size zero is full from the start, so no remainder by zero is taken
  if pool.count = queueSize then .ok (pool, false)
  else do
    let queue ← pool.queue.store pool.tail.toNat task
    let tail ← modU (pool.tail.toNat + 1) queueSize.toNat
    .ok ({ pool with queue := queue, tail := UInt8.ofNat tail, count := pool.count + 1 }, true)

/-- How a worker gives up the lock: asleep in `pthread_cond_wait`, on its way
out of `worker_loop`, or with a task. -/
inductive Verdict
  | wait
  | leave
  | take (task : Task)
  deriving DecidableEq, Repr

/-- The locked section of `worker_loop`, from a test of the inner `while`. -/
def workerSection (pool : Threadpool queueSize) : Outcome (Threadpool queueSize × Verdict) :=
  if pool.count = 0 ∧ pool.shutdown = false then .ok (pool, .wait)
  else if pool.shutdown = true ∧ pool.count = 0 then .ok (pool, .leave)
  else do
    -- the queue is drained before a worker leaves
    let task ← pool.queue.load pool.head.toNat
    let head ← modU (pool.head.toNat + 1) queueSize.toNat
    .ok ({ pool with head := UInt8.ofNat head, count := pool.count - 1 }, .take task)

/-- The call made for a task that was taken: none if its function is `NULL`. -/
def Task.call (task : Task) : Option (ℕ × Pointer) :=
  task.function.map fun function => (function, task.argument)

/-! ### What the result of a section says -/

variable {pool pool' : Threadpool queueSize} {tasks : List Task} {task : Task}

/-- `submit_task` refuses a task exactly when the queue is full. -/
theorem submitTask_result {result : Bool} (hcall : submitTask pool task = .ok (pool', result)) :
    result = false ↔ pool.count = queueSize := by
  unfold submitTask at hcall
  split_ifs at hcall with hfull
  · cases hcall
    exact iff_of_true rfl hfull
  · obtain ⟨queue, -, hcall⟩ := Outcome.bind_eq_ok.mp hcall
    obtain ⟨tail, -, hcall⟩ := Outcome.bind_eq_ok.mp hcall
    cases hcall
    exact iff_of_false Bool.noConfusion hfull

/-- A refused call leaves the pool as it was. -/
theorem submitTask_refused (hcall : submitTask pool task = .ok (pool', false)) : pool' = pool := by
  have hfull := (submitTask_result hcall).mp rfl
  rw [submitTask, if_pos hfull] at hcall
  cases hcall
  rfl

/-- A worker that takes nothing found nothing, and leaves the pool as it was. -/
theorem workerSection_idle {verdict : Verdict}
    (hcall : workerSection pool = .ok (pool', verdict)) (hidle : ∀ task, verdict ≠ .take task) :
    pool' = pool ∧ pool.count = 0 := by
  unfold workerSection at hcall
  split_ifs at hcall with hwait hleave
  · cases hcall
    exact ⟨rfl, hwait.1⟩
  · cases hcall
    exact ⟨rfl, hleave.2⟩
  · obtain ⟨task, -, hcall⟩ := Outcome.bind_eq_ok.mp hcall
    obtain ⟨head, -, hcall⟩ := Outcome.bind_eq_ok.mp hcall
    cases hcall
    exact absurd rfl (hidle task)

/-! ### What a section does to a queue of tasks -/

/-- The pool holds `tasks`, oldest first, in the slots from `head` on. -/
structure Represents (pool : Threadpool queueSize) (tasks : List Task) : Prop where
  holds : RingBuffer.Holds pool.queue pool.head.toNat pool.tail.toNat tasks
  count_eq : pool.count.toNat = tasks.length

theorem represents_initThreadpool (queueSize : UInt8) :
    Represents (initThreadpool queueSize) [] where
  holds := RingBuffer.holds_nil _
  count_eq := rfl

theorem Represents.count_le (h : Represents pool tasks) : pool.count ≤ queueSize := by
  rw [UInt8.le_iff_toNat_le, h.count_eq]
  exact h.holds.length_le

theorem Represents.count_eq_zero (h : Represents pool tasks) : pool.count = 0 ↔ tasks = [] := by
  rw [← UInt8.toNat_inj, h.count_eq]
  exact List.length_eq_zero_iff

/-- A full queue refuses the task. -/
theorem submitTask_full (h : Represents pool tasks) (hfull : tasks.length = queueSize.toNat)
    (task : Task) : submitTask pool task = .ok (pool, false) :=
  if_pos (UInt8.toNat_inj.mp (h.count_eq.trans hfull))

/-- A queue with room takes the task in at its end. -/
theorem submitTask_accepted (h : Represents pool tasks) (hroom : tasks.length < queueSize.toNat)
    (task : Task) :
    ∃ pool', submitTask pool task = .ok (pool', true) ∧ Represents pool' (tasks ++ [task]) := by
  have hsize : 0 < queueSize.toNat := by omega
  have hcount : pool.count ≠ queueSize := by
    rintro heq
    rw [← heq, h.count_eq] at hroom
    exact lt_irrefl _ hroom
  have htail : pool.tail.toNat < queueSize.toNat := h.holds.tail_lt hsize
  let k : Fin queueSize.toNat := ⟨pool.tail.toNat, htail⟩
  refine ⟨{ pool with
    queue := Function.update pool.queue k task
    tail := UInt8.ofNat ((pool.tail.toNat + 1) % queueSize.toNat)
    count := pool.count + 1 }, ?_, ?_, ?_⟩
  · have hstore : pool.queue.store pool.tail.toNat task =
        .ok (Function.update pool.queue k task) := Block.store_natCast pool.queue k task
    rw [submitTask, if_neg hcount, hstore, Outcome.ok_bind, modU_of_pos hsize, Outcome.ok_bind]
  · dsimp only
    rw [RingBuffer.toNat_ofNat_mod hsize queueSize.toNat_lt.le]
    exact h.holds.push hroom task rfl
  · -- the 8-bit counter does not wrap: it stays at most `queue_size`
    have hlt := queueSize.toNat_lt
    have hone : pool.count.toNat + (1 : UInt8).toNat < 256 := by
      rw [h.count_eq]
      exact lt_of_le_of_lt hroom hlt
    rw [List.length_append, List.length_singleton, ← h.count_eq]
    exact (UInt8.toNat_add _ _).trans (Nat.mod_eq_of_lt hone)

/-- A worker that finds no task sleeps, or leaves after the shutdown. -/
theorem workerSection_empty (h : Represents pool []) :
    workerSection pool = .ok (pool, if pool.shutdown then .leave else .wait) := by
  have hcount : pool.count = 0 := h.count_eq_zero.mpr rfl
  cases hshutdown : pool.shutdown <;> simp [workerSection, hcount, hshutdown]

/-- A worker that finds a task takes the oldest one. -/
theorem workerSection_take (h : Represents pool (task :: tasks)) :
    ∃ pool', workerSection pool = .ok (pool', .take task) ∧ Represents pool' tasks := by
  have hlen : (task :: tasks).length ≤ queueSize.toNat := h.holds.length_le
  have hsize : 0 < queueSize.toNat := lt_of_lt_of_le (Nat.zero_lt_succ _) hlen
  have hcount : pool.count ≠ 0 := fun heq => List.cons_ne_nil _ _ (h.count_eq_zero.mp heq)
  have hhead : pool.head.toNat < queueSize.toNat := h.holds.head_lt hsize
  let k : Fin queueSize.toNat := ⟨pool.head.toNat, hhead⟩
  refine ⟨{ pool with
    head := UInt8.ofNat ((pool.head.toNat + 1) % queueSize.toNat)
    count := pool.count - 1 }, ?_, ?_, ?_⟩
  · have hload : pool.queue.load pool.head.toNat = .ok task :=
      (Block.load_natCast pool.queue k).trans (congrArg Except.ok (h.holds.front rfl))
    rw [workerSection, if_neg (fun hempty => hcount hempty.1),
      if_neg (fun hempty => hcount hempty.2), hload, Outcome.ok_bind, modU_of_pos hsize,
      Outcome.ok_bind]
  · dsimp only
    rw [RingBuffer.toNat_ofNat_mod hsize queueSize.toNat_lt.le]
    exact h.holds.pop
  · have hone : (1 : UInt8) ≤ pool.count := by
      rw [UInt8.le_iff_toNat_le, h.count_eq]
      exact Nat.succ_le_succ (Nat.zero_le _)
    dsimp only
    rw [UInt8.toNat_sub_of_le _ _ hone, h.count_eq]
    rfl

/-- What an accepted call leaves. -/
theorem Represents.accept (h : Represents pool tasks)
    (hcall : submitTask pool task = .ok (pool', true)) : Represents pool' (tasks ++ [task]) := by
  rcases h.holds.length_le.lt_or_eq with hroom | hfull
  · obtain ⟨pool₁, hok, h₁⟩ := submitTask_accepted h hroom task
    cases hcall.symm.trans hok
    exact h₁
  · cases hcall.symm.trans (submitTask_full h hfull task)

/-- What a worker that took a task leaves. -/
theorem Represents.take (h : Represents pool tasks)
    (hcall : workerSection pool = .ok (pool', .take task)) :
    ∃ rest, tasks = task :: rest ∧ Represents pool' rest := by
  cases tasks with
  | nil =>
    -- on an empty queue the worker sleeps or leaves
    have hempty := hcall.symm.trans (workerSection_empty h)
    split_ifs at hempty <;> cases hempty
  | cons front rest =>
    obtain ⟨pool₁, hok, h₁⟩ := workerSection_take h
    cases hcall.symm.trans hok
    exact ⟨rest, rfl, h₁⟩

/-! ### The interleavings -/

/-- Where a worker stands. `ready` is both the top of the loop and the way back
from `pthread_cond_wait`: in either place the worker needs the lock and then
tests the inner `while`. -/
inductive Worker
  | ready
  | asleep
  | running (task : Task)
  | exited
  deriving DecidableEq, Repr

/-- `notify`, as a worker sees it. -/
def notify : CondVar Worker where
  asleep
    | .asleep => true
    | _ => false
  woken _ := .ready
  not_asleep_woken _ _ := rfl

/-- The pool and its workers. -/
structure World (threadCount queueSize : UInt8) where
  pool : Threadpool queueSize
  workers : Fin threadCount.toNat → Worker

/-- What can be seen to happen. -/
inductive Event (threadCount : UInt8)
  /-- A call of `submit_task` with its result. -/
  | submit (task : Task) (result : Bool)
  | sleep (worker : Fin threadCount.toNat)
  | leave (worker : Fin threadCount.toNat)
  | take (worker : Fin threadCount.toNat) (task : Task)
  /-- A worker returns from its task, after the given call. -/
  | finish (worker : Fin threadCount.toNat) (call : Option (ℕ × Pointer))
  | shutdown
  /-- A return from `pthread_cond_wait` that no signal caused. -/
  | spurious (worker : Fin threadCount.toNat)
  deriving DecidableEq, Repr

variable {threadCount : UInt8}

/-- One step of the program. -/
inductive Step : World threadCount queueSize → Event threadCount → World threadCount queueSize →
    Prop
  | accept {world : World threadCount queueSize} {task : Task} {pool : Threadpool queueSize}
      {choice : Option (Fin threadCount.toNat)} :
      submitTask world.pool task = .ok (pool, true) → notify.CanSignal world.workers choice →
      Step world (.submit task true) ⟨pool, notify.signal world.workers choice⟩
  | reject {world : World threadCount queueSize} {task : Task} {pool : Threadpool queueSize} :
      submitTask world.pool task = .ok (pool, false) →
      Step world (.submit task false) ⟨pool, world.workers⟩
  | sleep {world : World threadCount queueSize} {i : Fin threadCount.toNat}
      {pool : Threadpool queueSize} :
      world.workers i = .ready → workerSection world.pool = .ok (pool, .wait) →
      Step world (.sleep i) ⟨pool, Function.update world.workers i .asleep⟩
  | leave {world : World threadCount queueSize} {i : Fin threadCount.toNat}
      {pool : Threadpool queueSize} :
      world.workers i = .ready → workerSection world.pool = .ok (pool, .leave) →
      Step world (.leave i) ⟨pool, Function.update world.workers i .exited⟩
  | take {world : World threadCount queueSize} {i : Fin threadCount.toNat} {task : Task}
      {pool : Threadpool queueSize} :
      world.workers i = .ready → workerSection world.pool = .ok (pool, .take task) →
      Step world (.take i task) ⟨pool, Function.update world.workers i (.running task)⟩
  | finish {world : World threadCount queueSize} {i : Fin threadCount.toNat} {task : Task} :
      world.workers i = .running task →
      Step world (.finish i task.call) ⟨world.pool, Function.update world.workers i .ready⟩
  | shutdown {world : World threadCount queueSize} :
      Step world .shutdown
        ⟨{ world.pool with shutdown := true }, notify.broadcast world.workers⟩
  | spurious {world : World threadCount queueSize} {i : Fin threadCount.toNat} :
      world.workers i = .asleep →
      Step world (.spurious i) ⟨world.pool, Function.update world.workers i .ready⟩

/-- The program, from a new pool whose workers have all been created. -/
def system (threadCount queueSize : UInt8) :
    System (World threadCount queueSize) (Event threadCount) where
  start world := world = ⟨initThreadpool queueSize, fun _ => .ready⟩
  step := Step

/-- The tasks for which `submit_task` returned true, in that order. -/
def accepted (events : List (Event threadCount)) : List Task :=
  events.filterMap fun
    | .submit task true => some task
    | _ => none

/-- The tasks the workers took out of the queue, in that order. -/
def taken (events : List (Event threadCount)) : List Task :=
  events.filterMap fun
    | .take _ task => some task
    | _ => none

end BareMetal.ThreadPool
