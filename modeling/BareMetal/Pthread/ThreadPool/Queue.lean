import BareMetal.Pthread.ThreadPool.Basic

/-!
# The queue of the thread pool

`ExactlyOnce` is what the queue promises in one state of a run: it holds the
accepted tasks that no worker has taken, in the order of acceptance. The proof
carries `Queued`, which says the same of a list of tasks, through every step.
-/

namespace BareMetal.ThreadPool

open CS Transition

variable {threadCount queueSize : UInt8} {world world' : World threadCount queueSize}
  {es : List (Event threadCount)} {e : Event threadCount}
  {trace : Trace (World threadCount queueSize) (Event threadCount)}

/-! ### The events of a run -/

theorem accepted_concat (es : List (Event threadCount)) (e : Event threadCount) :
    accepted (es ++ [e]) = accepted es ++ accepted [e] :=
  List.filterMap_append

theorem taken_concat (es : List (Event threadCount)) (e : Event threadCount) :
    taken (es ++ [e]) = taken es ++ taken [e] :=
  List.filterMap_append

/-- The pool represents the accepted tasks that were not taken. -/
def Queued (es : List (Event threadCount)) (world : World threadCount queueSize) : Prop :=
  ∃ tasks, accepted es = taken es ++ tasks ∧ Represents world.pool tasks

/-- A step that neither accepts nor takes a task, and leaves the queue alone. -/
theorem Queued.keep (h : Queued es world) (haccepted : accepted [e] = []) (htaken : taken [e] = [])
    (hpool : ∀ tasks, Represents world.pool tasks → Represents world'.pool tasks) :
    Queued (es ++ [e]) world' := by
  obtain ⟨tasks, hsplit, hpool'⟩ := h
  refine ⟨tasks, ?_, hpool tasks hpool'⟩
  rw [accepted_concat, taken_concat, haccepted, htaken, List.append_nil, List.append_nil, hsplit]

/-- One step keeps the queue and the events in agreement. Only an accepted call
and a task taken change what is queued. -/
theorem Queued.step (h : Queued es world) (hstep : Step world e world') :
    Queued (es ++ [e]) world' := by
  obtain ⟨tasks, hsplit, hpool⟩ := id h
  cases hstep with
  | @accept task pool _ hcall _ =>
    refine ⟨tasks ++ [task], ?_, hpool.accept hcall⟩
    calc accepted (es ++ [.submit task true])
        = accepted es ++ [task] := accepted_concat _ _
      _ = taken es ++ (tasks ++ [task]) := by rw [hsplit, List.append_assoc]
      _ = taken (es ++ [.submit task true]) ++ (tasks ++ [task]) := by
        rw [taken_concat]
        exact congrArg (· ++ _) (List.append_nil _).symm
  | reject hcall =>
    obtain rfl := submitTask_refused hcall
    exact h.keep rfl rfl fun _ => id
  | sleep _ hcall =>
    obtain ⟨rfl, -⟩ := workerSection_idle hcall fun _ => Verdict.noConfusion
    exact h.keep rfl rfl fun _ => id
  | leave _ hcall =>
    obtain ⟨rfl, -⟩ := workerSection_idle hcall fun _ => Verdict.noConfusion
    exact h.keep rfl rfl fun _ => id
  | @take i task pool _ hcall =>
    obtain ⟨rest, rfl, hrest⟩ := hpool.take hcall
    refine ⟨rest, ?_, hrest⟩
    calc accepted (es ++ [.take i task])
        = accepted es := (accepted_concat _ _).trans (List.append_nil _)
      _ = taken es ++ [task] ++ rest := by rw [hsplit, List.append_assoc, List.singleton_append]
      _ = taken (es ++ [.take i task]) ++ rest := by
        rw [taken_concat]
        rfl
  | finish => exact h.keep rfl rfl fun _ => id
  | shutdown =>
    -- the flag is no part of the queue
    exact h.keep rfl rfl fun _ hrep => ⟨hrep.holds, hrep.count_eq⟩
  | spurious => exact h.keep rfl rfl fun _ => id

/-- In every state of every run, the pool represents what was accepted and not
taken. -/
theorem queued (hrun : Run (system threadCount queueSize) trace world) :
    Queued (events trace) world := by
  refine hrun.invariant ?_ fun es s e s' h hstep => h.step hstep
  rintro _ rfl
  exact ⟨[], rfl, represents_initThreadpool queueSize⟩

/-! ### Exactly once, first in first out -/

/-- What the queue promises after the events `es`, in the state `world`. -/
structure ExactlyOnce (es : List (Event threadCount)) (world : World threadCount queueSize) :
    Prop where
  count_le : world.pool.count ≤ queueSize
  taken_prefix : taken es <+: accepted es
  /-- The tasks that remain are in the `count` slots from `head` on. -/
  slots : ∃ remaining, accepted es = taken es ++ remaining ∧
    remaining.length = world.pool.count.toNat ∧
    ∀ (i : ℕ) (hi : i < remaining.length),
      world.pool.queue.load ((world.pool.head.toNat + i) % queueSize.toNat : ℕ) =
        .ok remaining[i]
  reject : ∀ task world', Step world (.submit task false) world' → world' = world
  submit_returns : ∀ task stop, submitTask world.pool task ≠ .error stop
  section_returns : ∀ stop, workerSection world.pool ≠ .error stop

/-- **The queue of the thread pool is exactly-once and first in, first out.** In
every state of every interleaving of callers, workers and shutdown, for any
number of workers and any size of the queue, the tasks taken are a prefix of the
tasks accepted and the others wait in the slots from `head` on; a refused call
changes nothing, and no locked section stops on a remainder by zero or on an
access outside the queue. -/
theorem queue_exactlyOnce (hrun : Run (system threadCount queueSize) trace world) :
    ExactlyOnce (events trace) world := by
  obtain ⟨tasks, hsplit, hpool⟩ := queued hrun
  refine ⟨hpool.count_le, ⟨tasks, hsplit.symm⟩, ⟨tasks, hsplit, hpool.count_eq.symm, ?_⟩, ?_, ?_,
    ?_⟩
  · intro i hi
    have hsize : 0 < queueSize.toNat := lt_of_lt_of_le (Nat.zero_lt_of_lt hi) hpool.holds.length_le
    let k : Fin queueSize.toNat := ⟨_, Nat.mod_lt (world.pool.head.toNat + i) hsize⟩
    exact (Block.load_natCast world.pool.queue k).trans
      (congrArg Except.ok (hpool.holds.cells_eq i hi k rfl))
  · intro task world' hstep
    cases hstep with
    | reject hcall => rw [submitTask_refused hcall]
  · intro task stop herror
    rcases hpool.holds.length_le.lt_or_eq with hroom | hfull
    · obtain ⟨_, hok, -⟩ := submitTask_accepted hpool hroom task
      cases hok.symm.trans herror
    · cases (submitTask_full hpool hfull task).symm.trans herror
  · intro stop herror
    cases tasks with
    | nil => cases (workerSection_empty hpool).symm.trans herror
    | cons task rest =>
      obtain ⟨_, hok, -⟩ := workerSection_take hpool
      cases hok.symm.trans herror

/-- One worker and one slot: the first task is accepted, the second is refused,
and the first is taken. -/
theorem queue_exactlyOnce_one :
    ∃ (trace : Trace (World 1 1) (Event 1)) (world : World 1 1),
      Run (system 1 1) trace world ∧
      events trace = [.submit ⟨some 1, none⟩ true, .submit ⟨some 2, none⟩ false,
        .take ⟨0, by decide⟩ ⟨some 1, none⟩] ∧
      ExactlyOnce (events trace) world := by
  have hstart : Run (system 1 1) [] ⟨initThreadpool 1, fun _ => .ready⟩ := .start rfl
  have haccept := hstart.step (@Step.accept _ _ _ ⟨some 1, none⟩ _ none rfl fun _ => rfl)
  have hreject := haccept.step (@Step.reject _ _ _ ⟨some 2, none⟩ _ rfl)
  have htake := hreject.step (@Step.take _ _ _ ⟨0, by decide⟩ _ _ rfl rfl)
  exact ⟨_, _, htake, rfl, queue_exactlyOnce htake⟩

end BareMetal.ThreadPool
