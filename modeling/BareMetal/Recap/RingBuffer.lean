import BareMetal.CS.RingBuffer
import Mathlib.Data.List.Induction

/-!
# The ring queue of `recap/ring_buffer.c`

`push` writes at `head` and `pop` reads at `tail`; `size` counts the cells in
between and alone decides whether the queue is full or empty. A push on a full
queue is dropped: it raises `is_full`, which the logging thread takes down again.
Each call does its work under the lock, so that calls come one after another.

The capacity is a `uint8_t` and may be zero. Then every push is dropped and every
pop finds the queue empty, so that the remainders by the capacity are not reached.

## Main results

* `Represents.push`, `Represents.drop`, `Represents.pop`, `Represents.pop_nil` — what a
  call does to the queue
* `run_spec` — after any calls the queue holds the accepted values that are not popped
-/

namespace BareMetal.RingQueue

open CS

/-- A `Queue` whose buffer has `capacity` cells. -/
structure Queue (capacity : UInt8) where
  buffer : Block capacity.toNat UInt8
  isFull : Bool
  size : UInt8
  head : UInt8
  tail : UInt8

variable {capacity : UInt8} {rb : Queue capacity} {val : UInt8} {waiting : List UInt8}

/-- `init`: `calloc` leaves zeros. It succeeds, also for no cells. -/
def init (capacity : UInt8) : Queue capacity := ⟨fun _ => 0, false, 0, 0, 0⟩

/-- The locked section of `push`, with the value it prints unless the queue is full. -/
def push (rb : Queue capacity) (val : UInt8) : Outcome (Queue capacity × Option UInt8) :=
  -- both sides are promoted to `int`, so the sum does not wrap
  if rb.size.toNat + 1 > capacity.toNat then .ok ({ rb with isFull := true }, none)
  else do
    let buffer ← rb.buffer.store rb.head.toNat val
    let printed ← buffer.load rb.head.toNat
    let head ← modU (rb.head.toNat + 1) capacity.toNat
    .ok ({ rb with buffer := buffer, head := UInt8.ofNat head, size := rb.size + 1 }, some printed)

/-- The locked section of `pop`, with the value it prints unless the queue is empty. -/
def pop (rb : Queue capacity) : Outcome (Queue capacity × Option UInt8) :=
  if rb.size = 0 then .ok (rb, none)
  else do
    let val ← rb.buffer.load rb.tail.toNat
    let tail ← modU (rb.tail.toNat + 1) capacity.toNat
    .ok ({ rb with tail := UInt8.ofNat tail, size := rb.size - 1, isFull := false }, some val)

/-- The locked section of the logging thread `is_full`, which waits for the flag. -/
def logFull (rb : Queue capacity) : Queue capacity :=
  if rb.isFull then { rb with isFull := false } else rb

/-! ### The represented queue -/

/-- The cells from `tail` on hold the values in `waiting`, oldest first. -/
structure Represents (rb : Queue capacity) (waiting : List UInt8) : Prop where
  holds : CS.RingBuffer.Holds rb.buffer rb.tail.toNat rb.head.toNat waiting
  size_eq : rb.size.toNat = waiting.length

theorem represents_init (capacity : UInt8) : Represents (init capacity) [] where
  holds := CS.RingBuffer.holds_nil _
  size_eq := rfl

theorem toNat_next (hpos : 0 < capacity.toNat) (i : ℕ) :
    (UInt8.ofNat (i % capacity.toNat)).toNat = i % capacity.toNat :=
  CS.RingBuffer.toNat_ofNat_mod hpos capacity.toNat_lt.le i

/-- The flag is not part of what the queue holds. -/
theorem Represents.flag (h : Represents rb waiting) (isFull : Bool) :
    Represents { rb with isFull := isFull } waiting := ⟨h.holds, h.size_eq⟩

theorem Represents.logFull (h : Represents rb waiting) : Represents (logFull rb) waiting := by
  unfold RingQueue.logFull
  split_ifs
  · exact h.flag false
  · exact h

/-- A push on a full queue is dropped. -/
theorem Represents.drop (h : Represents rb waiting) (hfull : waiting.length = capacity.toNat)
    (val : UInt8) :
    ∃ rb', push rb val = .ok (rb', none) ∧ Represents rb' waiting := by
  refine ⟨{ rb with isFull := true }, if_pos ?_, h.flag true⟩
  rw [h.size_eq, hfull]
  exact Nat.lt_succ_self _

/-- A push on a queue with room appends its value. -/
theorem Represents.push (h : Represents rb waiting) (hroom : waiting.length < capacity.toNat)
    (val : UInt8) :
    ∃ rb', push rb val = .ok (rb', some val) ∧ Represents rb' (waiting ++ [val]) := by
  have hpos : 0 < capacity.toNat := Nat.zero_lt_of_lt hroom
  have hsize := h.size_eq
  let k : Fin capacity.toNat := ⟨rb.head.toNat, h.holds.tail_lt hpos⟩
  have hstore : rb.buffer.store rb.head.toNat val = .ok (Function.update rb.buffer k val) :=
    Block.store_natCast rb.buffer k val
  have hload : Block.load (Function.update rb.buffer k val) rb.head.toNat = .ok val :=
    (Block.load_natCast _ k).trans (by rw [Function.update_self])
  refine ⟨⟨Function.update rb.buffer k val, rb.isFull, rb.size + 1,
    UInt8.ofNat ((rb.head.toNat + 1) % capacity.toNat), rb.tail⟩, ?_, ?_, ?_⟩
  · rw [RingQueue.push, if_neg (by omega), hstore, Outcome.ok_bind, hload, Outcome.ok_bind,
      modU_of_pos hpos, Outcome.ok_bind]
  · have hpush := h.holds.push hroom val (k := k) rfl
    rwa [← toNat_next hpos] at hpush
  · -- the new size is at most the capacity, so it does not wrap
    have hlt := capacity.toNat_lt
    have hone : (1 : UInt8).toNat = 1 := rfl
    simp only [UInt8.toNat_add, hone, List.length_append, List.length_singleton]
    omega

theorem Represents.pop_nil (h : Represents rb []) : pop rb = .ok (rb, none) :=
  if_pos (UInt8.toNat_inj.mp h.size_eq)

/-- A pop takes out the oldest value. -/
theorem Represents.pop (h : Represents rb (val :: waiting)) :
    ∃ rb', pop rb = .ok (rb', some val) ∧ Represents rb' waiting := by
  -- a queue that holds a value has a cell, so the remainder is defined
  have hpos : 0 < capacity.toNat := (Nat.zero_lt_succ _).trans_le h.holds.length_le
  have hsize := h.size_eq
  rw [List.length_cons] at hsize
  have hne : rb.size ≠ 0 := by
    intro hzero
    rw [hzero] at hsize
    cases hsize
  let k : Fin capacity.toNat := ⟨rb.tail.toNat, h.holds.head_lt hpos⟩
  have hload : rb.buffer.load rb.tail.toNat = .ok val :=
    (Block.load_natCast rb.buffer k).trans (congrArg Except.ok (h.holds.front rfl))
  refine ⟨⟨rb.buffer, false, rb.size - 1, rb.head,
    UInt8.ofNat ((rb.tail.toNat + 1) % capacity.toNat)⟩, ?_, ?_, ?_⟩
  · rw [RingQueue.pop, if_neg hne, hload, Outcome.ok_bind, modU_of_pos hpos, Outcome.ok_bind]
  · have hpop := h.holds.pop
    rwa [← toNat_next hpos] at hpop
  · have hone : (1 : UInt8).toNat = 1 := rfl
    have hle : (1 : UInt8) ≤ rb.size := by
      rw [UInt8.le_iff_toNat_le]
      omega
    rw [UInt8.toNat_sub_of_le _ _ hle]
    omega

/-! ### Sequences of calls -/

/-- What is done to a queue. -/
inductive Call
  | push (val : UInt8)
  | pop
  | logFull
  deriving DecidableEq, Repr

/-- One call, with the value it prints. -/
def Call.run (rb : Queue capacity) : Call → Outcome (Queue capacity × Option UInt8)
  | .push val => RingQueue.push rb val
  | .pop => RingQueue.pop rb
  | .logFull => .ok (RingQueue.logFull rb, none)

/-- The calls made so far, each with the value it printed. -/
abbrev Log := List (Call × Option UInt8)

/-- Make one more call. -/
def next (s : Queue capacity × Log) (call : Call) : Outcome (Queue capacity × Log) := do
  let (rb, printed) ← call.run s.1
  .ok (rb, s.2 ++ [(call, printed)])

/-- Make `calls` on the queue from `init`. -/
def run (capacity : UInt8) (calls : List Call) : Outcome (Queue capacity × Log) :=
  calls.foldlM next (init capacity, [])

/-- The values of the pushes that were not dropped. -/
def accepted (log : Log) : List UInt8 :=
  log.filterMap fun
    | (.push val, some _) => some val
    | _ => none

/-- The values that pops took out. -/
def popped (log : Log) : List UInt8 :=
  log.filterMap fun
    | (.pop, printed) => printed
    | _ => none

variable {log : Log}

@[simp] theorem accepted_concat (log : Log) (call : Call) (printed : Option UInt8) :
    accepted (log ++ [(call, printed)]) = accepted log ++
      match call, printed with
        | .push val, some _ => [val]
        | _, _ => [] := by
  cases call <;> cases printed <;> simp [accepted]

@[simp] theorem popped_concat (log : Log) (call : Call) (printed : Option UInt8) :
    popped (log ++ [(call, printed)]) = popped log ++
      match call with
        | .pop => printed.toList
        | _ => [] := by
  cases call <;> cases printed <;> simp [popped]

theorem run_concat (capacity : UInt8) (calls : List Call) (call : Call) :
    run capacity (calls ++ [call]) = (run capacity calls >>= fun s => next s call) := by
  simp [run]

/-- The accepted values are the popped ones and those that wait. -/
structure Fifo (rb : Queue capacity) (log : Log) (waiting : List UInt8) : Prop where
  represents : Represents rb waiting
  accepted_eq : accepted log = popped log ++ waiting

/-- A call returns, and what is popped and what waits are still the accepted values in order. -/
theorem Fifo.call (h : Fifo rb log waiting) (call : Call) :
    ∃ rb' printed waiting', call.run rb = .ok (rb', printed) ∧
      Fifo rb' (log ++ [(call, printed)]) waiting' := by
  have haccepted := h.accepted_eq
  cases call with
  | push val =>
    rcases h.represents.holds.length_le.lt_or_eq with hroom | hfull
    · obtain ⟨rb', hpush, h'⟩ := h.represents.push hroom val
      exact ⟨rb', some val, waiting ++ [val], hpush, h', by simp [haccepted]⟩
    · obtain ⟨rb', hdrop, h'⟩ := h.represents.drop hfull val
      exact ⟨rb', none, waiting, hdrop, h', by simp [haccepted]⟩
  | pop =>
    cases waiting with
    | nil => exact ⟨rb, none, [], h.represents.pop_nil, h.represents, by simp [haccepted]⟩
    | cons val waiting =>
      obtain ⟨rb', hpop, h'⟩ := h.represents.pop
      exact ⟨rb', some val, waiting, hpop, h', by simp [haccepted]⟩
  | logFull =>
    exact ⟨logFull rb, none, waiting, rfl, h.represents.logFull, by simp [haccepted]⟩

/-- After any calls. The induction is on the calls, the last one taken off. -/
theorem run_fifo (capacity : UInt8) (calls : List Call) :
    ∃ rb log waiting, run capacity calls = .ok (rb, log) ∧ log.map Prod.fst = calls ∧
      Fifo rb log waiting := by
  induction calls using List.reverseRecOn with
  | nil => exact ⟨init capacity, [], [], rfl, rfl, represents_init capacity, rfl⟩
  | append_singleton calls call ih =>
    obtain ⟨rb, log, waiting, hrun, hcalls, h⟩ := ih
    obtain ⟨rb', printed, waiting', hcall, h'⟩ := h.call call
    refine ⟨rb', log ++ [(call, printed)], waiting', ?_, by simp [hcalls], h'⟩
    rw [run_concat, hrun, Outcome.ok_bind, next, hcall, Outcome.ok_bind]

/-- A push is dropped exactly when the queue is full. -/
theorem Represents.dropped_iff (h : Represents rb waiting) (val : UInt8) :
    (∃ rb', RingQueue.push rb val = .ok (rb', none)) ↔ rb.size = capacity := by
  rw [← UInt8.toNat_inj, h.size_eq]
  constructor
  · rintro ⟨rb', hdrop⟩
    -- with room the push would have printed its value
    refine h.holds.length_le.lt_or_eq.resolve_left fun hroom => ?_
    obtain ⟨rb'', hpush, -⟩ := h.push hroom val
    cases hdrop.symm.trans hpush
  · intro hfull
    obtain ⟨rb', hdrop, -⟩ := h.drop hfull val
    exact ⟨rb', hdrop⟩

/-- A pop takes nothing out exactly when the queue is empty. -/
theorem Represents.empty_iff (h : Represents rb waiting) :
    (∃ rb', RingQueue.pop rb = .ok (rb', none)) ↔ rb.size = 0 := by
  constructor
  · rintro ⟨rb', hnone⟩
    cases waiting with
    | nil => exact UInt8.toNat_inj.mp h.size_eq
    | cons val waiting =>
      obtain ⟨rb'', hpop, -⟩ := h.pop
      cases hnone.symm.trans hpop
  · intro hzero
    exact ⟨rb, if_pos hzero⟩

/-- **The ring queue is FIFO for every capacity.** All calls return; what was popped is what was
accepted, in order, as far as it does not wait; `size` counts what waits and `head` is as
far ahead of `tail`; and the next push is dropped exactly when the queue is full, the next pop finds
nothing exactly when it is empty. -/
theorem run_spec (capacity : UInt8) (calls : List Call) :
    ∃ rb log, run capacity calls = .ok (rb, log) ∧ log.map Prod.fst = calls ∧
      popped log <+: accepted log ∧
      rb.size.toNat + (popped log).length = (accepted log).length ∧
      (0 < capacity.toNat →
        rb.head.toNat = (rb.tail.toNat + rb.size.toNat) % capacity.toNat) ∧
      (∀ val, (∃ rb', push rb val = .ok (rb', none)) ↔ rb.size = capacity) ∧
      ((∃ rb', pop rb = .ok (rb', none)) ↔ rb.size = 0) := by
  obtain ⟨rb, log, waiting, hrun, hcalls, h⟩ := run_fifo capacity calls
  have hsize := h.represents.size_eq
  refine ⟨rb, log, hrun, hcalls, ?_, ?_, fun _ => ?_, h.represents.dropped_iff,
    h.represents.empty_iff⟩
  · rw [h.accepted_eq]
    exact List.prefix_append _ _
  · rw [h.accepted_eq, List.length_append]
    omega
  · rw [hsize]
    exact h.represents.holds.tail_eq

end BareMetal.RingQueue
