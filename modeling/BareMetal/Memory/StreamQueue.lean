import BareMetal.CS.CellHeap
import BareMetal.CS.SlotQueue
import BareMetal.CS.Transition
import Mathlib.Data.List.Nodup

/-!
# The chunk queue of `memory/stream_queue.c`

The slots at the front of the array hold the pointers to the chunks in the order of their
arrival, and teardown frees what any slot points to. `dequeue` moves the pointers one slot
down and clears the last of their slots in the last pass of the loop that moves them. With a
single chunk there is no pass.

## Main results

* `Holds.enqueue`, `Holds.dequeue` — one call each
* `Holds.teardownQueue` — every chunk is freed once
* `ownsOnce_iff` — all stages of a run are as they should be exactly when no chunk is
  dequeued as the only one
* `Holds.dequeue_single` — such a call leaves a pointer to the chunk that it frees
-/

namespace BareMetal.StreamQueue

open CS Transition
open SlotQueue (slots moveDown movePass)

/-- `struct DataChunk`. -/
structure DataChunk where
  id : ℤ
  payloadSize : ℤ
  deriving DecidableEq, Repr

/-- The chunks that are allocated, the array, and the variable with the number of chunks. -/
structure State (n : ℕ) where
  chunks : ℕ → Option DataChunk
  queue : Block n (Option ℕ)
  currentSize : ℤ

/-- `init_queue`. `calloc` fails for the size that a negative `int` is converted to. -/
def initQueue (capacity : ℤ) : Outcome (Block capacity.toNat (Option ℕ)) :=
  if capacity < 0 then .error (.exit 1 "Error allocating memory space for the queue")
  else .ok fun _ => none

variable {n : ℕ}

/-- `enqueue`, with the pointer that `malloc` returns. -/
def enqueue (s : State n) (capacity id size : ℤ) (block : Option ℕ) : Outcome (State n) :=
  if s.currentSize = capacity then .ok s
  else do
    let queue ← s.queue.store s.currentSize block
    match block with
    | none => .ok { s with queue := queue }
    | some a => do
      let currentSize ← addInt s.currentSize 1
      .ok ⟨Function.update s.chunks a (some ⟨id, size⟩), queue, currentSize⟩

/-- One pass of the loop of `dequeue`. -/
def shiftPass (currentSize : ℤ) (queue : Block n (Option ℕ)) (i : ℕ) :
    Outcome (Block n (Option ℕ)) := do
  let next ← queue.load i
  let queue ← queue.store (i - 1 : ℤ) next
  if currentSize - 1 = i then queue.store i none else .ok queue

/-- The loop `for(int i = 1; i < *current_size; i++)`. -/
def shift (currentSize : ℤ) (queue : Block n (Option ℕ)) : Outcome (Block n (Option ℕ)) :=
  (List.range (currentSize - 1).toNat).foldlM (fun queue i => shiftPass currentSize queue (i + 1))
    queue

/-- `dequeue`. -/
def dequeue (s : State n) : Outcome (State n) :=
  if s.currentSize = 0 then .ok s
  else do
    let chunk ← s.queue.load 0
    if chunk = none then .ok s
    else do
      -- the id is printed
      let _ ← CellHeap.load s.chunks chunk
      let queue ← shift s.currentSize s.queue
      let currentSize ← subInt s.currentSize 1
      let chunks ← CellHeap.free s.chunks chunk
      .ok ⟨chunks, queue, currentSize⟩

/-- One pass of the loop of `teardown_queue`, with the pointers freed so far. -/
def teardownPass (queue : Block n (Option ℕ)) (s : (ℕ → Option DataChunk) × List ℕ) (i : ℕ) :
    Outcome ((ℕ → Option DataChunk) × List ℕ) := do
  let chunk ← queue.load i
  let chunks ← CellHeap.free s.1 chunk
  .ok (chunks, s.2 ++ chunk.toList)

/-- `teardown_queue`, with the memory that it leaves and the pointers that it has freed. -/
def teardownQueue (s : State n) (capacity : ℤ) : Outcome ((ℕ → Option DataChunk) × List ℕ) :=
  (List.range capacity.toNat).foldlM (teardownPass s.queue) (s.chunks, [])

/-! ### Sequences of calls -/

/-- The calls of a program, `enqueue` with what `malloc` returns in it. -/
inductive Call
  | enqueue (id size : ℤ) (block : Option ℕ)
  | dequeue
  deriving DecidableEq, Repr

/-- `malloc` returns a null pointer, or the address of nothing that is allocated. -/
def Call.Fits (s : State n) : Call → Prop
  | .enqueue _ _ block => ∀ a ∈ block, s.chunks a = none
  | .dequeue => True

/-- One call. -/
def perform (capacity : ℤ) (s : State n) : Call → Outcome (State n)
  | .enqueue id size block => enqueue s capacity id size block
  | .dequeue => dequeue s

/-- Programs that work with a queue from `init_queue`. -/
def system (capacity : ℤ) : System (State capacity.toNat) Call where
  start s := initQueue capacity = .ok s.queue ∧ s.chunks = (fun _ => none) ∧ s.currentSize = 0
  step s call s' := call.Fits s ∧ perform capacity s call = .ok s'

/-- What a call does to the chunks that wait. -/
def Call.act (n : ℕ) (chunks : List DataChunk) : Call → List DataChunk
  | .enqueue id size block =>
    if chunks.length < n ∧ block ≠ none then chunks ++ [⟨id, size⟩] else chunks
  | .dequeue => chunks.tail

/-- The chunks that were enqueued and not dequeued, in the order of their arrival. -/
def pending (n : ℕ) (calls : List Call) : List DataChunk := calls.foldl (Call.act n) []

@[simp] theorem pending_nil : pending n [] = [] := rfl

@[simp] theorem pending_concat (calls : List Call) (call : Call) :
    pending n (calls ++ [call]) = call.act n (pending n calls) := by
  simp [pending]

/-! ### Slots and chunks -/

/-- The first slots point to the chunks `chunks`, nothing else is allocated, and the other slots
are null. -/
structure Holds (s : State n) (ptrs : List ℕ) (chunks : List DataChunk) : Prop where
  queue_eq : s.queue = slots n ptrs
  size_eq : s.currentSize = ptrs.length
  length_le : ptrs.length ≤ n
  nodup : ptrs.Nodup
  live_iff : ∀ a, s.chunks a ≠ none ↔ a ∈ ptrs
  values : ptrs.map s.chunks = chunks.map some

variable {s s' : State n} {ptrs : List ℕ} {chunks : List DataChunk} {capacity : ℤ}

theorem Holds.length_eq (h : Holds s ptrs chunks) : ptrs.length = chunks.length := by
  simpa using congrArg List.length h.values

/-- A null pointer in the first free slot. -/
theorem store_slots_none (h : ptrs.length < n) :
    (slots n ptrs).store ptrs.length none = .ok (slots n ptrs) := by
  have hstore := Block.store_natCast (slots n ptrs) ⟨ptrs.length, h⟩ none
  have hsame : slots n ptrs ⟨ptrs.length, h⟩ = none := List.getElem?_eq_none (Nat.le_refl _)
  rw [hstore, ← hsame, Function.update_eq_self]

/-- **`enqueue`** puts a chunk behind the others, if there is room and memory for it. -/
theorem Holds.enqueue (h : Holds s ptrs chunks) (hcapacity : (n : ℤ) = capacity)
    (hmax : capacity ≤ intMax) (id size : ℤ) {block : Option ℕ}
    (hfits : Call.Fits s (.enqueue id size block)) :
    ∃ s' ptrs', enqueue s capacity id size block = .ok s' ∧
      Holds s' ptrs' (Call.act n chunks (.enqueue id size block)) := by
  obtain ⟨live, queue, currentSize⟩ := s
  have hlength := h.length_eq
  obtain ⟨hqueue, hsize, hle, hnodup, hlive, hvalues⟩ := h
  dsimp only at hqueue hsize hlive hvalues
  subst hqueue hsize
  by_cases hfull : (ptrs.length : ℤ) = capacity
  · -- the call prints that the queue is full
    refine ⟨⟨live, slots n ptrs, ptrs.length⟩, ptrs, if_pos hfull, ?_⟩
    rw [Call.act, if_neg fun hroom => by omega]
    exact ⟨rfl, rfl, hle, hnodup, hlive, hvalues⟩
  · have hlt : ptrs.length < n := by omega
    cases block with
    | none =>
      -- the null pointer goes into a slot that is null already
      refine ⟨⟨live, slots n ptrs, ptrs.length⟩, ptrs, ?_, ?_⟩
      · rw [StreamQueue.enqueue, if_neg hfull, store_slots_none hlt]
        rfl
      · rw [Call.act, if_neg fun hroom => hroom.2 rfl]
        exact ⟨rfl, rfl, hle, hnodup, hlive, hvalues⟩
    | some a =>
      have hfree : live a = none := hfits a rfl
      have hnew : a ∉ ptrs := fun hmem => (hlive a).mpr hmem hfree
      refine ⟨⟨Function.update live a (some ⟨id, size⟩), slots n (ptrs ++ [a]),
        (ptrs ++ [a]).length⟩, ptrs ++ [a], ?_, ?_⟩
      · have hadd : addInt ptrs.length 1 = .ok ((ptrs ++ [a]).length : ℤ) := by
          rw [List.length_append, List.length_singleton]
          exact addInt_one (by omega)
        rw [StreamQueue.enqueue, if_neg hfull]
        dsimp only
        rw [SlotQueue.store_slots hlt, Outcome.ok_bind, hadd]
        rfl
      · rw [Call.act, if_pos ⟨by omega, Option.some_ne_none a⟩]
        refine ⟨rfl, rfl, ?_, ?_, fun b => ?_, ?_⟩
        · rw [List.length_append, List.length_singleton]
          omega
        · rw [← List.concat_eq_append]
          exact hnodup.concat hnew
        · rw [List.mem_append, List.mem_singleton, ← hlive b]
          by_cases hb : b = a
          · simp [hb]
          · simp [hb]
        · rw [List.map_append, List.map_append, ← hvalues]
          refine congrArg₂ _ (List.map_congr_left fun b hb => ?_) ?_
          · refine Function.update_of_ne ?_ ..
            rintro rfl
            exact hnew hb
          · simp

/-! ### The shift -/

/-- A pass moves a pointer, and the last one clears the slot where it was. -/
theorem shiftPass_succ (currentSize : ℤ) (queue : Block n (Option ℕ)) (i : ℕ) :
    shiftPass currentSize queue (i + 1) = (movePass queue i >>= fun queue =>
      if currentSize - 1 = (i + 1 : ℕ) then queue.store (i + 1 : ℕ) none else .ok queue) := by
  have hindex : ((i + 1 : ℕ) - 1 : ℤ) = i := by omega
  rw [shiftPass, movePass, hindex, bind_assoc]

/-- The passes before the last one only move. -/
theorem shift_passes (queue : Block n (Option ℕ)) {currentSize : ℤ} {k : ℕ}
    (hk : (k : ℤ) + 1 < currentSize) :
    (List.range k).foldlM (fun queue i => shiftPass currentSize queue (i + 1)) queue =
      moveDown queue k := by
  induction k with
  | zero => rfl
  | succ k ih =>
    rw [moveDown, List.range_succ, List.foldlM_append, List.foldlM_append, ih (by omega), moveDown]
    refine congrArg _ (funext fun moved => ?_)
    rw [List.foldlM_cons, List.foldlM_cons, shiftPass_succ, bind_assoc]
    refine congrArg _ (funext fun moved => ?_)
    rw [if_neg (by omega)]
    rfl

/-- With two chunks or more the first pointer leaves the array. -/
theorem shift_slots {xs : List ℕ} (hpos : 0 < xs.length) (h : xs.length < n) (x : ℕ) :
    shift (x :: xs).length (slots n (x :: xs)) = .ok (slots n xs) := by
  obtain ⟨m, hm⟩ : ∃ m, xs.length = m + 1 := ⟨xs.length - 1, by omega⟩
  have hpasses : (((x :: xs).length : ℤ) - 1).toNat = m + 1 := by
    rw [List.length_cons]
    omega
  have hlast : ((x :: xs).length : ℤ) - 1 = (m + 1 : ℕ) := by
    rw [List.length_cons]
    omega
  -- the loop is the one that moves `m + 1` pointers, with the cleared slot in its last pass
  rw [← SlotQueue.moveDown_slots h x, shift, hpasses, hm, moveDown, List.range_succ,
    List.foldlM_append, List.foldlM_append, shift_passes _ (by omega), moveDown, bind_assoc]
  refine congrArg _ (funext fun moved => ?_)
  rw [List.foldlM_cons, List.foldlM_cons, shiftPass_succ, bind_assoc, bind_assoc]
  refine congrArg _ (funext fun moved => ?_)
  rw [if_pos hlast]
  exact bind_pure _

/-- With one chunk there is nothing to move. -/
theorem shift_one (queue : Block n (Option ℕ)) : shift 1 queue = .ok queue := rfl

/-! ### `dequeue` -/

theorem Holds.dequeue_nil (h : Holds s [] chunks) : dequeue s = .ok s := by
  rw [dequeue, h.size_eq]
  rfl

/-- `dequeue` frees the first chunk, whatever the loop leaves in the slots. -/
theorem Holds.dequeue_cons {a : ℕ} (h : Holds s (a :: ptrs) chunks)
    (hmax : ((a :: ptrs).length : ℤ) ≤ intMax) {queue : Block n (Option ℕ)}
    (hshift : shift (a :: ptrs).length (slots n (a :: ptrs)) = .ok queue) :
    dequeue s = .ok ⟨Function.update s.chunks a none, queue, ptrs.length⟩ := by
  obtain ⟨chunk, hchunk⟩ := Option.ne_none_iff_exists'.mp ((h.live_iff a).mpr List.mem_cons_self)
  have hpos : 0 < n := Nat.lt_of_lt_of_le (Nat.zero_lt_succ _) h.length_le
  have hfirst : s.queue.load 0 = .ok (some a) := by
    rw [h.queue_eq]
    exact Block.load_natCast (slots n (a :: ptrs)) ⟨0, hpos⟩
  have hsize : ((a :: ptrs).length : ℤ) - 1 = ptrs.length := by
    rw [List.length_cons]
    omega
  rw [dequeue, h.size_eq, if_neg (by rw [List.length_cons]; omega), hfirst, Outcome.ok_bind,
    if_neg (Option.some_ne_none a), CellHeap.load_some hchunk, Outcome.ok_bind, h.queue_eq, hshift,
    Outcome.ok_bind, subInt_one hmax, Outcome.ok_bind, CellHeap.free_some hchunk, hsize]
  rfl

/-- **`dequeue`** frees the first chunk and moves the others, if there are others. -/
theorem Holds.dequeue (h : Holds s ptrs chunks) (hmax : (n : ℤ) ≤ intMax)
    (hsize : s.currentSize ≠ 1) :
    ∃ s' ptrs', StreamQueue.dequeue s = .ok s' ∧ Holds s' ptrs' (Call.act n chunks .dequeue) := by
  have hle := h.length_le
  have hlength := h.length_eq
  rcases ptrs with _ | ⟨a, ptrs⟩
  · obtain rfl : chunks = [] := List.eq_nil_of_length_eq_zero hlength.symm
    exact ⟨s, [], h.dequeue_nil, h⟩
  · rcases chunks with _ | ⟨chunk, chunks⟩
    · cases hlength
    rw [List.length_cons] at hle
    have hpos : 0 < ptrs.length := by
      rw [h.size_eq, List.length_cons] at hsize
      omega
    have hshift := shift_slots hpos hle a
    -- the chunk at `a` is freed, and the other pointers are still those of allocated chunks
    refine ⟨_, ptrs, h.dequeue_cons ?_ hshift, rfl, rfl, by omega, h.nodup.of_cons, fun b => ?_, ?_⟩
    · rw [List.length_cons]
      omega
    · have hlive := h.live_iff b
      by_cases hb : b = a
      · simpa [hb] using h.nodup.notMem
      · simpa [hb] using hlive
    · have hvalues := (List.cons.inj h.values).2
      refine (List.map_congr_left fun b hb => ?_).trans hvalues
      refine Function.update_of_ne ?_ ..
      rintro rfl
      exact h.nodup.notMem hb

/-- The only chunk is freed, and its slot keeps the pointer to it. -/
theorem Holds.dequeue_single {a : ℕ} (h : Holds s [a] chunks) :
    StreamQueue.dequeue s = .ok ⟨Function.update s.chunks a none, slots n [a], 0⟩ :=
  h.dequeue_cons (show (1 : ℤ) ≤ intMax by decide) (shift_one _)

/-! ### Teardown -/

/-- After `k` passes the chunks of the first `k` slots are freed. -/
theorem Holds.teardown_passes (h : Holds s ptrs chunks) {k : ℕ} (hk : k ≤ n) :
    (List.range k).foldlM (teardownPass s.queue) (s.chunks, []) =
      .ok (fun a => if a ∈ ptrs.take k then none else s.chunks a, ptrs.take k) := by
  induction k with
  | zero => simp [pure, Except.pure]
  | succ k ih =>
    rw [List.range_succ, List.foldlM_append, ih (by omega), Outcome.ok_bind, List.foldlM_cons]
    have hload : s.queue.load k = .ok ptrs[k]? := by
      rw [h.queue_eq]
      exact Block.load_natCast (slots n ptrs) ⟨k, hk⟩
    rw [teardownPass, hload, Outcome.ok_bind, List.take_add_one]
    rcases hslot : ptrs[k]? with _ | a
    · rw [Option.toList_none, List.append_nil]
      rfl
    · -- the pointer is in no earlier slot, so its chunk is still there
      obtain ⟨hlt, hget⟩ := List.getElem?_eq_some_iff.mp hslot
      have hnew : a ∉ ptrs.take k := by
        intro hmem
        have hnodup : (ptrs.take k ++ [a]).Nodup := by
          have htake := h.nodup.sublist (List.take_sublist (k + 1) ptrs)
          rwa [List.take_add_one, hslot] at htake
        exact List.disjoint_of_nodup_append hnodup hmem (List.mem_singleton_self a)
      have hmem : a ∈ ptrs := hget ▸ List.getElem_mem hlt
      obtain ⟨chunk, hchunk⟩ := Option.ne_none_iff_exists'.mp ((h.live_iff a).mpr hmem)
      rw [CellHeap.free_some ((if_neg hnew).trans hchunk), Outcome.ok_bind, Option.toList_some]
      refine congrArg Except.ok (Prod.ext (funext fun b => ?_) rfl)
      by_cases hb : b = a
      · simp [hb]
      · simp [hb]

/-- **`teardown_queue`** frees what is allocated, in the order of the slots. -/
theorem Holds.teardownQueue (h : Holds s ptrs chunks) (hcapacity : (n : ℤ) = capacity) :
    teardownQueue s capacity = .ok (fun _ => none, ptrs) := by
  have hall : ptrs.take n = ptrs := List.take_of_length_le h.length_le
  rw [StreamQueue.teardownQueue, ← hcapacity, Int.toNat_natCast,
    h.teardown_passes (Nat.le_refl n), hall]
  refine congrArg Except.ok (Prod.ext (funext fun a => ?_) rfl)
  by_cases hmem : a ∈ ptrs
  · exact if_pos hmem
  · exact (if_neg hmem).trans (not_not.mp (mt (h.live_iff a).mp hmem))

/-! ### Runs -/

/-- What holds of a queue after the calls `calls`: it has the chunks that wait, in order and
followed by null pointers, teardown frees each of them once and nothing else, and every next
call returns. -/
structure OwnsOnce (capacity : ℤ) (calls : List Call) (s : State n) : Prop where
  freed : ∃ ptrs, Holds s ptrs (pending n calls) ∧
    teardownQueue s capacity = .ok (fun _ => none, ptrs)
  returns : ∀ call, call.Fits s → ∃ s', perform capacity s call = .ok s'

theorem Holds.ownsOnce {calls : List Call} (h : Holds s ptrs (pending n calls))
    (hcapacity : (n : ℤ) = capacity) (hmax : capacity ≤ intMax) :
    OwnsOnce capacity calls s := by
  refine ⟨⟨ptrs, h, h.teardownQueue hcapacity⟩, fun call hfits => ?_⟩
  cases call with
  | enqueue id size block =>
    obtain ⟨s', -, heq, -⟩ := h.enqueue hcapacity hmax id size hfits
    exact ⟨s', heq⟩
  | dequeue =>
    by_cases hsize : s.currentSize = 1
    · rcases ptrs with _ | ⟨a, _ | ⟨b, ptrs⟩⟩
      · exact ⟨s, h.dequeue_nil⟩
      · exact ⟨_, h.dequeue_single⟩
      · rw [h.size_eq, List.length_cons, List.length_cons] at hsize
        omega
    · obtain ⟨s', -, heq, -⟩ := h.dequeue (hcapacity ▸ hmax) hsize
      exact ⟨s', heq⟩

theorem ownsOnce_start (hmax : capacity ≤ intMax) {s : State capacity.toNat}
    (hs : (system capacity).start s) : OwnsOnce capacity [] s := by
  obtain ⟨hqueue, hchunks, hsize⟩ := hs
  unfold initQueue at hqueue
  split_ifs at hqueue with hneg
  have hempty : s.queue = slots capacity.toNat [] := (Except.ok.inj hqueue).symm
  have hholds : Holds s [] (pending capacity.toNat []) :=
    ⟨hempty, hsize, Nat.zero_le _, List.nodup_nil, by simp [hchunks], rfl⟩
  exact hholds.ownsOnce (Int.toNat_of_nonneg (Int.not_lt.mp hneg)) hmax

/-- A queue has a capacity that is not negative. -/
theorem capacity_eq {trace : Trace (State capacity.toNat) Call} {s : State capacity.toNat}
    (hrun : Run (system capacity) trace s) : (capacity.toNat : ℤ) = capacity := by
  induction hrun with
  | start hs =>
    have hqueue := hs.1
    unfold initQueue at hqueue
    split_ifs at hqueue with hneg
    exact Int.toNat_of_nonneg (Int.not_lt.mp hneg)
  | step _ _ ih => exact ih

/-- The pointer that stays in the first slot is not that of a chunk that waits. -/
theorem not_holds_single {a : ℕ} (hpos : 0 < n) {live : ℕ → Option DataChunk} :
    ¬ Holds (⟨live, slots n [a], 0⟩ : State n) ptrs chunks := by
  intro h
  have hnil : ptrs.length = 0 := by
    have hsize := h.size_eq
    dsimp only at hsize
    omega
  obtain rfl := List.eq_nil_of_length_eq_zero hnil
  have hslot := congrFun h.queue_eq ⟨0, hpos⟩
  cases hslot

/-- **Ownership.** At every stage of a run the queue has exactly the chunks that wait, and
teardown frees each of them once, if and only if no call of `dequeue` meets a queue with
exactly one chunk. -/
theorem ownsOnce_iff (hmax : capacity ≤ intMax) {trace : Trace (State capacity.toNat) Call}
    {s : State capacity.toNat} (hrun : Run (system capacity) trace s) :
    (∀ pre v, Stage trace s pre v → OwnsOnce capacity (events pre) v) ↔
      ∀ v call, (v, call) ∈ trace → call = .dequeue → v.currentSize ≠ 1 := by
  have hcapacity := capacity_eq hrun
  refine hrun.stages_iff (P := fun pre v => OwnsOnce capacity (events pre) v)
    (fun s hs => ownsOnce_start hmax hs) ?_
  intro trace s call s' _ hstages hstep
  obtain ⟨ptrs, hholds, -⟩ := (hstages trace s (Stage.last _ _)).freed
  obtain ⟨hfits, hperform⟩ := hstep
  rw [events_concat]
  cases call with
  | enqueue id size block =>
    refine iff_of_true ?_ (fun hcall => nomatch hcall)
    obtain ⟨t, ptrs', heq, hnext⟩ := hholds.enqueue hcapacity hmax id size hfits
    obtain rfl := Except.ok.inj (heq.symm.trans hperform)
    rw [← pending_concat] at hnext
    exact hnext.ownsOnce hcapacity hmax
  | dequeue =>
    constructor
    · intro howns _ hsize
      -- a queue with one chunk leaves a pointer to what it freed
      have hone : ptrs.length = 1 := by
        have hlength := hholds.size_eq
        omega
      obtain ⟨a, rfl⟩ := List.length_eq_one_iff.mp hone
      obtain rfl := Except.ok.inj (hholds.dequeue_single.symm.trans hperform)
      obtain ⟨ptrs', hholds', -⟩ := howns.freed
      exact not_holds_single hholds.length_le hholds'
    · intro hsize
      obtain ⟨t, ptrs', heq, hnext⟩ := hholds.dequeue (hcapacity ▸ hmax) (hsize rfl)
      obtain rfl := Except.ok.inj (heq.symm.trans hperform)
      rw [← pending_concat] at hnext
      exact hnext.ownsOnce hcapacity hmax

/-- A queue for one chunk, and the chunk in it. -/
def oneChunk : State 1 := ⟨Function.update (fun _ => none) 7 (some ⟨111, 144⟩), slots 1 [7], 1⟩

theorem enqueue_oneChunk :
    enqueue ⟨fun _ => none, fun _ => none, 0⟩ 1 111 144 (some 7) = .ok oneChunk := by
  have hstore : (slots 1 []).store (([] : List ℕ).length : ℤ) (some 7) = .ok (slots 1 [7]) :=
    SlotQueue.store_slots (by decide) 7
  rw [enqueue, if_neg (by decide)]
  dsimp only
  exact (congrArg (· >>= _) hstore).trans rfl

/-- The run of a single `enqueue`. -/
theorem ownsOnce_iff_oneChunk : OwnsOnce 1 [.enqueue 111 144 (some 7)] oneChunk := by
  have hstart : (system 1).start ⟨fun _ => none, fun _ => none, 0⟩ := ⟨rfl, rfl, rfl⟩
  have hstep : (system 1).step ⟨fun _ => none, fun _ => none, 0⟩ (.enqueue 111 144 (some 7))
      oneChunk := ⟨fun a _ => rfl, enqueue_oneChunk⟩
  refine (ownsOnce_iff (by decide) ((Run.start hstart).step hstep)).mpr ?_ _ _ (Stage.last _ _)
  intro v call hmem hcall
  cases List.mem_singleton.mp hmem
  cases hcall

/-- The only chunk is dequeued, and teardown frees it a second time. -/
theorem dequeue_frees_twice :
    ∃ trace s, Run (system 1) trace s ∧
      events trace = [.enqueue 111 144 (some 7), .dequeue] ∧
      s.currentSize = 0 ∧ s.queue.load 0 = .ok (some 7) ∧
      teardownQueue s 1 = .error (.outOfBounds 7) := by
  have hstart : (system 1).start ⟨fun _ => none, fun _ => none, 0⟩ := ⟨rfl, rfl, rfl⟩
  have henqueue : (system 1).step ⟨fun _ => none, fun _ => none, 0⟩ (.enqueue 111 144 (some 7))
      oneChunk := ⟨fun a _ => rfl, enqueue_oneChunk⟩
  have hdequeue : (system 1).step oneChunk .dequeue
      ⟨Function.update oneChunk.chunks 7 none, slots 1 [7], 0⟩ := ⟨trivial, rfl⟩
  exact ⟨_, _, ((Run.start hstart).step henqueue).step hdequeue, rfl, rfl, rfl, rfl⟩

end BareMetal.StreamQueue
