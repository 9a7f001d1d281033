import BareMetal.CS.CondVar
import BareMetal.CS.RingBuffer
import BareMetal.CS.Transition

/-!
# The packet queue of `multithreading/bounded_buffer.c`

Encoders fill a ring of `QUEUE_SIZE` packets and decoders empty it. `head` and `tail` are
moved before the slot they name is used, so that `head` is the slot decoded last and
`tail` the slot encoded last; `count` tells a full ring from an empty one. An encoder
waits on `not_full`, a decoder on `not_empty`, and each signals the other variable after
it has released the lock.

A locked section is one step of a thread, and so is a pass through a waiting loop that
ends in `pthread_cond_wait`. A sleeper may also wake without a signal.

## Main results

* `packets_fifo` — the slots after `head` hold the packets that are not decoded yet, and
  packets are decoded in the order in which they were encoded
* `sections_return` — no locked section leaves the ring
-/

namespace BareMetal.BoundedBuffer

open CS Transition

/-- `VALID_PACKAGE_MASK`. -/
def validPackageMask : UInt8 := 0x8B

/-- `BIT`. -/
def bit (x : UInt8) : UInt8 := 1 <<< x

/-- `ACK_IDX`. -/
def ackIdx : UInt8 := 0

/-- `SEC_IDX`. -/
def secIdx : UInt8 := 1

/-- `VER_IDX`. -/
def verIdx : UInt8 := 3

/-- `VAL_IDX`. -/
def valIdx : UInt8 := 7

/-- `PACKAGE_ITER`. -/
def packageIter : ℕ := 8

/-- `QUEUE_SIZE`. -/
abbrev queueSize : ℕ := 132

/-- `Queue`. -/
structure Queue where
  packets : Block queueSize UInt8
  head : UInt8
  tail : UInt8
  count : UInt8

/-- `init_queue`: `calloc` leaves zeros. -/
def initQueue : Queue := ⟨fun _ => 0, 0, 0, 0⟩

/-! ### The locked sections -/

/-- The slot after `index`. -/
def next (index : UInt8) : UInt8 := UInt8.ofNat ((index.toNat + 1) % queueSize)

/-- The loop of `encode_package` over the bits of a packet. -/
def clearPacket (packet : UInt8) : UInt8 :=
  (List.range packageIter).foldl (fun packet i =>
    let i := UInt8.ofNat i
    if i &&& bit i = 0 then packet &&& ~~~bit i else packet) packet

/-- What `encode_package` makes of a packet. -/
def encodePacket (packet : UInt8) : UInt8 :=
  clearPacket packet ||| bit ackIdx ||| bit secIdx ||| bit verIdx ||| bit valIdx

/-- The locked section of `encode_package` after its loop: the packet and the queue. -/
def encodeSection (queue : Queue) (packet : UInt8) : Outcome (UInt8 × Queue) := do
  let packet := encodePacket packet
  if packet &&& validPackageMask ≠ 0 then
    let tail := next queue.tail
    let packets ← queue.packets.store tail.toNat packet
    .ok (packet, ⟨packets, queue.head, tail, queue.count + 1⟩)
  else .ok (packet, queue)

/-- The locked section of `decode_package` after its loop: the value and the queue. -/
def decodeSection (queue : Queue) : Outcome (UInt8 × Queue) := do
  let head := next queue.head
  let val ← queue.packets.load head.toNat
  .ok (val, ⟨queue.packets, head, queue.tail, queue.count - 1⟩)

/-- No number has a bit in its own place, so the loop clears all bits. -/
theorem clearPacket_eq (packet : UInt8) : clearPacket packet = 0 := by
  have hclear : clearPacket packet = packet &&& ~~~bit 0 &&& ~~~bit 1 &&& ~~~bit 2 &&& ~~~bit 3 &&&
      ~~~bit 4 &&& ~~~bit 5 &&& ~~~bit 6 &&& ~~~bit 7 := rfl
  rw [hclear]
  simp only [UInt8.and_assoc]
  exact UInt8.and_zero

/-- Every packet is encoded to the same byte. -/
theorem encodePacket_eq (packet : UInt8) : encodePacket packet = validPackageMask := by
  rw [encodePacket, clearPacket_eq]
  decide

/-- The packets `waiting`, oldest first, are in the slots after `head`, up to `tail`. -/
structure Represents (queue : Queue) (waiting : List UInt8) : Prop where
  holds : RingBuffer.Holds queue.packets (next queue.head).toNat (next queue.tail).toNat waiting
  count_eq : queue.count.toNat = waiting.length
  head_lt : queue.head.toNat < queueSize
  tail_lt : queue.tail.toNat < queueSize

variable {queue queue' : Queue} {waiting : List UInt8} {packet val : UInt8}

theorem toNat_next (index : UInt8) : (next index).toNat = (index.toNat + 1) % queueSize :=
  RingBuffer.toNat_ofNat_mod (by decide) (by decide) _

theorem next_lt (index : UInt8) : (next index).toNat < queueSize := by
  rw [toNat_next]
  exact Nat.mod_lt _ (by decide)

theorem represents_init : Represents initQueue [] where
  holds := RingBuffer.holds_empty _ rfl
  count_eq := rfl
  head_lt := by decide
  tail_lt := by decide

namespace Represents

theorem count_le (h : Represents queue waiting) : queue.count.toNat ≤ queueSize :=
  h.count_eq.trans_le h.holds.length_le

/-- The slot of the last packet. -/
theorem tail_eq (h : Represents queue waiting) :
    queue.tail.toNat = (queue.head.toNat + queue.count.toNat) % queueSize := by
  have htail := h.holds.tail_eq
  have hhead_lt := h.head_lt
  have htail_lt := h.tail_lt
  have hle := h.count_le
  rw [toNat_next, toNat_next, ← h.count_eq] at htail
  unfold queueSize at *
  omega

/-- A queue that is not full takes a packet behind its tail. -/
theorem encode (h : Represents queue waiting) (hcount : queue.count.toNat ≠ queueSize)
    (packet : UInt8) :
    ∃ queue', encodeSection queue packet = .ok (validPackageMask, queue') ∧
      queue'.head = queue.head ∧ queue'.tail = next queue.tail ∧
      Represents queue' (waiting ++ [validPackageMask]) := by
  have hroom : waiting.length < queueSize := by
    have hle := h.count_le
    rw [← h.count_eq]
    omega
  let k : Fin queueSize := ⟨(next queue.tail).toNat, next_lt _⟩
  have hstore : queue.packets.store (next queue.tail).toNat validPackageMask =
      .ok (Function.update queue.packets k validPackageMask) :=
    Block.store_natCast queue.packets k validPackageMask
  refine ⟨⟨Function.update queue.packets k validPackageMask, queue.head, next queue.tail,
    queue.count + 1⟩, ?_, rfl, rfl, ?_, ?_, h.head_lt, next_lt _⟩
  · rw [encodeSection, encodePacket_eq]
    dsimp only
    rw [if_pos (by decide), hstore, Outcome.ok_bind]
  · have hpush := h.holds.push hroom validPackageMask (k := k) rfl
    rwa [← toNat_next] at hpush
  · have hsize : queueSize = 132 := rfl
    have hone : (1 : UInt8).toNat = 1 := rfl
    rw [List.length_append, List.length_singleton, ← h.count_eq, UInt8.toNat_add, hone]
    have hlen := h.count_eq
    omega

/-- A queue that is not empty gives its oldest packet. -/
theorem decode (h : Represents queue (val :: waiting)) :
    ∃ queue', decodeSection queue = .ok (val, queue') ∧ queue'.head = next queue.head ∧
      Represents queue' waiting := by
  let k : Fin queueSize := ⟨(next queue.head).toNat, next_lt _⟩
  have hload : queue.packets.load (next queue.head).toNat = .ok val :=
    (Block.load_natCast queue.packets k).trans (congrArg Except.ok (h.holds.front rfl))
  refine ⟨⟨queue.packets, next queue.head, queue.tail, queue.count - 1⟩, ?_, rfl, ?_, ?_,
    next_lt _, h.tail_lt⟩
  · rw [decodeSection, hload, Outcome.ok_bind]
  · have hpop := h.holds.pop
    rwa [← toNat_next] at hpop
  · have hcount := h.count_eq
    rw [List.length_cons] at hcount
    have hone : (1 : UInt8).toNat = 1 := rfl
    have hle : (1 : UInt8) ≤ queue.count := by
      rw [UInt8.le_iff_toNat_le, hone, hcount]
      omega
    rw [UInt8.toNat_sub_of_le _ _ hle, hone, hcount, Nat.add_sub_cancel]

end Represents

/-! ### The interleavings -/

/-- Where a thread stands: before its locked section, asleep in its loop, before
`pthread_cond_signal`, or at the end. A woken thread tests its loop again, so it is back
at the start. -/
inductive Position
  | start
  | asleep
  | signal
  | finished
  deriving DecidableEq, Repr

/-- `not_full`, on which encoders sleep. -/
def notFull : CondVar Position where
  asleep k := k == .asleep
  woken _ := .start
  not_asleep_woken _ _ := rfl

/-- `not_empty`, on which decoders sleep. -/
def notEmpty : CondVar Position where
  asleep k := k == .asleep
  woken _ := .start
  not_asleep_woken _ _ := rfl

/-- The queue, the package of each encoder, and the positions of the threads. -/
structure World (encoderCount decoderCount : ℕ) where
  queue : Queue
  packages : Fin encoderCount → UInt8
  encoders : Fin encoderCount → Position
  decoders : Fin decoderCount → Position

/-- The steps of the threads. An encoding names the incoming packet and the slot, which is
the tail after it, and a decoding the slot and the value. -/
inductive Event (encoderCount decoderCount : ℕ)
  | sleepEncoder (p : Fin encoderCount)
  | encode (p : Fin encoderCount) (incoming slot : UInt8)
  | signalNotEmpty (p : Fin encoderCount) (woken : Option (Fin decoderCount))
  | wakeEncoder (p : Fin encoderCount)
  | sleepDecoder (c : Fin decoderCount)
  | decode (c : Fin decoderCount) (slot val : UInt8)
  | signalNotFull (c : Fin decoderCount) (woken : Option (Fin encoderCount))
  | wakeDecoder (c : Fin decoderCount)
  deriving DecidableEq, Repr

variable {encoderCount decoderCount : ℕ}

/-- One step of the program. -/
inductive Step : World encoderCount decoderCount → Event encoderCount decoderCount →
    World encoderCount decoderCount → Prop
  | sleepEncoder {world : World encoderCount decoderCount} {p : Fin encoderCount} :
      world.encoders p = .start → world.queue.count.toNat = queueSize →
      Step world (.sleepEncoder p)
        { world with encoders := Function.update world.encoders p .asleep }
  | encode {world : World encoderCount decoderCount} {p : Fin encoderCount} {packet : UInt8}
      {queue : Queue} :
      world.encoders p = .start → world.queue.count.toNat ≠ queueSize →
      encodeSection world.queue (world.packages p) = .ok (packet, queue) →
      Step world (.encode p (world.packages p) queue.tail)
        { world with
          queue := queue
          packages := Function.update world.packages p packet
          encoders := Function.update world.encoders p .signal }
  | signalNotEmpty {world : World encoderCount decoderCount} {p : Fin encoderCount}
      {woken : Option (Fin decoderCount)} :
      world.encoders p = .signal → notEmpty.CanSignal world.decoders woken →
      Step world (.signalNotEmpty p woken)
        { world with
          encoders := Function.update world.encoders p .finished
          decoders := notEmpty.signal world.decoders woken }
  -- without a signal
  | wakeEncoder {world : World encoderCount decoderCount} {p : Fin encoderCount} :
      world.encoders p = .asleep →
      Step world (.wakeEncoder p)
        { world with encoders := Function.update world.encoders p .start }
  | sleepDecoder {world : World encoderCount decoderCount} {c : Fin decoderCount} :
      world.decoders c = .start → world.queue.count.toNat = 0 →
      Step world (.sleepDecoder c)
        { world with decoders := Function.update world.decoders c .asleep }
  | decode {world : World encoderCount decoderCount} {c : Fin decoderCount} {val : UInt8}
      {queue : Queue} :
      world.decoders c = .start → world.queue.count.toNat ≠ 0 →
      decodeSection world.queue = .ok (val, queue) →
      Step world (.decode c queue.head val)
        { world with
          queue := queue, decoders := Function.update world.decoders c .signal }
  | signalNotFull {world : World encoderCount decoderCount} {c : Fin decoderCount}
      {woken : Option (Fin encoderCount)} :
      world.decoders c = .signal → notFull.CanSignal world.encoders woken →
      Step world (.signalNotFull c woken)
        { world with
          encoders := notFull.signal world.encoders woken
          decoders := Function.update world.decoders c .finished }
  | wakeDecoder {world : World encoderCount decoderCount} {c : Fin decoderCount} :
      world.decoders c = .asleep →
      Step world (.wakeDecoder c)
        { world with decoders := Function.update world.decoders c .start }

/-- The threads of `main`, for any number of them and any packages. -/
def system (encoderCount decoderCount : ℕ) :
    System (World encoderCount decoderCount) (Event encoderCount decoderCount) where
  start world :=
    ∃ packages, world = ⟨initQueue, packages, fun _ => .start, fun _ => .start⟩
  step := Step

/-- The incoming packets, in encoding order. -/
def encodes (es : List (Event encoderCount decoderCount)) : List UInt8 :=
  es.filterMap fun
    | .encode _ incoming _ => some incoming
    | _ => none

/-- The values decoded, in decoding order. -/
def decodes (es : List (Event encoderCount decoderCount)) : List UInt8 :=
  es.filterMap fun
    | .decode _ _ val => some val
    | _ => none

/-- The encoded packets that are not decoded yet, in encoding order. -/
def undecoded (es : List (Event encoderCount decoderCount)) : List UInt8 :=
  ((encodes es).map encodePacket).drop (decodes es).length

/-- The slot has been written since it was last decoded. -/
def written (slot : UInt8) (es : List (Event encoderCount decoderCount)) : Bool :=
  es.foldl (fun written e =>
    match e with
    | .encode _ _ slot' => written || slot' == slot
    | .decode _ slot' _ => written && slot' != slot
    | _ => written) false

variable {world world' : World encoderCount decoderCount}
  {es : List (Event encoderCount decoderCount)} {e : Event encoderCount decoderCount}
  {trace : Trace (World encoderCount decoderCount) (Event encoderCount decoderCount)}

/-! ### Slots -/

/-- The slot of the packet that is decoded after `i` others. -/
def slotAt (queue : Queue) (i : ℕ) : UInt8 :=
  UInt8.ofNat ((queue.head.toNat + 1 + i) % queueSize)

theorem slotAt_zero (queue : Queue) : slotAt queue 0 = next queue.head := rfl

theorem slotAt_succ (hhead : queue'.head = next queue.head) (i : ℕ) :
    slotAt queue' i = slotAt queue (i + 1) := by
  unfold slotAt
  rw [hhead, toNat_next, Nat.add_assoc, Nat.mod_add_mod, Nat.add_comm 1 i]

/-- The next packet goes into the slot behind those that wait. -/
theorem Represents.slotAt_length (h : Represents queue waiting) :
    slotAt queue waiting.length = next queue.tail := by
  unfold slotAt next
  rw [h.tail_eq, Nat.mod_add_mod, h.count_eq, Nat.add_right_comm]

theorem toNat_slotAt (queue : Queue) (i : ℕ) :
    (slotAt queue i).toNat = (queue.head.toNat + 1 + i) % queueSize :=
  RingBuffer.toNat_ofNat_mod (by decide) (by decide) _

theorem slotAt_ne {i j : ℕ} (hij : i < j) (hj : j < queueSize) :
    slotAt queue i ≠ slotAt queue j := by
  intro heq
  have hnat := congrArg UInt8.toNat heq
  rw [toNat_slotAt, toNat_slotAt] at hnat
  exact RingBuffer.slot_ne hij hj hnat

theorem written_encode {p : Fin encoderCount} {incoming slot slot' : UInt8} :
    written slot (es ++ [.encode p incoming slot']) = (written slot es || slot' == slot) :=
  List.foldl_concat ..

theorem written_decode {c : Fin decoderCount} {val slot slot' : UInt8} :
    written slot (es ++ [.decode c slot' val]) = (written slot es && slot' != slot) :=
  List.foldl_concat ..

/-! ### What the queue holds -/

/-- What the queue holds after the events `es`. -/
def Stored (es : List (Event encoderCount decoderCount))
    (world : World encoderCount decoderCount) : Prop :=
  ∃ waiting, (encodes es).map encodePacket = decodes es ++ waiting ∧
    Represents world.queue waiting ∧ ∀ i < waiting.length, written (slotAt world.queue i) es

theorem encodes_concat (es : List (Event encoderCount decoderCount))
    (e : Event encoderCount decoderCount) : encodes (es ++ [e]) = encodes es ++ encodes [e] :=
  List.filterMap_append

theorem decodes_concat (es : List (Event encoderCount decoderCount))
    (e : Event encoderCount decoderCount) : decodes (es ++ [e]) = decodes es ++ decodes [e] :=
  List.filterMap_append

/-- A step that neither encodes nor decodes. -/
theorem Stored.keep (h : Stored es world) (hencodes : encodes [e] = [])
    (hdecodes : decodes [e] = [])
    (hwritten : ∀ slot, written slot (es ++ [e]) = written slot es)
    (hqueue : world'.queue = world.queue) : Stored (es ++ [e]) world' := by
  obtain ⟨waiting, hsplit, hrep, hslots⟩ := h
  refine ⟨waiting, ?_, hqueue ▸ hrep, fun i hi => ?_⟩
  · rw [encodes_concat, decodes_concat, hencodes, hdecodes, List.append_nil, List.append_nil,
      hsplit]
  · rw [hqueue, hwritten]
    exact hslots i hi

theorem Stored.encode (h : Stored es world) {p : Fin encoderCount}
    (hcount : world.queue.count.toNat ≠ queueSize)
    (hcall : encodeSection world.queue (world.packages p) = .ok (packet, queue))
    (hqueue : world'.queue = queue) :
    Stored (es ++ [.encode p (world.packages p) queue.tail]) world' := by
  obtain ⟨waiting, hsplit, hrep, hslots⟩ := h
  obtain ⟨queue', hok, hhead, htail, hrep'⟩ := hrep.encode hcount (world.packages p)
  cases hcall.symm.trans hok
  refine ⟨waiting ++ [validPackageMask], ?_, hqueue ▸ hrep', fun i hi => ?_⟩
  · have hdecodes : decodes (es ++ [.encode p (world.packages p) queue.tail]) = decodes es :=
      (decodes_concat ..).trans (List.append_nil _)
    rw [encodes_concat, List.map_append, hsplit, hdecodes, ← encodePacket_eq (world.packages p),
      List.append_assoc]
    rfl
  · have hslot : slotAt world'.queue i = slotAt world.queue i := by
      unfold slotAt
      rw [hqueue, hhead]
    rw [written_encode, hslot, htail]
    rw [List.length_append, List.length_singleton] at hi
    rcases Nat.lt_succ_iff_lt_or_eq.mp hi with hold | rfl
    · rw [hslots i hold, Bool.true_or]
    · rw [hrep.slotAt_length, beq_self_eq_true, Bool.or_true]

theorem Stored.decode (h : Stored es world) {c : Fin decoderCount}
    (hcount : world.queue.count.toNat ≠ 0)
    (hcall : decodeSection world.queue = .ok (val, queue)) (hqueue : world'.queue = queue) :
    Stored (es ++ [.decode c queue.head val]) world' := by
  obtain ⟨waiting, hsplit, hrep, hslots⟩ := h
  cases waiting with
  | nil => exact absurd hrep.count_eq hcount
  | cons packet waiting =>
    obtain ⟨queue', hok, hhead, hrep'⟩ := hrep.decode
    cases hcall.symm.trans hok
    refine ⟨waiting, ?_, hqueue ▸ hrep', fun i hi => ?_⟩
    · have hencodes : encodes (es ++ [.decode c queue.head val]) = encodes es :=
        (encodes_concat ..).trans (List.append_nil _)
      rw [hencodes, hsplit, decodes_concat, List.append_assoc]
      rfl
    · -- the other packets are in other slots
      have hlt : i + 1 < queueSize :=
        (Nat.succ_lt_succ hi).trans_le hrep.holds.length_le
      have hne : next world.queue.head ≠ slotAt world.queue (i + 1) := by
        rw [← slotAt_zero]
        exact slotAt_ne (Nat.succ_pos i) hlt
      rw [written_decode, hqueue, slotAt_succ hhead, hhead, hslots (i + 1) (Nat.succ_lt_succ hi),
        Bool.true_and, bne_iff_ne]
      exact hne

theorem Stored.step (h : Stored es world) (hstep : Step world e world') :
    Stored (es ++ [e]) world' := by
  cases hstep with
  | sleepEncoder _ _ => exact h.keep rfl rfl (fun _ => List.foldl_concat ..) rfl
  | encode _ hcount hcall => exact h.encode hcount hcall rfl
  | signalNotEmpty _ _ => exact h.keep rfl rfl (fun _ => List.foldl_concat ..) rfl
  | wakeEncoder _ => exact h.keep rfl rfl (fun _ => List.foldl_concat ..) rfl
  | sleepDecoder _ _ => exact h.keep rfl rfl (fun _ => List.foldl_concat ..) rfl
  | decode _ hcount hcall => exact h.decode hcount hcall rfl
  | signalNotFull _ _ => exact h.keep rfl rfl (fun _ => List.foldl_concat ..) rfl
  | wakeDecoder _ => exact h.keep rfl rfl (fun _ => List.foldl_concat ..) rfl

theorem stored (hrun : Run (system encoderCount decoderCount) trace world) :
    Stored (events trace) world := by
  refine Run.invariant (I := Stored) ?_ (fun _ _ _ _ h hstep => h.step hstep) hrun
  rintro _ ⟨packages, rfl⟩
  exact ⟨[], rfl, represents_init, fun i hi => absurd hi (Nat.not_lt_zero i)⟩

/-- What was encoded and not decoded is what the queue holds. -/
theorem undecoded_eq (hsplit : (encodes es).map encodePacket = decodes es ++ waiting) :
    undecoded es = waiting := by
  rw [undecoded, hsplit, List.drop_left]

/-- **The packet queue is first in, first out.** In every state of every interleaving of any
number of encoders and decoders: `count` is the number of packets that are encoded and not
decoded, and at most `QUEUE_SIZE`; `tail` is that far behind `head`; the slots between them
hold these packets in encoding order; no decoding can follow that reads a slot that has not
been written since it was last decoded; and what was decoded is, in order, the encoded form
of the incoming packets, which is the valid package. -/
theorem packets_fifo (hrun : Run (system encoderCount decoderCount) trace world) :
    world.queue.count.toNat = (undecoded (events trace)).length ∧
      world.queue.count.toNat ≤ queueSize ∧
      world.queue.tail.toNat =
        (world.queue.head.toNat + world.queue.count.toNat) % queueSize ∧
      (∀ (i : ℕ) (hi : i < (undecoded (events trace)).length) (k : Fin queueSize),
        (k : ℕ) = (world.queue.head.toNat + 1 + i) % queueSize →
        world.queue.packets k = (undecoded (events trace))[i]) ∧
      (∀ c slot val world', Step world (.decode c slot val) world' →
        written slot (events trace)) ∧
      decodes (events trace) <+: (encodes (events trace)).map encodePacket ∧
      ∀ val ∈ decodes (events trace), val = validPackageMask := by
  obtain ⟨waiting, hsplit, hrep, hslots⟩ := stored hrun
  rw [undecoded_eq hsplit]
  have horder : decodes (events trace) <+: (encodes (events trace)).map encodePacket :=
    ⟨waiting, hsplit.symm⟩
  refine ⟨hrep.count_eq, hrep.count_le, hrep.tail_eq, fun i hi k hk => ?_,
    fun c slot val world' hstep => ?_, horder, fun val hval => ?_⟩
  · refine hrep.holds.cells_eq i hi k ?_
    rw [hk, toNat_next, Nat.mod_add_mod]
  · cases hstep with
    | decode _ hcount hcall =>
      cases waiting with
      | nil => exact absurd hrep.count_eq hcount
      | cons packet waiting =>
        obtain ⟨queue', hok, hhead, -⟩ := hrep.decode
        cases hcall.symm.trans hok
        rw [hhead, ← slotAt_zero]
        exact hslots 0 (Nat.succ_pos _)
  · obtain ⟨incoming, -, rfl⟩ := List.mem_map.mp (horder.subset hval)
    exact encodePacket_eq incoming

/-- A decoder that sleeps until the only encoder signals it. -/
theorem packets_fifo_one :
    ∃ (trace : Trace (World 1 1) (Event 1 1)) (world : World 1 1),
      Run (system 1 1) trace world ∧ encodes (events trace) = [7] ∧
        decodes (events trace) = [validPackageMask] ∧
        decodes (events trace) <+: (encodes (events trace)).map encodePacket := by
  have hstart : Run (system 1 1) [] ⟨initQueue, fun _ => 7, fun _ => .start, fun _ => .start⟩ :=
    .start ⟨_, rfl⟩
  have hsleep := hstart.step (@Step.sleepDecoder 1 1 _ 0 rfl rfl)
  obtain ⟨queue, hok, hhead, htail, hrep⟩ := represents_init.encode (by decide) 7
  have hencode := hsleep.step (@Step.encode 1 1 _ 0 _ queue rfl (by decide) hok)
  have hsignal := hencode.step (@Step.signalNotEmpty 1 1 _ 0 (some 0) rfl rfl)
  have hcount : queue.count.toNat ≠ 0 := by
    rw [hrep.count_eq]
    decide
  obtain ⟨queue', hok', -⟩ := hrep.decode
  have hdecode := hsignal.step (@Step.decode 1 1 _ 0 _ queue' rfl hcount hok')
  exact ⟨_, _, hdecode, rfl, rfl, (packets_fifo hdecode).2.2.2.2.2.1⟩

/-- A thread whose loop lets it through always gets through its locked section. -/
theorem sections_return (hrun : Run (system encoderCount decoderCount) trace world) :
    (world.queue.count.toNat ≠ queueSize → ∀ packet, ∃ queue,
        encodeSection world.queue packet = .ok (validPackageMask, queue)) ∧
      (world.queue.count.toNat ≠ 0 → ∃ queue,
        decodeSection world.queue = .ok (validPackageMask, queue)) := by
  obtain ⟨waiting, hsplit, hrep, -⟩ := stored hrun
  constructor
  · intro hcount packet
    obtain ⟨queue, hok, -⟩ := hrep.encode hcount packet
    exact ⟨queue, hok⟩
  · intro hcount
    cases waiting with
    | nil => exact absurd hrep.count_eq hcount
    | cons packet waiting =>
      obtain ⟨queue, hok, -⟩ := hrep.decode
      have hmem : packet ∈ (encodes (events trace)).map encodePacket := by
        rw [hsplit]
        simp
      obtain ⟨incoming, -, rfl⟩ := List.mem_map.mp hmem
      exact ⟨queue, by rwa [encodePacket_eq] at hok⟩

end BareMetal.BoundedBuffer
