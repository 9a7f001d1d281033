import BareMetal.CS.RingBuffer
import BareMetal.CS.Tally
import BareMetal.CS.Transition

/-!
# The semaphore ring buffer of `pthread/ring_buffer.c`

Producers and consumers share a buffer of `BUFFER_SIZE` cells. `empty_slots`
starts at `BUFFER_SIZE` and `filled_slots` at zero; a thread waits on one, takes
the lock for its access and posts the other after the lock is released. A call of
`sem_wait` or `sem_post` and a locked section are one step each.

Between the wait and the post of an iteration a thread holds a token. The tokens
held by threads and those in the two semaphores are always `BUFFER_SIZE` in all,
and the entries that are not read yet are the tokens on the filled side.

## Main results

* `entries_fifo` — what is read is a prefix of what is written, and no write hits
  an entry that is not read
* `sections_return` — no locked section leaves the buffer
-/

namespace BareMetal.SharedRing

open CS Transition

/-- `BUFFER_SIZE`. -/
abbrev bufferSize : ℕ := 10

/-- The iterations of a producer or a consumer. -/
abbrev itemCount : UInt8 := 10

/-- The buffer and the two indices that wrap. -/
structure RingBuffer where
  buffer : Block bufferSize UInt8
  writeIndex : UInt8
  readIndex : UInt8

/-- `init`: `calloc` leaves zeros. -/
def init : RingBuffer := ⟨fun _ => 0, 0, 0⟩

/-! ### The locked sections -/

/-- The index after `index`. -/
def next (index : UInt8) : UInt8 := UInt8.ofNat ((index.toNat + 1) % bufferSize)

/-- The locked section of `add_value`. -/
def writeSection (rb : RingBuffer) (i : UInt8) : Outcome RingBuffer := do
  let buffer ← rb.buffer.store rb.writeIndex.toNat i
  .ok { rb with buffer := buffer, writeIndex := next rb.writeIndex }

/-- The locked section of `get_value`, with the value it reads. -/
def readSection (rb : RingBuffer) : Outcome (RingBuffer × UInt8) := do
  let val ← rb.buffer.load rb.readIndex.toNat
  .ok ({ rb with readIndex := next rb.readIndex }, val)

/-- A slot and the value in it, as the log lines print them. -/
abbrev Entry := UInt8 × UInt8

/-- The cells of the buffer, each with the number of its slot. -/
def entries (rb : RingBuffer) : Block bufferSize Entry :=
  fun k => (UInt8.ofNat k, rb.buffer k)

/-- The entries `unread`, oldest first, are in the slots from `read_index` on. -/
def Represents (rb : RingBuffer) (unread : List Entry) : Prop :=
  CS.RingBuffer.Holds (entries rb) rb.readIndex.toNat rb.writeIndex.toNat unread

theorem represents_init : Represents init [] := CS.RingBuffer.holds_nil _

variable {rb rb' : RingBuffer} {unread : List Entry} {slot value : UInt8}

theorem toNat_next (index : UInt8) : (next index).toNat = (index.toNat + 1) % bufferSize :=
  CS.RingBuffer.toNat_ofNat_mod (by decide) (by decide) _

theorem Represents.write (h : Represents rb unread) (hroom : unread.length < bufferSize)
    (value : UInt8) :
    ∃ rb', writeSection rb value = .ok rb' ∧
      Represents rb' (unread ++ [(rb.writeIndex, value)]) := by
  let k : Fin bufferSize := ⟨rb.writeIndex.toNat, h.tail_lt (by decide)⟩
  have hstore : rb.buffer.store rb.writeIndex.toNat value =
      .ok (Function.update rb.buffer k value) :=
    Block.store_natCast rb.buffer k value
  refine ⟨⟨Function.update rb.buffer k value, next rb.writeIndex, rb.readIndex⟩, ?_, ?_⟩
  · rw [writeSection, hstore, Outcome.ok_bind]
  · have hpush := h.push hroom (rb.writeIndex, value) (k := k) rfl
    rw [← toNat_next] at hpush
    have hentries : entries ⟨Function.update rb.buffer k value, next rb.writeIndex, rb.readIndex⟩ =
        Function.update (entries rb) k (rb.writeIndex, value) := by
      funext j
      rcases eq_or_ne j k with rfl | hne
      · simp [entries, k]
      · simp [entries, Function.update_of_ne hne]
    unfold Represents
    rwa [hentries]

/-- No entry that waits is in the slot written to next. -/
theorem Represents.slot_ne (h : Represents rb unread) (hroom : unread.length < bufferSize) :
    (rb.writeIndex, value) ∉ unread := by
  intro hmem
  obtain ⟨i, hi, hget⟩ := List.getElem_of_mem hmem
  -- the entry is in the cell of its slot, and that cell is not the next one
  have hcell := h.cells_eq i hi ⟨_, Nat.mod_lt _ (by decide)⟩ rfl
  rw [hget] at hcell
  refine h.slot_ne_tail hroom hi ?_
  have hslot : UInt8.ofNat ((rb.readIndex.toNat + i) % bufferSize) = rb.writeIndex :=
    congrArg Prod.fst hcell
  rw [← hslot]
  exact (CS.RingBuffer.toNat_ofNat_mod (by decide) (by decide) _).symm

theorem Represents.read (h : Represents rb ((slot, value) :: unread)) :
    rb.readIndex = slot ∧ ∃ rb', readSection rb = .ok (rb', value) ∧ Represents rb' unread := by
  let k : Fin bufferSize := ⟨rb.readIndex.toNat, h.head_lt (by decide)⟩
  have hfront : entries rb k = (slot, value) := h.front rfl
  have hslot : UInt8.ofNat rb.readIndex.toNat = slot := congrArg Prod.fst hfront
  have hvalue : rb.buffer k = value := congrArg Prod.snd hfront
  have hload : rb.buffer.load rb.readIndex.toNat = .ok value :=
    (Block.load_natCast rb.buffer k).trans (congrArg Except.ok hvalue)
  refine ⟨?_, ⟨rb.buffer, rb.writeIndex, next rb.readIndex⟩, ?_, ?_⟩
  · rwa [UInt8.ofNat_toNat] at hslot
  · rw [readSection, hload, Outcome.ok_bind]
  · have hpop := h.pop
    rwa [← toNat_next] at hpop

/-! ### The interleavings -/

/-- Where a producer stands: before the test of the loop, before the locked section,
or before `sem_post`. -/
inductive Producer
  | loop (i : UInt8)
  | write (i : UInt8)
  | post (i : UInt8)
  deriving DecidableEq, Repr

/-- Where a consumer stands. -/
inductive Consumer
  | loop (i : UInt8)
  | read (i : UInt8)
  | post (i : UInt8)
  deriving DecidableEq, Repr

/-- The shared state and the positions of the threads. -/
structure World (producerCount consumerCount : ℕ) where
  rb : RingBuffer
  emptySlots : ℕ
  filledSlots : ℕ
  producers : Fin producerCount → Producer
  consumers : Fin consumerCount → Consumer

/-- The steps of the threads. A write and a read name the slot and the value. -/
inductive Event (producerCount consumerCount : ℕ)
  | waitEmpty (p : Fin producerCount)
  | write (p : Fin producerCount) (entry : Entry)
  | postFilled (p : Fin producerCount)
  | waitFilled (c : Fin consumerCount)
  | read (c : Fin consumerCount) (entry : Entry)
  | postEmpty (c : Fin consumerCount)
  deriving DecidableEq, Repr

variable {producerCount consumerCount : ℕ}

/-- One step of the program. -/
inductive Step : World producerCount consumerCount → Event producerCount consumerCount →
    World producerCount consumerCount → Prop
  -- `sem_wait` blocks at zero, so the step needs a token
  | waitEmpty {world : World producerCount consumerCount} {p : Fin producerCount} {i : UInt8}
      {slots : ℕ} :
      world.producers p = .loop i → i < itemCount → world.emptySlots = slots + 1 →
      Step world (.waitEmpty p)
        { world with
          emptySlots := slots, producers := Function.update world.producers p (.write i) }
  | write {world : World producerCount consumerCount} {p : Fin producerCount} {i : UInt8}
      {rb : RingBuffer} :
      world.producers p = .write i → writeSection world.rb i = .ok rb →
      Step world (.write p (world.rb.writeIndex, i))
        { world with rb := rb, producers := Function.update world.producers p (.post i) }
  -- the lock is released by now: others may come between the write and the post
  | postFilled {world : World producerCount consumerCount} {p : Fin producerCount} {i : UInt8} :
      world.producers p = .post i →
      Step world (.postFilled p)
        { world with
          filledSlots := world.filledSlots + 1
          producers := Function.update world.producers p (.loop (i + 1)) }
  | waitFilled {world : World producerCount consumerCount} {c : Fin consumerCount} {i : UInt8}
      {slots : ℕ} :
      world.consumers c = .loop i → i < itemCount → world.filledSlots = slots + 1 →
      Step world (.waitFilled c)
        { world with
          filledSlots := slots, consumers := Function.update world.consumers c (.read i) }
  | read {world : World producerCount consumerCount} {c : Fin consumerCount} {i val : UInt8}
      {rb : RingBuffer} :
      world.consumers c = .read i → readSection world.rb = .ok (rb, val) →
      Step world (.read c (world.rb.readIndex, val))
        { world with rb := rb, consumers := Function.update world.consumers c (.post i) }
  | postEmpty {world : World producerCount consumerCount} {c : Fin consumerCount} {i : UInt8} :
      world.consumers c = .post i →
      Step world (.postEmpty c)
        { world with
          emptySlots := world.emptySlots + 1
          consumers := Function.update world.consumers c (.loop (i + 1)) }

/-- The threads of `main`, for any number of producers and consumers. -/
def system (producerCount consumerCount : ℕ) :
    System (World producerCount consumerCount) (Event producerCount consumerCount) where
  start world := world = ⟨init, bufferSize, 0, fun _ => .loop 0, fun _ => .loop 0⟩
  step := Step

/-- The entries written, in writing order. -/
def writes (es : List (Event producerCount consumerCount)) : List Entry :=
  es.filterMap fun
    | .write _ entry => some entry
    | _ => none

/-- The entries read, in reading order. -/
def reads (es : List (Event producerCount consumerCount)) : List Entry :=
  es.filterMap fun
    | .read _ entry => some entry
    | _ => none

/-- The entries written after the last one that was read. -/
def unreads (es : List (Event producerCount consumerCount)) : List Entry :=
  (writes es).drop (reads es).length

/-! ### Tokens -/

variable {world world' : World producerCount consumerCount}
  {es : List (Event producerCount consumerCount)} {e : Event producerCount consumerCount}
  {trace : Trace (World producerCount consumerCount) (Event producerCount consumerCount)}

/-- A producer holds a token for the cell it is about to write. -/
def Producer.writing : Producer → ℕ
  | .write _ => 1
  | _ => 0

/-- A producer has written a cell and not posted it. -/
def Producer.posting : Producer → ℕ
  | .post _ => 1
  | _ => 0

/-- A consumer holds a token for the cell it is about to read. -/
def Consumer.reading : Consumer → ℕ
  | .read _ => 1
  | _ => 0

/-- A consumer has read a cell and not posted it. -/
def Consumer.posting : Consumer → ℕ
  | .post _ => 1
  | _ => 0

/-- Every token is in a semaphore or in the hands of a thread, and every unread entry
is posted, about to be posted, or about to be read. -/
structure Balanced (world : World producerCount consumerCount) (unread : List Entry) : Prop where
  tokens : world.emptySlots + tally (fun _ => Producer.writing) world.producers +
    tally (fun _ => Producer.posting) world.producers + world.filledSlots +
    tally (fun _ => Consumer.reading) world.consumers +
    tally (fun _ => Consumer.posting) world.consumers = bufferSize
  length_eq : unread.length = world.filledSlots +
    tally (fun _ => Producer.posting) world.producers +
    tally (fun _ => Consumer.reading) world.consumers

/-- What the buffer holds after the events `es`. -/
def Stored (es : List (Event producerCount consumerCount))
    (world : World producerCount consumerCount) : Prop :=
  ∃ unread, writes es = reads es ++ unread ∧ Represents world.rb unread ∧ Balanced world unread

variable {p : Fin producerCount} {c : Fin consumerCount} {i : UInt8}

theorem Balanced.length_le (h : Balanced world unread) : unread.length ≤ bufferSize := by
  have htokens := h.tokens
  have hlength := h.length_eq
  omega

/-- A producer that holds a token finds room. -/
theorem Balanced.room (h : Balanced world unread) (hp : world.producers p = .write i) :
    unread.length < bufferSize := by
  have htokens := h.tokens
  have hlength := h.length_eq
  have hwriting := le_tally (fun _ => Producer.writing) world.producers p
  simp only [hp, Producer.writing] at hwriting
  omega

/-- A consumer that holds a token finds an entry. -/
theorem Balanced.ne_nil (h : Balanced world unread) (hc : world.consumers c = .read i) :
    unread ≠ [] := by
  rintro rfl
  have hlength := h.length_eq
  have hreading := le_tally (fun _ => Consumer.reading) world.consumers c
  simp only [hc, Consumer.reading, List.length_nil] at hreading hlength
  omega

/-- A producer moves from `k` to `k'`: what it puts into the semaphores and the buffer
is what its position loses. -/
theorem Balanced.moveProducer (h : Balanced world unread) {k k' : Producer}
    (hp : world.producers p = k) {rb : RingBuffer} {emptySlots filledSlots : ℕ}
    {unread' : List Entry}
    (htokens : emptySlots + filledSlots + k'.writing + k'.posting =
      world.emptySlots + world.filledSlots + k.writing + k.posting)
    (hlength : unread'.length + world.filledSlots + k.posting =
      unread.length + filledSlots + k'.posting) :
    Balanced ⟨rb, emptySlots, filledSlots, Function.update world.producers p k', world.consumers⟩
      unread' := by
  have hwriting := tally_move (fun _ => Producer.writing) hp k'
  have hposting := tally_move (fun _ => Producer.posting) hp k'
  have htokens' := h.tokens
  have hlength' := h.length_eq
  constructor
  · dsimp only
    omega
  · dsimp only
    omega

/-- The same for a consumer. -/
theorem Balanced.moveConsumer (h : Balanced world unread) {k k' : Consumer}
    (hc : world.consumers c = k) {rb : RingBuffer} {emptySlots filledSlots : ℕ}
    {unread' : List Entry}
    (htokens : emptySlots + filledSlots + k'.reading + k'.posting =
      world.emptySlots + world.filledSlots + k.reading + k.posting)
    (hlength : unread'.length + world.filledSlots + k.reading =
      unread.length + filledSlots + k'.reading) :
    Balanced ⟨rb, emptySlots, filledSlots, world.producers, Function.update world.consumers c k'⟩
      unread' := by
  have hreading := tally_move (fun _ => Consumer.reading) hc k'
  have hposting := tally_move (fun _ => Consumer.posting) hc k'
  have htokens' := h.tokens
  have hlength' := h.length_eq
  constructor
  · dsimp only
    omega
  · dsimp only
    omega

theorem writes_concat (es : List (Event producerCount consumerCount))
    (e : Event producerCount consumerCount) : writes (es ++ [e]) = writes es ++ writes [e] :=
  List.filterMap_append

theorem reads_concat (es : List (Event producerCount consumerCount))
    (e : Event producerCount consumerCount) : reads (es ++ [e]) = reads es ++ reads [e] :=
  List.filterMap_append

/-- A step that neither writes nor reads keeps the buffer, if it keeps the balance. -/
theorem Stored.keep (h : Stored es world) (hwrites : writes [e] = []) (hreads : reads [e] = [])
    (hrb : world'.rb = world.rb)
    (hbalanced : ∀ unread, Balanced world unread → Balanced world' unread) :
    Stored (es ++ [e]) world' := by
  obtain ⟨unread, hsplit, hrep, hbal⟩ := h
  refine ⟨unread, ?_, hrb ▸ hrep, hbalanced _ hbal⟩
  rw [writes_concat, reads_concat, hwrites, hreads, List.append_nil, List.append_nil, hsplit]

theorem Stored.step (h : Stored es world) (hstep : Step world e world') :
    Stored (es ++ [e]) world' := by
  obtain ⟨unread, hsplit, hrep, hbal⟩ := id h
  cases hstep with
  | waitEmpty hp _ hslots =>
    refine h.keep rfl rfl rfl fun unread hbal => hbal.moveProducer hp ?_ rfl
    simp only [hslots, Producer.writing, Producer.posting]
    omega
  | postFilled hp =>
    refine h.keep rfl rfl rfl fun unread hbal => hbal.moveProducer hp ?_ ?_
    · simp only [Producer.writing, Producer.posting]
      omega
    · simp only [Producer.posting]
      omega
  | waitFilled hc _ hslots =>
    refine h.keep rfl rfl rfl fun unread hbal => hbal.moveConsumer hc ?_ ?_
    · simp only [hslots, Consumer.reading, Consumer.posting]
      omega
    · simp only [hslots, Consumer.reading]
      omega
  | postEmpty hc =>
    refine h.keep rfl rfl rfl fun unread hbal => hbal.moveConsumer hc ?_ rfl
    simp only [Consumer.reading, Consumer.posting]
    omega
  | write hp hcall =>
    -- the token of the producer stands for a free cell
    obtain ⟨rb, hok, hrep'⟩ := hrep.write (hbal.room hp) _
    cases hcall.symm.trans hok
    refine ⟨_, ?_, hrep', hbal.moveProducer hp rfl ?_⟩
    · rw [writes_concat, reads_concat, hsplit, List.append_assoc, List.append_assoc]
      rfl
    · simp only [List.length_append, List.length_singleton, Producer.posting]
      omega
  | read hc hcall =>
    -- the token of the consumer stands for the oldest unread entry
    obtain ⟨⟨slot, value⟩, rest, rfl⟩ := List.exists_cons_of_ne_nil (hbal.ne_nil hc)
    obtain ⟨rfl, rb, hok, hrep'⟩ := hrep.read
    cases hcall.symm.trans hok
    refine ⟨rest, ?_, hrep', hbal.moveConsumer hc rfl ?_⟩
    · rw [writes_concat, reads_concat, hsplit, List.append_assoc, List.append_assoc]
      exact congrArg (reads es ++ ·) (List.append_nil _)
    · simp only [List.length_cons, Consumer.reading]
      omega

theorem stored (hrun : Run (system producerCount consumerCount) trace world) :
    Stored (events trace) world := by
  refine Run.invariant (I := Stored) ?_ (fun _ _ _ _ h hstep => h.step hstep) hrun
  rintro _ rfl
  refine ⟨[], rfl, represents_init, ?_⟩
  constructor
  · simp [tally, Producer.writing, Producer.posting, Consumer.reading, Consumer.posting]
  · simp [tally, Producer.posting, Consumer.reading]

/-! ### Nothing is lost or overwritten -/

/-- What was written and not read is what the buffer holds. -/
theorem unreads_eq (hsplit : writes es = reads es ++ unread) : unreads es = unread := by
  rw [unreads, hsplit, List.drop_left]

/-- **The ring buffer loses and overwrites nothing.** In every state of every
interleaving of any number of producers and consumers, the entries read so far are
a prefix of the entries written; at most `BUFFER_SIZE` entries are unread; and no
write can follow that hits the slot of an unread entry. -/
theorem entries_fifo (hrun : Run (system producerCount consumerCount) trace world) :
    reads (events trace) <+: writes (events trace) ∧
      (unreads (events trace)).length ≤ bufferSize ∧
      ∀ p slot value world', Step world (.write p (slot, value)) world' →
        ∀ old, (slot, old) ∉ unreads (events trace) := by
  obtain ⟨unread, hsplit, hrep, hbal⟩ := stored hrun
  rw [unreads_eq hsplit]
  refine ⟨⟨unread, hsplit.symm⟩, hbal.length_le, fun p slot value world' hstep old => ?_⟩
  cases hstep with
  | write hp hcall => exact hrep.slot_ne (hbal.room hp)

/-- A producer that writes once, and a consumer that reads what was written. -/
theorem entries_fifo_one :
    ∃ (trace : Trace (World 1 1) (Event 1 1)) (world : World 1 1),
      Run (system 1 1) trace world ∧ writes (events trace) = [(0, 0), (1, 1)] ∧
        reads (events trace) = [(0, 0)] ∧ reads (events trace) <+: writes (events trace) := by
  have hstart : Run (system 1 1) [] ⟨init, bufferSize, 0, fun _ => .loop 0, fun _ => .loop 0⟩ :=
    .start rfl
  have hwait := hstart.step (@Step.waitEmpty 1 1 _ 0 0 9 rfl (by decide) rfl)
  have hwrite := hwait.step (@Step.write 1 1 _ 0 0 _ rfl rfl)
  have hpost := hwrite.step (@Step.postFilled 1 1 _ 0 0 rfl)
  have hwait' := hpost.step (@Step.waitEmpty 1 1 _ 0 1 8 rfl (by decide) rfl)
  have hwrite' := hwait'.step (@Step.write 1 1 _ 0 1 _ rfl rfl)
  have hfilled := hwrite'.step (@Step.waitFilled 1 1 _ 0 0 0 rfl (by decide) rfl)
  have hread := hfilled.step (@Step.read 1 1 _ 0 0 _ _ rfl rfl)
  exact ⟨_, _, hread, rfl, rfl, (entries_fifo hread).1⟩

/-- A thread that has its token always gets through its locked section: no index
leaves the buffer. -/
theorem sections_return (hrun : Run (system producerCount consumerCount) trace world) :
    (∀ p i, world.producers p = .write i → ∃ rb, writeSection world.rb i = .ok rb) ∧
      ∀ c i, world.consumers c = .read i → ∃ rb val, readSection world.rb = .ok (rb, val) := by
  obtain ⟨unread, -, hrep, hbal⟩ := stored hrun
  constructor
  · intro p i hp
    obtain ⟨rb, hok, -⟩ := hrep.write (hbal.room hp) i
    exact ⟨rb, hok⟩
  · intro c i hc
    obtain ⟨⟨slot, value⟩, rest, rfl⟩ := List.exists_cons_of_ne_nil (hbal.ne_nil hc)
    obtain ⟨-, rb, hok, -⟩ := hrep.read
    exact ⟨rb, value, hok⟩

end BareMetal.SharedRing
