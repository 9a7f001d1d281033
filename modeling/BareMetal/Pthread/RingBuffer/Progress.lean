import BareMetal.CS.Progress
import BareMetal.Pthread.RingBuffer

/-!
# When the threads of `pthread/ring_buffer.c` finish

A producer posts as many items as a consumer takes. Too many consumers wait for items that
nobody writes, and too many producers wait for cells that nobody empties; the buffer holds the
items of one producer that has no consumer.

## Main results

* `counted` — what the producers have posted is in `filled_slots` or was taken from it
* `ring_never_hangs_iff` — no interleaving hangs exactly when there are as many producers as
  consumers, or one more
* `steps_le` — how long a run can be
-/

namespace BareMetal.SharedRing

open CS Transition

variable {producerCount consumerCount : ℕ} {world world' : World producerCount consumerCount}
  {e : Event producerCount consumerCount} {p : Fin producerCount} {c : Fin consumerCount}
  {trace : Trace (World producerCount consumerCount) (Event producerCount consumerCount)}

/-! ### The iterations -/

/-- The loop counter of a producer stays in its range. -/
def Producer.InRange : Producer → Prop
  | .loop i => i.toNat ≤ itemCount.toNat
  | .write i | .post i => i.toNat < itemCount.toNat

/-- The same for a consumer. -/
def Consumer.InRange : Consumer → Prop
  | .loop i => i.toNat ≤ itemCount.toNat
  | .read i | .post i => i.toNat < itemCount.toNat

/-- The items that a producer has posted. -/
def Producer.posted : Producer → ℕ
  | .loop i | .write i | .post i => i.toNat

/-- The items for which a consumer has waited. -/
def Consumer.waited : Consumer → ℕ
  | .loop i => i.toNat
  | .read i | .post i => i.toNat + 1

/-- The steps that a producer has before it. -/
def Producer.left : Producer → ℕ
  | .loop i => 3 * (itemCount.toNat - i.toNat)
  | .write i => 3 * (itemCount.toNat - i.toNat) - 1
  | .post i => 3 * (itemCount.toNat - i.toNat) - 2

/-- The steps that a consumer has before it. -/
def Consumer.left : Consumer → ℕ
  | .loop i => 3 * (itemCount.toNat - i.toNat)
  | .read i => 3 * (itemCount.toNat - i.toNat) - 1
  | .post i => 3 * (itemCount.toNat - i.toNat) - 2

/-- The steps that all threads have before them. -/
def World.left (world : World producerCount consumerCount) : ℕ :=
  tally (fun _ => Producer.left) world.producers + tally (fun _ => Consumer.left) world.consumers

/-- All threads have left their loops. -/
def Finished (world : World producerCount consumerCount) : Prop :=
  (∀ p, world.producers p = .loop itemCount) ∧ ∀ c, world.consumers c = .loop itemCount

theorem toNat_itemCount : itemCount.toNat = 10 := rfl

theorem toNat_succ {i : UInt8} (h : i.toNat < itemCount.toNat) : (i + 1).toNat = i.toNat + 1 := by
  have hcount := toNat_itemCount
  have hone : (1 : UInt8).toNat = 1 := rfl
  rw [UInt8.toNat_add, hone]
  omega

/-- The counters are in their range, and what was posted is in the semaphore or was taken
from it. -/
structure Counted (world : World producerCount consumerCount) : Prop where
  producers : ∀ p, (world.producers p).InRange
  consumers : ∀ c, (world.consumers c).InRange
  posted : tally (fun _ => Producer.posted) world.producers =
    world.filledSlots + tally (fun _ => Consumer.waited) world.consumers

theorem Counted.producer (h : Counted world) {k : Producer} (hp : world.producers p = k) :
    k.InRange := by
  rw [← hp]
  exact h.producers p

theorem Counted.consumer (h : Counted world) {k : Consumer} (hc : world.consumers c = k) :
    k.InRange := by
  rw [← hc]
  exact h.consumers c

theorem Counted.moveProducer (h : Counted world) {k : Producer} (hp : world.producers p = k)
    (k' : Producer) (hrange : k'.InRange) {rb : RingBuffer} {emptySlots filledSlots : ℕ}
    (hposted : world.filledSlots + k'.posted = filledSlots + k.posted) :
    Counted ⟨rb, emptySlots, filledSlots, Function.update world.producers p k',
      world.consumers⟩ where
  producers := forall_move (P := fun _ => Producer.InRange) h.producers p hrange
  consumers := h.consumers
  posted := by
    have hmove := tally_move (fun _ => Producer.posted) hp k'
    have hold := h.posted
    dsimp only
    omega

theorem Counted.moveConsumer (h : Counted world) {k : Consumer} (hc : world.consumers c = k)
    (k' : Consumer) (hrange : k'.InRange) {rb : RingBuffer} {emptySlots filledSlots : ℕ}
    (hwaited : world.filledSlots + k.waited = filledSlots + k'.waited) :
    Counted ⟨rb, emptySlots, filledSlots, world.producers,
      Function.update world.consumers c k'⟩ where
  producers := h.producers
  consumers := forall_move (P := fun _ => Consumer.InRange) h.consumers c hrange
  posted := by
    have hmove := tally_move (fun _ => Consumer.waited) hc k'
    have hold := h.posted
    dsimp only
    omega

theorem Counted.step (h : Counted world) (hstep : Step world e world') : Counted world' := by
  cases hstep with
  | @waitEmpty p i _ hp hi _ => exact h.moveProducer hp (.write i) (UInt8.lt_iff_toNat_lt.mp hi) rfl
  | @write p i _ hp _ =>
    have hi : i.toNat < itemCount.toNat := h.producer hp
    exact h.moveProducer hp (.post i) hi rfl
  | @postFilled p i hp =>
    have hi : i.toNat < itemCount.toNat := h.producer hp
    have hsucc := toNat_succ hi
    have hrange : (i + 1).toNat ≤ itemCount.toNat := by omega
    refine h.moveProducer hp (.loop (i + 1)) hrange ?_
    simp only [Producer.posted, hsucc]
    omega
  | @waitFilled c i _ hc hi hslots =>
    refine h.moveConsumer hc (.read i) (UInt8.lt_iff_toNat_lt.mp hi) ?_
    simp only [Consumer.waited, hslots]
    omega
  | @read c i _ _ hc _ =>
    have hi : i.toNat < itemCount.toNat := h.consumer hc
    exact h.moveConsumer hc (.post i) hi rfl
  | @postEmpty c i hc =>
    have hi : i.toNat < itemCount.toNat := h.consumer hc
    have hsucc := toNat_succ hi
    have hrange : (i + 1).toNat ≤ itemCount.toNat := by omega
    refine h.moveConsumer hc (.loop (i + 1)) hrange ?_
    simp only [Consumer.waited, hsucc]

theorem counted (hrun : Run (system producerCount consumerCount) trace world) : Counted world := by
  refine Run.invariant (I := fun _ => Counted) ?_ (fun _ _ _ _ h hstep => h.step hstep) hrun
  rintro _ rfl
  constructor
  · exact fun _ => Nat.zero_le _
  · exact fun _ => Nat.zero_le _
  · simp [tally, Producer.posted, Consumer.waited]

/-! ### How long a run is -/

theorem World.left_moveProducer {k k' : Producer} (hp : world.producers p = k)
    (hleft : k'.left + 1 = k.left) {rb : RingBuffer} {emptySlots filledSlots : ℕ} :
    World.left ⟨rb, emptySlots, filledSlots, Function.update world.producers p k',
      world.consumers⟩ + 1 = world.left := by
  have hmove := tally_move (fun _ => Producer.left) hp k'
  unfold World.left
  dsimp only
  omega

theorem World.left_moveConsumer {k k' : Consumer} (hc : world.consumers c = k)
    (hleft : k'.left + 1 = k.left) {rb : RingBuffer} {emptySlots filledSlots : ℕ} :
    World.left ⟨rb, emptySlots, filledSlots, world.producers,
      Function.update world.consumers c k'⟩ + 1 = world.left := by
  have hmove := tally_move (fun _ => Consumer.left) hc k'
  unfold World.left
  dsimp only
  omega

/-- A step is one of those that its thread has before it. -/
theorem Counted.left_succ (h : Counted world) (hstep : Step world e world') :
    world'.left + 1 = world.left := by
  cases hstep with
  | @waitEmpty p i _ hp hi _ =>
    have hlt := UInt8.lt_iff_toNat_lt.mp hi
    refine World.left_moveProducer hp ?_
    simp only [Producer.left]
    omega
  | @write p i _ hp _ =>
    have hlt : i.toNat < itemCount.toNat := h.producer hp
    refine World.left_moveProducer hp ?_
    simp only [Producer.left]
    omega
  | @postFilled p i hp =>
    have hlt : i.toNat < itemCount.toNat := h.producer hp
    refine World.left_moveProducer hp ?_
    simp only [Producer.left, toNat_succ hlt]
    omega
  | @waitFilled c i _ hc hi _ =>
    have hlt := UInt8.lt_iff_toNat_lt.mp hi
    refine World.left_moveConsumer hc ?_
    simp only [Consumer.left]
    omega
  | @read c i _ _ hc _ =>
    have hlt : i.toNat < itemCount.toNat := h.consumer hc
    refine World.left_moveConsumer hc ?_
    simp only [Consumer.left]
    omega
  | @postEmpty c i hc =>
    have hlt : i.toNat < itemCount.toNat := h.consumer hc
    refine World.left_moveConsumer hc ?_
    simp only [Consumer.left, toNat_succ hlt]
    omega

theorem lowers_left (p : Event producerCount consumerCount → Prop) :
    (system producerCount consumerCount).Lowers p World.left := by
  intro trace world e world' hrun _ hstep
  have hsucc := (counted hrun).left_succ hstep
  omega

/-! ### Runs that are at rest -/

/-- The steps of all threads count. -/
abbrev anyStep (_ : Event producerCount consumerCount) : Prop := True

/-- Every thread is before its loop, and has finished it or finds no token. -/
structure AtRest (world : World producerCount consumerCount) : Prop where
  producer : ∀ p, ∃ i, world.producers p = .loop i ∧ (i = itemCount ∨ world.emptySlots = 0)
  consumer : ∀ c, ∃ i, world.consumers c = .loop i ∧ (i = itemCount ∨ world.filledSlots = 0)

theorem eq_itemCount {i : UInt8} (hle : i.toNat ≤ itemCount.toNat) (hi : ¬ i < itemCount) :
    i = itemCount := by
  rw [UInt8.lt_iff_toNat_lt] at hi
  exact UInt8.toNat.inj (by omega)

theorem atRest (hrun : Run (system producerCount consumerCount) trace world)
    (hstuck : ((system producerCount consumerCount).restrict anyStep).Stuck world) :
    AtRest world := by
  have hsections := sections_return hrun
  constructor
  · intro p
    cases hp : world.producers p with
    | loop i =>
      refine ⟨i, rfl, ?_⟩
      by_cases hi : i < itemCount
      · right
        by_contra hne
        obtain ⟨slots, hslots⟩ := Nat.exists_eq_succ_of_ne_zero hne
        exact hstuck _ _ ⟨trivial, .waitEmpty hp hi hslots⟩
      · exact Or.inl (eq_itemCount ((counted hrun).producer hp) hi)
    | write i =>
      obtain ⟨rb, hok⟩ := hsections.1 p i hp
      exact absurd ⟨trivial, .write hp hok⟩ (hstuck _ _)
    | post i => exact absurd ⟨trivial, .postFilled hp⟩ (hstuck _ _)
  · intro c
    cases hc : world.consumers c with
    | loop i =>
      refine ⟨i, rfl, ?_⟩
      by_cases hi : i < itemCount
      · right
        by_contra hne
        obtain ⟨slots, hslots⟩ := Nat.exists_eq_succ_of_ne_zero hne
        exact hstuck _ _ ⟨trivial, .waitFilled hc hi hslots⟩
      · exact Or.inl (eq_itemCount ((counted hrun).consumer hc) hi)
    | read i =>
      obtain ⟨rb, val, hok⟩ := hsections.2 c i hc
      exact absurd ⟨trivial, .read hc hok⟩ (hstuck _ _)
    | post i => exact absurd ⟨trivial, .postEmpty hc⟩ (hstuck _ _)

namespace AtRest

/-- No token is in the hands of a thread. -/
theorem tokens (h : AtRest world) {unread : List Entry} (hbalanced : Balanced world unread) :
    world.emptySlots + world.filledSlots = bufferSize := by
  have hwriting : tally (fun _ => Producer.writing) world.producers = 0 := by
    refine tally_eq_zero fun p => ?_
    obtain ⟨i, hp, -⟩ := h.producer p
    simp only [hp, Producer.writing]
  have hposting : tally (fun _ => Producer.posting) world.producers = 0 := by
    refine tally_eq_zero fun p => ?_
    obtain ⟨i, hp, -⟩ := h.producer p
    simp only [hp, Producer.posting]
  have hreading : tally (fun _ => Consumer.reading) world.consumers = 0 := by
    refine tally_eq_zero fun c => ?_
    obtain ⟨i, hc, -⟩ := h.consumer c
    simp only [hc, Consumer.reading]
  have hreturning : tally (fun _ => Consumer.posting) world.consumers = 0 := by
    refine tally_eq_zero fun c => ?_
    obtain ⟨i, hc, -⟩ := h.consumer c
    simp only [hc, Consumer.posting]
  have hall := hbalanced.tokens
  omega

theorem posted_le (h : AtRest world) (hcounted : Counted world) (p : Fin producerCount) :
    (world.producers p).posted ≤ itemCount.toNat := by
  obtain ⟨i, hp, -⟩ := h.producer p
  have hrange : i.toNat ≤ itemCount.toNat := hcounted.producer hp
  simpa only [hp, Producer.posted] using hrange

theorem waited_le (h : AtRest world) (hcounted : Counted world) (c : Fin consumerCount) :
    (world.consumers c).waited ≤ itemCount.toNat := by
  obtain ⟨i, hc, -⟩ := h.consumer c
  have hrange : i.toNat ≤ itemCount.toNat := hcounted.consumer hc
  simpa only [hc, Consumer.waited] using hrange

/-- The producers have finished when all items are posted. -/
theorem producers_iff (h : AtRest world) (hcounted : Counted world) :
    (∀ p, world.producers p = .loop itemCount) ↔
      tally (fun _ => Producer.posted) world.producers = producerCount * itemCount.toNat := by
  have hfull := tally_eq_card_mul_iff (h.posted_le hcounted)
  rw [Fintype.card_fin] at hfull
  rw [hfull]
  refine forall_congr' fun p => ?_
  obtain ⟨i, hp, -⟩ := h.producer p
  rw [hp]
  constructor
  · intro heq
    rw [Producer.loop.inj heq, Producer.posted]
  · intro heq
    exact congrArg Producer.loop (UInt8.toNat.inj heq)

/-- The consumers have finished when they have waited for all their items. -/
theorem consumers_iff (h : AtRest world) (hcounted : Counted world) :
    (∀ c, world.consumers c = .loop itemCount) ↔
      tally (fun _ => Consumer.waited) world.consumers = consumerCount * itemCount.toNat := by
  have hfull := tally_eq_card_mul_iff (h.waited_le hcounted)
  rw [Fintype.card_fin] at hfull
  rw [hfull]
  refine forall_congr' fun c => ?_
  obtain ⟨i, hc, -⟩ := h.consumer c
  rw [hc]
  constructor
  · intro heq
    rw [Consumer.loop.inj heq, Consumer.waited]
  · intro heq
    exact congrArg Consumer.loop (UInt8.toNat.inj heq)

/-- Free cells that are left over are left over by producers that have finished. -/
theorem producers_of_emptySlots (h : AtRest world) (hempty : world.emptySlots ≠ 0)
    (p : Fin producerCount) : world.producers p = .loop itemCount := by
  obtain ⟨i, hp, rfl | hzero⟩ := h.producer p
  · exact hp
  · exact absurd hzero hempty

theorem consumers_of_filledSlots (h : AtRest world) (hfilled : world.filledSlots ≠ 0)
    (c : Fin consumerCount) : world.consumers c = .loop itemCount := by
  obtain ⟨i, hc, rfl | hzero⟩ := h.consumer c
  · exact hc
  · exact absurd hzero hfilled

/-- At rest the numbers of threads decide who has finished. -/
theorem finished_iff (h : AtRest world) (hcounted : Counted world) {unread : List Entry}
    (hbalanced : Balanced world unread) :
    Finished world ↔ consumerCount ≤ producerCount ∧ producerCount ≤ consumerCount + 1 := by
  have htokens : world.emptySlots + world.filledSlots = 10 := h.tokens hbalanced
  have hposted := hcounted.posted
  have hproducers := h.producers_iff hcounted
  have hconsumers := h.consumers_iff hcounted
  have hposted_le := tally_le (h.posted_le hcounted)
  have hwaited_le := tally_le (h.waited_le hcounted)
  rw [Fintype.card_fin, toNat_itemCount] at hposted_le hwaited_le
  rw [toNat_itemCount] at hproducers hconsumers
  have hempty : world.emptySlots ≠ 0 →
      tally (fun _ => Producer.posted) world.producers = producerCount * 10 :=
    fun hne => hproducers.mp (h.producers_of_emptySlots hne)
  have hfilled : world.filledSlots ≠ 0 →
      tally (fun _ => Consumer.waited) world.consumers = consumerCount * 10 :=
    fun hne => hconsumers.mp (h.consumers_of_filledSlots hne)
  rw [Finished, hproducers, hconsumers]
  omega

end AtRest

/-- The threads take three steps for an item. -/
theorem steps_le (hrun : Run (system producerCount consumerCount) trace world) :
    trace.length + world.left ≤ 30 * (producerCount + consumerCount) := by
  refine hrun.length_le (lowers_left anyStep) ?_
  rintro _ rfl
  have hproducer : (Producer.loop 0).left = 30 := rfl
  have hconsumer : (Consumer.loop 0).left = 30 := rfl
  rw [World.left, tally_const, tally_const, hproducer, hconsumer]
  omega

/-- **When the ring buffer never hangs.** Every run comes to rest, and no interleaving rests
with an unfinished thread exactly when there are as many producers as consumers, or one more. -/
theorem ring_never_hangs_iff (producerCount consumerCount : ℕ) :
    (∀ trace world, Run (system producerCount consumerCount) trace world →
        trace.length ≤ 30 * (producerCount + consumerCount)) ∧
      ((system producerCount consumerCount).NeverHangs anyStep Finished ↔
        consumerCount ≤ producerCount ∧ producerCount ≤ consumerCount + 1) := by
  constructor
  · intro trace world hrun
    exact Nat.le_of_add_right_le (steps_le hrun)
  · refine neverHangs_iff (lowers_left anyStep) rfl fun trace world hrun hstuck => ?_
    obtain ⟨unread, -, -, hbalanced⟩ := stored hrun
    exact (atRest hrun hstuck).finished_iff (counted hrun) hbalanced

end BareMetal.SharedRing
