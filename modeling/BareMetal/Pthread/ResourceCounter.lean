import BareMetal.CS.Progress
import BareMetal.CS.Tally

/-!
# The message counter of `pthread/resource_counter.c`

Producers post a semaphore once for every packet, and consumers wait on it before every packet.
Each thread has a number of packets of its own; a thread without a number returns at once. Here
there may be any number of both.

## Main results

* `counted` — no more packets are consumed than were extracted
* `messages_never_hang_iff` — when all consumers return
-/

namespace BareMetal.ResourceCounter

open CS Transition

variable {ι κ : Type*} [Fintype ι] [Fintype κ] [DecidableEq ι] [DecidableEq κ]
  {made : ι → Option UInt8} {wanted : κ → Option UInt8}

/-- The number of packets of a thread, from its argument. -/
def iterations (iter : Option UInt8) : UInt8 := iter.getD 0

/-- The value of the semaphore, and the loop variables of the threads. -/
structure World (ι κ : Type*) where
  tokens : ℕ
  producers : ι → UInt8
  consumers : κ → UInt8

/-- A packet, with the thread and its loop variable. -/
inductive Event (ι κ : Type*)
  | extracted (i : ι) (packet : UInt8)
  | consumed (k : κ) (packet : UInt8)
  deriving DecidableEq, Repr

/-- One pass of a loop of `gen_message` or `consume_message`. -/
inductive Step (made : ι → Option UInt8) (wanted : κ → Option UInt8) (world : World ι κ) :
    Event ι κ → World ι κ → Prop
  | genMessage {i : ι} {packet : UInt8} (hi : world.producers i = packet)
      (hloop : packet < iterations (made i)) :
      Step made wanted world (.extracted i packet)
        { world with
          tokens := world.tokens + 1
          producers := Function.update world.producers i (packet + 1) }
  | consumeMessage {k : κ} {packet : UInt8} (hk : world.consumers k = packet)
      (hloop : packet < iterations (wanted k)) (htoken : 0 < world.tokens) :
      Step made wanted world (.consumed k packet)
        { world with
          tokens := world.tokens - 1
          consumers := Function.update world.consumers k (packet + 1) }

/-- The threads on a new semaphore. -/
def system (made : ι → Option UInt8) (wanted : κ → Option UInt8) :
    System (World ι κ) (Event ι κ) where
  start world := world = ⟨0, fun _ => 0, fun _ => 0⟩
  step := Step made wanted

/-- All threads have left their loops. -/
def Finished (made : ι → Option UInt8) (wanted : κ → Option UInt8) (world : World ι κ) : Prop :=
  (∀ i, world.producers i = iterations (made i)) ∧ ∀ k, world.consumers k = iterations (wanted k)

/-- The packets that all threads of one kind are for. -/
def total {τ : Type*} [Fintype τ] (iter : τ → Option UInt8) : ℕ :=
  tally (fun _ (n : UInt8) => n.toNat) fun t => iterations (iter t)

/-- The packets that all threads of one kind have had so far. -/
def soFar {τ : Type*} [Fintype τ] (threads : τ → UInt8) : ℕ :=
  tally (fun _ (n : UInt8) => n.toNat) threads

variable {trace : Trace (World ι κ) (Event ι κ)} {world world' : World ι κ} {e : Event ι κ}

/-! ### One pass -/

/-- A loop variable below a bound does not wrap. -/
theorem toNat_succ {n m : UInt8} (h : n < m) : (n + 1).toNat = n.toNat + 1 := by
  have hlt : n.toNat < m.toNat := UInt8.lt_iff_toNat_lt.mp h
  have hmax := m.toNat_lt
  rw [UInt8.toNat_add, UInt8.toNat_one]
  omega

theorem soFar_zero {τ : Type*} [Fintype τ] : soFar (fun _ : τ => 0) = 0 :=
  tally_eq_zero fun _ => rfl

/-- One thread has a packet more. -/
theorem soFar_move {τ : Type*} [Fintype τ] [DecidableEq τ] {threads : τ → UInt8} {t : τ}
    {n m : UInt8} (ht : threads t = n) (h : n < m) :
    soFar (Function.update threads t (n + 1)) = soFar threads + 1 := by
  have hmove := tally_move (fun _ (n : UInt8) => n.toNat) ht (n + 1)
  rw [toNat_succ h] at hmove
  unfold soFar
  omega

/-- The tokens are the packets that were extracted and not consumed, and no loop variable is
past its bound. -/
structure Counted (made : ι → Option UInt8) (wanted : κ → Option UInt8) (world : World ι κ) :
    Prop where
  tokens : world.tokens + soFar world.consumers = soFar world.producers
  producer_le : ∀ i, world.producers i ≤ iterations (made i)
  consumer_le : ∀ k, world.consumers k ≤ iterations (wanted k)

/-- The next value of a loop variable is not past the bound either. -/
theorem succ_le {n m : UInt8} (h : n < m) : n + 1 ≤ m := by
  rw [UInt8.le_iff_toNat_le, toNat_succ h]
  exact UInt8.lt_iff_toNat_lt.mp h

theorem Counted.step (h : Counted made wanted world) (hstep : Step made wanted world e world') :
    Counted made wanted world' := by
  have htokens := h.tokens
  cases hstep with
  | genMessage hi hloop =>
    refine ⟨?_, ?_, h.consumer_le⟩
    · dsimp only
      rw [soFar_move hi hloop]
      omega
    · exact forall_move (P := fun i n => n ≤ iterations (made i)) h.producer_le _ (succ_le hloop)
  | consumeMessage hk hloop htoken =>
    refine ⟨?_, h.producer_le, ?_⟩
    · dsimp only
      rw [soFar_move hk hloop]
      omega
    · exact forall_move (P := fun k n => n ≤ iterations (wanted k)) h.consumer_le _
        (succ_le hloop)

/-- **Counting** holds throughout a run. -/
theorem counted (hrun : Run (system made wanted) trace world) : Counted made wanted world := by
  refine Run.invariant (I := fun _ world => Counted made wanted world) ?_ ?_ hrun
  · rintro world rfl
    refine ⟨?_, fun i => UInt8.zero_le, fun k => UInt8.zero_le⟩
    dsimp only
    rw [soFar_zero, soFar_zero]
  · exact fun _ _ _ _ h hstep => h.step hstep

/-! ### Rest -/

/-- The packets that are still to come. -/
def World.left (made : ι → Option UInt8) (wanted : κ → Option UInt8) (world : World ι κ) : ℕ :=
  total made + total wanted - (soFar world.producers + soFar world.consumers)

/-- What all threads of one kind have had is no more than what they are for. -/
theorem soFar_le {τ : Type*} [Fintype τ] {threads : τ → UInt8} {iter : τ → Option UInt8}
    (h : ∀ t, threads t ≤ iterations (iter t)) : soFar threads ≤ total iter :=
  Finset.sum_le_sum fun t _ => UInt8.le_iff_toNat_le.mp (h t)

/-- A kind of threads has had everything exactly when all of them have left their loops. -/
theorem soFar_eq_total_iff {τ : Type*} [Fintype τ] {threads : τ → UInt8} {iter : τ → Option UInt8}
    (h : ∀ t, threads t ≤ iterations (iter t)) :
    soFar threads = total iter ↔ ∀ t, threads t = iterations (iter t) := by
  unfold soFar total tally
  rw [Finset.sum_eq_sum_iff_of_le fun t _ => UInt8.le_iff_toNat_le.mp (h t)]
  constructor
  · exact fun heq t => UInt8.toNat_inj.mp (heq t (Finset.mem_univ t))
  · exact fun heq t _ => congrArg UInt8.toNat (heq t)

theorem lowers_left : (system made wanted).Lowers (fun _ => True) (World.left made wanted) := by
  intro trace world e world' hrun _ hstep
  -- what the threads have had by then is no more than what they are for
  have h' := (counted hrun).step hstep
  have hproducers := soFar_le h'.producer_le
  have hconsumers := soFar_le h'.consumer_le
  unfold World.left
  cases hstep with
  | genMessage hi hloop =>
    dsimp only at hproducers hconsumers ⊢
    rw [soFar_move hi hloop] at hproducers ⊢
    omega
  | consumeMessage hk hloop htoken =>
    dsimp only at hproducers hconsumers ⊢
    rw [soFar_move hk hloop] at hconsumers ⊢
    omega

/-- What a world at rest looks like: the producers have returned, and a consumer that has not
finds no token. -/
structure AtRest (made : ι → Option UInt8) (wanted : κ → Option UInt8) (world : World ι κ) :
    Prop where
  producers : ∀ i, world.producers i = iterations (made i)
  consumers : world.tokens = 0 ∨ ∀ k, world.consumers k = iterations (wanted k)

theorem Counted.atRest (h : Counted made wanted world)
    (hstuck : ((system made wanted).restrict fun _ => True).Stuck world) :
    AtRest made wanted world := by
  refine ⟨fun i => ?_, ?_⟩
  · by_contra hne
    have hlt := UInt8.lt_of_le_of_ne (h.producer_le i) hne
    exact hstuck.elim (.genMessage rfl hlt) trivial
  · by_contra hnot
    obtain ⟨htokens, hconsumers⟩ := not_or.mp hnot
    obtain ⟨k, hk⟩ := not_forall.mp hconsumers
    have hlt := UInt8.lt_of_le_of_ne (h.consumer_le k) hk
    exact hstuck.elim (.consumeMessage rfl hlt (Nat.pos_of_ne_zero htokens)) trivial

omit [DecidableEq ι] [DecidableEq κ] in
/-- At rest it is known how many packets were consumed. -/
theorem AtRest.soFar_eq (h : AtRest made wanted world) (hcounted : Counted made wanted world) :
    soFar world.consumers = min (total made) (total wanted) := by
  have hproducers := (soFar_eq_total_iff hcounted.producer_le).mpr h.producers
  have hconsumers := soFar_le hcounted.consumer_le
  have htokens := hcounted.tokens
  rcases h.consumers with hzero | hall
  · omega
  · have hfull := (soFar_eq_total_iff hcounted.consumer_le).mpr hall
    omega

omit [DecidableEq ι] [DecidableEq κ] in
theorem AtRest.finished_iff (h : AtRest made wanted world) (hcounted : Counted made wanted world) :
    Finished made wanted world ↔ total wanted ≤ total made := by
  have hsoFar := h.soFar_eq hcounted
  have hfull := soFar_eq_total_iff hcounted.consumer_le
  constructor
  · rintro ⟨-, hconsumers⟩
    have heq := hfull.mpr hconsumers
    omega
  · intro hle
    exact ⟨h.producers, hfull.mp (by omega)⟩

/-- **When the consumers never hang.** At any time no more packets were consumed than extracted.
The threads come to rest, as many packets are consumed then as were both made and wanted, and no
interleaving ends with a consumer that waits exactly when no more packets are wanted than made. -/
theorem messages_never_hang_iff (made : ι → Option UInt8) (wanted : κ → Option UInt8) :
    (∀ trace world, Run (system made wanted) trace world →
        soFar world.consumers ≤ soFar world.producers) ∧
      (system made wanted).Lowers (fun _ => True) (World.left made wanted) ∧
      (system made wanted).NeverHangs (fun _ => True)
        (fun world => soFar world.consumers = min (total made) (total wanted)) ∧
      ((system made wanted).NeverHangs (fun _ => True) (Finished made wanted) ↔
        total wanted ≤ total made) := by
  refine ⟨fun trace world hrun => ?_, lowers_left, fun trace world hrun hstuck => ?_, ?_⟩
  · have htokens := (counted hrun).tokens
    omega
  · exact ((counted hrun).atRest hstuck).soFar_eq (counted hrun)
  · refine neverHangs_iff lowers_left rfl fun trace world hrun hstuck => ?_
    exact ((counted hrun).atRest hstuck).finished_iff (counted hrun)

end BareMetal.ResourceCounter
