import BareMetal.CS.Progress
import BareMetal.CS.Tally
import BareMetal.Multithreading.BoundedBuffer

/-!
# When the threads of `multithreading/bounded_buffer.c` finish

Each encoder and each decoder passes once. A signal wakes one sleeper, so the signals that are
still to come and the threads that are awake have to be enough for the room, or for the
packets, that the sleepers wait for. A sleeper that wakes by itself is not counted on.

## Main results

* `Awaited.step` — nobody sleeps for something that nobody will signal
* `packets_never_hang_iff` — no interleaving hangs exactly when there are no more decoders than
  encoders and no more than `QUEUE_SIZE` encoders without a decoder
-/

namespace BareMetal.BoundedBuffer

open CS Transition

variable {encoderCount decoderCount : ℕ} {world world' : World encoderCount decoderCount}
  {e : Event encoderCount decoderCount}
  {trace : Trace (World encoderCount decoderCount) (Event encoderCount decoderCount)}

/-- The steps that a thread takes without luck. -/
def Driven : Event encoderCount decoderCount → Prop
  | .wakeEncoder _ | .wakeDecoder _ => False
  | _ => True

/-- All threads have returned. -/
def Finished (world : World encoderCount decoderCount) : Prop :=
  (∀ p, world.encoders p = .finished) ∧ ∀ c, world.decoders c = .finished

/-! ### Counting positions -/

section Positions

variable {n : ℕ} {threads : Fin n → Position} {i : Fin n} {k : Position}

/-- Every thread is at one of the four positions. -/
theorem countAt_add (threads : Fin n → Position) :
    countAt .start threads + countAt .asleep threads + countAt .signal threads +
      countAt .finished threads = n := by
  unfold countAt
  rw [← tally_add, ← tally_add, ← tally_add]
  have hone (k : Position) : (if k = .start then 1 else 0) + (if k = .asleep then 1 else 0) +
      (if k = .signal then 1 else 0) + (if k = .finished then 1 else 0) = 1 := by
    cases k <;> rfl
  refine (tally_eq_card_mul fun i => hone (threads i)).trans ?_
  rw [Fintype.card_fin, Nat.mul_one]

/-- What a move from `k` to `k'` does to the four numbers. -/
theorem countAt_moves (hi : threads i = k) (k' : Position) :
    (countAt .start (Function.update threads i k') + (if k = .start then 1 else 0) =
        countAt .start threads + if k' = .start then 1 else 0) ∧
      (countAt .asleep (Function.update threads i k') + (if k = .asleep then 1 else 0) =
        countAt .asleep threads + if k' = .asleep then 1 else 0) ∧
      (countAt .signal (Function.update threads i k') + (if k = .signal then 1 else 0) =
        countAt .signal threads + if k' = .signal then 1 else 0) ∧
      countAt .finished (Function.update threads i k') + (if k = .finished then 1 else 0) =
        countAt .finished threads + if k' = .finished then 1 else 0 :=
  ⟨countAt_move hi k' _, countAt_move hi k' _, countAt_move hi k' _, countAt_move hi k' _⟩

/-- A signal moves a sleeper to the start, or there is none. -/
theorem countAt_signal {cv : CondVar Position} (hasleep : ∀ k, cv.asleep k = (k == .asleep))
    (hwoken : ∀ k, cv.woken k = .start) {choice : Option (Fin n)}
    (h : cv.CanSignal threads choice) :
    countAt .signal (cv.signal threads choice) = countAt .signal threads ∧
      countAt .finished (cv.signal threads choice) = countAt .finished threads ∧
      countAt .start (cv.signal threads choice) + countAt .asleep (cv.signal threads choice) =
        countAt .start threads + countAt .asleep threads ∧
      (countAt .asleep threads = countAt .asleep (cv.signal threads choice) + 1 ∨
        countAt .asleep threads = 0 ∧ countAt .asleep (cv.signal threads choice) = 0) := by
  cases choice with
  | none =>
    have hnone : countAt .asleep threads = 0 := by
      refine countAt_eq_zero_iff.mpr fun i hi => ?_
      have hi' := h i
      simp [hasleep, hi] at hi'
    exact ⟨rfl, rfl, rfl, Or.inr ⟨hnone, hnone⟩⟩
  | some i =>
    have hi : threads i = .asleep := by simpa [CondVar.CanSignal, hasleep] using h
    have hmoves := countAt_moves hi .start
    rw [CondVar.signal, hwoken]
    simp only [reduceCtorEq, if_true, if_false] at hmoves
    omega

end Positions

/-! ### Sleepers and those who will wake them -/

/-- The packets in the queue. -/
def World.waiting (world : World encoderCount decoderCount) : ℕ := world.queue.count.toNat

/-- What was encoded is in the queue or was decoded, and nobody sleeps for room or for packets
that nobody will signal. -/
structure Awaited (world : World encoderCount decoderCount) : Prop where
  encoded : countAt .signal world.encoders + countAt .finished world.encoders =
    world.waiting + countAt .signal world.decoders + countAt .finished world.decoders
  encoder : 0 < countAt .asleep world.encoders →
    queueSize ≤ world.waiting + countAt .signal world.decoders + countAt .start world.encoders
  decoder : 0 < countAt .asleep world.decoders →
    world.waiting ≤ countAt .signal world.encoders + countAt .start world.decoders

theorem count_encode (hrun : Run (system encoderCount decoderCount) trace world)
    (hcount : world.queue.count.toNat ≠ queueSize) {packet packet' : UInt8} {queue : Queue}
    (hcall : encodeSection world.queue packet = .ok (packet', queue)) :
    queue.count.toNat = world.waiting + 1 := by
  obtain ⟨waiting, -, hrep, -⟩ := stored hrun
  obtain ⟨queue', hok, -, -, hrep'⟩ := hrep.encode hcount packet
  cases hcall.symm.trans hok
  rw [hrep'.count_eq, World.waiting, hrep.count_eq, List.length_append, List.length_singleton]

theorem count_decode (hrun : Run (system encoderCount decoderCount) trace world)
    (hcount : world.queue.count.toNat ≠ 0) {val : UInt8} {queue : Queue}
    (hcall : decodeSection world.queue = .ok (val, queue)) :
    queue.count.toNat + 1 = world.waiting := by
  obtain ⟨waiting, -, hrep, -⟩ := stored hrun
  cases waiting with
  | nil => exact absurd hrep.count_eq hcount
  | cons packet waiting =>
    obtain ⟨queue', hok, -, hrep'⟩ := hrep.decode
    cases hcall.symm.trans hok
    rw [hrep'.count_eq, World.waiting, hrep.count_eq, List.length_cons]

theorem Awaited.step (h : Awaited world)
    (hrun : Run (system encoderCount decoderCount) trace world) (hstep : Step world e world') :
    Awaited world' := by
  have hencoded := h.encoded
  have hencoder := h.encoder
  have hdecoder := h.decoder
  cases hstep with
  | sleepEncoder hp hfull =>
    have hmoves := countAt_moves hp .asleep
    have hwaiting : world.waiting = queueSize := hfull
    simp only [reduceCtorEq, if_true, if_false] at hmoves
    constructor <;> simp only [World.waiting] at * <;> omega
  | @encode p packet queue hp hcount hcall =>
    have hmoves := countAt_moves hp .signal
    have hwaiting := count_encode hrun hcount hcall
    simp only [reduceCtorEq, if_true, if_false] at hmoves
    constructor <;> simp only [World.waiting] at * <;> omega
  | signalNotEmpty hp hsignal =>
    have hmoves := countAt_moves hp .finished
    have hwoken := countAt_signal (fun _ => rfl) (fun _ => rfl) hsignal
    simp only [reduceCtorEq, if_true, if_false] at hmoves
    constructor <;> simp only [World.waiting] at * <;> omega
  | wakeEncoder hp =>
    have hmoves := countAt_moves hp .start
    simp only [reduceCtorEq, if_true, if_false] at hmoves
    constructor <;> simp only [World.waiting] at * <;> omega
  | sleepDecoder hc hempty =>
    have hmoves := countAt_moves hc .asleep
    have hwaiting : world.waiting = 0 := hempty
    simp only [reduceCtorEq, if_true, if_false] at hmoves
    constructor <;> simp only [World.waiting] at * <;> omega
  | decode hc hcount hcall =>
    have hmoves := countAt_moves hc .signal
    have hwaiting := count_decode hrun hcount hcall
    simp only [reduceCtorEq, if_true, if_false] at hmoves
    constructor <;> simp only [World.waiting] at * <;> omega
  | signalNotFull hc hsignal =>
    have hmoves := countAt_moves hc .finished
    have hwoken := countAt_signal (fun _ => rfl) (fun _ => rfl) hsignal
    simp only [reduceCtorEq, if_true, if_false] at hmoves
    constructor <;> simp only [World.waiting] at * <;> omega
  | wakeDecoder hc =>
    have hmoves := countAt_moves hc .start
    simp only [reduceCtorEq, if_true, if_false] at hmoves
    constructor <;> simp only [World.waiting] at * <;> omega

theorem awaited (hrun : Run (system encoderCount decoderCount) trace world) : Awaited world := by
  refine hrun.keeps (C := fun _ _ => True) ?_ (fun _ _ _ _ hrun h _ hstep => h.step hrun hstep)
    fun _ _ _ => trivial
  rintro _ ⟨packages, rfl⟩
  have hempty : initQueue.count.toNat = 0 := rfl
  constructor <;> simp [countAt_const, World.waiting, hempty]

/-! ### Runs that are at rest -/

/-- What a thread has before it: a signal may bring a sleeper back to the start. -/
def Position.left : Position → ℕ
  | .start => 4
  | .asleep => 3
  | .signal => 2
  | .finished => 0

def World.left (world : World encoderCount decoderCount) : ℕ :=
  tally (fun _ => Position.left) world.encoders + tally (fun _ => Position.left) world.decoders

/-- A signal wakes one sleeper at most. -/
theorem left_signal {n : ℕ} {threads : Fin n → Position} {cv : CondVar Position}
    (hasleep : ∀ k, cv.asleep k = (k == .asleep)) (hwoken : ∀ k, cv.woken k = .start)
    {choice : Option (Fin n)} (h : cv.CanSignal threads choice) :
    tally (fun _ => Position.left) (cv.signal threads choice) ≤
      tally (fun _ => Position.left) threads + 1 := by
  cases choice with
  | none => exact Nat.le_succ _
  | some i =>
    have hi : threads i = .asleep := by simpa [CondVar.CanSignal, hasleep] using h
    have hmove := tally_move (fun _ => Position.left) hi .start
    simp only [Position.left] at hmove
    rw [CondVar.signal, hwoken]
    omega

theorem lowers_left : (system encoderCount decoderCount).Lowers Driven World.left := by
  intro trace world e world' _ hdriven hstep
  unfold World.left
  cases hstep with
  | sleepEncoder hp =>
    have hmove := tally_move (fun _ => Position.left) hp .asleep
    simp only [Position.left] at hmove
    dsimp only
    omega
  | encode hp =>
    have hmove := tally_move (fun _ => Position.left) hp .signal
    simp only [Position.left] at hmove
    dsimp only
    omega
  | signalNotEmpty hp hsignal =>
    have hmove := tally_move (fun _ => Position.left) hp .finished
    have hwoken := left_signal (fun _ => rfl) (fun _ => rfl) hsignal
    simp only [Position.left] at hmove
    dsimp only
    omega
  | wakeEncoder => exact hdriven.elim
  | sleepDecoder hc =>
    have hmove := tally_move (fun _ => Position.left) hc .asleep
    simp only [Position.left] at hmove
    dsimp only
    omega
  | decode hc =>
    have hmove := tally_move (fun _ => Position.left) hc .signal
    simp only [Position.left] at hmove
    dsimp only
    omega
  | signalNotFull hc hsignal =>
    have hmove := tally_move (fun _ => Position.left) hc .finished
    have hwoken := left_signal (fun _ => rfl) (fun _ => rfl) hsignal
    simp only [Position.left] at hmove
    dsimp only
    omega
  | wakeDecoder => exact hdriven.elim

/-- A thread at rest sleeps or has returned. -/
structure AtRest (world : World encoderCount decoderCount) : Prop where
  encoders_start : countAt .start world.encoders = 0
  encoders_signal : countAt .signal world.encoders = 0
  decoders_start : countAt .start world.decoders = 0
  decoders_signal : countAt .signal world.decoders = 0

theorem atRest (hrun : Run (system encoderCount decoderCount) trace world)
    (hstuck : ((system encoderCount decoderCount).restrict Driven).Stuck world) : AtRest world := by
  obtain ⟨hencode, hdecode⟩ := sections_return hrun
  constructor
  · refine countAt_eq_zero_iff.mpr fun p hp => ?_
    by_cases hfull : world.queue.count.toNat = queueSize
    · exact hstuck.elim (.sleepEncoder hp hfull) trivial
    · obtain ⟨queue, hok⟩ := hencode hfull (world.packages p)
      exact hstuck.elim (.encode hp hfull hok) trivial
  · refine countAt_eq_zero_iff.mpr fun p hp => ?_
    obtain ⟨choice, hsignal⟩ := notEmpty.exists_canSignal world.decoders
    exact hstuck.elim (.signalNotEmpty hp hsignal) trivial
  · refine countAt_eq_zero_iff.mpr fun c hc => ?_
    by_cases hempty : world.queue.count.toNat = 0
    · exact hstuck.elim (.sleepDecoder hc hempty) trivial
    · obtain ⟨queue, hok⟩ := hdecode hempty
      exact hstuck.elim (.decode hc hempty hok) trivial
  · refine countAt_eq_zero_iff.mpr fun c hc => ?_
    obtain ⟨choice, hsignal⟩ := notFull.exists_canSignal world.encoders
    exact hstuck.elim (.signalNotFull hc hsignal) trivial

/-- At rest the numbers of threads decide whether somebody sleeps. -/
theorem AtRest.finished_iff (h : AtRest world) (hawaited : Awaited world)
    (hle : world.waiting ≤ queueSize) :
    Finished world ↔ decoderCount ≤ encoderCount ∧ encoderCount ≤ decoderCount + queueSize := by
  have hencoders : countAt .finished world.encoders = Fintype.card (Fin encoderCount) ↔
      ∀ p, world.encoders p = .finished := countAt_eq_card_iff
  have hdecoders : countAt .finished world.decoders = Fintype.card (Fin decoderCount) ↔
      ∀ c, world.decoders c = .finished := countAt_eq_card_iff
  rw [Fintype.card_fin] at hencoders hdecoders
  have hencoder_add := countAt_add world.encoders
  have hdecoder_add := countAt_add world.decoders
  have hencoded := hawaited.encoded
  have hencoder := hawaited.encoder
  have hdecoder := hawaited.decoder
  have hstart := h.encoders_start
  have hsignal := h.encoders_signal
  have hstart' := h.decoders_start
  have hsignal' := h.decoders_signal
  have hsize : queueSize = 132 := rfl
  rw [Finished, ← hencoders, ← hdecoders]
  -- an encoder that sleeps has found the queue full, a decoder has found it empty
  omega

/-- **When the packet queue never hangs**, if a sleeper wakes only when it is signalled: no
interleaving comes to rest with an unfinished thread exactly when there are no more decoders
than encoders, and the queue holds the packets of the encoders that are left over. -/
theorem packets_never_hang_iff (encoderCount decoderCount : ℕ) :
    (system encoderCount decoderCount).NeverHangs Driven Finished ↔
      decoderCount ≤ encoderCount ∧ encoderCount ≤ decoderCount + queueSize := by
  refine neverHangs_iff lowers_left ⟨fun _ => 0, rfl⟩ fun trace world hrun hstuck => ?_
  exact (atRest hrun hstuck).finished_iff (awaited hrun) (packets_fifo hrun).2.1

end BareMetal.BoundedBuffer
