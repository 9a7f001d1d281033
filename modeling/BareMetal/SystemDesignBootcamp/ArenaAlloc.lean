import BareMetal.CS.Block
import BareMetal.CS.Transition
import Mathlib.Data.Fin.VecNotation
import Mathlib.Data.Nat.Notation

/-!
# The pixel arena of `system-design-bootcamp/arena-alloc.c`

Threads copy their packets into an arena of `BLOCK` bytes. `add_packet` computes the
byte offset of its packet under "check for out of bound memory", but all it does when
the arena is full is to signal the reporting thread: it goes on to the write. The last
packet that fits is signalled like the first that does not.

A section between lock and unlock is one step. A write outside the buffer stops the program.

## Main results

* `addSection_of_lt`, `addSection_of_le` — the section of `add_packet` with and without room
* `inBounds_iff` — the writes of a run are in bounds exactly as long as it adds no more packets
  than the buffer has slots
-/

namespace BareMetal.PixelArena

open CS Transition

/-- `BLOCK`, the bytes of the buffer. -/
abbrev block : ℕ := 256

/-- `BLOCK_SIZE`, the bytes of a packet. -/
abbrev blockSize : ℕ := 16

/-- The packets that fit into the buffer. -/
abbrev slots : ℕ := block / blockSize

/-- `PixelPacket`. -/
structure PixelPacket where
  payload : Block 8 UInt8
  size : UInt32
  flag : UInt8
  padding : Block 3 UInt8

/-- `Arena`. -/
structure Arena where
  buffer : Block slots PixelPacket
  capacity : ℕ
  offset : ℕ

/-- `init`: `calloc` leaves zeros. -/
def init : Arena := ⟨fun _ => ⟨fun _ => 0, 0, 0, fun _ => 0⟩, block, 0⟩

/-- The locked section of `add_packet`: the arena, and whether it signals `cond`. -/
def addSection (arena : Arena) (packet : PixelPacket) : Outcome (Arena × Bool) := do
  let nextOffset := arena.offset * blockSize
  let signals := decide (arena.capacity ≤ nextOffset + blockSize)
  let buffer ← arena.buffer.store arena.offset packet
  .ok ({ arena with buffer := buffer, offset := arena.offset + 1 }, signals)

/-- Where a thread in `add_packet` stands: before its section, before its log line, or at
the end. -/
inductive Adder
  | start
  | log
  | finished
  deriving DecidableEq, Repr

/-- Where `report` stands: before the test of its loop, asleep in it, before line `i` of its
report, or at the end. -/
inductive Reporter
  | start
  | asleep
  | print (i : UInt8)
  | finished
  deriving DecidableEq, Repr

/-- A signal on `cond`. Only `report` can sleep there. -/
def signal : Reporter → Reporter
  | .asleep => .start
  | k => k

/-- The arena and its threads, and why the program was stopped if it was. -/
structure World (ι : Type*) where
  arena : Arena
  adders : ι → Adder
  reporter : Reporter
  stopped : Option Stop

/-- The steps of the threads. -/
inductive Event (ι : Type*)
  | add (i : ι)
  | log (i : ι) (offset : ℕ)
  | report
  | wake
  | value (payload : Block 8 UInt8)
  | finish

variable {ι : Type*} [DecidableEq ι]

/-- One step of the program. Thread `i` adds `packets i`. -/
inductive Step (packets : ι → PixelPacket) : World ι → Event ι → World ι → Prop
  | add {world : World ι} {i : ι} {arena : Arena} {signals : Bool} :
      world.adders i = .start → addSection world.arena (packets i) = .ok (arena, signals) →
      Step packets world (.add i)
        { world with
          arena := arena
          adders := Function.update world.adders i .log
          reporter := if signals then signal world.reporter else world.reporter }
  | addStops {world : World ι} {i : ι} {e : Stop} :
      world.adders i = .start → addSection world.arena (packets i) = .error e →
      Step packets world (.add i) { world with stopped := some e }
  -- the log line reads the offset without the lock
  | log {world : World ι} {i : ι} :
      world.adders i = .log →
      Step packets world (.log i world.arena.offset)
        { world with adders := Function.update world.adders i .finished }
  | reportWait {world : World ι} :
      world.reporter = .start → world.arena.offset ≠ blockSize →
      Step packets world .report { world with reporter := .asleep }
  | report {world : World ι} :
      world.reporter = .start → world.arena.offset = blockSize →
      Step packets world .report { world with reporter := .print 0 }
  | wake {world : World ι} :
      world.reporter = .asleep → Step packets world .wake { world with reporter := .start }
  | value {world : World ι} {i : UInt8} {packet : PixelPacket} :
      world.reporter = .print i → i.toNat < blockSize →
      world.arena.buffer.load i.toNat = .ok packet →
      Step packets world (.value packet.payload) { world with reporter := .print (i + 1) }
  | finish {world : World ι} {i : UInt8} :
      world.reporter = .print i → blockSize ≤ i.toNat →
      Step packets world .finish { world with reporter := .finished }

/-- Any number of threads that add a packet, and the one that reports. -/
def system (packets : ι → PixelPacket) : System (World ι) (Event ι) where
  start world := world = ⟨init, fun _ => .start, .start, none⟩
  step world e world' := world.stopped = none ∧ Step packets world e world'

/-- Whether an event is a call's section of `add_packet`. -/
def Event.isAdd : Event ι → Bool
  | .add _ => true
  | _ => false

/-- The sections of `add_packet` among `es`. -/
def adds (es : List (Event ι)) : ℕ := es.countP Event.isAdd

variable {packets : ι → PixelPacket} {world world' : World ι} {e : Event ι} {es : List (Event ι)}
  {trace : Trace (World ι) (Event ι)} {arena : Arena} {packet : PixelPacket} {k : ℕ}

omit [DecidableEq ι] in
theorem adds_concat (es : List (Event ι)) (e : Event ι) :
    adds (es ++ [e]) = adds es + if e.isAdd then 1 else 0 := by
  simp [adds, List.countP_append, List.countP_singleton]

omit [DecidableEq ι] in
theorem adds_le_of_prefix {es' : List (Event ι)} (h : es <+: es') : adds es ≤ adds es' :=
  h.sublist.countP_le

/-! ### The section -/

/-- A packet that fits is written to the next slot. -/
theorem addSection_of_lt (hroom : arena.offset < slots) (packet : PixelPacket) :
    addSection arena packet =
      .ok ({ arena with
          buffer := Function.update arena.buffer ⟨arena.offset, hroom⟩ packet
          offset := arena.offset + 1 },
        decide (arena.capacity ≤ arena.offset * blockSize + blockSize)) := by
  have hstore : arena.buffer.store arena.offset packet =
      .ok (Function.update arena.buffer ⟨arena.offset, hroom⟩ packet) :=
    Block.store_natCast arena.buffer ⟨arena.offset, hroom⟩ packet
  rw [addSection, hstore, Outcome.ok_bind]

/-- On a full arena the write leaves the buffer. -/
theorem addSection_of_le (hfull : slots ≤ arena.offset) (packet : PixelPacket) :
    addSection arena packet = .error (.outOfBounds arena.offset) := by
  have hstore : arena.buffer.store arena.offset packet = .error (.outOfBounds arena.offset) := by
    unfold Block.store
    rw [dif_neg]
    omega
  rw [addSection, hstore, Outcome.error_bind]

/-! ### What every run keeps -/

/-- The offset counts the packets, and a program that was stopped had too many of them. -/
structure Counted (es : List (Event ι)) (world : World ι) : Prop where
  capacity_eq : world.arena.capacity = block
  running : world.stopped = none → world.arena.offset = adds es ∧ adds es ≤ slots
  stopped : world.stopped ≠ none → slots < adds es

omit [DecidableEq ι] in
/-- A step that adds nothing. -/
theorem Counted.keep (h : Counted es world) (harena : world'.arena = world.arena)
    (hstopped : world'.stopped = world.stopped) (he : e.isAdd = false) :
    Counted (es ++ [e]) world' := by
  have hadds : adds (es ++ [e]) = adds es := by simp [adds_concat, he]
  constructor
  · rw [harena]
    exact h.capacity_eq
  · rw [harena, hstopped, hadds]
    exact h.running
  · rw [hstopped, hadds]
    exact h.stopped

theorem Counted.step (h : Counted es world) (hstep : (system packets).step world e world') :
    Counted (es ++ [e]) world' := by
  obtain ⟨hrunning, hstep⟩ := hstep
  obtain ⟨hoffset, hle⟩ := h.running hrunning
  cases hstep with
  | @add i _ _ _ hcall =>
    have hadds : adds (es ++ [.add i]) = adds es + 1 := adds_concat es (.add i)
    rcases Nat.lt_or_ge world.arena.offset slots with hroom | hfull
    · rw [addSection_of_lt hroom] at hcall
      cases hcall
      refine ⟨h.capacity_eq, fun _ => ⟨?_, ?_⟩, fun hne => absurd hrunning hne⟩
      · dsimp only
        omega
      · omega
    · rw [addSection_of_le hfull] at hcall
      cases hcall
  | @addStops i _ _ hcall =>
    have hadds : adds (es ++ [.add i]) = adds es + 1 := adds_concat es (.add i)
    -- the write fails on a full arena only
    have hfull : ¬ world.arena.offset < slots := by
      intro hroom
      rw [addSection_of_lt hroom] at hcall
      cases hcall
    refine ⟨h.capacity_eq, nofun, fun _ => ?_⟩
    omega
  | log | reportWait | report | wake | value | finish => exact h.keep rfl rfl rfl

theorem counted (hrun : Run (system packets) trace world) : Counted (events trace) world := by
  refine hrun.invariant (I := Counted) ?_ fun _ _ _ _ h hstep => h.step hstep
  rintro _ rfl
  exact ⟨rfl, fun _ => ⟨rfl, Nat.zero_le _⟩, fun hne => absurd rfl hne⟩

/-! ### Overflow -/

/-- The arena has not overflown: every write was to one of the slots of the buffer, the offset
does not exceed their number, and the program runs. -/
structure InBounds (trace : Trace (World ι) (Event ι)) (world : World ι) : Prop where
  writes : ∀ v i, (v, .add i) ∈ trace → v.arena.offset < v.arena.capacity / blockSize
  offset_le : world.arena.offset ≤ world.arena.capacity / blockSize
  running : world.stopped = none

/-- **When the arena overflows.** In every run and at each of its stages, the arena has not
overflown exactly when at most as many packets were added as it has slots. -/
theorem inBounds_iff (hrun : Run (system packets) trace world) :
    InBounds trace world ↔ adds (events trace) ≤ block / blockSize := by
  have hcounted := counted hrun
  constructor
  · intro h
    exact (hcounted.running h.running).2
  · intro hfew
    have hrunning : world.stopped = none := by
      by_contra hne
      exact absurd (hcounted.stopped hne) (Nat.not_lt.mpr hfew)
    refine ⟨fun v i hmem => ?_, ?_, hrunning⟩
    · -- the write is the next one after those before it
      obtain ⟨pre, v', hpre, hstep, hstage⟩ := hrun.next_stage hmem
      have hadds := adds_le_of_prefix (hstage.isPrefix.map Prod.snd)
      rw [List.map_append, List.map_singleton, adds_concat] at hadds
      have hbefore := counted hpre
      rw [hbefore.capacity_eq, (hbefore.running hstep.1).1]
      exact Nat.lt_of_lt_of_le (Nat.lt_of_succ_le hadds) hfew
    · rw [hcounted.capacity_eq, (hcounted.running hrunning).1]
      exact hfew

/-- A packet of `main`. -/
def samplePacket : PixelPacket := ⟨![80, 97, 121, 108, 111, 97, 100, 0], 4, 0x0F, fun _ => 0⟩

/-- A run of one thread more than there are slots, as long as there is room. -/
theorem exists_run (hk : k ≤ slots) :
    ∃ trace world, Run (system fun _ : Fin (slots + 1) => samplePacket) trace world ∧
      adds (events trace) = k ∧ world.stopped = none ∧ world.arena.offset = k ∧
      ∀ i : Fin (slots + 1), k ≤ i → world.adders i = .start := by
  induction k with
  | zero => exact ⟨[], _, .start rfl, rfl, rfl, rfl, fun _ _ => rfl⟩
  | succ k ih =>
    obtain ⟨trace, world, hrun, hadds, hrunning, hoffset, hwaiting⟩ := ih (by omega)
    have hroom : world.arena.offset < slots := by omega
    let i : Fin (slots + 1) := ⟨k, by omega⟩
    have hstep := hrun.step ⟨hrunning, .add (hwaiting i (Nat.le_refl k)) (addSection_of_lt hroom _)⟩
    refine ⟨_, _, hstep, ?_, hrunning, by simp [hoffset], fun j hj => ?_⟩
    · rw [events_concat, adds_concat, hadds]
      rfl
    · have hne : j ≠ i := by
        rintro rfl
        exact absurd hj (Nat.not_succ_le_self k)
      dsimp only
      rw [Function.update_of_ne hne]
      exact hwaiting j (by omega)

/-- The sixteen packets of `main` fit. -/
theorem inBounds_sixteen : ∃ trace world,
    Run (system fun _ : Fin (slots + 1) => samplePacket) trace world ∧
      adds (events trace) = 16 ∧ InBounds trace world := by
  obtain ⟨trace, world, hrun, hadds, -⟩ := exists_run (Nat.le_refl slots)
  exact ⟨trace, world, hrun, hadds, (inBounds_iff hrun).mpr (Nat.le_of_eq hadds)⟩

/-- The seventeenth packet is written behind the buffer. -/
theorem seventeenth_overflows : ∃ trace world,
    Run (system fun _ : Fin (slots + 1) => samplePacket) trace world ∧
      adds (events trace) = 17 ∧ world.stopped = some (.outOfBounds 16) ∧
      ¬ InBounds trace world := by
  obtain ⟨trace, world, hrun, hadds, hrunning, hoffset, hwaiting⟩ := exists_run (Nat.le_refl slots)
  let i : Fin (slots + 1) := ⟨slots, by omega⟩
  have hcall := addSection_of_le (Nat.le_of_eq hoffset.symm) samplePacket
  have hstep := hrun.step ⟨hrunning, .addStops (hwaiting i (Nat.le_refl slots)) hcall⟩
  refine ⟨_, _, hstep, ?_, ?_, fun h => ?_⟩
  · rw [events_concat, adds_concat, hadds]
    rfl
  · dsimp only
    rw [hoffset]
    rfl
  · cases h.running

end BareMetal.PixelArena
