import BareMetal.CS.Block
import BareMetal.CS.Loop
import BareMetal.CS.Tally
import BareMetal.CS.Transition

/-!
# The arena of `custom_arena.c`

`capacity + 1` adders fill an arena of `capacity` bytes; the one that finds it full
raises `is_full`. The printer waits for that flag, prints the bytes and raises
`can_reset`, and the destroyer waits for that one and frees the arena. A section
between lock and unlock, or the wait that gives up the lock, is one step, and a
sleeper may also wake without a signal.

After the arena is freed, a thread that still enters its section would access freed
memory. Such a step is part of the model: `Event.dangling`.

## Main results

* `Stored.printBuffer` — what the print loop prints when the size fits in its index
* `arena_safe` — the printer finds the full arena, the arena is freed after that, and
  nobody accesses it afterwards
* `print_returns` — the print loop ends
-/

namespace BareMetal.CustomArena

open CS Transition

variable {capacity : ℕ}

/-- `Arena` of a given capacity. The `size_t` counters stay below `capacity`. -/
structure Arena (capacity : ℕ) where
  buffer : Block capacity UInt8
  offset : ℕ
  size : ℕ
  isFull : Bool
  canReset : Bool

/-- `alloc`: `calloc` leaves zeros. -/
def alloc (capacity : ℕ) : Arena capacity where
  buffer := fun _ => 0
  offset := 0
  size := 0
  isFull := false
  canReset := false

/-! ### The locked sections -/

/-- `add`, and whether it signals `cond`. -/
def add (arena : Arena capacity) (val : UInt8) : Outcome (Arena capacity × Bool) :=
  if arena.size + 1 > capacity then .ok ({ arena with isFull := true }, true)
  else do
    let buffer ← arena.buffer.store arena.offset val
    .ok ({ arena with
      buffer := buffer, size := arena.size + 1, offset := arena.offset + 1 }, false)

/-- The section of `worker_add`. -/
def workerAdd (arena : Arena capacity) : Outcome (Arena capacity × Bool) :=
  add arena (UInt8.ofNat (arena.size + 2))

/-- What `print_buffer` prints for one index. -/
abbrev Line := UInt8 × UInt8

/-- One pass of the loop of `print_buffer`: the 8-bit index and the lines so far. -/
def printPass (arena : Arena capacity) :
    UInt8 × List Line → Outcome (Pass (UInt8 × List Line) (List Line))
  | (i, lines) =>
    if i.toNat < arena.size then do
      let value ← arena.buffer.load i.toNat
      .ok (.again (i + 1, lines ++ [(i, value)]))
    else .ok (.leave lines)

/-- `print_buffer`, with the lines it prints. -/
def printBuffer (fuel : ℕ) (arena : Arena capacity) : Outcome (Arena capacity × List Line) := do
  let lines ← loop (printPass arena) fuel (0, [])
  .ok ({ arena with canReset := true }, lines)

/-! ### The interleavings -/

/-- Where a thread stands: before its section, asleep on its condition, or done. -/
inductive Position
  | ready
  | asleep
  | finished
  deriving DecidableEq, Repr

/-- A signal for the only thread that waits on a condition. -/
def Position.signalled : Position → Position
  | .asleep => .ready
  | k => k

/-- The threads of `main`. -/
inductive Thread (capacity : ℕ)
  | adder (i : Fin (capacity + 1))
  | printer
  | destroyer
  deriving DecidableEq, Repr

/-- The arena, unless it was freed, and the threads. -/
structure World (capacity : ℕ) where
  arena : Option (Arena capacity)
  adders : Fin (capacity + 1) → Position
  printer : Position
  destroyer : Position

/-- Where a thread stands. -/
def World.position (world : World capacity) : Thread capacity → Position
  | .adder i => world.adders i
  | .printer => world.printer
  | .destroyer => world.destroyer

/-- The steps of the threads. -/
inductive Event (capacity : ℕ)
  | add (i : Fin (capacity + 1))
  | printWait
  | print (lines : List Line)
  | resetWait
  | free
  /-- A section is entered after the arena was freed. -/
  | dangling (thread : Thread capacity)
  | spuriousPrinter
  | spuriousDestroyer
  deriving DecidableEq, Repr

/-- One step of the program. -/
inductive Step : World capacity → Event capacity → World capacity → Prop
  | add {world : World capacity} {arena arena' : Arena capacity} {i : Fin (capacity + 1)}
      {signal : Bool} :
      world.arena = some arena → world.adders i = .ready →
      workerAdd arena = .ok (arena', signal) →
      Step world (.add i)
        { world with
          arena := some arena'
          adders := Function.update world.adders i .finished
          printer := if signal then world.printer.signalled else world.printer }
  | printWait {world : World capacity} {arena : Arena capacity} :
      world.arena = some arena → world.printer = .ready → arena.isFull = false →
      Step world .printWait { world with printer := .asleep }
  -- the flag is tested again after every wake-up
  | print {world : World capacity} {arena arena' : Arena capacity} {fuel : ℕ}
      {lines : List Line} :
      world.arena = some arena → world.printer = .ready → arena.isFull = true →
      printBuffer fuel arena = .ok (arena', lines) →
      Step world (.print lines)
        { world with
          arena := some arena', printer := .finished, destroyer := world.destroyer.signalled }
  | resetWait {world : World capacity} {arena : Arena capacity} :
      world.arena = some arena → world.destroyer = .ready → arena.canReset = false →
      Step world .resetWait { world with destroyer := .asleep }
  -- `free` of the buffer and of the arena
  | free {world : World capacity} {arena : Arena capacity} :
      world.arena = some arena → world.destroyer = .ready → arena.canReset = true →
      Step world .free { world with arena := none, destroyer := .finished }
  | dangling {world : World capacity} {thread : Thread capacity} :
      world.arena = none → world.position thread = .ready →
      Step world (.dangling thread) world
  | spuriousPrinter {world : World capacity} :
      world.printer = .asleep → Step world .spuriousPrinter { world with printer := .ready }
  | spuriousDestroyer {world : World capacity} :
      world.destroyer = .asleep → Step world .spuriousDestroyer { world with destroyer := .ready }

/-- The threads of `main`, for an arena of any capacity. -/
def system (capacity : ℕ) : System (World capacity) (Event capacity) where
  start world := world = ⟨some (alloc capacity), fun _ => .ready, .ready, .ready⟩
  step := Step

/-! ### What the sections do -/

variable {arena arena' : Arena capacity} {signal : Bool} {lines : List Line} {values : List UInt8}

/-- The arena holds the values that were added. -/
structure Stored (arena : Arena capacity) (values : List UInt8) : Prop where
  size_eq : arena.size = values.length
  offset_eq : arena.offset = values.length
  length_le : values.length ≤ capacity
  buffer_eq : ∀ j : Fin capacity, (j : ℕ) < values.length → values[(j : ℕ)]? = some (arena.buffer j)

theorem stored_alloc (capacity : ℕ) : Stored (alloc capacity) [] where
  size_eq := rfl
  offset_eq := rfl
  length_le := Nat.zero_le _
  buffer_eq _ hj := absurd hj (Nat.not_lt_zero _)

/-- A value that finds room goes to the end. -/
theorem Stored.add (h : Stored arena values) (hroom : values.length < capacity) (val : UInt8) :
    ∃ arena', add arena val = .ok (arena', false) ∧ Stored arena' (values ++ [val]) ∧
      arena'.isFull = arena.isFull ∧ arena'.canReset = arena.canReset := by
  let k : Fin capacity := ⟨values.length, hroom⟩
  have hstore : arena.buffer.store arena.offset val =
      .ok (Function.update arena.buffer k val) := by
    rw [h.offset_eq]
    exact Block.store_natCast arena.buffer k _
  have hnot : ¬ arena.size + 1 > capacity := by
    rw [h.size_eq]
    omega
  have hlength : (values ++ [val]).length = values.length + 1 := List.length_append
  refine ⟨{ arena with
    buffer := Function.update arena.buffer k val
    size := arena.size + 1
    offset := arena.offset + 1 }, ?_, ?_, rfl, rfl⟩
  · rw [CustomArena.add, if_neg hnot, hstore, Outcome.ok_bind]
  · refine ⟨?_, ?_, hlength ▸ hroom, fun j hj => ?_⟩
    · rw [hlength, ← h.size_eq]
    · rw [hlength, ← h.offset_eq]
    · dsimp only
      rcases eq_or_ne j k with rfl | hne
      · rw [Function.update_self]
        exact List.getElem?_concat_length
      · have hold : (j : ℕ) < values.length := by
          have hval : (j : ℕ) ≠ values.length := fun heq => hne (Fin.ext heq)
          omega
        rw [List.getElem?_append_left hold, Function.update_of_ne hne, h.buffer_eq j hold]

/-- A value that finds none raises the flag. -/
theorem Stored.addFull (h : Stored arena values) (hfull : capacity ≤ values.length) (val : UInt8) :
    CustomArena.add arena val = .ok ({ arena with isFull := true }, true) := by
  rw [CustomArena.add, if_pos]
  rw [h.size_eq]
  exact Nat.lt_succ_of_le hfull

theorem Stored.withFull (h : Stored arena values) : Stored { arena with isFull := true } values :=
  ⟨h.size_eq, h.offset_eq, h.length_le, h.buffer_eq⟩

/-! ### The print loop -/

/-- The lines for the values that are stored. -/
def linesOf (values : List UInt8) : List Line := values.mapIdx fun i val => (UInt8.ofNat i, val)

theorem linesOf_concat (values : List UInt8) (val : UInt8) :
    linesOf (values ++ [val]) = linesOf values ++ [(UInt8.ofNat values.length, val)] :=
  List.mapIdx_concat

/-- A pass at an index of a value. -/
theorem Stored.printPass (h : Stored arena values) {i : UInt8} (hi : i.toNat < values.length)
    (lines : List Line) :
    ∃ val, values[i.toNat]? = some val ∧
      printPass arena (i, lines) = .ok (.again (i + 1, lines ++ [(i, val)])) := by
  let k : Fin capacity := ⟨i.toNat, hi.trans_le h.length_le⟩
  have hload : arena.buffer.load i.toNat = .ok (arena.buffer k) :=
    Block.load_natCast arena.buffer k
  refine ⟨arena.buffer k, h.buffer_eq k hi, ?_⟩
  rw [CustomArena.printPass, if_pos (h.size_eq ▸ hi), hload, Outcome.ok_bind]

/-- The 8-bit index reaches a size that fits in it, and the loop leaves there. -/
theorem Stored.printBuffer (h : Stored arena values) (hsize : values.length < 256) :
    Returns (fun fuel => printBuffer fuel arena)
      ({ arena with canReset := true }, linesOf values) := by
  -- `m` values are still to be printed, so the index has not wrapped around
  have hpass : ∀ (m : ℕ) (s : UInt8 × List Line),
      (s.1.toNat + m = values.length ∧ s.2 = linesOf (values.take s.1.toNat)) →
      (∃ k s', k < m ∧ CustomArena.printPass arena s = .ok (.again s') ∧
        s'.1.toNat + k = values.length ∧ s'.2 = linesOf (values.take s'.1.toNat)) ∨
      ∃ lines, CustomArena.printPass arena s = .ok (.leave lines) ∧ lines = linesOf values := by
    rintro m ⟨i, lines⟩ ⟨hm, hlines⟩
    dsimp only at hm hlines
    subst hlines
    rcases Nat.eq_zero_or_pos m with rfl | hpos
    · refine Or.inr ⟨_, if_neg ?_, ?_⟩
      · rw [h.size_eq]
        omega
      · rw [List.take_of_length_le (by omega)]
    · obtain ⟨val, hval, hagain⟩ := h.printPass (i := i) (by omega) (linesOf (values.take i.toNat))
      have hnext : (i + 1).toNat = i.toNat + 1 := by
        rw [UInt8.toNat_add]
        exact Nat.mod_eq_of_lt (show i.toNat + 1 < 2 ^ 8 by omega)
      have hlength : (values.take i.toNat).length = i.toNat := List.length_take_of_le (by omega)
      refine Or.inl ⟨m - 1, _, Nat.sub_lt hpos Nat.one_pos, hagain, ?_, ?_⟩
      · dsimp only
        omega
      · dsimp only
        rw [hnext, List.take_add_one, hval, Option.toList_some, linesOf_concat, hlength,
          UInt8.ofNat_toNat]
  obtain ⟨lines, hloop, rfl⟩ := Returns.exists_loop hpass (m := values.length) (s := (0, []))
    ⟨Nat.zero_add _, rfl⟩
  exact hloop.map fun lines => ({ arena with canReset := true }, lines)

/-! ### The arena of the adders -/

/-- The arena holds the values `2, 3, …` of its first `size` adders. -/
structure Filled (arena : Arena capacity) (size : ℕ) : Prop where
  size_eq : arena.size = size
  offset_eq : arena.offset = size
  size_le : size ≤ capacity
  buffer_eq : ∀ j : Fin capacity, (j : ℕ) < size → arena.buffer j = UInt8.ofNat (j + 2)

/-- The values of the first adders. -/
def firstValues (count : ℕ) : List UInt8 := (List.range count).map fun i => UInt8.ofNat (i + 2)

/-- The lines for the first `count` indices of a filled arena. -/
def firstLines (count : ℕ) : List Line :=
  (List.range count).map fun i => (UInt8.ofNat i, UInt8.ofNat (i + 2))

theorem length_firstValues (count : ℕ) : (firstValues count).length = count := by
  rw [firstValues, List.length_map, List.length_range]

theorem firstValues_succ (count : ℕ) :
    firstValues (count + 1) = firstValues count ++ [UInt8.ofNat (count + 2)] := by
  rw [firstValues, List.range_succ, List.map_append]
  rfl

theorem linesOf_firstValues (count : ℕ) : linesOf (firstValues count) = firstLines count := by
  induction count with
  | zero => rfl
  | succ count ih =>
    rw [firstValues_succ, linesOf_concat, ih, length_firstValues, firstLines, firstLines,
      List.range_succ, List.map_append]
    rfl

theorem filled_iff {size : ℕ} : Filled arena size ↔ Stored arena (firstValues size) := by
  have hlength := length_firstValues size
  have hget (j : Fin capacity) (hj : (j : ℕ) < size) :
      (firstValues size)[(j : ℕ)]? = some (UInt8.ofNat (j + 2)) := by
    rw [firstValues, List.getElem?_map, List.getElem?_range hj]
    rfl
  constructor
  · rintro ⟨hsize, hoffset, hle, hbuffer⟩
    refine ⟨hsize.trans hlength.symm, hoffset.trans hlength.symm, hlength.trans_le hle,
      fun j hj => ?_⟩
    rw [hlength] at hj
    rw [hget j hj, hbuffer j hj]
  · rintro ⟨hsize, hoffset, hle, hbuffer⟩
    rw [hlength] at hsize hoffset hle hbuffer
    refine ⟨hsize, hoffset, hle, fun j hj => ?_⟩
    have hcell := hbuffer j hj
    rw [hget j hj] at hcell
    exact (Option.some.inj hcell).symm

theorem filled_alloc (capacity : ℕ) : Filled (alloc capacity) 0 :=
  filled_iff.mpr (stored_alloc capacity)

/-- An adder that finds room puts its value at the end. -/
theorem Filled.add {size : ℕ} (h : Filled arena size) (hroom : size < capacity) :
    ∃ arena', workerAdd arena = .ok (arena', false) ∧ Filled arena' (size + 1) ∧
      arena'.isFull = arena.isFull ∧ arena'.canReset = arena.canReset := by
  have hroom' : (firstValues size).length < capacity := (length_firstValues size).trans_lt hroom
  obtain ⟨arena', hok, hstored, hflags⟩ := (filled_iff.mp h).add hroom' (UInt8.ofNat (size + 2))
  refine ⟨arena', ?_, ?_, hflags⟩
  · rw [workerAdd, h.size_eq, hok]
  · rw [filled_iff, firstValues_succ]
    exact hstored

/-- An adder that finds none raises the flag. -/
theorem Filled.addFull (h : Filled arena capacity) :
    workerAdd arena = .ok ({ arena with isFull := true }, true) :=
  (filled_iff.mp h).addFull (length_firstValues capacity).ge _

/-- Whatever the fuel, the loop prints the lines of the adders and nothing else. -/
theorem Filled.printBuffer {size : ℕ} (h : Filled arena size) (hsize : size < 256) :
    Returns (fun fuel => printBuffer fuel arena)
      ({ arena with canReset := true }, firstLines size) := by
  rw [← linesOf_firstValues]
  exact (filled_iff.mp h).printBuffer ((length_firstValues size).trans_lt hsize)

theorem Filled.lines_eq {size fuel : ℕ} (h : Filled arena size) (hsize : size < 256)
    (hprint : CustomArena.printBuffer fuel arena = .ok (arena', lines)) :
    arena' = { arena with canReset := true } ∧ lines = firstLines size :=
  Prod.mk.inj ((h.printBuffer hsize).eq_of_ok hprint)

/-! ### The life of the arena -/

variable {world world' : World capacity} {es : List (Event capacity)} {e : Event capacity}
  {trace : Trace (World capacity) (Event capacity)}

/-- An adder that has run its section. -/
def Position.done : Position → ℕ
  | .finished => 1
  | _ => 0

/-- The adders that have run their section. -/
def World.added (world : World capacity) : ℕ := tally (fun _ => Position.done) world.adders

@[simp] theorem Position.signalled_eq_finished_iff (k : Position) :
    k.signalled = .finished ↔ k = .finished := by
  cases k <;> decide

theorem Position.done_le (k : Position) : k.done ≤ 1 := by
  cases k <;> decide

/-- What the adders have made of the arena, and what its flags say. -/
structure Live (world : World capacity) (arena : Arena capacity) : Prop where
  filled : Filled arena (min world.added capacity)
  isFull_iff : arena.isFull = true ↔ world.added = capacity + 1
  canReset_iff : arena.canReset = true ↔ world.printer = .finished
  isFull_of_printed : world.printer = .finished → arena.isFull = true

/-- The arena is live, or everybody is done with it. -/
structure Safe (es : List (Event capacity)) (world : World capacity) : Prop where
  live : ∀ arena, world.arena = some arena → Live world arena
  freed : world.arena = none → ∀ thread, world.position thread = .finished
  printed : world.printer = .finished → ∃ lines, .print lines ∈ es

/-- An adder that is still to come is not counted. -/
theorem added_lt {i : Fin (capacity + 1)} (hi : world.adders i = .ready) :
    world.added < capacity + 1 := by
  have hlt : world.added < Fintype.card (Fin (capacity + 1)) * 1 :=
    tally_lt (i := i) (fun i => (world.adders i).done_le) (by rw [hi]; exact Nat.one_pos)
  rwa [Fintype.card_fin, Nat.mul_one] at hlt

/-- Only when all adders are done is the count complete. -/
theorem adder_finished (hadded : world.added = capacity + 1) (i : Fin (capacity + 1)) :
    world.adders i = .finished := by
  have hall : world.added = Fintype.card (Fin (capacity + 1)) * 1 := by
    rw [hadded, Fintype.card_fin, Nat.mul_one]
  have hone := weight_eq_of_tally_eq (fun i => (world.adders i).done_le) hall i
  cases hk : world.adders i with
  | finished => rfl
  | _ => simp [hk, Position.done] at hone

theorem Live.add (h : Live world arena) {i : Fin (capacity + 1)}
    (hi : world.adders i = .ready) (hcall : workerAdd arena = .ok (arena', signal))
    (hadders : world'.adders = Function.update world.adders i .finished)
    (hprinter : world'.printer = .finished ↔ world.printer = .finished) : Live world' arena' := by
  have hlt := added_lt hi
  have hadded : world'.added = world.added + 1 := by
    have hmove := tally_move (fun _ => Position.done) hi .finished
    unfold World.added
    rw [hadders]
    exact hmove
  have hfilled := h.filled
  rcases Nat.lt_or_ge world.added capacity with hroom | hfull
  · rw [min_eq_left hroom.le] at hfilled
    obtain ⟨arena₁, hok, hfilled', hisFull, hcanReset⟩ := hfilled.add hroom
    cases hcall.symm.trans hok
    refine ⟨?_, ?_, ?_, ?_⟩
    · rwa [hadded, min_eq_left hroom]
    · rw [hisFull, h.isFull_iff]
      omega
    · rw [hcanReset, hprinter, h.canReset_iff]
    · rw [hisFull, hprinter]
      exact h.isFull_of_printed
  · -- the last adder: `capacity` values are in the arena
    have heq : world.added = capacity := by omega
    rw [heq, min_self] at hfilled
    cases hcall.symm.trans hfilled.addFull
    refine ⟨?_, ?_, ?_, fun _ => rfl⟩
    · rw [hadded, heq, min_eq_right (Nat.le_succ _)]
      exact ⟨hfilled.size_eq, hfilled.offset_eq, hfilled.size_le, hfilled.buffer_eq⟩
    · exact iff_of_true rfl (by omega)
    · exact h.canReset_iff.trans hprinter.symm

/-- A step that leaves the arena, the adders and what the printer has done as they were. -/
theorem Live.keep (h : Live world arena) (hadders : world'.adders = world.adders)
    (hprinter : world'.printer = .finished ↔ world.printer = .finished) : Live world' arena := by
  have hadded : world'.added = world.added := by rw [World.added, hadders, World.added]
  exact ⟨hadded ▸ h.filled, hadded ▸ h.isFull_iff, h.canReset_iff.trans hprinter.symm,
    fun hfinished => h.isFull_of_printed (hprinter.mp hfinished)⟩

/-- The printer finds the arena full. -/
theorem Live.full (h : Live world arena) (hfull : arena.isFull = true) : Filled arena capacity := by
  have hfilled := h.filled
  rwa [h.isFull_iff.mp hfull, min_eq_right (Nat.le_succ _)] at hfilled

section

variable (hcapacity : capacity ≤ 254)
include hcapacity

theorem Safe.step (h : Safe es world) (hstep : Step world e world') : Safe (es ++ [e]) world' := by
  have hprinted : ∀ {k : Position}, (k = .finished → world.printer = .finished) → k = .finished →
      ∃ lines, .print lines ∈ es ++ [e] := by
    intro k hk hfinished
    obtain ⟨lines, hmem⟩ := h.printed (hk hfinished)
    exact ⟨lines, List.mem_append_left _ hmem⟩
  cases hstep with
  | @add arena arena' i signal harena hi hcall =>
    have hprinter : (if signal then world.printer.signalled else world.printer) = .finished ↔
        world.printer = .finished := by
      split_ifs <;> simp
    refine ⟨?_, nofun, hprinted hprinter.mp⟩
    rintro _ ⟨⟩
    exact (h.live arena harena).add hi hcall rfl hprinter
  | printWait harena hready =>
    refine ⟨fun arena harena' => (h.live arena harena').keep rfl ?_, ?_, nofun⟩
    · rw [hready]
      exact iff_of_false Position.noConfusion Position.noConfusion
    · intro hnone
      cases harena.symm.trans hnone
  | @print arena arena' fuel lines harena hready hfull hcall =>
    -- the loop only reads, so the arena differs in one flag
    have hlive := h.live arena harena
    obtain ⟨rfl, rfl⟩ := (hlive.full hfull).lines_eq (by omega) hcall
    refine ⟨?_, nofun, fun _ => ⟨_, List.mem_append_right _ (List.mem_singleton_self _)⟩⟩
    rintro _ ⟨⟩
    have hfilled := hlive.filled
    exact ⟨⟨hfilled.size_eq, hfilled.offset_eq, hfilled.size_le, hfilled.buffer_eq⟩,
      hlive.isFull_iff, iff_of_true rfl rfl, fun _ => hfull⟩
  | resetWait harena =>
    refine ⟨fun arena harena' => (h.live arena harena').keep rfl Iff.rfl, ?_, hprinted id⟩
    intro hnone
    cases harena.symm.trans hnone
  | free harena hready hreset =>
    refine ⟨nofun, fun _ thread => ?_, hprinted id⟩
    -- the arena was printed, so it was full, so all adders are done
    have hlive := h.live _ harena
    have hfinished := hlive.canReset_iff.mp hreset
    have hadded := hlive.isFull_iff.mp (hlive.isFull_of_printed hfinished)
    cases thread with
    | adder i => exact adder_finished hadded i
    | printer => exact hfinished
    | destroyer => rfl
  | dangling hnone hready => cases hready.symm.trans (h.freed hnone _)
  | spuriousPrinter hasleep =>
    refine ⟨fun arena harena' => (h.live arena harena').keep rfl ?_, ?_, nofun⟩
    · rw [hasleep]
      exact iff_of_false Position.noConfusion Position.noConfusion
    · intro hnone
      cases hasleep.symm.trans (h.freed hnone .printer)
  | spuriousDestroyer hasleep =>
    refine ⟨fun arena harena' => (h.live arena harena').keep rfl Iff.rfl, ?_, hprinted id⟩
    intro hnone
    cases hasleep.symm.trans (h.freed hnone .destroyer)

theorem safe (hrun : Run (system capacity) trace world) : Safe (events trace) world := by
  refine Run.invariant (I := Safe) ?_ (fun _ _ _ _ h hstep => h.step hcapacity hstep) hrun
  rintro _ rfl
  refine ⟨?_, nofun, nofun⟩
  rintro _ ⟨⟩
  have hadded : World.added (⟨some (alloc capacity), fun _ => .ready, .ready, .ready⟩ :
      World capacity) = 0 := tally_eq_zero fun _ => rfl
  refine ⟨?_, ?_, iff_of_false Bool.noConfusion Position.noConfusion, nofun⟩
  · rw [hadded, Nat.zero_min]
    exact filled_alloc capacity
  · rw [hadded]
    exact iff_of_false Bool.noConfusion (by omega)

/-- **The life of the arena is safe.** In every state of every interleaving, for every
capacity up to 254: whenever the printer prints, the arena holds exactly the values `2`
to `capacity + 1` in order, modulo `256`, and these are what it prints; the arena is
freed only after it was printed; and no thread can enter its section after that. -/
theorem arena_safe (hrun : Run (system capacity) trace world) :
    (∀ lines world', Step world (.print lines) world' →
      ∃ arena, world.arena = some arena ∧ arena.size = capacity ∧
        (∀ j : Fin capacity, arena.buffer j = UInt8.ofNat (j + 2)) ∧
        lines = (List.range capacity).map fun i => (UInt8.ofNat i, UInt8.ofNat (i + 2))) ∧
      (∀ world', Step world .free world' → ∃ lines, .print lines ∈ events trace) ∧
      ∀ thread world', ¬ Step world (.dangling thread) world' := by
  have h := safe hcapacity hrun
  refine ⟨fun lines world' hstep => ?_, fun world' hstep => ?_, fun thread world' hstep => ?_⟩
  · cases hstep with
    | print harena _ hfull hcall =>
      have hfilled := (h.live _ harena).full hfull
      obtain ⟨-, hlines⟩ := hfilled.lines_eq (by omega) hcall
      exact ⟨_, harena, hfilled.size_eq, fun j => hfilled.buffer_eq j j.isLt, hlines⟩
  · cases hstep with
    | free harena _ hreset => exact h.printed ((h.live _ harena).canReset_iff.mp hreset)
  · cases hstep with
    | dangling hnone hready => cases hready.symm.trans (h.freed hnone thread)

omit hcapacity in
/-- An arena of one byte, from the sleeping printer to the freed arena. -/
theorem arena_safe_one :
    ∃ (trace : Trace (World 1) (Event 1)) (world : World 1),
      Run (system 1) trace world ∧ world.arena = none ∧ .print [(0, 2)] ∈ events trace ∧
        ∀ thread world', ¬ Step world (.dangling thread) world' := by
  have hstart : Run (system 1) [] ⟨some (alloc 1), fun _ => .ready, .ready, .ready⟩ := .start rfl
  have hwait := hstart.step (Step.printWait rfl rfl rfl)
  have hreset := hwait.step (Step.resetWait rfl rfl rfl)
  have hadd := hreset.step (@Step.add 1 _ _ _ 0 _ rfl rfl rfl)
  have hlast := hadd.step (@Step.add 1 _ _ _ 1 _ rfl rfl rfl)
  have hprint := hlast.step (@Step.print 1 _ _ _ 2 _ rfl rfl rfl rfl)
  have hfree := hprint.step (Step.free rfl rfl rfl)
  refine ⟨_, _, hfree, rfl, ?_, (arena_safe (by decide) hfree).2.2⟩
  decide

/-- The printer that finds the flag raised gets through its section. -/
theorem print_returns (hrun : Run (system capacity) trace world)
    (harena : world.arena = some arena) (hready : world.printer = .ready)
    (hfull : arena.isFull = true) : ∃ lines world', Step world (.print lines) world' := by
  have hfilled := ((safe hcapacity hrun).live _ harena).full hfull
  obtain ⟨fuel, hprint⟩ := (hfilled.printBuffer (by omega)).exists_ok
  exact ⟨_, _, .print harena hready hfull hprint⟩

end

end BareMetal.CustomArena
