import BareMetal.CS.Block
import BareMetal.CS.StringCopy
import Mathlib.Algebra.Order.Ring.Int
import Mathlib.Data.List.Forall2
import Mathlib.Data.List.Induction

/-!
# The queue of messages of `data-structures/queue.c`

The messages of a printer lie in the rows of a two-dimensional array, one after the other in
memory. `enqueue` copies as many characters as the message has and sets the last character of
the row to 0 afterwards, so that a message which is longer than its row is also in the rows
behind it. `dequeue` copies the first row to a new block, as far as its string goes, and every
other row over the one in front of it.

## Main results

* `Holds.enqueue`, `Holds.dequeue` — one call each, for messages that fit their row
* `enqueue_frame` — the places that `enqueue` is said to write are all that it changes
* `fifo_iff` — writes stay in their rows and messages come back in order exactly when every
  message fits its row
-/

namespace BareMetal.PrinterQueue

open CS StringCopy

/-- `QUEUE_MSN_SIZE`. -/
def queueMsnSize : ℕ := 254

/-- `PRINTER_CAPACITY`. -/
def printerCapacity : ℕ := 5

/-- `struct Printer`, with the rows of its queue one after the other. -/
structure Printer where
  messages : CString
  size : ℤ
  capacity : ℤ
  deriving DecidableEq, Repr

/-- `init`. -/
def init : Printer :=
  ⟨List.replicate (printerCapacity * queueMsnSize) 0, 0, printerCapacity⟩

/-- Where the row `i` begins. -/
def row (i : ℤ) : ℤ := queueMsnSize * i

/-- The places of `n` characters from `i` on. -/
def places (i : ℤ) (n : ℕ) : List ℤ := (List.range n).map fun k : ℕ => i + k

/-- `enqueue`, with the places that it writes to. -/
def enqueue (p : Printer) (msn : TextBuffer) : Outcome (Printer × List ℤ) :=
  -- the message about it goes to `stdout`
  if p.size = p.capacity then .error (.exit 1 "")
  else do
    let length ← strlen msn.cells
    let messages ← strncpy p.messages (row p.size) msn.cells (length + 1)
    let messages ← Cells.store messages (row p.size + (queueMsnSize - 1)) 0
    let size ← addInt p.size 1
    .ok (⟨messages, size, p.capacity⟩,
      places (row p.size) (length + 1) ++ [row p.size + (queueMsnSize - 1)])

/-- One pass of the loop of `dequeue`. -/
def shiftPass (messages : CString) (i : ℕ) : Outcome CString :=
  strncpy messages (row i) (messages.drop (queueMsnSize * (i + 1))) queueMsnSize

/-- The loop `for(int i = 0; i < p->size - 1; i++)`. -/
def shift (size : ℤ) (messages : CString) : Outcome CString :=
  (List.range (size - 1).toNat).foldlM shiftPass messages

/-- What `malloc` returns for a size: a null pointer, or a block of that many characters. -/
abbrev Malloc := (n : ℕ) → Option (Block n Int8)

/-- `dequeue`, with the characters of the block that it returns. -/
def dequeue (p : Printer) (malloc : Malloc) : Outcome (Printer × CString) :=
  if p.size = 0 then .error (.exit 1 "Cannot pop from empty queue\n")
  else do
    -- the length is less than that of the array, so that it is an `int`
    let length ← strlen p.messages
    match malloc (length + 1) with
    | none => .error (.exit 1 "")
    | some block => do
      let dequeuedMsn ← strncpy (List.ofFn block) 0 p.messages (length + 1)
      let messages ← shift p.size p.messages
      let size ← subInt p.size 1
      .ok (⟨messages, size, p.capacity⟩, dequeuedMsn)

/-! ### Sequences of calls -/

/-- The calls of a program, `dequeue` with what `malloc` does in it. -/
inductive Call
  | enqueue (msn : TextBuffer)
  | dequeue (malloc : Malloc)

/-- The printer, what `enqueue` has written (the slots and the places), and the blocks that
`dequeue` has returned. -/
structure Session where
  printer : Printer
  written : List (ℤ × ℤ)
  returned : List CString

/-- One call. -/
def perform (s : Session) : Call → Outcome Session
  | .enqueue msn => do
    let (printer, places) ← enqueue s.printer msn
    .ok ⟨printer, s.written ++ places.map fun i => (s.printer.size, i), s.returned⟩
  | .dequeue malloc => do
    let (printer, msn) ← dequeue s.printer malloc
    .ok ⟨printer, s.written, s.returned ++ [msn]⟩

/-- Calls with a new printer. -/
def run (calls : List Call) : Outcome Session := calls.foldlM perform ⟨init, [], []⟩

/-- The message of a call of `enqueue`. -/
def Call.message : Call → Option CString
  | .enqueue msn => some msn.chars
  | .dequeue _ => none

/-- The messages in the order of their arrival. -/
def sent (calls : List Call) : List CString := calls.filterMap Call.message

/-- How often `dequeue` is called. -/
def taken (calls : List Call) : ℕ := calls.countP fun call => call.message.isNone

theorem run_concat (calls : List Call) (call : Call) :
    run (calls ++ [call]) = run calls >>= fun s => perform s call := by
  simp [run]

@[simp] theorem sent_enqueue (calls : List Call) (msn : TextBuffer) :
    sent (calls ++ [.enqueue msn]) = sent calls ++ [msn.chars] := by
  simp [sent, Call.message]

@[simp] theorem sent_dequeue (calls : List Call) (malloc : Malloc) :
    sent (calls ++ [.dequeue malloc]) = sent calls := by
  simp [sent, Call.message]

@[simp] theorem taken_enqueue (calls : List Call) (msn : TextBuffer) :
    taken (calls ++ [.enqueue msn]) = taken calls := by
  simp [taken, Call.message]

@[simp] theorem taken_dequeue (calls : List Call) (malloc : Malloc) :
    taken (calls ++ [.dequeue malloc]) = taken calls + 1 := by
  simp [taken, Call.message]

/-- A place in the row of its slot. -/
def InRow (w : ℤ × ℤ) : Prop := row w.1 ≤ w.2 ∧ w.2 < row (w.1 + 1)

instance (w : ℤ × ℤ) : Decidable (InRow w) :=
  inferInstanceAs (Decidable (row w.1 ≤ w.2 ∧ w.2 < row (w.1 + 1)))

/-- What is to hold after the calls `calls`: `enqueue` has written to the rows of its slots
only, and the messages have come back in order, each up to 253 characters. -/
structure Fifo (calls : List Call) (s : Session) : Prop where
  inRow : ∀ w ∈ s.written, InRow w
  returned_eq : s.returned =
    ((sent calls).take (taken calls)).map fun m => m.take (queueMsnSize - 1) ++ [0]

/-! ### Rows -/

/-- A row with the string `m`. -/
structure IsRow (m cells : CString) : Prop where
  length_eq : cells.length = queueMsnSize
  chars : 0 ∉ m
  cells_eq : ∃ rest, cells = m ++ 0 :: rest

/-- The first rows hold the messages that wait, and `spare` is behind them. -/
structure Holds (p : Printer) (queue rows : List CString) (spare : CString) : Prop where
  messages_eq : p.messages = rows.flatten ++ spare
  isRow : List.Forall₂ IsRow queue rows
  length_spare : queueMsnSize * queue.length + spare.length = queueMsnSize * printerCapacity
  size_eq : p.size = queue.length
  capacity_eq : p.capacity = printerCapacity

variable {p p' : Printer} {queue rows : List CString} {pre spare m cells : CString}
  {msn : TextBuffer}

theorem length_flatten (h : List.Forall₂ IsRow queue rows) :
    rows.flatten.length = queueMsnSize * queue.length := by
  induction h with
  | nil => rfl
  | cons hrow _ ih =>
    rw [List.flatten_cons, List.length_append, ih, hrow.length_eq, List.length_cons, Nat.mul_succ,
      Nat.add_comm]

theorem Holds.init : Holds init [] [] init.messages where
  messages_eq := rfl
  isRow := .nil
  length_spare := by simp [PrinterQueue.init, Nat.mul_comm]
  size_eq := rfl
  capacity_eq := rfl

/-! ### `enqueue` -/

/-- What `enqueue` makes of the memory from its row on. -/
def overwritten (m spare : CString) : CString :=
  (m ++ 0 :: spare.drop (m.length + 1)).set (queueMsnSize - 1) 0

theorem length_overwritten (h : m.length < spare.length) :
    (overwritten m spare).length = spare.length := by
  simp only [overwritten, List.length_set, List.length_append, List.length_cons, List.length_drop]
  omega

theorem strlen_message (msn : TextBuffer) : strlen msn.cells = .ok msn.chars.length :=
  strlen_append msn.nul_notMem msn.rest

/-- What `enqueue` leaves behind the rows of the first messages. -/
theorem enqueue_eq {k : ℕ} (hmessages : p.messages = pre ++ spare) (hsize : p.size = k)
    (hpre : pre.length = queueMsnSize * k) (hroom : p.size ≠ p.capacity) (hk : (k : ℤ) < intMax)
    (hrow : queueMsnSize ≤ spare.length) (hfits : msn.chars.length < spare.length) :
    enqueue p msn = .ok (⟨pre ++ overwritten msn.chars spare, k + 1, p.capacity⟩,
      places (row k) (msn.chars.length + 1) ++ [row k + (queueMsnSize - 1)]) := by
  have hstart : row k = (pre.length : ℕ) := by
    rw [row, hpre, Nat.cast_mul]
  have hcopy : strncpy p.messages (row k) msn.cells (msn.chars.length + 1) =
      .ok (pre ++ (msn.chars ++ 0 :: spare.drop (msn.chars.length + 1))) := by
    rw [hmessages, hstart]
    exact strncpy_first pre msn.nul_notMem hfits msn.rest
  -- the last character of the row is in the array, even when the message goes on behind it
  have hlast : Cells.store (pre ++ (msn.chars ++ 0 :: spare.drop (msn.chars.length + 1)))
      (row k + (queueMsnSize - 1)) 0 = .ok (pre ++ overwritten msn.chars spare) := by
    have hplace : row k + (queueMsnSize - 1) = (pre.length + (queueMsnSize - 1) : ℕ) := by
      rw [hstart, queueMsnSize]
      omega
    rw [hplace, Cells.store_of_lt, List.set_append_right _ _ (Nat.le_add_right _ _),
      Nat.add_sub_cancel_left, overwritten]
    simp only [List.length_append, List.length_cons, List.length_drop]
    rw [queueMsnSize] at hrow ⊢
    omega
  rw [enqueue, if_neg hroom, strlen_message, Outcome.ok_bind, hsize, hcopy, Outcome.ok_bind, hlast,
    Outcome.ok_bind, addInt_one hk, Outcome.ok_bind]

/-- What a call of `enqueue` that returns has done. -/
theorem of_enqueue {written : List ℤ} (h : enqueue p msn = .ok (p', written)) :
    (∃ messages,
      strncpy p.messages (row p.size) msn.cells (msn.chars.length + 1) = .ok messages ∧
      Cells.store messages (row p.size + (queueMsnSize - 1)) 0 = .ok p'.messages) ∧
    written = places (row p.size) (msn.chars.length + 1) ++ [row p.size + (queueMsnSize - 1)] := by
  unfold enqueue at h
  split_ifs at h
  rw [strlen_message, Outcome.ok_bind] at h
  obtain ⟨messages, hcopy, h⟩ := Outcome.bind_eq_ok.mp h
  obtain ⟨messages', hstore, h⟩ := Outcome.bind_eq_ok.mp h
  obtain ⟨size, -, h⟩ := Outcome.bind_eq_ok.mp h
  cases h
  exact ⟨⟨messages, hcopy, hstore⟩, rfl⟩

theorem not_mem_places {i : ℤ} {n k : ℕ} (h : (k : ℤ) ∉ places i n) :
    (k : ℤ) < i ∨ i + n ≤ k := by
  by_contra hin
  obtain ⟨hle, hlt⟩ := not_or.mp hin
  refine h (List.mem_map.mpr ⟨(k - i).toNat, List.mem_range.mpr ?_, ?_⟩)
  · omega
  · omega

/-- `enqueue` changes no other places than those that it writes to. -/
theorem enqueue_frame {written : List ℤ} (h : enqueue p msn = .ok (p', written)) {k : ℕ}
    (hk : (k : ℤ) ∉ written) : p'.messages[k]? = p.messages[k]? := by
  obtain ⟨⟨messages, hcopy, hstore⟩, rfl⟩ := of_enqueue h
  obtain ⟨hcopied, hlast⟩ := not_or.mp (mt List.mem_append.mpr hk)
  rw [List.mem_singleton] at hlast
  rw [Cells.getElem?_of_store hstore hlast, getElem?_of_strncpy hcopy (not_mem_places hcopied)]

/-- The characters of a message and the terminator are in the row of the slot exactly when the
message has at most 253 characters. -/
theorem inRow_places (k : ℤ) (n : ℕ) :
    (∀ i ∈ places (row k) (n + 1) ++ [row k + (queueMsnSize - 1)], InRow (k, i)) ↔
      n ≤ queueMsnSize - 1 := by
  have hnext : row (k + 1) = row k + queueMsnSize := by
    rw [row, row, Int.mul_add, Int.mul_one]
  constructor
  · intro h
    have hmem : row k + n ∈ places (row k) (n + 1) :=
      List.mem_map.mpr ⟨n, List.mem_range.mpr (Nat.lt_succ_self n), rfl⟩
    have hlast := (h _ (List.mem_append_left _ hmem)).2
    dsimp only at hlast
    rw [hnext] at hlast
    omega
  · intro hn i hi
    rw [InRow, hnext]
    rw [queueMsnSize] at hn hi ⊢
    rcases List.mem_append.mp hi with hi | hi
    · obtain ⟨j, hj, rfl⟩ := List.mem_map.mp hi
      have hlt := List.mem_range.mp hj
      dsimp only
      omega
    · cases List.mem_singleton.mp hi
      dsimp only
      omega

/-- A message with its terminator, and what follows in the row. -/
theorem isRow_overwritten (hm : 0 ∉ m) (hlen : m.length ≤ queueMsnSize - 1)
    (hrow : queueMsnSize ≤ spare.length) :
    IsRow m ((overwritten m spare).take queueMsnSize) := by
  have hshort : m.length < spare.length := by
    rw [queueMsnSize] at hlen hrow
    omega
  -- the 0 in the last place is that of the message, or it comes after it
  obtain ⟨rest, hset⟩ : ∃ rest : CString,
      ((0 : Int8) :: spare.drop (m.length + 1)).set (queueMsnSize - 1 - m.length) 0 =
        0 :: rest := by
    cases queueMsnSize - 1 - m.length with
    | zero => exact ⟨_, rfl⟩
    | succ j => exact ⟨(spare.drop (m.length + 1)).set j 0, rfl⟩
  have hlast : queueMsnSize - m.length = queueMsnSize - 1 - m.length + 1 := by
    rw [queueMsnSize] at hlen ⊢
    omega
  have hcells : (overwritten m spare).take queueMsnSize =
      m ++ 0 :: rest.take (queueMsnSize - 1 - m.length) := by
    rw [overwritten, List.set_append_right _ _ hlen, hset, List.take_append,
      List.take_of_length_le (Nat.le_trans hlen (Nat.sub_le _ _)), hlast, List.take_succ_cons]
  exact ⟨List.length_take_of_le (by rwa [length_overwritten hshort]), hm, _, hcells⟩

/-- **`enqueue`** of a message that fits its row. -/
theorem Holds.enqueue (h : Holds p queue rows spare) (hroom : p.size ≠ p.capacity)
    (hlen : msn.chars.length ≤ queueMsnSize - 1) :
    ∃ p' rows' spare', enqueue p msn = .ok (p', places (row p.size) (msn.chars.length + 1) ++
      [row p.size + (queueMsnSize - 1)]) ∧ Holds p' (queue ++ [msn.chars]) rows' spare' := by
  have hspare := h.length_spare
  have hlt : queue.length < printerCapacity := by
    rw [h.size_eq, h.capacity_eq] at hroom
    rw [queueMsnSize] at hspare
    omega
  -- behind the rows that are in use there is at least one more
  have hrow : queueMsnSize ≤ spare.length := by
    rw [queueMsnSize, printerCapacity] at *
    omega
  have hshort : msn.chars.length < spare.length := by
    rw [queueMsnSize] at hlen hrow
    omega
  have heq := enqueue_eq h.messages_eq h.size_eq (length_flatten h.isRow) hroom
    (Int.lt_of_lt_of_le (Int.ofNat_lt.mpr hlt) (by decide)) hrow hshort
  have hisRow := isRow_overwritten msn.nul_notMem hlen hrow
  rw [← h.size_eq] at heq
  refine ⟨_, rows ++ [(overwritten msn.chars spare).take queueMsnSize],
    (overwritten msn.chars spare).drop queueMsnSize, heq, ?_,
    List.rel_append h.isRow (.cons hisRow .nil), ?_, ?_, h.capacity_eq⟩
  · rw [List.flatten_append, List.flatten_singleton, List.append_assoc, List.take_append_drop]
  · rw [List.length_append, List.length_singleton, List.length_drop, length_overwritten hshort,
      Nat.mul_succ]
    omega
  · rw [h.size_eq, List.length_append, List.length_singleton]
    rfl

/-! ### `dequeue` -/

/-- A string that fits, and zeros. -/
theorem isRow_padded (h : IsRow m cells) : IsRow m (padded m queueMsnSize) := by
  obtain ⟨hlength, hm, rest, rfl⟩ := h
  have hlt : m.length < queueMsnSize := by
    rw [← hlength, List.length_append, List.length_cons]
    omega
  exact ⟨length_padded _ _, hm, _, padded_of_lt hlt⟩

/-- Every row is copied over the one in front of it. -/
theorem shift_rows (spare : CString) (h : List.Forall₂ IsRow queue rows) {k : ℕ}
    (hpre : pre.length = queueMsnSize * k) (hcells : cells.length = queueMsnSize) :
    ∃ rows' cells', (List.range' k rows.length).foldlM shiftPass
        (pre ++ (cells ++ (rows.flatten ++ spare))) =
          .ok (pre ++ (rows'.flatten ++ (cells' ++ spare))) ∧
      List.Forall₂ IsRow queue rows' ∧ cells'.length = queueMsnSize := by
  induction h generalizing k pre cells with
  | nil => exact ⟨[], cells, rfl, .nil, hcells⟩
  | @cons m next queue rows hrow hrows ih =>
    have hpadded := isRow_padded hrow
    obtain ⟨hnext, hm, rest, hrest⟩ := hrow
    have hpre' : (pre ++ padded m queueMsnSize).length = queueMsnSize * (k + 1) := by
      rw [List.length_append, length_padded, hpre, Nat.mul_succ]
    obtain ⟨rows', cells', hloop, hrows', hcells'⟩ := ih hpre' hnext
    -- the pass reads the row `next`, and writes over `cells` in front of it
    have hsource : (pre ++ (cells ++ ((next :: rows).flatten ++ spare))).drop
        (queueMsnSize * (k + 1)) = m ++ 0 :: (rest ++ (rows.flatten ++ spare)) := by
      have hlength : (pre ++ cells).length = queueMsnSize * (k + 1) := by
        rw [List.length_append, hpre, hcells, Nat.mul_succ]
      rw [← List.append_assoc, ← hlength, List.drop_left, List.flatten_cons, hrest]
      simp
    have hpass : shiftPass (pre ++ (cells ++ ((next :: rows).flatten ++ spare))) k =
        .ok (pre ++ padded m queueMsnSize ++ (next ++ (rows.flatten ++ spare))) := by
      have hstart : row k = (pre.length : ℕ) := by
        rw [row, hpre, Nat.cast_mul]
      have hcopy : strncpy (pre ++ cells ++ ((next :: rows).flatten ++ spare)) pre.length
          (m ++ 0 :: (rest ++ (rows.flatten ++ spare))) queueMsnSize =
            .ok (pre ++ padded m queueMsnSize ++ ((next :: rows).flatten ++ spare)) :=
        strncpy_eq _ _ hm hcells _
      rw [shiftPass, hsource, hstart, ← List.append_assoc, hcopy, List.flatten_cons,
        List.append_assoc next]
    refine ⟨padded m queueMsnSize :: rows', cells', ?_, .cons hpadded hrows', hcells'⟩
    rw [List.length_cons, List.range'_succ, List.foldlM_cons, hpass, Outcome.ok_bind, hloop,
      List.flatten_cons, List.append_assoc, List.append_assoc]

/-- The loop of `dequeue`, when the first of the rows is `first`. -/
theorem exists_shift (spare : CString) {first : CString} (hrow : IsRow m first)
    (hrows : List.Forall₂ IsRow queue rows) :
    ∃ rows' cells', shift (m :: queue).length ((first :: rows).flatten ++ spare) =
        .ok (rows'.flatten ++ (cells' ++ spare)) ∧
      List.Forall₂ IsRow queue rows' ∧ cells'.length = queueMsnSize := by
  have hpasses : (((m :: queue).length : ℤ) - 1).toNat = rows.length := by
    rw [List.length_cons, hrows.length_eq]
    omega
  have hnil : ([] : CString).length = queueMsnSize * 0 := rfl
  have hshift := shift_rows spare hrows hnil hrow.length_eq
  rw [shift, hpasses, List.range_eq_range', List.flatten_cons, List.append_assoc]
  simpa using hshift

/-- The message in the first row. -/
theorem Holds.exists_messages (h : Holds p (m :: queue) rows spare) :
    0 ∉ m ∧ ∃ rest, p.messages = m ++ 0 :: rest := by
  rcases h.isRow with _ | ⟨⟨-, hm, rest, rfl⟩, hrows⟩
  rename_i rows
  refine ⟨hm, rest ++ (rows.flatten ++ spare), ?_⟩
  rw [h.messages_eq, List.flatten_cons, List.append_assoc, List.append_assoc, List.cons_append]

/-- `strlen(p->queue->messages[0])`. -/
theorem Holds.strlen_messages (h : Holds p (m :: queue) rows spare) :
    strlen p.messages = .ok m.length := by
  obtain ⟨hm, rest, heq⟩ := h.exists_messages
  rw [heq, strlen_append hm]

/-- The copy that `dequeue` returns. -/
theorem Holds.strncpy_messages (h : Holds p (m :: queue) rows spare)
    (block : Block (m.length + 1) Int8) :
    strncpy (List.ofFn block) 0 p.messages (m.length + 1) = .ok (m ++ [0]) := by
  obtain ⟨hm, rest, heq⟩ := h.exists_messages
  rw [heq, strncpy_all hm List.length_ofFn, padded_length_succ]

theorem Holds.size_pos (h : Holds p (m :: queue) rows spare) : p.size ≠ 0 := by
  rw [h.size_eq, List.length_cons]
  omega

theorem Holds.dequeue_of_none (h : Holds p (m :: queue) rows spare) {malloc : Malloc}
    (hmalloc : malloc (m.length + 1) = none) : dequeue p malloc = .error (.exit 1 "") := by
  rw [dequeue, if_neg h.size_pos, h.strlen_messages, Outcome.ok_bind, hmalloc]

/-- **`dequeue`**, when memory for the message can be allocated. -/
theorem Holds.dequeue (h : Holds p (m :: queue) rows spare) {malloc : Malloc}
    {block : Block (m.length + 1) Int8} (hmalloc : malloc (m.length + 1) = some block) :
    ∃ p' rows' spare', dequeue p malloc = .ok (p', m ++ [0]) ∧ Holds p' queue rows' spare' := by
  have hlength := h.strlen_messages
  have hcopy := h.strncpy_messages block
  have hpos := h.size_pos
  have hspare := h.length_spare
  rcases h.isRow with _ | ⟨hrow, hrows⟩
  rename_i first rows
  obtain ⟨rows', cells', hloop, hrows', hcells'⟩ := exists_shift spare hrow hrows
  rw [← h.messages_eq, ← h.size_eq] at hloop
  have hsize : subInt p.size 1 = .ok (queue.length : ℤ) := by
    have hle : ((m :: queue).length : ℤ) ≤ intMax := by
      rw [queueMsnSize, printerCapacity] at hspare
      rw [intMax]
      omega
    have hlast : ((m :: queue).length : ℤ) - 1 = queue.length := by
      rw [List.length_cons]
      omega
    rw [h.size_eq, subInt_one hle, hlast]
  -- the last row that was in use belongs to the spare memory now
  refine ⟨⟨rows'.flatten ++ (cells' ++ spare), queue.length, p.capacity⟩, rows',
    cells' ++ spare, ?_, rfl, hrows', ?_, rfl, h.capacity_eq⟩
  · rw [PrinterQueue.dequeue, if_neg hpos, hlength, Outcome.ok_bind, hmalloc]
    dsimp only
    rw [hcopy, Outcome.ok_bind, hloop, Outcome.ok_bind, hsize, Outcome.ok_bind]
  · rw [List.length_append, hcells']
    rw [List.length_cons, Nat.mul_succ] at hspare
    omega

/-! ### Runs -/

/-- A call that ends the process. -/
def Exits {α : Type} (x : Outcome α) : Prop := ∃ code message, x = .error (.exit code message)

/-- What the calls so far have left, if all messages fit their rows. -/
structure Tracks (calls : List Call) (s : Session) : Prop extends Fifo calls s where
  fits : ∀ m ∈ sent calls, m.length ≤ queueMsnSize - 1
  holds : ∃ rows spare, Holds s.printer ((sent calls).drop (taken calls)) rows spare
  taken_le : taken calls ≤ (sent calls).length

variable {calls : List Call} {s s' : Session}

theorem Tracks.init : Tracks [] ⟨PrinterQueue.init, [], []⟩ where
  inRow _ hw := nomatch hw
  returned_eq := rfl
  fits _ hm := nomatch hm
  holds := ⟨_, _, Holds.init⟩
  taken_le := Nat.le_refl 0

theorem perform_enqueue {written : List ℤ} (h : enqueue s.printer msn = .ok (p', written)) :
    perform s (.enqueue msn) =
      .ok ⟨p', s.written ++ written.map fun i => (s.printer.size, i), s.returned⟩ := by
  rw [perform, h]
  rfl

theorem perform_dequeue {malloc : Malloc} (h : dequeue s.printer malloc = .ok (p', m)) :
    perform s (.dequeue malloc) = .ok ⟨p', s.written, s.returned ++ [m]⟩ := by
  rw [perform, h]
  rfl

/-- `enqueue` exits when the printer is full. -/
theorem Tracks.enqueue (h : Tracks calls s) (hlen : msn.chars.length ≤ queueMsnSize - 1) :
    Exits (perform s (.enqueue msn)) ∨
      ∃ s', perform s (.enqueue msn) = .ok s' ∧ Tracks (calls ++ [.enqueue msn]) s' := by
  obtain ⟨rows, spare, hholds⟩ := h.holds
  by_cases hroom : s.printer.size = s.printer.capacity
  · refine Or.inl ⟨1, "", ?_⟩
    rw [perform, PrinterQueue.enqueue, if_pos hroom]
    rfl
  · obtain ⟨p', rows', spare', heq, hholds'⟩ := hholds.enqueue hroom hlen
    refine Or.inr ⟨_, perform_enqueue heq, ⟨fun w hw => ?_, ?_⟩, ?_, ⟨rows', spare', ?_⟩, ?_⟩
    · rcases List.mem_append.mp hw with hw | hw
      · exact h.inRow w hw
      · obtain ⟨i, hi, rfl⟩ := List.mem_map.mp hw
        exact (inRow_places s.printer.size msn.chars.length).mpr hlen i hi
    · rw [sent_enqueue, taken_enqueue, List.take_append_of_le_length h.taken_le]
      exact h.returned_eq
    · rw [sent_enqueue]
      intro m hm
      rcases List.mem_append.mp hm with hm | hm
      · exact h.fits m hm
      · rwa [List.mem_singleton.mp hm]
    · rwa [sent_enqueue, taken_enqueue, List.drop_append_of_le_length h.taken_le]
    · rw [sent_enqueue, taken_enqueue, List.length_append]
      exact Nat.le_add_right_of_le h.taken_le

/-- `dequeue` exits when the printer is empty, and when there is no memory for the message. -/
theorem Tracks.dequeue (h : Tracks calls s) (malloc : Malloc) :
    Exits (perform s (.dequeue malloc)) ∨
      ∃ s', perform s (.dequeue malloc) = .ok s' ∧ Tracks (calls ++ [.dequeue malloc]) s' := by
  obtain ⟨rows, spare, hholds⟩ := h.holds
  rcases Nat.lt_or_ge (taken calls) (sent calls).length with hlt | hge
  · -- the first of the messages that wait is the one after those that were taken
    have hdrop := List.drop_eq_getElem_cons hlt
    rw [hdrop] at hholds
    rcases hmalloc : malloc ((sent calls)[taken calls].length + 1) with _ | block
    · refine Or.inl ⟨1, "", ?_⟩
      rw [perform, hholds.dequeue_of_none hmalloc]
      rfl
    · obtain ⟨p', rows', spare', heq, hholds'⟩ := hholds.dequeue hmalloc
      refine Or.inr ⟨_, perform_dequeue heq, ⟨h.inRow, ?_⟩, ?_, ⟨rows', spare', ?_⟩, ?_⟩
      · have hfirst : (sent calls)[taken calls].take (queueMsnSize - 1) =
            (sent calls)[taken calls] := List.take_of_length_le (h.fits _ (List.getElem_mem hlt))
        rw [sent_dequeue, taken_dequeue, List.take_add_one, List.getElem?_eq_getElem hlt,
          Option.toList_some, List.map_append, List.map_singleton, hfirst, ← h.returned_eq]
      · rw [sent_dequeue]
        exact h.fits
      · rwa [sent_dequeue, taken_dequeue]
      · rwa [sent_dequeue, taken_dequeue]
  · refine Or.inl ⟨1, "Cannot pop from empty queue\n", ?_⟩
    have hsize : s.printer.size = 0 := by
      rw [hholds.size_eq, List.drop_of_length_le hge]
      rfl
    rw [perform, PrinterQueue.dequeue, if_pos hsize]
    rfl

/-- While all messages fit their rows, the calls end the process or do what they should. -/
theorem run_of_fits (calls : List Call)
    (hfits : ∀ msn, .enqueue msn ∈ calls → msn.chars.length ≤ queueMsnSize - 1) :
    Exits (run calls) ∨ ∃ s, run calls = .ok s ∧ Tracks calls s := by
  induction calls using List.reverseRecOn with
  | nil => exact Or.inr ⟨_, rfl, Tracks.init⟩
  | append_singleton calls call ih =>
    rw [run_concat]
    rcases ih fun msn hmem => hfits msn (List.mem_append_left _ hmem) with
      ⟨code, message, hexit⟩ | ⟨s, hrun, htracks⟩
    · refine Or.inl ⟨code, message, ?_⟩
      rw [hexit, Outcome.error_bind]
    · rw [hrun, Outcome.ok_bind]
      cases call with
      | enqueue msn => exact htracks.enqueue (hfits msn (by simp))
      | dequeue malloc => exact htracks.dequeue malloc

/-- A message that was written to its row fits it. -/
theorem fits_of_run (h : run calls = .ok s) (hinRow : ∀ w ∈ s.written, InRow w) :
    ∀ msn, .enqueue msn ∈ calls → msn.chars.length ≤ queueMsnSize - 1 := by
  induction calls using List.reverseRecOn generalizing s with
  | nil =>
    intro msn hmem
    cases hmem
  | append_singleton calls call ih =>
    rw [run_concat] at h
    obtain ⟨t, hrun, hlast⟩ := Outcome.bind_eq_ok.mp h
    intro msn hmem
    cases call with
    | enqueue msn' =>
      obtain ⟨⟨printer, places⟩, henqueue, heq⟩ := Outcome.bind_eq_ok.mp hlast
      cases heq
      have hold := ih hrun fun w hw => hinRow w (List.mem_append_left _ hw)
      rcases List.mem_append.mp hmem with hmem | hmem
      · exact hold msn hmem
      · cases List.mem_singleton.mp hmem
        have hplaces := (of_enqueue henqueue).2
        refine (inRow_places t.printer.size msn.chars.length).mp fun i hi => ?_
        refine hinRow _ (List.mem_append_right _ (List.mem_map.mpr ⟨i, ?_, rfl⟩))
        rwa [hplaces]
    | dequeue malloc =>
      obtain ⟨⟨printer, block⟩, -, heq⟩ := Outcome.bind_eq_ok.mp hlast
      cases heq
      refine ih hrun hinRow msn ?_
      simpa using hmem

/-- **Bounded messages.** Of calls that do not end the process, all writes stay in the rows of
their slots and the messages come back in order, if and only if every message has at most 253
characters. -/
theorem fifo_iff (calls : List Call) (hexit : ¬ Exits (run calls)) :
    (∃ s, run calls = .ok s ∧ Fifo calls s) ↔
      ∀ msn, .enqueue msn ∈ calls → msn.chars.length ≤ queueMsnSize - 1 := by
  constructor
  · rintro ⟨s, hrun, hfifo⟩
    exact fits_of_run hrun hfifo.inRow
  · intro hfits
    rcases run_of_fits calls hfits with hexits | ⟨s, hrun, htracks⟩
    · exact absurd hexits hexit
    · exact ⟨s, hrun, htracks.toFifo⟩

/-- Blocks full of the letter `a`. -/
def letters : Malloc := fun _ => some fun _ => 97

/-- One message comes and goes. -/
theorem fifo_iff_oneMessage :
    ∃ s, run [.enqueue (TextBuffer.ofLength 3), .dequeue letters] = .ok s ∧
      Fifo [.enqueue (TextBuffer.ofLength 3), .dequeue letters] s := by
  have hlen : (TextBuffer.ofLength 3).chars.length ≤ queueMsnSize - 1 := by decide
  obtain ⟨p, rows, spare, henqueue, hholds⟩ := Holds.init.enqueue (by decide) hlen
  have hmalloc : letters ((TextBuffer.ofLength 3).chars.length + 1) = some fun _ => 97 := rfl
  obtain ⟨p', rows', spare', hdequeue, -⟩ := hholds.dequeue hmalloc
  refine (fifo_iff _ ?_).mpr ?_
  · rintro ⟨code, message, hexit⟩
    rw [run, List.foldlM_cons, perform_enqueue (s := ⟨init, [], []⟩) henqueue, Outcome.ok_bind,
      List.foldlM_cons, perform_dequeue hdequeue] at hexit
    cases hexit
  · intro msn hmem
    rcases List.mem_cons.mp hmem with heq | hmem
    · cases heq
      exact hlen
    · cases List.mem_singleton.mp hmem

/-- The terminator of a message with 254 characters is the first character of the next row. -/
theorem enqueue_next_row :
    ∃ s, run [.enqueue (TextBuffer.ofLength 254)] = .ok s ∧ (0, 254) ∈ s.written ∧
      ¬ Fifo [.enqueue (TextBuffer.ofLength 254)] s := by
  have hroom : init.size ≠ init.capacity := by decide
  have hcells : init.messages.length = 1270 := List.length_replicate
  have hlength : (TextBuffer.ofLength 254).chars.length = 254 := TextBuffer.length_ofLength 254
  have hpre : ([] : CString).length = queueMsnSize * 0 := rfl
  have henqueue := enqueue_eq (p := init) (List.nil_append init.messages).symm rfl hpre hroom
    (by decide) (by rw [hcells]; decide) (by rw [hcells, hlength]; decide)
  have hrun : run [.enqueue (TextBuffer.ofLength 254)] =
      perform ⟨init, [], []⟩ (.enqueue (TextBuffer.ofLength 254)) := by
    simp [run]
  have hplace : (254 : ℤ) ∈ places (row (0 : ℕ)) ((TextBuffer.ofLength 254).chars.length + 1) ++
      [row (0 : ℕ) + (queueMsnSize - 1)] := by
    rw [hlength]
    refine List.mem_append_left _ (List.mem_map.mpr ⟨254, List.mem_range.mpr (by decide), rfl⟩)
  have hpair := List.mem_map_of_mem (f := fun i => (init.size, i)) hplace
  have hwritten := List.mem_append_right [] hpair
  refine ⟨_, hrun.trans (perform_enqueue (s := ⟨init, [], []⟩) henqueue), hwritten, fun hfifo => ?_⟩
  exact absurd (hfifo.inRow _ hwritten) (by decide)

end BareMetal.PrinterQueue
