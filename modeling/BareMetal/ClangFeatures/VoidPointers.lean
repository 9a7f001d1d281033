import BareMetal.CS.Calls
import BareMetal.CS.StringCopy
import BareMetal.CS.Teardown

/-!
# The list of typed values of `clang-features/void_pointers.c`

A node points to a copy of its value and has a tag that says how to read it. The copy is a block
of its own: an `int`, or the characters of a string.

## Main results

* `Holds.addNode` — one call leaves a node more, whose tag is right
* `typed_list_life_cycle` — any calls end the program or leave a list that is printed in order and
  freed
-/

namespace BareMetal.VoidPointers

open CS LinkedList StringCopy

/-- `INT`. -/
def intType : ℤ := 0

/-- `STR`. -/
def strType : ℤ := 1

/-- What a `void *` points to: an `int`, or characters. -/
inductive Datum
  | int (value : Int32)
  | chars (cells : CString)
  deriving DecidableEq, Repr

/-- `Node`, without the pointer to the next one. -/
structure Entry where
  data : ℕ
  type : ℤ
  deriving DecidableEq, Repr

/-- The list, with the memory of its nodes and values, and the number of calls of `add_node`. Each
of them calls `malloc` twice. -/
structure TypedList where
  memory : Owning Entry Datum
  head : Option ℕ
  added : ℕ

/-- `validate_input`. -/
def validateInput (input : Option Datum) (type : ℤ) : Outcome Datum :=
  if type = intType then
    match input with
    | some datum => .ok datum
    | none => .error (.exit 1 "NULL int input value\n")
  else if type = strType then
    match input with
    | some datum => .ok datum
    | none => .error (.exit 1 "NULL string input value\n")
  else .error (.exit 1 "Unsupported type\n")

/-- Read an `int` through a `void *`. -/
def readInt : Datum → Outcome Int32
  | .int value => .ok value
  | .chars _ => .error (.outOfBounds 0)

/-- Read a string through a `void *`. It has to end inside its block. -/
def readString : Datum → Outcome CString
  | .int _ => .error (.outOfBounds 0)
  | .chars cells => do
    let length ← strlen cells
    .ok (cells.take length)

/-- The copy of a string: `malloc` refuses a size that is negative as an `int`. -/
def copyString : Datum → Outcome CString
  | .int _ => .error (.outOfBounds 0)
  | .chars cells => do
    let length ← strlen cells
    let strSize : ℤ := Int.bmod (length + 1) (2 ^ 32)
    if strSize < 0 then .error (.outOfBounds 0) else paddedCopy cells strSize.toNat

/-- `_on_completion`. -/
def onCompletion (list : TypedList) (entry : Entry) (node fuel : ℕ) : Outcome TypedList := do
  let (cells, head) ← linkLast (list.memory.cells.alloc node entry) list.head node fuel
  .ok ⟨⟨cells, list.memory.blocks⟩, head, list.added + 1⟩

/-- `add_node`, with `_on_completion` as its callback. -/
def addNode (malloc : ℕ ↪ ℕ) (list : TypedList) (newData : Option Datum) (type : ℤ) (fuel : ℕ) :
    Outcome TypedList :=
  let node := malloc (2 * list.added)
  let data := malloc (2 * list.added + 1)
  let withCopy (copy : Datum) : TypedList :=
    { list with
      memory := ⟨list.memory.cells, Function.update list.memory.blocks data (some copy)⟩ }
  if type = intType then do
    let input ← validateInput newData type
    let intVal ← readInt input
    onCompletion (withCopy (.int intVal)) ⟨data, type⟩ node fuel
  else if type = strType then do
    let strVal ← validateInput newData type
    let string ← copyString strVal
    onCompletion (withCopy (.chars string)) ⟨data, type⟩ node fuel
  else .error (.exit 1 "Cannot add an unsupported type as new node\n")

/-- What `print_list` prints for a node with the tag `INT`. -/
def intLine (blocks : ℕ → Option Datum) (count : ℤ) (entry : Entry) : Outcome String :=
  if entry.type = intType then do
    let datum ← CellHeap.load blocks (some entry.data)
    let value ← readInt datum
    .ok s!"[{count}] int value = {value}\n"
  else .ok ""

/-- What `print_list` prints for a node with the tag `STR`. -/
def strLine (blocks : ℕ → Option Datum) (count : ℤ) (entry : Entry) : Outcome String :=
  if entry.type = strType then do
    let datum ← CellHeap.load blocks (some entry.data)
    let string ← readString datum
    .ok s!"[{count}] str value = {string.toText}\n"
  else .ok ""

/-- One pass of the loop of `print_list`. -/
def printPass (memory : Owning Entry Datum) (s : Option ℕ × ℤ × String) :
    Outcome (Pass (Option ℕ × ℤ × String) String) :=
  match s.1 with
  | none => .ok (.leave s.2.2)
  | some current => do
    let node ← memory.cells.load (some current)
    let number ← intLine memory.blocks s.2.1 node.value
    let string ← strLine memory.blocks s.2.1 node.value
    let count ← addInt s.2.1 1
    .ok (.again (node.next, count, s.2.2 ++ number ++ string))

/-- `print_list`, with what it prints. -/
def printList (list : TypedList) (fuel : ℕ) : Outcome String :=
  loop (printPass list.memory) fuel (list.head, 0, "")

/-- The block that a node owns. -/
def Entry.owned (entry : Entry) : Option ℕ := some entry.data

/-- `free_list`. -/
def freeList (list : TypedList) (fuel : ℕ) : Outcome TypedList := do
  let memory ← freeOwning Entry.owned list.memory list.head fuel
  .ok { list with memory := memory, head := none }

/-! ### Sequences of calls -/

/-- The arguments of a call of `add_node`. -/
structure Call where
  newData : Option Datum
  type : ℤ
  deriving DecidableEq, Repr

/-- A new list. -/
def empty : TypedList := ⟨⟨fun _ => none, fun _ => none⟩, none, 0⟩

/-- Calls of `add_node` on a new list. -/
def run (malloc : ℕ ↪ ℕ) (calls : List Call) (fuel : ℕ) : Outcome TypedList :=
  calls.foldlM (fun list call => addNode malloc list call.newData call.type fuel) empty

/-- A string in memory whose size is an `int`. -/
def IsString (cells : CString) : Prop :=
  ∃ t post, cells = t ++ 0 :: post ∧ 0 ∉ t ∧ t.length < 2 ^ 31 - 1

/-- A pointer that is not null points to a value of the type. -/
def WellTyped (call : Call) : Prop :=
  ∀ datum, call.newData = some datum →
    (call.type = intType → ∃ value, datum = .int value) ∧
      (call.type = strType → ∃ cells, datum = .chars cells ∧ IsString cells)

/-- The type is supported and the pointer is not null. -/
def Accepted (call : Call) : Prop :=
  (call.type = intType ∨ call.type = strType) ∧ call.newData ≠ none

/-- The copy that a node points to. -/
def Call.copy (call : Call) : Option Datum :=
  call.newData.map fun datum =>
    match datum with
    | .int value => .int value
    | .chars cells => .chars (text cells ++ [0])

/-- What `print_list` is to print for a call. -/
def Call.printed (call : Call) (count : ℤ) : String :=
  match call.newData with
  | none => ""
  | some (.int value) => s!"[{count}] int value = {value}\n"
  | some (.chars cells) => s!"[{count}] str value = {(text cells).toText}\n"

/-- The nodes of the calls. -/
def nodesOf (malloc : ℕ ↪ ℕ) (calls : List Call) : List (ℕ × Entry) :=
  calls.mapIdx fun k call => (malloc (2 * k), ⟨malloc (2 * k + 1), call.type⟩)

variable {malloc : ℕ ↪ ℕ} {list : TypedList} {calls : List Call} {call : Call}

theorem nodesOf_concat (calls : List Call) (call : Call) :
    nodesOf malloc (calls ++ [call]) = nodesOf malloc calls ++
      [(malloc (2 * calls.length), ⟨malloc (2 * calls.length + 1), call.type⟩)] := by
  rw [nodesOf, List.mapIdx_append]
  simp [nodesOf]

theorem mem_nodesOf {a : ℕ} {entry : Entry} :
    (a, entry) ∈ nodesOf malloc calls ↔ ∃ k, ∃ h : k < calls.length,
      a = malloc (2 * k) ∧ entry = ⟨malloc (2 * k + 1), (calls[k]).type⟩ := by
  rw [nodesOf, List.mem_mapIdx]
  constructor
  · rintro ⟨k, hk, heq⟩
    cases heq
    exact ⟨k, hk, rfl, rfl⟩
  · rintro ⟨k, hk, rfl, rfl⟩
    exact ⟨k, hk, rfl⟩

/-- What the calls so far leave. -/
structure Holds (malloc : ℕ ↪ ℕ) (calls : List Call) (list : TypedList) : Prop where
  added_eq : list.added = calls.length
  wellTyped : ∀ call ∈ calls, WellTyped call ∧ Accepted call
  nodes : LinkedList.Holds list.memory.cells
    ⟨list.head, (addresses (nodesOf malloc calls)).getLast?⟩ (nodesOf malloc calls)
  covers : ∀ a, list.memory.cells a ≠ none → a ∈ addresses (nodesOf malloc calls)
  freshNode : Fresh malloc list.memory.cells (2 * calls.length)
  copies : ∀ k (hk : k < calls.length),
    list.memory.blocks (malloc (2 * k + 1)) = (calls[k]).copy
  owned : ∀ b, list.memory.blocks b ≠ none → ∃ k < calls.length, b = malloc (2 * k + 1)

theorem holds_empty (malloc : ℕ ↪ ℕ) : Holds malloc [] empty where
  added_eq := rfl
  wellTyped _ hmem := absurd hmem List.not_mem_nil
  nodes := holds_nil _
  covers _ hne := absurd rfl hne
  freshNode _ _ := rfl
  copies _ hk := absurd hk (Nat.not_lt_zero _)
  owned _ hne := absurd rfl hne

/-! ### One call -/

theorem validateInput_some {type : ℤ} (htype : type = intType ∨ type = strType) (datum : Datum) :
    validateInput (some datum) type = .ok datum := by
  unfold validateInput
  split_ifs with hint hstr
  · rfl
  · rfl
  · exact absurd htype (not_or.mpr ⟨hint, hstr⟩)

theorem exists_validateInput_none (type : ℤ) :
    ∃ message, validateInput none type = .error (.exit 1 message) := by
  unfold validateInput
  split_ifs
  · exact ⟨_, rfl⟩
  · exact ⟨_, rfl⟩
  · exact ⟨_, rfl⟩

theorem copyString_eq {cells : CString} (h : IsString cells) :
    copyString (.chars cells) = .ok (text cells ++ [0]) := by
  obtain ⟨t, post, rfl, hchars, hlength⟩ := h
  have hsize : Int.bmod ((t.length : ℤ) + 1) (2 ^ 32) = (t.length : ℤ) + 1 :=
    Int.bmod_eq_of_le (by omega) (by omega)
  have hnat : ((t.length : ℤ) + 1).toNat = t.length + 1 := Int.toNat_natCast (t.length + 1)
  rw [copyString, strlen_append hchars, Outcome.ok_bind]
  dsimp only
  rw [hsize, if_neg (by omega), hnat, paddedCopy_append hchars, padded_length_succ,
    text_append hchars]

theorem readString_copy {cells : CString} (h : IsString cells) :
    readString (.chars (text cells ++ [0])) = .ok (text cells) := by
  obtain ⟨t, post, rfl, hchars, -⟩ := h
  rw [text_append hchars, readString, strlen_append hchars, Outcome.ok_bind, List.take_left]

/-- The callback puts the node at the end. -/
theorem Holds.onCompletion (h : Holds malloc calls list) (hcall : WellTyped call ∧ Accepted call)
    {copy : Datum} (hcopy : call.copy = some copy) :
    ∃ list', Returns (onCompletion
        { list with memory := ⟨list.memory.cells, Function.update list.memory.blocks
          (malloc (2 * list.added + 1)) (some copy)⟩ }
        ⟨malloc (2 * list.added + 1), call.type⟩ (malloc (2 * list.added))) list' ∧
      Holds malloc (calls ++ [call]) list' := by
  have hadded := h.added_eq
  have hfree := h.freshNode (2 * calls.length) (Nat.le_refl _)
  obtain ⟨cells, ends, hok, hreturns⟩ :=
    h.nodes.linkLast hfree ⟨malloc (2 * calls.length + 1), call.type⟩
  obtain ⟨cells', ends', hok', hholds, hframe⟩ :=
    h.nodes.insertLast hfree ⟨malloc (2 * calls.length + 1), call.type⟩
  cases hok.symm.trans hok'
  rw [← nodesOf_concat] at hholds
  refine ⟨⟨⟨cells, _⟩, ends.head, list.added + 1⟩, hadded ▸ hreturns.map _, ?_⟩
  have hlength : (calls ++ [call]).length = calls.length + 1 := List.length_append
  refine ⟨?_, fun c hc => ?_, ?_, fun a ha => ?_, ?_, fun k hk => ?_, fun b hb => ?_⟩
  · rw [hlength, ← hadded]
  · rcases List.mem_append.mp hc with hold | hnew
    · exact h.wellTyped c hold
    · exact List.mem_singleton.mp hnew ▸ hcall
  · exact ⟨hholds.head_eq, rfl, hholds.chain, hholds.nodup⟩
  · rw [nodesOf_concat, mem_addresses_concat]
    by_contra hnot
    obtain ⟨hold, hne⟩ := not_or.mp hnot
    dsimp only at ha
    rw [hframe a hold hne] at ha
    exact hold (h.covers a ha)
  · rw [hlength]
    intro m hm
    have hne : malloc m ≠ malloc (2 * calls.length) := fun heq => by
      have hindex := malloc.injective heq
      omega
    have hnone := h.freshNode m (by omega)
    refine (hframe _ (fun hmem => ?_) hne).trans hnone
    obtain ⟨node, hnode⟩ := h.nodes.chain.allocated hmem
    cases hnone.symm.trans hnode
  · dsimp only
    rcases Nat.lt_or_eq_of_le (Nat.lt_succ_iff.mp (hlength ▸ hk)) with hold | rfl
    · have hne : malloc (2 * k + 1) ≠ malloc (2 * list.added + 1) := fun heq => by
        have hindex := malloc.injective heq
        omega
      rw [Function.update_of_ne hne, h.copies k hold, List.getElem_append_left hold]
    · rw [hadded, Function.update_self, List.getElem_concat_length rfl, hcopy]
  · dsimp only at hb
    rw [hlength]
    rcases eq_or_ne b (malloc (2 * list.added + 1)) with rfl | hne
    · exact ⟨calls.length, Nat.lt_succ_self _, by rw [hadded]⟩
    · rw [Function.update_of_ne hne] at hb
      obtain ⟨k, hk, hb⟩ := h.owned b hb
      exact ⟨k, Nat.lt_succ_of_lt hk, hb⟩

/-- A call that is accepted. -/
theorem Holds.addNode (h : Holds malloc calls list) (htyped : WellTyped call)
    (haccepted : Accepted call) :
    ∃ list', Returns (addNode malloc list call.newData call.type) list' ∧
      Holds malloc (calls ++ [call]) list' := by
  obtain ⟨datum, hdatum⟩ := Option.ne_none_iff_exists'.mp haccepted.2
  obtain ⟨hint, hstr⟩ := htyped datum hdatum
  rcases haccepted.1 with htype | htype
  · obtain ⟨value, rfl⟩ := hint htype
    have hcopy : call.copy = some (.int value) := by rw [Call.copy, hdatum, Option.map_some]
    obtain ⟨list', hreturns, h'⟩ := h.onCompletion ⟨htyped, haccepted⟩ hcopy
    refine ⟨list', hreturns.congr fun fuel => ?_, h'⟩
    rw [VoidPointers.addNode, if_pos htype, hdatum, validateInput_some haccepted.1]
    rfl
  · obtain ⟨cells, rfl, hstring⟩ := hstr htype
    have hcopy : call.copy = some (.chars (text cells ++ [0])) := by
      rw [Call.copy, hdatum, Option.map_some]
    have hne : call.type ≠ intType := by
      rw [htype]
      decide
    obtain ⟨list', hreturns, h'⟩ := h.onCompletion ⟨htyped, haccepted⟩ hcopy
    refine ⟨list', hreturns.congr fun fuel => ?_, h'⟩
    rw [VoidPointers.addNode, if_neg hne, if_pos htype, hdatum, validateInput_some haccepted.1,
      Outcome.ok_bind, copyString_eq hstring, Outcome.ok_bind]

/-- A call that is not accepted ends the program. -/
theorem exists_addNode_exit (malloc : ℕ ↪ ℕ) (list : TypedList) (hnot : ¬ Accepted call)
    (fuel : ℕ) :
    ∃ message, addNode malloc list call.newData call.type fuel = .error (.exit 1 message) := by
  have hnull (htype : call.type = intType ∨ call.type = strType) : call.newData = none := by
    by_contra hne
    exact hnot ⟨htype, hne⟩
  obtain ⟨message, hmessage⟩ := exists_validateInput_none call.type
  by_cases hint : call.type = intType
  · refine ⟨message, ?_⟩
    rw [addNode, if_pos hint, hnull (Or.inl hint), hmessage]
    rfl
  by_cases hstr : call.type = strType
  · refine ⟨message, ?_⟩
    rw [addNode, if_neg hint, if_pos hstr, hnull (Or.inr hstr), hmessage]
    rfl
  · refine ⟨"Cannot add an unsupported type as new node\n", ?_⟩
    rw [addNode, if_neg hint, if_neg hstr]

theorem callRule (malloc : ℕ ↪ ℕ) :
    CallRule (fun list (call : Call) fuel => addNode malloc list call.newData call.type fuel)
      (fun _ => WellTyped) (fun _ => Accepted) (Holds malloc) where
  returns _ _ _ htyped h haccepted := h.addNode htyped haccepted
  of_ok _ call list fuel list' _ _ hok := by
    by_contra hnot
    obtain ⟨message, hexit⟩ := exists_addNode_exit malloc list hnot fuel
    cases hexit.symm.trans hok

/-! ### Printing and freeing -/

/-- What `print_list` is to print for all calls. -/
def transcript (calls : List Call) : String :=
  (calls.mapIdx fun k call => call.printed k).foldl (· ++ ·) ""

/-- The line of one call: the tag of its node decides which part it is. -/
theorem Holds.line_eq (h : Holds malloc calls list) {k : ℕ} (hk : k < calls.length) :
    ∃ number string,
      intLine list.memory.blocks k ⟨malloc (2 * k + 1), (calls[k]).type⟩ = .ok number ∧
      strLine list.memory.blocks k ⟨malloc (2 * k + 1), (calls[k]).type⟩ = .ok string ∧
      number ++ string = (calls[k]).printed k := by
  obtain ⟨htyped, htype, hdata⟩ := h.wellTyped calls[k] (List.getElem_mem hk)
  obtain ⟨datum, hdatum⟩ := Option.ne_none_iff_exists'.mp hdata
  obtain ⟨hint, hstr⟩ := htyped datum hdatum
  have hcopy := h.copies k hk
  rw [Call.copy, hdatum, Option.map_some] at hcopy
  have hload := CellHeap.load_some hcopy
  rw [Call.printed, hdatum]
  rcases htype with htype | htype
  · obtain ⟨value, rfl⟩ := hint htype
    have hne : (calls[k]).type ≠ strType := by
      rw [htype]
      decide
    refine ⟨_, _, ?_, if_neg hne, String.append_empty ..⟩
    rw [intLine, if_pos htype, hload]
    rfl
  · obtain ⟨cells, rfl, hstring⟩ := hstr htype
    have hne : (calls[k]).type ≠ intType := by
      rw [htype]
      decide
    refine ⟨_, _, if_neg hne, ?_, String.empty_append ..⟩
    rw [strLine, if_pos htype, hload, Outcome.ok_bind, readString_copy hstring, Outcome.ok_bind]

/-- The node with the index `k`. -/
theorem getElem?_nodesOf (malloc : ℕ ↪ ℕ) {k : ℕ} (hk : k < calls.length) :
    (nodesOf malloc calls)[k]? =
      some (malloc (2 * k), ⟨malloc (2 * k + 1), (calls[k]).type⟩) := by
  rw [nodesOf, List.getElem?_mapIdx, List.getElem?_eq_getElem hk, Option.map_some]

theorem transcript_take_succ {k : ℕ} (hk : k < calls.length) :
    transcript (calls.take (k + 1)) = transcript (calls.take k) ++ (calls[k]).printed k := by
  have hlength : (calls.take k).length = k := List.length_take_of_le hk.le
  rw [transcript, List.take_succ_eq_append_getElem hk, List.mapIdx_concat, List.foldl_append,
    hlength]
  rfl

/-- The walk of `print_list` from the node with the index `k` on. The induction is on the number
of nodes that are left. -/
theorem Holds.returns_from (h : Holds malloc calls list) (hlength : (calls.length : ℤ) ≤ intMax)
    {left k : ℕ} (hleft : k + left = calls.length) :
    Returns (fun fuel => loop (printPass list.memory) fuel
      (first ((nodesOf malloc calls).drop k), (k : ℤ), transcript (calls.take k)))
      (transcript calls) := by
  induction left generalizing k with
  | zero =>
    obtain rfl : k = calls.length := hleft
    have hend : (nodesOf malloc calls).drop calls.length = [] :=
      List.drop_of_length_le (by rw [nodesOf, List.length_mapIdx])
    rw [hend, List.take_length]
    exact .loop_leave rfl
  | succ left ih =>
    have hk : k < calls.length := by omega
    have hnode := getElem?_nodesOf malloc hk
    obtain ⟨number, string, hnumber, hstring, hline⟩ := h.line_eq hk
    have hfirst : first ((nodesOf malloc calls).drop k) = some (malloc (2 * k)) := by
      rw [first_drop, addresses, List.getElem?_map, hnode, Option.map_some]
    have hrest := ih (k := k + 1) (by omega)
    rw [transcript_take_succ hk, ← hline, ← String.append_assoc] at hrest
    refine .loop_again ?_ hrest
    rw [hfirst, printPass]
    dsimp only
    rw [Heap.load_some (h.nodes.get hnode), Outcome.ok_bind, hnumber, Outcome.ok_bind, hstring,
      Outcome.ok_bind, addInt_one (by omega)]
    rfl

theorem Holds.printList (h : Holds malloc calls list) (hlength : (calls.length : ℤ) ≤ intMax) :
    Returns (printList list) (transcript calls) := by
  refine (h.returns_from hlength (Nat.zero_add _)).congr fun fuel => ?_
  rw [VoidPointers.printList, List.drop_zero, ← h.nodes.head_eq]
  rfl

/-- No two nodes own the same value. -/
theorem Holds.owns (h : Holds malloc calls list) :
    Owns Entry.owned list.memory.blocks {x | x ∈ nodesOf malloc calls} where
  allocated := by
    rintro ⟨a, entry⟩ hmem b hb
    obtain ⟨k, hk, rfl, rfl⟩ := mem_nodesOf.mp hmem
    cases hb
    obtain ⟨datum, hdatum⟩ :=
      Option.ne_none_iff_exists'.mp (h.wellTyped calls[k] (List.getElem_mem hk)).2.2
    rw [h.copies k hk, Call.copy, hdatum, Option.map_some]
    exact Option.some_ne_none _
  once := by
    rintro ⟨a, entry⟩ hmem ⟨a', entry'⟩ hmem' b hb hb'
    obtain ⟨k, hk, rfl, rfl⟩ := mem_nodesOf.mp hmem
    obtain ⟨k', hk', rfl, rfl⟩ := mem_nodesOf.mp hmem'
    have hindex := malloc.injective (Option.some.inj (hb.trans hb'.symm))
    obtain rfl : k = k' := by omega
    rfl

theorem Holds.freeList (h : Holds malloc calls list) :
    ∃ list', Returns (freeList list) list' ∧ list'.head = none ∧
      (∀ a, list'.memory.cells a = none) ∧ ∀ b, list'.memory.blocks b = none := by
  obtain ⟨memory, hreturns, hcells, hblocks⟩ := h.nodes.chain.freeOwning h.nodes.nodup h.owns
  have hhead : list.head = first (nodesOf malloc calls) := h.nodes.head_eq
  rw [← hhead] at hreturns
  have hfree : Returns (VoidPointers.freeList list) ⟨memory, none, list.added⟩ :=
    hreturns.map fun memory => (⟨memory, none, list.added⟩ : TypedList)
  refine ⟨_, hfree, rfl, hcells.all h.covers, hblocks.all fun b hb => ?_⟩
  obtain ⟨k, hk, rfl⟩ := h.owned b hb
  exact ⟨_, mem_nodesOf.mpr ⟨k, hk, rfl, rfl⟩, rfl⟩

/-- **The life of a list of typed values.** Calls whose pointers fit their types end the program
exactly when one of them has a null pointer or an unsupported type. Otherwise `print_list` prints
their values in order, each as its tag says, and `free_list` frees every node and every value
once and leaves the empty list. -/
theorem typed_list_life_cycle (malloc : ℕ ↪ ℕ) (htyped : ∀ call ∈ calls, WellTyped call)
    (hlength : (calls.length : ℤ) ≤ intMax) :
    (Exits (run malloc calls) ↔ ¬ ∀ call ∈ calls, Accepted call) ∧
      ((∀ call ∈ calls, Accepted call) →
        ∃ list, Returns (run malloc calls) list ∧ Returns (printList list) (transcript calls) ∧
          ∃ list', Returns (freeList list) list' ∧ list'.head = none ∧
            (∀ a, list'.memory.cells a = none) ∧ ∀ b, list'.memory.blocks b = none) := by
  have hW : AllCalls (fun _ => WellTyped) calls := by
    rintro pre call post rfl
    exact htyped call (by simp)
  have hC : AllCalls (fun _ => Accepted) calls ↔ ∀ call ∈ calls, Accepted call := by
    constructor
    · intro h call hmem
      obtain ⟨pre, post, rfl⟩ := List.append_of_mem hmem
      exact h pre call post rfl
    · rintro h pre call post rfl
      exact h call (by simp)
  have hrule := callRule malloc
  rw [← hC]
  refine ⟨hrule.exits_iff hW (holds_empty malloc) fun _ call list _ hnot => ?_, fun hall => ?_⟩
  · refine ⟨0, fun fuel _ => ?_⟩
    obtain ⟨message, hexit⟩ := exists_addNode_exit malloc list hnot fuel
    exact ⟨1, message, hexit⟩
  · obtain ⟨list, hreturns, h⟩ :=
      hrule.exists_returns hW hall (holds_empty malloc)
    exact ⟨list, hreturns, h.printList hlength, h.freeList⟩

/-- The calls of `main`. -/
def mainCalls : List Call :=
  [⟨some (.chars (CString.ofString "Hello World" ++ [0])), strType⟩, ⟨some (.int 18), intType⟩]

theorem wellTyped_mainCalls : ∀ call ∈ mainCalls, WellTyped call := by
  intro call hmem datum hdatum
  rcases List.mem_cons.mp hmem with rfl | hmem
  · cases hdatum
    exact ⟨fun htype => absurd htype (by decide), fun _ =>
      ⟨_, rfl, CString.ofString "Hello World", [], rfl, by decide, by decide⟩⟩
  · cases List.mem_singleton.mp hmem
    cases hdatum
    exact ⟨fun _ => ⟨18, rfl⟩, fun htype => absurd htype (by decide)⟩

/-- `main` prints its string and its number. -/
theorem typed_list_life_cycle_main :
    transcript mainCalls = "[0] str value = Hello World\n[1] int value = 18\n" ∧
      ∃ list, Returns (run (.refl ℕ) mainCalls) list ∧
        Returns (printList list) (transcript mainCalls) := by
  have haccepted : ∀ call ∈ mainCalls, Accepted call := by
    unfold Accepted
    decide
  obtain ⟨list, hreturns, hprints, -⟩ :=
    (typed_list_life_cycle (.refl ℕ) wellTyped_mainCalls (by decide)).2 haccepted
  exact ⟨by decide +kernel, list, hreturns, hprints⟩

end BareMetal.VoidPointers
