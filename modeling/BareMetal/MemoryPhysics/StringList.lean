import BareMetal.CS.Calls
import BareMetal.CS.DoublyLinked
import BareMetal.CS.Reversal
import BareMetal.CS.StringCopy

/-!
# The list of strings of `memory-physics/ll.c`

Every node points to a block of 32 bytes with a copy of a string. A list without strings is
one node without such a block after `init`, and a null pointer once `remove_last` has
removed the last node. `add_node` takes the pointer itself and not its address: it cannot
make a new first node, and it reads the node that the pointer leads to.

## Main results

* `Represents.addNode`, `Represents.removeLast`, `Represents.reverseList` — one call each
* `represents_sequence_iff` — the list is the sequence of the strings, unless one is added after
  the last one was removed, or `remove_last` counts more nodes than an `int` can
* `addNode_after_removeLast` — three calls that end at a null pointer
-/

namespace BareMetal.StringList

open CS LinkedList StringCopy

/-- The nodes, the blocks with the strings, and how often `malloc` has been called. -/
structure Memory where
  nodes : Heap (Option ℕ)
  texts : ℕ → Option CString
  mallocs : ℕ

/-- `malloc` for nodes, whose addresses may return once they are freed, and for blocks, which
these functions never free. -/
structure Malloc where
  node : Allocator (Option ℕ)
  data : ℕ ↪ ℕ
  junk : ℕ → ℕ → Int8

/-- `DATA_SIZE`. -/
def dataSize : ℕ := 32

/-- `init`. -/
def init (malloc : Malloc) (m : Memory) : Memory × Option ℕ :=
  let list := malloc.node.malloc m.mallocs m.nodes
  ({ m with nodes := m.nodes.alloc list none, mallocs := m.mallocs + 1 }, some list)

/-- `malloc(DATA_SIZE)`, and a copy of `value` in the new block. -/
def copyValue (malloc : Malloc) (m : Memory) (value : TextBuffer) : Outcome (Memory × ℕ) := do
  let data := malloc.data m.mallocs
  let block ← strncpy (Cells.fresh (malloc.junk m.mallocs) dataSize) 0 value.cells dataSize
  let block ← Cells.store block (dataSize - 1 : ℕ) 0
  .ok ({ m with texts := Function.update m.texts data (some block), mallocs := m.mallocs + 1 },
    data)

/-- `add_node`. -/
def addNode (malloc : Malloc) (m : Memory) (list : Option ℕ) (value : TextBuffer) (fuel : ℕ) :
    Outcome Memory := do
  let head ← m.nodes.load list
  if head.value = none then do
    let (m, data) ← copyValue malloc m value
    let nodes ← m.nodes.store list ⟨some data, none⟩
    .ok { m with nodes := nodes }
  else do
    let newNode := malloc.node.malloc m.mallocs m.nodes
    let (m, data) ← copyValue malloc { m with mallocs := m.mallocs + 1 } value
    let (nodes, _) ← linkLast (m.nodes.alloc newNode (some data)) list newNode fuel
    .ok { m with nodes := nodes }

/-- The pointers and the counter of the walk in `remove_last`. -/
structure Walk where
  previous : Option ℕ
  current : ℕ
  hasOneNode : ℤ
  deriving DecidableEq, Repr

/-- One pass of the walk. -/
def walkPass (nodes : Heap (Option ℕ)) (s : Walk) : Outcome (Pass Walk Walk) := do
  let node ← nodes.load (some s.current)
  match node.next with
  | none => .ok (.leave s)
  | some next => do
    let hasOneNode ← addInt s.hasOneNode 1
    .ok (.again ⟨some s.current, next, hasOneNode⟩)

/-- What `remove_last` does after the walk. -/
def unlinkLast (m : Memory) (list : Option ℕ) (walk : Walk) : Outcome (Memory × Option ℕ) :=
  if walk.hasOneNode = 0 then do
    let nodes ← CellHeap.free m.nodes (some walk.current)
    .ok ({ m with nodes := nodes }, none)
  else do
    let previous ← m.nodes.load walk.previous
    let nodes ← m.nodes.store walk.previous { previous with next := none }
    let nodes ← CellHeap.free nodes (some walk.current)
    .ok ({ m with nodes := nodes }, list)

/-- `remove_last`, with the new `*list`. -/
def removeLast (m : Memory) (list : Option ℕ) (fuel : ℕ) : Outcome (Memory × Option ℕ) :=
  match list with
  | none => .error (.exit 1 "Nothing to remove from an empty list\n")
  | some head => do
    let walk ← loop (walkPass m.nodes) fuel ⟨none, head, 0⟩
    unlinkLast m list walk

/-- `reverse_list`, with the new `*list`. -/
def reverseList (nodes : Heap (Option ℕ)) (list : Option ℕ) (fuel : ℕ) :
    Outcome (Heap (Option ℕ) × Option ℕ) :=
  reverseLinks nodes list fuel

/-! ### Sequences of calls -/

/-- The calls of a program that has made a list with `init`. -/
inductive Call
  | addNode (value : TextBuffer)
  | removeLast
  | reverseList

/-- The memory and the variable that points to the list. -/
structure State where
  memory : Memory
  list : Option ℕ

/-- One call. -/
def perform (malloc : Malloc) (s : State) (call : Call) (fuel : ℕ) : Outcome State :=
  match call with
  | .addNode value => do
    let m ← addNode malloc s.memory s.list value fuel
    .ok { s with memory := m }
  | .removeLast => do
    let (m, list) ← removeLast s.memory s.list fuel
    .ok ⟨m, list⟩
  | .reverseList => do
    let (nodes, list) ← reverseList s.memory.nodes s.list fuel
    .ok ⟨{ s.memory with nodes := nodes }, list⟩

/-- The state after `init`. -/
def start (malloc : Malloc) : State :=
  ⟨(init malloc ⟨fun _ => none, fun _ => none, 0⟩).1,
    (init malloc ⟨fun _ => none, fun _ => none, 0⟩).2⟩

/-- All calls of a program. -/
def performAll (malloc : Malloc) (calls : List Call) (fuel : ℕ) : Outcome State :=
  calls.foldlM (fun s call => perform malloc s call fuel) (start malloc)

/-- What a call does to the sequence of the strings. -/
def Call.act (seq : List CString) : Call → List CString
  | .addNode value => seq ++ [value.chars.take (dataSize - 1)]
  | .removeLast => seq.dropLast
  | .reverseList => seq.reverse

/-- The strings after some calls. -/
def sequence (calls : List Call) : List CString := calls.foldl Call.act []

/-- `remove_last` is called on lists with strings only. -/
def Removable (pre : List Call) : Call → Prop
  | .removeLast => sequence pre ≠ []
  | _ => True

/-- No string is added after the last one was removed, and `remove_last` can count the nodes
before the last one in an `int`. -/
def Supported (pre : List Call) : Call → Prop
  | .addNode _ => sequence pre = [] → Call.removeLast ∉ pre
  | .removeLast => (sequence pre).length ≤ intMax + 1
  | .reverseList => True

@[simp] theorem sequence_nil : sequence [] = [] := rfl

@[simp] theorem sequence_concat (calls : List Call) (call : Call) :
    sequence (calls ++ [call]) = call.act (sequence calls) := by
  simp [sequence]

/-! ### What a list represents -/

/-- A data pointer leads to a block with the string. -/
def HoldsText (texts : ℕ → Option CString) (data : Option ℕ) (value : CString) : Prop :=
  ∃ d block, data = some d ∧ texts d = some block ∧ text block = value

/-- The list has one node for each string, or a single node without a block for none. -/
def Values (texts : ℕ → Option CString) (datas : List (Option ℕ)) (seq : List CString) : Prop :=
  List.Forall₂ (HoldsText texts) datas seq ∨ (datas = [none] ∧ seq = [])

/-- The nodes of a list hold the strings `seq`. -/
structure IsList (m : Memory) (nodes : List (ℕ × Option ℕ)) (seq : List CString) : Prop where
  chain : Chain m.nodes nodes
  nodup : (addresses nodes).Nodup
  values : Values m.texts (nodes.map Prod.snd) seq

/-- The list behind the pointer is the sequence `seq`. -/
def Represents (s : State) (seq : List CString) : Prop :=
  ∃ nodes, s.list = first nodes ∧ IsList s.memory nodes seq

/-- `malloc` has addresses left. -/
structure Available (malloc : Malloc) (m : Memory) : Prop where
  bounded : m.nodes.Bounded
  fresh : ∀ k, m.mallocs ≤ k → m.texts (malloc.data k) = none

variable {malloc : Malloc} {m : Memory} {nodes : List (ℕ × Option ℕ)} {seq : List CString}
  {texts : ℕ → Option CString} {datas : List (Option ℕ)} {xs : List (ℕ × Option ℕ)}
  {l c d : ℕ} {w : Option ℕ} {s : State} {calls : List Call}

theorem Values.mono {texts' : ℕ → Option CString} (h : Values texts datas seq)
    (hold : ∀ d block, texts d = some block → texts' d = some block) :
    Values texts' datas seq := by
  refine h.imp_left fun h => h.imp fun data value hdata => ?_
  obtain ⟨d, block, hd, hblock, htext⟩ := hdata
  exact ⟨d, block, hd, hold d block hblock, htext⟩

/-- A list with strings has a node for each of them. -/
theorem Values.forall₂ (h : Values texts datas seq) (hne : seq ≠ []) :
    List.Forall₂ (HoldsText texts) datas seq := by
  rcases h with h | ⟨-, hnil⟩
  · exact h
  · exact absurd hnil hne

/-- The first node has a block, unless the list is the one that `init` has made. -/
theorem Values.head_eq_none (h : Values texts (none :: datas) seq) : datas = [] ∧ seq = [] := by
  rcases h with h | ⟨heq, hseq⟩
  · cases h with
    | cons hhead _ =>
      obtain ⟨d, block, hd, -⟩ := hhead
      cases hd
  · exact ⟨(List.cons.inj heq).2, hseq⟩

/-! ### Adding a string -/

/-- The memory with one more block. -/
def Memory.withCopy (m : Memory) (malloc : Malloc) (value : TextBuffer) : Memory :=
  { m with
    texts := Function.update m.texts (malloc.data m.mallocs)
      (some ((padded value.chars dataSize).set (dataSize - 1) 0))
    mallocs := m.mallocs + 1 }

theorem copyValue_eq (malloc : Malloc) (m : Memory) (value : TextBuffer) :
    copyValue malloc m value = .ok (m.withCopy malloc value, malloc.data m.mallocs) := by
  have hcopy : strncpy (Cells.fresh (malloc.junk m.mallocs) dataSize) 0 value.cells dataSize =
      .ok (padded value.chars dataSize) :=
    strncpy_all value.nul_notMem (Cells.length_fresh _ _) value.rest
  have hstore : Cells.store (padded value.chars dataSize) (dataSize - 1 : ℕ) 0 =
      .ok ((padded value.chars dataSize).set (dataSize - 1) 0) :=
    Cells.store_of_lt (by rw [length_padded]; decide) 0
  rw [copyValue, hcopy, Outcome.ok_bind, hstore]
  rfl

theorem Available.withCopy (h : Available malloc m) (value : TextBuffer) :
    Available malloc (m.withCopy malloc value) := by
  refine ⟨h.bounded, fun k (hk : m.mallocs + 1 ≤ k) => ?_⟩
  have hne : malloc.data k ≠ malloc.data m.mallocs := fun heq => by
    have := malloc.data.injective heq
    omega
  exact (Function.update_of_ne hne ..).trans (h.fresh k (by omega))

/-- The old blocks are left alone. -/
theorem Available.texts_withCopy (h : Available malloc m) (value : TextBuffer) (d : ℕ)
    (block : CString) (hd : m.texts d = some block) :
    (m.withCopy malloc value).texts d = some block :=
  CellHeap.update_of_some (h.fresh _ (Nat.le_refl _)) hd

/-- The new block holds the first 31 characters of the string. -/
theorem holdsText_withCopy (malloc : Malloc) (m : Memory) (value : TextBuffer) :
    HoldsText (m.withCopy malloc value).texts (some (malloc.data m.mallocs))
      (value.chars.take (dataSize - 1)) :=
  ⟨_, _, rfl, Function.update_self .., text_set_padded value.nul_notMem (dataSize - 1)⟩

theorem Available.succ (h : Available malloc m) :
    Available malloc { m with mallocs := m.mallocs + 1 } :=
  ⟨h.bounded, fun k (hk : m.mallocs + 1 ≤ k) => h.fresh k (Nat.le_of_succ_le hk)⟩

/-- The first string goes into the node that is there already. -/
theorem IsList.addNode_first (h : IsList m ((c, none) :: xs) seq) (havail : Available malloc m)
    (value : TextBuffer) :
    ∃ m', Returns (addNode malloc m (some c) value) m' ∧
      IsList m' [(c, some (malloc.data m.mallocs))] (seq ++ [value.chars.take (dataSize - 1)]) ∧
      Available malloc m' := by
  obtain ⟨hdatas, rfl⟩ := h.values.head_eq_none
  obtain rfl : xs = [] := List.map_eq_nil_iff.mp hdatas
  have hcell : m.nodes c = some ⟨none, none⟩ := h.chain.1
  refine ⟨{ m.withCopy malloc value with
    nodes := Function.update m.nodes c (some ⟨some (malloc.data m.mallocs), none⟩) }, ?_, ?_, ?_⟩
  · refine .of_eq fun fuel => ?_
    rw [StringList.addNode, Heap.load_some hcell, Outcome.ok_bind, if_pos rfl, copyValue_eq,
      Outcome.ok_bind]
    have hstore : (m.withCopy malloc value).nodes.store (some c)
        ⟨some (malloc.data m.mallocs), none⟩ = _ := Heap.store_some hcell
    dsimp only
    rw [hstore]
    rfl
  · exact ⟨⟨Function.update_self .., trivial⟩, h.nodup,
      Or.inl (.cons (holdsText_withCopy malloc m value) .nil)⟩
  · exact ⟨havail.bounded.update _ _, (havail.withCopy value).fresh⟩

/-- Every other string goes into a new node at the end. -/
theorem IsList.addNode_last (h : IsList m ((c, some d) :: xs) seq) (havail : Available malloc m)
    (value : TextBuffer) :
    ∃ m' l, Returns (addNode malloc m (some c) value) m' ∧
      IsList m' ((c, some d) :: xs ++ [(l, some (malloc.data (m.mallocs + 1)))])
        (seq ++ [value.chars.take (dataSize - 1)]) ∧
      Available malloc m' := by
  obtain ⟨hchain, hnodup, hvalues⟩ := h
  let l := malloc.node.malloc m.mallocs m.nodes
  let m₁ : Memory := { m with mallocs := m.mallocs + 1 }
  have hl : m.nodes l = none := malloc.node.fresh _ _ havail.bounded
  -- the walk to the last node does what a pointer to it would do
  have hholds : Holds m.nodes ⟨some c, (addresses ((c, some d) :: xs)).getLast?⟩
      ((c, some d) :: xs) := ⟨rfl, rfl, hchain, hnodup⟩
  obtain ⟨heap', ends', hinsert, hlink⟩ :=
    hholds.linkLast hl (some (malloc.data (m.mallocs + 1)))
  obtain ⟨heap₁, ends₁, hinsert₁, hholds', -⟩ :=
    hholds.insertLast hl (some (malloc.data (m.mallocs + 1)))
  cases hinsert.symm.trans hinsert₁
  have havail₁ : Available malloc (m₁.withCopy malloc value) := havail.succ.withCopy value
  refine ⟨{ m₁.withCopy malloc value with nodes := heap' }, l, ?_, ?_, ?_⟩
  · refine (hlink.map fun walk => { m₁.withCopy malloc value with nodes := walk.1 }).congr
      fun fuel => ?_
    rw [StringList.addNode, Heap.load_some hchain.1, Outcome.ok_bind, if_neg (by simp),
      copyValue_eq]
    rfl
  · refine ⟨hholds'.chain, hholds'.nodup, Or.inl ?_⟩
    rw [List.map_append]
    refine List.rel_append (?_ : List.Forall₂ _ _ _)
      (.cons (holdsText_withCopy malloc m₁ value) .nil)
    -- the list is not the one that `init` has made
    rcases hvalues.mono (havail.succ.texts_withCopy value) with hold | ⟨heq, -⟩
    · exact hold
    · cases heq
  · exact ⟨Heap.Bounded.insertLast (havail.bounded.update _ _) hinsert, havail₁.fresh⟩

/-- **`add_node`** appends a string, if there is a node. -/
theorem IsList.addNode (h : IsList m nodes seq) (havail : Available malloc m)
    (hne : nodes ≠ []) (value : TextBuffer) :
    ∃ m' nodes', Returns (addNode malloc m (first nodes) value) m' ∧
      first nodes' = first nodes ∧ nodes' ≠ [] ∧
      IsList m' nodes' (seq ++ [value.chars.take (dataSize - 1)]) ∧ Available malloc m' := by
  cases nodes with
  | nil => exact absurd rfl hne
  | cons x xs =>
    obtain ⟨c, w⟩ := x
    cases w with
    | none =>
      obtain ⟨m', hreturns, hlist, havail'⟩ := h.addNode_first havail value
      exact ⟨m', _, hreturns, by rfl, by simp, hlist, havail'⟩
    | some d =>
      obtain ⟨m', l, hreturns, hlist, havail'⟩ := h.addNode_last havail value
      exact ⟨m', _, hreturns, by rfl, by simp, hlist, havail'⟩

/-- `list->data` of a null pointer. -/
theorem addNode_none (malloc : Malloc) (m : Memory) (value : TextBuffer) (fuel : ℕ) :
    StringList.addNode malloc m none value fuel = .error (.outOfBounds 0) :=
  rfl

/-! ### Removing the last string -/

/-- The walk of `remove_last` to the last node. -/
theorem returns_walk {heap : Heap (Option ℕ)} (h : Chain heap (xs ++ [(l, w)])) {p : Option ℕ}
    {k : ℕ} (hmax : (k : ℤ) + xs.length ≤ intMax) (hfirst : first (xs ++ [(l, w)]) = some c) :
    Returns (fun fuel => loop (walkPass heap) fuel ⟨p, c, k⟩)
      ⟨DoublyLinked.lastOr p xs, l, (k + xs.length : ℕ)⟩ := by
  induction xs generalizing p c k with
  | nil =>
    cases hfirst
    refine .loop_leave ?_
    rw [walkPass, Heap.load_some h.1]
    rfl
  | cons x xs ih =>
    obtain ⟨b, u⟩ := x
    cases hfirst
    obtain ⟨hcell, hchain⟩ := chain_cons_append.mp h
    rw [List.length_cons, Nat.cast_succ] at hmax
    obtain ⟨n, hn⟩ := exists_first_concat xs (l, w)
    have hrest := ih (p := some b) (k := k + 1) hchain (by rw [Nat.cast_succ]; omega) hn
    have hcount : k + ((b, u) :: xs).length = k + 1 + xs.length := by
      rw [List.length_cons]
      omega
    rw [hcount]
    refine .loop_again ?_ hrest
    simp only [walkPass, Heap.load_some hcell, Outcome.ok_bind, hn,
      addInt_one (by omega : (k : ℤ) < intMax), Nat.cast_succ]

/-- The walk returns only where it can count the nodes. -/
theorem length_le_of_walk {heap : Heap (Option ℕ)} (h : Chain heap (xs ++ [(l, w)]))
    {p : Option ℕ} {k : ℤ} {j : ℕ} {walk : Walk} (hk : k ≤ intMax)
    (hfirst : first (xs ++ [(l, w)]) = some c)
    (hleaves : LeavesAfter (walkPass heap) j ⟨p, c, k⟩ walk) : k + xs.length ≤ intMax := by
  induction xs generalizing p c k j with
  | nil => simpa using hk
  | cons x xs ih =>
    obtain ⟨b, u⟩ := x
    cases hfirst
    obtain ⟨hcell, hchain⟩ := chain_cons_append.mp h
    obtain ⟨n, hn⟩ := exists_first_concat xs (l, w)
    -- there is a next node, so the pass counts the one that it leaves
    have hpass : walkPass heap ⟨p, b, k⟩ =
        addInt k 1 >>= fun count => .ok (.again ⟨some b, n, count⟩) := by
      rw [walkPass, Heap.load_some hcell, Outcome.ok_bind, hn]
    cases hleaves with
    | leave hleave =>
      obtain ⟨count, -, hok⟩ := Outcome.bind_eq_ok.mp (hpass.symm.trans hleave)
      cases hok
    | again hagain hrest =>
      obtain ⟨count, hadd, hok⟩ := Outcome.bind_eq_ok.mp (hpass.symm.trans hagain)
      cases hok
      obtain ⟨rfl, hmax⟩ := of_addInt_eq_ok hadd
      have hle := ih hchain hmax hn hrest
      rw [List.length_cons, Nat.cast_succ]
      omega

/-- The last node is freed, and the one before it becomes the last. -/
theorem exists_unlinkLast (h : Chain m.nodes (xs ++ [(l, w)]))
    (hnodup : (addresses (xs ++ [(l, w)])).Nodup) :
    ∃ heap, unlinkLast m (first (xs ++ [(l, w)])) ⟨DoublyLinked.lastOr none xs, l, xs.length⟩ =
        .ok ({ m with nodes := heap }, first xs) ∧
      Chain heap xs ∧ (m.nodes.Bounded → heap.Bounded) := by
  have hlast : m.nodes l = some ⟨w, none⟩ := h.get
  rcases List.eq_nil_or_concat xs with rfl | ⟨ys, ⟨b, u⟩, rfl⟩
  · refine ⟨Function.update m.nodes l none, ?_, trivial, fun hbounded => hbounded.update _ _⟩
    simp only [unlinkLast, List.length_nil, Nat.cast_zero, if_true, CellHeap.free_some hlast]
    rfl
  · rw [List.concat_eq_append] at h hnodup ⊢
    rw [addresses_concat, List.nodup_append_comm, List.singleton_append, List.nodup_cons] at hnodup
    obtain ⟨hl, hnodup⟩ := hnodup
    have hlb : l ≠ b := by
      rintro rfl
      exact hl (by simp)
    have hprev : m.nodes b = some ⟨u, some l⟩ := by
      rw [List.append_assoc, List.singleton_append] at h
      exact h.get
    -- the chain ends at `b`, and the cell at `l` is none of it
    have hcut : Chain (Function.update m.nodes b (some ⟨u, none⟩)) (ys ++ [(b, u)]) := by
      rw [List.append_assoc, List.singleton_append] at h
      have hnil : Chain m.nodes ([] : List (ℕ × Option ℕ)) := trivial
      exact h.relink hnodup hnil List.not_mem_nil _
    have hlast' : Function.update m.nodes b (some ⟨u, none⟩) l = some ⟨w, none⟩ := by
      rw [Function.update_of_ne hlb, hlast]
    refine ⟨Function.update (Function.update m.nodes b (some ⟨u, none⟩)) l none, ?_, ?_,
      fun hbounded => (hbounded.update _ _).update _ _⟩
    · have hhead : first (ys ++ [(b, u)] ++ [(l, w)]) = first (ys ++ [(b, u)]) := by
        cases ys <;> rfl
      have hcount : ((ys ++ [(b, u)]).length : ℤ) ≠ 0 := by
        rw [List.length_append, List.length_singleton]
        omega
      rw [unlinkLast, if_neg hcount, DoublyLinked.lastOr_concat, Heap.load_some hprev,
        Outcome.ok_bind, Heap.store_some hprev, Outcome.ok_bind, CellHeap.free_some hlast', hhead]
      rfl
    · refine hcut.frame fun a ha => Function.update_of_ne ?_ ..
      rintro rfl
      exact hl ha

/-- **`remove_last`** drops the last string. The pointer becomes null with the last of them. -/
theorem IsList.removeLast (h : IsList m nodes seq) (havail : Available malloc m)
    (hne : seq ≠ []) (hmax : (seq.length : ℤ) ≤ intMax + 1) :
    ∃ m' nodes', Returns (removeLast m (first nodes)) (m', first nodes') ∧
      IsList m' nodes' seq.dropLast ∧ Available malloc m' ∧
      (nodes' = [] ↔ seq.dropLast = []) := by
  obtain ⟨hchain, hnodup, hvalues⟩ := h
  have hall := hvalues.forall₂ hne
  have hlen : nodes.length = seq.length := by simpa using hall.length_eq
  rcases List.eq_nil_or_concat nodes with rfl | ⟨xs, ⟨l, w⟩, rfl⟩
  · exact absurd (List.length_eq_zero_iff.mp hlen.symm) hne
  · rw [List.concat_eq_append] at hchain hnodup hall hlen ⊢
    have hcount : ((0 : ℕ) : ℤ) + xs.length ≤ intMax := by
      rw [← hlen, List.length_append, List.length_singleton, Nat.cast_succ] at hmax
      rw [Nat.cast_zero]
      omega
    obtain ⟨c, hc⟩ := exists_first_concat xs (l, w)
    have hwalk := returns_walk (p := none) hchain hcount hc
    obtain ⟨heap, hunlink, hchain', hbounded⟩ := exists_unlinkLast hchain hnodup
    -- the blocks with the strings before the last one are as they were
    have hdrop : List.Forall₂ (HoldsText m.texts) (xs.map Prod.snd) seq.dropLast := by
      have htake := List.forall₂_take xs.length hall
      have hseq : seq.dropLast = seq.take xs.length := by
        rw [List.dropLast_eq_take, ← hlen]
        simp
      rw [hseq]
      simpa using htake
    refine ⟨{ m with nodes := heap }, xs, ?_, ⟨hchain', ?_, Or.inl hdrop⟩,
      ⟨hbounded havail.bounded, havail.fresh⟩, ?_⟩
    · rw [hc] at hunlink ⊢
      rw [Nat.zero_add] at hwalk
      exact hwalk.bind (g := fun walk _ => unlinkLast m (some c) walk) (.of_eq fun _ => hunlink)
    · rw [addresses_concat] at hnodup
      exact hnodup.of_append_left
    · rw [← List.length_eq_zero_iff, ← List.length_eq_zero_iff, ← hdrop.length_eq,
        List.length_map]

/-- `remove_last` returns only where it can count the nodes. -/
theorem IsList.length_le_of_removeLast (h : IsList m nodes seq) (hne : seq ≠ []) {fuel : ℕ}
    {out : Memory × Option ℕ} (hrun : StringList.removeLast m (first nodes) fuel = .ok out) :
    (seq.length : ℤ) ≤ intMax + 1 := by
  have hall := h.values.forall₂ hne
  have hlen : nodes.length = seq.length := by simpa using hall.length_eq
  rcases List.eq_nil_or_concat nodes with rfl | ⟨xs, ⟨l, w⟩, rfl⟩
  · exact absurd (List.length_eq_zero_iff.mp hlen.symm) hne
  · rw [List.concat_eq_append] at h hlen hrun
    obtain ⟨c, hc⟩ := exists_first_concat xs (l, w)
    rw [hc] at hrun
    obtain ⟨walk, hwalk, -⟩ := Outcome.bind_eq_ok.mp hrun
    obtain ⟨j, -, hleaves⟩ := loop_eq_ok_iff.mp hwalk
    have hle := length_le_of_walk h.chain (by decide) hc hleaves
    rw [← hlen, List.length_append, List.length_singleton, Nat.cast_succ]
    omega

/-! ### Reversing -/

/-- **`reverse_list`** reverses the sequence. -/
theorem IsList.reverseList (h : IsList m nodes seq) (havail : Available malloc m) :
    ∃ heap, Returns (reverseList m.nodes (first nodes)) (heap, first nodes.reverse) ∧
      IsList { m with nodes := heap } nodes.reverse seq.reverse ∧
      Available malloc { m with nodes := heap } := by
  obtain ⟨heap, hreturns, hchain, hframe⟩ := h.chain.reverse h.nodup
  refine ⟨heap, hreturns, ⟨hchain, ?_, ?_⟩, ?_, havail.fresh⟩
  · rw [addresses_reverse]
    exact List.nodup_reverse.mpr h.nodup
  · rw [List.map_reverse]
    rcases h.values with hall | ⟨heq, rfl⟩
    · exact Or.inl (List.rel_reverse hall)
    · rw [heq]
      exact Or.inr ⟨rfl, rfl⟩
  · -- what is free stays free
    obtain ⟨bound, hbound⟩ := havail.bounded
    exact ⟨bound, fun a ha => (hframe a (h.chain.fresh (hbound a ha))).trans (hbound a ha)⟩

/-! ### Any number of calls -/

/-- What the calls so far leave: a list of their strings, which has no node exactly when all
strings were removed. -/
def Reached (malloc : Malloc) (calls : List Call) (s : State) : Prop :=
  ∃ nodes, s.list = first nodes ∧ IsList s.memory nodes (sequence calls) ∧
    Available malloc s.memory ∧ (nodes = [] ↔ sequence calls = [] ∧ Call.removeLast ∈ calls)

theorem Reached.represents (h : Reached malloc calls s) : Represents s (sequence calls) := by
  obtain ⟨nodes, hlist, hnodes, -, -⟩ := h
  exact ⟨nodes, hlist, hnodes⟩

theorem reached_start (malloc : Malloc) : Reached malloc [] (start malloc) := by
  refine ⟨[(_, none)], rfl, ⟨⟨Function.update_self .., trivial⟩, List.nodup_singleton _,
    Or.inr ⟨rfl, rfl⟩⟩, ⟨?_, fun _ _ => rfl⟩, by simp⟩
  exact Heap.Bounded.update ⟨0, fun _ _ => rfl⟩ _ _

theorem callRule (malloc : Malloc) :
    CallRule (perform malloc) Removable Supported (Reached malloc) where
  returns calls call s hremovable h hsupported := by
    obtain ⟨m, list⟩ := s
    obtain ⟨nodes, rfl, hlist, havail, hempty⟩ := h
    cases call with
    | addNode value =>
      have hne : nodes ≠ [] := fun hnil => hsupported (hempty.mp hnil).1 (hempty.mp hnil).2
      obtain ⟨m', nodes', hreturns, hfirst, hne', hlist', havail'⟩ :=
        hlist.addNode havail hne value
      refine ⟨⟨m', first nodes⟩, hreturns.map fun m => (⟨m, first nodes⟩ : State), nodes',
        hfirst.symm, ?_, havail', ?_⟩
      · rw [sequence_concat]
        exact hlist'
      · rw [sequence_concat]
        exact iff_of_false hne' fun hnil => by simp [Call.act] at hnil
    | removeLast =>
      obtain ⟨m', nodes', hreturns, hlist', havail', hempty'⟩ :=
        hlist.removeLast havail hremovable hsupported
      refine ⟨⟨m', first nodes'⟩, hreturns.map fun out => (⟨out.1, out.2⟩ : State),
        nodes', rfl, ?_, havail', ?_⟩
      · rw [sequence_concat]
        exact hlist'
      · rw [sequence_concat, hempty']
        exact (and_iff_left (by simp)).symm
    | reverseList =>
      obtain ⟨heap, hreturns, hlist', havail'⟩ := hlist.reverseList havail
      refine ⟨⟨{ m with nodes := heap }, first nodes.reverse⟩,
        hreturns.map fun out => (⟨{ m with nodes := out.1 }, out.2⟩ : State), nodes.reverse,
        rfl, ?_, havail', ?_⟩
      · rw [sequence_concat]
        exact hlist'
      · rw [sequence_concat, List.reverse_eq_nil_iff, hempty]
        simp [Call.act]
  of_ok calls call s fuel s' hremovable h hok := by
    obtain ⟨m, list⟩ := s
    obtain ⟨nodes, rfl, hlist, havail, hempty⟩ := h
    cases call with
    | addNode value =>
      intro hseq hmem
      obtain rfl := hempty.mpr ⟨hseq, hmem⟩
      cases hok
    | removeLast =>
      obtain ⟨out, hrun, -⟩ := Outcome.bind_eq_ok.mp hok
      exact hlist.length_le_of_removeLast hremovable hrun
    | reverseList => trivial

/-- **The list is the sequence of its strings** after any calls, and none of them reads a null
pointer, exactly when no string is added after the last one was removed and `remove_last` can
count the nodes. -/
theorem represents_sequence_iff (malloc : Malloc) (calls : List Call)
    (hremovable : AllCalls Removable calls) :
    (∃ s, Returns (performAll malloc calls) s ∧ Represents s (sequence calls)) ↔
      AllCalls Supported calls := by
  constructor
  · rintro ⟨s, hreturns, -⟩
    exact ((callRule malloc).of_returns hremovable (reached_start malloc) hreturns).1
  · intro hsupported
    obtain ⟨s, hreturns, hreached⟩ :=
      (callRule malloc).exists_returns hremovable hsupported (reached_start malloc)
    exact ⟨s, hreturns, hreached.represents⟩

/-- Nodes at the first free address, and blocks one after the other. -/
noncomputable def Malloc.firstFit : Malloc where
  node := Allocator.firstFit (Option ℕ)
  data := Function.Embedding.refl ℕ
  junk _ _ := 0

/-- One string comes and goes. -/
def addAndRemove : List Call := [.addNode (.ofLength 40), .removeLast]

theorem allCalls_addAndRemove {C : List Call → Call → Prop} :
    AllCalls C addAndRemove ↔
      C [] (.addNode (.ofLength 40)) ∧ C [.addNode (.ofLength 40)] .removeLast := by
  have hfirst : AllCalls C ([] ++ [.addNode (.ofLength 40)]) ↔ _ := allCalls_concat
  have hboth : AllCalls C ([.addNode (.ofLength 40)] ++ [.removeLast]) ↔ _ := allCalls_concat
  rw [List.nil_append, and_iff_right (allCalls_nil C)] at hfirst
  rw [hfirst] at hboth
  exact hboth

theorem removable_addAndRemove : AllCalls Removable addAndRemove :=
  allCalls_addAndRemove.mpr ⟨trivial, by simp [Removable, sequence, Call.act]⟩

theorem supported_addAndRemove : AllCalls Supported addAndRemove :=
  allCalls_addAndRemove.mpr ⟨fun _ => List.not_mem_nil, by
    simp [Supported, sequence, Call.act, intMax]⟩

/-- The string is in the list, and then the list is a null pointer. -/
theorem represents_sequence_iff_addAndRemove :
    ∃ s, Returns (performAll Malloc.firstFit addAndRemove) s ∧
      Represents s (sequence addAndRemove) :=
  (represents_sequence_iff Malloc.firstFit addAndRemove removable_addAndRemove).mpr
    supported_addAndRemove

/-- With one more string `add_node` reads through the null pointer. -/
theorem addNode_after_removeLast :
    AllCalls Removable (addAndRemove ++ [.addNode (.ofLength 1)]) ∧
      ∃ bound, ∀ fuel, bound ≤ fuel →
        performAll Malloc.firstFit (addAndRemove ++ [.addNode (.ofLength 1)]) fuel =
          .error (.outOfBounds 0) := by
  refine ⟨allCalls_concat.mpr ⟨removable_addAndRemove, trivial⟩, ?_⟩
  obtain ⟨⟨m, list⟩, hreturns, nodes, hlist, -, -, hempty⟩ :=
    (callRule Malloc.firstFit).exists_returns removable_addAndRemove supported_addAndRemove
      (reached_start _)
  obtain rfl : nodes = [] := hempty.mpr ⟨by simp [sequence, addAndRemove, Call.act], by
    simp [addAndRemove]⟩
  obtain rfl : list = none := hlist
  obtain ⟨bound, hbound⟩ := hreturns.enough
  refine ⟨bound, fun fuel hfuel => ?_⟩
  rw [performAll, List.foldlM_append, hbound fuel hfuel, Outcome.ok_bind, List.foldlM_cons, perform,
    addNode_none]
  rfl

end BareMetal.StringList
