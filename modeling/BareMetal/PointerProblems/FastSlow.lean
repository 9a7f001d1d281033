import BareMetal.CS.Paths
import BareMetal.CS.Teardown

/-!
# The middle of a list in `pointer_problems/fast_slow.c` and `problems/sll_traversal.c`

`find_middle` moves one pointer by one node and another by two nodes in each pass. Both files have
the same loop. It ends when the fast pointer has met the end of the list, so it never does where
the pointers lead round in a circle. The list of `fast_slow.c` is a struct with the pointer to the
first node, in memory of its own; that of `sll_traversal.c` is that pointer.

## Main results

* `findMiddle_returns_iff` — when the search returns, and which node, and when it never ends
* `Headed.addNode` — a list behind a struct does what the list without it does
* `middle_of_added` — the two programs
-/

namespace BareMetal.FastSlow

open CS LinkedList

variable {heap : Heap ℤ} {head : Option ℕ} {nodes : List (ℕ × ℤ)}

/-- The two pointers of `find_middle`. -/
structure Pointers where
  slow : Option ℕ
  fast : Option ℕ
  deriving DecidableEq, Repr

/-- One pass of `while (fast != NULL && fast->next != NULL)`. -/
def middlePass (heap : Heap ℤ) (s : Pointers) : Outcome (Pass Pointers (Option ℕ)) :=
  match s.fast with
  | none => .ok (.leave s.slow)
  | some fast => do
    let node ← heap.load (some fast)
    match node.next with
    | none => .ok (.leave s.slow)
    | some next => do
      let slow ← heap.load s.slow
      let after ← heap.load (some next)
      .ok (.again ⟨slow.next, after.next⟩)

/-- `find_middle`. -/
def findMiddle (heap : Heap ℤ) (head : Option ℕ) (fuel : ℕ) : Outcome (Option ℕ) :=
  if head = none then .ok none else loop (middlePass heap) fuel ⟨head, head⟩

/-! ### Finite lists -/

/-- The cell with the index `k`, read through a pointer to it. -/
theorem load_first_drop (h : Chain heap nodes) {k : ℕ} (hk : k < nodes.length) :
    ∃ a v, first (nodes.drop k) = some a ∧ heap a = some ⟨v, first (nodes.drop (k + 1))⟩ := by
  obtain ⟨⟨a, v⟩, hget⟩ : ∃ x, nodes[k]? = some x := ⟨_, List.getElem?_eq_getElem hk⟩
  have hsplit := eq_append_cons_of_getElem? hget
  refine ⟨a, v, ?_, ?_⟩
  · rw [first_drop, addresses, List.getElem?_map, hget, Option.map_some]
  · rw [hsplit] at h
    exact h.get

/-- The search from the pass `k` on. The slow pointer is at the node `k` and the fast one at the
node `2 * k`, and the induction is on what is left for the fast one. -/
theorem returns_from (h : Chain heap nodes) {left k : ℕ} (hleft : 2 * k + left = nodes.length) :
    Returns (fun fuel => loop (middlePass heap) fuel
      ⟨first (nodes.drop k), first (nodes.drop (2 * k))⟩)
      (first (nodes.drop (nodes.length / 2))) := by
  induction left using Nat.strongRecOn generalizing k with
  | ind left ih =>
    rcases Nat.eq_zero_or_pos left with rfl | hpos
    · -- the fast pointer is null
      have hend : nodes.drop (2 * k) = [] := List.drop_of_length_le (by omega)
      have hhalf : nodes.length / 2 = k := by omega
      rw [hend, hhalf]
      exact .loop_leave rfl
    obtain ⟨a, v, hfast, hcell⟩ := load_first_drop h (k := 2 * k) (by omega)
    rcases Nat.lt_or_ge 1 left with hmore | hone
    · -- there are two more nodes for it
      obtain ⟨b, w, hnext, hcell'⟩ := load_first_drop h (k := 2 * k + 1) (by omega)
      obtain ⟨c, u, hslow, hcell''⟩ := load_first_drop h (k := k) (by omega)
      have hrest := ih (left - 2) (by omega) (k := k + 1) (by omega)
      refine .loop_again ?_ hrest
      rw [hfast, hslow, middlePass]
      dsimp only
      rw [Heap.load_some hcell, Outcome.ok_bind]
      dsimp only
      rw [hnext]
      dsimp only
      rw [Heap.load_some hcell'', Outcome.ok_bind, Heap.load_some hcell', Outcome.ok_bind]
      rfl
    · -- it is at the last node
      have hend : nodes.drop (2 * k + 1) = [] := List.drop_of_length_le (by omega)
      have hhalf : nodes.length / 2 = k := by omega
      rw [hend] at hcell
      rw [hhalf]
      refine .loop_leave ?_
      rw [hfast, middlePass]
      dsimp only
      rw [Heap.load_some hcell]
      rfl

theorem returns_findMiddle (h : Chain heap nodes) :
    Returns (findMiddle heap (first nodes)) (addresses nodes)[nodes.length / 2]? := by
  rw [← first_drop]
  by_cases hnil : first nodes = none
  · obtain rfl := first_eq_none_iff.mp hnil
    exact .of_eq fun _ => rfl
  · have hfrom : 2 * 0 + nodes.length = nodes.length := by omega
    refine (returns_from h hfrom).congr fun fuel => ?_
    rw [findMiddle, if_neg hnil]
    rfl

/-! ### Endless lists -/

theorem findMiddle_endless (h : Endless heap head) (fuel : ℕ) :
    findMiddle heap head fuel = .error .outOfFuel := by
  obtain ⟨path, rfl, hcells⟩ := h
  rw [findMiddle, if_neg (Option.some_ne_none _)]
  -- the fast pointer is always twice as far as the slow one
  refine loop_forever (I := fun s => ∃ k, s = ⟨some (path k), some (path (2 * k))⟩) ?_ ⟨0, rfl⟩ fuel
  rintro s ⟨k, rfl⟩
  obtain ⟨u, hslow⟩ := hcells k
  obtain ⟨v, hfast⟩ := hcells (2 * k)
  obtain ⟨w, hnext⟩ := hcells (2 * k + 1)
  refine ⟨⟨some (path (k + 1)), some (path (2 * (k + 1)))⟩, ?_, k + 1, rfl⟩
  rw [middlePass]
  dsimp only
  rw [Heap.load_some hfast, Outcome.ok_bind]
  dsimp only
  rw [Heap.load_some hslow, Outcome.ok_bind, Heap.load_some hnext, Outcome.ok_bind]
  rfl

/-- **When the search returns.** Where no pointer that is followed dangles, `find_middle` returns
exactly when the list is finite. It is then the node in the middle, the second one of two, and
null only for the empty list. Its loop never ends exactly when the pointers never do. -/
theorem findMiddle_returns_iff (hheap : NoDangling heap head) :
    ((∃ middle, Returns (findMiddle heap head) middle) ↔
        ∃ nodes, Chain heap nodes ∧ first nodes = head) ∧
      (∀ nodes, Chain heap nodes → first nodes = head →
        Returns (findMiddle heap head) (addresses nodes)[nodes.length / 2]?) ∧
      ((∀ fuel, findMiddle heap head fuel = .error .outOfFuel) ↔ Endless heap head) := by
  have hreturns : ∀ nodes, Chain heap nodes → first nodes = head →
      Returns (findMiddle heap head) (addresses nodes)[nodes.length / 2]? := by
    rintro nodes hchain rfl
    exact returns_findMiddle hchain
  refine ⟨⟨?_, ?_⟩, hreturns, ?_, findMiddle_endless⟩
  · rintro ⟨middle, hmiddle⟩
    rcases chain_or_endless hheap with hchain | hendless
    · exact hchain
    · obtain ⟨fuel, hok⟩ := hmiddle.exists_ok
      cases (findMiddle_endless hendless fuel).symm.trans hok
  · rintro ⟨nodes, hchain, hfirst⟩
    exact ⟨_, hreturns nodes hchain hfirst⟩
  · intro hnever
    -- on a finite list some fuel is enough
    refine (chain_or_endless hheap).resolve_left ?_
    rintro ⟨nodes, hchain, hfirst⟩
    obtain ⟨fuel, hok⟩ := (hreturns nodes hchain hfirst).exists_ok
    cases (hnever fuel).symm.trans hok

/-- A node that points to itself. -/
def circle : Heap ℤ := fun a => if a = 0 then some ⟨7, some 0⟩ else none

/-- On the circle both pointers go round and never meet the end. -/
theorem findMiddle_returns_iff_circle :
    NoDangling circle (some 0) ∧ ∀ fuel, findMiddle circle (some 0) fuel = .error .outOfFuel := by
  have hwalk (k : ℕ) : walk circle (some 0) k = some 0 := by
    induction k with
    | zero => rfl
    | succ k ih =>
      rw [walk, ih]
      rfl
  have hheap : NoDangling circle (some 0) := by
    intro k a ha
    rw [hwalk k] at ha
    cases ha
    exact Option.some_ne_none _
  have hendless : Endless circle (some 0) := ⟨fun _ => 0, rfl, fun _ => ⟨7, rfl⟩⟩
  exact ⟨hheap, (findMiddle_returns_iff hheap).2.2.mpr hendless⟩

/-! ### The programs -/

/-- The nodes, the pointer to the first one, and the number of calls of `malloc` and `calloc`. -/
structure Program where
  heap : Heap ℤ
  head : Option ℕ
  mallocs : ℕ

/-- `init` of `sll_traversal.c`. -/
def init (malloc : ℕ ↪ ℕ) : Program := ⟨Heap.alloc (fun _ => none) (malloc 0) 1, some (malloc 0), 1⟩

/-- `add_node` of `sll_traversal.c`. It has no case for an empty list, which it is never given. -/
def addNode (malloc : ℕ ↪ ℕ) (s : Program) (value : ℤ) (fuel : ℕ) : Outcome Program := do
  let node := malloc s.mallocs
  let (heap, head) ← linkLast (s.heap.alloc node value) s.head node fuel
  .ok ⟨heap, head, s.mallocs + 1⟩

/-- Calls of `add_node` of `sll_traversal.c`. -/
def addAll (malloc : ℕ ↪ ℕ) (s : Program) (values : List ℤ) (fuel : ℕ) : Outcome Program :=
  values.foldlM (fun s value => addNode malloc s value fuel) s

/-- `free_nodes` of `sll_traversal.c`. -/
def freeNodes (s : Program) (fuel : ℕ) : Outcome (Heap ℤ) := freeAll s.heap s.head fuel

/-- The memory of `fast_slow.c`, the pointer to the list, and the number of calls of `malloc` and
`calloc`. -/
structure ListProgram where
  memory : HeaderMemory ℤ
  list : Option ℕ
  mallocs : ℕ

namespace ListProgram

/-- `init_list`. -/
def initList (malloc : ℕ ↪ ℕ) : ListProgram :=
  ⟨⟨fun _ => none, Function.update (fun _ => none) (malloc 0) (some ⟨none⟩)⟩, some (malloc 0), 1⟩

/-- `add_node`. -/
def addNode (malloc : ℕ ↪ ℕ) (s : ListProgram) (value : ℤ) (fuel : ℕ) : Outcome ListProgram := do
  let node := malloc s.mallocs
  let head ← s.memory.loadHead s.list
  let (nodes, head) ← linkLast (s.memory.nodes.alloc node value) head node fuel
  let memory ← HeaderMemory.storeHead ⟨nodes, s.memory.lists⟩ s.list head
  .ok ⟨memory, s.list, s.mallocs + 1⟩

/-- Calls of `add_node`. -/
def addAll (malloc : ℕ ↪ ℕ) (s : ListProgram) (values : List ℤ) (fuel : ℕ) : Outcome ListProgram :=
  values.foldlM (fun s value => s.addNode malloc value fuel) s

/-- `find_middle`. -/
def findMiddle (s : ListProgram) (fuel : ℕ) : Outcome (Option ℕ) := do
  let head ← s.memory.loadHead s.list
  FastSlow.findMiddle s.memory.nodes head fuel

/-- `free_ll`, with what it leaves. -/
def freeLl (s : ListProgram) (fuel : ℕ) : Outcome (HeaderMemory ℤ) := do
  let head ← s.memory.loadHead s.list
  let nodes ← freeAll s.memory.nodes head fuel
  let lists ← CellHeap.free s.memory.lists s.list
  .ok ⟨nodes, lists⟩

end ListProgram

/-- The value of the node that a pointer points to. -/
def valueAt (heap : Heap ℤ) (p : Option ℕ) : Option ℤ := do
  let a ← p
  let node ← heap a
  node.value

/-- The list holds the values, and there are no other nodes. -/
structure Represents (malloc : ℕ ↪ ℕ) (values : List ℤ) (s : Program) : Prop where
  fresh : Fresh malloc s.heap s.mallocs
  nodes : ∃ nodes, Holds s.heap ⟨s.head, (addresses nodes).getLast?⟩ nodes ∧
    nodes.map Prod.snd = values ∧ ∀ a, s.heap a ≠ none → a ∈ addresses nodes

variable {malloc : ℕ ↪ ℕ} {values : List ℤ} {s : Program}

/-- The only node of a new list in `sll_traversal.c`. -/
theorem heap_init (malloc : ℕ ↪ ℕ) :
    (init malloc).heap = Function.update (fun _ => none) (malloc 0) (some ⟨1, none⟩) :=
  rfl

theorem represents_init (malloc : ℕ ↪ ℕ) : Represents malloc [1] (init malloc) where
  fresh := by
    have hempty : Fresh malloc (fun _ => none : Heap ℤ) 0 := fun _ _ => rfl
    rw [heap_init]
    exact hempty.succ fun b hb _ => Function.update_of_ne hb ..
  nodes := by
    rw [heap_init]
    refine ⟨[(malloc 0, 1)], ⟨rfl, rfl, ⟨Function.update_self .., trivial⟩,
      List.nodup_singleton _⟩, rfl, fun a ha => ?_⟩
    by_contra hnot
    have hne : a ≠ malloc 0 := fun heq => hnot (heq ▸ List.mem_singleton_self _)
    exact ha (Function.update_of_ne hne ..)

theorem Represents.addNode (h : Represents malloc values s) (value : ℤ) :
    ∃ s', Returns (addNode malloc s value) s' ∧ Represents malloc (values ++ [value]) s' := by
  obtain ⟨nodes, hholds, hvalues, hcovers⟩ := h.nodes
  have hfree := h.fresh s.mallocs (Nat.le_refl _)
  -- `linkLast` walks to the node that `insertLast` has a pointer to
  obtain ⟨heap, ends, hok, hreturns⟩ := hholds.linkLast hfree value
  obtain ⟨heap', ends', hok', hholds', hframe⟩ := hholds.insertLast hfree value
  cases hok.symm.trans hok'
  have hchain := hholds'.chain
  refine ⟨⟨heap, ends.head, s.mallocs + 1⟩,
    hreturns.map fun list => (⟨list.1, list.2, s.mallocs + 1⟩ : Program), ?_,
    nodes ++ [(malloc s.mallocs, value)],
    ⟨hholds'.head_eq, rfl, hchain, hholds'.nodup⟩, ?_, fun a ha => ?_⟩
  · refine h.fresh.succ fun b hb hnone => ?_
    dsimp only
    rw [hframe b (hholds.fresh hnone) hb, hnone]
  · rw [List.map_append, hvalues]
    rfl
  · rw [mem_addresses_concat]
    by_contra hnot
    obtain ⟨hold, hne⟩ := not_or.mp hnot
    dsimp only at ha
    rw [hframe a hold hne] at ha
    exact hold (hcovers a ha)

theorem Represents.addAll (h : Represents malloc values s) (added : List ℤ) :
    ∃ s', Returns (addAll malloc s added) s' ∧ Represents malloc (values ++ added) s' := by
  refine Returns.foldlM (P := fun pre s => Represents malloc (values ++ pre) s) ?_ ?_
  · intro pre value post s _ h
    rw [← List.append_assoc]
    exact h.addNode value
  · rwa [List.append_nil]

/-- The value in the middle is found. -/
theorem Represents.middle (h : Represents malloc values s) :
    ∃ middle, Returns (findMiddle s.heap s.head) middle ∧
      valueAt s.heap middle = values[values.length / 2]? := by
  obtain ⟨nodes, hholds, rfl, -⟩ := h.nodes
  have hhead : s.head = first nodes := hholds.head_eq
  refine ⟨_, hhead ▸ returns_findMiddle hholds.chain, ?_⟩
  rw [List.length_map, addresses, List.getElem?_map, List.getElem?_map]
  cases hget : nodes[nodes.length / 2]? with
  | none => rfl
  | some node =>
    obtain ⟨a, v⟩ := node
    rw [Option.map_some, valueAt]
    dsimp only [Option.bind_eq_bind]
    rw [Option.bind_some, hholds.get hget]
    rfl

/-- All nodes can be freed. -/
theorem Represents.freeNodes (h : Represents malloc values s) :
    ∃ heap, Returns (freeNodes s) heap ∧ ∀ a, heap a = none := by
  obtain ⟨nodes, hholds, -, hcovers⟩ := h.nodes
  obtain ⟨heap, hreturns, hfrees⟩ := hholds.chain.frees hholds.nodup
  have hhead : s.head = first nodes := hholds.head_eq
  rw [← hhead] at hreturns
  exact ⟨heap, hreturns, hfrees.all hcovers⟩

/-! ### The list behind a struct -/

/-- The list of `s` is that of `bare` with a struct in front, the only one. -/
structure Headed (malloc : ℕ ↪ ℕ) (s : ListProgram) (bare : Program) : Prop where
  nodes_eq : s.memory.nodes = bare.heap
  lists_eq : s.memory.lists = Function.update (fun _ => none) (malloc 0) (some ⟨bare.head⟩)
  list_eq : s.list = some (malloc 0)
  mallocs_eq : s.mallocs = bare.mallocs

/-- The list of `fast_slow.c` holds the values, and nothing else is allocated. -/
def Stores (malloc : ℕ ↪ ℕ) (values : List ℤ) (s : ListProgram) : Prop :=
  ∃ bare, Headed malloc s bare ∧ Represents malloc values bare

variable {l : ListProgram} {bare bare' : Program}

theorem stores_initList (malloc : ℕ ↪ ℕ) : Stores malloc [] (.initList malloc) :=
  ⟨⟨fun _ => none, none, 1⟩, ⟨rfl, rfl, rfl, rfl⟩,
    ⟨fun _ _ => rfl, [], holds_nil _, rfl, fun _ hne => absurd rfl hne⟩⟩

namespace Headed

/-- `list->head`. -/
theorem loadHead (h : Headed malloc l bare) : l.memory.loadHead l.list = .ok bare.head := by
  rw [HeaderMemory.loadHead, h.list_eq, h.lists_eq, CellHeap.load_single]
  rfl

theorem addNode (h : Headed malloc l bare) {value : ℤ}
    (hreturns : Returns (FastSlow.addNode malloc bare value) bare') :
    ∃ l', Returns (l.addNode malloc value) l' ∧ Headed malloc l' bare' := by
  refine ⟨⟨⟨bare'.heap, Function.update (fun _ => none) (malloc 0) (some ⟨bare'.head⟩)⟩,
    some (malloc 0), bare'.mallocs⟩, (hreturns.map fun bare => (⟨⟨bare.heap,
      Function.update (fun _ => none) (malloc 0) (some ⟨bare.head⟩)⟩, some (malloc 0),
      bare.mallocs⟩ : ListProgram)).congr fun fuel => ?_, rfl, rfl, rfl, rfl⟩
  rw [ListProgram.addNode, h.loadHead, Outcome.ok_bind, h.nodes_eq, h.mallocs_eq, FastSlow.addNode,
    bind_assoc]
  -- both link the node in the same way, and then the struct gets the new head
  refine bind_congr fun ⟨nodes, head⟩ => ?_
  have hstore : HeaderMemory.storeHead ⟨nodes, l.memory.lists⟩ l.list head =
      .ok ⟨nodes, Function.update (fun _ => none) (malloc 0) (some ⟨head⟩)⟩ := by
    rw [HeaderMemory.storeHead, h.list_eq, h.lists_eq, CellHeap.modify_single]
    rfl
  dsimp only
  rw [hstore, h.list_eq]
  rfl

theorem findMiddle (h : Headed malloc l bare) {middle : Option ℕ}
    (hreturns : Returns (FastSlow.findMiddle bare.heap bare.head) middle) :
    Returns l.findMiddle middle := by
  refine hreturns.congr fun fuel => ?_
  rw [ListProgram.findMiddle, h.loadHead, Outcome.ok_bind, h.nodes_eq]

theorem freeLl (h : Headed malloc l bare) {heap : Heap ℤ}
    (hreturns : Returns (FastSlow.freeNodes bare) heap) :
    Returns l.freeLl ⟨heap, fun _ => none⟩ := by
  refine (hreturns.map fun heap => (⟨heap, fun _ => none⟩ : HeaderMemory ℤ)).congr fun fuel => ?_
  have hlists : CellHeap.free l.memory.lists l.list = .ok fun _ => none := by
    rw [h.list_eq, h.lists_eq, CellHeap.free_single]
  rw [ListProgram.freeLl, h.loadHead, Outcome.ok_bind, h.nodes_eq, hlists]
  rfl

end Headed

theorem Stores.addAll (h : Stores malloc values l) (added : List ℤ) :
    ∃ l', Returns (l.addAll malloc added) l' ∧ Stores malloc (values ++ added) l' := by
  refine Returns.foldlM (P := fun pre l => Stores malloc (values ++ pre) l) ?_ ?_
  · rintro pre value post l - ⟨bare, hheaded, h⟩
    obtain ⟨bare', hreturns, h'⟩ := h.addNode value
    obtain ⟨l', hreturns', hheaded'⟩ := hheaded.addNode hreturns
    rw [← List.append_assoc]
    exact ⟨l', hreturns', bare', hheaded', h'⟩
  · rwa [List.append_nil]

/-- **The two programs.** After any calls of `add_node`, `find_middle` of `fast_slow.c` finds the
value in the middle of those added, and that of `sll_traversal.c` the one in the middle of 1 and
those added. Both free every node they have allocated, and `free_ll` frees the list too. -/
theorem middle_of_added (malloc : ℕ ↪ ℕ) (values : List ℤ) :
    (∃ l, Returns ((ListProgram.initList malloc).addAll malloc values) l ∧
        (∃ middle, Returns l.findMiddle middle ∧
          valueAt l.memory.nodes middle = values[values.length / 2]?) ∧
        ∃ left, Returns l.freeLl left ∧ (∀ a, left.nodes a = none) ∧
          ∀ a, left.lists a = none) ∧
      ∃ s, Returns (addAll malloc (init malloc) values) s ∧
        (∃ middle, Returns (findMiddle s.heap s.head) middle ∧
          valueAt s.heap middle = (1 :: values)[(values.length + 1) / 2]?) ∧
        ∃ heap, Returns (freeNodes s) heap ∧ ∀ a, heap a = none := by
  obtain ⟨l, hreturns, bare, hheaded, h⟩ := (stores_initList malloc).addAll values
  obtain ⟨middle, hmiddle, hvalue⟩ := h.middle
  obtain ⟨heap, hfree, hnone⟩ := h.freeNodes
  obtain ⟨s, hreturns', h'⟩ := (represents_init malloc).addAll values
  refine ⟨⟨l, hreturns, ⟨middle, hheaded.findMiddle hmiddle, ?_⟩, _, hheaded.freeLl hfree, hnone,
    fun _ => rfl⟩, s, hreturns', h'.middle, h'.freeNodes⟩
  rw [hheaded.nodes_eq]
  exact hvalue

end BareMetal.FastSlow
