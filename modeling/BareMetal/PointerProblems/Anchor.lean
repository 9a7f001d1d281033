import BareMetal.CS.Calls
import BareMetal.CS.Chains
import BareMetal.CS.DoublyLinked

/-!
# The list of `pointer_problems/anchor.c`

`init_list` makes a list with the value 1, `add_node` appends a value and `remove_node` unlinks
the first node with a given value. When the last node is removed the head becomes null, which
`remove_node` allows for. `add_node` does not: its walk begins with a look at the first node.

## Main results

* `Represents.addNode`, `Represents.removeNode` — one call each
* `holds_sequence_iff` — the list is the sequence of its values, unless a value is added to an
  empty list
* `addNode_after_removeNode` — two calls that end at a null pointer
-/

namespace BareMetal.Anchor

open CS LinkedList
open DoublyLinked (lastOr lastOr_concat)

/-- The memory, how often `malloc` has been called, and the variable that points to the list. -/
structure State where
  heap : Heap ℤ
  mallocs : ℕ
  head : Option ℕ

/-- `init_list`, in a program that has no nodes yet. -/
def initList (malloc : Allocator ℤ) : State :=
  let node := malloc.malloc 0 fun _ => none
  ⟨Heap.alloc (fun _ => none) node 1, 1, some node⟩

/-- One pass of `while(current->next != NULL) current = current->next`. -/
def lastNodePass (heap : Heap ℤ) (current : Option ℕ) :
    Outcome (Pass (Option ℕ) (Option ℕ)) := do
  let node ← heap.load current
  if node.next ≠ none then .ok (.again node.next) else .ok (.leave current)

/-- `add_node`. -/
def addNode (malloc : Allocator ℤ) (s : State) (value : ℤ) (fuel : ℕ) : Outcome State := do
  let newNode := malloc.malloc s.mallocs s.heap
  let heap := s.heap.alloc newNode value
  let current ← loop (lastNodePass heap) fuel s.head
  let heap ← CellHeap.modify heap current fun node => { node with next := some newNode }
  .ok ⟨heap, s.mallocs + 1, s.head⟩

/-- The pointers of the walk in `remove_node`. -/
structure Walk where
  prev : Option ℕ
  current : Option ℕ
  deriving DecidableEq, Repr

/-- One pass of the walk to the first node with the value. -/
def searchPass (heap : Heap ℤ) (targetValue : ℤ) (s : Walk) : Outcome (Pass Walk Walk) :=
  match s.current with
  | none => .ok (.leave s)
  | some current => do
    let node ← heap.load (some current)
    if node.value ≠ targetValue then .ok (.again ⟨some current, node.next⟩) else .ok (.leave s)

/-- What `remove_node` does after the walk. -/
def unlink (s : State) (walk : Walk) : Outcome State :=
  match walk.current with
  | none => .ok s
  | some current => do
    let node ← s.heap.load (some current)
    let heap ← CellHeap.modify s.heap walk.prev fun prev => { prev with next := node.next }
    let heap ← CellHeap.free heap (some current)
    .ok { s with heap := heap }

/-- `remove_node`. -/
def removeNode (s : State) (targetValue : ℤ) (fuel : ℕ) : Outcome State :=
  match s.head with
  | none => .ok s
  | some head => do
    let node ← s.heap.load (some head)
    if node.value = targetValue then do
      let heap ← CellHeap.free s.heap (some head)
      .ok { s with heap := heap, head := node.next }
    else do
      let walk ← loop (searchPass s.heap targetValue) fuel ⟨none, some head⟩
      unlink s walk

/-! ### Sequences of calls -/

/-- The calls of a program. -/
inductive Call
  | addNode (value : ℤ)
  | removeNode (targetValue : ℤ)
  deriving DecidableEq, Repr

/-- One call. -/
def perform (malloc : Allocator ℤ) (s : State) (call : Call) (fuel : ℕ) : Outcome State :=
  match call with
  | .addNode value => addNode malloc s value fuel
  | .removeNode targetValue => removeNode s targetValue fuel

/-- All calls of a program. -/
def performAll (malloc : Allocator ℤ) (calls : List Call) (fuel : ℕ) : Outcome State :=
  calls.foldlM (fun s call => perform malloc s call fuel) (initList malloc)

/-- What a call does to the sequence of the values. -/
def Call.act (seq : List ℤ) : Call → List ℤ
  | .addNode value => seq ++ [value]
  | .removeNode targetValue => seq.erase targetValue

/-- The values after some calls. -/
def sequence (calls : List Call) : List ℤ := calls.foldl Call.act [1]

/-- No value is added to an empty list. -/
def Supported (pre : List Call) : Call → Prop
  | .addNode _ => sequence pre ≠ []
  | .removeNode _ => True

@[simp] theorem sequence_concat (calls : List Call) (call : Call) :
    sequence (calls ++ [call]) = call.act (sequence calls) := by
  simp [sequence]

/-- The list has the given nodes, which hold the values `seq`. -/
structure Represents (s : State) (nodes : List (ℕ × ℤ)) (seq : List ℤ) : Prop where
  head_eq : s.head = first nodes
  chain : Chain s.heap nodes
  nodup : (addresses nodes).Nodup
  values : nodes.map Prod.snd = seq

variable {malloc : Allocator ℤ} {s : State} {nodes xs ys : List (ℕ × ℤ)} {seq : List ℤ}
  {heap : Heap ℤ} {a c l : ℕ} {v w value targetValue : ℤ} {p : Option ℕ} {calls : List Call}

/-! ### Adding -/

theorem returns_lastNode (h : Chain heap (xs ++ [(l, w)])) :
    Returns (fun fuel => loop (lastNodePass heap) fuel (first (xs ++ [(l, w)]))) (some l) := by
  induction xs with
  | nil =>
    refine .loop_leave ?_
    rw [List.nil_append, first_cons, lastNodePass, Heap.load_some h.1]
    rfl
  | cons x xs ih =>
    obtain ⟨b, u⟩ := x
    obtain ⟨hcell, hchain⟩ := chain_cons_append.mp h
    refine .loop_again ?_ (ih hchain)
    obtain ⟨n, hn⟩ := exists_first_concat xs (l, w)
    rw [List.cons_append, first_cons, lastNodePass, Heap.load_some hcell, Outcome.ok_bind, hn,
      if_pos (Option.some_ne_none n)]

/-- **`add_node`** on a list with a node. -/
theorem Represents.addNode (h : Represents s nodes seq) (hbounded : s.heap.Bounded)
    (hne : nodes ≠ []) (value : ℤ) :
    ∃ s' a, Returns (addNode malloc s value) s' ∧
      Represents s' (nodes ++ [(a, value)]) (seq ++ [value]) ∧ s'.heap.Bounded := by
  obtain ⟨heap, mallocs, head⟩ := s
  obtain ⟨hhead, hchain, hnodup, hvalues⟩ := h
  dsimp only at hhead hchain hbounded
  subst hhead
  let a := malloc.malloc mallocs heap
  have ha : heap a = none := malloc.fresh mallocs heap hbounded
  obtain ⟨xs, ⟨l, w⟩, rfl⟩ := (List.eq_nil_or_concat nodes).resolve_left hne
  rw [List.concat_eq_append] at hchain hnodup hvalues ⊢
  have hframe : Chain (heap.alloc a value) (xs ++ [(l, w)]) := hchain.alloc ha value
  have hlast : heap.alloc a value l = some ⟨w, none⟩ := hframe.get
  -- the walk runs in the memory that has the new node already
  refine ⟨⟨Function.update (heap.alloc a value) l (some ⟨w, some a⟩), mallocs + 1,
    first (xs ++ [(l, w)])⟩, a, ?_, ⟨?_, ?_, ?_, ?_⟩, (hbounded.update _ _).update _ _⟩
  · let finish (current : Option ℕ) (_ : ℕ) : Outcome State := do
      let heap ← CellHeap.modify (heap.alloc a value) current fun node =>
        { node with next := some a }
      .ok ⟨heap, mallocs + 1, first (xs ++ [(l, w)])⟩
    refine (returns_lastNode hframe).bind (g := finish) (.of_eq fun _ => ?_)
    simp only [finish, CellHeap.modify_some hlast, Outcome.ok_bind]
  · cases xs <;> rfl
  · rw [List.append_assoc]
    exact hchain.link hnodup ha value
  · rw [addresses_concat, ← List.concat_eq_append]
    exact hnodup.concat (hchain.fresh ha)
  · rw [List.map_append, hvalues]
    rfl

/-- The walk through an empty list begins with a null pointer. -/
theorem addNode_none (hhead : s.head = none) (fuel : ℕ) :
    Anchor.addNode malloc s value (fuel + 1) = .error (.outOfBounds 0) := by
  rw [Anchor.addNode, hhead]
  rfl

theorem addNode_ne_ok (hhead : s.head = none) (fuel : ℕ) {s' : State} :
    Anchor.addNode malloc s value fuel ≠ .ok s' := by
  cases fuel with
  | zero => exact nofun
  | succ fuel =>
    rw [addNode_none hhead]
    exact nofun

/-! ### Removing -/

/-- The walk ends at the first node with the value, or behind all nodes. -/
theorem exists_search (h : Chain heap nodes) (targetValue : ℤ) (p : Option ℕ) :
    (∃ xs c ys, nodes = xs ++ (c, targetValue) :: ys ∧ targetValue ∉ xs.map Prod.snd ∧
      Returns (fun fuel => loop (searchPass heap targetValue) fuel ⟨p, first nodes⟩)
        ⟨lastOr p xs, some c⟩) ∨
    (targetValue ∉ nodes.map Prod.snd ∧ ∃ prev,
      Returns (fun fuel => loop (searchPass heap targetValue) fuel ⟨p, first nodes⟩)
        ⟨prev, none⟩) := by
  induction nodes generalizing p with
  | nil => exact Or.inr ⟨List.not_mem_nil, p, .loop_leave rfl⟩
  | cons x rest ih =>
    obtain ⟨a, v⟩ := x
    obtain ⟨hcell, hrest⟩ := h
    by_cases hv : v = targetValue
    · subst hv
      refine Or.inl ⟨[], a, rest, rfl, List.not_mem_nil, .loop_leave ?_⟩
      simp only [first_cons, searchPass, Heap.load_some hcell, Outcome.ok_bind]
      exact if_neg (not_not_intro rfl)
    · have hpass : searchPass heap targetValue ⟨p, first ((a, v) :: rest)⟩ =
          .ok (.again ⟨some a, first rest⟩) := by
        simp only [first_cons, searchPass, Heap.load_some hcell, Outcome.ok_bind]
        exact if_pos hv
      rcases ih hrest (some a) with ⟨xs, c, ys, rfl, hxs, hreturns⟩ | ⟨hnot, prev, hreturns⟩
      · refine Or.inl ⟨(a, v) :: xs, c, ys, rfl, ?_, .loop_again hpass hreturns⟩
        exact List.not_mem_cons_of_ne_of_not_mem (Ne.symm hv) hxs
      · refine Or.inr ⟨?_, prev, .loop_again hpass hreturns⟩
        exact List.not_mem_cons_of_ne_of_not_mem (Ne.symm hv) hnot

/-- The node at `c` is unlinked and freed, behind the one that the walk has visited before. -/
theorem exists_unlink (mallocs : ℕ) (head : Option ℕ)
    (h : Chain heap (xs ++ [(a, w)] ++ (c, v) :: ys))
    (hnodup : (addresses (xs ++ [(a, w)] ++ (c, v) :: ys)).Nodup) :
    ∃ heap', unlink ⟨heap, mallocs, head⟩ ⟨some a, some c⟩ = .ok ⟨heap', mallocs, head⟩ ∧
      Chain heap' (xs ++ [(a, w)] ++ ys) ∧ (heap.Bounded → heap'.Bounded) := by
  have hcurrent : heap c = some ⟨v, first ys⟩ := h.get
  have hys : Chain heap ys := (Chain.of_append h).2
  rw [List.append_assoc, List.singleton_append] at h
  have hprev : heap a = some ⟨w, some c⟩ := h.get
  -- no address occurs twice
  rw [addresses_append, addresses_cons] at hnodup
  obtain ⟨hc, hnodup⟩ := List.nodup_cons.mp (List.nodup_middle.mp hnodup)
  obtain ⟨hnodup, -, hdisjoint⟩ := List.nodup_append'.mp hnodup
  have ha : a ∉ addresses ys := List.disjoint_left.mp hdisjoint (by simp)
  have hca : c ≠ a := by
    rintro rfl
    exact hc (by simp)
  have hlinked := h.relink hnodup hys ha w
  have hcurrent' : Function.update heap a (some ⟨w, first ys⟩) c = some ⟨v, first ys⟩ := by
    rw [Function.update_of_ne hca, hcurrent]
  refine ⟨Function.update (Function.update heap a (some ⟨w, first ys⟩)) c none, ?_, ?_,
    fun hbounded => (hbounded.update _ _).update _ _⟩
  · simp only [unlink, Heap.load_some hcurrent, Outcome.ok_bind, CellHeap.modify_some hprev]
    rw [CellHeap.free_some hcurrent']
    rfl
  · rw [List.append_assoc, List.singleton_append]
    refine hlinked.frame fun b hb => Function.update_of_ne ?_ ..
    rintro rfl
    rw [List.append_cons, addresses_append] at hb
    exact hc hb

/-- The values without the first `v`. -/
theorem erase_values (hxs : v ∉ xs.map Prod.snd) :
    ((xs ++ (c, v) :: ys).map Prod.snd).erase v = (xs ++ ys).map Prod.snd := by
  rw [List.map_append, List.map_cons, List.erase_append_right _ hxs, List.erase_cons_head,
    List.map_append]

/-- The head has the value. -/
theorem returns_removeNode_head {mallocs : ℕ} (h : Chain heap ((c, v) :: ys)) :
    Returns (removeNode ⟨heap, mallocs, some c⟩ v)
      ⟨Function.update heap c none, mallocs, first ys⟩ := by
  refine .of_eq fun fuel => ?_
  simp only [removeNode, Heap.load_some h.1, Outcome.ok_bind, if_true, CellHeap.free_some h.1]

/-- Another node may have the value. -/
theorem returns_removeNode_walk {mallocs : ℕ} {next : Option ℕ} {walk : Walk} {s' : State}
    (hcell : heap c = some ⟨v, next⟩) (hv : v ≠ targetValue)
    (hwalk : Returns (fun fuel => loop (searchPass heap targetValue) fuel ⟨none, some c⟩) walk)
    (hunlink : unlink ⟨heap, mallocs, some c⟩ walk = .ok s') :
    Returns (removeNode ⟨heap, mallocs, some c⟩ targetValue) s' := by
  have hbind := hwalk.bind (g := fun walk _ => unlink ⟨heap, mallocs, some c⟩ walk)
    (.of_eq fun _ => hunlink)
  refine hbind.congr fun fuel => ?_
  simp only [removeNode, Heap.load_some hcell, Outcome.ok_bind, if_neg hv]

/-- **`remove_node`** removes the first node with the value. -/
theorem Represents.removeNode (h : Represents s nodes seq) (hbounded : s.heap.Bounded)
    (targetValue : ℤ) :
    ∃ s' nodes', Returns (removeNode s targetValue) s' ∧
      Represents s' nodes' (seq.erase targetValue) ∧ s'.heap.Bounded := by
  obtain ⟨heap, mallocs, head⟩ := s
  obtain ⟨hhead, hchain, hnodup, rfl⟩ := h
  dsimp only at hhead hchain hbounded
  subst hhead
  cases nodes with
  | nil => exact ⟨_, [], .of_eq fun _ => rfl, ⟨rfl, trivial, hnodup, rfl⟩, hbounded⟩
  | cons x rest =>
    obtain ⟨b, u⟩ := x
    by_cases hu : u = targetValue
    · subst hu
      refine ⟨_, rest, returns_removeNode_head hchain, ⟨rfl, ?_, (List.nodup_cons.mp hnodup).2, ?_⟩,
        hbounded.update _ _⟩
      · refine hchain.2.frame fun a ha => Function.update_of_ne ?_ ..
        rintro rfl
        exact (List.nodup_cons.mp hnodup).1 ha
      · rw [List.map_cons, List.erase_cons_head]
    · rcases exists_search hchain targetValue none with
        ⟨xs, c, ys, hsplit, hxs, hwalk⟩ | ⟨hnot, prev, hwalk⟩
      · -- the walk has passed the head, so there is a node before the one it has found
        rcases List.eq_nil_or_concat xs with rfl | ⟨zs, ⟨a, w⟩, rfl⟩
        · cases hsplit
          exact absurd rfl hu
        · rw [List.concat_eq_append] at hsplit hxs hwalk
          rw [lastOr_concat] at hwalk
          have hchain' := hsplit ▸ hchain
          obtain ⟨heap', hunlink, hlinked, hbounded'⟩ :=
            exists_unlink mallocs (some b) hchain' (hsplit ▸ hnodup)
          refine ⟨_, zs ++ [(a, w)] ++ ys, returns_removeNode_walk hchain.1 hu hwalk hunlink,
            ⟨?_, hlinked, ?_, ?_⟩, hbounded' hbounded⟩
          · have hfirst : first ((b, u) :: rest) = first (zs ++ [(a, w)] ++ ys) := by
              rw [hsplit]
              cases zs <;> rfl
            exact hfirst
          · have hnodup' := hsplit ▸ hnodup
            rw [addresses_append, addresses_cons] at hnodup'
            rw [addresses_append]
            exact (List.nodup_cons.mp (List.nodup_middle.mp hnodup')).2
          · rw [hsplit, erase_values hxs]
      · exact ⟨_, (b, u) :: rest, returns_removeNode_walk hchain.1 hu hwalk rfl,
          ⟨rfl, hchain, hnodup, (List.erase_of_not_mem hnot).symm⟩, hbounded⟩

/-! ### Any number of calls -/

/-- What the calls so far leave. -/
def Reached (calls : List Call) (s : State) : Prop :=
  ∃ nodes, Represents s nodes (sequence calls) ∧ s.heap.Bounded

theorem reached_initList (malloc : Allocator ℤ) : Reached [] (initList malloc) := by
  refine ⟨[(malloc.malloc 0 fun _ => none, 1)], ⟨rfl, ⟨?_, trivial⟩, List.nodup_singleton _, rfl⟩,
    Heap.Bounded.update ⟨0, fun _ _ => rfl⟩ _ _⟩
  exact Function.update_self (malloc.malloc 0 fun _ => none) (some (⟨1, none⟩ : Node ℤ))
    fun _ => none

theorem callRule (malloc : Allocator ℤ) :
    CallRule (perform malloc) (fun _ _ => True) Supported Reached where
  returns calls call s _ h hsupported := by
    obtain ⟨nodes, hnodes, hbounded⟩ := h
    cases call with
    | addNode value =>
      have hne : nodes ≠ [] := by
        rintro rfl
        exact hsupported hnodes.values.symm
      obtain ⟨s', a, hreturns, hnodes', hbounded'⟩ := hnodes.addNode hbounded hne value
      refine ⟨s', hreturns, nodes ++ [(a, value)], ?_, hbounded'⟩
      rw [sequence_concat]
      exact hnodes'
    | removeNode targetValue =>
      obtain ⟨s', nodes', hreturns, hnodes', hbounded'⟩ := hnodes.removeNode hbounded targetValue
      refine ⟨s', hreturns, nodes', ?_, hbounded'⟩
      rw [sequence_concat]
      exact hnodes'
  of_ok calls call s fuel s' _ h hok := by
    obtain ⟨nodes, hnodes, -⟩ := h
    cases call with
    | addNode value =>
      intro hseq
      obtain rfl : nodes = [] := List.map_eq_nil_iff.mp (hnodes.values.trans hseq)
      exact addNode_ne_ok hnodes.head_eq fuel hok
    | removeNode targetValue => trivial

/-- **Append and first-match deletion**: after any calls the list holds the values in order,
and no call reads a null pointer, exactly when no value is added to an empty list. -/
theorem holds_sequence_iff (malloc : Allocator ℤ) (calls : List Call) :
    (∃ s, Returns (performAll malloc calls) s ∧ ∃ nodes, Represents s nodes (sequence calls)) ↔
      AllCalls Supported calls := by
  have hall : AllCalls (fun _ _ => True) calls := fun _ _ _ _ => trivial
  constructor
  · rintro ⟨s, hreturns, -⟩
    exact ((callRule malloc).of_returns hall (reached_initList malloc) hreturns).1
  · intro hsupported
    obtain ⟨s, hreturns, nodes, hnodes, -⟩ :=
      (callRule malloc).exists_returns hall hsupported (reached_initList malloc)
    exact ⟨s, hreturns, nodes, hnodes⟩

/-- A value that is added after the only one was removed. -/
theorem addNode_after_removeNode :
    ∃ bound, ∀ fuel, bound ≤ fuel →
      performAll (Allocator.firstFit ℤ) [.removeNode 1, .addNode 2] fuel =
        .error (.outOfBounds 0) := by
  have hremove : AllCalls Supported ([] ++ [.removeNode 1]) :=
    allCalls_concat.mpr ⟨allCalls_nil _, trivial⟩
  obtain ⟨s, hreturns, nodes, hnodes, -⟩ := (callRule (Allocator.firstFit ℤ)).exists_returns
    (fun _ _ _ _ => trivial) hremove (reached_initList _)
  obtain rfl : nodes = [] := List.map_eq_nil_iff.mp (hnodes.values.trans (by decide))
  obtain ⟨bound, hbound⟩ := hreturns.enough
  refine ⟨bound + 1, fun fuel hfuel => ?_⟩
  obtain ⟨k, rfl⟩ := Nat.exists_eq_add_of_le' (Nat.le_of_add_left_le hfuel)
  have hfirst := hbound (k + 1) (by omega)
  have hcalls : [Call.removeNode 1, .addNode 2] = [] ++ [.removeNode 1] ++ [.addNode 2] := rfl
  rw [performAll, hcalls, List.foldlM_append, hfirst, Outcome.ok_bind, List.foldlM_cons, perform,
    addNode_none hnodes.head_eq]
  rfl

end BareMetal.Anchor
