import BareMetal.CS.Calls
import BareMetal.CS.Teardown

/-!
# The front of a list in `memory-physics/physics_of_dp.c`

`remove_first_node` and `insert_at_front` are given the address of the caller's pointer. The second
one prints the values of the first two nodes when it is done. In a list that was empty there is
only one, and it reads a null pointer. At the end `main` frees the first node only.

## Main results

* `Represents.removeFirstNode`, `Represents.insertAtFront` — one call each
* `stack_of_calls` — any calls on any list, and what `free` leaves then
-/

namespace BareMetal.PhysicsOfDp

open CS LinkedList

/-- The memory, how often `malloc` has been called, the variable of the caller that points to the
list, and what has been printed. -/
structure Program where
  heap : Heap ℤ
  mallocs : ℕ
  list : Option ℕ
  output : String

/-- `remove_first_node`. -/
def removeFirstNode (s : Program) : Outcome Program :=
  match s.list with
  | none => .ok s
  | some temp => do
    let node ← s.heap.load (some temp)
    let heap ← CellHeap.free s.heap (some temp)
    .ok { s with heap := heap, list := node.next }

/-- What `insert_at_front` prints. -/
def frontLines (head next : ℤ) : String := s!"List new Head: {head}\nList new Next: {next}\n"

/-- `insert_at_front`. -/
def insertAtFront (malloc : Allocator ℤ) (s : Program) (newData : ℤ) : Outcome Program := do
  let newNode := malloc.malloc s.mallocs s.heap
  let oldHead := s.list
  let heap ← CellHeap.modify (s.heap.alloc newNode newData) (some newNode)
    fun node => { node with next := oldHead }
  let head ← Heap.load heap (some newNode)
  let next ← Heap.load heap head.next
  .ok ⟨heap, s.mallocs + 1, some newNode, s.output ++ frontLines head.value next.value⟩

/-- The list of `main`, with two nodes. -/
def boxes (malloc : Allocator ℤ) : Program :=
  let box1 := malloc.malloc 0 fun _ => none
  let heap := Heap.alloc (fun _ => none) box1 7
  let box2 := malloc.malloc 1 heap
  ⟨Function.update (heap.alloc box2 14) box1 (some ⟨7, some box2⟩), 2, some box1, ""⟩

/-! ### One call -/

/-- The list has the nodes, and no others are allocated. -/
structure Represents (values : List ℤ) (nodes : List (ℕ × ℤ)) (s : Program) : Prop where
  list_eq : s.list = first nodes
  chain : Chain s.heap nodes
  nodup : (addresses nodes).Nodup
  values_eq : nodes.map Prod.snd = values
  covers : ∀ a, s.heap a ≠ none → a ∈ addresses nodes
  bounded : s.heap.Bounded

variable {malloc : Allocator ℤ} {values : List ℤ} {nodes : List (ℕ × ℤ)} {s : Program}

theorem Represents.removeFirstNode (h : Represents values nodes s) :
    ∃ s', removeFirstNode s = .ok s' ∧ s'.output = s.output ∧
      Represents values.tail nodes.tail s' := by
  cases nodes with
  | nil =>
    have hlist : s.list = none := h.list_eq
    have hvalues : values = [] := h.values_eq.symm
    refine ⟨s, ?_, rfl, ?_⟩
    · rw [PhysicsOfDp.removeFirstNode, hlist]
    · rw [hvalues] at h ⊢
      exact h
  | cons x rest =>
    obtain ⟨a, v⟩ := x
    obtain ⟨hfresh, hnodup⟩ := List.nodup_cons.mp h.nodup
    have hlist : s.list = some a := h.list_eq
    obtain ⟨hcell, hrest⟩ := h.chain
    have hchain : Chain (Function.update s.heap a none) rest :=
      hrest.frame fun b hb => Function.update_of_ne (ne_of_mem_of_not_mem hb hfresh) ..
    refine ⟨{ s with heap := Function.update s.heap a none, list := first rest }, ?_, rfl, rfl,
      hchain, hnodup, ?_, fun b hb => ?_, h.bounded.update a none⟩
    · rw [PhysicsOfDp.removeFirstNode, hlist]
      dsimp only
      rw [Heap.load_some hcell, Outcome.ok_bind, CellHeap.free_some hcell, Outcome.ok_bind]
    · rw [← h.values_eq]
      rfl
    · dsimp only at hb
      rcases eq_or_ne b a with rfl | hne
      · rw [Function.update_self] at hb
        exact absurd rfl hb
      · rw [Function.update_of_ne hne] at hb
        exact (List.mem_cons.mp (h.covers b hb)).resolve_left hne

/-- A new node, and then its link. -/
theorem modify_alloc (heap : Heap ℤ) (a : ℕ) (v : ℤ) (p : Option ℕ) :
    CellHeap.modify (heap.alloc a v) (some a) (fun node => { node with next := p }) =
      .ok (Function.update heap a (some ⟨v, p⟩)) := by
  have hself : heap.alloc a v a = some ⟨v, none⟩ := Function.update_self ..
  rw [CellHeap.modify_some hself, Heap.alloc, Function.update_idem]

/-- The node that is printed second is the one that was first. -/
theorem Represents.insertAtFront {w : ℤ} (h : Represents (w :: values) nodes s) (newData : ℤ) :
    ∃ s' a, insertAtFront malloc s newData = .ok s' ∧
      s'.output = s.output ++ frontLines newData w ∧
      Represents (newData :: w :: values) ((a, newData) :: nodes) s' := by
  obtain ⟨b, rest, rfl⟩ : ∃ b rest, nodes = (b, w) :: rest := by
    cases nodes with
    | nil => cases h.values_eq
    | cons x rest =>
      obtain ⟨b, v⟩ := x
      cases h.values_eq
      exact ⟨b, rest, rfl⟩
  have hnone := malloc.fresh s.mallocs s.heap h.bounded
  set a := malloc.malloc s.mallocs s.heap with ha
  have hlist : s.list = some b := h.list_eq
  have hfresh : a ∉ addresses ((b, w) :: rest) := h.chain.fresh hnone
  let heap := Function.update s.heap a (some ⟨newData, some b⟩)
  have hchain : Chain heap ((b, w) :: rest) :=
    h.chain.frame fun c hc => Function.update_of_ne (ne_of_mem_of_not_mem hc hfresh) ..
  have hself : heap a = some ⟨newData, some b⟩ := Function.update_self ..
  refine ⟨⟨heap, s.mallocs + 1, some a, s.output ++ frontLines newData w⟩, a, ?_, rfl, rfl,
    ⟨hself, hchain⟩, List.nodup_cons.mpr ⟨hfresh, h.nodup⟩, ?_, fun c hc => ?_,
    h.bounded.update a _⟩
  · rw [PhysicsOfDp.insertAtFront, ← ha, hlist]
    rw [modify_alloc, Outcome.ok_bind, Heap.load_some hself, Outcome.ok_bind,
      Heap.load_some hchain.1, Outcome.ok_bind]
  · rw [List.map_cons, h.values_eq]
  · rcases eq_or_ne c a with rfl | hne
    · exact List.mem_cons_self
    · have hold : heap c = s.heap c := Function.update_of_ne hne ..
      dsimp only at hc
      rw [hold] at hc
      exact List.mem_cons_of_mem a (h.covers c hc)

/-- The new node of an empty list has no next one. -/
theorem insertAtFront_none (hlist : s.list = none) (newData : ℤ) :
    PhysicsOfDp.insertAtFront malloc s newData = .error (.outOfBounds 0) := by
  let a := malloc.malloc s.mallocs s.heap
  have hself : Function.update s.heap a (some (⟨newData, none⟩ : Node ℤ)) a =
      some ⟨newData, none⟩ := Function.update_self ..
  rw [PhysicsOfDp.insertAtFront, hlist]
  rw [modify_alloc, Outcome.ok_bind, Heap.load_some hself, Outcome.ok_bind]
  rfl

/-- `free(list)` frees one node. -/
theorem Represents.free (h : Represents values nodes s) :
    ∃ heap, CellHeap.free s.heap s.list = .ok heap ∧
      ((∀ a, heap a = none) ↔ values.length ≤ 1) := by
  rw [← h.values_eq, List.length_map]
  cases nodes with
  | nil =>
    have hlist : s.list = none := h.list_eq
    refine ⟨s.heap, by rw [hlist, CellHeap.free], iff_of_true (fun a => ?_) (Nat.zero_le _)⟩
    by_contra hne
    exact List.not_mem_nil (h.covers a hne)
  | cons x rest =>
    obtain ⟨s', hok, -, h'⟩ := h.removeFirstNode
    obtain ⟨a, v⟩ := x
    have hlist : s.list = some a := h.list_eq
    have hcell := h.chain.1
    refine ⟨Function.update s.heap a none, by rw [hlist, CellHeap.free_some hcell], ?_⟩
    have hheap : s'.heap = Function.update s.heap a none := by
      rw [PhysicsOfDp.removeFirstNode, hlist] at hok
      dsimp only at hok
      rw [Heap.load_some hcell, Outcome.ok_bind, CellHeap.free_some hcell, Outcome.ok_bind] at hok
      cases hok
      rfl
    rw [← hheap]
    cases rest with
    | nil =>
      refine iff_of_true (fun b => ?_) (Nat.le_refl 1)
      by_contra hne
      exact List.not_mem_nil (h'.covers b hne)
    | cons y rest =>
      -- the second node is still allocated
      refine iff_of_false (fun hall => ?_) (by simp)
      have hsecond := h'.chain.1
      rw [hall] at hsecond
      cases hsecond

/-! ### Any number of calls -/

/-- The calls of a program. -/
inductive Call
  | removeFirstNode
  | insertAtFront (newData : ℤ)
  deriving DecidableEq, Repr

/-- One call. -/
def perform (malloc : Allocator ℤ) (s : Program) : Call → Outcome Program
  | .removeFirstNode => removeFirstNode s
  | .insertAtFront newData => insertAtFront malloc s newData

/-- All calls of a program. -/
def performAll (malloc : Allocator ℤ) (s : Program) (calls : List Call) : Outcome Program :=
  calls.foldlM (perform malloc) s

/-- What a call makes of the values. -/
def Call.act (values : List ℤ) : Call → List ℤ
  | .removeFirstNode => values.tail
  | .insertAtFront newData => newData :: values

/-- What a call prints. -/
def Call.printed (values : List ℤ) : Call → String
  | .insertAtFront newData =>
    match values with
    | w :: _ => frontLines newData w
    | [] => ""
  | .removeFirstNode => ""

/-- The values after some calls, and what the calls print. -/
def record (values : List ℤ) (calls : List Call) : List ℤ × String :=
  calls.foldl (fun s call => (call.act s.1, s.2 ++ call.printed s.1)) (values, "")

/-- Nothing is inserted into an empty list. -/
def Supported (values : List ℤ) (pre : List Call) : Call → Prop
  | .removeFirstNode => True
  | .insertAtFront _ => (record values pre).1 ≠ []

theorem record_concat (values : List ℤ) (calls : List Call) (call : Call) :
    record values (calls ++ [call]) = (call.act (record values calls).1,
      (record values calls).2 ++ call.printed (record values calls).1) := by
  rw [record, List.foldl_append]
  rfl

/-- What the calls so far leave. -/
def Reached (values : List ℤ) (output : String) (calls : List Call) (s : Program) : Prop :=
  s.output = output ++ (record values calls).2 ∧
    ∃ nodes, Represents (record values calls).1 nodes s

theorem callRule (malloc : Allocator ℤ) (values : List ℤ) (output : String) :
    CallRule (fun s call _ => perform malloc s call) (fun _ _ => True) (Supported values)
      (Reached values output) where
  returns calls call s _ h hsupported := by
    obtain ⟨houtput, nodes, hnodes⟩ := h
    cases call with
    | removeFirstNode =>
      obtain ⟨s', hok, hsame, h'⟩ := hnodes.removeFirstNode
      refine ⟨s', .of_eq fun _ => hok, ?_, nodes.tail, ?_⟩
      · have hnothing : (record values calls).2 ++ "" = (record values calls).2 :=
          String.append_empty
        rw [hsame, houtput, record_concat, Call.printed, hnothing]
      · rw [record_concat]
        exact h'
    | insertAtFront newData =>
      obtain ⟨w, rest, hvalues⟩ := List.exists_cons_of_ne_nil hsupported
      rw [hvalues] at hnodes
      obtain ⟨s', a, hok, hprinted, h'⟩ := hnodes.insertAtFront newData
      refine ⟨s', .of_eq fun _ => hok, ?_, (a, newData) :: nodes, ?_⟩
      · rw [hprinted, houtput, record_concat, hvalues, Call.printed, String.append_assoc]
      · rw [record_concat, hvalues]
        exact h'
  of_ok calls call s _ s' _ h hok := by
    obtain ⟨-, nodes, hnodes⟩ := h
    cases call with
    | removeFirstNode => trivial
    | insertAtFront newData =>
      intro hvalues
      obtain rfl : nodes = [] := List.map_eq_nil_iff.mp (hnodes.values_eq.trans hvalues)
      have hlist : s.list = none := hnodes.list_eq
      cases (insertAtFront_none hlist newData).symm.trans hok

/-- **The list as a stack.** From any list, the calls of a program return exactly when none of them
inserts into an empty list. Then the list has the values of a stack, each insertion has printed
the first two of them, and no node is lost. What `main` frees at the end is everything only if
there is at most one node. -/
theorem stack_of_calls (malloc : Allocator ℤ) (h : Represents values nodes s) (calls : List Call) :
    ((∃ s', performAll malloc s calls = .ok s') ↔ AllCalls (Supported values) calls) ∧
      ∀ s', performAll malloc s calls = .ok s' →
        s'.output = s.output ++ (record values calls).2 ∧
          (∃ nodes', Represents (record values calls).1 nodes' s') ∧
          ∃ heap, CellHeap.free s'.heap s'.list = .ok heap ∧
            ((∀ a, heap a = none) ↔ (record values calls).1.length ≤ 1) := by
  have hall : AllCalls (fun _ _ => True) calls := fun _ _ _ _ => trivial
  have hstart : Reached values s.output [] s := ⟨(String.append_empty ..).symm, nodes, h⟩
  have hreached : ∀ s', performAll malloc s calls = .ok s' →
      AllCalls (Supported values) calls ∧ Reached values s.output calls s' := by
    intro s' hok
    exact (callRule malloc values s.output).of_returns hall hstart (.of_eq fun _ => hok)
  refine ⟨⟨?_, fun hsupported => ?_⟩, fun s' hok => ?_⟩
  · rintro ⟨s', hok⟩
    exact (hreached s' hok).1
  · obtain ⟨s', hreturns, -⟩ :=
      (callRule malloc values s.output).exists_returns hall hsupported hstart
    obtain ⟨fuel, hok⟩ := hreturns.exists_ok
    exact ⟨s', hok⟩
  · obtain ⟨-, houtput, nodes', hnodes⟩ := hreached s' hok
    exact ⟨houtput, ⟨nodes', hnodes⟩, hnodes.free⟩

theorem represents_boxes (malloc : Allocator ℤ) :
    ∃ nodes, Represents [7, 14] nodes (boxes malloc) := by
  have hempty : Heap.Bounded (fun _ => none : Heap ℤ) := ⟨0, fun _ _ => rfl⟩
  let box1 := malloc.malloc 0 fun _ => none
  let heap : Heap ℤ := Heap.alloc (fun _ => none) box1 7
  have hbounded : heap.Bounded := hempty.update box1 _
  let box2 := malloc.malloc 1 heap
  have hfresh : heap box2 = none := malloc.fresh 1 heap hbounded
  have hne : box2 ≠ box1 := by
    intro heq
    have hself : heap box1 = some ⟨7, none⟩ := Function.update_self ..
    cases (heq ▸ hfresh).symm.trans hself
  have hsecond : Function.update (heap.alloc box2 14) box1 (some ⟨7, some box2⟩) box2 =
      some ⟨14, none⟩ := by
    rw [Function.update_of_ne hne]
    exact Function.update_self ..
  refine ⟨[(box1, 7), (box2, 14)], rfl, ⟨Function.update_self .., hsecond, trivial⟩, ?_, rfl,
    fun a ha => ?_, (hbounded.update box2 _).update box1 _⟩
  · simp [Ne.symm hne]
  · by_contra hnot
    obtain ⟨hfirst, hlast⟩ := not_or.mp (mt List.mem_cons.mpr hnot)
    have hlast : a ≠ box2 := fun heq => hlast (List.mem_singleton.mpr heq)
    refine ha ?_
    exact (Function.update_of_ne hfirst ..).trans
      ((Function.update_of_ne hlast ..).trans (Function.update_of_ne hfirst ..))

/-- The calls of `main`: they return, and one node is never freed. -/
theorem stack_of_calls_boxes :
    ∃ s' heap, performAll (Allocator.firstFit ℤ) (boxes (Allocator.firstFit ℤ))
        ([.removeFirstNode] ++ [.insertAtFront 21]) = .ok s' ∧
      CellHeap.free s'.heap s'.list = .ok heap ∧ ¬ ∀ a, heap a = none := by
  obtain ⟨nodes, h⟩ := represents_boxes (Allocator.firstFit ℤ)
  have hstack := stack_of_calls (Allocator.firstFit ℤ) h ([.removeFirstNode] ++ [.insertAtFront 21])
  have hsupported : AllCalls (Supported [7, 14]) ([.removeFirstNode] ++ [.insertAtFront 21]) :=
    allCalls_concat.mpr ⟨allCalls_concat.mpr ⟨allCalls_nil _, trivial⟩, List.cons_ne_nil 14 []⟩
  obtain ⟨s', hok⟩ := hstack.1.mpr hsupported
  obtain ⟨-, -, heap, hfree, hempty⟩ := hstack.2 s' hok
  refine ⟨s', heap, hok, hfree, fun hall => ?_⟩
  have hshort : [(21 : ℤ), 14].length ≤ 1 := hempty.mp hall
  exact absurd hshort (by decide)

end BareMetal.PhysicsOfDp
