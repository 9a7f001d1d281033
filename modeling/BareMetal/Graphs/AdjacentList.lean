import BareMetal.CS.Teardown
import Mathlib.Data.List.Induction
import Mathlib.Data.List.Range

/-!
# The adjacency lists of `graphs/adjacent_list_undirect_graph.c`

`add_edge` puts a cell in front of the list of its source, and does nothing for an index that is
no vertex. What is printed of a vertex is therefore its destinations, the last one first. The
pointers to the lists are in an array of their own, which `free_graph` frees after the cells.

## Main results

* `Holds.addEdge` — one call
* `graph_life_cycle` — what any calls leave to be printed and to be freed
-/

namespace BareMetal.AdjacentList

open CS LinkedList

/-- `MAX_VERTICES`. -/
abbrev maxVertices : ℕ := 5

/-- The cells and the arrays in memory, `struct Graph`, and the number of calls of `malloc` and
`calloc`. -/
structure Graph where
  heap : Heap ℤ
  arrays : ℕ → Option (Block maxVertices (Option ℕ))
  head : Option ℕ
  numVertices : ℤ
  allocated : ℕ

/-- `init`: `calloc` leaves null pointers in the array. -/
def init (malloc : ℕ ↪ ℕ) : Graph where
  heap _ := none
  arrays := Function.update (fun _ => none) (malloc 0) (some fun _ => none)
  head := some (malloc 0)
  numVertices := maxVertices
  allocated := 1

/-- `add_edge`. -/
def addEdge (malloc : ℕ ↪ ℕ) (graph : Graph) (source destination : ℤ) : Outcome Graph :=
  if source ≥ graph.numVertices ∨ source < 0 then .ok graph
  else if destination ≥ graph.numVertices ∨ destination < 0 then .ok graph
  else do
    let newEdge := malloc graph.allocated
    let head ← CellHeap.load graph.arrays graph.head
    let next ← head.load source
    let head ← head.store source (some newEdge)
    let arrays ← CellHeap.modify graph.arrays graph.head fun _ => head
    .ok
      { graph with
        heap := Function.update graph.heap newEdge (some ⟨destination, next⟩)
        arrays := arrays
        allocated := graph.allocated + 1 }

/-- The lines of `show_vertex_connection` for a list. -/
def connection (vertex : ℤ) (destinations : List ℤ) : String :=
  s!"Neighbors of Vertex {vertex}:\n" ++
    String.join (destinations.map fun destination => s!" -> {destination}\n") ++
    "---------------------------------------------\n"

/-- `show_vertex_connection`, with what it prints. -/
def showVertexConnection (graph : Graph) (vertex : ℤ) (fuel : ℕ) : Outcome String :=
  if vertex ≥ graph.numVertices ∨ vertex < 0 then .ok ""
  else do
    let head ← CellHeap.load graph.arrays graph.head
    let current ← head.load vertex
    let destinations ← values graph.heap current fuel
    .ok (connection vertex destinations)

/-- The line of `show_graph` for one vertex. -/
def line (i : ℕ) (destinations : List ℤ) : String :=
  s!"Vertex {i}: " ++ String.join (destinations.map fun destination => s!"{destination} -> ") ++
    "NULL\n"

/-- `show_graph`, with what it prints. -/
def showGraph (graph : Graph) (fuel : ℕ) : Outcome String := do
  let head ← CellHeap.load graph.arrays graph.head
  let printed ← (List.range graph.numVertices.toNat).foldlM (fun (printed : String) (i : ℕ) => do
    let current ← head.load i
    let destinations ← values graph.heap current fuel
    .ok (printed ++ line i destinations)) ""
  .ok (printed ++ "---------------------\n")

/-- `free_graph`, with what it leaves. -/
def freeGraph (graph : Graph) (fuel : ℕ) : Outcome Graph := do
  let head ← CellHeap.load graph.arrays graph.head
  let heap ← freeSlots head graph.numVertices.toNat graph.heap fuel
  let arrays ← CellHeap.free graph.arrays graph.head
  .ok { graph with heap := heap, arrays := arrays }

/-! ### Sequences of calls -/

/-- Calls of `add_edge`, each with its source and its destination, on a new graph. -/
def run (malloc : ℕ ↪ ℕ) (calls : List (ℤ × ℤ)) : Outcome Graph :=
  calls.foldlM (fun graph call => addEdge malloc graph call.1 call.2) (init malloc)

/-- An index of a vertex. -/
def IsVertex (i : ℤ) : Prop := 0 ≤ i ∧ i < maxVertices

instance (i : ℤ) : Decidable (IsVertex i) := inferInstanceAs (Decidable (_ ∧ _))

/-- The calls that add an edge from `i`. -/
def LeadsFrom (i : ℤ) (call : ℤ × ℤ) : Prop := call.1 = i ∧ IsVertex i ∧ IsVertex call.2

instance (i : ℤ) : DecidablePred (LeadsFrom i) := fun _ => inferInstanceAs (Decidable (_ ∧ _))

/-- The destinations of the edges from `i`, the last one first. -/
def neighbours (calls : List (ℤ × ℤ)) (i : ℤ) : List ℤ :=
  (calls.reverse.filter (LeadsFrom i ·)).map Prod.snd

variable {malloc : ℕ ↪ ℕ} {graph : Graph} {head : Block maxVertices (Option ℕ)}
  {calls : List (ℤ × ℤ)} {call : ℤ × ℤ} {i : ℤ}

theorem neighbours_concat_of (h : LeadsFrom i call) :
    neighbours (calls ++ [call]) i = call.2 :: neighbours calls i := by
  rw [neighbours, List.reverse_append, List.reverse_singleton, List.singleton_append,
    List.filter_cons_of_pos (by simpa using h)]
  rfl

theorem neighbours_concat_of_not (h : ¬ LeadsFrom i call) :
    neighbours (calls ++ [call]) i = neighbours calls i := by
  rw [neighbours, List.reverse_append, List.reverse_singleton, List.singleton_append,
    List.filter_cons_of_neg (by simpa using h)]
  rfl

/-! ### One call -/

/-- The lists that start in `head` hold the edges of their vertices, and there are no other
cells. -/
structure Rows (calls : List (ℤ × ℤ)) (heap : Heap ℤ) (head : Block maxVertices (Option ℕ))
    (lists : Fin maxVertices → List (ℕ × ℤ)) : Prop where
  chains : Chains heap head lists
  values_eq : ∀ k, (lists k).map Prod.snd = neighbours calls (k : ℕ)
  covers : ∀ a, heap a ≠ none → ∃ k, a ∈ addresses (lists k)

/-- What the calls so far leave, with the array of the pointers to the lists. -/
structure Holds (malloc : ℕ ↪ ℕ) (calls : List (ℤ × ℤ)) (graph : Graph)
    (head : Block maxVertices (Option ℕ)) : Prop where
  numVertices_eq : graph.numVertices = maxVertices
  head_eq : graph.head = some (malloc 0)
  arrays_eq : graph.arrays = Function.update (fun _ => none) (malloc 0) (some head)
  fresh : Fresh malloc graph.heap graph.allocated
  rows : ∃ lists, Rows calls graph.heap head lists

theorem holds_init (malloc : ℕ ↪ ℕ) : Holds malloc [] (init malloc) fun _ => none where
  numVertices_eq := rfl
  head_eq := rfl
  arrays_eq := rfl
  fresh _ _ := rfl
  rows := ⟨fun _ => [], chains_nil _, fun _ => rfl, fun _ hne => absurd rfl hne⟩

/-- Access through `graph.head`. -/
theorem Holds.load_head (h : Holds malloc calls graph head) :
    CellHeap.load graph.arrays graph.head = .ok head := by
  rw [h.head_eq, h.arrays_eq, CellHeap.load_single]

theorem isVertex_slot (k : Fin maxVertices) : IsVertex (k : ℕ) :=
  ⟨Int.natCast_nonneg _, Int.ofNat_lt.mpr k.isLt⟩

/-- A call that `add_edge` refuses. -/
theorem Holds.skip (h : Holds malloc calls graph head)
    (hcall : ¬ (IsVertex call.1 ∧ IsVertex call.2)) :
    Holds malloc (calls ++ [call]) graph head := by
  obtain ⟨lists, hrows⟩ := h.rows
  refine ⟨h.numVertices_eq, h.head_eq, h.arrays_eq, h.fresh, lists, hrows.chains, fun k => ?_,
    hrows.covers⟩
  rw [hrows.values_eq, neighbours_concat_of_not]
  rintro ⟨heq, hsource, hdestination⟩
  exact hcall ⟨heq ▸ hsource, hdestination⟩

/-- A new cell in front of the list of its vertex. -/
theorem Rows.insert {heap : Heap ℤ} {lists : Fin maxVertices → List (ℕ × ℤ)} {a : ℕ}
    {destination : ℤ} (h : Rows calls heap head lists) (k : Fin maxVertices) (ha : heap a = none)
    (hvertex : IsVertex destination) :
    Rows (calls ++ [(((k : ℕ) : ℤ), destination)])
      (Function.update heap a (some ⟨destination, head k⟩)) (Function.update head k (some a))
      (Function.update lists k ((a, destination) :: lists k)) where
  chains := h.chains.insertFirst k ha destination
  values_eq j := by
    rcases eq_or_ne j k with rfl | hne
    · rw [Function.update_self, List.map_cons, h.values_eq,
        neighbours_concat_of ⟨rfl, isVertex_slot j, hvertex⟩]
    · rw [Function.update_of_ne hne, h.values_eq, neighbours_concat_of_not]
      rintro ⟨heq, -⟩
      exact hne (Fin.ext (Int.ofNat.inj heq.symm))
  covers b hb := by
    rcases eq_or_ne b a with rfl | hne
    · exact ⟨k, by rw [Function.update_self]; exact List.mem_cons_self⟩
    · rw [Function.update_of_ne hne] at hb
      obtain ⟨j, hj⟩ := h.covers b hb
      refine ⟨j, ?_⟩
      rcases eq_or_ne j k with rfl | hjk
      · -- an old cell stays behind the new one
        rw [Function.update_self]
        exact List.mem_cons_of_mem _ hj
      · rwa [Function.update_of_ne hjk]

theorem Holds.addEdge (h : Holds malloc calls graph head) (call : ℤ × ℤ) :
    ∃ graph' head', addEdge malloc graph call.1 call.2 = .ok graph' ∧
      Holds malloc (calls ++ [call]) graph' head' := by
  obtain ⟨source, destination⟩ := call
  have hcount : graph.numVertices = (maxVertices : ℤ) := h.numVertices_eq
  -- the two tests for an index of a vertex
  by_cases hsource : source ≥ graph.numVertices ∨ source < 0
  · refine ⟨graph, head, if_pos hsource, h.skip ?_⟩
    rintro ⟨⟨hpos, hlt⟩, -⟩
    dsimp only at hpos hlt
    omega
  by_cases hdestination : destination ≥ graph.numVertices ∨ destination < 0
  · refine ⟨graph, head, (if_neg hsource).trans (if_pos hdestination), h.skip ?_⟩
    rintro ⟨-, hpos, hlt⟩
    dsimp only at hpos hlt
    omega
  obtain ⟨k, rfl⟩ : ∃ k : Fin maxVertices, source = (k : ℕ) :=
    Block.exists_index (by omega) (by omega)
  have hvertex : IsVertex destination := ⟨by omega, by omega⟩
  obtain ⟨lists, hrows⟩ := h.rows
  have hfree := h.fresh graph.allocated (Nat.le_refl _)
  refine ⟨⟨Function.update graph.heap (malloc graph.allocated) (some ⟨destination, head k⟩),
    Function.update (fun _ => none) (malloc 0)
      (some (Function.update head k (some (malloc graph.allocated)))),
    graph.head, graph.numVertices, graph.allocated + 1⟩,
    Function.update head k (some (malloc graph.allocated)), ?_, hcount, h.head_eq, rfl, ?_, _,
    hrows.insert k hfree hvertex⟩
  · rw [AdjacentList.addEdge, if_neg hsource, if_neg hdestination, h.load_head, Outcome.ok_bind,
      Block.load_natCast, Outcome.ok_bind, Block.store_natCast, Outcome.ok_bind, h.head_eq,
      h.arrays_eq, CellHeap.modify_single, Outcome.ok_bind]
  · exact h.fresh.succ fun b hb hnone => (Function.update_of_ne hb ..).trans hnone

theorem run_concat (calls : List (ℤ × ℤ)) (call : ℤ × ℤ) :
    run malloc (calls ++ [call]) =
      run malloc calls >>= fun graph => addEdge malloc graph call.1 call.2 := by
  simp [run, List.foldlM_append]

/-- All calls return. -/
theorem exists_run (malloc : ℕ ↪ ℕ) (calls : List (ℤ × ℤ)) :
    ∃ graph head, run malloc calls = .ok graph ∧ Holds malloc calls graph head := by
  induction calls using List.reverseRecOn with
  | nil => exact ⟨init malloc, _, rfl, holds_init malloc⟩
  | append_singleton calls call ih =>
    obtain ⟨graph, head, hrun, h⟩ := ih
    obtain ⟨graph', head', hcall, h'⟩ := h.addEdge call
    exact ⟨graph', head', by rw [run_concat, hrun, Outcome.ok_bind, hcall], h'⟩

/-! ### Printing and freeing -/

/-- What `show_vertex_connection` is to print. -/
def connections (calls : List (ℤ × ℤ)) (vertex : ℤ) : String :=
  if IsVertex vertex then connection vertex (neighbours calls vertex) else ""

/-- What `show_graph` is to print. -/
def picture (calls : List (ℤ × ℤ)) : String :=
  ((List.range maxVertices).map fun i => line i (neighbours calls i)).foldl (· ++ ·) "" ++
    "---------------------\n"

/-- The walk through the list of a vertex. -/
theorem Rows.read {heap : Heap ℤ} {lists : Fin maxVertices → List (ℕ × ℤ)}
    (h : Rows calls heap head lists) (k : Fin maxVertices) :
    Returns (values heap (head k)) (neighbours calls (k : ℕ)) := by
  rw [h.chains.head_eq, ← h.values_eq]
  exact (h.chains.holds k).chain.values

theorem Holds.showVertexConnection (h : Holds malloc calls graph head) (vertex : ℤ) :
    Returns (showVertexConnection graph vertex) (connections calls vertex) := by
  have hcount : graph.numVertices = (maxVertices : ℤ) := h.numVertices_eq
  by_cases hout : vertex ≥ graph.numVertices ∨ vertex < 0
  · have hnot : ¬ IsVertex vertex := fun hvertex => by
      obtain ⟨hpos, hlt⟩ := hvertex
      omega
    rw [connections, if_neg hnot]
    exact .of_eq fun _ => if_pos hout
  · obtain ⟨k, rfl⟩ : ∃ k : Fin maxVertices, vertex = (k : ℕ) :=
      Block.exists_index (by omega) (by omega)
    obtain ⟨lists, hrows⟩ := h.rows
    rw [connections, if_pos (isVertex_slot k)]
    refine ((hrows.read k).map (connection (k : ℕ))).congr fun fuel => ?_
    rw [AdjacentList.showVertexConnection, if_neg hout, h.load_head, Outcome.ok_bind,
      Block.load_natCast, Outcome.ok_bind]

theorem Holds.showGraph (h : Holds malloc calls graph head) :
    Returns (showGraph graph) (picture calls) := by
  obtain ⟨lists, hrows⟩ := h.rows
  -- what has been printed before the line of the vertex `i`
  have hpass : ∀ i < maxVertices, ∀ printed : String,
      printed = ((List.range i).map fun j => line j (neighbours calls j)).foldl (· ++ ·) "" →
      ∃ printed', Returns (fun fuel => do
          let current ← head.load i
          let destinations ← values graph.heap current fuel
          .ok (printed ++ line i destinations)) printed' ∧
        printed' =
          ((List.range (i + 1)).map fun j => line j (neighbours calls j)).foldl (· ++ ·) "" := by
    intro i hi printed hprinted
    refine ⟨_, ((hrows.read ⟨i, hi⟩).map fun destinations => printed ++ line i destinations).congr
      fun fuel => ?_, ?_⟩
    · rw [Block.load_natCast head ⟨i, hi⟩, Outcome.ok_bind]
    · rw [List.range_succ, List.map_append, List.foldl_append, ← hprinted]
      rfl
  obtain ⟨printed, hreturns, hprinted⟩ := Returns.foldlM_range hpass (a := "") rfl
  have hcount : graph.numVertices.toNat = maxVertices := by
    rw [h.numVertices_eq, Int.toNat_natCast]
  rw [picture, ← hprinted]
  refine (hreturns.map fun printed => printed ++ "---------------------\n").congr fun fuel => ?_
  rw [AdjacentList.showGraph, h.load_head, Outcome.ok_bind, hcount]

theorem Holds.freeGraph (h : Holds malloc calls graph head) :
    ∃ left, Returns (freeGraph graph) left ∧ (∀ a, left.heap a = none) ∧
      ∀ a, left.arrays a = none := by
  obtain ⟨lists, hrows⟩ := h.rows
  obtain ⟨heap, hreturns, hfrees⟩ := hrows.chains.freeSlots (Nat.le_refl maxVertices)
  have hcount : graph.numVertices.toNat = maxVertices := by
    rw [h.numVertices_eq, Int.toNat_natCast]
  refine ⟨⟨heap, fun _ => none, graph.head, graph.numVertices, graph.allocated⟩,
    (hreturns.map fun heap => (⟨heap, fun _ => none, graph.head, graph.numVertices,
      graph.allocated⟩ : Graph)).congr fun fuel => ?_, hfrees.all fun a ha => ?_, fun _ => rfl⟩
  -- the array is freed after the cells that it points to
  · have harray : CellHeap.free graph.arrays graph.head = .ok fun _ => none := by
      rw [h.head_eq, h.arrays_eq, CellHeap.free_single]
    rw [AdjacentList.freeGraph, h.load_head, Outcome.ok_bind, hcount, harray]
    rfl
  · obtain ⟨k, hk⟩ := hrows.covers a ha
    exact ⟨k, k.isLt, hk⟩

/-- **The life of a graph.** Any calls of `add_edge` on a new graph return. For every number
`show_vertex_connection` then prints the accepted destinations of that vertex, the last one first,
`show_graph` prints those of all vertices, and `free_graph` frees every cell and the array, each of
them once. -/
theorem graph_life_cycle (malloc : ℕ ↪ ℕ) (calls : List (ℤ × ℤ)) :
    ∃ graph, run malloc calls = .ok graph ∧
      (∀ vertex, Returns (showVertexConnection graph vertex) (connections calls vertex)) ∧
      Returns (showGraph graph) (picture calls) ∧
      ∃ left, Returns (freeGraph graph) left ∧ (∀ a, left.heap a = none) ∧
        ∀ a, left.arrays a = none := by
  obtain ⟨graph, head, hrun, h⟩ := exists_run malloc calls
  exact ⟨graph, hrun, h.showVertexConnection, h.showGraph, h.freeGraph⟩

end BareMetal.AdjacentList
