import BareMetal.CS.Chains
import BareMetal.Graphs.Traversal.Basic
import BareMetal.Math.Frontier

/-!
# Breadth-first search in `BFS_and_DFS.c`

The vertices that are found wait in a linked list. `enqueue` walks to its end, `dequeue`
takes its first node, which is freed. What `visited` and the printed line know is the list
of the vertices found so far.

## Main results

* `Queued.enqueue`, `Queued.dequeue` — the linked list is a queue
* `Represents.visitNeighbour`, `Represents.bfsPass` — what one pass of each loop does
* `bfs_exact` — what `BFS` prints
-/

namespace BareMetal.Traversal

open CS LinkedList Math Relation

variable {n : ℕ}

/-- The heap, `queue[0]`, and how often `malloc` was called. -/
structure Memory where
  heap : Heap ℤ
  queue : Option ℕ
  allocated : ℕ

/-- `enqueue`. -/
def enqueue (allocator : Allocator ℤ) (memory : Memory) (value : ℤ) (fuel : ℕ) :
    Outcome Memory := do
  let newNode := allocator.malloc memory.allocated memory.heap
  let (heap, queue) ← linkLast (memory.heap.alloc newNode value) memory.queue newNode fuel
  .ok ⟨heap, queue, memory.allocated + 1⟩

/-- `dequeue`. -/
def dequeue (memory : Memory) : Outcome (Memory × Option ℕ) :=
  match memory.queue with
  | none => .ok (memory, none)
  | some head => do
    let node ← memory.heap.load (some head)
    let heap ← memory.heap.store (some head) { node with next := none }
    .ok ({ memory with heap := heap, queue := node.next }, some head)

/-- `free(current_vertex)`. -/
def Memory.release (memory : Memory) : Option ℕ → Memory
  | none => memory
  | some a => { memory with heap := memory.heap.free a }

/-- The variables of `BFS`, and what it has printed. -/
structure Search (n : ℕ) where
  visited : Block n ℤ
  printed : List ℤ
  memory : Memory

/-- The body of the `for` loop of `BFS`. -/
def visitNeighbour (allocator : Allocator ℤ) (matrix : Adjacency n) (i : ℤ) (s : Search n) (j : ℤ)
    (fuel : ℕ) : Outcome (Search n) := do
  let entry ← matrix.entry i j
  if entry = 1 then do
    let seen ← s.visited.load j
    if seen = 0 then do
      let visited ← s.visited.store j 1
      let memory ← enqueue allocator s.memory j fuel
      .ok ⟨visited, s.printed ++ [j], memory⟩
    else .ok s
  else .ok s

/-- One pass of the `while` loop of `BFS`. -/
def bfsPass (allocator : Allocator ℤ) (matrix : Adjacency n) (matrixSize : ℤ) (fuel : ℕ)
    (s : Search n) : Outcome (Pass (Search n) (Search n)) :=
  if s.memory.queue = none then .ok (.leave s)
  else do
    let (memory, currentVertex) ← dequeue s.memory
    let node ← memory.heap.load currentVertex
    let s ← (neighbours matrixSize).foldlM
      (fun s j => visitNeighbour allocator matrix node.value s j fuel)
      { s with memory := memory.release currentVertex }
    .ok (.again s)

/-- `BFS`. -/
def bfs (allocator : Allocator ℤ) (matrix : Adjacency n) (matrixSize startVertex : ℤ)
    (memory : Memory) (fuel : ℕ) : Outcome (Search n) := do
  let visited ← Block.store (fun _ : Fin n => 0) startVertex 1
  let memory ← enqueue allocator memory startVertex fuel
  loop (bfsPass allocator matrix matrixSize fuel) fuel ⟨visited, [startVertex], memory⟩

/-! ### The queue -/

variable {heap₀ : Heap ℤ} {memory : Memory} {nodes : List (ℕ × ℤ)} {a : ℕ} {value : ℤ}

/-- The queue has the given nodes, and otherwise the heap is `heap₀`. -/
structure Queued (heap₀ : Heap ℤ) (memory : Memory) (nodes : List (ℕ × ℤ)) : Prop where
  holds : ∃ ends, ends.head = memory.queue ∧ Holds memory.heap ends nodes
  bounded : memory.heap.Bounded
  frame : ∀ b, b ∉ addresses nodes → memory.heap b = heap₀ b
  fresh : ∀ b ∈ addresses nodes, heap₀ b = none

theorem Queued.init (hempty : memory.queue = none) (hheap : memory.heap.Bounded) :
    Queued memory.heap memory [] where
  holds := ⟨⟨none, none⟩, hempty.symm, holds_nil memory.heap⟩
  bounded := hheap
  frame _ _ := rfl
  fresh _ hb := absurd hb List.not_mem_nil

theorem Queued.queue_eq (h : Queued heap₀ memory nodes) : memory.queue = first nodes := by
  obtain ⟨ends, hhead, hholds⟩ := h.holds
  rw [← hhead, hholds.head_eq]

/-- A new node goes to the end. -/
theorem Queued.enqueue (h : Queued heap₀ memory nodes) (allocator : Allocator ℤ) (value : ℤ) :
    ∃ memory' a, Returns (enqueue allocator memory value) memory' ∧
      Queued heap₀ memory' (nodes ++ [(a, value)]) := by
  obtain ⟨ends, hhead, hholds⟩ := h.holds
  have ha := allocator.fresh memory.allocated memory.heap h.bounded
  have hnew := hholds.fresh ha
  obtain ⟨heap', ends', hok, hlink⟩ := hholds.linkLast ha value
  obtain ⟨heap₁, ends₁, hok₁, hholds', hframe⟩ := hholds.insertLast ha value
  cases hok.symm.trans hok₁
  rw [hhead] at hlink
  refine ⟨⟨heap', ends'.head, memory.allocated + 1⟩, _,
    hlink.bind (.of_eq fun _ => rfl), ⟨ends', rfl, hholds'⟩, ?_, fun b hb => ?_, fun b hb => ?_⟩
  · exact Heap.Bounded.insertLast (h.bounded.update _ _) hok
  · rw [mem_addresses_concat, not_or] at hb
    exact (hframe b hb.1 hb.2).trans (h.frame b hb.1)
  · rcases mem_addresses_concat.mp hb with hb | rfl
    · exact h.fresh b hb
    · exact (h.frame _ hnew).symm.trans ha

/-- The first node is taken, and its value is read before it is freed. -/
theorem Queued.dequeue (h : Queued heap₀ memory ((a, value) :: nodes)) :
    ∃ memory', dequeue memory = .ok (memory', some a) ∧
      memory'.heap.load (some a) = .ok ⟨value, none⟩ ∧
      Queued heap₀ (memory'.release (some a)) nodes := by
  obtain ⟨ends, hhead, hholds⟩ := h.holds
  obtain ⟨hfirst, hcell, hrest⟩ := hholds.removeFirst
  have hqueue : memory.queue = some a := hhead.symm.trans hfirst
  have hfree : Heap.free (Function.update memory.heap a (some ⟨value, none⟩)) a =
      memory.heap.free a := Function.update_idem ..
  refine ⟨⟨Function.update memory.heap a (some ⟨value, none⟩), first nodes, memory.allocated⟩,
    ?_, Heap.load_some (Function.update_self ..), ?_⟩
  · simp only [Traversal.dequeue, hqueue, Heap.load_some hcell, Heap.store_some hcell,
      Outcome.ok_bind]
  · simp only [Memory.release, hfree]
    refine ⟨⟨_, rfl, hrest⟩, h.bounded.update a none, fun b hb => ?_, fun b hb => ?_⟩
    · rcases eq_or_ne b a with rfl | hne
      · exact (Function.update_self ..).trans (h.fresh b (by simp)).symm
      · exact (Function.update_of_ne hne ..).trans (h.frame b (by simp [hne, hb]))
    · exact h.fresh b (List.mem_cons_of_mem a hb)

/-! ### The search -/

variable {matrix : Adjacency n} {matrixSize : ℤ} {start i v : Fin n} {s : Search n}
  {found done waiting : List (Fin n)}

/-- The vertices of `found` are marked and printed, and those of `waiting` are in the
queue. -/
structure Represents (heap₀ : Heap ℤ) (s : Search n) (found waiting : List (Fin n)) : Prop where
  printed_eq : s.printed = labels found
  visited_iff : ∀ v, s.visited v = 0 ↔ v ∉ found
  queued : ∃ nodes, nodes.map Prod.snd = labels waiting ∧ Queued heap₀ s.memory nodes

/-- One more vertex is marked, printed and put into the queue. -/
theorem Represents.discover (h : Represents heap₀ s found waiting) (allocator : Allocator ℤ)
    (v : Fin n) :
    ∃ memory', Returns (enqueue allocator s.memory (v : ℕ)) memory' ∧
      Represents heap₀ ⟨Function.update s.visited v 1, s.printed ++ [((v : ℕ) : ℤ)], memory'⟩
        (found ++ [v]) (waiting ++ [v]) := by
  obtain ⟨nodes, hvalues, hqueued⟩ := h.queued
  obtain ⟨memory', a, hreturns, hqueued'⟩ := hqueued.enqueue allocator (v : ℕ)
  refine ⟨memory', hreturns, ?_, fun u => ?_, _, ?_, hqueued'⟩
  · rw [h.printed_eq, labels_append]
    rfl
  · rcases eq_or_ne u v with rfl | hne
    · simp
    · simp [hne, h.visited_iff]
  · rw [List.map_append, hvalues, labels_append]
    rfl

/-- The head of the queue has been taken, and its neighbours are looked at. -/
structure Expanding (heap₀ : Heap ℤ) (matrix : Adjacency n) (matrixSize : ℤ) (start : Fin n)
    (done : List (Fin n)) (i : Fin n) (s : Search n) (waiting : List (Fin n)) : Prop where
  represents : Represents heap₀ s (done ++ i :: waiting) waiting
  frontier : Frontier (Edge matrix matrixSize) start done (i :: waiting)

/-- One pass of the `for` loop: a neighbour that has not been found is. -/
theorem Expanding.visitNeighbour (h : Expanding heap₀ matrix matrixSize start done i s waiting)
    (allocator : Allocator ℤ) (hv : ((v : ℕ) : ℤ) ∈ neighbours matrixSize) :
    ∃ s' more, Returns (visitNeighbour allocator matrix (i : ℕ) s (v : ℕ)) s' ∧
      Expanding heap₀ matrix matrixSize start done i s' (waiting ++ more) ∧
      (matrix i v = 1 → v ∈ done ++ i :: (waiting ++ more)) := by
  by_cases hnew : matrix i v = 1 ∧ s.visited v = 0
  · obtain ⟨hedge, hseen⟩ := hnew
    obtain ⟨memory', henqueue, hrep⟩ := h.represents.discover allocator v
    have hfrontier := h.frontier.push (edge_iff.mpr ⟨hedge, hv⟩)
      ((h.represents.visited_iff v).mp hseen)
    have hreturns := henqueue.map fun memory =>
      Search.mk (Function.update s.visited v 1) (s.printed ++ [((v : ℕ) : ℤ)]) memory
    refine ⟨_, [v], hreturns.congr fun _ => ?_, ⟨by simpa using hrep, hfrontier⟩, fun _ => by simp⟩
    simp [Traversal.visitNeighbour, hedge, hseen]
  · have hreturns : Returns (Traversal.visitNeighbour allocator matrix (i : ℕ) s (v : ℕ)) s := by
      refine .of_eq fun _ => ?_
      by_cases hedge : matrix i v = 1
      · have hseen : s.visited v ≠ 0 := fun hseen => hnew ⟨hedge, hseen⟩
        simp [Traversal.visitNeighbour, hedge, hseen]
      · simp [Traversal.visitNeighbour, hedge]
    refine ⟨s, [], hreturns, by simpa using h, fun hedge => ?_⟩
    rw [List.append_nil]
    by_contra hnotMem
    exact hnew ⟨hedge, (h.represents.visited_iff v).mpr hnotMem⟩

/-- The `for` loop finds all neighbours. -/
theorem Expanding.visitNeighbours (h : Expanding heap₀ matrix matrixSize start done i s waiting)
    (allocator : Allocator ℤ) (hsize : matrixSize ≤ n) :
    ∃ s' waiting', Returns (fun fuel => (neighbours matrixSize).foldlM
        (fun s j => Traversal.visitNeighbour allocator matrix (i : ℕ) s j fuel) s) s' ∧
      Expanding heap₀ matrix matrixSize start done i s' waiting' ∧
      ∀ v, Edge matrix matrixSize i v → v ∈ done ++ i :: waiting' := by
  -- what holds after the neighbours in `looked`
  let P (looked : List ℤ) (s : Search n) : Prop := ∃ waiting,
    Expanding heap₀ matrix matrixSize start done i s waiting ∧
      ∀ v : Fin n, ((v : ℕ) : ℤ) ∈ looked → matrix i v = 1 → v ∈ done ++ i :: waiting
  have hstep : ∀ looked j rest s, looked ++ j :: rest = neighbours matrixSize → P looked s →
      ∃ s', Returns (Traversal.visitNeighbour allocator matrix (i : ℕ) s j) s' ∧
        P (looked ++ [j]) s' := by
    rintro looked j rest s hsplit ⟨waiting, h, hfound⟩
    have hj : j ∈ neighbours matrixSize := by simp [← hsplit]
    obtain ⟨v, rfl⟩ := exists_vertex hsize hj
    obtain ⟨s', more, hreturns, h', hv⟩ := h.visitNeighbour allocator hj
    refine ⟨s', hreturns, waiting ++ more, h', fun u hu hedge => ?_⟩
    rcases List.mem_append.mp hu with hold | hlast
    · have hmem := hfound u hold hedge
      simp only [List.mem_append, List.mem_cons] at hmem ⊢
      tauto
    · obtain rfl : u = v := Fin.ext (Int.natCast_inj.mp (List.mem_singleton.mp hlast))
      exact hv hedge
  obtain ⟨s', hreturns, waiting', h', hfound⟩ :=
    Returns.foldlM hstep ⟨waiting, h, fun _ hv => absurd hv List.not_mem_nil⟩
  exact ⟨s', waiting', hreturns, h', fun v hedge =>
    hfound v (edge_iff.mp hedge).2 (edge_iff.mp hedge).1⟩

/-- A search between two passes of the `while` loop. -/
structure Searching (heap₀ : Heap ℤ) (matrix : Adjacency n) (matrixSize : ℤ) (start : Fin n)
    (s : Search n) (done waiting : List (Fin n)) : Prop where
  represents : Represents heap₀ s (done ++ waiting) waiting
  frontier : Frontier (Edge matrix matrixSize) start done waiting

/-- One pass of the `while` loop expands the first vertex of the queue. -/
theorem Searching.bfsPass (h : Searching heap₀ matrix matrixSize start s done (i :: waiting))
    (allocator : Allocator ℤ) (hsize : matrixSize ≤ n) :
    ∃ s' waiting', Returns (fun fuel => bfsPass allocator matrix matrixSize fuel s) (.again s') ∧
      Searching heap₀ matrix matrixSize start s' (done ++ [i]) waiting' := by
  obtain ⟨nodes, hvalues, hqueued⟩ := h.represents.queued
  cases nodes with
  | nil => cases hvalues
  | cons node nodes =>
    obtain ⟨a, value⟩ := node
    obtain ⟨rfl, hrest⟩ := List.cons.inj hvalues
    have hqueue : s.memory.queue ≠ none := by
      rw [hqueued.queue_eq]
      exact Option.some_ne_none a
    obtain ⟨memory', hdequeue, hload, hqueued'⟩ := hqueued.dequeue
    have hexpanding : Expanding heap₀ matrix matrixSize start done i
        { s with memory := memory'.release (some a) } waiting :=
      ⟨⟨h.represents.printed_eq, h.represents.visited_iff, nodes, hrest, hqueued'⟩, h.frontier⟩
    obtain ⟨s', waiting', hreturns, h', hfound⟩ := hexpanding.visitNeighbours allocator hsize
    have hlist : done ++ i :: waiting' = (done ++ [i]) ++ waiting' := by simp
    have hagain := hreturns.map (Pass.again (ρ := Search n))
    refine ⟨s', waiting', hagain.congr fun _ => ?_, hlist ▸ h'.represents, h'.frontier.pop hfound⟩
    simp [Traversal.bfsPass, hqueue, hdequeue, hload]

/-- Every pass expands a vertex of its own, so there are no more passes than vertices. -/
theorem Searching.exists_leaves (h : Searching heap₀ matrix matrixSize start s done waiting)
    (allocator : Allocator ℤ) (hsize : matrixSize ≤ n) :
    ∃ s', Returns.Leaves (Traversal.bfsPass allocator matrix matrixSize) s s' ∧
      s'.memory.queue = none ∧ ∃ done, Searching heap₀ matrix matrixSize start s' done [] := by
  refine Returns.exists_leaves (P := fun m s => ∃ done waiting, m = n - done.length ∧
    Searching heap₀ matrix matrixSize start s done waiting) ?_ ⟨done, waiting, rfl, h⟩
  rintro _ s ⟨done, waiting, rfl, h⟩
  cases waiting with
  | nil =>
    obtain ⟨nodes, hvalues, hqueued⟩ := h.represents.queued
    have hqueue : s.memory.queue = none := by
      rw [hqueued.queue_eq, first_eq_none_iff]
      exact List.map_eq_nil_iff.mp hvalues
    refine Or.inr ⟨s, .of_eq fun _ => ?_, hqueue, done, h⟩
    simp [Traversal.bfsPass, hqueue]
  | cons i waiting =>
    obtain ⟨s', waiting', hreturns, h'⟩ := h.bfsPass allocator hsize
    have hcard : (done ++ i :: waiting).length ≤ n := by
      simpa using h.frontier.nodup.length_le_card
    refine Or.inl ⟨_, s', ?_, hreturns, done ++ [i], waiting', rfl, h'⟩
    simp only [List.length_append, List.length_cons, List.length_nil] at hcard ⊢
    omega

theorem bfs_searching (allocator : Allocator ℤ) (matrix : Adjacency n) (hsize : matrixSize ≤ n)
    (start : Fin n) (hempty : memory.queue = none) (hheap : memory.heap.Bounded) :
    ∃ s order, Returns (bfs allocator matrix matrixSize (start : ℕ) memory) s ∧
      s.memory.queue = none ∧ Searching memory.heap matrix matrixSize start s order [] := by
  have hinit : Represents memory.heap ⟨fun _ => 0, [], memory⟩ ([] : List (Fin n)) [] :=
    ⟨rfl, fun v => by simp, [], rfl, .init hempty hheap⟩
  obtain ⟨memory', henqueue, hrep⟩ := hinit.discover allocator start
  have hsearching : Searching memory.heap matrix matrixSize start
      ⟨Function.update (fun _ => 0) start 1, [((start : ℕ) : ℤ)], memory'⟩ [] [start] :=
    ⟨hrep, .init _ start⟩
  obtain ⟨s, hleaves, hqueue, order, h⟩ := hsearching.exists_leaves allocator hsize
  have hreturns := henqueue.bind (g := fun memory fuel => loop
    (Traversal.bfsPass allocator matrix matrixSize fuel) fuel
    ⟨Function.update (fun _ => 0) start 1, [((start : ℕ) : ℤ)], memory⟩) (.nested hleaves)
  refine ⟨s, order, hreturns.congr fun _ => ?_, hqueue, h⟩
  simp [bfs]

theorem Searching.printed_eq (h : Searching heap₀ matrix matrixSize start s done []) :
    s.printed = labels done := by
  simpa using h.represents.printed_eq

/-- All nodes of the queue have been freed. -/
theorem Searching.heap_eq (h : Searching heap₀ matrix matrixSize start s done []) :
    s.memory.heap = heap₀ := by
  obtain ⟨nodes, hvalues, hqueued⟩ := h.represents.queued
  obtain rfl : nodes = [] := List.map_eq_nil_iff.mp hvalues
  ext1 b
  exact hqueued.frame b List.not_mem_nil

/-- **Breadth-first search is exact.** From an empty queue `BFS` terminates, leaves an empty
queue and the heap as it was, and prints every vertex that can be reached once, those that
are nearer to the start first. -/
theorem bfs_exact (allocator : Allocator ℤ) (matrix : Adjacency n) (matrixSize : ℤ)
    (hsize : matrixSize ≤ n) (start : Fin n) (memory : Memory) (hempty : memory.queue = none)
    (hheap : memory.heap.Bounded) :
    ∃ s order, Returns (bfs allocator matrix matrixSize (start : ℕ) memory) s ∧
      s.memory.queue = none ∧ s.memory.heap = memory.heap ∧ s.printed = labels order ∧
      order.Nodup ∧
      (∀ v, v ∈ order ↔ ReflTransGen (Edge matrix matrixSize) start v) ∧
      order.Pairwise fun v w => distance (Edge matrix matrixSize) start v ≤
        distance (Edge matrix matrixSize) start w := by
  obtain ⟨s, order, hreturns, hqueue, h⟩ := bfs_searching allocator matrix hsize start hempty hheap
  have hnodup := h.frontier.nodup
  have hsorted := h.frontier.sorted
  rw [List.append_nil] at hnodup hsorted
  exact ⟨s, order, hreturns, hqueue, h.heap_eq, h.printed_eq, hnodup,
    fun v => h.frontier.mem_iff, hsorted⟩

/-- The search of `main`, which finds the vertex `6` and not the vertex `0`. -/
theorem bfs_exact_main :
    ∃ (s : Search 7) (order : List (Fin 7)),
      Returns (bfs (.firstFit ℤ) mainMatrix 7 1 ⟨fun _ => none, none, 0⟩) s ∧
        s.printed = labels order ∧ order.Nodup ∧ 6 ∈ order ∧ 0 ∉ order := by
  obtain ⟨s, order, hreturns, -, -, hprinted, hnodup, hmem, -⟩ := bfs_exact (.firstFit ℤ)
    mainMatrix 7 (by decide) 1 ⟨fun _ => none, none, 0⟩ rfl ⟨0, fun _ _ => rfl⟩
  have hstart : ReflTransGen (Edge mainMatrix 7) 1 2 := .single (by decide)
  refine ⟨s, order, hreturns, hprinted, hnodup, ?_, fun h => ?_⟩
  · exact (hmem 6).mpr ((hstart.tail (by decide : Edge mainMatrix 7 2 4)).tail (by decide))
  · obtain heq | ⟨v, -, -, hpos, -⟩ := ((hmem 0).mp h).cases_tail
    · cases heq
    · exact absurd hpos (by decide)

end BareMetal.Traversal
