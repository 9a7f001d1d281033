import BareMetal.Graphs.UnionFind

/-!
# The dependency graph of `micro-make.c`

A graph keeps, for `numTasks` tasks, the adjacency lists of their prerequisites,
a disjoint set of the tasks, a colour for the depth-first search and the buffer
that receives the execution order. `add_dependency` updates the lists and the
disjoint set in one call.

Task numbers are `int`s in the code and stay integers here; a call on tasks in
range takes them from `Fin n`.

## Main results

* `addDependency_spec`, `addDependencies_spec` — what calls in range leave
* `exists_buildGraph` — a graph can be built from any list of dependencies
-/

namespace BareMetal.MicroMake

open CS UnionFind

/-- The graph of `numTasks` tasks. A cell of `topoOrder` is `none` until it is
written; the list has as many cells as were allocated. -/
structure Graph (numTasks : ℕ) where
  dsu : Block numTasks ℤ
  state : Block numTasks ℤ
  topoOrder : List (Option ℤ)
  topoIdx : ℕ
  adjList : Block numTasks (List ℤ)

variable {n : ℕ}

/-- A fresh graph whose order buffer has `topoLen` cells. -/
def allocGraph (vertices topoLen : ℕ) : Graph vertices where
  dsu := fun _ => -1
  state := fun _ => 0
  topoOrder := List.replicate topoLen none
  topoIdx := 0
  adjList := fun _ => []

/-- `create_graph`. The order buffer has one cell less than there are tasks, and
without tasks its size wraps to more than can be allocated. -/
def createGraph (vertices : ℕ) : Outcome (Graph vertices) :=
  if vertices = 0 then .error (.exit 1 "") else .ok (allocGraph vertices (vertices - 1))

/-- `find`. -/
def find (idx : ℤ) (graph : Graph n) : Outcome ℤ := UnionFind.find idx graph.dsu

/-- `set_union`: tasks that are connected already are left as they are. -/
def setUnion (nodeA nodeB : ℤ) (graph : Graph n) : Outcome (Graph n) := do
  let dsu ← setUnionWith (fun _ _ dsu => .ok dsu) nodeA nodeB graph.dsu
  .ok { graph with dsu := dsu }

/-- Calls of `set_union` one after the other. -/
def setUnions : List (Fin n × Fin n) → Graph n → Outcome (Graph n)
  | [], graph => .ok graph
  | (a, b) :: pairs, graph => do
    let graph ← setUnion (a : ℕ) (b : ℕ) graph
    setUnions pairs graph

/-- `get_independent_cluster`. -/
def getIndependentCluster (graph : Graph n) : ℤ :=
  (List.finRange n).foldl (fun res i => if graph.dsu i < 0 then res + 1 else res) 0

/-- `add_dependency`: the new edge becomes the head of the task's list. -/
def addDependency (graph : Graph n) (task prerequisite : ℤ) : Outcome (Graph n) := do
  let head ← graph.adjList.load task
  let adjList ← graph.adjList.store task (prerequisite :: head)
  -- the edge is kept whatever the disjoint set makes of the pair
  setUnion task prerequisite { graph with adjList := adjList }

/-- Calls of `add_dependency` one after the other, each a task with a
prerequisite. -/
def addDependencies : List (Fin n × Fin n) → Graph n → Outcome (Graph n)
  | [], graph => .ok graph
  | (task, prerequisite) :: deps, graph => do
    let graph ← addDependency graph (task : ℕ) (prerequisite : ℕ)
    addDependencies deps graph

/-- A graph from `create_graph` with the given dependencies added. -/
def buildGraph (deps : List (Fin n × Fin n)) : Outcome (Graph n) := do
  let graph ← createGraph n
  addDependencies deps graph

/-! ### Unions -/

variable {graph graph' : Graph n} {pairs deps : List (Fin n × Fin n)}

/-- A union in range always returns, and touches the disjoint set only. -/
theorem setUnion_spec (h : Tracks pairs graph.dsu) (a b : Fin n) :
    ∃ dsu, Tracks (pairs ++ [(a, b)]) dsu ∧
      setUnion (a : ℕ) (b : ℕ) graph = .ok { graph with dsu := dsu } := by
  unfold setUnion
  rcases setUnionWith_spec (fun _ _ dsu => .ok dsu) h a b with
    ⟨-, hkeep, root, heq⟩ | ⟨-, dsu, hnew, heq⟩
  · exact ⟨graph.dsu, hkeep, by rw [heq, Outcome.ok_bind]⟩
  · exact ⟨dsu, hnew, by rw [heq, Outcome.ok_bind]⟩

theorem setUnions_spec (h : Tracks pairs graph.dsu) (pairs' : List (Fin n × Fin n)) :
    ∃ graph', setUnions pairs' graph = .ok graph' ∧ Tracks (pairs ++ pairs') graph'.dsu := by
  induction pairs' generalizing pairs graph with
  | nil => exact ⟨graph, rfl, by simpa using h⟩
  | cons pair pairs' ih =>
    obtain ⟨a, b⟩ := pair
    obtain ⟨dsu, hnew, heq⟩ := setUnion_spec h a b
    have hnext : Tracks (pairs ++ [(a, b)]) { graph with dsu := dsu }.dsu := hnew
    obtain ⟨graph', hrun, htracks⟩ := ih hnext
    refine ⟨graph', ?_, by simpa using htracks⟩
    unfold setUnions
    rw [heq, Outcome.ok_bind, hrun]

/-! ### Dependencies -/

/-- The prerequisites of a task, the latest first. -/
def prerequisites (deps : List (Fin n × Fin n)) (task : Fin n) : List (Fin n) :=
  ((deps.filter fun dep => dep.1 = task).map Prod.snd).reverse

theorem mem_prerequisites {task p : Fin n} : p ∈ prerequisites deps task ↔ (task, p) ∈ deps := by
  simp [prerequisites]

/-- The graph before any search, after the dependencies `deps` were added to a
fresh graph with `topoLen` order cells. -/
structure Built (topoLen : ℕ) (deps : List (Fin n × Fin n)) (graph : Graph n) : Prop where
  tracks : Tracks deps graph.dsu
  adjList : ∀ task,
    graph.adjList task = (prerequisites deps task).map fun p : Fin n => ((p : ℕ) : ℤ)
  state : graph.state = fun _ => 0
  topoOrder : graph.topoOrder = List.replicate topoLen none
  topoIdx : graph.topoIdx = 0

theorem built_allocGraph (n topoLen : ℕ) : Built topoLen [] (allocGraph n topoLen) where
  tracks := tracks_init
  adjList _ := rfl
  state := rfl
  topoOrder := rfl
  topoIdx := rfl

variable {topoLen : ℕ}

theorem addDependency_spec (h : Built topoLen deps graph) (task p : Fin n) :
    ∃ graph', addDependency graph (task : ℕ) (p : ℕ) = .ok graph' ∧
      Built topoLen (deps ++ [(task, p)]) graph' := by
  let linked : Graph n := { graph with
    adjList := Function.update graph.adjList task (((p : ℕ) : ℤ) :: graph.adjList task) }
  have htracks : Tracks deps linked.dsu := h.tracks
  obtain ⟨dsu, hnew, heq⟩ := setUnion_spec htracks task p
  refine ⟨{ linked with dsu := dsu }, ?_, hnew, fun t => ?_, h.state, h.topoOrder, h.topoIdx⟩
  · unfold addDependency
    rw [Block.load_natCast, Outcome.ok_bind, Block.store_natCast, Outcome.ok_bind]
    exact heq
  · by_cases ht : t = task
    · subst ht
      simp [linked, prerequisites, h.adjList]
    · simp [linked, prerequisites, h.adjList, Function.update_of_ne ht, Ne.symm ht]

theorem addDependencies_spec (h : Built topoLen deps graph) (deps' : List (Fin n × Fin n)) :
    ∃ graph', addDependencies deps' graph = .ok graph' ∧ Built topoLen (deps ++ deps') graph' := by
  induction deps' generalizing deps graph with
  | nil => exact ⟨graph, rfl, by simpa using h⟩
  | cons dep deps' ih =>
    obtain ⟨task, p⟩ := dep
    obtain ⟨graph₁, hcall, h₁⟩ := addDependency_spec h task p
    obtain ⟨graph', hrun, h'⟩ := ih h₁
    refine ⟨graph', ?_, by simpa using h'⟩
    unfold addDependencies
    rw [hcall, Outcome.ok_bind, hrun]

/-- A graph with at least one task can be built from any dependencies. -/
theorem exists_buildGraph (hn : 0 < n) (deps : List (Fin n × Fin n)) :
    ∃ graph, buildGraph deps = .ok graph ∧ Built (n - 1) deps graph := by
  obtain ⟨graph, hrun, hbuilt⟩ := addDependencies_spec (built_allocGraph n (n - 1)) deps
  refine ⟨graph, ?_, by simpa using hbuilt⟩
  unfold buildGraph createGraph
  rw [if_neg (by omega), Outcome.ok_bind, hrun]

end BareMetal.MicroMake
