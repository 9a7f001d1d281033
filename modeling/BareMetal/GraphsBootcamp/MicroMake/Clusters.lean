import BareMetal.Graphs.DisjointSubset
import BareMetal.GraphsBootcamp.MicroMake.Basic

/-!
# Unions and clusters

The disjoint set of `micro-make.c` and the one of `disjoint_subset.c` answer the
same questions about the pairs they were given; the first program goes on after
a redundant pair and the second exits. In `micro-make.c` the set is kept beside
the adjacency lists, and its roots count the connected components of the graph
those lists store.

## Main results

* `setUnions_closure` — both arrays represent the equivalence closure
* `setUnions_shallow` — both arrays keep their trees shallow
* `getIndependentCluster_eq` — the cluster count is the component count
-/

namespace BareMetal.MicroMake

open CS UnionFind

variable {n : ℕ}

/-- What every array that keeps track of the pairs has, the arrays of both programs have. -/
theorem setUnions_of_tracks {P : Block n ℤ → Prop} {pairs : List (Fin n × Fin n)}
    (htracks : ∀ dsu, Tracks pairs dsu → P dsu) :
    (∀ graph : Graph n, (∀ i, graph.dsu i = -1) →
      ∃ graph', setUnions pairs graph = .ok graph' ∧ P graph'.dsu) ∧
    ∀ dsu, DisjointSubset.setUnions pairs (DisjointSubset.initDsu n) = .ok dsu → P dsu := by
  constructor
  · intro graph hinit
    have hstart : Tracks [] graph.dsu := funext hinit ▸ tracks_init
    obtain ⟨graph', hrun, h⟩ := setUnions_spec hstart pairs
    exact ⟨graph', hrun, htracks _ h⟩
  · intro dsu hrun
    exact htracks dsu (DisjointSubset.tracks_setUnions tracks_init hrun)

/-- **Union-find represents the equivalence closure**, in both programs: from
the all `-1` array, and for every list of pairs, `find` always ends at a
negative entry that is minus the size of the class, and two elements have the
same root exactly when the closure of the pairs relates them. -/
theorem setUnions_closure (n : ℕ) (pairs : List (Fin n × Fin n)) :
    (∀ graph : Graph n, (∀ i, graph.dsu i = -1) →
      ∃ graph', setUnions pairs graph = .ok graph' ∧ RepresentsClosure pairs graph'.dsu) ∧
    ∀ dsu, DisjointSubset.setUnions pairs (DisjointSubset.initDsu n) = .ok dsu →
      RepresentsClosure pairs dsu := by
  apply setUnions_of_tracks
  intro dsu htracks
  exact htracks.closure

/-- The two unions of a chain of three elements. -/
theorem setUnions_closure_chain :
    (∃ graph', setUnions [(0, 1), (1, 2)] (allocGraph 3 2) = .ok graph' ∧
      RepresentsClosure [(0, 1), (1, 2)] graph'.dsu) ∧
    ∃ dsu, DisjointSubset.setUnions [(0, 1), (1, 2)] (DisjointSubset.initDsu 3) = .ok dsu ∧
      RepresentsClosure [(0, 1), (1, 2)] dsu := by
  obtain ⟨hmake, hsubset⟩ := setUnions_closure 3 [(0, 1), (1, 2)]
  obtain ⟨dsu, hrun⟩ : ∃ dsu, DisjointSubset.setUnions [(0, 1), (1, 2)]
      (DisjointSubset.initDsu 3) = .ok dsu := ⟨_, rfl⟩
  exact ⟨hmake (allocGraph 3 2) fun _ => rfl, dsu, hrun, hsubset dsu hrun⟩

/-- **Union by size keeps trees shallow**, in both programs: from every element
`find` takes so few steps that two to their number is at most the size kept at
the root, hence at most the logarithm of the number of elements. -/
theorem setUnions_shallow (n : ℕ) (pairs : List (Fin n × Fin n)) :
    (∀ graph : Graph n, (∀ i, graph.dsu i = -1) →
      ∃ graph', setUnions pairs graph = .ok graph' ∧ Shallow graph'.dsu) ∧
    ∀ dsu, DisjointSubset.setUnions pairs (DisjointSubset.initDsu n) = .ok dsu →
      Shallow dsu := by
  apply setUnions_of_tracks
  intro dsu htracks
  exact htracks.shallow

theorem setUnions_shallow_chain :
    (∃ graph', setUnions [(0, 1), (1, 2)] (allocGraph 3 2) = .ok graph' ∧
      Shallow graph'.dsu) ∧
    ∃ dsu, DisjointSubset.setUnions [(0, 1), (1, 2)] (DisjointSubset.initDsu 3) = .ok dsu ∧
      Shallow dsu := by
  obtain ⟨hmake, hsubset⟩ := setUnions_shallow 3 [(0, 1), (1, 2)]
  obtain ⟨dsu, hrun⟩ : ∃ dsu, DisjointSubset.setUnions [(0, 1), (1, 2)]
      (DisjointSubset.initDsu 3) = .ok dsu := ⟨_, rfl⟩
  exact ⟨hmake (allocGraph 3 2) fun _ => rfl, dsu, hrun, hsubset dsu hrun⟩

/-! ### Clusters -/

/-- The undirected graph of the edges in the adjacency lists. -/
def Graph.undirected (graph : Graph n) : SimpleGraph (Fin n) :=
  SimpleGraph.fromRel fun task p => ((p : ℕ) : ℤ) ∈ graph.adjList task

/-- The loop of `get_independent_cluster` counts. -/
theorem foldl_count (dsu : Block n ℤ) (tasks : List (Fin n)) (res : ℤ) :
    tasks.foldl (fun res i => if dsu i < 0 then res + 1 else res) res =
      res + (tasks.filter fun i => dsu i < 0).length := by
  induction tasks generalizing res with
  | nil => simp
  | cons i tasks ih =>
    rw [List.foldl_cons, ih]
    by_cases hi : dsu i < 0
    · rw [if_pos hi, List.filter_cons_of_pos (by simpa using hi), List.length_cons]
      push_cast
      omega
    · rw [if_neg hi, List.filter_cons_of_neg (by simpa using hi)]

theorem getIndependentCluster_eq_card (graph : Graph n) :
    getIndependentCluster graph = (Finset.univ.filter fun i => graph.dsu i < 0).card := by
  have hfilter : (Finset.univ.filter fun i => graph.dsu i < 0) =
      ((List.finRange n).filter fun i => graph.dsu i < 0).toFinset := by
    ext i
    simp
  unfold getIndependentCluster
  rw [foldl_count, zero_add, hfilter,
    List.toFinset_card_of_nodup ((List.nodup_finRange n).filter _)]

theorem Built.undirected_eq {topoLen : ℕ} {deps : List (Fin n × Fin n)} {graph : Graph n}
    (h : Built topoLen deps graph) : graph.undirected = SimpleGraph.fromRel (Paired deps) := by
  unfold Graph.undirected
  congr 1
  funext task p
  have hcast : ∀ q : Fin n, ((q : ℕ) : ℤ) = ((p : ℕ) : ℤ) ↔ q = p := by
    intro q
    rw [Nat.cast_inj, Fin.val_inj]
  simp only [h.adjList, List.mem_map, hcast, exists_eq_right, mem_prerequisites, Paired]

/-- **The lists and the disjoint set agree.** On every graph made by
`create_graph` and `add_dependency`, `get_independent_cluster` is the number of
connected components of the graph stored in the adjacency lists. Without tasks
`create_graph` exits. -/
theorem getIndependentCluster_eq (n : ℕ) (hn : 0 < n) (deps : List (Fin n × Fin n)) :
    ∃ graph, buildGraph deps = .ok graph ∧
      getIndependentCluster graph = Nat.card graph.undirected.ConnectedComponent := by
  obtain ⟨graph, hrun, hbuilt⟩ := exists_buildGraph hn deps
  refine ⟨graph, hrun, ?_⟩
  rw [getIndependentCluster_eq_card, hbuilt.tracks.card_negative, hbuilt.undirected_eq]

/-- A graph with a repeated, a reversed and a self edge. -/
theorem getIndependentCluster_eq_redundant : ∃ graph : Graph 4,
    buildGraph [(1, 0), (1, 0), (0, 1), (2, 2)] = .ok graph ∧
      getIndependentCluster graph = Nat.card graph.undirected.ConnectedComponent :=
  getIndependentCluster_eq 4 (by decide) [(1, 0), (1, 0), (0, 1), (2, 2)]

end BareMetal.MicroMake
