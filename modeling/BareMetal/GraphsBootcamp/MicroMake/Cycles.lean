import BareMetal.GraphsBootcamp.MicroMake.Search

/-!
# Cycle detection and the execution order

The two results `test_graph_for_cycles` is for: the answers of `has_cycle`, and
the order left in `topo_order`. The second one is about a buffer that is long
enough, which the one from `create_graph` is not. In the first one, a store past
the end of that buffer is taken to disturb nothing else.

## Main results

* `hasCycle_exact` — the answers of `has_cycle`
* `topoOrder_topological` — the execution order in a buffer that is long enough
* `not_bufferSafe` — the buffer from `create_graph` is always overrun
-/

namespace BareMetal.MicroMake

open CS UnionFind Math.CycleSearch Relation

variable {n : ℕ}

/-- **Cycle detection is exact.** On every graph from `create_graph` and
`add_dependency`, every call of `has_cycle` made during the run of
`test_graph_for_cycles` returns, at whatever depth and after whatever earlier
calls, and it returns `1` exactly when a cycle of dependencies can be reached
from its task. Every task is asked about. Without tasks `create_graph` exits. -/
theorem hasCycle_exact (n : ℕ) (hn : 0 < n) (deps : List (Fin n × Fin n)) :
    ∃ graph search printed, buildGraph deps = .ok graph ∧
      testGraphForCycles graph = .ok (search, printed) ∧
      (∀ i res, (i, res) ∈ search.returned → ∃ t : Fin n, i = (t : ℕ) ∧ (res = 1 ∨ res = 0) ∧
        (res = 1 ↔ ReachesCycle (fun task p => (task, p) ∈ deps) t)) ∧
      ∀ t : Fin n, ∃ res, (((t : ℕ) : ℤ), res) ∈ search.returned := by
  obtain ⟨graph, hbuild, hbuilt⟩ := exists_buildGraph hn deps
  obtain ⟨search, order, hrun, hinv, hasked, -⟩ := testGraphForCycles_spec hbuilt
  refine ⟨graph, search, _, hbuild, hrun, fun i res hcall => ?_, hasked⟩
  obtain ⟨t, hi, ⟨hres, hcycle⟩ | ⟨hres, hclean⟩⟩ := hinv.returned _ hcall
  · exact ⟨t, hi, Or.inl hres, fun _ => hcycle, fun _ => hres⟩
  · dsimp only at hres
    refine ⟨t, hi, Or.inr hres, fun hone => ?_, fun hcycle => absurd hcycle hclean⟩
    omega

/-- A cycle of two tasks, a task that depends on it, and a free task. -/
theorem hasCycle_exact_four : ∃ (graph : Graph 4) (search : Search 4)
    (printed : List (ℕ × Option (Option ℤ))),
    buildGraph [(0, 1), (1, 0), (2, 0)] = .ok graph ∧
      testGraphForCycles graph = .ok (search, printed) ∧
      (∀ i res, (i, res) ∈ search.returned → ∃ t : Fin 4, i = (t : ℕ) ∧ (res = 1 ∨ res = 0) ∧
        (res = 1 ↔ ReachesCycle
          (fun task p => (task, p) ∈ [((0 : Fin 4), (1 : Fin 4)), (1, 0), (2, 0)]) t)) ∧
      ∀ t : Fin 4, ∃ res, (((t : ℕ) : ℤ), res) ∈ search.returned :=
  hasCycle_exact 4 (by decide) [(0, 1), (1, 0), (2, 0)]

/-- **The execution order is topological.** With a buffer of at least as many
cells as there are tasks, the first `topo_idx` cells hold the tasks from which
no cycle can be reached, each once and after all its prerequisites; on an
acyclic graph that is every task. -/
theorem topoOrder_topological (n topoLen : ℕ) (hlen : n ≤ topoLen) (deps : List (Fin n × Fin n)) :
    ∃ graph search printed, addDependencies deps (allocGraph n topoLen) = .ok graph ∧
      testGraphForCycles graph = .ok (search, printed) ∧
      ∃ order : List (Fin n),
        search.graph.topoOrder.take search.graph.topoIdx =
          order.map (fun t : Fin n => some ((t : ℕ) : ℤ)) ∧
        search.graph.topoIdx = order.length ∧ order.Nodup ∧
        (∀ t, t ∈ order ↔ ¬ ReachesCycle (fun task p => (task, p) ∈ deps) t) ∧
        (∀ t p, (t, p) ∈ deps → t ∈ order → p ∈ order ∧ order.idxOf p < order.idxOf t) ∧
        ((∀ t, ¬ TransGen (fun task p => (task, p) ∈ deps) t t) →
          order.Perm (List.finRange n)) := by
  obtain ⟨graph, hbuild, hbuilt⟩ := addDependencies_spec (built_allocGraph n topoLen) deps
  rw [List.nil_append] at hbuilt
  obtain ⟨search, order, hrun, hinv, -, hlisted⟩ := testGraphForCycles_spec hbuilt
  have hnodup := hinv.finished.nodup
  have hcard : order.length ≤ n := by simpa using hnodup.length_le_card
  refine ⟨graph, search, _, hbuild, hrun, order, ?_, hinv.topoIdx, hnodup, hlisted,
    fun t p hdep ht => ⟨hinv.finished.closed t ht p hdep, hinv.finished.idxOf_lt hdep ht⟩,
    fun hacyclic => ?_⟩
  · rw [hinv.topoIdx, hinv.topoOrder]
    exact take_orderCells (hcard.trans hlen)
  · -- on an acyclic graph every task is listed
    refine (List.perm_ext_iff_of_nodup hnodup (List.nodup_finRange n)).mpr fun t => ?_
    refine iff_of_true ((hlisted t).mpr ?_) (List.mem_finRange t)
    rintro ⟨c, -, hcycle⟩
    exact hacyclic c hcycle

/-- The graph of `main`, with a buffer of six cells. -/
theorem topoOrder_topological_main :
    ∃ graph search printed, addDependencies [(1, 0), (2, 1), (4, 3), (5, 3)] (allocGraph 6 6) =
        .ok graph ∧
      testGraphForCycles graph = .ok (search, printed) ∧
      ∃ order : List (Fin 6),
        search.graph.topoOrder.take search.graph.topoIdx =
          order.map (fun t : Fin 6 => some ((t : ℕ) : ℤ)) ∧
        order.Nodup ∧ ((1 : Fin 6) ∈ order → order.idxOf 0 < order.idxOf 1) := by
  obtain ⟨graph, search, printed, hbuild, hrun, order, htake, -, hnodup, -, hbefore, -⟩ :=
    topoOrder_topological 6 6 (by decide) [(1, 0), (2, 1), (4, 3), (5, 3)]
  exact ⟨graph, search, printed, hbuild, hrun, order, htake, hnodup,
    fun h => (hbefore 1 0 (by decide) h).2⟩

/-! ### The buffer of `create_graph` -/

/-- The order buffer of `graph` is used as it should be: every index written to and every index
printed is one of its cells, and every printed cell was written. -/
structure BufferSafe (graph : Graph n) (search : Search n)
    (printed : List (ℕ × Option (Option ℤ))) : Prop where
  writes : ∀ i ∈ search.topoWrites, i < graph.topoOrder.length
  prints : ∀ i cell, (i, cell) ∈ printed →
    i < graph.topoOrder.length ∧ ∃ task, cell = some (some task)

/-- An order of distinct tasks is shorter than the number of tasks when one is missing. -/
theorem length_lt_iff {order : List (Fin n)} (hnodup : order.Nodup) :
    order.length < n ↔ ∃ t, t ∉ order := by
  constructor
  · intro hlt
    by_contra hall
    push Not at hall
    have hperm := (List.perm_ext_iff_of_nodup hnodup (List.nodup_finRange n)).mpr fun t =>
      iff_of_true (hall t) (List.mem_finRange t)
    have hlen := hperm.length_eq
    rw [List.length_finRange] at hlen
    omega
  · rintro ⟨t, ht⟩
    have hcard := (List.nodup_cons.mpr ⟨ht, hnodup⟩).length_le_card
    rw [Fintype.card_fin, List.length_cons] at hcard
    omega

/-- Some task reaches a cycle when there is one. -/
theorem exists_reachesCycle_iff {r : Fin n → Fin n → Prop} :
    (∃ t, ReachesCycle r t) ↔ ∃ t, TransGen r t t := by
  constructor
  · rintro ⟨t, c, -, hcycle⟩
    exact ⟨c, hcycle⟩
  · rintro ⟨t, hcycle⟩
    exact ⟨t, reachesCycle_of_transGen_self hcycle⟩

/-- **The order buffer is one cell short.** On every graph from `create_graph` and
`add_dependency`, `test_graph_for_cycles` prints the cell after the last one, so the buffer is
never used as it should be. `has_cycle` stays inside of it exactly when there is a cycle of
dependencies. -/
theorem not_bufferSafe (n : ℕ) (hn : 0 < n) (deps : List (Fin n × Fin n)) :
    ∃ graph search printed, buildGraph deps = .ok graph ∧
      testGraphForCycles graph = .ok (search, printed) ∧
      (graph.topoOrder.length, none) ∈ printed ∧ ¬ BufferSafe graph search printed ∧
      ((∀ i ∈ search.topoWrites, i < graph.topoOrder.length) ↔
        ∃ t, TransGen (fun task p => (task, p) ∈ deps) t t) := by
  obtain ⟨graph, hbuild, hbuilt⟩ := exists_buildGraph hn deps
  obtain ⟨search, order, hrun, hinv, -, hlisted⟩ := testGraphForCycles_spec hbuilt
  have hlen : graph.topoOrder.length = n - 1 := by rw [hbuilt.topoOrder, List.length_replicate]
  -- the last index printed is the first one behind the buffer
  have hprint : (graph.topoOrder.length, none) ∈ printOrder search.graph := by
    refine List.mem_map.mpr ⟨n - 1, List.mem_range.mpr (by omega), ?_⟩
    rw [hlen, hinv.topoOrder, List.getElem?_eq_none]
    simp [orderCells]
  refine ⟨graph, search, _, hbuild, hrun, hprint, fun hsafe => ?_, ?_⟩
  · exact absurd (hsafe.prints _ _ hprint).1 (Nat.lt_irrefl _)
  · calc (∀ i ∈ search.topoWrites, i < graph.topoOrder.length)
        ↔ order.length < n := by
          -- the indices written to are those below the length of the order
          rw [hinv.topoWrites, hlen]
          simp only [List.mem_range]
          constructor
          · intro hwrites
            by_contra hge
            exact absurd (hwrites (n - 1) (by omega)) (Nat.lt_irrefl _)
          · intro hlt i hi
            omega
      _ ↔ ∃ t, ReachesCycle (Paired deps) t := by
          simp only [length_lt_iff hinv.finished.nodup, hlisted, not_not]
      _ ↔ ∃ t, TransGen (fun task p => (task, p) ∈ deps) t t := exists_reachesCycle_iff

/-- The buffer of the graph of `main` has five cells for six tasks. -/
theorem not_bufferSafe_main : ∃ graph search printed,
    buildGraph (n := 6) [(1, 0), (2, 1), (4, 3), (5, 3)] = .ok graph ∧
      testGraphForCycles graph = .ok (search, printed) ∧
      (graph.topoOrder.length, none) ∈ printed ∧ ¬ BufferSafe graph search printed := by
  obtain ⟨graph, search, printed, hbuild, hrun, hprint, hunsafe, -⟩ :=
    not_bufferSafe 6 (by decide) [(1, 0), (2, 1), (4, 3), (5, 3)]
  exact ⟨graph, search, printed, hbuild, hrun, hprint, hunsafe⟩

/-- Of two tasks the second is written behind the only cell, and printed from there. -/
theorem bufferOverrun_two : ∃ graph search printed,
    buildGraph (n := 2) [] = .ok graph ∧ testGraphForCycles graph = .ok (search, printed) ∧
      graph.topoOrder.length = 1 ∧ search.topoWrites = [0, 1] ∧
      printed = [(0, some (some 0)), (1, none)] ∧ ¬ BufferSafe graph search printed := by
  refine ⟨_, _, _, rfl, rfl, rfl, rfl, rfl, fun hsafe => ?_⟩
  exact absurd (hsafe.prints 1 none (List.mem_cons_of_mem _ (List.mem_singleton_self _))).1
    (by decide)

end BareMetal.MicroMake
