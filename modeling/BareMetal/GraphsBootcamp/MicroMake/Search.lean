import BareMetal.GraphsBootcamp.MicroMake.Basic
import BareMetal.Math.CycleSearch

/-!
# The depth-first search of `micro-make.c`

`has_cycle` colours a task grey (`1`) while its prerequisites are searched and
black (`2`) once they are finished, when it also appends the task to the
execution order. A call that meets a grey task returns `1` at once, and so does
every call above it, which leaves the whole chain of callers grey. Later calls
read that leftover colour.

`Invariant` is what holds between calls: the black tasks are the finished ones,
listed in `order`. The grey tasks are described by the precondition of a call,
not by the invariant: each of them reaches a cycle or reaches the task that is
about to be searched.

## Main results

* `hasCycle_spec` — one call, at any depth of the recursion
* `testGraphForCycles_spec` — the run over all tasks
-/

namespace BareMetal.MicroMake

open CS UnionFind Math.CycleSearch Relation

/-- A graph under search, with two logs the code does not keep: the calls of
`has_cycle` that have returned, with their results, and the indices at which
`topo_order` was stored to. A store past the last cell is logged like any other
and changes no cell. -/
structure Search (numTasks : ℕ) where
  graph : Graph numTasks
  returned : List (ℤ × ℤ)
  topoWrites : List ℕ

variable {n : ℕ}

namespace Search

/-- Log the return of a call. -/
def record (search : Search n) (task result : ℤ) : Search n :=
  { search with returned := search.returned ++ [(task, result)] }

/-- `graph->state[task] = colour`. -/
def setState (search : Search n) (task colour : ℤ) : Outcome (Search n) := do
  let state ← search.graph.state.store task colour
  .ok { search with graph := { search.graph with state := state } }

/-- Append a task to the execution order. A store behind the end of the buffer is noted in
`topoWrites` and changes nothing. -/
def finish (search : Search n) (task : ℤ) : Search n :=
  { search with
    graph := { search.graph with
      topoOrder := search.graph.topoOrder.set search.graph.topoIdx (some task)
      topoIdx := search.graph.topoIdx + 1 }
    topoWrites := search.topoWrites ++ [search.graph.topoIdx] }

end Search

/-- The loop of `has_cycle` over the targets of a task, with `call` for the
recursive call: `true` as soon as one of them returns `1`. -/
def visitEdges (call : Search n → ℤ → Outcome (Search n × ℤ)) :
    List ℤ → Search n → Outcome (Search n × Bool)
  | [], search => .ok (search, false)
  | target :: targets, search => do
    let (search, found) ← call search target
    if found = 1 then .ok (search, true) else visitEdges call targets search

section

variable {call : Search n → ℤ → Outcome (Search n × ℤ)} {target : ℤ} {targets : List ℤ}
  {search search' : Search n}

theorem visitEdges_cons_stop {e : Stop} (h : call search target = .error e) :
    visitEdges call (target :: targets) search = .error e := by
  rw [visitEdges, h, Outcome.error_bind]

theorem visitEdges_cons_found (h : call search target = .ok (search', 1)) :
    visitEdges call (target :: targets) search = .ok (search', true) := by
  rw [visitEdges, h, Outcome.ok_bind]
  exact if_pos rfl

theorem visitEdges_cons_again {res : ℤ} (h : call search target = .ok (search', res))
    (hres : res ≠ 1) :
    visitEdges call (target :: targets) search = visitEdges call targets search' := by
  rw [visitEdges, h, Outcome.ok_bind]
  exact if_neg hres

end

/-- `has_cycle`, to a recursion depth of at most `fuel`. -/
def hasCycle : ℕ → Search n → ℤ → Outcome (Search n × ℤ)
  | 0, _, _ => .error .outOfFuel
  | fuel + 1, search, currentTask =>
    -- the guard lets `currentTask = n` through; the load below does not
    if currentTask < 0 ∨ currentTask > n then .error (.exit 1 "")
    else do
      let state ← search.graph.state.load currentTask
      if state = 1 then .ok (search.record currentTask 1, 1)
      else if state = 2 then .ok (search.record currentTask 0, 0)
      else if state = 0 then do
        let search ← search.setState currentTask 1
        let targets ← search.graph.adjList.load currentTask
        let (search, found) ← visitEdges (hasCycle fuel) targets search
        -- on a cycle the task stays grey
        if found then .ok (search.record currentTask 1, 1)
        else do
          let search ← search.setState currentTask 2
          .ok ((search.finish currentTask).record currentTask 0, 0)
      else .error (.exit 1 "")

/-- The first loop of `test_graph_for_cycles`. Every level of the recursion
greys a new task, so `n + 1` levels are enough. -/
def dfsLoop : List (Fin n) → Search n → Outcome (Search n)
  | [], search => .ok search
  | i :: tasks, search => do
    let state ← search.graph.state.load (i : ℕ)
    if state = 0 then do
      let (search, _) ← hasCycle (n + 1) search (i : ℕ)
      dfsLoop tasks search
    else dfsLoop tasks search

/-- The second loop of `test_graph_for_cycles`: the index and the content of
each printed cell, `none` for a cell that was never allocated. -/
def printOrder (graph : Graph n) : List (ℕ × Option (Option ℤ)) :=
  (List.range n).map fun i => (i, graph.topoOrder[i]?)

/-- `test_graph_for_cycles`. -/
def testGraphForCycles (graph : Graph n) :
    Outcome (Search n × List (ℕ × Option (Option ℤ))) := do
  let search ← dfsLoop (List.finRange n) ⟨graph, [], []⟩
  .ok (search, printOrder search.graph)

/-! ### The execution order -/

/-- The order buffer of `topoLen` cells after the tasks in `order` were
appended. -/
def orderCells (topoLen : ℕ) (order : List (Fin n)) : List (Option ℤ) :=
  (List.range topoLen).map fun i => (order[i]?).map fun t : Fin n => ((t : ℕ) : ℤ)

theorem orderCells_nil (topoLen : ℕ) :
    orderCells topoLen ([] : List (Fin n)) = List.replicate topoLen none := by
  simp [orderCells]

theorem orderCells_append (topoLen : ℕ) (order : List (Fin n)) (t : Fin n) :
    (orderCells topoLen order).set order.length (some ((t : ℕ) : ℤ)) =
      orderCells topoLen (order ++ [t]) := by
  unfold orderCells
  refine List.ext_getElem (by simp) fun i hi _ => ?_
  rw [List.getElem_set]
  simp only [List.getElem_map, List.getElem_range]
  split_ifs with hlen
  · simp [← hlen]
  · by_cases hlt : i < order.length
    · rw [List.getElem?_append_left hlt]
    · rw [List.getElem?_eq_none (by omega), List.getElem?_eq_none]
      rw [List.length_append, List.length_singleton]
      omega

/-- A buffer that is long enough holds the whole order. -/
theorem take_orderCells {topoLen : ℕ} {order : List (Fin n)} (hlen : order.length ≤ topoLen) :
    (orderCells topoLen order).take order.length =
      order.map fun t : Fin n => some ((t : ℕ) : ℤ) := by
  refine List.ext_getElem (by simp [orderCells, hlen]) fun i _ hi => ?_
  have hi' : i < order.length := by simpa using hi
  simp [orderCells, List.getElem?_eq_getElem hi']

/-! ### The invariant -/

variable {topoLen : ℕ} {deps : List (Fin n × Fin n)} {s s₁ s₂ s₃ : Search n}
  {order : List (Fin n)} {t u : Fin n}

/-- A logged call gave the right answer. -/
def Answers (deps : List (Fin n × Fin n)) (call : ℤ × ℤ) : Prop :=
  ∃ t : Fin n, call.1 = (t : ℕ) ∧
    (call.2 = 1 ∧ ReachesCycle (Paired deps) t ∨ call.2 = 0 ∧ ¬ ReachesCycle (Paired deps) t)

/-- What holds between calls: the black tasks are finished in the order `order`,
the buffer holds that order, and every answer so far was right. -/
structure Invariant (topoLen : ℕ) (deps : List (Fin n × Fin n)) (search : Search n)
    (order : List (Fin n)) : Prop where
  finished : Finished (Paired deps) order
  adjList : ∀ t, search.graph.adjList t =
    (prerequisites deps t).map fun p : Fin n => ((p : ℕ) : ℤ)
  colour : ∀ t, search.graph.state t = 0 ∨ search.graph.state t = 1 ∨ search.graph.state t = 2
  black : ∀ t, search.graph.state t = 2 ↔ t ∈ order
  topoIdx : search.graph.topoIdx = order.length
  topoOrder : search.graph.topoOrder = orderCells topoLen order
  topoWrites : search.topoWrites = List.range order.length
  returned : ∀ call ∈ search.returned, Answers deps call

/-- How a search grows: coloured tasks keep their colour, a task left grey
reaches a cycle, and every task coloured meanwhile has had a call return. -/
structure Grows (deps : List (Fin n × Fin n)) (s s' : Search n) : Prop where
  keep : ∀ u, s.graph.state u ≠ 0 → s'.graph.state u = s.graph.state u
  grey : ∀ u, s.graph.state u = 0 → s'.graph.state u = 1 → ReachesCycle (Paired deps) u
  logged : ∀ u : Fin n, s.graph.state u = 0 → s'.graph.state u ≠ 0 →
    ∃ res, (((u : ℕ) : ℤ), res) ∈ s'.returned
  returned : ∀ call ∈ s.returned, call ∈ s'.returned

theorem Grows.refl (deps : List (Fin n × Fin n)) (s : Search n) : Grows deps s s where
  keep _ _ := rfl
  grey _ h h' := by rw [h] at h'; cases h'
  logged _ h h' := absurd h h'
  returned _ h := h

theorem Grows.trans (h : Grows deps s₁ s₂) (h' : Grows deps s₂ s₃) : Grows deps s₁ s₃ where
  keep u hu := by
    have heq := h.keep u hu
    rw [h'.keep u (heq ▸ hu), heq]
  grey u hu hu' := by
    -- was `u` coloured in the first stretch or in the second?
    by_cases hmid : s₂.graph.state u = 0
    · exact h'.grey u hmid hu'
    · exact h.grey u hu ((h'.keep u hmid).symm.trans hu')
  logged u hu hu' := by
    by_cases hmid : s₂.graph.state u = 0
    · exact h'.logged u hmid hu'
    · obtain ⟨res, hres⟩ := h.logged u hu hmid
      exact ⟨res, h'.returned _ hres⟩
  returned call hcall := h'.returned call (h.returned call hcall)

/-- What is known of the grey tasks when `t` is about to be searched: they reach
a cycle by themselves, or they reach `t`. -/
def GreyReach (deps : List (Fin n × Fin n)) (search : Search n) (t : Fin n) : Prop :=
  ∀ u, search.graph.state u = 1 →
    ReachesCycle (Paired deps) u ∨ TransGen (Paired deps) u t

theorem GreyReach.mono (h : GreyReach deps s t) (hgrows : Grows deps s s₁) :
    GreyReach deps s₁ t := by
  intro u hu
  by_cases hold : s.graph.state u = 0
  · exact Or.inl (hgrows.grey u hold hu)
  · exact h u ((hgrows.keep u hold).symm.trans hu)

/-- The tasks not yet coloured. -/
def whites (search : Search n) : ℕ := (Finset.univ.filter fun u => search.graph.state u = 0).card

theorem whites_le (search : Search n) : whites search ≤ n := by
  unfold whites
  simpa using Finset.card_le_univ (Finset.univ.filter fun u => search.graph.state u = 0)

theorem Grows.whites_le (h : Grows deps s s₁) : whites s₁ ≤ whites s := by
  refine Finset.card_le_card fun u hu => ?_
  rw [Finset.mem_filter] at hu ⊢
  refine ⟨hu.1, ?_⟩
  by_contra hne
  exact hne ((h.keep u hne).symm.trans hu.2)

/-- What a call on `t` leaves behind. -/
structure Called (topoLen : ℕ) (deps : List (Fin n × Fin n)) (s : Search n) (t : Fin n)
    (s' : Search n) (res : ℤ) : Prop where
  invariant : ∃ order, Invariant topoLen deps s' order
  grows : Grows deps s s'
  coloured : s'.graph.state t ≠ 0
  found : res = 1 → ReachesCycle (Paired deps) t
  clear : res ≠ 1 → s'.graph.state t = 2

/-! ### One call -/

/-- A call on a task that is coloured already only logs its return. -/
theorem called_record {res : ℤ} (h : Invariant topoLen deps s order) (ht : s.graph.state t ≠ 0)
    (hanswer : Answers deps ((t : ℕ), res)) (hfound : res = 1 → ReachesCycle (Paired deps) t)
    (hclear : res ≠ 1 → s.graph.state t = 2) :
    Called topoLen deps s t (s.record (t : ℕ) res) res where
  invariant := by
    refine ⟨order, h.finished, h.adjList, h.colour, h.black, h.topoIdx, h.topoOrder,
      h.topoWrites, fun call hcall => ?_⟩
    rcases List.mem_append.mp hcall with hold | hnew
    · exact h.returned call hold
    · rw [List.mem_singleton.mp hnew]
      exact hanswer
  grows :=
    { keep := fun _ _ => rfl
      grey := (Grows.refl deps s).grey
      logged := fun _ hu hu' => absurd hu hu'
      returned := fun _ hcall => List.mem_append_left _ hcall }
  coloured := ht
  found := hfound
  clear := hclear

/-- Storing a colour leaves every entry a colour. -/
theorem colour_update {state : Block n ℤ} (h : ∀ u, state u = 0 ∨ state u = 1 ∨ state u = 2)
    (t : Fin n) {colour : ℤ} (hcolour : colour = 0 ∨ colour = 1 ∨ colour = 2) (u : Fin n) :
    Function.update state t colour u = 0 ∨ Function.update state t colour u = 1 ∨
      Function.update state t colour u = 2 := by
  by_cases hut : u = t
  · subst hut
    rwa [Function.update_self]
  · rw [Function.update_of_ne hut]
    exact h u

/-- Greying a white task keeps the invariant. -/
theorem Invariant.mark (h : Invariant topoLen deps s order) (ht : s.graph.state t = 0)
    (hgraph : s₁.graph =
      { s.graph with state := Function.update s.graph.state t 1 })
    (hreturned : s₁.returned = s.returned) (hwrites : s₁.topoWrites = s.topoWrites) :
    Invariant topoLen deps s₁ order where
  finished := h.finished
  adjList := by rw [hgraph]; exact h.adjList
  colour u := by
    rw [hgraph]
    exact colour_update h.colour t (Or.inr (Or.inl rfl)) u
  black u := by
    rw [hgraph]
    by_cases hut : u = t
    · subst hut
      have hblack := h.black u
      rw [ht] at hblack
      simpa using hblack
    · simpa [Function.update_of_ne hut] using h.black u
  topoIdx := by rw [hgraph]; exact h.topoIdx
  topoOrder := by rw [hgraph]; exact h.topoOrder
  topoWrites := hwrites.trans h.topoWrites
  returned := hreturned ▸ h.returned

/-- The search below a greyed task, and what is done to the task at its end,
make up one growth of the search above it. -/
theorem Grows.of_marked {res : ℤ} (ht : s.graph.state t = 0)
    (hmark : ∀ u, u ≠ t → s₁.graph.state u = s.graph.state u)
    (hreturned : s₁.returned = s.returned) (h : Grows deps s₁ s₂)
    (hlast : ∀ u, u ≠ t → s₃.graph.state u = s₂.graph.state u)
    (hgrey : s₃.graph.state t = 1 → ReachesCycle (Paired deps) t)
    (hlog : s₃.returned = s₂.returned ++ [(((t : ℕ) : ℤ), res)]) : Grows deps s s₃ where
  keep u hu := by
    have hut : u ≠ t := by
      rintro rfl
      exact hu ht
    rw [hlast u hut, h.keep u (by rwa [hmark u hut]), hmark u hut]
  grey u hu hu' := by
    by_cases hut : u = t
    · subst hut
      exact hgrey hu'
    · exact h.grey u ((hmark u hut).trans hu) ((hlast u hut).symm.trans hu')
  logged u hu hu' := by
    rw [hlog]
    by_cases hut : u = t
    · subst hut
      exact ⟨res, List.mem_append_right _ (List.mem_singleton_self _)⟩
    · obtain ⟨res', hres⟩ := h.logged u ((hmark u hut).trans hu) (by rwa [hlast u hut] at hu')
      exact ⟨res', List.mem_append_left _ hres⟩
  returned call hcall := by
    rw [hlog]
    exact List.mem_append_left _ (h.returned call (hreturned ▸ hcall))

/-- A task whose prerequisites are all black is finished. -/
theorem Invariant.finish (h : Invariant topoLen deps s order) (ht : t ∉ order)
    (hsucc : ∀ p, Paired deps t p → s.graph.state p = 2)
    (hgraph : s₁.graph = { s.graph with
      state := Function.update s.graph.state t 2
      topoOrder := s.graph.topoOrder.set s.graph.topoIdx (some ((t : ℕ) : ℤ))
      topoIdx := s.graph.topoIdx + 1 })
    (hreturned : s₁.returned = s.returned ++ [(((t : ℕ) : ℤ), 0)])
    (hwrites : s₁.topoWrites = s.topoWrites ++ [s.graph.topoIdx]) :
    Invariant topoLen deps s₁ (order ++ [t]) where
  finished := h.finished.append ht fun p hp => (h.black p).mp (hsucc p hp)
  adjList := by rw [hgraph]; exact h.adjList
  colour u := by
    rw [hgraph]
    exact colour_update h.colour t (Or.inr (Or.inr rfl)) u
  black u := by
    rw [hgraph]
    by_cases hut : u = t
    · subst hut
      simp
    · simpa [Function.update_of_ne hut, hut] using h.black u
  topoIdx := by
    rw [hgraph, List.length_append, List.length_singleton]
    exact congrArg (· + 1) h.topoIdx
  topoOrder := by
    rw [hgraph]
    dsimp only
    rw [h.topoOrder, h.topoIdx, orderCells_append]
  topoWrites := by
    rw [hwrites, h.topoWrites, h.topoIdx, List.length_append, List.length_singleton,
      List.range_succ]
  returned call hcall := by
    rw [hreturned] at hcall
    rcases List.mem_append.mp hcall with hold | hnew
    · exact h.returned call hold
    · rw [List.mem_singleton.mp hnew]
      exact ⟨t, rfl, Or.inr ⟨rfl, h.finished.not_reachesCycle
        fun p hp => (h.black p).mp (hsucc p hp)⟩⟩

/-- A call that meets the conditions is decided, and does what `Called` says. -/
def CallSpec (topoLen : ℕ) (deps : List (Fin n × Fin n)) (fuel : ℕ) : Prop :=
  ∀ (s : Search n) (order : List (Fin n)) (t : Fin n), Invariant topoLen deps s order →
    GreyReach deps s t → whites s < fuel →
    ∃ s' res, hasCycle fuel s (t : ℕ) = .ok (s', res) ∧ Called topoLen deps s t s' res

/-- The loop over the prerequisites: it stops at one that reaches a cycle, or
leaves all of them black. -/
theorem visitEdges_spec {fuel : ℕ} (hcall : CallSpec topoLen deps fuel) (targets : List (Fin n))
    (h : Invariant topoLen deps s order) (hgrey : ∀ p ∈ targets, GreyReach deps s p)
    (hfuel : whites s < fuel) :
    ∃ s' found, visitEdges (hasCycle fuel) (targets.map fun p : Fin n => ((p : ℕ) : ℤ)) s =
        .ok (s', found) ∧
      (∃ order', Invariant topoLen deps s' order') ∧ Grows deps s s' ∧
      (found = true → ∃ p ∈ targets, ReachesCycle (Paired deps) p) ∧
      (found = false → ∀ p ∈ targets, s'.graph.state p = 2) := by
  induction targets generalizing s order with
  | nil =>
    exact ⟨s, false, rfl, ⟨order, h⟩, .refl deps s, by simp, by simp⟩
  | cons p targets ih =>
    obtain ⟨s₁, res, heq, hcalled⟩ := hcall s order p h (hgrey p List.mem_cons_self) hfuel
    rw [List.map_cons]
    by_cases hres : res = 1
    · -- the loop is left early, the other prerequisites are not searched
      subst hres
      exact ⟨s₁, true, visitEdges_cons_found heq, hcalled.invariant, hcalled.grows,
        fun _ => ⟨p, List.mem_cons_self, hcalled.found rfl⟩, by simp⟩
    · obtain ⟨order₁, h₁⟩ := hcalled.invariant
      obtain ⟨s', found, heq', hinv', hgrows', hfound, hclear⟩ :=
        ih h₁ (fun q hq => (hgrey q (List.mem_cons_of_mem _ hq)).mono hcalled.grows)
          (hcalled.grows.whites_le.trans_lt hfuel)
      refine ⟨s', found, (visitEdges_cons_again heq hres).trans heq', hinv',
        hcalled.grows.trans hgrows',
        fun hf => ?_, fun hf => ?_⟩
      · obtain ⟨q, hq, hcycle⟩ := hfound hf
        exact ⟨q, List.mem_cons_of_mem _ hq, hcycle⟩
      · intro q hq
        rcases List.mem_cons.mp hq with rfl | hq
        · have hblack := hcalled.clear hres
          rw [hgrows'.keep q (by rw [hblack]; decide), hblack]
        · exact hclear hf q hq

/-- A task that has become grey. -/
def Search.grey (s : Search n) (t : Fin n) : Search n :=
  { s with graph := { s.graph with state := Function.update s.graph.state t 1 } }

@[simp] theorem state_grey_self (s : Search n) (t : Fin n) : (s.grey t).graph.state t = 1 :=
  Function.update_self ..

theorem state_grey_of_ne (hut : u ≠ t) : (s.grey t).graph.state u = s.graph.state u :=
  Function.update_of_ne hut ..

/-- A grey task that reaches `t` reaches every prerequisite of `t`, and so does `t`. -/
theorem GreyReach.grey (h : GreyReach deps s t) {p : Fin n} (hp : Paired deps t p) :
    GreyReach deps (s.grey t) p := by
  intro u hu
  by_cases hut : u = t
  · exact Or.inr (hut ▸ .single hp)
  · rw [state_grey_of_ne hut] at hu
    exact (h u hu).imp_right fun hreach => hreach.tail hp

theorem whites_grey_lt (ht : s.graph.state t = 0) : whites (s.grey t) < whites s := by
  apply Finset.card_lt_card
  refine (Finset.ssubset_iff_of_subset fun u hu => ?_).mpr ⟨t, by simpa using ht, by simp⟩
  rw [Finset.mem_filter] at hu ⊢
  refine ⟨hu.1, ?_⟩
  by_cases hut : u = t
  · exact hut ▸ ht
  · rw [← hu.2, state_grey_of_ne hut]

/-- A call on a white task greys it and goes through its targets. -/
theorem hasCycle_of_white (fuel : ℕ) (ht : s.graph.state t = 0) :
    hasCycle (fuel + 1) s (t : ℕ) =
      (visitEdges (hasCycle fuel) (s.graph.adjList t) (s.grey t) >>= fun visited =>
        if visited.2 then .ok (visited.1.record (t : ℕ) 1, 1)
        else visited.1.setState (t : ℕ) 2 >>= fun search =>
          .ok ((search.finish (t : ℕ)).record (t : ℕ) 0, 0)) := by
  have hrange : ¬ (((t : ℕ) : ℤ) < 0 ∨ ((t : ℕ) : ℤ) > n) := by omega
  rw [hasCycle, if_neg hrange, Block.load_natCast, Outcome.ok_bind, ht, if_neg (by decide),
    if_neg (by decide), if_pos rfl, Search.setState, Block.store_natCast, Outcome.ok_bind,
    Outcome.ok_bind, Block.load_natCast, Outcome.ok_bind]
  rfl

/-- A call on a grey task answers that it is on a cycle. -/
theorem hasCycle_of_grey (fuel : ℕ) (ht : s.graph.state t = 1) :
    hasCycle (fuel + 1) s (t : ℕ) = .ok (s.record (t : ℕ) 1, 1) := by
  have hrange : ¬ (((t : ℕ) : ℤ) < 0 ∨ ((t : ℕ) : ℤ) > n) := by omega
  rw [hasCycle, if_neg hrange, Block.load_natCast, Outcome.ok_bind, if_pos ht]

/-- A call on a black task answers that it is not. -/
theorem hasCycle_of_black (fuel : ℕ) (ht : s.graph.state t = 2) :
    hasCycle (fuel + 1) s (t : ℕ) = .ok (s.record (t : ℕ) 0, 0) := by
  have hrange : ¬ (((t : ℕ) : ℤ) < 0 ∨ ((t : ℕ) : ℤ) > n) := by omega
  rw [hasCycle, if_neg hrange, Block.load_natCast, Outcome.ok_bind, if_neg (by rw [ht]; decide),
    if_pos ht]

/-- A call on a white task. The induction is on the recursion depth: the
prerequisites are searched one level down, with one white task less. -/
theorem hasCycle_white {fuel : ℕ} (hcall : CallSpec topoLen deps fuel)
    (h : Invariant topoLen deps s order) (hgrey : GreyReach deps s t)
    (ht : s.graph.state t = 0) (hfuel : whites s < fuel + 1) :
    ∃ s' res, hasCycle (fuel + 1) s (t : ℕ) = .ok (s', res) ∧
      Called topoLen deps s t s' res := by
  have hmark : ∀ u, u ≠ t → (s.grey t).graph.state u = s.graph.state u :=
    fun u hu => state_grey_of_ne hu
  have h₁ : Invariant topoLen deps (s.grey t) order := h.mark ht rfl rfl rfl
  have hwhites := whites_grey_lt ht
  obtain ⟨s₂, found, heq, ⟨order₂, h₂⟩, hgrows, hfound, hclear⟩ :=
    visitEdges_spec hcall (prerequisites deps t) h₁
      (fun p hp => hgrey.grey (mem_prerequisites.mp hp)) (by omega)
  have ht₂ : s₂.graph.state t = 1 := by
    rw [hgrows.keep t (by simp), state_grey_self]
  rw [← h.adjList t] at heq
  have hrun := hasCycle_of_white fuel ht
  rw [heq, Outcome.ok_bind] at hrun
  cases found with
  | true =>
    -- `t` is left grey, which is right since it reaches a cycle
    obtain ⟨p, hp, hcycle⟩ := hfound rfl
    have htcycle : ReachesCycle (Paired deps) t :=
      reachesCycle_iff.mpr ⟨p, mem_prerequisites.mp hp, hcycle⟩
    have hrecord := called_record h₂ (by rw [ht₂]; decide)
      ⟨t, rfl, Or.inl ⟨rfl, htcycle⟩⟩ (fun _ => htcycle) (fun hne => absurd rfl hne)
    refine ⟨_, _, hrun.trans (if_pos rfl), hrecord.invariant, ?_, hrecord.coloured,
      fun _ => htcycle, fun hne => absurd rfl hne⟩
    exact .of_marked ht hmark rfl hgrows (fun _ _ => rfl) (fun _ => htcycle) rfl
  | false =>
    -- all prerequisites are finished, so `t` is
    have hsucc : ∀ p, Paired deps t p → s₂.graph.state p = 2 :=
      fun p hp => hclear rfl p (mem_prerequisites.mpr hp)
    have hnew : t ∉ order₂ := by
      rw [← h₂.black t, ht₂]
      decide
    rw [if_neg Bool.false_ne_true, Search.setState, Block.store_natCast, Outcome.ok_bind,
      Outcome.ok_bind] at hrun
    have hblack : Function.update s₂.graph.state t 2 t = 2 := Function.update_self ..
    refine ⟨_, _, hrun, ⟨_, h₂.finish hnew hsucc rfl rfl rfl⟩, ?_, ?_,
      fun hone => absurd hone (by decide), fun _ => ?_⟩
    · refine .of_marked ht hmark rfl hgrows (fun u hu => Function.update_of_ne hu _ _)
        (fun hgrey' => ?_) rfl
      exact absurd (hblack.symm.trans hgrey') (by decide)
    · intro hzero
      exact absurd (hblack.symm.trans hzero) (by decide)
    · exact hblack

/-- **One call of `has_cycle`**, at any depth: it is decided within as many
levels as there are white tasks, and answers whether its task reaches a cycle. -/
theorem hasCycle_spec (topoLen : ℕ) (deps : List (Fin n × Fin n)) (fuel : ℕ) :
    CallSpec topoLen deps fuel := by
  induction fuel with
  | zero =>
    intro s order t _ _ hfuel
    omega
  | succ fuel ih =>
    intro s order t h hgrey hfuel
    rcases h.colour t with ht | ht | ht
    · exact hasCycle_white ih h hgrey ht hfuel
    · -- a grey task was left by an earlier search, or is a caller of this call
      have hcycle : ReachesCycle (Paired deps) t :=
        (hgrey t ht).elim id reachesCycle_of_transGen_self
      exact ⟨s.record (t : ℕ) 1, 1, hasCycle_of_grey fuel ht, called_record h (by rw [ht]; decide)
        ⟨t, rfl, Or.inl ⟨rfl, hcycle⟩⟩ (fun _ => hcycle) (fun hne => absurd rfl hne)⟩
    · have hclean : ¬ ReachesCycle (Paired deps) t := h.finished.clean t ((h.black t).mp ht)
      exact ⟨s.record (t : ℕ) 0, 0, hasCycle_of_black fuel ht, called_record h (by rw [ht]; decide)
        ⟨t, rfl, Or.inr ⟨rfl, hclean⟩⟩ (fun hone => absurd hone (by decide)) (fun _ => ht)⟩

/-! ### The run over all tasks -/

/-- Between calls from `test_graph_for_cycles`, every grey task reaches a cycle. -/
def GreyBad (deps : List (Fin n × Fin n)) (search : Search n) : Prop :=
  ∀ u, search.graph.state u = 1 → ReachesCycle (Paired deps) u

theorem GreyBad.mono (h : GreyBad deps s) (hgrows : Grows deps s s₁) : GreyBad deps s₁ := by
  intro u hu
  by_cases hold : s.graph.state u = 0
  · exact hgrows.grey u hold hu
  · exact h u ((hgrows.keep u hold).symm.trans hu)

theorem dfsLoop_spec (tasks : List (Fin n)) (h : Invariant topoLen deps s order)
    (hgrey : GreyBad deps s) :
    ∃ s' order', dfsLoop tasks s = .ok s' ∧ Invariant topoLen deps s' order' ∧
      GreyBad deps s' ∧ Grows deps s s' ∧ ∀ t ∈ tasks, s'.graph.state t ≠ 0 := by
  induction tasks generalizing s order with
  | nil => exact ⟨s, order, rfl, h, hgrey, .refl deps s, by simp⟩
  | cons t tasks ih =>
    -- one turn, whether or not it makes a call
    have hturn : ∃ s₁ order₁, dfsLoop (t :: tasks) s = dfsLoop tasks s₁ ∧
        Invariant topoLen deps s₁ order₁ ∧ Grows deps s s₁ ∧ s₁.graph.state t ≠ 0 := by
      rw [dfsLoop, Block.load_natCast, Outcome.ok_bind]
      by_cases ht : s.graph.state t = 0
      · have hle := whites_le s
        obtain ⟨s₁, res, heq, hcalled⟩ := hasCycle_spec topoLen deps (n + 1) s order t h
          (fun u hu => Or.inl (hgrey u hu)) (by omega)
        obtain ⟨order₁, h₁⟩ := hcalled.invariant
        rw [if_pos ht, heq, Outcome.ok_bind]
        exact ⟨s₁, order₁, rfl, h₁, hcalled.grows, hcalled.coloured⟩
      · rw [if_neg ht]
        exact ⟨s, order, rfl, h, .refl deps s, ht⟩
    obtain ⟨s₁, order₁, heq, h₁, hgrows, hcoloured⟩ := hturn
    obtain ⟨s', order', heq', h', hgrey', hgrows', hall⟩ := ih h₁ (hgrey.mono hgrows)
    refine ⟨s', order', heq.trans heq', h', hgrey', hgrows.trans hgrows', fun u hu => ?_⟩
    rcases List.mem_cons.mp hu with rfl | hu
    · rw [hgrows'.keep u hcoloured]
      exact hcoloured
    · exact hall u hu

/-- The start of a search on a graph that was just built. -/
theorem Built.invariant {graph : Graph n} (h : Built topoLen deps graph) :
    Invariant topoLen deps ⟨graph, [], []⟩ [] where
  finished := finished_nil _
  adjList := h.adjList
  colour t := by simp [h.state]
  black t := by simp [h.state]
  topoIdx := h.topoIdx
  topoOrder := h.topoOrder.trans (orderCells_nil topoLen).symm
  topoWrites := rfl
  returned call hcall := absurd hcall List.not_mem_nil

/-- **The run over all tasks**: it ends, every answer was right and every task
was asked about, and the finished tasks are the ones that reach no cycle. -/
theorem testGraphForCycles_spec {graph : Graph n} (h : Built topoLen deps graph) :
    ∃ search order, testGraphForCycles graph = .ok (search, printOrder search.graph) ∧
      Invariant topoLen deps search order ∧
      (∀ t : Fin n, ∃ res, (((t : ℕ) : ℤ), res) ∈ search.returned) ∧
      ∀ t, t ∈ order ↔ ¬ ReachesCycle (Paired deps) t := by
  have hgrey : GreyBad deps ⟨graph, [], []⟩ := by
    intro u hu
    simp [h.state] at hu
  obtain ⟨search, order, heq, hinv, hgrey', hgrows, hall⟩ :=
    dfsLoop_spec (List.finRange n) h.invariant hgrey
  have hcoloured : ∀ t, search.graph.state t ≠ 0 := fun t => hall t (List.mem_finRange t)
  refine ⟨search, order, ?_, hinv, fun t => ?_, fun t => ⟨hinv.finished.clean t, fun hclean => ?_⟩⟩
  · unfold testGraphForCycles
    rw [heq, Outcome.ok_bind]
  · exact hgrows.logged t (by simp [h.state]) (hcoloured t)
  · rcases hinv.colour t with ht | ht | ht
    · exact absurd ht (hcoloured t)
    · exact absurd (hgrey' t ht) hclean
    · exact (hinv.black t).mp ht

end BareMetal.MicroMake
