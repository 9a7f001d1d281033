import BareMetal.Graphs.Dijkstra.Run

/-!
# The cities that `run_dijkstra` expands

The heap hands out the nearest entry and every road is longer than zero, so a city is
expanded at most once, and at its least distance. `Explores` adds this to `Tracks`, with
the list of the cities expanded so far.

A road is pushed at most once, and only when it leads to a city that is not expanded yet.
`Explored` counts these roads along an order in which the cities may be expanded; each
expansion takes one entry out, so the count bounds the size of the heap.

## Main results

* `Expanding.step`, `Expanding.stop` — one turn of the inner loop
* `dijkstraPass_explores` — one turn of the outer loop
* `runDijkstra_explores` — how a run ends
-/

namespace BareMetal.Dijkstra

open CS Math.HeapOrder Math.WeightedPath

/-- Some road leads from `u` to `v`. -/
def Road (graph : WDG) (u v : Fin CITIES) : Prop := ∃ edge ∈ graph.edges u, edge.destination = v

/-- The roads to cities that are not in `order`. -/
def roadsAhead (order : List (Fin CITIES)) (edges : List EdgeNode) : ℕ :=
  edges.countP fun edge => edge.destination ∉ order

/-- Cities may be expanded in `order`, the latest first: each is the start or lies on a road from
one before it. When they were expanded, `roads` roads in all led to cities that were not. -/
inductive Explored (graph : WDG) (startCity : Fin CITIES) : List (Fin CITIES) → ℕ → Prop
  | nil : Explored graph startCity [] 0
  | cons {order : List (Fin CITIES)} {roads : ℕ} {v : Fin CITIES}
      (h : Explored graph startCity order roads) (new : v ∉ order)
      (found : v = startCity ∨ ∃ u ∈ order, Road graph u v) :
      Explored graph startCity (v :: order) (roads + roadsAhead (v :: order) (graph.edges v))

/-- The heap has room for the roads of every order. -/
def Fits (graph : WDG) (startCity : Fin CITIES) : Prop :=
  ∀ order roads, Explored graph startCity order roads → roads < 20 + order.length

/-- The search has expanded the cities in `order`, with at most `toCome` pushes of the last one
still to come: the sums of a distance and a road were in range, and the heap is no larger than
the roads allow. -/
structure Explores (graph : WDG) (startCity : Fin CITIES)
    (isOpen : Fin CITIES → Fin CITIES × ℤ → Prop) (order : List (Fin CITIES)) (toCome : ℕ)
    (locals : Locals) : Prop where
  tracks : Tracks graph startCity isOpen locals
  settled : Settled unreachable locals.distances locals.pending order
  found : ∀ p ∈ locals.pending, p.1 = startCity ∨ ∃ u ∈ order, Road graph u p.1
  inRange : ∀ v ∈ order, ∀ arc ∈ graph.arcs v,
    isOpen v arc ∨ locals.distances v + arc.2 ≤ intMax
  count : ∃ roads, Explored graph startCity order roads ∧
    locals.heap.size + order.length + toCome ≤ roads + 1

variable {graph : WDG} {startCity currentCity : Fin CITIES} {locals locals' : Locals}
  {edge : EdgeNode} {edges : List EdgeNode} {order : List (Fin CITIES)} {k : ℤ}
  {current : HeapNode (Fin CITIES)} {heap : MinHeap (Fin CITIES)}

theorem roadsAhead_cons (order : List (Fin CITIES)) (edge : EdgeNode) (edges : List EdgeNode) :
    roadsAhead order (edge :: edges) =
      roadsAhead order edges + if edge.destination ∉ order then 1 else 0 := by
  simp [roadsAhead, List.countP_cons]

/-- The start of `run_dijkstra`. -/
theorem exists_explores (graph : WDG) (startCity : Fin CITIES) :
    ∃ heap, (initMinheap 20 >>= fun heap => push heap startCity 0) = .ok heap ∧
      Explores graph startCity (NoneOpen _) [] 0
        ⟨Function.update (fun _ => unreachable) startCity 0, heap⟩ := by
  obtain ⟨heap, hpush, hsize, hstored, htracks⟩ := exists_start graph startCity
  have hpending : ∀ d : Fin CITIES → ℤ, Locals.pending ⟨d, heap⟩ = {(startCity, 0)} := by
    intro d
    simp [Locals.pending, hstored, HeapNode.pair]
  refine ⟨heap, hpush, htracks, ?_, ?_, fun v hv => absurd hv List.not_mem_nil, 0, .nil, ?_⟩
  · rw [hpending]
    exact Settled.init unreachable startCity
  · intro p hp
    rw [hpending] at hp
    rw [Multiset.mem_singleton.mp hp]
    exact Or.inl rfl
  · simp [hsize]

/-- A stale entry is popped. -/
theorem Explores.skip (h : Explores graph startCity (NoneOpen _) order 0 locals)
    (hpop : pop locals.heap = .ok (current, heap))
    (hstale : current.distance > locals.distances current.cityId) :
    Explores graph startCity (NoneOpen _) order 0 { locals with heap := heap } := by
  obtain ⟨hwf, hcapacity, hpending, hsearch⟩ := pop_tracks h.tracks hpop
  obtain ⟨-, -, hsize, -, -⟩ := pop_spec h.tracks.wellFormed hpop
  obtain ⟨roads, hexplored, hcount⟩ := h.count
  have hsettled := h.settled
  rw [hpending] at hsettled
  refine ⟨⟨hwf, hcapacity, hsearch.skip hstale⟩, hsettled.skip hstale, fun p hp => h.found p ?_,
    h.inRange, roads, hexplored, ?_⟩
  · rw [hpending]
    exact Multiset.mem_cons_of_mem hp
  · dsimp only
    omega

/-! ### The inner loop -/

/-- The inner loop on a city at distance `k`, with the roads `edges` to come. -/
structure Expanding (graph : WDG) (startCity currentCity : Fin CITIES) (k : ℤ)
    (order : List (Fin CITIES)) (edges : List EdgeNode) (locals : Locals) : Prop where
  explores : Explores graph startCity (OpenAt currentCity (edges.map EdgeNode.arc)) order
    (roadsAhead order edges) locals
  distance : locals.distances currentCity = k
  mem : currentCity ∈ order
  farthest : ∀ v ∈ order, locals.distances v ≤ locals.distances currentCity
  arcs : ∀ edge ∈ edges, edge.arc ∈ graph.arcs currentCity

theorem road_of_arc (harc : edge.arc ∈ graph.arcs currentCity) :
    Road graph currentCity edge.destination := by
  obtain ⟨edge', hmem, heq⟩ := List.mem_map.mp harc
  exact ⟨edge', hmem, congrArg Prod.fst heq⟩

/-- After a road is relaxed, fewer are open. -/
theorem inRange_cons {distances : Fin CITIES → ℤ} {v : Fin CITIES} {arc : Fin CITIES × ℤ}
    (hsum : distances currentCity + edge.weight ≤ intMax)
    (h : OpenAt currentCity ((edge :: edges).map EdgeNode.arc) v arc ∨
      distances v + arc.2 ≤ intMax) :
    OpenAt currentCity (edges.map EdgeNode.arc) v arc ∨ distances v + arc.2 ≤ intMax := by
  rcases h with ⟨rfl, hmem⟩ | hle
  · rcases List.mem_cons.mp hmem with rfl | hmem
    · exact Or.inr hsum
    · exact Or.inl ⟨rfl, hmem⟩
  · exact Or.inr hle

/-- A road that improves its target leads to a city that was not expanded. -/
theorem Expanding.lower (h : Expanding graph startCity currentCity k order (edge :: edges) locals)
    (hlt : locals.distances currentCity + edge.weight < locals.distances edge.destination) :
    edge.destination ∉ order ∧
      Settled unreachable
        (Function.update locals.distances edge.destination
          (locals.distances currentCity + edge.weight))
        ((edge.destination, locals.distances currentCity + edge.weight) ::ₘ locals.pending) order :=
  h.explores.settled.lower (fun p hp => (h.explores.tracks.search.pending_le p hp).1) h.farthest
    edge.weight_pos hlt

/-- A road that does not improve its target changes nothing. -/
theorem Expanding.keep (h : Expanding graph startCity currentCity k order (edge :: edges) locals)
    (htracks : Tracks graph startCity (OpenAt currentCity (edges.map EdgeNode.arc)) locals)
    (hsum : locals.distances currentCity + edge.weight ≤ intMax) :
    Expanding graph startCity currentCity k order edges locals := by
  have hexplores := h.explores
  obtain ⟨roads, hexplored, hcount⟩ := hexplores.count
  rw [roadsAhead_cons] at hcount
  refine ⟨⟨htracks, hexplores.settled, hexplores.found, fun v hv arc ha => ?_,
    roads, hexplored, by omega⟩, h.distance, h.mem, h.farthest,
    fun e he => h.arcs e (List.mem_cons_of_mem _ he)⟩
  exact inRange_cons hsum (hexplores.inRange v hv arc ha)

/-- A road that improves its target is one of those that were counted as ahead. -/
theorem Expanding.push (h : Expanding graph startCity currentCity k order (edge :: edges) locals)
    (htracks : Tracks graph startCity (OpenAt currentCity (edges.map EdgeNode.arc))
      ⟨Function.update locals.distances edge.destination
        (locals.distances currentCity + edge.weight), heap⟩)
    (hsum : locals.distances currentCity + edge.weight ≤ intMax)
    (hlt : locals.distances currentCity + edge.weight < locals.distances edge.destination)
    (hpush : Dijkstra.push locals.heap edge.destination
      (locals.distances currentCity + edge.weight) = .ok heap) :
    Expanding graph startCity currentCity k order edges
      ⟨Function.update locals.distances edge.destination
        (locals.distances currentCity + edge.weight), heap⟩ := by
  have hexplores := h.explores
  obtain ⟨hnew, hsettled⟩ := h.lower hlt
  obtain ⟨-, -, hsize, -⟩ := push_spec hexplores.tracks.wellFormed hpush
  obtain ⟨roads, hexplored, hcount⟩ := hexplores.count
  rw [roadsAhead_cons, if_pos hnew] at hcount
  have hpending := pending_push hexplores.tracks.wellFormed hpush
  -- no expanded city is the one whose distance is lowered
  have hold : ∀ v ∈ order, Function.update locals.distances edge.destination
      (locals.distances currentCity + edge.weight) v = locals.distances v := by
    intro v hv
    apply Function.update_of_ne
    rintro rfl
    exact hnew hv
  refine ⟨⟨htracks, ?_, fun p hp => ?_, fun v hv arc ha => ?_, roads, hexplored, ?_⟩,
    (hold currentCity h.mem).trans h.distance, h.mem, fun v hv => ?_,
    fun e he => h.arcs e (List.mem_cons_of_mem _ he)⟩
  · rw [hpending]
    exact hsettled
  · rw [hpending] at hp
    rcases Multiset.mem_cons.mp hp with rfl | hp
    · exact Or.inr ⟨currentCity, h.mem, road_of_arc (h.arcs edge List.mem_cons_self)⟩
    · exact hexplores.found p hp
  · dsimp only
    rw [hold v hv]
    exact inRange_cons hsum (hexplores.inRange v hv arc ha)
  · dsimp only
    omega
  · dsimp only
    rw [hold v hv, hold currentCity h.mem]
    exact h.farthest v hv

/-- One turn of the inner loop. -/
theorem Expanding.step (h : Expanding graph startCity currentCity k order (edge :: edges) locals)
    (hk : k < unreachable) (hok : relaxEdge currentCity locals edge = .ok locals') :
    Expanding graph startCity currentCity k order edges locals' := by
  have hcurrent : locals.distances currentCity < unreachable := h.distance ▸ hk
  have hexplores := h.explores.tracks
  obtain ⟨htracks, -⟩ := relaxEdge_spec hexplores hcurrent (h.arcs edge List.mem_cons_self) hok
  rcases relaxEdge_cases edge hexplores.wellFormed hexplores.capacity_eq
    (hexplores.nonneg currentCity) with
    ⟨-, hstop⟩ | ⟨hsum, ⟨-, hkeep⟩ | ⟨hlt, ⟨-, hstop⟩ | ⟨heap, hpush, hlower⟩⟩⟩
  · cases hstop.symm.trans hok
  · cases hkeep.symm.trans hok
    exact h.keep htracks hsum
  · cases hstop.symm.trans hok
  · cases hlower.symm.trans hok
    exact h.push htracks hsum hlt hpush

/-- One turn of the inner loop stops for lack of room only when the roads do not fit. -/
theorem Expanding.stop {e : Stop}
    (h : Expanding graph startCity currentCity k order (edge :: edges) locals)
    (hstop : relaxEdge currentCity locals edge = .error e) :
    e = heapFull ∧ ¬ Fits graph startCity ∨ e = .overflow ∧ intMax < k + edge.weight := by
  have hexplores := h.explores
  rcases relaxEdge_cases edge hexplores.tracks.wellFormed hexplores.tracks.capacity_eq
    (hexplores.tracks.nonneg currentCity) with
    ⟨hover, hsum⟩ | ⟨-, ⟨-, hkeep⟩ | ⟨hlt, ⟨hfull, hpush⟩ | ⟨heap, -, hlower⟩⟩⟩
  · cases hsum.symm.trans hstop
    exact Or.inr ⟨rfl, h.distance ▸ hover⟩
  · cases hkeep.symm.trans hstop
  · cases hpush.symm.trans hstop
    refine Or.inl ⟨rfl, fun hfits => ?_⟩
    obtain ⟨roads, hexplored, hcount⟩ := hexplores.count
    have hroom := hfits order roads hexplored
    rw [roadsAhead_cons, if_pos (h.lower hlt).1] at hcount
    omega
  · cases hlower.symm.trans hstop

/-- How the inner loop ends. -/
def ExpandingEnds (graph : WDG) (startCity currentCity : Fin CITIES) (k : ℤ)
    (order : List (Fin CITIES)) (outcome : Outcome Locals) : Prop :=
  (∃ locals, outcome = .ok locals ∧ Explores graph startCity (NoneOpen _) order 0 locals) ∨
    outcome = .error heapFull ∧ ¬ Fits graph startCity ∨
    outcome = .error .overflow ∧ ∃ arc ∈ graph.arcs currentCity, intMax < k + arc.2

theorem relaxEdges_expands (h : Expanding graph startCity currentCity k order edges locals)
    (hk : k < unreachable) :
    ExpandingEnds graph startCity currentCity k order (relaxEdges currentCity edges locals) := by
  refine relaxEdges_rule (P := Expanding graph startCity currentCity k order)
    (fun edge edges l l' h hok => h.step hk hok) (fun edge edges l e h hstop => ?_)
    (fun l h => ?_) h
  · rcases h.stop hstop with ⟨rfl, hfits⟩ | ⟨rfl, hover⟩
    · exact Or.inr (Or.inl ⟨rfl, hfits⟩)
    · exact Or.inr (Or.inr ⟨rfl, edge.arc, h.arcs edge List.mem_cons_self, hover⟩)
  · have hexplores := h.explores
    obtain ⟨roads, hexplored, hcount⟩ := hexplores.count
    have htracks := hexplores.tracks
    refine Or.inl ⟨l, rfl, ⟨htracks.wellFormed, htracks.capacity_eq, htracks.search.close⟩,
      hexplores.settled, hexplores.found, fun v hv arc ha => ?_, roads, hexplored, by omega⟩
    -- no road is open any more
    refine Or.inr ((hexplores.inRange v hv arc ha).resolve_left ?_)
    rintro ⟨-, hmem⟩
    exact List.not_mem_nil hmem

/-! ### The outer loop -/

/-- No pending pair is nearer than the one that is popped. -/
theorem pop_nearest (htracks : Tracks graph startCity (NoneOpen _) locals)
    (hpop : pop locals.heap = .ok (current, heap)) :
    ∀ p ∈ current.pair ::ₘ Locals.pending { locals with heap := heap },
      current.distance ≤ p.2 := by
  obtain ⟨-, -, hpending, -⟩ := pop_tracks htracks hpop
  obtain ⟨-, -, -, -, hleast⟩ := pop_spec htracks.wellFormed hpop
  intro p hp
  rw [← hpending] at hp
  obtain ⟨node, hnode, rfl⟩ := Multiset.mem_map.mp hp
  exact hleast node hnode

/-- An entry that is not stale belongs to a city that was not expanded, and is at its least
distance. -/
theorem Explores.take (h : Explores graph startCity (NoneOpen _) order 0 locals)
    (hpop : pop locals.heap = .ok (current, heap))
    (hstale : ¬ current.distance > locals.distances current.cityId) :
    locals.distances current.cityId < unreachable ∧
      IsLeast {W | Path graph.arcs startCity current.cityId W} (locals.distances current.cityId) ∧
      Expanding graph startCity current.cityId (locals.distances current.cityId)
        (current.cityId :: order) (graph.edges current.cityId) { locals with heap := heap } := by
  obtain ⟨hcurrent, htracks⟩ := tracks_of_not_stale h.tracks hpop hstale
  obtain ⟨-, -, hpending, hsearch⟩ := pop_tracks h.tracks hpop
  obtain ⟨-, -, hsize, -⟩ := pop_spec h.tracks.wellFormed hpop
  have hnearest := pop_nearest h.tracks hpop
  have hsettled := h.settled
  rw [hpending] at hsettled
  obtain ⟨hnew, hk, hsettled'⟩ := hsettled.take hstale
    (fun p hp => (hsearch.pending_le p hp).1) hnearest
  rw [← hk] at hnearest
  -- the entry is that of the start, or some road leads to its city
  obtain ⟨roads, hexplored, hcount⟩ := h.count
  have hself : current.pair ∈ locals.pending := by
    rw [hpending]
    exact Multiset.mem_cons_self _ _
  have hexplored' := hexplored.cons hnew (h.found current.pair hself)
  refine ⟨hcurrent, hsearch.isLeast_of_nearest graph.arcs_nonneg hcurrent hnearest,
    ⟨htracks, hsettled', fun p hp => ?_, fun v hv arc ha => ?_, _, hexplored', ?_⟩, rfl,
    List.mem_cons_self, fun v hv => ?_, fun edge hedge => List.mem_map_of_mem hedge⟩
  · have hmem : p ∈ locals.pending := by
      rw [hpending]
      exact Multiset.mem_cons_of_mem hp
    refine (h.found p hmem).imp_right ?_
    rintro ⟨u, hu, hroad⟩
    exact ⟨u, List.mem_cons_of_mem _ hu, hroad⟩
  · rcases List.mem_cons.mp hv with rfl | hv
    · exact Or.inl ⟨rfl, ha⟩
    · exact Or.inr ((h.inRange v hv arc ha).resolve_left id)
  · rw [List.length_cons]
    dsimp only
    omega
  · rcases List.mem_cons.mp hv with rfl | hv
    · exact le_rfl
    · exact (h.settled.nearer v hv current.pair hself).trans hk.ge

/-- Why a run stops: the heap is full although the roads do not fit, or a road is too long to be
added to the least distance of its city. -/
def Stops (graph : WDG) (startCity : Fin CITIES) (e : Stop) : Prop :=
  e = heapFull ∧ ¬ Fits graph startCity ∨ e = .overflow ∧ ∃ v D, D < unreachable ∧
    IsLeast {W | Path graph.arcs startCity v W} D ∧ ∃ arc ∈ graph.arcs v, intMax < D + arc.2

/-- What a run leaves that is not stopped: nothing is pending, and every sum of a distance and a
road was in range. -/
structure Completed (graph : WDG) (startCity : Fin CITIES) (distances : Fin CITIES → ℤ) : Prop where
  search : Search graph.arcs startCity unreachable (NoneOpen _) distances 0
  inRange : ∀ v, distances v < unreachable → ∀ arc ∈ graph.arcs v, distances v + arc.2 ≤ intMax

/-- One turn of the outer loop. -/
theorem dijkstraPass_explores (h : Explores graph startCity (NoneOpen _) order 0 locals) :
    (∃ order' locals', dijkstraPass graph locals = .ok (.again locals') ∧
        Explores graph startCity (NoneOpen _) order' 0 locals') ∨
      dijkstraPass graph locals = .ok (.leave locals.distances) ∧
        Completed graph startCity locals.distances ∨
      ∃ e, dijkstraPass graph locals = .error e ∧ Stops graph startCity e := by
  rcases dijkstraPass_cases graph h.tracks.wellFormed h.tracks.capacity_eq with
    ⟨hzero, hleave⟩ | ⟨current, heap, hpop, ⟨hstale, hskip⟩ | ⟨hstale, htake⟩⟩
  · have hpending := pending_eq_zero hzero
    refine Or.inr (Or.inl ⟨hleave, hpending ▸ h.tracks.search, fun v hv arc ha => ?_⟩)
    -- every city that was reached was expanded
    have hreached := h.settled.reached v hv
    rw [hpending] at hreached
    exact (h.inRange v (hreached.resolve_right (Multiset.notMem_zero _)) arc ha).resolve_left id
  · exact Or.inl ⟨order, _, hskip, h.skip hpop hstale⟩
  · obtain ⟨hcurrent, hleast, hexpanding⟩ := h.take hpop hstale
    rcases relaxEdges_expands hexpanding hcurrent with
      ⟨locals', hok, h'⟩ | ⟨hfull, hfits⟩ | ⟨hover, arc, ha, hlt⟩
    · rw [hok, Outcome.ok_bind] at htake
      exact Or.inl ⟨_, locals', htake, h'⟩
    · rw [hfull, Outcome.error_bind] at htake
      exact Or.inr (Or.inr ⟨_, htake, Or.inl ⟨rfl, hfits⟩⟩)
    · rw [hover, Outcome.error_bind] at htake
      exact Or.inr (Or.inr ⟨_, htake, Or.inr ⟨rfl, _, _, hcurrent, hleast, arc, ha, hlt⟩⟩)

/-- How the loop ends. -/
def ExploresEnds (graph : WDG) (startCity : Fin CITIES)
    (outcome : Outcome (Fin CITIES → ℤ)) : Prop :=
  (∃ e, outcome = .error e ∧ Stops graph startCity e) ∨
    ∃ distances, outcome = .ok distances ∧ Completed graph startCity distances

theorem dijkstraPass_explores_total (graph : WDG) (startCity : Fin CITIES) :
    TotalRule (dijkstraPass graph)
      (fun locals => ∃ order, Explores graph startCity (NoneOpen _) order 0 locals) Locals.variant
      (ExploresEnds graph startCity) where
  again := by
    rintro s s' ⟨order, h⟩ hagain
    refine ⟨?_, (dijkstraPass_again h.tracks hagain).2⟩
    rcases dijkstraPass_explores h with ⟨order', locals', heq, h'⟩ | ⟨heq, -⟩ | ⟨e, heq, -⟩
    · cases heq.symm.trans hagain
      exact ⟨order', h'⟩
    · cases heq.symm.trans hagain
    · cases heq.symm.trans hagain
  leave := by
    rintro s r ⟨order, h⟩ hleave
    rcases dijkstraPass_explores h with ⟨order', locals', heq, -⟩ | ⟨heq, hdone⟩ | ⟨e, heq, -⟩
    · cases heq.symm.trans hleave
    · cases heq.symm.trans hleave
      exact Or.inr ⟨_, rfl, hdone⟩
    · cases heq.symm.trans hleave
  stop := by
    rintro s e ⟨order, h⟩ hstop
    rcases dijkstraPass_explores h with ⟨order', locals', heq, -⟩ | ⟨heq, -⟩ | ⟨e', heq, hstops⟩
    · cases heq.symm.trans hstop
    · cases heq.symm.trans hstop
    · cases heq.symm.trans hstop
      exact Or.inl ⟨_, rfl, hstops⟩

/-- **How a run of `run_dijkstra` ends**, on every map and from every city. -/
theorem runDijkstra_explores (graph : WDG) (startCity : Fin CITIES) :
    ∃ turns, ∀ fuel ≥ turns,
      (∃ e, runDijkstra fuel graph startCity = .error e ∧ Stops graph startCity e) ∨
      ∃ distances, runDijkstra fuel graph startCity = .ok (distances, report graph distances) ∧
        Completed graph startCity distances := by
  obtain ⟨heap, hpush, h⟩ := exists_explores graph startCity
  refine ⟨Locals.variant ⟨Function.update (fun _ => unreachable) startCity 0, heap⟩ + 1,
    fun fuel hfuel => ?_⟩
  have hends := (dijkstraPass_explores_total graph startCity).loop ⟨[], h⟩ hfuel
  rw [runDijkstra_eq hpush]
  rcases hends with ⟨e, hstop, hstops⟩ | ⟨distances, hok, hdone⟩
  · rw [hstop, Outcome.error_bind]
    exact Or.inl ⟨e, rfl, hstops⟩
  · rw [hok, Outcome.ok_bind]
    exact Or.inr ⟨distances, rfl, hdone⟩

end BareMetal.Dijkstra
