import BareMetal.CS.Loop
import BareMetal.Graphs.Dijkstra.MinHeap
import BareMetal.Graphs.Dijkstra.Routes

/-!
# `run_dijkstra`

The search keeps an array of tentative distances and a heap of cities to visit.
A city may sit in the heap several times; an entry above the city's current
distance is skipped when it is popped. One pass of the `while` loop is
`dijkstraPass`, and the loop is run with the pass budget `fuel`.

The proof reads the array and the heap as a label-correcting search with the
heap's contents pending: `Tracks` is that reading, and each piece of the loop
body is one of its moves.

## Main results

* `relaxEdges_spec` — the inner loop relaxes every road of the popped city
* `dijkstraPass_total` — the outer loop keeps the search and lowers a variant
* `runDijkstra_exact` — the distances are the lengths of shortest paths
-/

namespace BareMetal.Dijkstra

open CS Math.HeapOrder Math.WeightedPath

/-- The distance that stands for a city not reached. -/
def unreachable : ℤ := 999999

/-- The locals of `run_dijkstra`. -/
structure Locals where
  distances : Fin CITIES → ℤ
  heap : MinHeap (Fin CITIES)

/-- One turn of the inner loop. -/
def relaxEdge (currentCity : Fin CITIES) (locals : Locals) (edge : EdgeNode) : Outcome Locals := do
  let newDistance ← addInt (locals.distances currentCity) edge.weight
  if newDistance < locals.distances edge.destination then
    let heap ← push locals.heap edge.destination newDistance
    .ok ⟨Function.update locals.distances edge.destination newDistance, heap⟩
  else .ok locals

/-- The inner loop over the roads of the popped city. -/
def relaxEdges (currentCity : Fin CITIES) : List EdgeNode → Locals → Outcome Locals
  | [], locals => .ok locals
  | edge :: edges, locals => do
    let locals ← relaxEdge currentCity locals edge
    relaxEdges currentCity edges locals

/-- One turn of the outer loop: it leaves on an empty heap. -/
def dijkstraPass (graph : WDG) (locals : Locals) : Outcome (Pass Locals (Fin CITIES → ℤ)) :=
  if locals.heap.size > 0 then do
    let (current, heap) ← pop locals.heap
    let locals : Locals := { locals with heap := heap }
    -- a cheaper way to this city was found after it was pushed
    if current.distance > locals.distances current.cityId then .ok (.again locals)
    else do
      let locals ← relaxEdges current.cityId (graph.edges current.cityId) locals
      .ok (.again locals)
  else .ok (.leave locals.distances)

/-- One line of the printed report: a city's name and its distance, `none`
where the program prints `UNREACHABLE`. -/
abbrev ReportLine := String × Option ℤ

/-- The report `run_dijkstra` prints at its end. -/
def report (graph : WDG) (distances : Fin CITIES → ℤ) : List ReportLine :=
  (List.finRange CITIES).map fun i =>
    (graph.cities i, if distances i = unreachable then none else some (distances i))

/-- `run_dijkstra`, with at most `fuel` turns of its loop: the final distances
and the report made from them. -/
def runDijkstra (fuel : ℕ) (graph : WDG) (startCity : Fin CITIES) :
    Outcome ((Fin CITIES → ℤ) × List ReportLine) := do
  let distances := Function.update (fun _ => unreachable) startCity 0
  let heap ← initMinheap 20
  let heap ← push heap startCity 0
  let distances ← loop (dijkstraPass graph) fuel ⟨distances, heap⟩
  .ok (distances, report graph distances)

/-! ### The locals as a search -/

/-- A heap node as a pending pair. -/
def HeapNode.pair (node : HeapNode (Fin CITIES)) : Fin CITIES × ℤ := (node.cityId, node.distance)

/-- The pairs the heap has pending. -/
def Locals.pending (locals : Locals) : Multiset (Fin CITIES × ℤ) :=
  locals.heap.stored.map HeapNode.pair

/-- The locals are a search on the map, with the arcs in `isOpen` not yet
relaxed, and the heap is the one that was allocated. -/
structure Tracks (graph : WDG) (startCity : Fin CITIES)
    (isOpen : Fin CITIES → Fin CITIES × ℤ → Prop) (locals : Locals) : Prop where
  wellFormed : locals.heap.WellFormed
  capacity_eq : locals.heap.capacity = 20
  search : Search graph.arcs startCity unreachable isOpen locals.distances locals.pending

/-- The variant of the outer loop. -/
def Locals.variant (locals : Locals) : ℕ := potential locals.distances locals.pending

variable {graph : WDG} {startCity currentCity : Fin CITIES} {locals locals' : Locals}
  {edge : EdgeNode} {edges : List EdgeNode}

/-- What one turn of the inner loop can do. -/
theorem relaxEdge_cases (edge : EdgeNode) (hwf : locals.heap.WellFormed)
    (hcapacity : locals.heap.capacity = 20) (hnonneg : 0 ≤ locals.distances currentCity) :
    intMax < locals.distances currentCity + edge.weight ∧
        relaxEdge currentCity locals edge = .error .overflow ∨
      locals.distances currentCity + edge.weight ≤ intMax ∧
        (locals.distances edge.destination ≤ locals.distances currentCity + edge.weight ∧
            relaxEdge currentCity locals edge = .ok locals ∨
          locals.distances currentCity + edge.weight < locals.distances edge.destination ∧
            (locals.heap.size = 20 ∧
                relaxEdge currentCity locals edge = .error heapFull ∨
              ∃ heap, push locals.heap edge.destination
                  (locals.distances currentCity + edge.weight) = .ok heap ∧
                relaxEdge currentCity locals edge = .ok ⟨Function.update locals.distances
                  edge.destination (locals.distances currentCity + edge.weight), heap⟩)) := by
  have hweight := edge.weight_pos
  have hmin : intMin ≤ locals.distances currentCity + edge.weight := by
    unfold intMin
    omega
  rcases lt_or_ge intMax (locals.distances currentCity + edge.weight) with hover | hrange
  · refine Or.inl ⟨hover, ?_⟩
    rw [relaxEdge, addInt_overflow hover, Outcome.error_bind]
  · refine Or.inr ⟨hrange, ?_⟩
    rw [relaxEdge, addInt_of_range hmin hrange, Outcome.ok_bind]
    rcases le_or_gt (locals.distances edge.destination)
      (locals.distances currentCity + edge.weight) with hle | hlt
    · exact Or.inl ⟨hle, if_neg (not_lt.mpr hle)⟩
    · refine Or.inr ⟨hlt, ?_⟩
      rw [if_pos hlt]
      rcases hpush : push locals.heap edge.destination
          (locals.distances currentCity + edge.weight) with e | heap
      · have hle := hwf.size_le
        rcases (push_eq_error_iff hwf).mp hpush with ⟨-, hfull, rfl⟩ | ⟨hmax, -⟩
        · exact Or.inl ⟨hfull.trans hcapacity, rfl⟩
        · -- 20 nodes are far from `INT_MAX`
          unfold intMax at hmax
          omega
      · exact Or.inr ⟨heap, rfl, rfl⟩

/-- A push is one more pending pair. -/
theorem pending_push {heap : MinHeap (Fin CITIES)} {u : Fin CITIES} {k : ℤ}
    (hwf : locals.heap.WellFormed) (hpush : push locals.heap u k = .ok heap)
    (distances : Fin CITIES → ℤ) :
    Locals.pending ⟨distances, heap⟩ = (u, k) ::ₘ locals.pending := by
  obtain ⟨-, -, -, hstored⟩ := push_spec hwf hpush
  simp [Locals.pending, hstored, HeapNode.pair]

theorem Tracks.nonneg {isOpen : Fin CITIES → Fin CITIES × ℤ → Prop}
    (htracks : Tracks graph startCity isOpen locals) (v : Fin CITIES) : 0 ≤ locals.distances v :=
  htracks.search.nonneg graph.arcs_nonneg (by decide) v

/-- One turn of the inner loop relaxes its road. -/
theorem relaxEdge_spec
    (htracks : Tracks graph startCity (OpenAt currentCity ((edge :: edges).map EdgeNode.arc))
      locals)
    (hcurrent : locals.distances currentCity < unreachable)
    (hedge : edge.arc ∈ graph.arcs currentCity)
    (h : relaxEdge currentCity locals edge = .ok locals') :
    Tracks graph startCity (OpenAt currentCity (edges.map EdgeNode.arc)) locals' ∧
      locals'.distances currentCity = locals.distances currentCity ∧
      locals'.variant ≤ locals.variant := by
  have hnonneg := htracks.nonneg currentCity
  have hweight := edge.weight_pos
  rcases relaxEdge_cases edge htracks.wellFormed htracks.capacity_eq hnonneg with
    ⟨-, hstop⟩ | ⟨-, ⟨hle, hkeep⟩ | ⟨hlt, ⟨-, hstop⟩ | ⟨heap, hpush, hlower⟩⟩⟩
  · cases hstop.symm.trans h
  · cases hkeep.symm.trans h
    exact ⟨⟨htracks.wellFormed, htracks.capacity_eq, htracks.search.keep hle⟩, rfl, le_rfl⟩
  · cases hstop.symm.trans h
  · -- the road improves its target, which is pushed at the new distance
    cases hlower.symm.trans h
    obtain ⟨hwf, hcapacity, -, -⟩ := push_spec htracks.wellFormed hpush
    have hpending := pending_push htracks.wellFormed hpush
    -- a positive weight cannot improve the city it starts from
    have hne : currentCity ≠ edge.destination := by
      intro heq
      rw [← heq] at hlt
      omega
    refine ⟨⟨hwf, hcapacity.trans htracks.capacity_eq, ?_⟩, Function.update_of_ne hne _ _, ?_⟩
    · rw [hpending]
      exact htracks.search.lower graph.arcs_nonneg hcurrent hweight hedge hlt
    · unfold Locals.variant
      rw [hpending]
      exact potential_lower_le _ (by omega) hlt

/-- The rule for the inner loop. `P` says what holds while the roads of a list are still to
come. -/
theorem relaxEdges_rule {P : List EdgeNode → Locals → Prop} {Q : Outcome Locals → Prop}
    (hagain : ∀ edge edges locals locals', P (edge :: edges) locals →
      relaxEdge currentCity locals edge = .ok locals' → P edges locals')
    (hstop : ∀ edge edges locals e, P (edge :: edges) locals →
      relaxEdge currentCity locals edge = .error e → Q (.error e))
    (hend : ∀ locals, P [] locals → Q (.ok locals)) (h : P edges locals) :
    Q (relaxEdges currentCity edges locals) := by
  induction edges generalizing locals with
  | nil => exact hend locals h
  | cons edge edges ih =>
    rw [relaxEdges]
    rcases hfirst : relaxEdge currentCity locals edge with e | locals₁
    · exact hstop edge edges locals e h hfirst
    · exact ih (hagain edge edges locals locals₁ h hfirst)

/-- One turn of the inner loop stops on a full heap, or when the sum of a distance
and a weight leaves `int`. -/
theorem relaxEdge_stop {e : Stop} {isOpen : Fin CITIES → Fin CITIES × ℤ → Prop}
    (htracks : Tracks graph startCity isOpen locals)
    (h : relaxEdge currentCity locals edge = .error e) :
    e = heapFull ∨ e = .overflow ∧ intMax < locals.distances currentCity + edge.weight := by
  rcases relaxEdge_cases edge htracks.wellFormed htracks.capacity_eq
    (htracks.nonneg currentCity) with ⟨hover, hstop⟩ | ⟨-, ⟨-, hkeep⟩ | ⟨-, ⟨-, hstop⟩ |
    ⟨heap, -, hlower⟩⟩⟩
  · cases hstop.symm.trans h
    exact Or.inr ⟨rfl, hover⟩
  · cases hkeep.symm.trans h
  · cases hstop.symm.trans h
    exact Or.inl rfl
  · cases hlower.symm.trans h

/-- What holds in the inner loop with the roads `edges` to come. The distance `k` of the city
stays as it is. -/
structure Relaxing (graph : WDG) (startCity currentCity : Fin CITIES) (k : ℤ) (bound : ℕ)
    (edges : List EdgeNode) (locals : Locals) : Prop where
  tracks : Tracks graph startCity (OpenAt currentCity (edges.map EdgeNode.arc)) locals
  distance : locals.distances currentCity = k
  arcs : ∀ edge ∈ edges, edge.arc ∈ graph.arcs currentCity
  variant_le : locals.variant ≤ bound

/-- How the inner loop ends: with every road relaxed, on a full heap, or on a road that is too
long. -/
def RelaxingEnds (graph : WDG) (startCity currentCity : Fin CITIES) (k : ℤ) (bound : ℕ)
    (outcome : Outcome Locals) : Prop :=
  (∃ locals, outcome = .ok locals ∧ Tracks graph startCity (NoneOpen _) locals ∧
      locals.variant ≤ bound) ∨
    outcome = .error heapFull ∨
    outcome = .error .overflow ∧ ∃ arc ∈ graph.arcs currentCity, intMax < k + arc.2

/-- The inner loop relaxes every road of the popped city. -/
theorem relaxEdges_spec
    (htracks : Tracks graph startCity (OpenAt currentCity (edges.map EdgeNode.arc)) locals)
    (hcurrent : locals.distances currentCity < unreachable)
    (hedges : ∀ edge ∈ edges, edge.arc ∈ graph.arcs currentCity) :
    RelaxingEnds graph startCity currentCity (locals.distances currentCity) locals.variant
      (relaxEdges currentCity edges locals) := by
  refine relaxEdges_rule
    (P := Relaxing graph startCity currentCity (locals.distances currentCity) locals.variant)
    ?_ ?_ ?_ ⟨htracks, rfl, hedges, le_rfl⟩
  · intro edge edges l l' h hok
    have hlt : l.distances currentCity < unreachable := h.distance ▸ hcurrent
    obtain ⟨htracks', hsame, hle⟩ :=
      relaxEdge_spec h.tracks hlt (h.arcs edge List.mem_cons_self) hok
    exact ⟨htracks', hsame.trans h.distance, fun e he => h.arcs e (List.mem_cons_of_mem _ he),
      hle.trans h.variant_le⟩
  · intro edge edges l e h hstop
    rcases relaxEdge_stop h.tracks hstop with rfl | ⟨rfl, hover⟩
    · exact Or.inr (Or.inl rfl)
    · rw [h.distance] at hover
      exact Or.inr (Or.inr ⟨rfl, edge.arc, h.arcs edge List.mem_cons_self, hover⟩)
  · intro l h
    exact Or.inl ⟨l, rfl, ⟨h.tracks.wellFormed, h.tracks.capacity_eq, h.tracks.search.close⟩,
      h.variant_le⟩

/-! ### The outer loop -/

/-- A pop takes one pair out of the pending ones. -/
theorem pop_tracks {current : HeapNode (Fin CITIES)} {heap : MinHeap (Fin CITIES)}
    (htracks : Tracks graph startCity (NoneOpen _) locals)
    (h : pop locals.heap = .ok (current, heap)) :
    heap.WellFormed ∧ heap.capacity = 20 ∧
      locals.pending = current.pair ::ₘ Locals.pending { locals with heap := heap } ∧
      Search graph.arcs startCity unreachable (NoneOpen _) locals.distances
        (current.pair ::ₘ Locals.pending { locals with heap := heap }) := by
  obtain ⟨hwf, hcapacity, -, hstored, -⟩ := pop_spec htracks.wellFormed h
  have hpending : locals.pending =
      current.pair ::ₘ Locals.pending { locals with heap := heap } := by
    simp [Locals.pending, hstored]
  exact ⟨hwf, hcapacity.trans htracks.capacity_eq, hpending, hpending ▸ htracks.search⟩

/-- What a pop that is not skipped leaves for the inner loop. -/
theorem tracks_of_not_stale {current : HeapNode (Fin CITIES)} {heap : MinHeap (Fin CITIES)}
    (htracks : Tracks graph startCity (NoneOpen _) locals)
    (hpop : pop locals.heap = .ok (current, heap))
    (hstale : ¬ current.distance > locals.distances current.cityId) :
    locals.distances current.cityId < unreachable ∧
      Tracks graph startCity
        (OpenAt current.cityId ((graph.edges current.cityId).map EdgeNode.arc))
        { locals with heap := heap } := by
  obtain ⟨hwf, hcapacity, -, hsearch⟩ := pop_tracks htracks hpop
  obtain ⟨hlt, htake⟩ := hsearch.take hstale
  exact ⟨hlt, hwf, hcapacity, htake⟩

/-- What one turn of the outer loop can do. -/
theorem dijkstraPass_cases (graph : WDG) (hwf : locals.heap.WellFormed)
    (hcapacity : locals.heap.capacity = 20) :
    locals.heap.size = 0 ∧ dijkstraPass graph locals = .ok (.leave locals.distances) ∨
      ∃ current heap, pop locals.heap = .ok (current, heap) ∧
        (current.distance > locals.distances current.cityId ∧
            dijkstraPass graph locals = .ok (.again { locals with heap := heap }) ∨
          ¬ current.distance > locals.distances current.cityId ∧
            dijkstraPass graph locals =
              (relaxEdges current.cityId (graph.edges current.cityId)
                { locals with heap := heap } >>= fun locals => .ok (.again locals))) := by
  have hle := hwf.size_le
  rcases hwf.size_nonneg.eq_or_lt with hzero | hpos
  · exact Or.inl ⟨hzero.symm, if_neg (by omega)⟩
  · -- the heap is small enough for the indices of the children
    obtain ⟨current, heap, hpop⟩ := exists_pop hpos (by omega)
    refine Or.inr ⟨current, heap, hpop, ?_⟩
    rw [dijkstraPass, if_pos hpos, hpop, Outcome.ok_bind]
    by_cases hstale : current.distance > locals.distances current.cityId
    · exact Or.inl ⟨hstale, if_pos hstale⟩
    · exact Or.inr ⟨hstale, if_neg hstale⟩

/-- A pop lowers the variant. -/
theorem variant_pop {current : HeapNode (Fin CITIES)} {heap : MinHeap (Fin CITIES)}
    (htracks : Tracks graph startCity (NoneOpen _) locals)
    (hpop : pop locals.heap = .ok (current, heap)) :
    locals.variant = Locals.variant { locals with heap := heap } + 1 := by
  obtain ⟨-, -, hpending, -⟩ := pop_tracks htracks hpop
  unfold Locals.variant
  rw [hpending, potential_take]

/-- A turn that goes round keeps the search and lowers the variant. -/
theorem dijkstraPass_again (htracks : Tracks graph startCity (NoneOpen _) locals)
    (h : dijkstraPass graph locals = .ok (.again locals')) :
    Tracks graph startCity (NoneOpen _) locals' ∧ locals'.variant < locals.variant := by
  rcases dijkstraPass_cases graph htracks.wellFormed htracks.capacity_eq with
    ⟨-, hleave⟩ | ⟨current, heap, hpop, ⟨hstale, hskip⟩ | ⟨hstale, htake⟩⟩
  · cases hleave.symm.trans h
  · -- a stale entry: only the pop counts
    cases hskip.symm.trans h
    obtain ⟨hwf, hcapacity, -, hsearch⟩ := pop_tracks htracks hpop
    have hvariant := variant_pop htracks hpop
    exact ⟨⟨hwf, hcapacity, hsearch.skip hstale⟩, by omega⟩
  · obtain ⟨locals₁, hrelax, hagain⟩ := Outcome.bind_eq_ok.mp (htake.symm.trans h)
    cases hagain
    have hvariant := variant_pop htracks hpop
    obtain ⟨hcurrent, hopen⟩ := tracks_of_not_stale htracks hpop hstale
    rcases relaxEdges_spec hopen hcurrent fun edge hedge => List.mem_map_of_mem hedge with
      ⟨locals₂, hok, htracks', hle⟩ | hfull | ⟨hover, -⟩
    · cases hok.symm.trans hrelax
      exact ⟨htracks', by omega⟩
    · cases hfull.symm.trans hrelax
    · cases hover.symm.trans hrelax

/-- An empty heap has nothing pending. -/
theorem pending_eq_zero (hzero : locals.heap.size = 0) : locals.pending = 0 := by
  simp [Locals.pending, MinHeap.stored, hzero]

/-- The loop leaves with nothing pending. -/
theorem dijkstraPass_leave {distances : Fin CITIES → ℤ}
    (htracks : Tracks graph startCity (NoneOpen _) locals)
    (h : dijkstraPass graph locals = .ok (.leave distances)) :
    Search graph.arcs startCity unreachable (NoneOpen _) distances 0 := by
  rcases dijkstraPass_cases graph htracks.wellFormed htracks.capacity_eq with
    ⟨hzero, hleave⟩ | ⟨current, heap, -, ⟨-, hskip⟩ | ⟨-, htake⟩⟩
  · cases hleave.symm.trans h
    exact pending_eq_zero hzero ▸ htracks.search
  · cases hskip.symm.trans h
  · obtain ⟨locals₁, -, hagain⟩ := Outcome.bind_eq_ok.mp (htake.symm.trans h)
    cases hagain

/-- A turn stops on a full heap, or on a road so long that adding it to a
distance leaves `int`. It never pops an empty heap. -/
theorem dijkstraPass_stop {e : Stop} (htracks : Tracks graph startCity (NoneOpen _) locals)
    (h : dijkstraPass graph locals = .error e) :
    e = heapFull ∨ e = .overflow ∧ ∃ v, ∃ edge ∈ graph.edges v,
      intMax < unreachable + edge.weight := by
  rcases dijkstraPass_cases graph htracks.wellFormed htracks.capacity_eq with
    ⟨-, hleave⟩ | ⟨current, heap, hpop, ⟨-, hskip⟩ | ⟨hstale, htake⟩⟩
  · cases hleave.symm.trans h
  · cases hskip.symm.trans h
  · obtain ⟨hcurrent, hopen⟩ := tracks_of_not_stale htracks hpop hstale
    rcases relaxEdges_spec hopen hcurrent fun edge hedge => List.mem_map_of_mem hedge with
      ⟨locals', hok, -⟩ | hfull | ⟨hover, arc, harc, hlt⟩
    · rw [htake, hok] at h
      cases h
    · rw [htake, hfull] at h
      cases h
      exact Or.inl rfl
    · rw [htake, hover] at h
      cases h
      obtain ⟨edge, hedge, rfl⟩ := List.mem_map.mp harc
      dsimp only [EdgeNode.arc] at hlt
      exact Or.inr ⟨rfl, current.cityId, edge, hedge, by omega⟩

/-- How the loop of `run_dijkstra` can end, on any map at all. -/
def LoopEnds (graph : WDG) (startCity : Fin CITIES) (outcome : Outcome (Fin CITIES → ℤ)) : Prop :=
  outcome = .error heapFull ∨
    (outcome = .error .overflow ∧ ∃ v, ∃ edge ∈ graph.edges v,
      intMax < unreachable + edge.weight) ∨
    ∃ distances, outcome = .ok distances ∧
      Search graph.arcs startCity unreachable (NoneOpen _) distances 0

theorem dijkstraPass_total (graph : WDG) (startCity : Fin CITIES) :
    TotalRule (dijkstraPass graph) (Tracks graph startCity (NoneOpen _)) Locals.variant
      (LoopEnds graph startCity) where
  again htracks h := dijkstraPass_again htracks h
  leave htracks h := Or.inr (Or.inr ⟨_, rfl, dijkstraPass_leave htracks h⟩)
  stop htracks h := by
    rcases dijkstraPass_stop htracks h with rfl | ⟨rfl, hlong⟩
    · exact Or.inl rfl
    · exact Or.inr (Or.inl ⟨rfl, hlong⟩)

/-- The state in which `run_dijkstra` enters its loop. -/
theorem exists_start (graph : WDG) (startCity : Fin CITIES) :
    ∃ heap, (initMinheap 20 >>= fun heap => push heap startCity 0) = .ok heap ∧ heap.size = 1 ∧
      heap.stored = {⟨startCity, 0⟩} ∧
      Tracks graph startCity (NoneOpen _)
        ⟨Function.update (fun _ => unreachable) startCity 0, heap⟩ := by
  obtain ⟨heap₀, hinit⟩ : ∃ heap₀ : MinHeap (Fin CITIES), initMinheap 20 = .ok heap₀ := ⟨_, rfl⟩
  obtain ⟨hwf₀, hcapacity₀, hsize₀, hstored₀⟩ := MinHeap.init_spec hinit
  rw [hinit, Outcome.ok_bind]
  rcases hpush : push heap₀ startCity 0 with e | heap
  · rcases (push_eq_error_iff hwf₀).mp hpush with ⟨-, hfull, -⟩ | ⟨hmax, -⟩
    · omega
    · unfold intMax at hmax
      omega
  · obtain ⟨hwf, hcapacity, hsize, hstored⟩ := push_spec hwf₀ hpush
    rw [hstored₀] at hstored
    refine ⟨heap, rfl, by omega, hstored, hwf, hcapacity.trans hcapacity₀, ?_⟩
    have hpending : Locals.pending ⟨Function.update (fun _ => unreachable) startCity 0, heap⟩ =
        {(startCity, 0)} := by
      simp [Locals.pending, hstored, HeapNode.pair]
    rw [hpending]
    exact Search.init (by decide)

theorem runDijkstra_eq {heap : MinHeap (Fin CITIES)} {fuel : ℕ}
    (hpush : (initMinheap 20 >>= fun heap => push heap startCity 0) = .ok heap) :
    runDijkstra fuel graph startCity =
      loop (dijkstraPass graph) fuel ⟨Function.update (fun _ => unreachable) startCity 0, heap⟩ >>=
        fun distances => .ok (distances, report graph distances) := by
  unfold runDijkstra
  dsimp only
  rw [← bind_assoc, hpush, Outcome.ok_bind]

/-- More turns do not change what a run returns. -/
theorem runDijkstra_mono {fuel fuel' : ℕ} {result : (Fin CITIES → ℤ) × List ReportLine}
    (h : runDijkstra fuel graph startCity = .ok result) (hle : fuel ≤ fuel') :
    runDijkstra fuel' graph startCity = .ok result := by
  obtain ⟨heap, hpush, -⟩ := exists_start graph startCity
  rw [runDijkstra_eq hpush] at h ⊢
  obtain ⟨distances, hloop, hreport⟩ := Outcome.bind_eq_ok.mp h
  obtain ⟨k, hk, hleaves⟩ := loop_eq_ok_iff.mp hloop
  rw [loop_eq_ok_iff.mpr ⟨k, hk.trans_le hle, hleaves⟩]
  exact hreport

/-- **The loop always ends.** On every map there is a number of turns after
which `run_dijkstra` is decided, in one of the ways of `LoopEnds`. -/
theorem runDijkstra_ends (graph : WDG) (startCity : Fin CITIES) :
    ∃ turns, ∀ fuel ≥ turns, ∃ outcome, LoopEnds graph startCity outcome ∧
      runDijkstra fuel graph startCity =
        outcome.map fun distances => (distances, report graph distances) := by
  obtain ⟨heap, hpush, -, -, htracks⟩ := exists_start graph startCity
  refine ⟨Locals.variant ⟨_, heap⟩ + 1, fun fuel hfuel => ⟨_,
    (dijkstraPass_total graph startCity).loop htracks hfuel, ?_⟩⟩
  rw [runDijkstra_eq hpush]
  rcases loop (dijkstraPass graph) fuel _ with e | distances <;> rfl

/-- **Dijkstra is exact.** On every map made by accepted calls of `add_route`
whose lengths sum to less than the sentinel, and from every city, the loop
ends; unless the heap overflowed, every distance is the length of a shortest
path, and the sentinel stands exactly at the cities without one. -/
theorem runDijkstra_exact (calls : List RouteCall) (graph : WDG)
    (hgraph : addRoutes calls (initWdg initCities) = .ok graph)
    (hsum : (calls.map RouteCall.km).sum < unreachable) (startCity : Fin CITIES) :
    ∃ turns, ∀ fuel ≥ turns,
      runDijkstra fuel graph startCity = .error heapFull ∨
      ∃ distances lines, runDijkstra fuel graph startCity = .ok (distances, lines) ∧
        distances startCity = 0 ∧
        ∀ v, (distances v = unreachable ↔ ¬ ∃ W, Path graph.arcs startCity v W) ∧
          ((∃ W, Path graph.arcs startCity v W) →
            IsLeast {W | Path graph.arcs startCity v W} (distances v)) := by
  have htotal : graph.totalWeight < unreachable := by
    rw [totalWeight_addRoutes hgraph, totalWeight_initWdg, add_zero]
    exact hsum
  obtain ⟨turns, hends⟩ := runDijkstra_ends graph startCity
  refine ⟨turns, fun fuel hfuel => ?_⟩
  obtain ⟨outcome, hout, hrun⟩ := hends fuel hfuel
  rcases hout with rfl | ⟨rfl, v, edge, hedge, hlong⟩ | ⟨distances, rfl, hsearch⟩
  · exact Or.inl hrun
  · -- no single road is longer than all together, so no sum leaves `int`
    have hedge' : (edge.destination, edge.weight) ∈ graph.arcs v := List.mem_map_of_mem hedge
    have hle : edge.weight ≤ graph.totalWeight :=
      (le_outWeight graph.arcs_nonneg hedge').trans
        (Finset.single_le_sum (fun u _ => outWeight_nonneg graph.arcs_nonneg u) (Finset.mem_univ v))
    unfold intMax unreachable at *
    omega
  · exact Or.inr ⟨distances, report graph distances, hrun, hsearch.source,
      hsearch.isLeast_of_total_lt graph.arcs_nonneg htotal⟩

/-- The calls of `add_route` in `main`. -/
def mainRoutes : List RouteCall :=
  [⟨"Málaga", "Granada", 125⟩, ⟨"Málaga", "Córdoba", 160⟩, ⟨"Granada", "Jaén", 90⟩,
    ⟨"Córdoba", "Sevilla", 140⟩]

/-- The map of `main`, searched from Málaga. -/
theorem runDijkstra_exact_main : ∃ graph, addRoutes mainRoutes (initWdg initCities) = .ok graph ∧
    ∃ turns, ∀ fuel ≥ turns, ∃ distances lines,
      runDijkstra fuel graph 0 = .ok (distances, lines) ∧
        List.ofFn distances = [0, 300, 125, 160, unreachable, 215] ∧
        ∀ v, (distances v = unreachable ↔ ¬ ∃ W, Path graph.arcs 0 v W) ∧
          ((∃ W, Path graph.arcs 0 v W) →
            IsLeast {W | Path graph.arcs 0 v W} (distances v)) := by
  obtain ⟨graph, hgraph, hrun⟩ : ∃ graph, addRoutes mainRoutes (initWdg initCities) = .ok graph ∧
      (runDijkstra 6 graph 0).map (fun result => List.ofFn result.1) =
        .ok [0, 300, 125, 160, unreachable, 215] := ⟨_, rfl, by decide +kernel⟩
  obtain ⟨turns, hends⟩ := runDijkstra_exact mainRoutes graph hgraph (by decide) 0
  refine ⟨graph, hgraph, max turns 6, fun fuel hfuel => ?_⟩
  rcases hok : runDijkstra 6 graph 0 with e | ⟨distances, lines⟩
  · rw [hok] at hrun
    cases hrun
  · rw [hok] at hrun
    have hdistances := Except.ok.inj hrun
    have hsame := runDijkstra_mono hok (le_of_max_le_right hfuel)
    rcases hends fuel (le_of_max_le_left hfuel) with hfull | ⟨distances', lines', hok', -, hexact⟩
    · cases hfull.symm.trans hsame
    · cases hok'.symm.trans hsame
      exact ⟨distances, lines, hsame, hdistances, hexact⟩

end BareMetal.Dijkstra
