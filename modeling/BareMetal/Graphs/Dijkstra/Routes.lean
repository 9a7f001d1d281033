import BareMetal.CS.Outcome
import BareMetal.Math.WeightedPath
import Mathlib.Data.List.FinRange

/-!
# The road map of `Dijkstra.c`

Cities are the six entries of a fixed table; a route is accepted only between
two distinct cities of the table and with a positive length. Both checks are
fields here (`Route.ne`, `EdgeNode.weight_pos`), so a map that breaks them
cannot be built.

## Main results

* `addRoute_spec` — an accepted call adds one arc, and only that
* `totalWeight_addRoutes` — the roads of a map weigh what the calls added
-/

namespace BareMetal.Dijkstra

open CS Math.WeightedPath

/-- The number of cities. -/
abbrev CITIES : ℕ := 6

/-- A road out of a city, as kept in the adjacency lists. -/
structure EdgeNode where
  destination : Fin CITIES
  weight : ℤ
  weight_pos : 0 < weight
  deriving DecidableEq, Repr

/-- The weighted directed graph: the city names and one list of roads for each
city. -/
structure WDG where
  cities : Fin CITIES → String
  edges : Fin CITIES → List EdgeNode

/-- The two ends `validate_route` finds for a pair of names. -/
structure Route where
  starting : Fin CITIES
  destination : Fin CITIES
  ne : starting ≠ destination

/-- The table of `init_cities`. -/
def initCities : Fin CITIES → String :=
  ![ "Málaga", "Sevilla", "Granada", "Córdoba", "Almería", "Jaén"]

/-- `init_wdg`. -/
def initWdg (cities : Fin CITIES → String) : WDG where
  cities := cities
  edges := fun _ => []

/-- The loop of `validate_route` for one name: the last match stays. -/
def findCity (cities : Fin CITIES → String) (name : String) : Option (Fin CITIES) :=
  (List.finRange CITIES).foldl (fun found i => if name = cities i then some i else found) none

/-- The exit of `validate_route`. -/
def invalidRoute : Stop :=
  .exit 1 "Invalid route, please check starting and destination city\n"

/-- `validate_route`. -/
def validateRoute (graph : WDG) (startingCity destinationCity : String) : Outcome Route :=
  match findCity graph.cities startingCity, findCity graph.cities destinationCity with
  | some starting, some destination =>
    if h : starting = destination then .error invalidRoute
    else .ok ⟨starting, destination, h⟩
  | _, _ => .error invalidRoute

/-- The exit of `add_route` on a length that is not positive. -/
def invalidDistance : Stop :=
  .exit 1 "Invalid value: The distance cannot be smaller or equal to 0\n"

/-- `add_route`: the new road becomes the head of its city's list. -/
def addRoute (graph : WDG) (startingCity destinationCity : String) (km : ℤ) : Outcome WDG :=
  if h : km ≤ 0 then .error invalidDistance
  else do
    let route ← validateRoute graph startingCity destinationCity
    -- a repeated route is a second entry of the list
    let newRoute : EdgeNode := ⟨route.destination, km, not_le.mp h⟩
    let edges := Function.update graph.edges route.starting
      (newRoute :: graph.edges route.starting)
    .ok { graph with edges := edges }

/-- The arguments of one call of `add_route`. -/
structure RouteCall where
  startingCity : String
  destinationCity : String
  km : ℤ

/-- Calls of `add_route` one after the other, none of which may exit. -/
def addRoutes : List RouteCall → WDG → Outcome WDG
  | [], graph => .ok graph
  | call :: calls, graph => do
    let graph ← addRoute graph call.startingCity call.destinationCity call.km
    addRoutes calls graph

/-! ### The map as a weighted multigraph -/

/-- A road as an arc. -/
def EdgeNode.arc (edge : EdgeNode) : Fin CITIES × ℤ := (edge.destination, edge.weight)

/-- The arcs out of each city. -/
def WDG.arcs (graph : WDG) (v : Fin CITIES) : List (Fin CITIES × ℤ) :=
  (graph.edges v).map EdgeNode.arc

theorem WDG.arcs_nonneg (graph : WDG) : Nonneg graph.arcs := by
  intro v a ha
  obtain ⟨edge, -, rfl⟩ := List.mem_map.mp ha
  exact edge.weight_pos.le

theorem addRoute_spec {graph graph' : WDG} {startingCity destinationCity : String} {km : ℤ}
    (h : addRoute graph startingCity destinationCity km = .ok graph') :
    ∃ starting edge, edge.weight = km ∧ edge.destination ≠ starting ∧
      graph' = { graph with
        edges := Function.update graph.edges starting (edge :: graph.edges starting) } := by
  unfold addRoute at h
  split_ifs at h with hkm
  obtain ⟨route, -, h⟩ := Outcome.bind_eq_ok.mp h
  obtain rfl := Except.ok.inj h
  exact ⟨route.starting, ⟨route.destination, km, not_le.mp hkm⟩, rfl, route.ne.symm, rfl⟩

/-- The length of all roads together. -/
def WDG.totalWeight (graph : WDG) : ℤ := ∑ v, outWeight graph.arcs v

theorem totalWeight_initWdg (cities : Fin CITIES → String) :
    (initWdg cities).totalWeight = 0 :=
  Finset.sum_eq_zero fun _ _ => rfl

theorem totalWeight_addRoute {graph graph' : WDG} {startingCity destinationCity : String} {km : ℤ}
    (h : addRoute graph startingCity destinationCity km = .ok graph') :
    graph'.totalWeight = km + graph.totalWeight := by
  obtain ⟨starting, edge, rfl, -, rfl⟩ := addRoute_spec h
  have hsum : ∀ g : WDG, g.totalWeight =
      outWeight g.arcs starting + ∑ v ∈ Finset.univ.erase starting, outWeight g.arcs v :=
    fun g => (Finset.add_sum_erase _ _ (Finset.mem_univ starting)).symm
  rw [hsum, hsum graph, ← add_assoc]
  congr 1
  · simp [outWeight, WDG.arcs, EdgeNode.arc]
  · refine Finset.sum_congr rfl fun v hv => ?_
    simp [outWeight, WDG.arcs, Function.update_of_ne (Finset.ne_of_mem_erase hv)]

/-- The roads of a map weigh what the calls added. -/
theorem totalWeight_addRoutes {calls : List RouteCall} {graph graph' : WDG}
    (h : addRoutes calls graph = .ok graph') :
    graph'.totalWeight = (calls.map RouteCall.km).sum + graph.totalWeight := by
  induction calls generalizing graph with
  | nil =>
    obtain rfl := Except.ok.inj h
    simp
  | cons call calls ih =>
    obtain ⟨graph₁, hcall, hrest⟩ := Outcome.bind_eq_ok.mp h
    rw [ih hrest, totalWeight_addRoute hcall, List.map_cons, List.sum_cons]
    omega

end BareMetal.Dijkstra
