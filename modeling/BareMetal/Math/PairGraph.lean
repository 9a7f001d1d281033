import BareMetal.Math.Forest
import Mathlib.Combinatorics.SimpleGraph.Acyclic

/-!
# Multigraphs as lists of pairs

A list of pairs is an undirected multigraph: it may join an element to itself, and it may
join two elements more than once. Apart from that its cycles are those of the simple graph
of the pairs.

A multigraph without cycles can be told one pair at a time: a pair closes a cycle exactly
when its elements were connected before.

## Main results

* `isForest_concat` — when one more pair keeps a multigraph without cycles
-/

namespace Math.PairGraph

variable {α : Type*} {pairs : List (α × α)} {a b : α}

/-- The simple graph of the pairs. -/
def graph (pairs : List (α × α)) : SimpleGraph α := SimpleGraph.fromRel fun x y => (x, y) ∈ pairs

/-- The undirected edges, each as often as it occurs. -/
def edges (pairs : List (α × α)) : List (Sym2 α) := pairs.map fun p => s(p.1, p.2)

/-- The multigraph of the pairs has no cycle: no pair joins an element to itself, no two
pairs join the same elements, and there is no longer cycle. -/
structure IsForest (pairs : List (α × α)) : Prop where
  no_self : ∀ p ∈ pairs, p.1 ≠ p.2
  no_repeat : (edges pairs).Nodup
  isAcyclic : (graph pairs).IsAcyclic

theorem edges_concat (pairs : List (α × α)) (a b : α) :
    edges (pairs ++ [(a, b)]) = (edges pairs).concat s(a, b) := by
  simp [edges]

theorem mem_edges : s(a, b) ∈ edges pairs ↔ (a, b) ∈ pairs ∨ (b, a) ∈ pairs := by
  simp only [edges, List.mem_map, Prod.exists, Sym2.eq_iff]
  constructor
  · rintro ⟨x, y, hmem, ⟨rfl, rfl⟩ | ⟨rfl, rfl⟩⟩
    · exact Or.inl hmem
    · exact Or.inr hmem
  · rintro (hmem | hmem)
    · exact ⟨a, b, hmem, Or.inl ⟨rfl, rfl⟩⟩
    · exact ⟨b, a, hmem, Or.inr ⟨rfl, rfl⟩⟩

theorem adj_iff : (graph pairs).Adj a b ↔ a ≠ b ∧ s(a, b) ∈ edges pairs := by
  rw [mem_edges]
  exact SimpleGraph.fromRel_adj _ a b

/-- One more pair is one more edge. -/
theorem graph_concat (pairs : List (α × α)) (a b : α) :
    graph (pairs ++ [(a, b)]) = graph pairs ⊔ SimpleGraph.edge a b := by
  ext x y
  rw [SimpleGraph.sup_adj, adj_iff, adj_iff, SimpleGraph.edge_adj, edges_concat,
    List.concat_eq_append, List.mem_append, List.mem_singleton, Sym2.eq_iff]
  tauto

theorem isForest_nil : IsForest ([] : List (α × α)) where
  no_self _ hp := absurd hp List.not_mem_nil
  no_repeat := List.nodup_nil
  isAcyclic := by
    have hbot : graph ([] : List (α × α)) = ⊥ := by
      ext x y
      simp [adj_iff, edges]
    rw [hbot]
    exact SimpleGraph.isAcyclic_bot

/-- One more pair closes a cycle exactly when it joins elements that are connected already. -/
theorem isForest_concat :
    IsForest (pairs ++ [(a, b)]) ↔ IsForest pairs ∧ ¬ (graph pairs).Reachable a b := by
  constructor
  · intro h
    have hself : a ≠ b := h.no_self (a, b) (List.mem_append_right _ (List.mem_singleton_self _))
    have hrepeat := h.no_repeat
    rw [edges_concat, List.nodup_concat] at hrepeat
    have hacyclic := h.isAcyclic
    rw [graph_concat, SimpleGraph.isAcyclic_sup_fromEdgeSet_iff] at hacyclic
    refine ⟨⟨fun p hp => h.no_self p (List.mem_append_left _ hp), hrepeat.2, hacyclic.1⟩,
      fun hreach => ?_⟩
    -- on a way that is there already the new edge would close a cycle
    rcases hacyclic.2 hreach with heq | hadj
    · exact hself heq
    · exact hrepeat.1 (adj_iff.mp hadj).2
  · rintro ⟨h, hreach⟩
    have hself : a ≠ b := by
      rintro rfl
      exact hreach (SimpleGraph.Reachable.refl a)
    have hnew : s(a, b) ∉ edges pairs := fun hmem =>
      hreach (adj_iff.mpr ⟨hself, hmem⟩).reachable
    constructor
    · intro p hp
      rcases List.mem_append.mp hp with hold | hlast
      · exact h.no_self p hold
      · cases List.mem_singleton.mp hlast
        exact hself
    · rw [edges_concat, List.nodup_concat]
      exact ⟨hnew, h.no_repeat⟩
    · rw [graph_concat]
      exact h.isAcyclic.sup_edge_of_not_reachable hreach

end Math.PairGraph
