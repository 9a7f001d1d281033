import Mathlib.Data.List.Nodup
import Mathlib.Logic.Relation

/-!
# Cycles and finishing orders

`ReachesCycle r a` says that some cycle of `r` can be reached from `a`. A
depth-first search finishes an element once all its successors are finished;
`Finished` is the invariant of the list of finished elements, in the order in
which they were finished. It needs no colours: the list alone carries what is
known about the explored part.

## Main results

* `reachesCycle_iff` — a cycle is reached exactly through a successor
* `Finished.append` — finishing one more element
* `Finished.idxOf_lt` — successors come first
-/

namespace Math.CycleSearch

open Relation

variable {α : Type*} {r : α → α → Prop} {a b c : α} {order : List α}

/-- Some cycle of `r` can be reached from `a`. -/
def ReachesCycle (r : α → α → Prop) (a : α) : Prop :=
  ∃ c, ReflTransGen r a c ∧ TransGen r c c

theorem reachesCycle_of_transGen_self (h : TransGen r a a) : ReachesCycle r a := ⟨a, .refl, h⟩

theorem ReachesCycle.of_reflTransGen (hab : ReflTransGen r a b) (h : ReachesCycle r b) :
    ReachesCycle r a := by
  obtain ⟨c, hbc, hcycle⟩ := h
  exact ⟨c, hab.trans hbc, hcycle⟩

/-- A cycle is reached exactly through a successor. -/
theorem reachesCycle_iff : ReachesCycle r a ↔ ∃ b, r a b ∧ ReachesCycle r b := by
  constructor
  · rintro ⟨c, hac, hcycle⟩
    rcases hac.cases_head with rfl | ⟨b, hab, hbc⟩
    · obtain ⟨b, hab, hba⟩ := TransGen.head'_iff.mp hcycle
      exact ⟨b, hab, a, hba, hcycle⟩
    · exact ⟨b, hab, c, hbc, hcycle⟩
  · rintro ⟨b, hab, h⟩
    exact h.of_reflTransGen (.single hab)

/-- The finished elements, earliest first: each once, with all their
successors, none reaching a cycle, and none having an earlier element depend on
it. -/
structure Finished (r : α → α → Prop) (order : List α) : Prop where
  nodup : order.Nodup
  closed : ∀ a ∈ order, ∀ b, r a b → b ∈ order
  clean : ∀ a ∈ order, ¬ ReachesCycle r a
  sorted : order.Pairwise fun a b => ¬ r a b

theorem finished_nil (r : α → α → Prop) : Finished r [] where
  nodup := List.nodup_nil
  closed _ ha := absurd ha List.not_mem_nil
  clean _ ha := absurd ha List.not_mem_nil
  sorted := List.Pairwise.nil

/-- An element whose successors are all finished reaches no cycle. -/
theorem Finished.not_reachesCycle (h : Finished r order) (hsucc : ∀ b, r a b → b ∈ order) :
    ¬ ReachesCycle r a := by
  intro hcycle
  obtain ⟨b, hab, hb⟩ := reachesCycle_iff.mp hcycle
  exact h.clean b (hsucc b hab) hb

/-- An element whose successors are all finished can be finished next. -/
theorem Finished.append (h : Finished r order) (ha : a ∉ order)
    (hsucc : ∀ b, r a b → b ∈ order) : Finished r (order ++ [a]) where
  nodup := by
    rw [List.nodup_append]
    refine ⟨h.nodup, List.nodup_singleton a, fun b hb c hc hbc => ha ?_⟩
    rw [← List.mem_singleton.mp hc, ← hbc]
    exact hb
  closed b hb c hbc := by
    rcases List.mem_append.mp hb with hb | hb
    · exact List.mem_append_left _ (h.closed b hb c hbc)
    · obtain rfl := List.mem_singleton.mp hb
      exact List.mem_append_left _ (hsucc c hbc)
  clean b hb := by
    rcases List.mem_append.mp hb with hb | hb
    · exact h.clean b hb
    · obtain rfl := List.mem_singleton.mp hb
      exact h.not_reachesCycle hsucc
  sorted := by
    rw [List.pairwise_append]
    refine ⟨h.sorted, List.pairwise_singleton _ _, fun b hb c hc hbc => ha ?_⟩
    obtain rfl := List.mem_singleton.mp hc
    exact h.closed b hb c hbc

/-- Successors come first. -/
theorem Finished.idxOf_lt [DecidableEq α] (h : Finished r order) (hab : r a b) (ha : a ∈ order) :
    order.idxOf b < order.idxOf a := by
  have hb := h.closed a ha b hab
  have hia := List.idxOf_lt_length_of_mem ha
  have hib := List.idxOf_lt_length_of_mem hb
  by_contra hle
  rcases Nat.lt_or_eq_of_le (Nat.not_lt.mp hle) with hlt | heq
  · have := List.pairwise_iff_getElem.mp h.sorted _ _ hia hib hlt
    rw [List.getElem_idxOf, List.getElem_idxOf] at this
    exact this hab
  · obtain rfl := (List.idxOf_inj ha).mp heq
    exact h.clean a ha (reachesCycle_of_transGen_self (.single hab))

end Math.CycleSearch
