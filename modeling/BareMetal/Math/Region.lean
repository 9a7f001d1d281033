import Mathlib.Data.Set.Card
import Mathlib.Logic.Relation

/-!
# The region that a search explores

A depth-first search that has seen the elements of `W` and is sent to those of `S`
explores `region r W S`: what can be reached from `S` without touching `W`. What the
search marks on the way cuts off later parts of the search, but nothing that was not
found before: the region of a union is explored one part after the other.

## Main results

* `region_singleton` — an element that has not been seen is found, and the rest is the
  region of its successors
* `union_region_union` — searching in two parts, the second of which has seen what the first
  has found
* `region_empty`, `region_eq_reachable_iff` — without seen elements in its way the search finds
  all that can be reached, and otherwise it does not
-/

namespace Math

open Relation

variable {α : Type*} {r : α → α → Prop} {W S T : Set α} {a b c : α}

/-- What can be reached from `S` without touching `W`. -/
def region (r : α → α → Prop) (W S : Set α) : Set α :=
  {b | ∃ a ∈ S, a ∉ W ∧ ReflTransGen (fun x y => r x y ∧ y ∉ W) a b}

theorem mem_region_of_mem (ha : a ∈ S) (hW : a ∉ W) : a ∈ region r W S := ⟨a, ha, hW, .refl⟩

theorem mem_region_of_step (hb : b ∈ region r W S) (hstep : r b c) (hc : c ∉ W) :
    c ∈ region r W S := by
  obtain ⟨a, ha, hW, hab⟩ := hb
  exact ⟨a, ha, hW, hab.tail ⟨hstep, hc⟩⟩

/-- To show that a region is part of a set, follow its paths. -/
theorem region_subset {R : Set α} (hS : ∀ a ∈ S, a ∉ W → a ∈ R)
    (hstep : ∀ b ∈ R, ∀ c, r b c → c ∉ W → c ∈ R) : region r W S ⊆ R := by
  rintro b ⟨a, ha, hW, hab⟩
  induction hab with
  | refl => exact hS a ha hW
  | tail _ hbc ih => exact hstep _ ih _ hbc.1 hbc.2

/-- The search does not touch what it has seen. -/
theorem notMem_of_mem_region (h : b ∈ region r W S) : b ∉ W :=
  region_subset (R := {b | b ∉ W}) (fun _ _ hW => hW) (fun _ _ _ _ hc => hc) h

theorem region_mono (h : S ⊆ T) : region r W S ⊆ region r W T :=
  region_subset (fun _ ha hW => mem_region_of_mem (h ha) hW)
    fun _ hb _ hstep hc => mem_region_of_step hb hstep hc

/-- Nothing is found from what has been seen. -/
theorem region_eq_empty (h : S ⊆ W) : region r W S = ∅ := by
  rw [← Set.subset_empty_iff]
  exact region_subset (fun a ha hW => absurd (h ha) hW) fun _ hb => absurd hb (Set.notMem_empty _)

/-- The second part of a search does not find what the first has found, and nothing else is
lost to it. -/
theorem union_region_union (r : α → α → Prop) (W S T : Set α) :
    region r W S ∪ region r (W ∪ region r W S) T = region r W (S ∪ T) := by
  apply Set.Subset.antisymm
  · refine Set.union_subset (region_mono Set.subset_union_left) ?_
    refine region_subset (fun a ha hW => ?_) fun b hb c hstep hc => ?_
    · exact mem_region_of_mem (Or.inr ha) fun h => hW (Or.inl h)
    · exact mem_region_of_step hb hstep fun h => hc (Or.inl h)
  · refine region_subset (fun a ha hW => ?_) fun b hb c hstep hc => ?_
    · -- the first search may have come to `a` already
      by_cases hfound : a ∈ region r W S
      · exact Or.inl hfound
      · rcases ha with ha | ha
        · exact Or.inl (mem_region_of_mem ha hW)
        · exact Or.inr (mem_region_of_mem ha fun h => h.elim hW hfound)
    · by_cases hfound : c ∈ region r W S
      · exact Or.inl hfound
      · rcases hb with hb | hb
        · exact Or.inl (mem_region_of_step hb hstep hc)
        · exact Or.inr (mem_region_of_step hb hstep fun h => h.elim hc hfound)

/-- An element that has not been seen is found and marked, and then its successors are
searched. -/
theorem region_singleton (ha : a ∉ W) :
    region r W {a} = {a} ∪ region r (W ∪ {a}) {b | r a b} := by
  apply Set.Subset.antisymm
  · refine region_subset (fun b hb _ => Or.inl hb) fun b hb c hstep hc => ?_
    by_cases hca : c = a
    · exact Or.inl hca
    · have hc' : c ∉ W ∪ {a} := fun h => h.elim hc hca
      rcases hb with rfl | hb
      · exact Or.inr (mem_region_of_mem hstep hc')
      · exact Or.inr (mem_region_of_step hb hstep hc')
  · have hself : a ∈ region r W {a} := mem_region_of_mem rfl ha
    refine Set.union_subset (Set.singleton_subset_iff.mpr hself) ?_
    refine region_subset (fun b hb hW => ?_) fun b hb c hstep hc => ?_
    · exact mem_region_of_step hself hb fun h => hW (Or.inl h)
    · exact mem_region_of_step hb hstep fun h => hc (Or.inl h)

/-- A search that goes on has seen more, so that the depth of a recursion is bounded. -/
theorem ncard_compl_lt [Finite α] (hsub : W ⊆ S) (hW : a ∉ W) (hS : a ∈ S) :
    Set.ncard Sᶜ < Set.ncard Wᶜ :=
  Set.ncard_lt_ncard ⟨Set.compl_subset_compl.mpr hsub, fun h => h hW hS⟩ (Set.toFinite _)

/-! ### All that can be reached -/

theorem reachable_of_mem_region (h : b ∈ region r W {a}) : ReflTransGen r a b := by
  obtain ⟨a, rfl, -, hab⟩ := h
  exact ReflTransGen.mono (fun _ _ hstep => hstep.1) _ _ hab

/-- A search finds all that can be reached exactly when it has seen nothing of it before. -/
theorem region_eq_reachable_iff :
    region r W {a} = {b | ReflTransGen r a b} ↔ ∀ b, ReflTransGen r a b → b ∉ W := by
  constructor
  · intro heq b hb
    exact notMem_of_mem_region (heq ▸ hb : b ∈ region r W {a})
  · intro hclear
    refine Set.Subset.antisymm (fun b hb => reachable_of_mem_region hb) fun b hb => ?_
    induction hb with
    | refl => exact mem_region_of_mem rfl (hclear a .refl)
    | tail hab hbc ih => exact mem_region_of_step ih hbc (hclear _ (hab.tail hbc))

theorem region_empty (r : α → α → Prop) (a : α) :
    region r ∅ {a} = {b | ReflTransGen r a b} :=
  region_eq_reachable_iff.mpr fun b _ => Set.notMem_empty b

end Math
