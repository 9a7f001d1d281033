import Mathlib.Combinatorics.SimpleGraph.Connectivity.Connected
import Mathlib.Data.Fintype.Card
import Mathlib.SetTheory.Cardinal.Finite
import Mathlib.Tactic.Linarith

/-!
# Forests of parent pointers, united by size

Every element either points at its parent or is a root. A `SizedForest` bundles
parent pointers that always lead to a root with the size of each tree, and with
the bound that makes union by size worthwhile: a tree in which some element is
`k` steps away from the root has at least `2 ^ k` elements.

Linking the root of a tree under the root of a tree at least as large is the
only operation. `Closes` relates a forest to the equivalence closure of a
relation, and `Closes.link` shows how linking extends it.

## Main results

* `Climb.unique` — every element has one root and one depth
* `SizedForest.link`, `SizedForest.root_link` — linking two roots
* `SizedForest.steps_lt_card` — an element is fewer steps from its root than
  there are elements
* `Closes.skip`, `Closes.link` — trees follow the closure of the united pairs
* `Closes.card_roots` — there are as many roots as connected components
-/

namespace Math.Forest

variable {α : Type*} {parent : α → Option α} {a b c r s : α} {k : ℕ}

/-- `Climb parent k a r`: from `a`, `k` steps to the parent lead to the root `r`. -/
inductive Climb (parent : α → Option α) : ℕ → α → α → Prop
  | root {r : α} (h : parent r = none) : Climb parent 0 r r
  | step {k : ℕ} {a b r : α} (h : parent a = some b) (rest : Climb parent k b r) :
      Climb parent (k + 1) a r

theorem Climb.isRoot (h : Climb parent k a r) : parent r = none := by
  induction h with
  | root h => exact h
  | step _ _ ih => exact ih

/-- Climbing is deterministic. -/
theorem Climb.unique {k' : ℕ} (h : Climb parent k a r) (h' : Climb parent k' a s) :
    k = k' ∧ r = s := by
  induction h generalizing k' with
  | root hroot =>
    cases h' with
    | root => exact ⟨rfl, rfl⟩
    | step hstep => rw [hroot] at hstep; cases hstep
  | step hstep _ ih =>
    cases h' with
    | root hroot => rw [hroot] at hstep; cases hstep
    | step hstep' rest' =>
      obtain rfl := Option.some_inj.mp (hstep.symm.trans hstep')
      obtain ⟨rfl, rfl⟩ := ih rest'
      exact ⟨rfl, rfl⟩

section Link

variable [DecidableEq α]

/-- Climbs that end elsewhere are untouched when `c` is linked under `r`. -/
theorem Climb.link_of_ne (hc : parent c = none) (h : Climb parent k a s) (hs : s ≠ c) :
    Climb (Function.update parent c (some r)) k a s := by
  induction h with
  | root h => exact .root ((Function.update_of_ne hs _ _).trans h)
  | @step k a b s hstep _ ih =>
    have hac : a ≠ c := by
      rintro rfl
      rw [hc] at hstep
      cases hstep
    exact .step ((Function.update_of_ne hac _ _).trans hstep) (ih hs)

/-- Climbs that ended in `c` take one more step when `c` is linked under `r`. -/
theorem Climb.link_of_eq (hc : parent c = none) (hr : parent r = none) (hne : r ≠ c)
    (h : Climb parent k a c) : Climb (Function.update parent c (some r)) (k + 1) a r := by
  generalize hs : c = s at h
  induction h with
  | root =>
    subst hs
    exact .step (Function.update_self ..) (.root ((Function.update_of_ne hne _ _).trans hr))
  | @step k a b s hstep _ ih =>
    subst hs
    have hac : a ≠ c := by
      rintro rfl
      rw [hc] at hstep
      cases hstep
    exact .step ((Function.update_of_ne hac _ _).trans hstep) (ih rfl)

end Link

/-! ### Sized forests -/

/-- Parent pointers that always reach a root, with the size of every tree kept
at its root and trees no deeper than their sizes allow. -/
structure SizedForest (α : Type*) where
  parent : α → Option α
  /-- The number of elements of the tree; only roots keep it up to date. -/
  size : α → ℕ
  rooted : ∀ a, ∃ r k, Climb parent k a r
  size_eq : ∀ r, parent r = none → size r = Nat.card {a // ∃ k, Climb parent k a r}
  two_pow_le : ∀ {k a r}, Climb parent k a r → 2 ^ k ≤ size r

namespace SizedForest

variable (F : SizedForest α)

/-- The root of the tree of `a`. -/
noncomputable def root (a : α) : α := (F.rooted a).choose

theorem exists_climb_root (a : α) : ∃ k, Climb F.parent k a (F.root a) := (F.rooted a).choose_spec

theorem root_eq_iff : F.root a = r ↔ ∃ k, Climb F.parent k a r := by
  constructor
  · rintro rfl
    exact F.exists_climb_root a
  · rintro ⟨k, hclimb⟩
    obtain ⟨k', hclimb'⟩ := F.exists_climb_root a
    exact (hclimb'.unique hclimb).2

theorem isRoot_root (a : α) : F.parent (F.root a) = none :=
  (F.exists_climb_root a).choose_spec.isRoot

theorem root_eq_self (hr : F.parent r = none) : F.root r = r :=
  F.root_eq_iff.mpr ⟨0, .root hr⟩

/-- The size kept at a root is the number of elements it is the root of. -/
theorem size_eq_card (hr : F.parent r = none) : F.size r = Nat.card {a // F.root a = r} := by
  rw [F.size_eq r hr]
  simp only [root_eq_iff]

theorem size_pos (hr : F.parent r = none) : 0 < F.size r := F.two_pow_le (Climb.root hr)

/-- Every element a tree of its own. -/
def discrete (α : Type*) : SizedForest α where
  parent := fun _ => none
  size := fun _ => 1
  rooted a := ⟨a, 0, .root rfl⟩
  size_eq r _ := by
    have hself : ∀ a, (∃ k, Climb (fun _ => none) k a r) ↔ a = r := by
      intro a
      constructor
      · rintro ⟨k, hclimb⟩
        cases hclimb with
        | root => rfl
        | step h => cases h
      · rintro rfl
        exact ⟨0, .root rfl⟩
    simp only [hself, Nat.card_unique]
  two_pow_le h := by
    cases h with
    | root => exact le_rfl
    | step h => cases h

@[simp] theorem root_discrete (a : α) : (discrete α).root a = a :=
  (discrete α).root_eq_self rfl

section Finite

variable [Fintype α]

theorem size_le_card (hr : F.parent r = none) : F.size r ≤ Fintype.card α := by
  rw [F.size_eq_card hr, ← Nat.card_eq_fintype_card]
  exact Nat.card_le_card_of_injective Subtype.val Subtype.val_injective

/-- An element is fewer steps from its root than there are elements. -/
theorem steps_lt_card (h : Climb F.parent k a r) : k < Fintype.card α :=
  Nat.lt_two_pow_self.trans_le ((F.two_pow_le h).trans (F.size_le_card h.isRoot))

end Finite

section Link

variable [DecidableEq α]

theorem exists_climb_link (hc : F.parent c = none) (hr : F.parent r = none) (hne : r ≠ c) (a : α) :
    (F.root a = c ∧ ∃ k, Climb F.parent k a c ∧
        Climb (Function.update F.parent c (some r)) (k + 1) a r) ∨
      (F.root a ≠ c ∧ ∃ k, Climb F.parent k a (F.root a) ∧
        Climb (Function.update F.parent c (some r)) k a (F.root a)) := by
  obtain ⟨k, hclimb⟩ := F.exists_climb_root a
  by_cases hac : F.root a = c
  · -- the old climb ended in `c` and goes on for one step
    rw [hac] at hclimb
    exact Or.inl ⟨hac, k, hclimb, hclimb.link_of_eq hc hr hne⟩
  · exact Or.inr ⟨hac, k, hclimb, hclimb.link_of_ne hc hac⟩

/-- Where the elements end up when `c` is linked under `r`. -/
theorem exists_climb_link_iff (hc : F.parent c = none) (hr : F.parent r = none) (hne : r ≠ c)
    (a s : α) : (∃ k, Climb (Function.update F.parent c (some r)) k a s) ↔
      (if F.root a = c then r else F.root a) = s := by
  rcases F.exists_climb_link hc hr hne a with ⟨hac, k, -, hnew⟩ | ⟨hac, k, -, hnew⟩
  · rw [if_pos hac]
    exact ⟨fun ⟨_, h⟩ => (hnew.unique h).2, fun h => ⟨k + 1, h ▸ hnew⟩⟩
  · rw [if_neg hac]
    exact ⟨fun ⟨_, h⟩ => (hnew.unique h).2, fun h => ⟨k, h ▸ hnew⟩⟩

theorem card_link [Fintype α] (hc : F.parent c = none) (hr : F.parent r = none) (hne : r ≠ c)
    (s : α) (hs : Function.update F.parent c (some r) s = none) :
    Nat.card {a // ∃ k, Climb (Function.update F.parent c (some r)) k a s} =
      if s = r then F.size r + F.size c else F.size s := by
  classical
  -- `c` is no root any more
  have hsc : s ≠ c := by
    rintro rfl
    rw [Function.update_self] at hs
    cases hs
  have hs' : F.parent s = none := by rwa [Function.update_of_ne hsc] at hs
  have hcount : ∀ x, F.parent x = none →
      F.size x = (Finset.univ.filter fun a => F.root a = x).card := by
    intro x hx
    rw [F.size_eq_card hx, Nat.card_eq_fintype_card, Fintype.card_subtype]
  simp only [F.exists_climb_link_iff hc hr hne]
  rw [Nat.card_eq_fintype_card, Fintype.card_subtype]
  split_ifs with hsr
  · -- the tree of `r` is the union of the two old trees
    subst hsr
    rw [hcount s hr, hcount c hc, ← Finset.card_union_of_disjoint]
    · congr 1
      ext a
      simp only [Finset.mem_filter, Finset.mem_univ, true_and, Finset.mem_union]
      split_ifs with hac
      · simp [hac]
      · simp [hac]
    · refine Finset.disjoint_filter.mpr fun a _ has hac => hne ?_
      exact has.symm.trans hac
  · rw [hcount s hs']
    congr 1
    ext a
    simp only [Finset.mem_filter, Finset.mem_univ, true_and]
    split_ifs with hac
    · exact ⟨fun h => absurd h.symm hsr, fun h => absurd (h.symm.trans hac) hsc⟩
    · exact Iff.rfl

/-- Link the root `c` under the root `r` of a tree at least as large. -/
def link [Fintype α] (c r : α) (hc : F.parent c = none) (hr : F.parent r = none) (hne : r ≠ c)
    (hle : F.size c ≤ F.size r) : SizedForest α where
  parent := Function.update F.parent c (some r)
  size := Function.update F.size r (F.size r + F.size c)
  rooted a := by
    rcases F.exists_climb_link hc hr hne a with ⟨-, k, -, hnew⟩ | ⟨-, k, -, hnew⟩
    · exact ⟨_, _, hnew⟩
    · exact ⟨_, _, hnew⟩
  size_eq s hs := by
    rw [F.card_link hc hr hne s hs]
    by_cases hsr : s = r
    · subst hsr
      simp
    · rw [if_neg hsr, Function.update_of_ne hsr]
  two_pow_le {k a s} h := by
    rcases F.exists_climb_link hc hr hne a with ⟨-, k', hold, hnew⟩ | ⟨hac, k', hold, hnew⟩
    · -- one step deeper, in a tree at least twice as large as the old one
      obtain ⟨rfl, rfl⟩ := h.unique hnew
      have hpow := F.two_pow_le hold
      rw [Function.update_self, pow_succ]
      omega
    · obtain ⟨rfl, rfl⟩ := h.unique hnew
      have hpow := F.two_pow_le hold
      by_cases har : F.root a = r
      · rw [har] at hpow ⊢
        rw [Function.update_self]
        omega
      · rwa [Function.update_of_ne har]

theorem root_link [Fintype α] {hc : F.parent c = none} {hr : F.parent r = none} {hne : r ≠ c}
    {hle : F.size c ≤ F.size r} (a : α) :
    (F.link c r hc hr hne hle).root a = if F.root a = c then r else F.root a :=
  (root_eq_iff _).mpr ((F.exists_climb_link_iff hc hr hne a _).mpr rfl)

end Link

end SizedForest

/-! ### Trees and equivalence classes -/

/-- Two elements are in one tree exactly when the equivalence closure of `R`
relates them. -/
def Closes (F : SizedForest α) (R : α → α → Prop) : Prop :=
  ∀ a b, F.root a = F.root b ↔ Relation.EqvGen R a b

/-- `R'` is `R` with the pair of `x` and `y` added. -/
def Extends (R R' : α → α → Prop) (x y : α) : Prop :=
  ∀ a b, R' a b ↔ R a b ∨ (a = x ∧ b = y)

variable {F : SizedForest α} {R R' : α → α → Prop} {x y : α}

/-- A map that identifies the related elements identifies the whole closure. -/
theorem eq_of_eqvGen {β : Type*} {f : α → β} (hf : ∀ a b, R a b → f a = f b)
    (h : Relation.EqvGen R a b) : f a = f b := by
  induction h with
  | rel a b hab => exact hf a b hab
  | refl => rfl
  | symm _ _ _ ih => exact ih.symm
  | trans _ _ _ _ _ ih ih' => exact ih.trans ih'

theorem closes_discrete (hR : ∀ a b, ¬ R a b) : Closes (SizedForest.discrete α) R := by
  intro a b
  rw [SizedForest.root_discrete, SizedForest.root_discrete]
  constructor
  · rintro rfl
    exact .refl a
  · exact eq_of_eqvGen (f := fun a => a) fun a b hab => absurd hab (hR a b)

theorem Extends.eqvGen_mono (hR : Extends R R' x y) (h : Relation.EqvGen R a b) :
    Relation.EqvGen R' a b :=
  h.mono fun a b hab => (hR a b).mpr (Or.inl hab)

theorem Extends.eqvGen_new (hR : Extends R R' x y) : Relation.EqvGen R' x y :=
  .rel _ _ ((hR x y).mpr (Or.inr ⟨rfl, rfl⟩))

/-- A pair that is already in one tree changes nothing. -/
theorem Closes.skip (h : Closes F R) (hR : Extends R R' x y) (hxy : F.root x = F.root y) :
    Closes F R' := by
  intro a b
  refine ⟨fun hab => hR.eqvGen_mono ((h a b).mp hab), eq_of_eqvGen fun a b hab => ?_⟩
  rcases (hR a b).mp hab with hold | ⟨rfl, rfl⟩
  · exact (h a b).mpr (.rel _ _ hold)
  · exact hxy

/-- Linking the trees of a new pair adds the pair to the relation. -/
theorem Closes.link [DecidableEq α] [Fintype α] {hc : F.parent c = none} {hr : F.parent r = none}
    {hne : r ≠ c} {hle : F.size c ≤ F.size r} (h : Closes F R) (hR : Extends R R' x y)
    (hxy : F.root x = c ∧ F.root y = r ∨ F.root x = r ∧ F.root y = c) :
    Closes (F.link c r hc hr hne hle) R' := by
  intro a b
  have hold : ∀ a b, F.root a = F.root b → Relation.EqvGen R' a b :=
    fun a b hab => hR.eqvGen_mono ((h a b).mp hab)
  -- elements of the two linked trees are related through the new pair
  have hcross : ∀ a b, F.root a = c → F.root b = r → Relation.EqvGen R' a b := by
    intro a b ha hb
    rcases hxy with ⟨hx, hy⟩ | ⟨hx, hy⟩
    · exact ((hold a x (ha.trans hx.symm)).trans _ _ _ hR.eqvGen_new).trans _ _ _
        (hold y b (hy.trans hb.symm))
    · exact ((hold a y (ha.trans hy.symm)).trans _ _ _ hR.eqvGen_new.symm).trans _ _ _
        (hold x b (hx.trans hb.symm))
  constructor
  · intro hab
    rw [F.root_link, F.root_link] at hab
    split_ifs at hab with ha hb hb
    · exact hold a b (ha.trans hb.symm)
    · exact hcross a b ha hab.symm
    · exact (hcross b a hb hab).symm
    · exact hold a b hab
  · refine eq_of_eqvGen fun a b hab => ?_
    rw [F.root_link, F.root_link]
    rcases (hR a b).mp hab with hrel | ⟨rfl, rfl⟩
    · rw [(h a b).mpr (.rel _ _ hrel)]
    · rcases hxy with ⟨hx, hy⟩ | ⟨hx, hy⟩ <;> simp [hx, hy]

/-! ### Counting components -/

/-- Two vertices are connected exactly when the closure of the edges relates
them. -/
theorem reachable_fromRel_iff :
    (SimpleGraph.fromRel R).Reachable a b ↔ Relation.EqvGen R a b := by
  rw [SimpleGraph.reachable_iff_reflTransGen]
  constructor
  · intro h
    induction h with
    | refl => exact .refl a
    | tail _ hadj ih =>
      rcases ((SimpleGraph.fromRel_adj R _ _).mp hadj).2 with hrel | hrel
      · exact ih.trans _ _ _ (.rel _ _ hrel)
      · exact ih.trans _ _ _ (.symm _ _ (.rel _ _ hrel))
  · rw [← SimpleGraph.reachable_iff_reflTransGen]
    intro h
    induction h with
    | rel a b hab =>
      by_cases hne : a = b
      · exact hne ▸ .refl a
      · exact ((SimpleGraph.fromRel_adj R _ _).mpr ⟨hne, Or.inl hab⟩).reachable
    | refl a => exact .refl a
    | symm _ _ _ ih => exact ih.symm
    | trans _ _ _ _ _ ih ih' => exact ih.trans ih'

/-- There are as many roots as connected components. -/
theorem Closes.card_roots (h : Closes F R) :
    Nat.card {r // F.parent r = none} =
      Nat.card (SimpleGraph.fromRel R).ConnectedComponent := by
  refine Nat.card_eq_of_bijective
    (fun r : {r // F.parent r = none} => (SimpleGraph.fromRel R).connectedComponentMk r) ⟨?_, ?_⟩
  · rintro ⟨r, hr⟩ ⟨s, hs⟩ hrs
    have hroot := (h r s).mpr (reachable_fromRel_iff.mp (SimpleGraph.ConnectedComponent.exact hrs))
    rw [F.root_eq_self hr, F.root_eq_self hs] at hroot
    exact Subtype.ext hroot
  · intro component
    induction component using SimpleGraph.ConnectedComponent.ind with
    | h a =>
      refine ⟨⟨F.root a, F.isRoot_root a⟩, SimpleGraph.ConnectedComponent.sound ?_⟩
      refine reachable_fromRel_iff.mpr ((h _ _).mp ?_)
      exact F.root_eq_self (F.isRoot_root a)

end Math.Forest
