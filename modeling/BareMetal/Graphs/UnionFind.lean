import BareMetal.CS.Block
import BareMetal.CS.Loop
import BareMetal.Math.Forest
import Mathlib.Data.Nat.Log

/-!
# The disjoint-set array

`disjoint_subset.c` and `micro-make.c` keep a disjoint set in one `int` array:
a non-negative entry is the index of the parent, a negative entry marks a root
and is minus the number of elements below it. The two files share `find` and
the union by size, and differ in what `set_union` does with two elements that
already have one root; that answer is the parameter `onSameRoot` here.

`Represents` reads the array as a `SizedForest`, and `find_eq_root` and
`setUnionWith_spec` say that the code computes the forest's operations.

## Main results

* `leavesAfter_find` — `find` takes as many steps as the forest is deep
* `setUnionWith_spec`, `setUnionWith_outOfRange` — one call of `set_union`
* `Tracks.closure` — what the array says about the pairs united so far
* `Tracks.shallow` — the bound on the steps of `find`
* `Tracks.card_negative` — roots count connected components
-/

namespace BareMetal.UnionFind

open CS Math.Forest

variable {n : ℕ}

/-- One turn of the loop of `find`: it leaves at a negative entry. -/
def findBody (dsu : Block n ℤ) (root : ℤ) : Outcome (Pass ℤ ℤ) := do
  let entry ← dsu.load root
  if entry ≥ 0 then .ok (.again entry) else .ok (.leave root)

/-- `find`. A walk through `n` cells that meets no negative entry is in a cycle,
so a run longer than that never ends. -/
def find (idx : ℤ) (dsu : Block n ℤ) : Outcome ℤ :=
  if idx < 0 ∨ idx ≥ n then .ok (-1) else loop (findBody dsu) (n + 1) idx

/-- The union by size at the end of `set_union`: entries are minus the sizes, so
the smaller entry belongs to the larger tree. -/
def unionBySize (rootA rootB : ℤ) (dsu : Block n ℤ) : Outcome (Block n ℤ) := do
  let entryA ← dsu.load rootA
  let entryB ← dsu.load rootB
  -- a tie attaches the second tree to the first
  if entryA ≤ entryB then
    let dsu ← dsu.store rootA (entryA + entryB)
    dsu.store rootB rootA
  else
    let dsu ← dsu.store rootB (entryB + entryA)
    dsu.store rootA rootB

/-- `set_union`, with what to do when both roots are the same. -/
def setUnionWith (onSameRoot : ℤ → ℤ → Block n ℤ → Outcome (Block n ℤ)) (nodeA nodeB : ℤ)
    (dsu : Block n ℤ) : Outcome (Block n ℤ) := do
  let rootA ← find nodeA dsu
  let rootB ← find nodeB dsu
  -- two operands out of range have the same root too, namely `-1`
  if rootA = rootB then onSameRoot rootA rootB dsu else unionBySize rootA rootB dsu

/-! ### The array as a forest -/

/-- The entry of an element: its parent, or minus the size of its tree. -/
def entryOf (F : SizedForest (Fin n)) (i : Fin n) : ℤ :=
  match F.parent i with
  | some p => (p : ℕ)
  | none => -(F.size i : ℤ)

/-- The array holds the entries of the forest. -/
def Represents (dsu : Block n ℤ) (F : SizedForest (Fin n)) : Prop := ∀ i, dsu i = entryOf F i

variable {dsu dsu' : Block n ℤ} {F : SizedForest (Fin n)} {a b r : Fin n}

theorem Represents.of_parent (h : Represents dsu F) {p : Fin n} (hp : F.parent a = some p) :
    dsu a = (p : ℕ) := by
  rw [h a, entryOf, hp]

theorem Represents.of_root (h : Represents dsu F) (hr : F.parent r = none) :
    dsu r = -(F.size r : ℤ) := by
  rw [h r, entryOf, hr]

theorem Represents.neg_iff (h : Represents dsu F) : dsu a < 0 ↔ F.parent a = none := by
  rcases hp : F.parent a with _ | p
  · have hpos := F.size_pos hp
    rw [h.of_root hp]
    simp only [iff_true]
    omega
  · rw [h.of_parent hp]
    simp only [reduceCtorEq, iff_false]
    omega

theorem represents_discrete :
    Represents (fun _ : Fin n => (-1 : ℤ)) (SizedForest.discrete (Fin n)) :=
  fun _ => rfl

/-! ### `find` -/

theorem findBody_parent (h : Represents dsu F) {p : Fin n} (hp : F.parent a = some p) :
    findBody dsu (a : ℕ) = .ok (.again (p : ℕ)) := by
  unfold findBody
  rw [Block.load_natCast, Outcome.ok_bind, h.of_parent hp, if_pos (Int.natCast_nonneg _)]

theorem findBody_root (h : Represents dsu F) (hr : F.parent r = none) :
    findBody dsu (r : ℕ) = .ok (.leave (r : ℕ)) := by
  have hneg := h.neg_iff.mpr hr
  unfold findBody
  rw [Block.load_natCast, Outcome.ok_bind, if_neg (not_le.mpr hneg)]

/-- `find` goes round once for every step of the climb. -/
theorem leavesAfter_find (h : Represents dsu F) {k : ℕ} (hclimb : Climb F.parent k a r) :
    LeavesAfter (findBody dsu) k ((a : ℕ) : ℤ) ((r : ℕ) : ℤ) := by
  induction hclimb with
  | root hr => exact .leave (findBody_root h hr)
  | step hp _ ih => exact .again (findBody_parent h hp) ih

theorem find_eq_root (h : Represents dsu F) (a : Fin n) :
    find (a : ℕ) dsu = .ok ((F.root a : ℕ) : ℤ) := by
  obtain ⟨k, hclimb⟩ := F.exists_climb_root a
  -- the fuel of `find` covers the deepest tree there can be
  have hk : k < n := by simpa using F.steps_lt_card hclimb
  unfold find
  rw [if_neg (by omega)]
  exact loop_eq_ok_iff.mpr ⟨k, by omega, leavesAfter_find h hclimb⟩

theorem find_eq_iff (h : Represents dsu F) :
    find (a : ℕ) dsu = find (b : ℕ) dsu ↔ F.root a = F.root b := by
  rw [find_eq_root h, find_eq_root h, Except.ok.injEq, Nat.cast_inj, Fin.val_inj]

/-! ### `set_union` -/

/-- Linking `c` under `r` in the forest is what the two stores do. -/
theorem represents_link (h : Represents dsu F) {c r : Fin n} {hc : F.parent c = none}
    {hr : F.parent r = none} {hne : r ≠ c} {hle : F.size c ≤ F.size r} :
    Represents (Function.update (Function.update dsu r (dsu r + dsu c)) c ((r : ℕ) : ℤ))
      (F.link c r hc hr hne hle) := by
  intro i
  unfold entryOf SizedForest.link
  dsimp only
  by_cases hic : i = c
  · subst hic
    simp
  · rw [Function.update_of_ne hic, Function.update_of_ne hic]
    by_cases hir : i = r
    · subst hir
      rw [Function.update_self, Function.update_self, hr, h.of_root hr, h.of_root hc]
      push_cast
      omega
    · rw [Function.update_of_ne hir, Function.update_of_ne hir]
      exact h i

/-- The two stores of the union by size link the smaller tree under the larger
one, and on a tie the second under the first. -/
theorem unionBySize_spec (h : Represents dsu F) (hne : F.root a ≠ F.root b) :
    ∃ c r, ∃ (hc : F.parent c = none) (hr : F.parent r = none) (hrc : r ≠ c)
      (hle : F.size c ≤ F.size r) (dsu' : Block n ℤ),
      (F.root a = c ∧ F.root b = r ∨ F.root a = r ∧ F.root b = c) ∧
      unionBySize ((F.root a : ℕ) : ℤ) ((F.root b : ℕ) : ℤ) dsu = .ok dsu' ∧
      Represents dsu' (F.link c r hc hr hrc hle) := by
  have hra := F.isRoot_root a
  have hrb := F.isRoot_root b
  have ha := h.of_root hra
  have hb := h.of_root hrb
  unfold unionBySize
  rw [Block.load_natCast, Outcome.ok_bind, Block.load_natCast, Outcome.ok_bind]
  by_cases hle : dsu (F.root a) ≤ dsu (F.root b)
  · -- the first tree is at least as large: the comparison is of negated sizes
    refine ⟨F.root b, F.root a, hrb, hra, hne, by omega, _, Or.inr ⟨rfl, rfl⟩, ?_,
      represents_link h⟩
    rw [if_pos hle, Block.store_natCast, Outcome.ok_bind, Block.store_natCast]
  · refine ⟨F.root a, F.root b, hra, hrb, hne.symm, by omega, _, Or.inl ⟨rfl, rfl⟩, ?_,
      represents_link h⟩
    rw [if_neg hle, Block.store_natCast, Outcome.ok_bind, Block.store_natCast]

/-- The relation of the pairs in a list. -/
def Paired (pairs : List (Fin n × Fin n)) (x y : Fin n) : Prop := (x, y) ∈ pairs

theorem extends_paired (pairs : List (Fin n × Fin n)) (a b : Fin n) :
    Extends (Paired pairs) (Paired (pairs ++ [(a, b)])) a b := by
  intro x y
  simp [Paired]

/-- The array represents a forest whose trees are the classes of the pairs. -/
def Tracks (pairs : List (Fin n × Fin n)) (dsu : Block n ℤ) : Prop :=
  ∃ F : SizedForest (Fin n), Represents dsu F ∧ Closes F (Paired pairs)

theorem tracks_init : Tracks [] (fun _ : Fin n => (-1 : ℤ)) :=
  ⟨SizedForest.discrete _, represents_discrete, closes_discrete fun _ _ => List.not_mem_nil⟩

variable {pairs : List (Fin n × Fin n)}

/-- One call of `set_union`: either both elements have one root, and the
caller's answer is what happens, or the array goes on to track the new pair. -/
theorem setUnionWith_spec (onSameRoot : ℤ → ℤ → Block n ℤ → Outcome (Block n ℤ))
    (h : Tracks pairs dsu) (a b : Fin n) :
    (Relation.EqvGen (Paired pairs) a b ∧ Tracks (pairs ++ [(a, b)]) dsu ∧
        ∃ root : Fin n, setUnionWith onSameRoot (a : ℕ) (b : ℕ) dsu =
          onSameRoot (root : ℕ) (root : ℕ) dsu) ∨
      (¬ Relation.EqvGen (Paired pairs) a b ∧ ∃ dsu', Tracks (pairs ++ [(a, b)]) dsu' ∧
        setUnionWith onSameRoot (a : ℕ) (b : ℕ) dsu = .ok dsu') := by
  obtain ⟨F, hrep, hcloses⟩ := h
  have hext := extends_paired pairs a b
  by_cases hroot : F.root a = F.root b
  · refine Or.inl ⟨(hcloses a b).mp hroot, ⟨F, hrep, hcloses.skip hext hroot⟩, F.root b, ?_⟩
    unfold setUnionWith
    rw [find_eq_root hrep, find_eq_root hrep, Outcome.ok_bind, Outcome.ok_bind, hroot, if_pos rfl]
  · refine Or.inr ⟨fun hab => hroot ((hcloses a b).mpr hab), ?_⟩
    obtain ⟨c, r, hc, hr, hrc, hle, dsu', hends, hunion, hrep'⟩ := unionBySize_spec hrep hroot
    refine ⟨dsu', ⟨_, hrep', hcloses.link hext hends⟩, ?_⟩
    have hcast : ((F.root a : ℕ) : ℤ) ≠ ((F.root b : ℕ) : ℤ) := by
      rwa [Ne, Nat.cast_inj, Fin.val_inj]
    unfold setUnionWith
    rw [find_eq_root hrep, find_eq_root hrep, Outcome.ok_bind, Outcome.ok_bind, if_neg hcast,
      hunion]

/-! ### Operands out of range -/

/-- An index of the array. -/
def InRange (n : ℕ) (idx : ℤ) : Prop := 0 ≤ idx ∧ idx < n

theorem InRange.exists_eq {idx : ℤ} (h : InRange n idx) : ∃ a : Fin n, idx = (a : ℕ) :=
  Block.exists_index h.1 h.2

theorem find_outOfRange {idx : ℤ} (h : ¬ InRange n idx) (dsu : Block n ℤ) :
    find idx dsu = .ok (-1) := by
  unfold InRange at h
  exact if_pos (by omega)

theorem load_neg_one (dsu : Block n ℤ) : dsu.load (-1) = .error (.outOfBounds (-1)) :=
  dif_neg fun h => absurd h.1 (by decide)

/-- `set_union` on operands of which one is out of range uses the answer `-1` of `find` as an
index. When both are, they seem to have one root. -/
theorem setUnionWith_outOfRange (onSameRoot : ℤ → ℤ → Block n ℤ → Outcome (Block n ℤ))
    (h : Tracks pairs dsu) {a b : ℤ} (hout : ¬ InRange n a ∨ ¬ InRange n b) :
    (¬ InRange n a ∧ ¬ InRange n b ∧
        setUnionWith onSameRoot a b dsu = onSameRoot (-1) (-1) dsu) ∨
      (InRange n a ∨ InRange n b) ∧
        setUnionWith onSameRoot a b dsu = .error (.outOfBounds (-1)) := by
  obtain ⟨F, hrep, -⟩ := h
  have hroot : ∀ x : Fin n, ((F.root x : ℕ) : ℤ) ≠ -1 := fun x => by omega
  unfold setUnionWith
  by_cases ha : InRange n a
  · obtain ⟨x, rfl⟩ := ha.exists_eq
    have hb := hout.resolve_left (not_not_intro ha)
    refine Or.inr ⟨Or.inl ha, ?_⟩
    rw [find_eq_root hrep, find_outOfRange hb, Outcome.ok_bind, Outcome.ok_bind, if_neg (hroot x),
      unionBySize, Block.load_natCast, Outcome.ok_bind, load_neg_one, Outcome.error_bind]
  · by_cases hb : InRange n b
    · obtain ⟨y, rfl⟩ := hb.exists_eq
      refine Or.inr ⟨Or.inr hb, ?_⟩
      rw [find_eq_root hrep, find_outOfRange ha, Outcome.ok_bind, Outcome.ok_bind,
        if_neg (hroot y).symm, unionBySize, load_neg_one, Outcome.error_bind]
    · refine Or.inl ⟨ha, hb, ?_⟩
      rw [find_outOfRange ha, find_outOfRange hb, Outcome.ok_bind, Outcome.ok_bind, if_pos rfl]

/-- Whatever its operands are, a call of `set_union` that returns leaves a disjoint set. -/
theorem Tracks.setUnionWith {onSameRoot : ℤ → ℤ → Block n ℤ → Outcome (Block n ℤ)}
    (hsame : ∀ rootA rootB dsu dsu', onSameRoot rootA rootB dsu = .ok dsu' → dsu' = dsu)
    (h : Tracks pairs dsu) {a b : ℤ}
    (hcall : UnionFind.setUnionWith onSameRoot a b dsu = .ok dsu') :
    ∃ pairs', Tracks pairs' dsu' := by
  by_cases hin : InRange n a ∧ InRange n b
  · obtain ⟨x, rfl⟩ := hin.1.exists_eq
    obtain ⟨y, rfl⟩ := hin.2.exists_eq
    rcases setUnionWith_spec onSameRoot h x y with ⟨-, hkeep, root, heq⟩ | ⟨-, dsu₁, hnew, heq⟩
    · obtain rfl := hsame _ _ _ _ (heq.symm.trans hcall)
      exact ⟨_, hkeep⟩
    · cases heq.symm.trans hcall
      exact ⟨_, hnew⟩
  · rcases setUnionWith_outOfRange onSameRoot h (not_and_or.mp hin) with ⟨-, -, heq⟩ | ⟨-, heq⟩
    · obtain rfl := hsame _ _ _ _ (heq.symm.trans hcall)
      exact ⟨_, h⟩
    · cases heq.symm.trans hcall

/-! ### What the array says -/

/-- The array answers questions about the classes of `pairs`: `find` ends at a
negative entry, that entry is minus the size of the class, and two elements
have one root exactly when they are equivalent. -/
structure RepresentsClosure (pairs : List (Fin n × Fin n)) (dsu : Block n ℤ) : Prop where
  find_root : ∀ x : Fin n, ∃ r : Fin n, find (x : ℕ) dsu = .ok ((r : ℕ) : ℤ) ∧ dsu r < 0
  root_size : ∀ r : Fin n, dsu r < 0 →
    dsu r = -(Nat.card {x : Fin n // find (x : ℕ) dsu = .ok ((r : ℕ) : ℤ)} : ℤ)
  find_eq_iff : ∀ a b : Fin n, find (a : ℕ) dsu = find (b : ℕ) dsu ↔
    Relation.EqvGen (fun x y => (x, y) ∈ pairs) a b

theorem Tracks.closure (h : Tracks pairs dsu) : RepresentsClosure pairs dsu := by
  obtain ⟨F, hrep, hcloses⟩ := h
  refine ⟨fun x => ⟨F.root x, find_eq_root hrep x, hrep.neg_iff.mpr (F.isRoot_root x)⟩,
    fun r hr => ?_, fun a b => (UnionFind.find_eq_iff hrep).trans (hcloses a b)⟩
  have hroot := hrep.neg_iff.mp hr
  have hfind : ∀ x : Fin n, find (x : ℕ) dsu = .ok ((r : ℕ) : ℤ) ↔ F.root x = r := by
    intro x
    rw [find_eq_root hrep, Except.ok.injEq, Nat.cast_inj, Fin.val_inj]
  rw [hrep.of_root hroot, F.size_eq_card hroot]
  simp only [hfind]

/-- The trees of the array are shallow: `find` goes round `steps` times from `x`
to a root whose tree has at least `2 ^ steps` elements. -/
def Shallow (dsu : Block n ℤ) : Prop :=
  ∀ x : Fin n, ∃ (steps : ℕ) (r : Fin n),
    LeavesAfter (findBody dsu) steps ((x : ℕ) : ℤ) ((r : ℕ) : ℤ) ∧
    find (x : ℕ) dsu = .ok ((r : ℕ) : ℤ) ∧ (2 : ℤ) ^ steps ≤ -dsu r ∧ steps ≤ Nat.log 2 n

theorem Tracks.shallow (h : Tracks pairs dsu) : Shallow dsu := by
  obtain ⟨F, hrep, -⟩ := h
  intro x
  obtain ⟨k, hclimb⟩ := F.exists_climb_root x
  have hpow := F.two_pow_le hclimb
  have hroot := F.isRoot_root x
  refine ⟨k, F.root x, leavesAfter_find hrep hclimb, find_eq_root hrep x, ?_, ?_⟩
  · rw [hrep.of_root hroot, neg_neg]
    exact_mod_cast hpow
  · have hcard : F.size (F.root x) ≤ n := by simpa using F.size_le_card hroot
    have hpos : n ≠ 0 := by
      have := x.isLt
      omega
    exact Nat.le_log_of_pow_le one_lt_two (hpow.trans hcard)

/-- There are as many negative entries as connected components. -/
theorem Tracks.card_negative (h : Tracks pairs dsu) :
    (Finset.univ.filter fun i => dsu i < 0).card =
      Nat.card (SimpleGraph.fromRel (Paired pairs)).ConnectedComponent := by
  obtain ⟨F, hrep, hcloses⟩ := h
  rw [← hcloses.card_roots, Nat.card_eq_fintype_card, Fintype.card_subtype]
  simp only [hrep.neg_iff]

end BareMetal.UnionFind
