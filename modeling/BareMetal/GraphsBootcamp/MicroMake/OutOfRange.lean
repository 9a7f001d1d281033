import BareMetal.Graphs.DisjointSubset
import BareMetal.GraphsBootcamp.MicroMake.Basic

/-!
# Operands out of range

`find` answers `-1` for a number that is no element, and `set_union` does not look at
that answer, in `micro-make.c` as in `disjoint_subset.c`. Two such numbers seem to have
the same root, so nothing is touched; with one of them `-1` is used as an index.

## Main results

* `Reached.tracks`, `DisjointSubset.Reached.tracks` — calls with any operands leave a
  disjoint set
* `setUnion_unharmed_iff` — when a call with an operand out of range does no harm
-/

namespace BareMetal

open CS UnionFind

variable {n : ℕ}

/-- The call has touched nothing: it returns with what was there `before`, or it ends the
program. -/
def Unharmed {α : Type} (call : Outcome α) (before : α) : Prop :=
  call = .ok before ∨ ∃ code message, call = .error (.exit code message)

theorem not_unharmed {α : Type} (index : ℤ) (before : α) :
    ¬ Unharmed (.error (.outOfBounds index)) before := by
  rintro (hok | ⟨code, message, hexit⟩)
  · cases hok
  · cases hexit

namespace DisjointSubset

/-- The arrays after calls of `set_union` with any operands. -/
inductive Reached : Block n ℤ → Prop
  | init : Reached (initDsu n)
  | setUnion {unionSet unionSet' : Block n ℤ} {nodeA nodeB : ℤ} (h : Reached unionSet)
      (hcall : setUnion nodeA nodeB unionSet = .ok unionSet') : Reached unionSet'

theorem Reached.tracks {unionSet : Block n ℤ} (h : Reached unionSet) :
    ∃ pairs, Tracks pairs unionSet := by
  induction h with
  | init => exact ⟨[], tracks_init⟩
  | setUnion _ hcall ih =>
    obtain ⟨pairs, htracks⟩ := ih
    refine htracks.setUnionWith (fun _ _ _ _ hexit => ?_) hcall
    cases hexit

/-- The exit is taken for two operands out of range. -/
theorem setUnion_unharmed {pairs : List (Fin n × Fin n)} {unionSet : Block n ℤ}
    (h : Tracks pairs unionSet) {nodeA nodeB : ℤ} (hout : ¬ InRange n nodeA ∨ ¬ InRange n nodeB) :
    Unharmed (setUnion nodeA nodeB unionSet) unionSet ↔ ¬ InRange n nodeA ∧ ¬ InRange n nodeB := by
  unfold setUnion
  rcases setUnionWith_outOfRange (fun rootA rootB _ => .error (cycleDetected rootA rootB)) h
    hout with ⟨ha, hb, heq⟩ | ⟨hin, heq⟩
  · rw [heq]
    exact iff_of_true (Or.inr ⟨_, _, rfl⟩) ⟨ha, hb⟩
  · rw [heq]
    exact iff_of_false (not_unharmed _ _) fun hnone => hin.elim hnone.1 hnone.2

end DisjointSubset

namespace MicroMake

/-- The graphs after calls of `set_union` and `add_dependency` with any operands. A search
leaves the disjoint set alone. -/
inductive Reached : Graph n → Prop
  | create {graph : Graph n} (hcall : createGraph n = .ok graph) : Reached graph
  | setUnion {graph graph' : Graph n} {nodeA nodeB : ℤ} (h : Reached graph)
      (hcall : setUnion nodeA nodeB graph = .ok graph') : Reached graph'
  | addDependency {graph graph' : Graph n} {task prerequisite : ℤ} (h : Reached graph)
      (hcall : addDependency graph task prerequisite = .ok graph') : Reached graph'

/-- A call of `set_union` that returns has set the disjoint set to what it computes. -/
theorem exists_of_setUnion {graph graph' : Graph n} {nodeA nodeB : ℤ}
    (hcall : setUnion nodeA nodeB graph = .ok graph') :
    setUnionWith (fun _ _ dsu => .ok dsu) nodeA nodeB graph.dsu = .ok graph'.dsu := by
  obtain ⟨dsu, hunion, hset⟩ := Outcome.bind_eq_ok.mp hcall
  cases hset
  exact hunion

theorem Reached.tracks {graph : Graph n} (h : Reached graph) : ∃ pairs, Tracks pairs graph.dsu := by
  have hsame : ∀ (_ _ : ℤ) (dsu dsu' : Block n ℤ), (.ok dsu : Outcome (Block n ℤ)) = .ok dsu' →
      dsu' = dsu := fun _ _ _ _ heq => (Except.ok.inj heq).symm
  induction h with
  | create hcall =>
    unfold createGraph at hcall
    split_ifs at hcall
    cases hcall
    exact ⟨[], tracks_init⟩
  | setUnion _ hcall ih =>
    obtain ⟨pairs, htracks⟩ := ih
    exact htracks.setUnionWith hsame (exists_of_setUnion hcall)
  | addDependency _ hcall ih =>
    obtain ⟨pairs, htracks⟩ := ih
    obtain ⟨head, -, hcall⟩ := Outcome.bind_eq_ok.mp hcall
    obtain ⟨adjList, -, hcall⟩ := Outcome.bind_eq_ok.mp hcall
    have hunion := exists_of_setUnion hcall
    exact htracks.setUnionWith hsame hunion

theorem setUnion_unharmed {pairs : List (Fin n × Fin n)} {graph : Graph n}
    (h : Tracks pairs graph.dsu) {nodeA nodeB : ℤ}
    (hout : ¬ InRange n nodeA ∨ ¬ InRange n nodeB) :
    Unharmed (setUnion nodeA nodeB graph) graph ↔ ¬ InRange n nodeA ∧ ¬ InRange n nodeB := by
  unfold setUnion
  rcases setUnionWith_outOfRange (fun _ _ dsu => .ok dsu) h hout with ⟨ha, hb, heq⟩ | ⟨hin, heq⟩
  · rw [heq]
    exact iff_of_true (Or.inl rfl) ⟨ha, hb⟩
  · rw [heq]
    exact iff_of_false (not_unharmed _ _) fun hnone => hin.elim hnone.1 hnone.2

/-- **Out-of-range operands.** On every array that calls with any operands can reach, a call of
`set_union` with an operand out of range leaves the array alone and stays inside of it exactly
when both operands are out of range, in both programs. -/
theorem setUnion_unharmed_iff (n : ℕ) (nodeA nodeB : ℤ)
    (hout : ¬ InRange n nodeA ∨ ¬ InRange n nodeB) :
    (∀ graph : Graph n, Reached graph →
      (Unharmed (setUnion nodeA nodeB graph) graph ↔ ¬ InRange n nodeA ∧ ¬ InRange n nodeB)) ∧
    ∀ unionSet : Block n ℤ, DisjointSubset.Reached unionSet →
      (Unharmed (DisjointSubset.setUnion nodeA nodeB unionSet) unionSet ↔
        ¬ InRange n nodeA ∧ ¬ InRange n nodeB) := by
  constructor
  · intro graph hreached
    obtain ⟨pairs, htracks⟩ := hreached.tracks
    exact setUnion_unharmed htracks hout
  · intro unionSet hreached
    obtain ⟨pairs, htracks⟩ := hreached.tracks
    exact DisjointSubset.setUnion_unharmed htracks hout

/-- Two operands out of range, on new arrays. -/
theorem setUnion_unharmed_both :
    Unharmed (setUnion (-1) 3 (allocGraph 3 2)) (allocGraph 3 2) ∧
      Unharmed (DisjointSubset.setUnion (-1) 3 (DisjointSubset.initDsu 3))
        (DisjointSubset.initDsu 3) := by
  have hlow : ¬ InRange 3 (-1) := fun h => absurd h.1 (by decide)
  have hhigh : ¬ InRange 3 3 := fun h => absurd h.2 (by decide)
  obtain ⟨hmake, hsubset⟩ := setUnion_unharmed_iff 3 (-1) 3 (Or.inl hlow)
  exact ⟨(hmake _ (.create rfl)).mpr ⟨hlow, hhigh⟩, (hsubset _ .init).mpr ⟨hlow, hhigh⟩⟩

/-- With one operand out of range `-1` is used as an index. -/
theorem setUnion_neg_one :
    setUnion (-1) 0 (allocGraph 3 2) = .error (.outOfBounds (-1)) ∧
      ¬ Unharmed (setUnion (-1) 0 (allocGraph 3 2)) (allocGraph 3 2) ∧
      DisjointSubset.setUnion (-1) 0 (DisjointSubset.initDsu 3) = .error (.outOfBounds (-1)) ∧
      ¬ Unharmed (DisjointSubset.setUnion (-1) 0 (DisjointSubset.initDsu 3))
        (DisjointSubset.initDsu 3) := by
  have hmake : setUnion (-1) 0 (allocGraph 3 2) = .error (.outOfBounds (-1)) := rfl
  have hsubset : DisjointSubset.setUnion (-1) 0 (DisjointSubset.initDsu 3) =
      .error (.outOfBounds (-1)) := rfl
  rw [hmake, hsubset]
  exact ⟨rfl, not_unharmed _ _, rfl, not_unharmed _ _⟩

end MicroMake

end BareMetal
