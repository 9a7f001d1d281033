import BareMetal.Graphs.UnionFind
import BareMetal.Math.PairGraph

/-!
# `disjoint_subset.c`

The program keeps the array of `UnionFind` by itself and exits as soon as a
pair is found to be connected already. The file fixes the number of elements
at `UNION_SET_SIZE`; here it is a parameter.

## Main results

* `tracks_setUnions` — what the array says after a run
* `setUnions_returns_iff` — the runs that do not exit are those on forests
-/

namespace BareMetal.DisjointSubset

open CS UnionFind Math.PairGraph

variable {n : ℕ}

/-- `init_dsu`: every element is a root of size one. -/
def initDsu (n : ℕ) : Block n ℤ := fun _ => -1

/-- `find`. -/
def find (idx : ℤ) (unionSet : Block n ℤ) : Outcome ℤ := UnionFind.find idx unionSet

/-- The exit of `set_union` on elements that are connected already. -/
def cycleDetected (rootA rootB : ℤ) : Stop :=
  .exit 1 s!"Cycle detected between {rootA} and {rootB}"

/-- `set_union`. -/
def setUnion (nodeA nodeB : ℤ) (unionSet : Block n ℤ) : Outcome (Block n ℤ) :=
  setUnionWith (fun rootA rootB _ => .error (cycleDetected rootA rootB)) nodeA nodeB unionSet

/-- Calls of `set_union` one after the other. -/
def setUnions : List (Fin n × Fin n) → Block n ℤ → Outcome (Block n ℤ)
  | [], unionSet => .ok unionSet
  | (a, b) :: pairs, unionSet => do
    let unionSet ← setUnion (a : ℕ) (b : ℕ) unionSet
    setUnions pairs unionSet

/-- A run that is not stopped tracks its pairs. -/
theorem tracks_setUnions {pairs pairs' : List (Fin n × Fin n)} {dsu dsu' : Block n ℤ}
    (h : Tracks pairs dsu) (hrun : setUnions pairs' dsu = .ok dsu') :
    Tracks (pairs ++ pairs') dsu' := by
  induction pairs' generalizing pairs dsu with
  | nil =>
    obtain rfl := Except.ok.inj hrun
    simpa using h
  | cons pair pairs' ih =>
    obtain ⟨a, b⟩ := pair
    obtain ⟨dsu₁, hcall, hrest⟩ := Outcome.bind_eq_ok.mp hrun
    rcases setUnionWith_spec (fun rootA rootB _ => .error (cycleDetected rootA rootB)) h a b with
      ⟨-, -, root, heq⟩ | ⟨-, dsu₂, hnew, heq⟩
    · -- a redundant pair takes the exit
      cases heq.symm.trans hcall
    · obtain rfl := Except.ok.inj (heq.symm.trans hcall)
      simpa using ih hnew hrest

/-! ### Forests -/

theorem setUnions_concat (pairs : List (Fin n × Fin n)) (a b : Fin n) (unionSet : Block n ℤ) :
    setUnions (pairs ++ [(a, b)]) unionSet =
      (setUnions pairs unionSet >>= fun unionSet => setUnion (a : ℕ) (b : ℕ) unionSet) := by
  induction pairs generalizing unionSet with
  | nil =>
    simp only [List.nil_append, setUnions, Outcome.ok_bind]
    exact bind_pure _
  | cons pair pairs ih =>
    obtain ⟨x, y⟩ := pair
    simp only [List.cons_append, setUnions, ih, bind_assoc]

/-- A call of `set_union` returns unless the pair closes a cycle; then it exits. -/
theorem setUnion_returns {pairs : List (Fin n × Fin n)} {dsu : Block n ℤ} (h : Tracks pairs dsu)
    (a b : Fin n) :
    (¬ (graph pairs).Reachable a b ∧ ∃ dsu', setUnion (a : ℕ) (b : ℕ) dsu = .ok dsu') ∨
      ((graph pairs).Reachable a b ∧
        ∃ root : Fin n, setUnion (a : ℕ) (b : ℕ) dsu = .error (cycleDetected root root)) := by
  have hclosure : (graph pairs).Reachable a b ↔ Relation.EqvGen (Paired pairs) a b :=
    Math.Forest.reachable_fromRel_iff
  rcases setUnionWith_spec (fun rootA rootB _ => .error (cycleDetected rootA rootB)) h a b with
    ⟨hab, -, root, heq⟩ | ⟨hab, dsu', -, heq⟩
  · exact Or.inr ⟨hclosure.mpr hab, root, heq⟩
  · exact Or.inl ⟨mt hclosure.mp hab, dsu', heq⟩

/-- **The demo accepts exactly forests.** From the array of `init_dsu`, all calls of `set_union`
return exactly when the multigraph of the pairs has no cycle, and otherwise one of them takes
the cycle exit. The induction is on the pairs, the last one taken off. -/
theorem setUnions_returns_iff (n : ℕ) (pairs : List (Fin n × Fin n)) :
    ((∃ unionSet, setUnions pairs (initDsu n) = .ok unionSet) ↔ IsForest pairs) ∧
      (¬ IsForest pairs →
        ∃ root : Fin n, setUnions pairs (initDsu n) = .error (cycleDetected root root)) := by
  induction pairs using List.reverseRecOn with
  | nil => exact ⟨iff_of_true ⟨_, rfl⟩ isForest_nil, fun hcyclic => absurd isForest_nil hcyclic⟩
  | append_singleton pairs pair ih =>
    obtain ⟨a, b⟩ := pair
    rw [isForest_concat, setUnions_concat]
    by_cases hforest : IsForest pairs
    · obtain ⟨dsu, hrun⟩ := ih.1.mpr hforest
      have htracks : Tracks pairs dsu := tracks_setUnions tracks_init hrun
      rw [hrun, Outcome.ok_bind]
      -- the calls before return, and the last pair decides
      rcases setUnion_returns htracks a b with ⟨hnew, dsu', hok⟩ | ⟨hold, root, hexit⟩
      · rw [hok]
        exact ⟨iff_of_true ⟨_, rfl⟩ ⟨hforest, hnew⟩, fun hcyclic => absurd ⟨hforest, hnew⟩ hcyclic⟩
      · rw [hexit]
        exact ⟨iff_of_false nofun fun h => h.2 hold, fun _ => ⟨root, rfl⟩⟩
    · -- the run has exited before the last pair
      obtain ⟨root, hexit⟩ := ih.2 hforest
      rw [hexit, Outcome.error_bind]
      exact ⟨iff_of_false nofun fun h => hforest h.1, fun _ => ⟨root, rfl⟩⟩

end BareMetal.DisjointSubset
