import Mathlib.Algebra.BigOperators.Fin
import Mathlib.Algebra.Order.BigOperators.Group.Finset
import Mathlib.Algebra.Order.BigOperators.Group.List
import Mathlib.Data.Int.LeastGreatest
import Mathlib.Data.Multiset.Basic
import Mathlib.Logic.Relation
import Mathlib.Order.Bounds.Basic
import Mathlib.Tactic.Linarith

/-!
# Shortest paths by label correction

A directed multigraph with integer weights is given by the outgoing arcs of
each vertex. Parallel arcs are separate entries of one list.

A label-correcting search keeps a tentative distance for every vertex, a bound
that stands for "not reached", and a bag of pending pairs. Taking a pair out of
the bag either discards it as stale or relaxes all arcs of its vertex; a
lowered distance puts a new pair into the bag. `Search` says what holds at any
moment, for any order in which pairs are taken, so the result does not rest on
the bag being a priority queue. `Settled` says what more holds when it is one.

## Main results

* `exists_path_le_total` — a reachable vertex has a path no heavier than all
  arcs together
* `Search.init`, `Search.skip`, `Search.take`, `Search.keep`, `Search.lower` —
  the moves of a search
* `Search.isLeast_of_total_lt` — with nothing pending, the distances are least
* `Search.isLeast_of_nearest` — the distance of a nearest pending vertex is least
* `Settled.take`, `Settled.lower` — a search that takes nearest pairs first takes every
  vertex once
* `potential_take`, `potential_lower_le` — the moves cannot go on forever
-/

namespace Math.WeightedPath

variable {α : Type*} {out : α → List (α × ℤ)} {s t u v : α} {w W : ℤ}

/-- `Path out s v W`: some directed path from `s` to `v` has total weight `W`. -/
inductive Path (out : α → List (α × ℤ)) (s : α) : α → ℤ → Prop
  | refl : Path out s s 0
  | snoc {v u : α} {w W : ℤ} (path : Path out s v W) (arc : (u, w) ∈ out v) :
      Path out s u (W + w)

theorem Path.head (arc : (u, w) ∈ out s) (path : Path out u t W) : Path out s t (w + W) := by
  induction path with
  | refl => simpa [add_comm] using Path.snoc Path.refl arc
  | @snoc v x w' W' _ arc' ih =>
    rw [← add_assoc]
    exact ih.snoc arc'

/-- No arc has a negative weight. -/
def Nonneg (out : α → List (α × ℤ)) : Prop := ∀ v, ∀ a ∈ out v, 0 ≤ a.2

theorem Path.nonneg (hout : Nonneg out) (path : Path out s v W) : 0 ≤ W := by
  induction path with
  | refl => exact le_rfl
  | snoc _ arc ih => exact add_nonneg ih (hout _ _ arc)

/-- A reachable vertex has a lightest path. -/
theorem exists_isLeast (hout : Nonneg out) (h : ∃ W, Path out s v W) :
    ∃ D, IsLeast {W | Path out s v W} D := by
  obtain ⟨D, hpath, hle⟩ := Int.exists_least_of_bdd ⟨0, fun W path => path.nonneg hout⟩ h
  exact ⟨D, hpath, fun W path => hle W path⟩

/-! ### A light path to every reachable vertex -/

/-- The weight of all arcs that leave `v`. -/
def outWeight (out : α → List (α × ℤ)) (v : α) : ℤ := ((out v).map Prod.snd).sum

theorem outWeight_nonneg (hout : Nonneg out) (v : α) : 0 ≤ outWeight out v := by
  refine List.sum_nonneg fun x hx => ?_
  obtain ⟨a, ha, rfl⟩ := List.mem_map.mp hx
  exact hout v a ha

theorem le_outWeight (hout : Nonneg out) (arc : (u, w) ∈ out v) : w ≤ outWeight out v := by
  refine List.single_le_sum (fun x hx => ?_) w (List.mem_map.mpr ⟨(u, w), arc, rfl⟩)
  obtain ⟨a, ha, rfl⟩ := List.mem_map.mp hx
  exact hout v a ha

/-- One arc that leaves a vertex of `A`. -/
def StepIn (out : α → List (α × ℤ)) (A : Finset α) (v u : α) : Prop :=
  v ∈ A ∧ ∃ w, (u, w) ∈ out v

/-- A walk inside `A` either avoids leaving `s` or can be cut after the last
time it leaves `s`. -/
theorem reaches_erase [DecidableEq α] {A : Finset α}
    (h : Relation.ReflTransGen (StepIn out A) v t) (s : α) :
    Relation.ReflTransGen (StepIn out (A.erase s)) v t ∨
      ∃ u w, (u, w) ∈ out s ∧ Relation.ReflTransGen (StepIn out (A.erase s)) u t := by
  induction h using Relation.ReflTransGen.head_induction_on with
  | refl => exact Or.inl .refl
  | @head x y hstep _ ih =>
    rcases ih with hclean | hcut
    · -- the rest of the walk never leaves `s`; does its first arc?
      obtain ⟨hx, w, arc⟩ := hstep
      by_cases hxs : x = s
      · subst hxs
        exact Or.inr ⟨y, w, arc, hclean⟩
      · exact Or.inl (.head ⟨Finset.mem_erase.mpr ⟨hxs, hx⟩, w, arc⟩ hclean)
    · exact Or.inr hcut

/-- A vertex reached inside `A` has a path no heavier than the arcs that leave `A`.
The induction is on `A`: after the last visit to `s` the walk stays in the rest. -/
theorem exists_path_le_sum [DecidableEq α] (hout : Nonneg out) (A : Finset α) :
    ∀ {s}, Relation.ReflTransGen (StepIn out A) s t →
      ∃ W, Path out s t W ∧ W ≤ ∑ v ∈ A, outWeight out v := by
  induction A using Finset.strongInduction with
  | H A ih =>
    intro s hreach
    have hsum : ∀ B ⊆ A, ∑ v ∈ B, outWeight out v ≤ ∑ v ∈ A, outWeight out v := fun B hB =>
      Finset.sum_le_sum_of_subset_of_nonneg hB fun v _ _ => outWeight_nonneg hout v
    rcases hreach.cases_head with rfl | ⟨x, ⟨hs, -⟩, -⟩
    · exact ⟨0, .refl, Finset.sum_nonneg fun v _ => outWeight_nonneg hout v⟩
    · have herase := Finset.erase_ssubset hs
      rcases reaches_erase hreach s with hclean | ⟨u, w, arc, hrest⟩
      · obtain ⟨W, hpath, hW⟩ := ih _ herase hclean
        exact ⟨W, hpath, hW.trans (hsum _ herase.subset)⟩
      · obtain ⟨W, hpath, hW⟩ := ih _ herase hrest
        refine ⟨w + W, hpath.head arc, ?_⟩
        rw [← Finset.add_sum_erase A _ hs]
        exact add_le_add (le_outWeight hout arc) hW

/-- A reachable vertex has a path no heavier than all arcs together. -/
theorem exists_path_le_total [Fintype α] [DecidableEq α] (hout : Nonneg out)
    (h : ∃ W, Path out s t W) : ∃ W, Path out s t W ∧ W ≤ ∑ v, outWeight out v := by
  obtain ⟨W, hpath⟩ := h
  refine exists_path_le_sum hout Finset.univ ?_
  induction hpath with
  | refl => exact .refl
  | snoc _ arc ih => exact ih.tail ⟨Finset.mem_univ _, _, arc⟩

/-! ### The search -/

/-- A search from `s` with tentative distances `dist` and pending pairs
`pending`. The distance `bound` stands for "not reached". Every reached vertex
is pending at its current distance or has relaxed arcs, except for the arcs in
`isOpen`, which the search is about to relax. -/
structure Search (out : α → List (α × ℤ)) (s : α) (bound : ℤ) (isOpen : α → α × ℤ → Prop)
    (dist : α → ℤ) (pending : Multiset (α × ℤ)) : Prop where
  source : dist s = 0
  le_bound : ∀ v, dist v ≤ bound
  attained : ∀ v, dist v ≠ bound → Path out s v (dist v)
  pending_le : ∀ p ∈ pending, dist p.1 ≤ p.2 ∧ p.2 < bound
  relaxed : ∀ v, dist v < bound → (v, dist v) ∈ pending ∨
    ∀ a ∈ out v, dist a.1 ≤ dist v + a.2 ∨ isOpen v a

/-- No arc is open. -/
def NoneOpen (α : Type*) : α → α × ℤ → Prop := fun _ _ => False

/-- The arcs in `rest` are open at `v`. -/
def OpenAt (v : α) (rest : List (α × ℤ)) : α → α × ℤ → Prop := fun x a => x = v ∧ a ∈ rest

namespace Search

variable {bound k : ℤ} {isOpen : α → α × ℤ → Prop} {dist : α → ℤ} {pending : Multiset (α × ℤ)}
  {rest : List (α × ℤ)}

theorem nonneg (h : Search out s bound isOpen dist pending) (hout : Nonneg out) (hbound : 0 ≤ bound)
    (v : α) : 0 ≤ dist v := by
  by_cases hv : dist v = bound
  · rw [hv]
    exact hbound
  · exact (h.attained v hv).nonneg hout

/-- The start: only the source is reached, and it is pending. -/
theorem init [DecidableEq α] (hbound : 0 < bound) :
    Search out s bound (NoneOpen α) (Function.update (fun _ => bound) s 0) {(s, 0)} := by
  have hother : ∀ v, v ≠ s → Function.update (fun _ => bound) s 0 v = bound :=
    fun v hv => Function.update_of_ne hv _ _
  refine ⟨Function.update_self .., fun v => ?_, fun v hv => ?_, fun p hp => ?_, fun v hv => ?_⟩
  · by_cases hvs : v = s
    · subst hvs
      simpa using hbound.le
    · exact (hother v hvs).le
  · by_cases hvs : v = s
    · subst hvs
      rw [Function.update_self]
      exact .refl
    · exact absurd (hother v hvs) hv
  · obtain rfl := Multiset.mem_singleton.mp hp
    simpa using hbound
  · by_cases hvs : v = s
    · subst hvs
      exact Or.inl (by simp)
    · exact absurd hv (hother v hvs).not_lt

/-- A pair above the current distance of its vertex is stale and may go. -/
theorem skip (h : Search out s bound (NoneOpen α) dist ((v, k) ::ₘ pending)) (hstale : dist v < k) :
    Search out s bound (NoneOpen α) dist pending := by
  refine ⟨h.source, h.le_bound, h.attained, ?_, fun x hx => ?_⟩
  · exact fun p hp => h.pending_le p (Multiset.mem_cons_of_mem hp)
  · rcases h.relaxed x hx with hmem | hdone
    · rcases Multiset.mem_cons.mp hmem with heq | hmem
      · obtain ⟨rfl, hk⟩ := Prod.mk.inj heq
        omega
      · exact Or.inl hmem
    · exact Or.inr hdone

/-- A pair that is not stale is at the current distance of its vertex. Taking
it opens all arcs of the vertex. -/
theorem take (h : Search out s bound (NoneOpen α) dist ((v, k) ::ₘ pending))
    (hcurrent : ¬ dist v < k) :
    dist v < bound ∧ Search out s bound (OpenAt v (out v)) dist pending := by
  obtain ⟨hle, hlt⟩ := h.pending_le (v, k) (Multiset.mem_cons_self _ _)
  dsimp only at hle hlt
  refine ⟨by omega, h.source, h.le_bound, h.attained, ?_, fun x hx => ?_⟩
  · exact fun p hp => h.pending_le p (Multiset.mem_cons_of_mem hp)
  · rcases h.relaxed x hx with hmem | hdone
    · rcases Multiset.mem_cons.mp hmem with heq | hmem
      · obtain ⟨rfl, -⟩ := Prod.mk.inj heq
        exact Or.inr fun a ha => Or.inr ⟨rfl, ha⟩
      · exact Or.inl hmem
    · exact Or.inr fun a ha => (hdone a ha).imp_right False.elim

/-- An arc that does not improve its target is relaxed as it stands. -/
theorem keep (h : Search out s bound (OpenAt v ((u, w) :: rest)) dist pending)
    (hle : dist u ≤ dist v + w) : Search out s bound (OpenAt v rest) dist pending := by
  refine ⟨h.source, h.le_bound, h.attained, h.pending_le, fun x hx => ?_⟩
  refine (h.relaxed x hx).imp_right fun hdone a ha => ?_
  rcases hdone a ha with hle' | ⟨rfl, hmem⟩
  · exact Or.inl hle'
  · rcases List.mem_cons.mp hmem with rfl | hmem
    · exact Or.inl hle
    · exact Or.inr ⟨rfl, hmem⟩

/-- An arc that improves its target lowers the distance and makes the target
pending again. -/
theorem lower [DecidableEq α] (h : Search out s bound (OpenAt v ((u, w) :: rest)) dist pending)
    (hout : Nonneg out) (hv : dist v < bound) (hw : 0 < w) (arc : (u, w) ∈ out v)
    (hlt : dist v + w < dist u) :
    Search out s bound (OpenAt v rest) (Function.update dist u (dist v + w))
      ((u, dist v + w) ::ₘ pending) := by
  have hpath : Path out s v (dist v) := h.attained v hv.ne
  have hpos : 0 ≤ dist v := hpath.nonneg hout
  have hother : ∀ x, x ≠ u → Function.update dist u (dist v + w) x = dist x :=
    fun x hx => Function.update_of_ne hx _ _
  -- no distance goes up
  have hdown : ∀ x, Function.update dist u (dist v + w) x ≤ dist x := by
    intro x
    by_cases hxu : x = u
    · subst hxu
      simpa using hlt.le
    · exact (hother x hxu).le
  refine ⟨?_, fun x => (hdown x).trans (h.le_bound x), fun x hx => ?_, fun p hp => ?_,
    fun x hx => ?_⟩
  · -- the source is at distance zero, which no arc improves
    have hsu : s ≠ u := by
      rintro rfl
      have := h.source
      omega
    rw [hother s hsu, h.source]
  · by_cases hxu : x = u
    · subst hxu
      rw [Function.update_self]
      exact hpath.snoc arc
    · rw [hother x hxu] at hx ⊢
      exact h.attained x hx
  · rcases Multiset.mem_cons.mp hp with rfl | hp
    · rw [Function.update_self]
      exact ⟨le_rfl, hlt.trans_le (h.le_bound u)⟩
    · obtain ⟨hle, hb⟩ := h.pending_le p hp
      exact ⟨(hdown p.1).trans hle, hb⟩
  · by_cases hxu : x = u
    · subst hxu
      rw [Function.update_self]
      exact Or.inl (Multiset.mem_cons_self _ _)
    · -- an arc relaxed before stays relaxed: distances only go down
      rw [hother x hxu] at hx ⊢
      rcases h.relaxed x hx with hmem | hdone
      · exact Or.inl (Multiset.mem_cons_of_mem hmem)
      · refine Or.inr fun a ha => ?_
        rcases hdone a ha with hle | ⟨rfl, hmem⟩
        · exact Or.inl ((hdown a.1).trans hle)
        · rcases List.mem_cons.mp hmem with rfl | hmem
          · exact Or.inl (by rw [Function.update_self])
          · exact Or.inr ⟨rfl, hmem⟩

/-- With all arcs of the current vertex relaxed, none is open. -/
theorem close (h : Search out s bound (OpenAt v []) dist pending) :
    Search out s bound (NoneOpen α) dist pending := by
  refine ⟨h.source, h.le_bound, h.attained, h.pending_le, fun x hx => ?_⟩
  refine (h.relaxed x hx).imp_right fun hdone a ha => (hdone a ha).imp_right ?_
  rintro ⟨-, hmem⟩
  exact (List.not_mem_nil hmem).elim

/-! ### The end of a search -/

/-- With nothing pending, no path is lighter than the distance of its end. -/
theorem le_of_path (h : Search out s bound (NoneOpen α) dist 0) (hout : Nonneg out)
    (path : Path out s v W) : dist v ≤ W := by
  induction path with
  | refl => exact h.source.le
  | @snoc x y w W path arc ih =>
    have hw := hout x (y, w) arc
    dsimp only at hw
    rcases (h.le_bound x).lt_or_eq with hx | hx
    · rcases h.relaxed x hx with hmem | hdone
      · exact absurd hmem (Multiset.notMem_zero _)
      · rcases hdone (y, w) arc with hle | hopen
        · exact hle.trans (by dsimp only; omega)
        · exact hopen.elim
    · -- a path through an unreached vertex weighs at least the bound
      have := h.le_bound y
      omega

/-- A distance below the bound is the least weight of a path. -/
theorem isLeast_of_lt (h : Search out s bound (NoneOpen α) dist 0) (hout : Nonneg out)
    (hv : dist v < bound) : IsLeast {W | Path out s v W} (dist v) :=
  ⟨h.attained v hv.ne, fun _ path => h.le_of_path hout path⟩

/-- When all arcs together weigh less than the bound, the bound is the distance
of exactly the unreachable vertices, and every other distance is least. -/
theorem isLeast_of_total_lt [Fintype α] [DecidableEq α]
    (h : Search out s bound (NoneOpen α) dist 0) (hout : Nonneg out)
    (htotal : ∑ v, outWeight out v < bound) (v : α) :
    (dist v = bound ↔ ¬ ∃ W, Path out s v W) ∧
      ((∃ W, Path out s v W) → IsLeast {W | Path out s v W} (dist v)) := by
  have hreached : (∃ W, Path out s v W) → dist v < bound := by
    intro hreach
    obtain ⟨W, path, hW⟩ := exists_path_le_total hout hreach
    exact ((h.le_of_path hout path).trans hW).trans_lt htotal
  refine ⟨⟨fun hv hreach => (hreached hreach).ne hv, fun hno => ?_⟩,
    fun hreach => h.isLeast_of_lt hout (hreached hreach)⟩
  by_contra hv
  exact hno ⟨_, h.attained v hv⟩

/-- When no pending pair is nearer than `v`, the distance of `v` is least. A path to a vertex
that is lighter than its distance weighs at least as much as the nearest pair. -/
theorem isLeast_of_nearest (h : Search out s bound (NoneOpen α) dist pending) (hout : Nonneg out)
    (hv : dist v < bound) (hnearest : ∀ p ∈ pending, dist v ≤ p.2) :
    IsLeast {W | Path out s v W} (dist v) := by
  have hpath : ∀ {u W}, Path out s u W → dist u ≤ W ∨ dist v ≤ W := by
    intro u W path
    induction path with
    | refl => exact Or.inl h.source.le
    | @snoc x y w W _ arc ih =>
      have hw : 0 ≤ w := hout x (y, w) arc
      by_cases hfar : dist v ≤ W
      · exact Or.inr (by omega)
      · have hx := ih.resolve_right hfar
        rcases h.relaxed x (by omega) with hmem | hdone
        · exact absurd (hnearest _ hmem) (by dsimp only; omega)
        · have harc := (hdone (y, w) arc).resolve_right id
          exact Or.inl (harc.trans (by dsimp only; omega))
  refine ⟨h.attained v hv.ne, fun W path => ?_⟩
  exact (hpath path).elim id id

end Search

/-! ### Nearest pairs first -/

/-- In a search that takes a nearest pair every time, the vertices in `done` have been taken:
their pending pairs are stale, no pending pair is nearer than they are, and the other vertices
that were reached are pending. -/
structure Settled (bound : ℤ) (dist : α → ℤ) (pending : Multiset (α × ℤ)) (done : List α) :
    Prop where
  nodup : pending.Nodup
  stale : ∀ p ∈ pending, p.1 ∈ done → dist p.1 < p.2
  nearer : ∀ v ∈ done, ∀ p ∈ pending, dist v ≤ p.2
  reached : ∀ v, dist v < bound → v ∈ done ∨ (v, dist v) ∈ pending

namespace Settled

variable {bound k : ℤ} {dist : α → ℤ} {pending : Multiset (α × ℤ)} {done : List α}

theorem init [DecidableEq α] (bound : ℤ) (s : α) :
    Settled bound (Function.update (fun _ => bound) s 0) {(s, 0)} [] where
  nodup := Multiset.nodup_singleton _
  stale _ _ hdone := absurd hdone List.not_mem_nil
  nearer _ hdone := absurd hdone List.not_mem_nil
  reached v hv := by
    by_cases hvs : v = s
    · subst hvs
      exact Or.inr (by simp)
    · rw [Function.update_of_ne hvs] at hv
      exact absurd hv (lt_irrefl _)

/-- A stale pair may go. -/
theorem skip (h : Settled bound dist ((v, k) ::ₘ pending) done) (hstale : dist v < k) :
    Settled bound dist pending done where
  nodup := (Multiset.nodup_cons.mp h.nodup).2
  stale p hp := h.stale p (Multiset.mem_cons_of_mem hp)
  nearer u hu p hp := h.nearer u hu p (Multiset.mem_cons_of_mem hp)
  reached u hu := by
    refine (h.reached u hu).imp_right fun hmem => ?_
    rcases Multiset.mem_cons.mp hmem with heq | hmem
    · obtain ⟨rfl, hk⟩ := Prod.mk.inj heq
      omega
    · exact hmem

/-- A nearest pair that is not stale belongs to a vertex that was not taken before. -/
theorem take (h : Settled bound dist ((v, k) ::ₘ pending) done) (hcurrent : ¬ dist v < k)
    (hle : ∀ p ∈ (v, k) ::ₘ pending, dist p.1 ≤ p.2)
    (hnearest : ∀ p ∈ (v, k) ::ₘ pending, k ≤ p.2) :
    v ∉ done ∧ dist v = k ∧ Settled bound dist pending (v :: done) := by
  have hself := Multiset.mem_cons_self (v, k) pending
  have hk : dist v = k := le_antisymm (hle _ hself) (not_lt.mp hcurrent)
  obtain ⟨hnew, hnodup⟩ := Multiset.nodup_cons.mp h.nodup
  refine ⟨fun hdone => hcurrent (h.stale _ hself hdone), hk, hnodup, fun p hp hdone => ?_,
    fun u hu p hp => ?_, fun u hu => ?_⟩
  · have hp' : p ∈ (v, k) ::ₘ pending := Multiset.mem_cons_of_mem hp
    rcases List.mem_cons.mp hdone with heq | hold
    · -- another pair of `v` is at another distance
      refine lt_of_le_of_ne (hle p hp') fun hdist => hnew ?_
      have hpair : p = (v, k) := Prod.ext heq (by rw [← hdist, heq, hk])
      exact hpair ▸ hp
    · exact h.stale p hp' hold
  · have hp' : p ∈ (v, k) ::ₘ pending := Multiset.mem_cons_of_mem hp
    rcases List.mem_cons.mp hu with rfl | hold
    · exact hk.le.trans (hnearest p hp')
    · exact h.nearer u hold p hp'
  · rcases h.reached u hu with hdone | hmem
    · exact Or.inl (List.mem_cons_of_mem _ hdone)
    · rcases Multiset.mem_cons.mp hmem with heq | hmem
      · exact Or.inl (List.mem_cons.mpr (Or.inl (Prod.mk.inj heq).1))
      · exact Or.inr hmem

/-- An arc of the vertex taken last improves only vertices that were not taken. -/
theorem lower [DecidableEq α] (h : Settled bound dist pending done)
    (hle : ∀ p ∈ pending, dist p.1 ≤ p.2) (hlast : ∀ x ∈ done, dist x ≤ dist v) (hw : 0 < w)
    (hlt : dist v + w < dist u) :
    u ∉ done ∧ Settled bound (Function.update dist u (dist v + w))
      ((u, dist v + w) ::ₘ pending) done := by
  have hnew : u ∉ done := by
    intro hu
    have := hlast u hu
    omega
  have hother : ∀ x, x ≠ u → Function.update dist u (dist v + w) x = dist x :=
    fun x hx => Function.update_of_ne hx _ _
  have hdone : ∀ x ∈ done, x ≠ u := by
    rintro x hx rfl
    exact hnew hx
  refine ⟨hnew, Multiset.nodup_cons.mpr ⟨fun hmem => ?_, h.nodup⟩, fun p hp hpdone => ?_,
    fun x hx p hp => ?_, fun x hx => ?_⟩
  · have hold := hle _ hmem
    dsimp only at hold
    omega
  · rw [hother p.1 (hdone p.1 hpdone)]
    rcases Multiset.mem_cons.mp hp with rfl | hp
    · exact absurd hpdone hnew
    · exact h.stale p hp hpdone
  · rw [hother x (hdone x hx)]
    rcases Multiset.mem_cons.mp hp with rfl | hp
    · exact (hlast x hx).trans (by dsimp only; omega)
    · exact h.nearer x hx p hp
  · by_cases hxu : x = u
    · subst hxu
      rw [Function.update_self]
      exact Or.inr (Multiset.mem_cons_self _ _)
    · rw [hother x hxu] at hx ⊢
      exact (h.reached x hx).imp_right fun hmem => Multiset.mem_cons_of_mem hmem

end Settled

/-! ### The search ends -/

/-- What the moves of a search use up. -/
def potential [Fintype α] (dist : α → ℤ) (pending : Multiset (α × ℤ)) : ℕ :=
  ∑ v, (dist v).toNat + pending.card

theorem potential_take [Fintype α] (dist : α → ℤ) (p : α × ℤ) (pending : Multiset (α × ℤ)) :
    potential dist (p ::ₘ pending) = potential dist pending + 1 := by
  simp [potential, add_assoc]

theorem potential_lower_le [Fintype α] [DecidableEq α] {dist : α → ℤ} {k : ℤ}
    (pending : Multiset (α × ℤ)) (hk : 0 ≤ k) (hlt : k < dist u) :
    potential (Function.update dist u k) ((u, k) ::ₘ pending) ≤ potential dist pending := by
  have hsum : ∀ d : α → ℤ, ∑ v, (d v).toNat =
      (d u).toNat + ∑ v ∈ Finset.univ.erase u, (d v).toNat :=
    fun d => (Finset.add_sum_erase _ _ (Finset.mem_univ u)).symm
  have hsame : ∑ v ∈ Finset.univ.erase u, (Function.update dist u k v).toNat =
      ∑ v ∈ Finset.univ.erase u, (dist v).toNat := by
    refine Finset.sum_congr rfl fun v hv => ?_
    rw [Function.update_of_ne (Finset.ne_of_mem_erase hv)]
  unfold potential
  rw [hsum, hsum dist, hsame, Function.update_self, Multiset.card_cons]
  omega

end Math.WeightedPath
