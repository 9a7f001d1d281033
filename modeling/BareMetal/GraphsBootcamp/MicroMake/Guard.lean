import BareMetal.GraphsBootcamp.MicroMake.Search

/-!
# The guard of `has_cycle`

`has_cycle` exits on a number that is no task, but its guard lets the number of tasks
itself through, which is the index after the last cell of `state` and of `adj_list`.
Here the adjacency lists may hold any numbers and the tasks may have any colours.

The search goes through the targets of a task in order and stops at the first one that
is not finished. `Finishes` describes the tasks that it does finish and `MeetsGuard` the
ones from which it comes to the number that slips through.

## Main results

* `hasCycle_sound` — a call stays in range unless it comes to that number
* `MeetsGuard.hasCycle` — the calls that come to it
* `rejects_iff` — when all accesses of a call are in range
-/

namespace BareMetal.MicroMake

open CS UnionFind Relation

variable {n : ℕ}

/-- The search finishes a task that is black, or white with targets that it finishes. -/
inductive Finishes (graph : Graph n) : ℤ → Prop
  | black {t : Fin n} (h : graph.state t = 2) : Finishes graph (t : ℕ)
  | white {t : Fin n} (h : graph.state t = 0)
      (targets : ∀ target ∈ graph.adjList t, Finishes graph target) : Finishes graph (t : ℕ)

/-- After `k` white tasks, each entered from the one before once the earlier targets are
finished, the search comes to the number of tasks. -/
inductive MeetsGuard (graph : Graph n) : ℕ → ℤ → Prop
  | here : MeetsGuard graph 0 n
  | step {k : ℕ} {t : Fin n} {pre post : List ℤ} {target : ℤ} (h : graph.state t = 0)
      (split : graph.adjList t = pre ++ target :: post)
      (finished : ∀ earlier ∈ pre, Finishes graph earlier) (next : MeetsGuard graph k target) :
      MeetsGuard graph (k + 1) (t : ℕ)

/-- What the guard is for: no access of the call, at any depth, is out of range, and a number that
is no task is rejected before any access. -/
structure Rejects (search : Search n) (currentTask : ℤ) : Prop where
  inBounds : ∀ fuel index, hasCycle fuel search currentTask ≠ .error (.outOfBounds index)
  exits : ¬ InRange n currentTask → ∀ fuel,
    hasCycle (fuel + 1) search currentTask = .error (.exit 1 "")

variable {graph : Graph n} {s s' : Search n} {t u : Fin n} {k l : ℕ} {v w : ℤ}

/-! ### Finished tasks -/

theorem natCast_inj (h : ((t : ℕ) : ℤ) = ((u : ℕ) : ℤ)) : t = u := by
  rwa [Nat.cast_inj, Fin.val_inj] at h

theorem natCast_ne (t : Fin n) : ((t : ℕ) : ℤ) ≠ (n : ℤ) := by omega

/-- A step of the search from a white task. -/
def Edge (graph : Graph n) (v w : ℤ) : Prop :=
  ∃ t : Fin n, v = (t : ℕ) ∧ graph.state t = 0 ∧ w ∈ graph.adjList t

theorem Finishes.of_edge (h : Finishes graph v) (hedge : Edge graph v w) : Finishes graph w := by
  obtain ⟨u, hv, hwhite, hmem⟩ := hedge
  cases h with
  | @black t hblack =>
    obtain rfl := natCast_inj hv
    rw [hblack] at hwhite
    cases hwhite
  | @white t _ htargets =>
    obtain rfl := natCast_inj hv
    exact htargets w hmem

theorem Finishes.of_reflTransGen (h : Finishes graph v) (hreach : ReflTransGen (Edge graph) v w) :
    Finishes graph w := by
  induction hreach with
  | refl => exact h
  | tail _ hedge ih => exact ih.of_edge hedge

/-- No cycle goes through a task that the search finishes. -/
theorem Finishes.acyclic (h : Finishes graph v) : ¬ TransGen (Edge graph) v v := by
  induction h with
  | @black t hblack =>
    intro hcycle
    obtain ⟨w, ⟨u, hv, hwhite, -⟩, -⟩ := TransGen.head'_iff.mp hcycle
    obtain rfl := natCast_inj hv
    rw [hblack] at hwhite
    cases hwhite
  | @white t _ _ ih =>
    intro hcycle
    obtain ⟨w, hedge, hback⟩ := TransGen.head'_iff.mp hcycle
    obtain ⟨u, hv, -, hmem⟩ := id hedge
    obtain rfl := natCast_inj hv
    exact ih w hmem (.tail' hback hedge)

/-- A task that was grey before the search is not finished. -/
theorem Finishes.not_grey (h : Finishes graph (u : ℕ)) : graph.state u ≠ 1 := by
  generalize hv : ((u : ℕ) : ℤ) = v at h
  intro hgrey
  cases h with
  | black hblack =>
    obtain rfl := natCast_inj hv
    rw [hgrey] at hblack
    cases hblack
  | white hwhite =>
    obtain rfl := natCast_inj hv
    rw [hgrey] at hwhite
    cases hwhite

/-- A task that is finished does not lead to the guard. -/
theorem Finishes.not_meetsGuard (h : Finishes graph v) : ¬ MeetsGuard graph k v := by
  induction h generalizing k with
  | @black t hblack =>
    generalize hv : ((t : ℕ) : ℤ) = v
    rintro (_ | ⟨hwhite, -, -, -⟩)
    · exact natCast_ne t hv
    · obtain rfl := natCast_inj hv
      rw [hblack] at hwhite
      cases hwhite
  | @white t _ _ ih =>
    generalize hv : ((t : ℕ) : ℤ) = v
    rintro (_ | ⟨-, hsplit, -, hnext⟩)
    · exact natCast_ne t hv
    · obtain rfl := natCast_inj hv
      exact ih _ (by simp [hsplit]) hnext

/-- The first element without a property cuts a list in one way. -/
theorem split_unique {α : Type*} {p : α → Prop} {pre pre' post post' : List α} {x x' : α}
    (heq : pre ++ x :: post = pre' ++ x' :: post') (hpre : ∀ y ∈ pre, p y)
    (hpre' : ∀ y ∈ pre', p y) (hx : ¬ p x) (hx' : ¬ p x') : x = x' := by
  induction pre generalizing pre' with
  | nil =>
    cases pre' with
    | nil => exact (List.cons.inj heq).1
    | cons y pre' =>
      obtain rfl := (List.cons.inj heq).1
      exact absurd (hpre' x List.mem_cons_self) hx
  | cons y pre ih =>
    cases pre' with
    | nil =>
      obtain rfl := (List.cons.inj heq).1
      exact absurd (hpre y List.mem_cons_self) hx'
    | cons y' pre' =>
      exact ih (List.cons.inj heq).2 (fun z hz => hpre z (List.mem_cons_of_mem _ hz))
        fun z hz => hpre' z (List.mem_cons_of_mem _ hz)

/-- The way to the guard is unique, and so is its length. -/
theorem MeetsGuard.unique (h : MeetsGuard graph k v) (h' : MeetsGuard graph l v) : k = l := by
  induction h generalizing l with
  | here =>
    generalize hv : (n : ℤ) = v at h'
    cases h' with
    | here => rfl
    | step => exact absurd hv.symm (natCast_ne _)
  | @step k t pre post target _ hsplit hfinished hnext ih =>
    generalize hv : ((t : ℕ) : ℤ) = v at h'
    cases h' with
    | here => exact absurd hv (natCast_ne _)
    | step _ hsplit' hfinished' hnext' =>
      obtain rfl := natCast_inj hv
      obtain rfl := split_unique (hsplit.symm.trans hsplit') hfinished hfinished'
        (fun h => h.not_meetsGuard hnext) fun h => h.not_meetsGuard hnext'
      rw [ih hnext']

/-! ### A search under way -/

/-- The search `s` started on `graph`: it has greyed white tasks, and blackened those that it
has finished. -/
structure Underway (graph : Graph n) (s : Search n) : Prop where
  adjList : s.graph.adjList = graph.adjList
  state : ∀ u, s.graph.state u = graph.state u ∨ graph.state u = 0 ∧
    (s.graph.state u = 1 ∨ s.graph.state u = 2 ∧ Finishes graph (u : ℕ))

theorem underway_start (s : Search n) : Underway s.graph s := ⟨rfl, fun _ => Or.inl rfl⟩

theorem Underway.white (h : Underway graph s) (ht : s.graph.state t = 0) : graph.state t = 0 := by
  rcases h.state t with heq | ⟨hwhite, -⟩
  · rwa [← heq]
  · exact hwhite

theorem Underway.black (h : Underway graph s) (ht : s.graph.state t = 2) :
    Finishes graph (t : ℕ) := by
  rcases h.state t with heq | ⟨-, hgrey | ⟨-, hfinished⟩⟩
  · exact .black (heq.symm.trans ht)
  · rw [ht] at hgrey
    cases hgrey
  · exact hfinished

theorem Underway.grey (h : Underway graph s) (ht : s.graph.state t = 0) :
    Underway graph (s.grey t) where
  adjList := h.adjList
  state u := by
    by_cases hut : u = t
    · subst hut
      exact Or.inr ⟨h.white ht, Or.inl (state_grey_self s u)⟩
    · rw [state_grey_of_ne hut]
      exact h.state u

/-- A task that is finished. -/
def Search.black (s : Search n) (t : Fin n) : Search n :=
  let blackened : Search n :=
    { s with graph := { s.graph with state := Function.update s.graph.state t 2 } }
  (blackened.finish (t : ℕ)).record (t : ℕ) 0

theorem state_black (s : Search n) (t u : Fin n) :
    (s.black t).graph.state u = if u = t then 2 else s.graph.state u := by
  by_cases hut : u = t
  · subst hut
    simp [Search.black, Search.record, Search.finish]
  · simp [Search.black, Search.record, Search.finish, hut]

theorem Underway.finish (h : Underway graph s) (ht : graph.state t = 0)
    (hfinished : Finishes graph (t : ℕ)) : Underway graph (s.black t) where
  adjList := h.adjList
  state u := by
    rw [state_black]
    split_ifs with hut
    · subst hut
      exact Or.inr ⟨ht, Or.inr ⟨rfl, hfinished⟩⟩
    · exact h.state u

/-- The end of a call on a white task whose targets are finished. -/
theorem hasCycle_of_finished {fuel : ℕ} {s₂ : Search n} (ht : s.graph.state t = 0)
    (hedges : visitEdges (hasCycle fuel) (s.graph.adjList t) (s.grey t) = .ok (s₂, false)) :
    hasCycle (fuel + 1) s (t : ℕ) = .ok (s₂.black t, 0) := by
  rw [hasCycle_of_white fuel ht, hedges, Outcome.ok_bind, if_neg Bool.false_ne_true,
    Search.setState, Block.store_natCast]
  rfl

/-! ### What calls leave -/

/-- What a call on `v` may come to: it leaves the cells only on the way to the guard, and when it
answers that there is no cycle its task is finished. -/
def CallSound (graph : Graph n) (v : ℤ) : Outcome (Search n × ℤ) → Prop
  | .error (.outOfBounds _) => ∃ k, MeetsGuard graph k v
  | .error _ => True
  | .ok (s, res) => res ≠ 1 → Finishes graph v ∧ Underway graph s

/-- The same for the loop over the targets of a task. -/
def EdgesSound (graph : Graph n) (targets : List ℤ) : Outcome (Search n × Bool) → Prop
  | .error (.outOfBounds _) => ∃ pre target post k, targets = pre ++ target :: post ∧
      (∀ earlier ∈ pre, Finishes graph earlier) ∧ MeetsGuard graph k target
  | .error _ => True
  | .ok (_, true) => True
  | .ok (s, false) => (∀ target ∈ targets, Finishes graph target) ∧ Underway graph s

/-- One more target in front that is finished. -/
theorem EdgesSound.cons {targets : List ℤ} {result : Outcome (Search n × Bool)}
    (hfinished : Finishes graph v) (h : EdgesSound graph targets result) :
    EdgesSound graph (v :: targets) result := by
  match result, h with
  | .error (.outOfBounds _), ⟨pre, target, post, k, hsplit, hpre, hmeets⟩ =>
    exact ⟨v :: pre, target, post, k, congrArg (v :: ·) hsplit,
      List.forall_mem_cons.mpr ⟨hfinished, hpre⟩, hmeets⟩
  | .error (.exit _ _), _ | .error .overflow, _ | .error .divByZero, _
  | .error (.arrayBound _), _ | .error .outOfFuel, _ => trivial
  | .ok (_, true), _ => trivial
  | .ok (_, false), ⟨hall, h⟩ => exact ⟨List.forall_mem_cons.mpr ⟨hfinished, hall⟩, h⟩

/-- The loop over the targets. -/
theorem visitEdges_sound {fuel : ℕ}
    (hcall : ∀ s v, Underway graph s → CallSound graph v (hasCycle fuel s v))
    (targets : List ℤ) (h : Underway graph s) :
    EdgesSound graph targets (visitEdges (hasCycle fuel) targets s) := by
  induction targets generalizing s with
  | nil => exact ⟨fun _ hmem => absurd hmem List.not_mem_nil, h⟩
  | cons target targets ih =>
    have hfirst := hcall s target h
    rcases heq : hasCycle fuel s target with e | ⟨s₁, res⟩
    · rw [visitEdges_cons_stop heq]
      rw [heq] at hfirst
      cases e with
      | outOfBounds index =>
        obtain ⟨k, hmeets⟩ := hfirst
        exact ⟨[], target, targets, k, rfl, fun _ hmem => absurd hmem List.not_mem_nil, hmeets⟩
      | exit | overflow | divByZero | arrayBound | outOfFuel => trivial
    · by_cases hres : res = 1
      · subst hres
        rw [visitEdges_cons_found heq]
        trivial
      · rw [heq] at hfirst
        obtain ⟨hfinished, h₁⟩ := hfirst hres
        rw [visitEdges_cons_again heq hres]
        exact (ih h₁).cons hfinished

theorem hasCycle_outside (fuel : ℕ) (s : Search n) (hv : v < 0 ∨ v > n) :
    hasCycle (fuel + 1) s v = .error (.exit 1 "") :=
  if_pos hv

/-- The number of tasks gets past the guard. -/
theorem hasCycle_size (fuel : ℕ) (s : Search n) :
    hasCycle (fuel + 1) s n = .error (.outOfBounds n) := by
  have hload : s.graph.state.load n = .error (.outOfBounds n) := dif_neg (by omega)
  rw [hasCycle, if_neg (by omega), hload, Outcome.error_bind]

/-- A colour that is none ends the program. -/
theorem hasCycle_of_other (fuel : ℕ) (hgrey : s.graph.state t ≠ 1) (hblack : s.graph.state t ≠ 2)
    (hwhite : s.graph.state t ≠ 0) : hasCycle (fuel + 1) s (t : ℕ) = .error (.exit 1 "") := by
  rw [hasCycle, if_neg (by omega), Block.load_natCast, Outcome.ok_bind, if_neg hgrey,
    if_neg hblack, if_neg hwhite]

/-- A call on a white task. -/
theorem hasCycle_white_sound {fuel : ℕ} (h : Underway graph s) (ht : s.graph.state t = 0)
    (hedges : EdgesSound graph (graph.adjList t)
      (visitEdges (hasCycle fuel) (s.graph.adjList t) (s.grey t))) :
    CallSound graph (t : ℕ) (hasCycle (fuel + 1) s (t : ℕ)) := by
  have hwhite := h.white ht
  rcases heq : visitEdges (hasCycle fuel) (s.graph.adjList t) (s.grey t) with e | ⟨s₂, _ | _⟩
  · rw [hasCycle_of_white fuel ht, heq, Outcome.error_bind]
    rw [heq] at hedges
    cases e with
    | outOfBounds index =>
      obtain ⟨pre, target, post, k, hsplit, hpre, hmeets⟩ := hedges
      exact ⟨k + 1, .step hwhite hsplit hpre hmeets⟩
    | exit | overflow | divByZero | arrayBound | outOfFuel => trivial
  · rw [hasCycle_of_finished ht heq]
    rw [heq] at hedges
    obtain ⟨hall, h₂⟩ := hedges
    have hfinished : Finishes graph (t : ℕ) := .white hwhite hall
    exact fun _ => ⟨hfinished, h₂.finish hwhite hfinished⟩
  · rw [hasCycle_of_white fuel ht, heq, Outcome.ok_bind, if_pos rfl]
    exact fun hres => absurd rfl hres

/-- A call leaves the cells only on the way to the guard. The induction is on the depth of the
recursion. -/
theorem hasCycle_sound (graph : Graph n) (fuel : ℕ) (s : Search n) (v : ℤ)
    (h : Underway graph s) : CallSound graph v (hasCycle fuel s v) := by
  induction fuel generalizing s v with
  | zero => trivial
  | succ fuel ih =>
    by_cases hin : InRange n v
    · obtain ⟨t, rfl⟩ := hin.exists_eq
      by_cases hgrey : s.graph.state t = 1
      · rw [hasCycle_of_grey fuel hgrey]
        exact fun hres => absurd rfl hres
      by_cases hblack : s.graph.state t = 2
      · rw [hasCycle_of_black fuel hblack]
        exact fun _ => ⟨h.black hblack, h.adjList, h.state⟩
      by_cases hwhite : s.graph.state t = 0
      · have hedges := visitEdges_sound ih (s.graph.adjList t) (h.grey hwhite)
        rw [h.adjList] at hedges
        refine hasCycle_white_sound h hwhite ?_
        rwa [h.adjList]
      · rw [hasCycle_of_other fuel hgrey hblack hwhite]
        trivial
    · -- of the numbers that are no task only one gets past the guard
      by_cases hsize : v = n
      · subst hsize
        rw [hasCycle_size]
        exact ⟨0, .here⟩
      · unfold InRange at hin
        rw [hasCycle_outside fuel s (by omega)]
        trivial

/-! ### Calls that come to the guard -/

/-- The same tasks are grey. -/
def SameGrey (s s' : Search n) : Prop := ∀ u, s'.graph.state u = 1 ↔ s.graph.state u = 1

/-- With enough fuel the call answers that there is no cycle, and all that it has greyed is
finished. -/
def Completes (graph : Graph n) (s : Search n) (v : ℤ) : Prop :=
  ∃ bound s', (∀ fuel, bound ≤ fuel → hasCycle fuel s v = .ok (s', 0)) ∧
    Underway graph s' ∧ SameGrey s s'

/-- The loop over targets whose calls complete. -/
theorem visitEdges_completes (targets : List ℤ) (h : Underway graph s)
    (hcall : ∀ target ∈ targets, ∀ s', Underway graph s' → SameGrey s s' →
      Completes graph s' target) :
    ∃ bound s', (∀ fuel, bound ≤ fuel → visitEdges (hasCycle fuel) targets s = .ok (s', false)) ∧
      Underway graph s' ∧ SameGrey s s' := by
  induction targets generalizing s with
  | nil => exact ⟨0, s, fun _ _ => rfl, h, fun _ => Iff.rfl⟩
  | cons target targets ih =>
    obtain ⟨bound₁, s₁, hfirst, h₁, hgrey₁⟩ :=
      hcall target List.mem_cons_self s h fun _ => Iff.rfl
    obtain ⟨bound₂, s', hrest, h', hgrey'⟩ := ih h₁ fun later hlater s'' h'' hgrey'' =>
      hcall later (List.mem_cons_of_mem _ hlater) s'' h'' fun u => (hgrey'' u).trans (hgrey₁ u)
    refine ⟨max bound₁ bound₂, s', fun fuel hfuel => ?_, h', fun u => (hgrey' u).trans (hgrey₁ u)⟩
    rw [visitEdges_cons_again (hfirst fuel (by omega)) (by decide)]
    exact hrest fuel (by omega)

/-- A call on a black task changes no colour. -/
theorem Underway.completes_black (h : Underway graph s) (ht : s.graph.state t = 2) :
    Completes graph s (t : ℕ) := by
  refine ⟨1, s.record (t : ℕ) 0, fun fuel hfuel => ?_, ⟨h.adjList, h.state⟩, fun _ => Iff.rfl⟩
  obtain ⟨k, rfl⟩ := Nat.exists_eq_add_of_le' hfuel
  exact hasCycle_of_black k ht

/-- A call on a task that the search finishes, when no task below is grey. The induction is on
why it is finished. -/
theorem Finishes.completes (hv : Finishes graph v) (h : Underway graph s)
    (hbelow : ∀ u : Fin n, s.graph.state u = 1 → ¬ ReflTransGen (Edge graph) v (u : ℕ)) :
    Completes graph s v := by
  induction hv generalizing s with
  | @black t hblack =>
    apply h.completes_black
    rcases h.state t with heq | ⟨hwhite, -⟩
    · exact heq.trans hblack
    · rw [hblack] at hwhite
      cases hwhite
  | @white t hwhite htargets ih =>
    have hfinished : Finishes graph (t : ℕ) := .white hwhite htargets
    rcases h.state t with ht | ⟨-, hgrey | ⟨ht, -⟩⟩
    · rw [hwhite] at ht
      -- no target leads back to `t`, and none to a task that was grey before
      have hcall : ∀ target ∈ graph.adjList t, ∀ s', Underway graph s' →
          SameGrey (s.grey t) s' → Completes graph s' target := by
        intro target hmem s' h' hgrey'
        have hedge : Edge graph (t : ℕ) target := ⟨t, rfl, hwhite, hmem⟩
        refine ih target hmem h' fun u hu hreach => ?_
        rw [hgrey' u] at hu
        by_cases hut : u = t
        · subst hut
          exact hfinished.acyclic (.head' hedge hreach)
        · rw [state_grey_of_ne hut] at hu
          exact hbelow u hu (hreach.head hedge)
      obtain ⟨bound, s₂, hedges, h₂, hgrey₂⟩ :=
        visitEdges_completes (graph.adjList t) (h.grey ht) hcall
      refine ⟨bound + 1, s₂.black t, fun fuel hfuel => ?_, h₂.finish hwhite hfinished, fun u => ?_⟩
      · obtain ⟨k, rfl⟩ := Nat.exists_eq_add_of_le' (Nat.le_of_add_left_le hfuel)
        refine hasCycle_of_finished ht ?_
        rw [h.adjList]
        exact hedges k (by omega)
      · rw [state_black]
        split_ifs with hut
        · subst hut
          rw [ht]
          decide
        · rw [hgrey₂ u, state_grey_of_ne hut]
    · exact absurd .refl (hbelow t hgrey)
    · exact h.completes_black ht

/-- Targets in front that complete are passed over. -/
theorem visitEdges_append {call : Search n → ℤ → Outcome (Search n × ℤ)} {pre : List ℤ}
    (hpre : visitEdges call pre s = .ok (s', false)) (targets : List ℤ) :
    visitEdges call (pre ++ targets) s = visitEdges call targets s' := by
  induction pre generalizing s with
  | nil =>
    cases hpre
    rfl
  | cons target pre ih =>
    rcases heq : call s target with e | ⟨s₁, res⟩
    · rw [visitEdges_cons_stop heq] at hpre
      cases hpre
    · by_cases hres : res = 1
      · subst hres
        rw [visitEdges_cons_found heq] at hpre
        cases hpre
      · rw [visitEdges_cons_again heq hres] at hpre
        rw [List.cons_append, visitEdges_cons_again heq hres, ih hpre]

/-- A call on a task that leads to the guard leaves the cells, when the tasks that are grey are
farther from it. The induction is on the distance. -/
theorem MeetsGuard.hasCycle (hv : MeetsGuard graph k v) (h : Underway graph s)
    (habove : ∀ u : Fin n, graph.state u = 0 → s.graph.state u = 1 →
      ∃ l, k < l ∧ MeetsGuard graph l (u : ℕ)) :
    ∃ bound, ∀ fuel, bound ≤ fuel → MicroMake.hasCycle fuel s v = .error (.outOfBounds n) := by
  induction hv generalizing s with
  | here =>
    refine ⟨1, fun fuel hfuel => ?_⟩
    obtain ⟨m, rfl⟩ := Nat.exists_eq_add_of_le' hfuel
    exact hasCycle_size m s
  | @step k t pre post target hwhite hsplit hpre hnext ih =>
    have hmeets : MeetsGuard graph (k + 1) (t : ℕ) := .step hwhite hsplit hpre hnext
    -- `t` is neither on the way here nor finished
    have ht : s.graph.state t = 0 := by
      rcases h.state t with heq | ⟨-, hgrey | ⟨-, hfinished⟩⟩
      · exact heq.trans hwhite
      · obtain ⟨l, hlt, hfar⟩ := habove t hwhite hgrey
        have heq := hmeets.unique hfar
        omega
      · exact absurd hmeets hfinished.not_meetsGuard
    -- `t` is farther from the guard than what comes next
    have hgrey : ∀ u : Fin n, graph.state u = 0 → (s.grey t).graph.state u = 1 →
        ∃ l, k < l ∧ MeetsGuard graph l (u : ℕ) := by
      intro u hu hu'
      by_cases hut : u = t
      · subst hut
        exact ⟨k + 1, Nat.lt_succ_self k, hmeets⟩
      · rw [state_grey_of_ne hut] at hu'
        obtain ⟨l, hlt, hfar⟩ := habove u hu hu'
        exact ⟨l, Nat.lt_of_succ_lt hlt, hfar⟩
    -- the earlier targets complete, since no grey task is finished
    have hcall : ∀ earlier ∈ pre, ∀ s', Underway graph s' → SameGrey (s.grey t) s' →
        Completes graph s' earlier := by
      intro earlier hmem s' h' hsame
      refine (hpre earlier hmem).completes h' fun u hu hreach => ?_
      have hfinished := (hpre earlier hmem).of_reflTransGen hreach
      rcases (h.grey ht).state u with heq | ⟨hu', -⟩
      · rw [hsame u, heq] at hu
        exact hfinished.not_grey hu
      · obtain ⟨l, -, hfar⟩ := hgrey u hu' ((hsame u).mp hu)
        exact hfinished.not_meetsGuard hfar
    obtain ⟨bound₁, s₁, hedges, h₁, hsame⟩ := visitEdges_completes pre (h.grey ht) hcall
    obtain ⟨bound₂, hlast⟩ := ih h₁ fun u hu hu' => hgrey u hu ((hsame u).mp hu')
    refine ⟨max bound₁ bound₂ + 1, fun fuel hfuel => ?_⟩
    obtain ⟨m, rfl⟩ := Nat.exists_eq_add_of_le' (Nat.le_of_add_left_le hfuel)
    rw [hasCycle_of_white m ht, h.adjList, hsplit, visitEdges_append (hedges m (by omega)),
      visitEdges_cons_stop (hlast m (by omega)), Outcome.error_bind]

/-! ### When the guard is enough -/

/-- **When `has_cycle` rejects every invalid number.** On every graph, whatever numbers its lists
hold and whatever its colours are, a call accesses only cells that exist and exits on a number
that is no task, exactly when the search does not come to the number of tasks. -/
theorem rejects_iff (search : Search n) (currentTask : ℤ) :
    Rejects search currentTask ↔ ∀ k, ¬ MeetsGuard search.graph k currentTask := by
  constructor
  · intro h k hmeets
    obtain ⟨bound, hstop⟩ := hmeets.hasCycle (underway_start search) fun u hu hu' => by
      rw [hu] at hu'
      cases hu'
    exact h.inBounds bound n (hstop bound (Nat.le_refl bound))
  · intro hnever
    constructor
    · intro fuel index heq
      have hsound := hasCycle_sound search.graph fuel search currentTask (underway_start search)
      rw [heq] at hsound
      obtain ⟨k, hmeets⟩ := hsound
      exact hnever k hmeets
    · intro hout fuel
      have hne : currentTask ≠ n := by
        rintro rfl
        exact hnever 0 .here
      unfold InRange at hout
      exact hasCycle_outside fuel search (by omega)

/-- The number of tasks itself is such a number. -/
theorem not_rejects_size :
    hasCycle 1 ⟨allocGraph 3 2, [], []⟩ 3 = .error (.outOfBounds 3) ∧
      ¬ Rejects ⟨allocGraph 3 2, [], []⟩ 3 := by
  have hcall : hasCycle 1 ⟨allocGraph 3 2, [], []⟩ 3 = .error (.outOfBounds 3) := rfl
  exact ⟨hcall, fun h => h.inBounds 1 3 hcall⟩

end BareMetal.MicroMake
