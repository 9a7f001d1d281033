import BareMetal.CS.Outcome

/-!
# While loops

One pass of a `while` loop either goes round again with a new state or leaves
with a result; it may also stop the program. `loop` runs a body for a bounded
number of passes, `LeavesAfter` counts the passes a run really takes, and
`LeavesVia` lists the states they start from.
`Returns f r` says of a computation `f` with a bound on its loops that it returns
`r` under every bound that is large enough, and nothing else under the others.

## Main results

* `loop_eq_ok_iff` — a bounded run returns exactly when the loop leaves within
  the bound
* `loop_invariant`, `loop_stop` — the rules for partial correctness: how a loop leaves, and
  how it stops
* `loop_forever` — a loop that never leaves
* `exists_leavesVia` — the passes of a loop that leaves
* `TotalRule.loop` — the rule for total correctness: an invariant, a variant
  and a postcondition for both ways out of the loop
* `Returns.loop`, `Returns.bind`, `Returns.foldlM` — loops that leave return, and so do
  sequences of computations that return
* `Returns.nested`, `Returns.exists_leaves` — loops whose passes have loops of their own
* `Returns.exists_loop` — loops whose passes have none
-/

namespace CS

universe u v

/-- What one pass of a loop decides. -/
inductive Pass (σ : Type u) (ρ : Type v)
  | again (state : σ)
  | leave (result : ρ)
  deriving DecidableEq, Repr

variable {σ ρ : Type*} {body : σ → Outcome (Pass σ ρ)} {s s' : σ} {r r' : ρ}

/-- Run a loop for at most `fuel` passes. -/
def loop (body : σ → Outcome (Pass σ ρ)) : ℕ → σ → Outcome ρ
  | 0, _ => .error .outOfFuel
  | fuel + 1, s =>
    match body s with
    | .error e => .error e
    | .ok (.again s') => loop body fuel s'
    | .ok (.leave r) => .ok r

theorem loop_succ_again (h : body s = .ok (.again s')) (fuel : ℕ) :
    loop body (fuel + 1) s = loop body fuel s' := by
  simp only [loop, h]

theorem loop_succ_leave (h : body s = .ok (.leave r)) (fuel : ℕ) :
    loop body (fuel + 1) s = .ok r := by
  simp only [loop, h]

theorem loop_succ_stop {e : Stop} (h : body s = .error e) (fuel : ℕ) :
    loop body (fuel + 1) s = .error e := by
  simp only [loop, h]

/-- From `s` the loop goes round exactly `k` times and then leaves with `r`. -/
inductive LeavesAfter (body : σ → Outcome (Pass σ ρ)) : ℕ → σ → ρ → Prop
  | leave {s : σ} {r : ρ} (h : body s = .ok (.leave r)) : LeavesAfter body 0 s r
  | again {k : ℕ} {s s' : σ} {r : ρ} (h : body s = .ok (.again s'))
      (rest : LeavesAfter body k s' r) : LeavesAfter body (k + 1) s r

/-! ### What the first pass says about the whole loop -/

theorem leavesAfter_again_iff {k : ℕ} (hbody : body s = .ok (.again s')) :
    LeavesAfter body k s r ↔ ∃ j, k = j + 1 ∧ LeavesAfter body j s' r := by
  constructor
  · intro h
    cases h with
    | leave hleave => cases hbody.symm.trans hleave
    | @again j _ _ _ hagain rest =>
      cases hbody.symm.trans hagain
      exact ⟨j, rfl, rest⟩
  · rintro ⟨j, rfl, rest⟩
    exact .again hbody rest

theorem leavesAfter_leave_iff {k : ℕ} (hbody : body s = .ok (.leave r')) :
    LeavesAfter body k s r ↔ k = 0 ∧ r = r' := by
  constructor
  · intro h
    cases h with
    | leave hleave =>
      cases hbody.symm.trans hleave
      exact ⟨rfl, rfl⟩
    | again hagain => cases hbody.symm.trans hagain
  · rintro ⟨rfl, rfl⟩
    exact .leave hbody

theorem not_leavesAfter_of_stop {k : ℕ} {e : Stop} (hbody : body s = .error e) :
    ¬ LeavesAfter body k s r := by
  intro h
  cases h with
  | leave hleave => cases hbody.symm.trans hleave
  | again hagain => cases hbody.symm.trans hagain

/-- A loop that leaves does so in one way. -/
theorem LeavesAfter.unique {k k' : ℕ} (h : LeavesAfter body k s r)
    (h' : LeavesAfter body k' s r') : r' = r := by
  induction h generalizing k' with
  | leave hbody => exact ((leavesAfter_leave_iff hbody).mp h').2
  | again hbody _ ih =>
    obtain ⟨j, -, rest⟩ := (leavesAfter_again_iff hbody).mp h'
    exact ih rest

/-- A run with fuel for it returns what the loop leaves with. The induction is on
the fuel, and the first pass decides which case of the loop is met. -/
theorem loop_eq_ok_iff {fuel : ℕ} :
    loop body fuel s = .ok r ↔ ∃ k < fuel, LeavesAfter body k s r := by
  induction fuel generalizing s with
  | zero => simp [loop]
  | succ fuel ih =>
    rcases hbody : body s with e | (s' | r')
    · rw [loop_succ_stop hbody]
      constructor
      · intro h
        cases h
      · rintro ⟨k, -, hk⟩
        exact absurd hk (not_leavesAfter_of_stop hbody)
    · rw [loop_succ_again hbody, ih]
      constructor
      · rintro ⟨k, hlt, hk⟩
        exact ⟨k + 1, Nat.succ_lt_succ hlt, .again hbody hk⟩
      · rintro ⟨k, hlt, hk⟩
        obtain ⟨j, rfl, rest⟩ := (leavesAfter_again_iff hbody).mp hk
        exact ⟨j, Nat.lt_of_succ_lt_succ hlt, rest⟩
    · rw [loop_succ_leave hbody]
      constructor
      · intro h
        cases h
        exact ⟨0, Nat.zero_lt_succ fuel, .leave hbody⟩
      · rintro ⟨k, -, hk⟩
        obtain ⟨-, rfl⟩ := (leavesAfter_leave_iff hbody).mp hk
        rfl

/-- Two bounds that are both large enough give one result. -/
theorem loop_unique {fuel fuel' : ℕ} (h : loop body fuel s = .ok r)
    (h' : loop body fuel' s = .ok r') : r = r' := by
  obtain ⟨k, -, hk⟩ := loop_eq_ok_iff.mp h
  obtain ⟨k', -, hk'⟩ := loop_eq_ok_iff.mp h'
  exact hk'.unique hk

/-- **Partial correctness**: what every further pass keeps, and what it gives on the way
out. -/
theorem loop_invariant {I : σ → Prop} {Q : ρ → Prop}
    (hagain : ∀ s s', I s → body s = .ok (.again s') → I s')
    (hleave : ∀ s r, I s → body s = .ok (.leave r) → Q r) {fuel : ℕ} (h : I s)
    (hrun : loop body fuel s = .ok r) : Q r := by
  obtain ⟨k, -, hk⟩ := loop_eq_ok_iff.mp hrun
  clear hrun
  induction hk with
  | leave hbody => exact hleave _ _ h hbody
  | again hbody _ ih => exact ih (hagain _ _ h hbody)

/-- What stops a loop, other than its bound, stops one of its passes. -/
theorem loop_stop {I : σ → Prop} {Q : Stop → Prop}
    (hagain : ∀ s s', I s → body s = .ok (.again s') → I s')
    (hstop : ∀ s e, I s → body s = .error e → Q e) {fuel : ℕ} {e : Stop} (h : I s)
    (hrun : loop body fuel s = .error e) : e = .outOfFuel ∨ Q e := by
  induction fuel generalizing s with
  | zero =>
    cases hrun
    exact Or.inl rfl
  | succ fuel ih =>
    rcases hbody : body s with e' | (s' | r)
    · cases (loop_succ_stop hbody fuel).symm.trans hrun
      exact Or.inr (hstop s e h hbody)
    · rw [loop_succ_again hbody] at hrun
      exact ih (hagain s s' h hbody) hrun
    · cases (loop_succ_leave hbody fuel).symm.trans hrun

/-- **Divergence**: where every pass goes round again, no bound is enough. -/
theorem loop_forever {I : σ → Prop} (hagain : ∀ s, I s → ∃ s', body s = .ok (.again s') ∧ I s')
    (h : I s) (fuel : ℕ) : loop body fuel s = .error .outOfFuel := by
  induction fuel generalizing s with
  | zero => rfl
  | succ fuel ih =>
    obtain ⟨s', hbody, h'⟩ := hagain s h
    rw [loop_succ_again hbody]
    exact ih h'

/-! ### The states of a run -/

/-- From `s` the loop goes round in the states `visited`, one after the other, and then leaves
with `r`. -/
inductive LeavesVia (body : σ → Outcome (Pass σ ρ)) : List σ → σ → ρ → Prop
  | leave {s : σ} {r : ρ} (h : body s = .ok (.leave r)) : LeavesVia body [] s r
  | again {visited : List σ} {s s' : σ} {r : ρ} (h : body s = .ok (.again s'))
      (rest : LeavesVia body visited s' r) : LeavesVia body (s :: visited) s r

namespace LeavesVia

variable {visited : List σ}

theorem leavesAfter (h : LeavesVia body visited s r) : LeavesAfter body visited.length s r := by
  induction h with
  | leave hleave => exact .leave hleave
  | again hagain _ ih => exact .again hagain ih

/-- Every pass of the run has gone round. -/
theorem exists_again (h : LeavesVia body visited s r) {t : σ} (ht : t ∈ visited) :
    ∃ t', body t = .ok (.again t') := by
  induction h with
  | leave => exact absurd ht List.not_mem_nil
  | @again _ s s' _ hagain _ ih =>
    rcases List.mem_cons.mp ht with rfl | hrest
    · exact ⟨s', hagain⟩
    · exact ih hrest

end LeavesVia

/-- **The passes of a loop**: every further pass lowers the number in the invariant `P`, and `Q`
says which passes are still to come. -/
theorem exists_leavesVia {P : ℕ → σ → Prop} {Q : σ → List σ → Prop}
    (hpass : ∀ m s, P m s →
      (∃ k s', k < m ∧ body s = .ok (.again s') ∧ P k s' ∧
        ∀ visited, Q s' visited → Q s (s :: visited)) ∨
      ∃ r, body s = .ok (.leave r) ∧ Q s [])
    {m : ℕ} (h : P m s) : ∃ visited r, LeavesVia body visited s r ∧ Q s visited := by
  induction m using Nat.strongRecOn generalizing s with
  | ind m ih =>
    rcases hpass m s h with ⟨k, s', hlt, hagain, h', hvisited⟩ | ⟨r, hleave, hnone⟩
    · obtain ⟨visited, r, hrest, hQ⟩ := ih k hlt h'
      exact ⟨s :: visited, r, .again hagain hrest, hvisited visited hQ⟩
    · exact ⟨[], r, .leave hleave, hnone⟩

/-! ### Total correctness -/

/-- What is to be shown of a loop body for its loop to end in `Post`: an
invariant that every further pass keeps, a variant that every further pass
lowers, and the postcondition at both ways out. -/
structure TotalRule (body : σ → Outcome (Pass σ ρ)) (Inv : σ → Prop) (variant : σ → ℕ)
    (Post : Outcome ρ → Prop) : Prop where
  again : ∀ {s s'}, Inv s → body s = .ok (.again s') → Inv s' ∧ variant s' < variant s
  leave : ∀ {s r}, Inv s → body s = .ok (.leave r) → Post (.ok r)
  stop : ∀ {s e}, Inv s → body s = .error e → Post (.error e)

/-- **Total correctness.** Fuel above the variant decides the loop, and the
decision satisfies the postcondition. The induction is on the fuel, which stays
above the variant because every further pass lowers it. -/
theorem TotalRule.loop {Inv : σ → Prop} {variant : σ → ℕ} {Post : Outcome ρ → Prop}
    (rule : TotalRule body Inv variant Post) {fuel : ℕ} (hinv : Inv s)
    (hfuel : variant s < fuel) : Post (CS.loop body fuel s) := by
  induction fuel generalizing s with
  | zero => omega
  | succ fuel ih =>
    rcases hbody : body s with e | (s' | r)
    · rw [loop_succ_stop hbody]
      exact rule.stop hinv hbody
    · rw [loop_succ_again hbody]
      obtain ⟨hinv', hlt⟩ := rule.again hinv hbody
      exact ih hinv' (by omega)
    · rw [loop_succ_leave hbody]
      exact rule.leave hinv hbody

/-! ### Computations with a bound on their loops -/

/-- With enough fuel the result is `r`, and with less it is no other one. -/
structure Returns (f : ℕ → Outcome ρ) (r : ρ) : Prop where
  enough : ∃ bound, ∀ fuel, bound ≤ fuel → f fuel = .ok r
  eq_of_ok : ∀ {fuel r'}, f fuel = .ok r' → r' = r

namespace Returns

theorem exists_ok {f : ℕ → Outcome ρ} (h : Returns f r) : ∃ fuel, f fuel = .ok r := by
  obtain ⟨bound, hbound⟩ := h.enough
  exact ⟨bound, hbound bound (Nat.le_refl bound)⟩

theorem unique {f : ℕ → Outcome ρ} (h : Returns f r) (h' : Returns f r') : r = r' := by
  obtain ⟨fuel, hok⟩ := h.exists_ok
  exact h'.eq_of_ok hok

/-- A computation that uses no fuel. -/
theorem of_eq {f : ℕ → Outcome ρ} (h : ∀ fuel, f fuel = .ok r) : Returns f r where
  enough := ⟨0, fun fuel _ => h fuel⟩
  eq_of_ok hok := Except.ok.inj (hok.symm.trans (h _))

theorem congr {f g : ℕ → Outcome ρ} (h : Returns f r) (heq : ∀ fuel, g fuel = f fuel) :
    Returns g r := by
  rwa [funext heq]

theorem loop {k : ℕ} (h : LeavesAfter body k s r) :
    Returns (fun fuel => CS.loop body fuel s) r where
  enough := ⟨k + 1, fun _ hfuel => loop_eq_ok_iff.mpr ⟨k, hfuel, h⟩⟩
  eq_of_ok hok := by
    obtain ⟨j, -, hj⟩ := loop_eq_ok_iff.mp hok
    exact h.unique hj

theorem bind {α β : Type u} {f : ℕ → Outcome α} {g : α → ℕ → Outcome β} {a : α} {b : β}
    (hf : Returns f a) (hg : Returns (g a) b) :
    Returns (fun fuel => f fuel >>= fun x => g x fuel) b where
  enough := by
    obtain ⟨k, hk⟩ := hf.enough
    obtain ⟨l, hl⟩ := hg.enough
    refine ⟨max k l, fun fuel hfuel => ?_⟩
    rw [hk fuel (by omega), Outcome.ok_bind, hl fuel (by omega)]
  eq_of_ok hok := by
    obtain ⟨x, hx, hok⟩ := Outcome.bind_eq_ok.mp hok
    cases hf.eq_of_ok hx
    exact hg.eq_of_ok hok

/-- A computation whose result is only wrapped. -/
theorem map {α β : Type u} {f : ℕ → Outcome α} {a : α} (hf : Returns f a) (g : α → β) :
    Returns (fun fuel => f fuel >>= fun x => .ok (g x)) (g a) :=
  hf.bind (g := fun x _ => .ok (g x)) (.of_eq fun _ => rfl)

/-- A recursion to a bounded depth, whose body `f` makes its calls with what is left of the
bound. -/
theorem succ {f g : ℕ → Outcome ρ} (h : Returns f r) (hzero : g 0 = .error .outOfFuel)
    (hsucc : ∀ fuel, g (fuel + 1) = f fuel) : Returns g r where
  enough := by
    obtain ⟨bound, hbound⟩ := h.enough
    refine ⟨bound + 1, fun fuel hfuel => ?_⟩
    obtain ⟨k, rfl⟩ := Nat.exists_eq_add_of_le' (Nat.le_of_add_left_le hfuel)
    exact (hsucc k).trans (hbound k (by omega))
  eq_of_ok {fuel r'} hok := by
    cases fuel with
    | zero => cases hzero.symm.trans hok
    | succ fuel => exact h.eq_of_ok ((hsucc fuel).symm.trans hok)

/-- A loop that leaves at once. -/
theorem loop_leave (h : body s = .ok (.leave r)) : Returns (fun fuel => CS.loop body fuel s) r :=
  loop (.leave h)

/-- A loop that goes round once more. -/
theorem loop_again (h : body s = .ok (.again s'))
    (rest : Returns (fun fuel => CS.loop body fuel s') r) :
    Returns (fun fuel => CS.loop body fuel s) r :=
  rest.succ rfl (loop_succ_again h)

/-- A loop each of whose passes returns. From `s` it leaves with `r`. -/
inductive Leaves (body : ℕ → σ → Outcome (Pass σ ρ)) : σ → ρ → Prop
  | leave {s : σ} {r : ρ} (h : Returns (fun fuel => body fuel s) (.leave r)) : Leaves body s r
  | again {s s' : σ} {r : ρ} (h : Returns (fun fuel => body fuel s) (.again s'))
      (rest : Leaves body s' r) : Leaves body s r

/-- A loop whose passes have loops of their own. -/
theorem nested {body : ℕ → σ → Outcome (Pass σ ρ)} (h : Leaves body s r) :
    Returns (fun fuel => CS.loop (body fuel) fuel s) r where
  enough := by
    -- with fuel for all passes the loop leaves as one whose passes have no loops
    have hleaves : ∃ k bound, ∀ fuel, bound ≤ fuel → LeavesAfter (body fuel) k s r := by
      induction h with
      | leave h =>
        obtain ⟨bound, hbound⟩ := h.enough
        exact ⟨0, bound, fun fuel hfuel => .leave (hbound fuel hfuel)⟩
      | again h _ ih =>
        obtain ⟨bound, hbound⟩ := h.enough
        obtain ⟨k, bound', hrest⟩ := ih
        exact ⟨k + 1, max bound bound', fun fuel hfuel =>
          .again (hbound fuel (by omega)) (hrest fuel (by omega))⟩
    obtain ⟨k, bound, hbound⟩ := hleaves
    exact ⟨max bound (k + 1), fun fuel hfuel =>
      loop_eq_ok_iff.mpr ⟨k, by omega, hbound fuel (by omega)⟩⟩
  eq_of_ok {fuel r'} hok := by
    obtain ⟨k, -, hk⟩ := loop_eq_ok_iff.mp hok
    clear hok
    induction h generalizing k with
    | leave h =>
      cases hk with
      | leave hleave =>
        cases h.eq_of_ok hleave
        rfl
      | again hagain => cases h.eq_of_ok hagain
    | again h _ ih =>
      cases hk with
      | leave hleave => cases h.eq_of_ok hleave
      | again hagain rest =>
        cases h.eq_of_ok hagain
        exact ih _ rest

/-- **Total correctness** of a loop whose passes return: every further pass lowers the number
in the invariant, and a pass that leaves does so with a result in `Post`. -/
theorem exists_leaves {body : ℕ → σ → Outcome (Pass σ ρ)} {P : ℕ → σ → Prop} {Post : ρ → Prop}
    (hpass : ∀ m s, P m s →
      (∃ k s', k < m ∧ Returns (fun fuel => body fuel s) (.again s') ∧ P k s') ∨
        ∃ r, Returns (fun fuel => body fuel s) (.leave r) ∧ Post r)
    {m : ℕ} (h : P m s) : ∃ r, Leaves body s r ∧ Post r := by
  induction m using Nat.strongRecOn generalizing s with
  | ind m ih =>
    rcases hpass m s h with ⟨k, s', hlt, hagain, h'⟩ | ⟨r, hleave, hr⟩
    · obtain ⟨r, hrest, hr⟩ := ih k hlt h'
      exact ⟨r, .again hagain hrest, hr⟩
    · exact ⟨r, .leave hleave, hr⟩

/-- **Total correctness** of a loop whose passes have no loops of their own. -/
theorem exists_loop {P : ℕ → σ → Prop} {Q : ρ → Prop}
    (hpass : ∀ m s, P m s →
      (∃ k s', k < m ∧ body s = .ok (.again s') ∧ P k s') ∨ ∃ r, body s = .ok (.leave r) ∧ Q r)
    {m : ℕ} (h : P m s) : ∃ r, Returns (fun fuel => CS.loop body fuel s) r ∧ Q r := by
  have hreturns : ∀ m s, P m s →
      (∃ k s', k < m ∧ Returns (fun _ => body s) (.again s') ∧ P k s') ∨
        ∃ r, Returns (fun _ => body s) (.leave r) ∧ Q r := by
    intro m s h
    rcases hpass m s h with ⟨k, s', hlt, hagain, h'⟩ | ⟨r, hleave, hr⟩
    · exact Or.inl ⟨k, s', hlt, .of_eq fun _ => hagain, h'⟩
    · exact Or.inr ⟨r, .of_eq fun _ => hleave, hr⟩
  obtain ⟨r, hleaves, hr⟩ := exists_leaves hreturns h
  exact ⟨r, nested hleaves, hr⟩

/-- A `for` loop over `xs` whose passes all return. `P` says what the passes done so far
leave. -/
theorem foldlM {α β : Type u} {step : α → β → ℕ → Outcome α} {P : List β → α → Prop} {xs : List β}
    (hstep : ∀ pre x post a, pre ++ x :: post = xs → P pre a →
      ∃ a', Returns (step a x) a' ∧ P (pre ++ [x]) a') {a : α} (h : P [] a) :
    ∃ a', Returns (fun fuel => xs.foldlM (fun a x => step a x fuel) a) a' ∧ P xs a' := by
  -- the passes that are left, after those in `pre`
  have hrest : ∀ (ys pre : List β) (a : α), pre ++ ys = xs → P pre a →
      ∃ a', Returns (fun fuel => ys.foldlM (fun a x => step a x fuel) a) a' ∧ P xs a' := by
    intro ys
    induction ys with
    | nil =>
      intro pre a hsplit h
      refine ⟨a, .of_eq fun _ => rfl, ?_⟩
      rwa [← hsplit, List.append_nil]
    | cons y ys ih =>
      intro pre a hsplit h
      obtain ⟨a₁, hfirst, h₁⟩ := hstep pre y ys a hsplit h
      obtain ⟨a', hrest, h'⟩ := ih (pre ++ [y]) a₁ (by simpa using hsplit) h₁
      exact ⟨a', hfirst.bind hrest, h'⟩
  exact hrest xs [] a rfl h

/-- A `for` loop over the indices below `n`. `P` says what the passes below an index leave. -/
theorem foldlM_range {α : Type} {step : α → ℕ → ℕ → Outcome α} {P : ℕ → α → Prop} {n : ℕ}
    (hstep : ∀ i < n, ∀ a, P i a → ∃ a', Returns (step a i) a' ∧ P (i + 1) a') {a : α} (h : P 0 a) :
    ∃ a', Returns (fun fuel => (List.range n).foldlM (fun a i => step a i fuel) a) a' ∧ P n a' := by
  have hpass : ∀ pre i post a, pre ++ i :: post = List.range n → P pre.length a →
      ∃ a', Returns (step a i) a' ∧ P (pre ++ [i]).length a' := by
    intro pre i post a hsplit h
    have hindex := congrArg (fun xs : List ℕ => xs[pre.length]?) hsplit
    have hlt : pre.length < n := by
      rw [← List.length_range (n := n), ← hsplit]
      simp
    obtain rfl : i = pre.length := by simpa [hlt] using hindex
    simpa using hstep pre.length hlt a h
  simpa using foldlM (P := fun pre a => P pre.length a) hpass h

end Returns

/-- What every pass of a `for` loop keeps, in a run that returns. -/
theorem foldlM_invariant {α β : Type u} {step : α → β → Outcome α} {P : List β → α → Prop}
    (hstep : ∀ pre x a a', P pre a → step a x = .ok a' → P (pre ++ [x]) a')
    {xs : List β} {a a' : α} (h : P [] a) (hrun : xs.foldlM step a = .ok a') : P xs a' := by
  have hrest : ∀ (ys pre : List β) (a : α), P pre a → ys.foldlM step a = .ok a' →
      P (pre ++ ys) a' := by
    intro ys
    induction ys with
    | nil =>
      intro pre a h hrun
      cases hrun
      simpa using h
    | cons y ys ih =>
      intro pre a h hrun
      rw [List.foldlM_cons] at hrun
      obtain ⟨a₁, hfirst, hrest⟩ := Outcome.bind_eq_ok.mp hrun
      simpa using ih (pre ++ [y]) a₁ (hstep pre y a a₁ h hfirst) hrest
  exact hrest xs [] a h hrun

end CS
