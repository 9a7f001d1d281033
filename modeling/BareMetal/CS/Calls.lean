import BareMetal.CS.Loop
import Mathlib.Data.List.Induction

/-!
# Sequences of calls

A program calls the functions of a module one after the other, each in the state that the
one before has left. `AllCalls C calls` says that every call meets a condition, which may
depend on the calls before it.

## Main results

* `allCalls_iff_forall_and` — conditions on each call alone and on the whole sequence
* `CallRule.exists_returns`, `CallRule.of_returns` — all calls of a sequence return, with an
  invariant, exactly when each of them meets the condition under which a call returns
* `CallRule.exits_iff` — the process ends in one of the calls exactly when one does not meet it
-/

namespace CS

universe u

variable {σ ε : Type u} {C D W : List ε → ε → Prop} {calls pre : List ε} {e : ε}

/-- Every call meets `C`. -/
def AllCalls (C : List ε → ε → Prop) (calls : List ε) : Prop :=
  ∀ pre e post, calls = pre ++ e :: post → C pre e

theorem allCalls_nil (C : List ε → ε → Prop) : AllCalls C [] := by
  intro pre e post heq
  simp at heq

theorem allCalls_concat : AllCalls C (calls ++ [e]) ↔ AllCalls C calls ∧ C calls e := by
  constructor
  · intro h
    refine ⟨fun pre d post heq => h pre d (post ++ [e]) ?_, h calls e [] rfl⟩
    rw [heq, List.append_assoc, List.cons_append]
  · rintro ⟨hcalls, he⟩ pre d post heq
    -- the call `d` is the last one, or it is one of those before
    rcases List.eq_nil_or_concat post with rfl | ⟨post, last, rfl⟩
    · obtain ⟨rfl, hlast⟩ := List.append_inj' heq rfl
      cases hlast
      exact he
    · rw [List.concat_eq_append, ← List.cons_append, ← List.append_assoc] at heq
      exact hcalls pre d post (List.append_inj' heq rfl).1

/-- Conditions that agree on a call once they hold of those before it. -/
theorem allCalls_congr (h : ∀ pre e, AllCalls D pre → (C pre e ↔ D pre e)) :
    AllCalls C calls ↔ AllCalls D calls := by
  induction calls using List.reverseRecOn with
  | nil => exact iff_of_true (allCalls_nil C) (allCalls_nil D)
  | append_singleton calls e ih =>
    rw [allCalls_concat, allCalls_concat, ih]
    exact and_congr_right fun hcalls => h calls e hcalls

/-- A condition on single calls, and one on the whole sequence that every prefix inherits. -/
theorem allCalls_iff_forall_and {P : ε → Prop} {Q : List ε → Prop} (hnil : Q [])
    (hbefore : ∀ pre e, Q (pre ++ [e]) → Q pre)
    (hC : ∀ pre e, Q pre → (C pre e ↔ P e ∧ Q (pre ++ [e]))) :
    AllCalls C calls ↔ (∀ e ∈ calls, P e) ∧ Q calls := by
  induction calls using List.reverseRecOn with
  | nil => exact iff_of_true (allCalls_nil C) ⟨fun _ hmem => absurd hmem List.not_mem_nil, hnil⟩
  | append_singleton calls e ih =>
    rw [allCalls_concat, ih, List.forall_mem_append, List.forall_mem_singleton]
    constructor
    · rintro ⟨⟨hcalls, hQ⟩, hlast⟩
      obtain ⟨he, hQ'⟩ := (hC calls e hQ).mp hlast
      exact ⟨⟨hcalls, he⟩, hQ'⟩
    · rintro ⟨⟨hcalls, he⟩, hQ'⟩
      have hQ := hbefore calls e hQ'
      exact ⟨⟨hcalls, hQ⟩, (hC calls e hQ).mpr ⟨he, hQ'⟩⟩

/-- With enough fuel the process ends. -/
def Exits {ρ : Type*} (f : ℕ → Outcome ρ) : Prop :=
  ∃ bound, ∀ fuel, bound ≤ fuel → ∃ status message, f fuel = .error (.exit status message)

theorem Returns.not_exits {ρ : Type*} {f : ℕ → Outcome ρ} {r : ρ} (h : Returns f r) :
    ¬ Exits f := by
  obtain ⟨bound, hbound⟩ := h.enough
  rintro ⟨bound', hexits⟩
  obtain ⟨status, message, hexit⟩ := hexits (max bound bound') (Nat.le_max_right _ _)
  cases (hbound _ (Nat.le_max_left _ _)).symm.trans hexit

/-- What is to be shown of a call to know when all calls of a sequence return: `I` says what
the calls so far leave, and `C` is the condition under which one more call returns. `W` holds
of all calls. -/
structure CallRule (step : σ → ε → ℕ → Outcome σ) (W C : List ε → ε → Prop)
    (I : List ε → σ → Prop) : Prop where
  returns : ∀ pre e s, W pre e → I pre s → C pre e →
    ∃ s', Returns (step s e) s' ∧ I (pre ++ [e]) s'
  of_ok : ∀ pre e s fuel s', W pre e → I pre s → step s e fuel = .ok s' → C pre e

namespace CallRule

variable {step : σ → ε → ℕ → Outcome σ} {I : List ε → σ → Prop} {s s' : σ}

/-- A sequence whose calls all meet the condition returns. -/
theorem exists_returns (rule : CallRule step W C I) (hW : AllCalls W calls)
    (hC : AllCalls C calls) (h : I [] s) :
    ∃ s', Returns (fun fuel => calls.foldlM (fun s e => step s e fuel) s) s' ∧ I calls s' := by
  refine Returns.foldlM (P := I) (fun pre e post s hsplit hI => ?_) h
  exact rule.returns pre e s (hW pre e post hsplit.symm) hI (hC pre e post hsplit.symm)

/-- In a sequence that returns all calls have met the condition. -/
theorem of_returns (rule : CallRule step W C I) (hW : AllCalls W calls) (h : I [] s)
    (hreturns : Returns (fun fuel => calls.foldlM (fun s e => step s e fuel) s) s') :
    AllCalls C calls ∧ I calls s' := by
  obtain ⟨fuel, hrun⟩ := hreturns.exists_ok
  have hinvariant := foldlM_invariant (P := fun pre s => AllCalls W pre → AllCalls C pre ∧ I pre s)
    (fun pre e s s' hpre hok hW => ?_) (fun _ => ⟨allCalls_nil C, h⟩) hrun
  · exact hinvariant hW
  · obtain ⟨hW, he⟩ := allCalls_concat.mp hW
    obtain ⟨hC, hI⟩ := hpre hW
    have hC' := rule.of_ok pre e s fuel s' he hI hok
    obtain ⟨s'', hreturns, hI'⟩ := rule.returns pre e s he hI hC'
    rw [hreturns.eq_of_ok hok]
    exact ⟨allCalls_concat.mpr ⟨hC, hC'⟩, hI'⟩

/-- Where a call that does not meet the condition ends the process, so does a sequence with such
a call. The first one decides. -/
theorem exits_iff (rule : CallRule step W C I) (hW : AllCalls W calls) (h : I [] s)
    (hexit : ∀ pre e s, I pre s → ¬ C pre e → Exits (step s e)) :
    Exits (fun fuel => calls.foldlM (fun s e => step s e fuel) s) ↔ ¬ AllCalls C calls := by
  constructor
  · intro hexits hC
    obtain ⟨s', hreturns, -⟩ := rule.exists_returns hW hC h
    exact hreturns.not_exits hexits
  · intro hC
    induction calls using List.reverseRecOn with
    | nil => exact absurd (allCalls_nil C) hC
    | append_singleton calls e ih =>
      obtain ⟨hbefore, -⟩ := allCalls_concat.mp hW
      by_cases hC' : AllCalls C calls
      · -- the last call is the one
        obtain ⟨s', hreturns, hI⟩ := rule.exists_returns hbefore hC' h
        have hlast : ¬ C calls e := fun he => hC (allCalls_concat.mpr ⟨hC', he⟩)
        obtain ⟨bound, hbound⟩ := hreturns.enough
        obtain ⟨bound', hexit⟩ := hexit calls e s' hI hlast
        refine ⟨max bound bound', fun fuel hfuel => ?_⟩
        obtain ⟨status, message, hstep⟩ := hexit fuel (by omega)
        refine ⟨status, message, ?_⟩
        dsimp only
        rw [List.foldlM_append, hbound fuel (by omega), Outcome.ok_bind, List.foldlM_cons, hstep,
          Outcome.error_bind]
      · obtain ⟨bound, hbound⟩ := ih hbefore hC'
        refine ⟨bound, fun fuel hfuel => ?_⟩
        obtain ⟨status, message, hstop⟩ := hbound fuel hfuel
        refine ⟨status, message, ?_⟩
        dsimp only at hstop ⊢
        rw [List.foldlM_append, hstop, Outcome.error_bind]

end CallRule

end CS
