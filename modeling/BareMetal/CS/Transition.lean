import Mathlib.Data.List.Basic
import Mathlib.Tactic.Common

/-!
# Transition systems and their runs

Threads that share memory are modelled by the steps they can take one at a time:
every interleaving is a run. A run keeps its trace, the events in order, each
with the state it left, so that a property can speak about what happened and
about every stage of a run as well as about the state it ends in.

## Main results

* `Run.invariant` — what holds at the start and is kept by every step holds after
  every run
* `Run.invariant_of_trace` — the same for runs whose steps meet a condition
* `Run.keeps`, `Run.since` — what holds as long as, or once it has happened that, a step
  meets a condition
* `Stage.run` — every stage of a run ends a run of its own
* `Run.next_stage` — a step of a trace leads to a stage
* `Run.stages_iff` — a property of all stages as a condition on the steps
* `Run.reach` — a run can be prolonged to a goal that every step brings nearer
-/

namespace CS

/-- States that a system may start in, and steps labelled by events. -/
structure System (σ ε : Type*) where
  start : σ → Prop
  step : σ → ε → σ → Prop

/-- The system in which only the events that satisfy `p` happen. -/
def System.restrict {σ ε : Type*} (sys : System σ ε) (p : ε → Prop) : System σ ε where
  start := sys.start
  step s e s' := p e ∧ sys.step s e s'

namespace Transition

variable {σ ε : Type*} {sys : System σ ε}

/-- The events of a run in order, each with the state in which it happened. -/
abbrev Trace (σ ε : Type*) := List (σ × ε)

/-- The events of a trace. -/
def events (trace : Trace σ ε) : List ε := trace.map Prod.snd

@[simp] theorem events_concat (trace : Trace σ ε) (s : σ) (e : ε) :
    events (trace ++ [(s, e)]) = events trace ++ [e] := by
  simp [events]

/-- A finite run of `sys`: it has the given trace and ends in `s`. -/
inductive Run (sys : System σ ε) : Trace σ ε → σ → Prop
  | start {s : σ} : sys.start s → Run sys [] s
  | step {trace : Trace σ ε} {s s' : σ} {e : ε} :
      Run sys trace s → sys.step s e s' → Run sys (trace ++ [(s, e)]) s'

theorem Run.of_restrict {p : ε → Prop} {trace : Trace σ ε} {s : σ}
    (hrun : Run (sys.restrict p) trace s) : Run sys trace s := by
  induction hrun with
  | start hs => exact .start hs
  | step _ hstep ih => exact ih.step hstep.2

/-- A run that ends in `s` after `trace` was in state `v` after `pre`. -/
def Stage (trace : Trace σ ε) (s : σ) (pre : Trace σ ε) (v : σ) : Prop :=
  pre = trace ∧ v = s ∨ ∃ e rest, trace = pre ++ (v, e) :: rest

theorem Stage.last (trace : Trace σ ε) (s : σ) : Stage trace s trace s := Or.inl ⟨rfl, rfl⟩

theorem stage_nil {s v : σ} {pre : Trace σ ε} : Stage [] s pre v ↔ pre = [] ∧ v = s := by
  simp [Stage]

/-- The stages of a longer run: its end, and the stages before it. -/
theorem stage_concat {trace pre : Trace σ ε} {s s' v : σ} {e : ε} :
    Stage (trace ++ [(s, e)]) s' pre v ↔
      (pre = trace ++ [(s, e)] ∧ v = s') ∨ Stage trace s pre v := by
  unfold Stage
  refine or_congr_right ⟨?_, ?_⟩
  · rintro ⟨e', rest, heq⟩
    -- the step after `v` is the last one, or it belongs to the shorter trace
    rcases List.eq_nil_or_concat rest with rfl | ⟨rest, last, rfl⟩
    · obtain ⟨rfl, hlast⟩ := List.append_inj' heq rfl
      cases hlast
      exact Or.inl ⟨rfl, rfl⟩
    · rw [List.concat_eq_append, ← List.cons_append, ← List.append_assoc] at heq
      exact Or.inr ⟨e', rest, (List.append_inj' heq rfl).1⟩
  · rintro (⟨rfl, rfl⟩ | ⟨e', rest, rfl⟩)
    · exact ⟨e, [], rfl⟩
    · exact ⟨e', rest ++ [(s, e)], by simp⟩

/-- Every stage of a run ends a run of its own. -/
theorem Stage.run {trace pre : Trace σ ε} {s v : σ} (hrun : Run sys trace s)
    (h : Stage trace s pre v) : Run sys pre v := by
  induction hrun with
  | start hs =>
    obtain ⟨rfl, rfl⟩ := stage_nil.mp h
    exact .start hs
  | step hrun hstep ih =>
    rcases stage_concat.mp h with ⟨rfl, rfl⟩ | h
    · exact hrun.step hstep
    · exact ih h

/-- The steps taken before a stage are steps of the run. -/
theorem Stage.isPrefix {trace pre : Trace σ ε} {s v : σ} (h : Stage trace s pre v) :
    pre <+: trace := by
  rcases h with ⟨rfl, -⟩ | ⟨e, rest, rfl⟩
  · exact List.prefix_rfl
  · exact List.prefix_append _ _

/-- A step of a trace starts at a stage of the run and leads to the next one. -/
theorem Run.next_stage {trace : Trace σ ε} {s v : σ} {e : ε} (hrun : Run sys trace s)
    (h : (v, e) ∈ trace) :
    ∃ pre v', Run sys pre v ∧ sys.step v e v' ∧ Stage trace s (pre ++ [(v, e)]) v' := by
  induction hrun with
  | start => cases h
  | @step trace u u' e' hrun hstep ih =>
    rcases List.mem_append.mp h with hold | hnew
    · obtain ⟨pre, v', hpre, hstep', hstage⟩ := ih hold
      exact ⟨pre, v', hpre, hstep', stage_concat.mpr (Or.inr hstage)⟩
    · cases List.mem_singleton.mp hnew
      exact ⟨trace, u', hrun, hstep, Stage.last _ _⟩

/-! ### Invariants -/

/-- An invariant of the events so far and the current state. -/
theorem Run.invariant {I : List ε → σ → Prop} (hstart : ∀ s, sys.start s → I [] s)
    (hstep : ∀ es s e s', I es s → sys.step s e s' → I (es ++ [e]) s')
    {trace : Trace σ ε} {s : σ} (hrun : Run sys trace s) : I (events trace) s := by
  induction hrun with
  | start hs => exact hstart _ hs
  | step _ hs ih =>
    rw [events_concat]
    exact hstep _ _ _ _ ih hs

/-- An invariant of the runs whose steps all meet the condition `C`. -/
theorem Run.invariant_of_trace {I : List ε → σ → Prop} {C : σ → ε → Prop}
    (hstart : ∀ s, sys.start s → I [] s)
    (hstep : ∀ es s e s', I es s → C s e → sys.step s e s' → I (es ++ [e]) s')
    {trace : Trace σ ε} {s : σ} (hrun : Run sys trace s)
    (hC : ∀ v e, (v, e) ∈ trace → C v e) : I (events trace) s := by
  induction hrun with
  | start hs => exact hstart _ hs
  | step _ hs ih =>
    rw [events_concat]
    refine hstep _ _ _ _ (ih fun v e hmem => hC v e (List.mem_append_left _ hmem)) ?_ hs
    exact hC _ _ (List.mem_append_right _ (List.mem_singleton_self _))

/-- What is kept by the steps that meet the condition `C`, in the states that runs reach. -/
theorem Run.keeps {I : σ → Prop} {C : σ → ε → Prop} (hstart : ∀ s, sys.start s → I s)
    (hstep : ∀ trace s e s', Run sys trace s → I s → C s e → sys.step s e s' → I s')
    {trace : Trace σ ε} {s : σ} (hrun : Run sys trace s) (hC : ∀ v e, (v, e) ∈ trace → C v e) :
    I s := by
  induction hrun with
  | start hs => exact hstart _ hs
  | step hrun hs ih =>
    refine hstep _ _ _ _ hrun (ih fun v e hmem => hC v e (List.mem_append_left _ hmem)) ?_ hs
    exact hC _ _ (List.mem_append_right _ (List.mem_singleton_self _))

/-- What a step that meets the condition `C` brings about, and every later step keeps. -/
theorem Run.since {I : σ → Prop} {C : σ → ε → Prop}
    (hstep : ∀ trace s e s', Run sys trace s → I s ∨ C s e → sys.step s e s' → I s')
    {trace : Trace σ ε} {s : σ} (hrun : Run sys trace s) (hC : ∃ v e, (v, e) ∈ trace ∧ C v e) :
    I s := by
  induction hrun with
  | start =>
    obtain ⟨v, e, hmem, -⟩ := hC
    cases hmem
  | step hrun hs ih =>
    obtain ⟨v, e, hmem, hmeets⟩ := hC
    rcases List.mem_append.mp hmem with hold | hnew
    · exact hstep _ _ _ _ hrun (Or.inl (ih ⟨v, e, hold, hmeets⟩)) hs
    · cases List.mem_singleton.mp hnew
      exact hstep _ _ _ _ hrun (Or.inr hmeets) hs

/-- A property that a step keeps exactly when it meets the condition `C` holds at every
stage exactly when all steps meet `C`. -/
theorem Run.stages_iff {P : Trace σ ε → σ → Prop} {C : σ → ε → Prop}
    (hstart : ∀ s, sys.start s → P [] s)
    (hstep : ∀ trace s e s', Run sys trace s → (∀ pre v, Stage trace s pre v → P pre v) →
      sys.step s e s' → (P (trace ++ [(s, e)]) s' ↔ C s e))
    {trace : Trace σ ε} {s : σ} (hrun : Run sys trace s) :
    (∀ pre v, Stage trace s pre v → P pre v) ↔ ∀ v e, (v, e) ∈ trace → C v e := by
  induction hrun with
  | start hs =>
    refine iff_of_true (fun pre v hstage => ?_) fun v e hmem => absurd hmem List.not_mem_nil
    obtain ⟨rfl, rfl⟩ := stage_nil.mp hstage
    exact hstart _ hs
  | @step trace s s' e hrun hs ih =>
    constructor
    · intro hP v e' hmem
      have hold := fun pre v hstage => hP pre v (stage_concat.mpr (Or.inr hstage))
      rcases List.mem_append.mp hmem with hmem | hlast
      · exact ih.mp hold v e' hmem
      · cases List.mem_singleton.mp hlast
        exact (hstep _ _ _ _ hrun hold hs).mp (hP _ _ (Stage.last _ _))
    · intro hC pre v hstage
      have hold := ih.mpr fun v e' hmem => hC v e' (List.mem_append_left _ hmem)
      rcases stage_concat.mp hstage with ⟨rfl, rfl⟩ | hstage
      · have hlast := hC s e (List.mem_append_right _ (List.mem_singleton_self _))
        exact (hstep _ _ _ _ hrun hold hs).mpr hlast
      · exact hold pre v hstage

/-! ### Progress -/

/-- A run can be prolonged to the goal: from a state that satisfies `P n` and is not there,
some step leads to a state that satisfies `P` with a smaller number. -/
theorem Run.reach {P : ℕ → σ → Prop} {goal : σ → Prop}
    (hP : ∀ n s, P n s → goal s ∨ ∃ m e s', m < n ∧ sys.step s e s' ∧ P m s')
    {trace : Trace σ ε} {s : σ} {n : ℕ} (hrun : Run sys trace s) (h : P n s) :
    ∃ rest s', Run sys (trace ++ rest) s' ∧ goal s' := by
  induction n using Nat.strongRecOn generalizing trace s with
  | ind n ih =>
    rcases hP n s h with hgoal | ⟨m, e, s', hlt, hstep, h'⟩
    · exact ⟨[], s, by simpa using hrun, hgoal⟩
    · obtain ⟨rest, s'', hrun', hgoal⟩ := ih m hlt (hrun.step hstep) h'
      rw [List.append_assoc] at hrun'
      exact ⟨_, s'', hrun', hgoal⟩

end Transition

end CS
