import BareMetal.CS.Transition

/-!
# Runs that come to rest

A run is at rest in a state in which no step is possible. Threads that wait for each other are
at rest without having finished, and then they hang. Where every step lowers a number, runs
do come to rest, so that a program hangs either in some of them or in none.

Some steps do not count: a sleeper that may wake by itself is no reason for a program to go
on. The steps that do count are those that satisfy `p`.

## Main results

* `Run.append` — a run goes on from its end
* `Run.exists_stuck` — a run can be prolonged until it is at rest
* `Run.length_le` — a bound on the number of steps
* `neverHangs_iff` — where being finished at rest depends on a condition `C` alone, the
  program never hangs exactly when `C` holds
-/

namespace CS

variable {σ ε : Type*}

open Transition

/-- No step is possible. -/
def System.Stuck (sys : System σ ε) (s : σ) : Prop := ∀ e s', ¬ sys.step s e s'

/-- At rest, a step that counts is impossible. -/
theorem System.Stuck.elim {sys : System σ ε} {p : ε → Prop} {s s' : σ} {e : ε}
    (h : (sys.restrict p).Stuck s) (hstep : sys.step s e s') (hp : p e) : False :=
  h e s' ⟨hp, hstep⟩

/-- Wherever a run is at rest, as far as the steps in `p` go, it is done. -/
def System.NeverHangs (sys : System σ ε) (p : ε → Prop) (done : σ → Prop) : Prop :=
  ∀ trace s, Run sys trace s → (sys.restrict p).Stuck s → done s

/-- The steps in `p` lower the number of a state. -/
def System.Lowers (sys : System σ ε) (p : ε → Prop) (measure : σ → ℕ) : Prop :=
  ∀ trace s e s', Run sys trace s → p e → sys.step s e s' → measure s' < measure s

/-- The system from the state `s` on. -/
def System.startAt (sys : System σ ε) (s : σ) : System σ ε := { sys with start := (· = s) }

namespace Transition

variable {sys : System σ ε} {p : ε → Prop} {done : σ → Prop} {measure : σ → ℕ}
  {trace : Trace σ ε} {s : σ}

/-- A run goes on with what can happen from its end. -/
theorem Run.append {rest : Trace σ ε} {s' : σ} (hrun : Run sys trace s)
    (hrest : Run (sys.startAt s) rest s') : Run sys (trace ++ rest) s' := by
  induction hrest with
  | start hs =>
    obtain rfl := hs
    rwa [List.append_nil]
  | step _ hstep ih =>
    rw [← List.append_assoc]
    exact ih.step hstep

/-- The steps in `p` that are possible can be taken until none is left. -/
theorem Run.exists_stuck (hlowers : sys.Lowers p measure) (hrun : Run sys trace s) :
    ∃ rest s', Run sys (trace ++ rest) s' ∧ (sys.restrict p).Stuck s' := by
  generalize hn : measure s = n
  induction n using Nat.strongRecOn generalizing trace s with
  | ind n ih =>
    by_cases hstuck : (sys.restrict p).Stuck s
    · exact ⟨[], s, by rwa [List.append_nil], hstuck⟩
    · unfold System.Stuck at hstuck
      push Not at hstuck
      obtain ⟨e, s', hp, hstep⟩ := hstuck
      have hlt := hlowers trace s e s' hrun hp hstep
      obtain ⟨rest, s'', hrun', hstuck'⟩ := ih (measure s') (hn ▸ hlt) (hrun.step hstep) rfl
      rw [List.append_assoc] at hrun'
      exact ⟨_, s'', hrun', hstuck'⟩

/-- A run is no longer than the number of the state it has started from. -/
theorem Run.length_le (hlowers : sys.Lowers (fun _ => True) measure) {bound : ℕ}
    (hstart : ∀ s, sys.start s → measure s ≤ bound) (hrun : Run sys trace s) :
    trace.length + measure s ≤ bound := by
  induction hrun with
  | start hs => simpa using hstart _ hs
  | step hrun hstep ih =>
    have hlt := hlowers _ _ _ _ hrun trivial hstep
    rw [List.length_append, List.length_singleton]
    omega

/-- **When a program never hangs.** At rest it is finished exactly when `C` holds, and every
run can be brought to rest. -/
theorem neverHangs_iff {C : Prop} (hlowers : sys.Lowers p measure) {s₀ : σ} (hstart : sys.start s₀)
    (hrest : ∀ trace s, Run sys trace s → (sys.restrict p).Stuck s → (done s ↔ C)) :
    sys.NeverHangs p done ↔ C := by
  constructor
  · intro hnever
    obtain ⟨rest, s, hrun, hstuck⟩ := (Run.start hstart).exists_stuck hlowers
    exact (hrest _ _ hrun hstuck).mp (hnever _ _ hrun hstuck)
  · intro hC trace s hrun hstuck
    exact (hrest trace s hrun hstuck).mpr hC

end Transition

end CS
