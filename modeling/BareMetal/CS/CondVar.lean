import Mathlib.Data.Fintype.Defs
import Mathlib.Tactic.Common

/-!
# Condition variables

A thread that calls `pthread_cond_wait` gives up the lock and sleeps in one step.
`signal` wakes one of the threads that sleep on the variable, whichever the
scheduler picks, and does nothing when there is none; `broadcast` wakes them all.
A woken thread has to take the lock again before it goes on.

Threads are a function from their names to positions in their code. A condition
variable is described by the positions that are asleep on it and by where a
thread stands after it was woken.

## Main results

* `exists_awake_of_signal` — after a signal, not everybody sleeps
* `not_asleep_broadcast` — after a broadcast, nobody does
* `signal_iff`, `broadcast_iff` — what a wake-up does not change
* `exists_canSignal` — a signal can always be sent
* `asleep_signal` — who still sleeps was passed over for another sleeper
-/

namespace CS

/-- A condition variable, as the positions `κ` of a thread see it. -/
structure CondVar (κ : Type*) where
  asleep : κ → Bool
  woken : κ → κ
  not_asleep_woken : ∀ k, asleep k = true → asleep (woken k) = false

namespace CondVar

variable {ι κ : Type*} {cv : CondVar κ} {threads : ι → κ} {choice : Option ι}

/-- Whom a signal may wake: a sleeper, and nobody only when nobody sleeps. -/
def CanSignal (cv : CondVar κ) (threads : ι → κ) : Option ι → Prop
  | some i => cv.asleep (threads i) = true
  | none => ∀ i, cv.asleep (threads i) = false

instance [Fintype ι] : Decidable (cv.CanSignal threads choice) :=
  match choice with
  | some i => inferInstanceAs (Decidable (cv.asleep (threads i) = true))
  | none => inferInstanceAs (Decidable (∀ i, cv.asleep (threads i) = false))

/-- A signal always goes somewhere. -/
theorem exists_canSignal (cv : CondVar κ) (threads : ι → κ) :
    ∃ choice, cv.CanSignal threads choice := by
  by_cases h : ∃ i, cv.asleep (threads i) = true
  · obtain ⟨i, hi⟩ := h
    exact ⟨some i, hi⟩
  · push Not at h
    exact ⟨none, fun i => by simpa using h i⟩

/-- Wake every sleeper. -/
def broadcast (cv : CondVar κ) (threads : ι → κ) : ι → κ :=
  fun i => if cv.asleep (threads i) then cv.woken (threads i) else threads i

/-- What waking up does not change is not changed by a broadcast. -/
theorem broadcast_iff (P : κ → Prop) (hP : ∀ k, cv.asleep k = true → (P (cv.woken k) ↔ P k))
    (j : ι) : P (cv.broadcast threads j) ↔ P (threads j) := by
  unfold broadcast
  split_ifs with hj
  · exact hP _ hj
  · exact Iff.rfl

/-- A broadcast leaves nobody asleep. -/
theorem not_asleep_broadcast (j : ι) : cv.asleep (cv.broadcast threads j) = false := by
  unfold broadcast
  split_ifs with hj
  · exact cv.not_asleep_woken _ hj
  · simpa using hj

section Signal

variable [DecidableEq ι]

/-- Wake the chosen thread. -/
def signal (cv : CondVar κ) (threads : ι → κ) : Option ι → ι → κ
  | some i => Function.update threads i (cv.woken (threads i))
  | none => threads

/-- A thread that still sleeps after a signal slept before, and the signal went to another
sleeper. -/
theorem asleep_signal (h : cv.CanSignal threads choice) {j : ι}
    (hj : cv.asleep (cv.signal threads choice j) = true) :
    cv.signal threads choice j = threads j ∧
      ∃ i, i ≠ j ∧ choice = some i ∧ cv.asleep (threads i) = true := by
  cases choice with
  | none => cases hj.symm.trans (h j)
  | some i =>
    have hne : j ≠ i := by
      rintro rfl
      simp [signal, cv.not_asleep_woken _ h] at hj
    exact ⟨Function.update_of_ne hne _ _, i, hne.symm, rfl, h⟩

/-- What waking up does not change is not changed by a signal. -/
theorem signal_iff (P : κ → Prop) (hP : ∀ k, cv.asleep k = true → (P (cv.woken k) ↔ P k))
    (h : cv.CanSignal threads choice) (j : ι) :
    P (cv.signal threads choice j) ↔ P (threads j) := by
  cases choice with
  | none => exact Iff.rfl
  | some i =>
    by_cases hji : j = i
    · subst hji
      simpa [signal] using hP _ h
    · simp [signal, Function.update_of_ne hji]

/-- If some thread satisfies `P`, and every woken thread does, then after a signal some
thread that is awake satisfies `P`. -/
theorem exists_awake_of_signal (P : κ → Prop)
    (hwoken : ∀ k, cv.asleep k = true → P (cv.woken k)) (h : cv.CanSignal threads choice)
    (hP : ∃ i, P (threads i)) :
    ∃ i, P (cv.signal threads choice i) ∧ cv.asleep (cv.signal threads choice i) = false := by
  cases choice with
  | none =>
    obtain ⟨i, hi⟩ := hP
    exact ⟨i, hi, h i⟩
  | some i =>
    refine ⟨i, ?_, ?_⟩
    · simpa [signal] using hwoken _ h
    · simpa [signal] using cv.not_asleep_woken _ h

end Signal

end CondVar

end CS
