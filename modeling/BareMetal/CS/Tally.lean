import Mathlib.Algebra.BigOperators.Fin
import Mathlib.Algebra.Order.BigOperators.Group.Finset

/-!
# Counting threads by position

An invariant of threads that hold tokens adds up what each position stands for:
a thread between `sem_wait` and its locked section weighs one token, a thread
elsewhere weighs none. `tally weight threads` is that sum. What a position weighs
may differ from thread to thread.

## Main results

* `tally_move` — a thread that moves changes the sum by the difference of its
  two positions
* `le_tally`, `exists_pos_of_tally_pos` — no thread weighs more than all of them,
  and a weight comes from some thread
* `tally_lt`, `weight_eq_of_tally_eq` — a thread below the bound keeps the sum
  below it, so a full sum means that all threads are at the bound
* `tally_eq_card_mul_iff` — the same as an equivalence
* `countAt_eq_zero_iff`, `countAt_move` — the number of threads at a position
* `forall_move`, `exists_move_iff` — what holds at every position or at some position, before
  and after a move
-/

namespace CS

variable {ι κ : Type*} [Fintype ι] {weight : ι → κ → ℕ} {threads : ι → κ} {i : ι} {k : κ}
  {bound : ℕ}

/-- What all threads weigh together. -/
def tally (weight : ι → κ → ℕ) (threads : ι → κ) : ℕ := ∑ i, weight i (threads i)

/-- Threads that all weigh the same. -/
theorem tally_eq_card_mul (h : ∀ i, weight i (threads i) = bound) :
    tally weight threads = Fintype.card ι * bound := by
  simp [tally, h]

/-- Threads that all stand at one position. -/
theorem tally_const (weight : κ → ℕ) (n : ℕ) (k : κ) :
    tally (fun _ => weight) (fun _ : Fin n => k) = n * weight k := by
  rw [tally_eq_card_mul fun _ => rfl, Fintype.card_fin]

theorem tally_eq_zero (h : ∀ i, weight i (threads i) = 0) : tally weight threads = 0 := by
  simp [tally_eq_card_mul h]

/-- A thread weighs no more than all threads together. -/
theorem le_tally (weight : ι → κ → ℕ) (threads : ι → κ) (i : ι) :
    weight i (threads i) ≤ tally weight threads :=
  Finset.single_le_sum (f := fun j => weight j (threads j)) (fun _ _ => Nat.zero_le _)
    (Finset.mem_univ i)

/-- Weights that are not all zero come from some thread. -/
theorem exists_pos_of_tally_pos (h : 0 < tally weight threads) : ∃ i, 0 < weight i (threads i) := by
  by_contra hnone
  push Not at hnone
  have hzero : tally weight threads = 0 := tally_eq_zero fun i => Nat.le_zero.mp (hnone i)
  omega

theorem tally_congr {weight' : ι → κ → ℕ} (h : ∀ i, weight i (threads i) = weight' i (threads i)) :
    tally weight threads = tally weight' threads :=
  Finset.sum_congr rfl fun i _ => h i

theorem tally_add (weight weight' : ι → κ → ℕ) (threads : ι → κ) :
    tally (fun i k => weight i k + weight' i k) threads =
      tally weight threads + tally weight' threads :=
  Finset.sum_add_distrib

theorem tally_le (h : ∀ i, weight i (threads i) ≤ bound) :
    tally weight threads ≤ Fintype.card ι * bound := by
  have hsum := Finset.sum_le_card_nsmul Finset.univ (fun i => weight i (threads i)) bound
    fun i _ => h i
  simpa [tally] using hsum

/-- Threads that become heavier by no more than `bound` each. -/
theorem tally_le_add {threads' : ι → κ}
    (h : ∀ i, weight i (threads' i) ≤ weight i (threads i) + bound) :
    tally weight threads' ≤ tally weight threads + Fintype.card ι * bound := by
  have hsum := Finset.sum_le_sum fun i (_ : i ∈ Finset.univ) => h i
  rw [Finset.sum_add_distrib] at hsum
  simpa [tally] using hsum

/-- The threads that count are among those that may. -/
theorem tally_le_sum {p : κ → Prop} {q : ι → Prop} [DecidablePred p] [DecidablePred q]
    (w : ι → ℕ) (threads : ι → κ) :
    tally (fun i k => if p k ∧ q i then w i else 0) threads ≤ ∑ i with q i, w i := by
  unfold tally
  rw [Finset.sum_filter]
  refine Finset.sum_le_sum fun i _ => ?_
  by_cases hq : q i
  · by_cases hp : p (threads i) <;> simp [hq, hp]
  · simp [hq]

/-- One thread below the bound that all threads keep is enough for their sum. -/
theorem tally_lt (h : ∀ i, weight i (threads i) ≤ bound) (hi : weight i (threads i) < bound) :
    tally weight threads < Fintype.card ι * bound := by
  have hsum : ∑ j, weight j (threads j) < ∑ _j : ι, bound :=
    Finset.sum_lt_sum (fun j _ => h j) ⟨i, Finset.mem_univ i, hi⟩
  simpa [tally] using hsum

/-- When the sum is as large as it can be, every thread weighs as much as it can. -/
theorem weight_eq_of_tally_eq (h : ∀ i, weight i (threads i) ≤ bound)
    (hall : tally weight threads = Fintype.card ι * bound) (i : ι) :
    weight i (threads i) = bound := by
  by_contra hne
  have hlt := tally_lt h (lt_of_le_of_ne (h i) hne)
  omega

/-- The sum is full exactly when every thread is at the bound. -/
theorem tally_eq_card_mul_iff (h : ∀ i, weight i (threads i) ≤ bound) :
    tally weight threads = Fintype.card ι * bound ↔ ∀ i, weight i (threads i) = bound :=
  ⟨weight_eq_of_tally_eq h, tally_eq_card_mul⟩

/-- The number of threads at the position `k`. -/
def countAt [DecidableEq κ] (k : κ) (threads : ι → κ) : ℕ :=
  tally (fun _ k' => if k' = k then 1 else 0) threads

theorem countAt_eq_zero_iff [DecidableEq κ] : countAt k threads = 0 ↔ ∀ i, threads i ≠ k := by
  constructor
  · intro hzero i hi
    have hle := le_tally (fun _ k' => if k' = k then 1 else 0) threads i
    rw [countAt] at hzero
    simp only [hi, if_true] at hle
    omega
  · intro hne
    exact tally_eq_zero fun i => if_neg (hne i)

/-- All threads are at `k`. -/
theorem countAt_eq_card_iff [DecidableEq κ] :
    countAt k threads = Fintype.card ι ↔ ∀ i, threads i = k := by
  have hfull : countAt k threads = Fintype.card ι * 1 ↔
      ∀ i, (if threads i = k then 1 else 0) = 1 := by
    refine tally_eq_card_mul_iff fun i => ?_
    split_ifs <;> decide
  rw [← Nat.mul_one (Fintype.card ι), hfull]
  simp

theorem countAt_const [DecidableEq κ] (n : ℕ) (k k' : κ) :
    countAt k' (fun _ : Fin n => k) = n * if k = k' then 1 else 0 :=
  tally_const _ n k

section Update

variable [DecidableEq ι]

omit [Fintype ι] in
/-- What holds at the positions of all threads is kept by a thread that moves to such
a position. -/
theorem forall_move {P : ι → κ → Prop} (h : ∀ j, P j (threads j)) (i : ι) (hk : P i k) :
    ∀ j, P j (Function.update threads i k j) :=
  (Function.forall_update_iff threads P).mpr ⟨hk, fun j _ => h j⟩

omit [Fintype ι] in
/-- A thread that moves between two positions that have the property or two that have not. -/
theorem exists_move_iff {k' : κ} (P : κ → Prop) (hi : threads i = k) (hP : P k' ↔ P k) :
    (∃ j, P (Function.update threads i k' j)) ↔ ∃ j, P (threads j) := by
  refine exists_congr fun j => ?_
  rcases eq_or_ne j i with rfl | hne
  · rw [Function.update_self, hi, hP]
  · rw [Function.update_of_ne hne]

omit [Fintype ι] in
/-- A thread that moves to a position with the property. -/
theorem exists_move (P : κ → Prop) (hP : P k) : ∃ j, P (Function.update threads i k j) :=
  ⟨i, by rwa [Function.update_self]⟩

omit [Fintype ι] in
/-- A thread that moves to a position without the property. -/
theorem exists_of_move (P : κ → Prop) (hP : ¬ P k)
    (h : ∃ j, P (Function.update threads i k j)) : ∃ j, P (threads j) := by
  obtain ⟨j, hj⟩ := h
  rcases eq_or_ne j i with rfl | hne
  · rw [Function.update_self] at hj
    exact absurd hj hP
  · rw [Function.update_of_ne hne] at hj
    exact ⟨j, hj⟩

/-- A thread that moves takes its weight from one position to the other. -/
theorem tally_move (weight : ι → κ → ℕ) (hi : threads i = k) (k' : κ) :
    tally weight (Function.update threads i k') + weight i k =
      tally weight threads + weight i k' := by
  subst hi
  have hmem := Finset.mem_univ i
  have hrest : ∑ j ∈ Finset.univ.erase i, weight j (Function.update threads i k' j) =
      ∑ j ∈ Finset.univ.erase i, weight j (threads j) := by
    refine Finset.sum_congr rfl fun j hj => ?_
    rw [Function.update_of_ne (Finset.ne_of_mem_erase hj)]
  unfold tally
  rw [← Finset.add_sum_erase _ _ hmem,
    ← Finset.add_sum_erase _ (fun j => weight j (threads j)) hmem, hrest, Function.update_self]
  omega

/-- A thread that moves between positions of one weight. -/
theorem tally_move_eq (hi : threads i = k) {k' : κ} (hk : weight i k' = weight i k) :
    tally weight (Function.update threads i k') = tally weight threads := by
  have hmove := tally_move weight hi k'
  omega

/-- A thread that moves is counted at its new position. -/
theorem countAt_move [DecidableEq κ] (hi : threads i = k) (k' l : κ) :
    countAt l (Function.update threads i k') + (if k = l then 1 else 0) =
      countAt l threads + if k' = l then 1 else 0 :=
  tally_move _ hi k'

end Update

end CS
