import Mathlib.Data.List.Chain
import Mathlib.Order.Lattice

/-!
# Stable sorting

Sorting by a key is stable when elements of one key stay in their order. Both ways to sort
that are used here keep this from step to step: neighbours in the wrong order are swapped,
and a new element goes behind all that are not greater.

## Main results

* `KeepsOrder.swap`, `inversions_swap` — a swap of two neighbours keeps the order of equal
  elements and lowers the number of inversions
* `pairwise_of_adjacent` — a list without inverted neighbours is sorted
* `IsStableSort.insert` — a new element is inserted
-/

namespace Math

variable {α κ : Type*} [LinearOrder κ] {key : α → κ} {xs ys zs pre post : List α} {a b c : α}

/-- `ys` has the elements of `xs`, and those of one key in the same order. -/
structure KeepsOrder (key : α → κ) (xs ys : List α) : Prop where
  perm : ys.Perm xs
  filter_eq : ∀ k, ys.filter (fun a => key a = k) = xs.filter fun a => key a = k

/-- `ys` is sorted as well. -/
structure IsStableSort (key : α → κ) (xs ys : List α) : Prop extends KeepsOrder key xs ys where
  sorted : ys.Pairwise fun a b => key a ≤ key b

theorem KeepsOrder.refl (key : α → κ) (xs : List α) : KeepsOrder key xs xs :=
  ⟨.refl xs, fun _ => rfl⟩

theorem KeepsOrder.trans (h : KeepsOrder key xs ys) (h' : KeepsOrder key ys zs) :
    KeepsOrder key xs zs :=
  ⟨h'.perm.trans h.perm, fun k => (h'.filter_eq k).trans (h.filter_eq k)⟩

/-! ### Swaps -/

/-- Neighbours of different keys are swapped. -/
theorem KeepsOrder.swap (pre post : List α) (h : key a ≠ key b) :
    KeepsOrder key (pre ++ a :: b :: post) (pre ++ b :: a :: post) := by
  refine ⟨(List.Perm.swap a b post).append_left pre, fun k => ?_⟩
  simp only [List.filter_append, List.filter_cons, decide_eq_true_eq]
  by_cases ha : key a = k
  · have hb : key b ≠ k := fun hb => h (ha.trans hb.symm)
    simp only [ha, hb, if_true, if_false]
  · simp only [ha, if_false]

/-- The pairs of elements that are in the wrong order. -/
def inversions (key : α → κ) : List α → ℕ
  | [] => 0
  | a :: xs => xs.countP (fun b => key b < key a) + inversions key xs

theorem inversions_swap (pre post : List α) (h : key b < key a) :
    inversions key (pre ++ b :: a :: post) < inversions key (pre ++ a :: b :: post) := by
  induction pre with
  | nil =>
    have hba : ¬ key a < key b := not_lt.mpr h.le
    simp only [List.nil_append, inversions, List.countP_cons, h, hba, decide_true, decide_false,
      Bool.false_eq_true, if_true, if_false]
    omega
  | cons c pre ih =>
    have hperm : (pre ++ b :: a :: post).Perm (pre ++ a :: b :: post) :=
      (List.Perm.swap a b post).append_left pre
    simp only [List.cons_append, inversions, hperm.countP_eq]
    omega

theorem pairwise_of_adjacent (h : ∀ pre a b post, xs = pre ++ a :: b :: post → key a ≤ key b) :
    xs.Pairwise fun a b => key a ≤ key b := by
  induction xs with
  | nil => exact .nil
  | cons a xs ih =>
    have hxs := ih fun pre b c post hsplit =>
      h (a :: pre) b c post (by rw [hsplit, List.cons_append])
    refine List.pairwise_cons.mpr ⟨fun c hc => ?_, hxs⟩
    -- the second element is between the first one and `c`
    cases xs with
    | nil => cases hc
    | cons b xs =>
      have hab := h [] a b xs rfl
      rcases List.mem_cons.mp hc with rfl | hc
      · exact hab
      · exact hab.trans ((List.pairwise_cons.mp hxs).1 c hc)

/-! ### Insertion -/

theorem isStableSort_nil (key : α → κ) : IsStableSort key [] [] := ⟨.refl key [], .nil⟩

theorem isStableSort_singleton (key : α → κ) (a : α) : IsStableSort key [a] [a] :=
  ⟨.refl key [a], List.pairwise_singleton ..⟩

/-- A new element goes before the first one that is greater. -/
theorem IsStableSort.insert (h : IsStableSort key xs (pre ++ post))
    (hpre : ∀ b ∈ pre, key b ≤ key a) (hpost : ∀ b ∈ post.head?, key a < key b) :
    IsStableSort key (xs ++ [a]) (pre ++ a :: post) := by
  obtain ⟨hsortedPre, hsortedPost, hbetween⟩ := List.pairwise_append.mp h.sorted
  have hgreater : ∀ b ∈ post, key a < key b := by
    intro b hb
    cases post with
    | nil => cases hb
    | cons c post =>
      have hc : key a < key c := hpost c rfl
      rcases List.mem_cons.mp hb with rfl | hb
      · exact hc
      · exact hc.trans_le ((List.pairwise_cons.mp hsortedPost).1 b hb)
  refine ⟨⟨?_, fun k => ?_⟩, ?_⟩
  · have hcons : (a :: (pre ++ post)).Perm (a :: xs) := h.perm.cons a
    exact List.perm_middle.trans (hcons.trans (List.perm_append_singleton a xs).symm)
  · rw [List.filter_append xs, ← h.filter_eq k, List.filter_append, List.filter_append,
      List.filter_cons]
    by_cases ha : key a = k
    · -- all elements of this key are in front
      have hnone : post.filter (fun b => key b = k) = [] := by
        rw [List.filter_eq_nil_iff]
        intro b hb
        have hlt := hgreater b hb
        simp only [decide_eq_true_eq]
        exact fun heq => absurd (ha.trans heq.symm) hlt.ne
      simp [ha, hnone]
    · simp [ha]
  · refine List.pairwise_append.mpr ⟨hsortedPre, ?_, fun b hb c hc => ?_⟩
    · exact List.pairwise_cons.mpr ⟨fun b hb => (hgreater b hb).le, hsortedPost⟩
    · rcases List.mem_cons.mp hc with rfl | hc
      · exact hpre b hb
      · exact hbetween b hb c hc

end Math
