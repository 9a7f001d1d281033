import Mathlib.Algebra.GroupWithZero.Nat
import Mathlib.Data.List.Basic
import Mathlib.Tactic.Common

/-!
# Lists joined with a separator

`[x].intercalate ws` writes the lists `ws` one behind the other, with an `x` between them,
and `splitOn x` finds them again when they have no `x` of their own.

## Main results

* `reverse_intercalate` — read backwards, the lists are reversed and so is their order
* `length_intercalate` — the elements of the lists and the separators
* `notMem_of_mem_splitOn`, `mem_of_mem_splitOn` — what the parts of a list have in them
-/

namespace Math

variable {α : Type*} {x c : α} {sep w xs : List α} {ws ws' : List (List α)}

theorem intercalate_append (sep : List α) (h : ws ≠ []) (h' : ws' ≠ []) :
    sep.intercalate (ws ++ ws') = sep.intercalate ws ++ sep ++ sep.intercalate ws' := by
  induction ws with
  | nil => exact absurd rfl h
  | cons w ws ih =>
    cases ws with
    | nil =>
      rw [List.singleton_append, List.intercalate_cons_of_ne_nil h', List.intercalate_singleton]
    | cons v ws =>
      have hne : (v :: ws) ++ ws' ≠ [] := by simp
      rw [List.cons_append, List.intercalate_cons_of_ne_nil hne, ih (by simp),
        List.intercalate_cons_cons]
      simp only [List.append_assoc]

theorem reverse_intercalate (x : α) (ws : List (List α)) :
    ([x].intercalate ws).reverse = [x].intercalate (ws.map List.reverse).reverse := by
  induction ws with
  | nil => rfl
  | cons w ws ih =>
    cases ws with
    | nil => simp
    | cons v ws =>
      have hne : ((v :: ws).map List.reverse).reverse ≠ [] := by simp
      rw [List.intercalate_cons_cons, List.map_cons, List.reverse_cons,
        intercalate_append [x] hne (by simp), List.reverse_append, List.reverse_append, ih,
        List.intercalate_singleton, List.reverse_singleton, List.append_assoc]

theorem length_intercalate (x : α) (h : ws ≠ []) :
    ([x].intercalate ws).length + 1 = (ws.map List.length).sum + ws.length := by
  induction ws with
  | nil => exact absurd rfl h
  | cons w ws ih =>
    cases ws with
    | nil => simp
    | cons v ws =>
      have hrest := ih (by simp)
      rw [List.intercalate_cons_cons, List.length_append, List.length_append, Nat.add_assoc, hrest]
      simp only [List.map_cons, List.sum_cons, List.length_cons, List.length_nil]
      omega

theorem mem_intercalate_of_mem (sep : List α) (hw : w ∈ ws) (hc : c ∈ w) :
    c ∈ sep.intercalate ws := by
  obtain ⟨pre, post, rfl⟩ := List.append_of_mem hw
  have htail : c ∈ sep.intercalate (w :: post) := by
    cases post with
    | nil => simpa using hc
    | cons v post => simp [hc]
  by_cases hpre : pre = []
  · simpa [hpre] using htail
  · rw [intercalate_append sep hpre (by simp)]
    exact List.mem_append_right _ htail

theorem mem_of_mem_intercalate (h : c ∈ sep.intercalate ws) : c ∈ sep ∨ ∃ w ∈ ws, c ∈ w := by
  induction ws with
  | nil => cases h
  | cons w ws ih =>
    cases ws with
    | nil =>
      rw [List.intercalate_singleton] at h
      exact Or.inr ⟨w, List.mem_cons_self, h⟩
    | cons v ws =>
      rw [List.intercalate_cons_cons, List.mem_append, List.mem_append] at h
      rcases h with (hw | hsep) | hrest
      · exact Or.inr ⟨w, List.mem_cons_self, hw⟩
      · exact Or.inl hsep
      · rcases ih hrest with hsep | ⟨u, hu, hc⟩
        · exact Or.inl hsep
        · exact Or.inr ⟨u, List.mem_cons_of_mem _ hu, hc⟩

section SplitOn

variable [DecidableEq α]

/-- The parts have no separator. -/
theorem notMem_of_mem_splitOn (h : w ∈ xs.splitOn x) : x ∉ w := by
  induction xs generalizing w with
  | nil =>
    rw [List.splitOn_nil, List.mem_singleton] at h
    simp [h]
  | cons c xs ih =>
    rw [List.splitOn_cons_eq_if_modifyHead] at h
    split_ifs at h with hc
    · rcases List.mem_cons.mp h with rfl | h
      · exact List.not_mem_nil
      · exact ih h
    · -- the first part has one element more
      obtain ⟨v, vs, hsplit⟩ := List.exists_cons_of_ne_nil (List.splitOn_ne_nil x xs)
      rw [hsplit] at h ih
      rcases List.mem_cons.mp h with rfl | h
      · rw [List.mem_cons, not_or]
        exact ⟨fun heq => hc (by simp [heq]), ih List.mem_cons_self⟩
      · exact ih (List.mem_cons_of_mem _ h)

theorem mem_of_mem_splitOn (h : w ∈ xs.splitOn x) (hc : c ∈ w) : c ∈ xs := by
  have hjoin : [x].intercalate (xs.splitOn x) = xs := List.intercalate_splitOn x
  rw [← hjoin]
  exact mem_intercalate_of_mem [x] h hc

end SplitOn

end Math
