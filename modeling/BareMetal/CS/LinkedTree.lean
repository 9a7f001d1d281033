import BareMetal.CS.CellHeap
import BareMetal.CS.LinkedList
import BareMetal.Math.SearchTree

/-!
# Binary trees on a heap

A cell of a binary tree points to the cells below it on its left and on its right. `Linked`
ties the cells of a heap to a tree whose elements are addresses and values, and `addresses`
of a tree lists where its cells are, from left to right.

## Main results

* `Linked.node` — a cell is linked to two trees that do not contain it
* `nodup_node` — which addresses must differ
-/

namespace CS

namespace LinkedTree

open Math.SearchTree

variable {α : Type*}

/-- A cell: a value and pointers to the cells on its left and on its right. -/
structure Node (α : Type*) where
  value : α
  left : Option ℕ
  right : Option ℕ
  deriving DecidableEq, Repr

/-- The cells that are allocated. -/
abbrev Heap (α : Type*) := ℕ → Option (Node α)

/-- Where the cells are. -/
def addresses (t : BinaryTree (ℕ × α)) : List ℕ := LinkedList.addresses (inorder t)

/-- The pointer to the cell on top. -/
def root : BinaryTree (ℕ × α) → Option ℕ
  | .nil => none
  | .node (a, _) _ _ => some a

/-- Every cell points to those below it. -/
def Linked (heap : Heap α) : BinaryTree (ℕ × α) → Prop
  | .nil => True
  | .node (a, v) l r => heap a = some ⟨v, root l, root r⟩ ∧ Linked heap l ∧ Linked heap r

variable {heap heap' : Heap α} {l r t : BinaryTree (ℕ × α)} {a b : ℕ} {v : α}

@[simp] theorem addresses_nil : addresses (.nil : BinaryTree (ℕ × α)) = [] := rfl

@[simp] theorem addresses_node :
    addresses (.node (a, v) l r) = addresses l ++ a :: addresses r := by
  simp [addresses]

theorem nodup_node :
    (addresses (.node (a, v) l r)).Nodup ↔
      a ∉ addresses l ∧ a ∉ addresses r ∧ (addresses l).Nodup ∧ (addresses r).Nodup ∧
        ∀ b ∈ addresses l, b ∉ addresses r := by
  rw [addresses_node, List.nodup_middle, List.nodup_cons, List.nodup_append', List.mem_append,
    not_or, and_assoc]
  rfl

/-- A tree depends on its own cells only. -/
theorem Linked.frame (h : Linked heap t) (hheap : ∀ b ∈ addresses t, heap' b = heap b) :
    Linked heap' t := by
  induction t with
  | nil => trivial
  | node x l r ihl ihr =>
    obtain ⟨a, v⟩ := x
    obtain ⟨hcell, hl, hr⟩ := h
    rw [addresses_node] at hheap
    refine ⟨(hheap a (by simp)).trans hcell, ihl hl fun b hb => ?_, ihr hr fun b hb => ?_⟩
    · exact hheap b (List.mem_append_left _ hb)
    · exact hheap b (List.mem_append_right _ (List.mem_cons_of_mem _ hb))

theorem Linked.allocated (h : Linked heap t) (hb : b ∈ addresses t) : heap b ≠ none := by
  induction t with
  | nil => cases hb
  | node x l r ihl ihr =>
    obtain ⟨a, v⟩ := x
    obtain ⟨hcell, hl, hr⟩ := h
    rw [addresses_node] at hb
    rcases List.mem_append.mp hb with hb | hb
    · exact ihl hl hb
    · rcases List.mem_cons.mp hb with rfl | hb
      · rw [hcell]
        exact Option.some_ne_none _
      · exact ihr hr hb

/-- The cell at `a` becomes the top of a tree. -/
theorem Linked.node (hl : Linked heap l) (hr : Linked heap r) (hal : a ∉ addresses l)
    (har : a ∉ addresses r) (v : α) :
    Linked (Function.update heap a (some ⟨v, root l, root r⟩)) (.node (a, v) l r) := by
  refine ⟨Function.update_self .., hl.frame fun b hb => ?_, hr.frame fun b hb => ?_⟩
  · apply Function.update_of_ne
    rintro rfl
    exact hal hb
  · apply Function.update_of_ne
    rintro rfl
    exact har hb

end LinkedTree

end CS
