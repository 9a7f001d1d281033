import Mathlib.Data.Tree.Basic
import Mathlib.Order.Lattice
import Mathlib.Tactic.Common

/-!
# Binary search trees

The elements of a tree are compared by a key. In an ordered tree every element has smaller
keys to its left and larger ones to its right, at any distance. `insert` follows the keys
down to an empty place and leaves a tree alone in which it meets the key itself.

## Main results

* `Ordered.insert`, `insert_cases` — insertion keeps the order and adds one element, unless
  it meets the key
* `Ordered.inorder_lt` — the keys are visited in strictly increasing order
* `Ordered.insert_eq_self` — a key that is present is found
-/

namespace Math.SearchTree

variable {β α : Type*}

/-- The elements from left to right. -/
def inorder : BinaryTree β → List β
  | .nil => []
  | .node x l r => inorder l ++ x :: inorder r

@[simp] theorem inorder_nil : inorder (.nil : BinaryTree β) = [] := rfl

@[simp] theorem inorder_node (x : β) (l r : BinaryTree β) :
    inorder (.node x l r) = inorder l ++ x :: inorder r := rfl

theorem mem_inorder_node {x y : β} {l r : BinaryTree β} :
    y ∈ inorder (.node x l r) ↔ y ∈ inorder l ∨ y = x ∨ y ∈ inorder r := by simp

section Order

variable [LinearOrder α] {key : β → α} {x y : β} {l r t : BinaryTree β}

/-- Below every element the keys to its left are smaller and those to its right are larger. -/
def Ordered (key : β → α) : BinaryTree β → Prop
  | .nil => True
  | .node x l r => (∀ y ∈ inorder l, key y < key x) ∧ (∀ y ∈ inorder r, key x < key y) ∧
      Ordered key l ∧ Ordered key r

/-- Insert an element whose key is not in the tree. -/
def insert (key : β → α) (x : β) : BinaryTree β → BinaryTree β
  | .nil => .node x .nil .nil
  | .node y l r =>
    if key y < key x then .node y l (insert key x r)
    else if key x < key y then .node y (insert key x l) r
    else .node y l r

theorem insert_right (h : key y < key x) :
    insert key x (.node y l r) = .node y l (insert key x r) :=
  if_pos h

theorem insert_left (h : key x < key y) :
    insert key x (.node y l r) = .node y (insert key x l) r := by
  rw [insert, if_neg (lt_asymm h), if_pos h]

theorem insert_eq (h : key x = key y) : insert key x (.node y l r) = .node y l r := by
  rw [insert, h, if_neg (lt_irrefl _), if_neg (lt_irrefl _)]

/-- Insertion meets the key on its way, or it adds the element. The cases are those of the
comparison. -/
theorem insert_cases (key : β → α) (x : β) (t : BinaryTree β) :
    ((∃ y ∈ inorder t, key y = key x) ∧ insert key x t = t) ∨
      (inorder (insert key x t)).Perm (x :: inorder t) := by
  induction t with
  | nil => exact Or.inr (.refl _)
  | node z l r ihl ihr =>
    rcases lt_trichotomy (key x) (key z) with hlt | heq | hgt
    · rw [insert_left hlt]
      rcases ihl with ⟨⟨y, hy, hkey⟩, heq⟩ | hperm
      · rw [heq]
        exact Or.inl ⟨⟨y, mem_inorder_node.mpr (Or.inl hy), hkey⟩, rfl⟩
      · exact Or.inr (hperm.append_right _)
    · exact Or.inl ⟨⟨z, mem_inorder_node.mpr (Or.inr (Or.inl rfl)), heq.symm⟩, insert_eq heq⟩
    · rw [insert_right hgt]
      rcases ihr with ⟨⟨y, hy, hkey⟩, heq⟩ | hperm
      · rw [heq]
        exact Or.inl ⟨⟨y, mem_inorder_node.mpr (Or.inr (Or.inr hy)), hkey⟩, rfl⟩
      · -- the new element moves in front of `z` and of the elements to its left
        apply Or.inr
        refine ((hperm.cons z).append_left _).trans ?_
        exact ((List.Perm.swap x z _).append_left _).trans List.perm_middle

theorem mem_of_mem_inorder_insert (h : y ∈ inorder (insert key x t)) :
    y = x ∨ y ∈ inorder t := by
  rcases insert_cases key x t with ⟨-, heq⟩ | hperm
  · rw [heq] at h
    exact Or.inr h
  · exact List.mem_cons.mp (hperm.mem_iff.mp h)

/-- The keys after an insertion. -/
theorem exists_mem_inorder_insert_iff {k : α} :
    (∃ y ∈ inorder (insert key x t), key y = k) ↔
      k = key x ∨ ∃ y ∈ inorder t, key y = k := by
  rcases insert_cases key x t with ⟨hmem, heq⟩ | hperm
  · rw [heq]
    constructor
    · exact Or.inr
    · rintro (rfl | hold)
      · exact hmem
      · exact hold
  · simp [hperm.mem_iff, eq_comm]

theorem Ordered.insert (h : Ordered key t) (x : β) : Ordered key (insert key x t) := by
  induction t with
  | nil => exact ⟨nofun, nofun, trivial, trivial⟩
  | node z l r ihl ihr =>
    obtain ⟨hleft, hright, hl, hr⟩ := h
    rcases lt_trichotomy (key x) (key z) with hlt | heq | hgt
    · rw [insert_left hlt]
      refine ⟨fun y hy => ?_, hright, ihl hl, hr⟩
      rcases mem_of_mem_inorder_insert hy with rfl | hy
      · exact hlt
      · exact hleft y hy
    · rw [insert_eq heq]
      exact ⟨hleft, hright, hl, hr⟩
    · rw [insert_right hgt]
      refine ⟨hleft, fun y hy => ?_, hl, ihr hr⟩
      rcases mem_of_mem_inorder_insert hy with rfl | hy
      · exact hgt
      · exact hright y hy

/-- The keys from left to right. -/
theorem Ordered.inorder_lt (h : Ordered key t) :
    (inorder t).Pairwise fun x y => key x < key y := by
  induction t with
  | nil => exact .nil
  | node z l r ihl ihr =>
    obtain ⟨hleft, hright, hl, hr⟩ := h
    refine List.pairwise_append.mpr ⟨ihl hl, List.pairwise_cons.mpr ⟨hright, ihr hr⟩, ?_⟩
    intro x hx y hy
    rcases List.mem_cons.mp hy with rfl | hy
    · exact hleft x hx
    · exact lt_trans (hleft x hx) (hright y hy)

/-- The way to a key that is present ends at its element. -/
theorem Ordered.insert_eq_self (h : Ordered key t) (hmem : ∃ y ∈ inorder t, key y = key x) :
    SearchTree.insert key x t = t := by
  induction t with
  | nil =>
    obtain ⟨y, hy, -⟩ := hmem
    cases hy
  | node z l r ihl ihr =>
    obtain ⟨hleft, hright, hl, hr⟩ := h
    obtain ⟨y, hy, hkey⟩ := hmem
    rcases mem_inorder_node.mp hy with hy | rfl | hy
    · have hlt : key x < key z := hkey ▸ hleft y hy
      rw [insert_left hlt, ihl hl ⟨y, hy, hkey⟩]
    · exact insert_eq hkey.symm
    · have hgt : key z < key x := hkey ▸ hright y hy
      rw [insert_right hgt, ihr hr ⟨y, hy, hkey⟩]

end Order

end Math.SearchTree
