import BareMetal.CS.Teardown
import BareMetal.DataStructures.BinaryTree
import Mathlib.Data.Finset.Card

/-!
# The nodes of `data-structures/binary-tree.c`

A value that is in the tree already gets no second node, so there are as many nodes as there are
values. `tree_free` frees what is below a node before the node.

## Main results

* `Complete.treeInsert` — every node that is allocated is in the tree
* `tree_life_cycle` — what any calls of `tree_insert` allocate, and what `tree_free` leaves
-/

namespace BareMetal.BinaryTree

open CS LinkedTree Math Math.SearchTree

/-- `tree_free`, to a bounded depth, with the nodes that it leaves. -/
def treeFree (fuel : ℕ) (heap : LinkedTree.Heap ℤ) (root : Option ℕ) :
    Outcome (LinkedTree.Heap ℤ) :=
  freeTree fuel heap root

/-- There are no nodes but those in the tree, and `malloc` was called once for each. -/
structure Complete (s : State) (t : BinaryTree (ℕ × ℤ)) : Prop where
  covers : ∀ a, s.heap a ≠ none → a ∈ addresses t
  allocated_eq : s.allocated = (inorder t).length

variable {malloc : ℕ ↪ ℕ} {s s' : State} {t : BinaryTree (ℕ × ℤ)} {p : Option ℕ} {x : ℤ}
  {values : List ℤ}

/-- The nodes of a tree that has grown are the old ones and the new one. -/
theorem Grown.complete (h : Grown malloc s x t s') (hcomplete : Complete s t)
    (hnew : malloc s.allocated ∉ addresses t) : Complete s' (inserted malloc s x t) := by
  -- the new node is in the tree, so it has been inserted
  have hperm : (inorder (inserted malloc s x t)).Perm ((malloc s.allocated, x) :: inorder t) := by
    rcases insert_cases Prod.snd (malloc s.allocated, x) t with ⟨-, heq⟩ | hperm
    · have hmem := h.new_mem
      rw [inserted, heq] at hmem
      exact absurd hmem hnew
    · exact hperm
  refine ⟨fun a ha => ?_, ?_⟩
  · have hmem : a ∈ addresses (inserted malloc s x t) ↔ a = malloc s.allocated ∨ a ∈ addresses t :=
      (hperm.map Prod.fst).mem_iff.trans List.mem_cons
    rw [hmem]
    by_contra hnot
    obtain ⟨hne, hout⟩ := not_or.mp hnot
    rw [h.frame a hout hne] at ha
    exact hout (hcomplete.covers a ha)
  · rw [hperm.length_eq, List.length_cons, h.allocated_eq, hcomplete.allocated_eq]

theorem Complete.treeInsert (h : Complete s t) (hrepresents : Represents malloc s p t) (x : ℤ) :
    ∃ s' p', Returns (fun fuel => treeInsert malloc fuel s p x) (s', p') ∧
      Complete s' (inserted malloc s x t) := by
  obtain ⟨rfl, hlinked, hnodup, hfresh⟩ := hrepresents
  have hnone : s.heap (malloc s.allocated) = none := hfresh _ (Nat.le_refl _)
  obtain ⟨s', hreturns, hcases⟩ := exists_treeInsert hlinked hnodup hnone x
  refine ⟨s', _, hreturns, ?_⟩
  rcases hcases with ⟨heq, rfl⟩ | hgrown
  · rwa [heq]
  · exact hgrown.complete h fun hmem => hlinked.allocated hmem hnone

theorem complete_newTree (malloc : ℕ ↪ ℕ) (value : ℤ) :
    Complete (newTree malloc value).1 (.node (malloc 0, value) .nil .nil) := by
  refine ⟨fun a ha => ?_, rfl⟩
  by_contra hnot
  have hne : a ≠ malloc 0 := fun heq => hnot (by simp [heq])
  exact ha (Function.update_of_ne hne ..)

/-- The values of a search tree are all different. -/
theorem IsSearchTree.length_eq (h : IsSearchTree malloc s p values t) :
    (inorder t).length = values.toFinset.card := by
  have hnodup : ((inorder t).map Prod.snd).Nodup :=
    (List.pairwise_map.mpr h.ordered.inorder_lt).imp ne_of_lt
  have hset : ((inorder t).map Prod.snd).toFinset = values.toFinset := by
    ext x
    rw [List.mem_toFinset, List.mem_toFinset, ← h.mem_iff, List.mem_map]
  rw [← hset, List.toFinset_card_of_nodup hnodup, List.length_map]

/-- **The life of a tree.** Any calls of `tree_insert` return. As many nodes are allocated as there
are different values, and `tree_free` frees every one of them, each exactly once. -/
theorem tree_life_cycle (malloc : ℕ ↪ ℕ) (value : ℤ) (values : List ℤ) :
    ∃ s root, Returns (treeInserts malloc (newTree malloc value) values) (s, root) ∧
      s.allocated = (value :: values).toFinset.card ∧
      ∃ heap, Returns (fun fuel => treeFree fuel s.heap root) heap ∧ ∀ a, heap a = none := by
  have hstart : IsSearchTree malloc (newTree malloc value).1 (newTree malloc value).2 [value]
      (.node (malloc 0, value) .nil .nil) :=
    ⟨represents_newTree malloc value, ⟨fun _ hy => absurd hy List.not_mem_nil,
      fun _ hy => absurd hy List.not_mem_nil, trivial, trivial⟩, fun x => by simp [eq_comm]⟩
  have hstep : ∀ (pre : List ℤ) (x : ℤ) (post : List ℤ) (tree : State × Option ℕ),
      pre ++ x :: post = values →
      (∃ t, IsSearchTree malloc tree.1 tree.2 (value :: pre) t ∧ Complete tree.1 t) →
      ∃ tree', Returns (fun fuel => treeInsert malloc fuel tree.1 tree.2 x) tree' ∧
        ∃ t, IsSearchTree malloc tree'.1 tree'.2 (value :: (pre ++ [x])) t ∧
          Complete tree'.1 t := by
    rintro pre x post tree - ⟨t, ht, hcomplete⟩
    obtain ⟨s', p', hreturns, ht', -⟩ := ht.treeInsert x
    obtain ⟨s'', p'', hreturns', hcomplete'⟩ := hcomplete.treeInsert ht.represents x
    cases hreturns.unique hreturns'
    exact ⟨(s', p'), hreturns, _, ht', hcomplete'⟩
  obtain ⟨⟨s, root⟩, hreturns, t, ht, hcomplete⟩ :=
    Returns.foldlM (P := fun pre (tree : State × Option ℕ) =>
      ∃ t, IsSearchTree malloc tree.1 tree.2 (value :: pre) t ∧ Complete tree.1 t)
      hstep ⟨_, hstart, complete_newTree malloc value⟩
  obtain ⟨heap, hfree, hfrees⟩ := ht.represents.linked.freeTree ht.represents.nodup
  rw [← ht.represents.root_eq] at hfree
  exact ⟨s, root, hreturns, hcomplete.allocated_eq.trans ht.length_eq, heap, hfree,
    hfrees.all hcomplete.covers⟩

end BareMetal.BinaryTree
