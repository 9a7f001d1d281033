import BareMetal.CS.Chains

/-!
# Pointers that end and pointers that do not

From a pointer on, a program can follow the pointers to the next cells. `walk` says where it is
after some steps. Unless it meets a pointer to a cell that is not allocated, the walk ends, and then
the cells are those of a finite list, or it goes on for ever.

## Main results

* `chain_or_endless` — a finite list, or no end
-/

namespace CS

namespace LinkedList

variable {α : Type} {heap : Heap α} {head : Option ℕ} {nodes : List (ℕ × α)}

/-- Where `k` steps along the pointers lead. -/
def walk (heap : Heap α) (head : Option ℕ) : ℕ → Option ℕ
  | 0 => head
  | k + 1 => (walk heap head k).bind fun a => (heap a).bind Node.next

/-- Every cell that is reached is allocated. -/
def NoDangling (heap : Heap α) (head : Option ℕ) : Prop :=
  ∀ k a, walk heap head k = some a → heap a ≠ none

/-- The pointers lead through the cells at `path`, and never end. -/
def Endless (heap : Heap α) (head : Option ℕ) : Prop :=
  ∃ path : ℕ → ℕ, head = some (path 0) ∧ ∀ k, ∃ v, heap (path k) = some ⟨v, some (path (k + 1))⟩

/-- The walk from the cell after the first one. -/
theorem walk_succ {a : ℕ} {node : Node α} (hcell : heap a = some node) (k : ℕ) :
    walk heap (some a) (k + 1) = walk heap node.next k := by
  induction k with
  | zero => rw [walk, walk, walk, Option.bind_some, hcell, Option.bind_some]
  | succ k ih => rw [walk, ih, walk]

/-- A walk that ends has gone through a finite list. The induction is on its length. -/
theorem exists_chain (hheap : NoDangling heap head) {k : ℕ} (hend : walk heap head k = none) :
    ∃ nodes, Chain heap nodes ∧ first nodes = head := by
  induction k generalizing head with
  | zero => exact ⟨[], trivial, hend.symm⟩
  | succ k ih =>
    cases head with
    | none => exact ⟨[], trivial, rfl⟩
    | some a =>
      obtain ⟨node, hcell⟩ := Option.ne_none_iff_exists'.mp (hheap 0 a rfl)
      have hnext : NoDangling heap node.next := fun j b hb =>
        hheap (j + 1) b ((walk_succ hcell j).trans hb)
      obtain ⟨nodes, hchain, hfirst⟩ := ih hnext ((walk_succ hcell k).symm.trans hend)
      exact ⟨(a, node.value) :: nodes, ⟨by rw [hcell, hfirst], hchain⟩, rfl⟩

/-- A walk that never ends. -/
theorem endless_of_walk (hheap : NoDangling heap head) (hwalk : ∀ k, walk heap head k ≠ none) :
    Endless heap head := by
  have hsome (k : ℕ) : ∃ a, walk heap head k = some a := Option.ne_none_iff_exists'.mp (hwalk k)
  choose path hpath using hsome
  refine ⟨path, hpath 0, fun k => ?_⟩
  obtain ⟨node, hcell⟩ := Option.ne_none_iff_exists'.mp (hheap k (path k) (hpath k))
  have hnext := hpath (k + 1)
  rw [walk, hpath k, Option.bind_some, hcell, Option.bind_some] at hnext
  exact ⟨node.value, by rw [hcell, ← hnext]⟩

/-- **A list is finite, or it has no end.** -/
theorem chain_or_endless (hheap : NoDangling heap head) :
    (∃ nodes, Chain heap nodes ∧ first nodes = head) ∨ Endless heap head := by
  by_cases hend : ∃ k, walk heap head k = none
  · obtain ⟨k, hk⟩ := hend
    exact Or.inl (exists_chain hheap hk)
  · exact Or.inr (endless_of_walk hheap fun k hk => hend ⟨k, hk⟩)

end LinkedList

end CS
