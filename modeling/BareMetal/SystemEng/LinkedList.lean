import BareMetal.MemoryPhysics.StringList
import BareMetal.PointerProblems.InplaceMutation

/-!
# Three reversals of a singly linked list

`reverse_list` of `system-eng/ll.c` takes a pointer to the caller's pointer and sets it to
the new head, as the one of `memory-physics/ll.c` does for nodes with strings. The one of
`pointer_problems/inplace_mutation.c` takes a struct with the head and leaves an empty list
alone.

## Main results

* `reversals_agree` — all three leave the nodes in reverse order, and undo themselves
-/

namespace BareMetal.SystemEng

open CS LinkedList

/-- `reverse_list`, with the new `*head_ref`. -/
def reverseList (heap : Heap ℤ) (headRef : Option ℕ) (fuel : ℕ) : Outcome (Heap ℤ × Option ℕ) :=
  reverseLinks heap headRef fuel

/-- **The three reversals agree**: each of them returns, links the nodes of the list in reverse
order with their values, and touches nothing else, and a second call restores the memory. -/
theorem reversals_agree :
    IsReversal reverseList ∧
      (∀ (m : HeaderMemory ℤ) (list : ℕ) (nodes : List (ℕ × ℤ)),
        m.lists list = some ⟨first nodes⟩ → Chain m.nodes nodes → (addresses nodes).Nodup →
        ∃ m', Returns (InplaceMutation.reverseList m (some list)) (m', some list) ∧
          m'.lists list = some ⟨first nodes.reverse⟩ ∧ Chain m'.nodes nodes.reverse ∧
          (∀ b, b ∉ addresses nodes → m'.nodes b = m.nodes b) ∧
          (∀ c, c ≠ list → m'.lists c = m.lists c) ∧
          Returns (InplaceMutation.reverseList m' (some list)) (m, some list)) ∧
      IsReversal StringList.reverseList :=
  ⟨isReversal_reverseLinks, fun _ _ _ hlist h hnodup =>
    InplaceMutation.exists_reverseList hlist h hnodup, isReversal_reverseLinks⟩

/-- A list of two nodes, with its header at the address 5. -/
def pairMemory : HeaderMemory ℤ where
  lists b := if b = 5 then some ⟨some 1⟩ else none
  nodes b := if b = 1 then some ⟨10, some 2⟩ else if b = 2 then some ⟨20, none⟩ else none

/-- The two nodes change their order. -/
theorem reversals_agree_pair :
    (∃ heap, Returns (reverseList pairMemory.nodes (some 1)) (heap, some 2)) ∧
      (∃ m', Returns (InplaceMutation.reverseList pairMemory (some 5)) (m', some 5) ∧
        m'.lists 5 = some ⟨some 2⟩ ∧ Chain m'.nodes [(2, 20), (1, 10)]) := by
  have hchain : Chain pairMemory.nodes [(1, 10), (2, 20)] := ⟨rfl, rfl, trivial⟩
  have hnodup : (addresses [(1, (10 : ℤ)), (2, 20)]).Nodup := by decide
  obtain ⟨hsystem, hinplace, -⟩ := reversals_agree
  obtain ⟨heap, hreturns, -⟩ := hsystem pairMemory.nodes _ hchain hnodup
  obtain ⟨m', hreturns', hlist, hchain', -⟩ := hinplace pairMemory 5 _ rfl hchain hnodup
  exact ⟨⟨heap, hreturns⟩, m', hreturns', hlist, hchain'⟩

end BareMetal.SystemEng
