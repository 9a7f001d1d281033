import BareMetal.CS.DoublyLinked
import BareMetal.CS.Loop

/-!
# The reversal of `problems/dll_rewiring.c`

`reverse_dll` exchanges the two pointers of every node on a walk along the list, which goes
on with the pointer that it has just overwritten. The last node of the walk becomes the head.

## Main results

* `exists_loop_swapPass` — what the walk leaves
* `reverseDll_exact` — the list is reversed, and a second call restores it
-/

namespace BareMetal.DllRewiring

open CS DoublyLinked
open LinkedList (addresses)

/-- The memory and the pointers of the walk. -/
structure Walk where
  heap : Heap ℤ
  current : Option ℕ
  lastVisited : Option ℕ

/-- One pass of the walk. -/
def swapPass (s : Walk) : Outcome (Pass Walk (Heap ℤ × Option ℕ)) :=
  match s.current with
  | none => .ok (.leave (s.heap, s.lastVisited))
  | some current => do
    let node ← s.heap.load (some current)
    let temp := node.next
    let heap ← s.heap.setNext (some current) node.prev
    let heap ← heap.setPrev (some current) temp
    .ok (.again ⟨heap, temp, some current⟩)

/-- `reverse_dll`, with the new `*head_ref`. -/
def reverseDll (heap : Heap ℤ) (headRef : Option ℕ) (fuel : ℕ) : Outcome (Heap ℤ × Option ℕ) := do
  let (heap, lastVisited) ← loop swapPass fuel ⟨heap, headRef, none⟩
  .ok (heap, if lastVisited ≠ none then lastVisited else headRef)

variable {heap : Heap ℤ} {nodes : List (ℕ × ℤ)} {p head : Option ℕ}

/-- The walk turns a list round that comes from `p`: it ends there. The induction is on the
nodes that are left. -/
theorem exists_loop_swapPass (h : Linked heap p nodes none) (hnodup : (addresses nodes).Nodup) :
    ∃ heap', Returns (fun fuel => loop swapPass fuel ⟨heap, firstOr nodes none, p⟩)
        (heap', lastOr p nodes) ∧
      Linked heap' none nodes.reverse p ∧ ∀ b, b ∉ addresses nodes → heap' b = heap b := by
  induction nodes generalizing heap p with
  | nil => exact ⟨heap, .loop_leave rfl, trivial, fun _ _ => rfl⟩
  | cons x rest ih =>
    obtain ⟨a, v⟩ := x
    obtain ⟨hcell, hrest⟩ := h
    obtain ⟨ha, hnodup⟩ := List.nodup_cons.mp hnodup
    obtain ⟨heap₁, hnext, hself₁, hframe₁⟩ := Heap.exists_setNext hcell p
    obtain ⟨heap₂, hprev, hself₂, hframe₂⟩ := Heap.exists_setPrev hself₁ (firstOr rest none)
    have hother : ∀ b, b ≠ a → heap₂ b = heap b := fun b hb =>
      (hframe₂ b hb).trans (hframe₁ b hb)
    have hrest' : Linked heap₂ (some a) rest none := hrest.frame fun b hb =>
      hother b fun heq => ha (heq ▸ hb)
    obtain ⟨heap', hreturns, hlinked, hframe⟩ := ih hrest' hnodup
    refine ⟨heap', .loop_again ?_ hreturns, ?_, fun b hb => ?_⟩
    · have hcurrent : firstOr ((a, v) :: rest) none = some a := rfl
      simp only [swapPass, hcurrent, Heap.load_some hcell, Outcome.ok_bind, hnext, hprev]
    · -- the node goes behind the reversed rest
      rw [List.reverse_cons, linked_append, lastOr_reverse]
      exact ⟨hlinked, (hframe a ha).trans hself₂, trivial⟩
    · rw [LinkedList.addresses_cons, List.mem_cons, not_or] at hb
      exact (hframe b hb.2).trans (hother b hb.1)

theorem exists_reverseDll (h : Linked heap none nodes none) (hnodup : (addresses nodes).Nodup) :
    ∃ heap', Returns (reverseDll heap (firstOr nodes none)) (heap', firstOr nodes.reverse none) ∧
      Linked heap' none nodes.reverse none ∧ ∀ b, b ∉ addresses nodes → heap' b = heap b := by
  obtain ⟨heap', hloop, hlinked, hframe⟩ := exists_loop_swapPass h hnodup
  refine ⟨heap', ?_, hlinked, hframe⟩
  have hreturns := hloop.map fun walk =>
    (walk.1, if walk.2 ≠ none then walk.2 else firstOr nodes none)
  have hhead : (if lastOr none nodes ≠ none then lastOr none nodes else firstOr nodes none) =
      firstOr nodes.reverse none := by
    rw [firstOr_reverse]
    cases nodes with
    | nil => rfl
    | cons x rest =>
      refine if_pos fun hnone => ?_
      rw [← firstOr_reverse, List.reverse_cons, firstOr_append] at hnone
      cases hrest : rest.reverse <;> rw [hrest] at hnone <;> cases hnone
  rw [hhead] at hreturns
  exact hreturns

/-- **Reversal of a doubly linked list** returns with the same nodes in reverse order, linked in
both directions, and a second call restores every pointer. -/
theorem reverseDll_exact (h : IsList heap head nodes) :
    ∃ heap' head', Returns (reverseDll heap head) (heap', head') ∧
      head' = (addresses nodes).getLast? ∧ IsList heap' head' nodes.reverse ∧
      (∀ b, b ∉ addresses nodes → heap' b = heap b) ∧
      Returns (reverseDll heap' head') (heap, head) := by
  obtain ⟨rfl, hlinked⟩ := h.linked
  have hnodup' : (addresses nodes.reverse).Nodup := by
    rw [addresses, List.map_reverse]
    exact List.nodup_reverse.mpr h.nodup
  obtain ⟨heap', hreturns, hlinked', hframe⟩ := exists_reverseDll hlinked h.nodup
  obtain ⟨heap'', hreturns', hlinked'', hframe'⟩ := exists_reverseDll hlinked' hnodup'
  rw [List.reverse_reverse] at hreturns' hlinked''
  have hheap : heap'' = heap := by
    refine hlinked.heap_eq hlinked'' fun b hb => ?_
    rw [hframe' b (by rwa [addresses, List.map_reverse, List.mem_reverse]), hframe b hb]
  rw [hheap] at hreturns'
  refine ⟨heap', _, hreturns, ?_, hlinked'.isList hnodup', hframe, hreturns'⟩
  rw [firstOr_reverse]
  rcases List.eq_nil_or_concat nodes with rfl | ⟨xs, ⟨a, v⟩, rfl⟩
  · rfl
  · rw [List.concat_eq_append, lastOr_concat, LinkedList.addresses_concat, List.getLast?_concat]

/-- Two nodes, which point to one another. -/
def pair : Heap ℤ := fun a =>
  if a = 1 then some ⟨10, some 2, none⟩ else if a = 2 then some ⟨20, none, some 1⟩ else none

theorem isList_pair : IsList pair (some 1) [(1, 10), (2, 20)] :=
  have hlinked : Linked pair none [(1, 10), (2, 20)] none := ⟨rfl, rfl, trivial⟩
  hlinked.isList (by decide)

theorem reverseDll_exact_pair :
    ∃ heap' head', Returns (reverseDll pair (some 1)) (heap', head') ∧
      head' = some 2 ∧ IsList heap' head' [(2, 20), (1, 10)] ∧
      (∀ b, b ∉ [1, 2] → heap' b = pair b) ∧
      Returns (reverseDll heap' head') (pair, some 1) :=
  reverseDll_exact isList_pair

end BareMetal.DllRewiring
