import BareMetal.CS.Chains

/-!
# Reversal of a list in place

A walk along a list turns every pointer round, with one pointer to the cells behind it and
one to the cells before it. At any time these are two chains without a common cell: the
reversed first part and the rest.

## Main results

* `Chain.reverse` — the walk returns, and the cells are linked in reverse order
* `isReversal_reverseLinks` — and a second walk restores the heap
-/

namespace CS

namespace LinkedList

variable {α : Type} {heap heap' : Heap α} {nodes xs ys : List (ℕ × α)} {a b : ℕ} {v : α}

/-- The memory during the walk, and its two pointers. -/
structure Reversal (α : Type) where
  heap : Heap α
  prev : Option ℕ
  current : Option ℕ

/-- One pass of the loop
`while(current != NULL) { next = current->next; current->next = prev; prev = current; … }`. -/
def reversePass (s : Reversal α) : Outcome (Pass (Reversal α) (Heap α × Option ℕ)) :=
  match s.current with
  | none => .ok (.leave (s.heap, s.prev))
  | some current => do
    let node ← s.heap.load (some current)
    let heap ← s.heap.store (some current) { node with next := s.prev }
    .ok (.again ⟨heap, some current, node.next⟩)

/-- The walk from `head`, with the memory and the new head that it leaves. -/
def reverseLinks (heap : Heap α) (head : Option ℕ) (fuel : ℕ) : Outcome (Heap α × Option ℕ) :=
  loop reversePass fuel ⟨heap, none, head⟩

/-- The cells of a list and the memory around it determine the heap. -/
theorem Chain.heap_eq (h : Chain heap nodes) (h' : Chain heap' nodes)
    (hframe : ∀ b, b ∉ addresses nodes → heap' b = heap b) : heap' = heap := by
  refine heap_eq_of_agree (fun a v xs ys hsplit => ?_) hframe
  subst hsplit
  exact h'.get.trans h.get.symm

/-- The rest of the walk. The induction is on the cells `ys` that are left. -/
theorem exists_loop_reversePass (hxs : Chain heap xs) (hys : Chain heap ys)
    (hnodup : (addresses (xs ++ ys)).Nodup) :
    ∃ heap', Returns (fun fuel => loop reversePass fuel ⟨heap, first xs, first ys⟩)
        (heap', first (ys.reverse ++ xs)) ∧
      Chain heap' (ys.reverse ++ xs) ∧ ∀ b, b ∉ addresses ys → heap' b = heap b := by
  induction ys generalizing heap xs with
  | nil => exact ⟨heap, .loop_leave rfl, hxs, fun _ _ => rfl⟩
  | cons y ys ih =>
    obtain ⟨a, v⟩ := y
    obtain ⟨hcell, hrest⟩ := hys
    rw [addresses_append, addresses_cons, List.nodup_middle, List.nodup_cons, List.mem_append,
      not_or, ← addresses_append] at hnodup
    obtain ⟨⟨hax, hay⟩, hnodup⟩ := hnodup
    have hother : ∀ b, b ≠ a →
        Function.update heap a (some ⟨v, first xs⟩) b = heap b := fun b hb =>
      Function.update_of_ne hb ..
    -- the cell goes from the front of the rest to the front of the reversed part
    have hxs' : Chain (Function.update heap a (some ⟨v, first xs⟩)) ((a, v) :: xs) := by
      refine ⟨Function.update_self .., hxs.frame fun b hb => hother b ?_⟩
      rintro rfl
      exact hax hb
    have hys' : Chain (Function.update heap a (some ⟨v, first xs⟩)) ys := by
      refine hrest.frame fun b hb => hother b ?_
      rintro rfl
      exact hay hb
    have hnodup' : (addresses ((a, v) :: xs ++ ys)).Nodup := by
      rw [List.cons_append, addresses_cons, List.nodup_cons, addresses_append, List.mem_append,
        not_or, ← addresses_append]
      exact ⟨⟨hax, hay⟩, hnodup⟩
    obtain ⟨heap', hreturns, hchain, hframe⟩ := ih hxs' hys' hnodup'
    rw [List.reverse_cons, List.append_assoc, List.singleton_append]
    refine ⟨heap', .loop_again ?_ hreturns, hchain, fun b hb => ?_⟩
    · simp only [reversePass, first_cons, Heap.load_some hcell, Outcome.ok_bind,
        Heap.store_some hcell]
    · rw [addresses_cons, List.mem_cons, not_or] at hb
      rw [hframe b hb.2, hother b hb.1]

/-- The walk along a whole list. -/
theorem Chain.reverse (h : Chain heap nodes) (hnodup : (addresses nodes).Nodup) :
    ∃ heap', Returns (reverseLinks heap (first nodes)) (heap', first nodes.reverse) ∧
      Chain heap' nodes.reverse ∧ ∀ b, b ∉ addresses nodes → heap' b = heap b := by
  have hnil : Chain heap ([] : List (ℕ × α)) := trivial
  have hloop := exists_loop_reversePass hnil h hnodup
  rwa [List.append_nil] at hloop

theorem addresses_reverse (nodes : List (ℕ × α)) :
    addresses nodes.reverse = (addresses nodes).reverse :=
  List.map_reverse

/-- What a function that reverses lists in place does. -/
def IsReversal (reverse : Heap α → Option ℕ → ℕ → Outcome (Heap α × Option ℕ)) : Prop :=
  ∀ heap nodes, Chain heap nodes → (addresses nodes).Nodup →
    ∃ heap', Returns (reverse heap (first nodes)) (heap', first nodes.reverse) ∧
      Chain heap' nodes.reverse ∧ (∀ b, b ∉ addresses nodes → heap' b = heap b) ∧
      Returns (reverse heap' (first nodes.reverse)) (heap, first nodes)

/-- A second walk restores the heap, and the pointer to the first cell. -/
theorem isReversal_reverseLinks : IsReversal (reverseLinks (α := α)) := by
  intro heap nodes h hnodup
  obtain ⟨heap', hreturns, hchain, hframe⟩ := h.reverse hnodup
  have hnodup' : (addresses nodes.reverse).Nodup := by
    rw [addresses_reverse]
    exact List.nodup_reverse.mpr hnodup
  obtain ⟨heap'', hreturns', hchain', hframe'⟩ := hchain.reverse hnodup'
  rw [List.reverse_reverse] at hreturns' hchain'
  have hheap : heap'' = heap := h.heap_eq hchain' fun b hb => by
    rw [hframe' b (by rwa [addresses_reverse, List.mem_reverse]), hframe b hb]
  rw [hheap] at hreturns'
  exact ⟨heap', hreturns, hchain, hframe, hreturns'⟩

end LinkedList

end CS
