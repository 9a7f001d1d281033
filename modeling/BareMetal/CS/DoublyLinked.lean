import BareMetal.CS.LinkedList

/-!
# Doubly linked lists on a heap

A cell of a doubly linked list points to the next cell and to the previous one. `Linked`
describes a part of such a list, with the pointers that lead out of it at both ends, so that
a list can be cut and the parts joined again around a new cell.

## Main results

* `linked_append` — a list is cut between two of its cells
* `Linked.insert` — a new cell between two parts
* `Linked.exists_linkLast` — a new cell behind the last one
* `Linked.isList`, `IsList.linked` — what the pointers of a whole list say about its order
-/

namespace CS

namespace DoublyLinked

open LinkedList (addresses eq_append_cons_of_mem)

universe u

variable {α : Type u}

/-- A cell: a value and pointers to the next and to the previous cell. -/
structure Node (α : Type*) where
  value : α
  next : Option ℕ
  prev : Option ℕ
  deriving DecidableEq, Repr

/-- The cells that are allocated. -/
abbrev Heap (α : Type*) := ℕ → Option (Node α)

/-! ### Access to the heap -/

namespace Heap

variable {heap : Heap α} {a : ℕ} {node : Node α}

/-- Read the cell that `p` points to. -/
def load (heap : Heap α) : Option ℕ → Outcome (Node α)
  | none => .error (.outOfBounds 0)
  | some a =>
    match heap a with
    | none => .error (.outOfBounds a)
    | some node => .ok node

/-- Change the cell that `p` points to. -/
def modify (heap : Heap α) (p : Option ℕ) (f : Node α → Node α) : Outcome (Heap α) :=
  match p with
  | none => .error (.outOfBounds 0)
  | some a =>
    match heap a with
    | none => .error (.outOfBounds a)
    | some node => .ok (Function.update heap a (some (f node)))

/-- `p->next = next`. -/
def setNext (heap : Heap α) (p next : Option ℕ) : Outcome (Heap α) :=
  heap.modify p fun node => { node with next := next }

/-- `p->prev = prev`. -/
def setPrev (heap : Heap α) (p prev : Option ℕ) : Outcome (Heap α) :=
  heap.modify p fun node => { node with prev := prev }

/-- A new cell that points nowhere. -/
def alloc (heap : Heap α) (a : ℕ) (value : α) : Heap α :=
  Function.update heap a (some ⟨value, none, none⟩)

@[simp] theorem load_some (h : heap a = some node) : heap.load (some a) = .ok node := by
  simp only [load, h]

theorem exists_modify (h : heap a = some node) (f : Node α → Node α) :
    ∃ heap', heap.modify (some a) f = .ok heap' ∧ heap' a = some (f node) ∧
      ∀ b, b ≠ a → heap' b = heap b := by
  refine ⟨Function.update heap a (some (f node)), ?_, Function.update_self .., fun b hb => ?_⟩
  · simp only [modify, h]
  · exact Function.update_of_ne hb ..

theorem exists_setNext (h : heap a = some node) (next : Option ℕ) :
    ∃ heap', heap.setNext (some a) next = .ok heap' ∧
      heap' a = some { node with next := next } ∧ ∀ b, b ≠ a → heap' b = heap b :=
  exists_modify h _

theorem exists_setPrev (h : heap a = some node) (prev : Option ℕ) :
    ∃ heap', heap.setPrev (some a) prev = .ok heap' ∧
      heap' a = some { node with prev := prev } ∧ ∀ b, b ≠ a → heap' b = heap b :=
  exists_modify h _

theorem alloc_self (heap : Heap α) (a : ℕ) (value : α) :
    heap.alloc a value a = some ⟨value, none, none⟩ :=
  Function.update_self ..

theorem alloc_of_ne (heap : Heap α) (value : α) {b : ℕ} (h : b ≠ a) :
    heap.alloc a value b = heap b :=
  Function.update_of_ne h ..

end Heap

/-! ### Parts of a list -/

variable {heap heap' : Heap α} {nodes rest xs ys pre post : List (ℕ × α)} {a b c l : ℕ} {v w : α}
  {p q : Option ℕ}

/-- The pointer to the first of the cells, or else `q`. -/
def firstOr (nodes : List (ℕ × α)) (q : Option ℕ) : Option ℕ :=
  match nodes with
  | [] => q
  | (a, _) :: _ => some a

/-- The pointer to the last of the cells, or else `p`. -/
def lastOr (p : Option ℕ) : List (ℕ × α) → Option ℕ
  | [] => p
  | (a, _) :: rest => lastOr (some a) rest

/-- Every cell points to its neighbours, the first one back to `p` and the last one on
to `q`. -/
def Linked (heap : Heap α) (p : Option ℕ) : List (ℕ × α) → Option ℕ → Prop
  | [], _ => True
  | (a, v) :: rest, q => heap a = some ⟨v, firstOr rest q, p⟩ ∧ Linked heap (some a) rest q

@[simp] theorem firstOr_append (xs ys : List (ℕ × α)) (q : Option ℕ) :
    firstOr (xs ++ ys) q = firstOr xs (firstOr ys q) := by
  cases xs <;> rfl

@[simp] theorem lastOr_concat (p : Option ℕ) (xs : List (ℕ × α)) (a : ℕ) (v : α) :
    lastOr p (xs ++ [(a, v)]) = some a := by
  induction xs generalizing p with
  | nil => rfl
  | cons x xs ih => exact ih (some x.1)

theorem lastOr_eq_some (h : lastOr none xs = some a) : ∃ ys v, xs = ys ++ [(a, v)] := by
  rcases List.eq_nil_or_concat xs with rfl | ⟨ys, ⟨b, v⟩, rfl⟩
  · cases h
  · rw [List.concat_eq_append, lastOr_concat] at h
    cases h
    exact ⟨ys, v, List.concat_eq_append⟩

theorem firstOr_eq_some (h : firstOr xs none = some a) : ∃ v ys, xs = (a, v) :: ys := by
  cases xs with
  | nil => cases h
  | cons x ys =>
    cases h
    exact ⟨x.2, ys, rfl⟩

theorem linked_append :
    Linked heap p (xs ++ ys) q ↔
      Linked heap p xs (firstOr ys q) ∧ Linked heap (lastOr p xs) ys q := by
  induction xs generalizing p with
  | nil => exact (and_iff_right trivial).symm
  | cons x xs ih =>
    rw [List.cons_append, Linked, Linked, ih, firstOr_append, and_assoc]
    rfl

theorem Linked.get (h : Linked heap p (xs ++ (a, v) :: ys) q) :
    heap a = some ⟨v, firstOr ys q, lastOr p xs⟩ :=
  (linked_append.mp h).2.1

theorem Linked.frame (h : Linked heap p nodes q)
    (hheap : ∀ b ∈ addresses nodes, heap' b = heap b) : Linked heap' p nodes q := by
  induction nodes generalizing p with
  | nil => trivial
  | cons x rest ih =>
    refine ⟨(hheap x.1 List.mem_cons_self).trans h.1, ih h.2 fun b hb => ?_⟩
    exact hheap b (List.mem_cons_of_mem _ hb)

/-- A new cell is none of the list. -/
theorem Linked.fresh (h : Linked heap p nodes q) (ha : heap a = none) : a ∉ addresses nodes := by
  intro hmem
  obtain ⟨v, xs, ys, rfl⟩ := eq_append_cons_of_mem hmem
  cases ha.symm.trans h.get

/-- A part goes on to another cell. -/
theorem Linked.setNext (h : Linked heap p (xs ++ [(l, w)]) q)
    (hlast : heap' l = some ⟨w, some a, lastOr p xs⟩)
    (hheap : ∀ b ∈ addresses xs, heap' b = heap b) : Linked heap' p (xs ++ [(l, w)]) (some a) :=
  linked_append.mpr ⟨(linked_append.mp h).1.frame hheap, hlast, trivial⟩

/-- A part comes from another cell. -/
theorem Linked.setPrev (h : Linked heap p ((c, w) :: ys) q)
    (hfirst : heap' c = some ⟨w, firstOr ys q, some a⟩)
    (hheap : ∀ b ∈ addresses ys, heap' b = heap b) : Linked heap' (some a) ((c, w) :: ys) q :=
  ⟨hfirst, h.2.frame hheap⟩

/-- A new cell between two parts, once they are linked to it. -/
theorem Linked.insert (hpre : Linked heap p pre (some a)) (hpost : Linked heap (some a) post q)
    (ha : heap a = some ⟨v, firstOr post q, lastOr p pre⟩) :
    Linked heap p (pre ++ (a, v) :: post) q :=
  linked_append.mpr ⟨hpre, ha, hpost⟩

/-- A new cell behind the last one: the pointer back from it, and the pointer to it. -/
theorem Linked.exists_linkLast (h : Linked heap p (xs ++ [(l, w)]) none)
    (hnodup : (addresses (xs ++ [(l, w)])).Nodup) (ha : heap a = none) (v : α) :
    ∃ heap₁ heap₂, (heap.alloc a v).setPrev (some a) (some l) = .ok heap₁ ∧
      heap₁.setNext (some l) (some a) = .ok heap₂ ∧
      Linked heap₂ p (xs ++ [(l, w), (a, v)]) none ∧
      ∀ b, b ∉ addresses (xs ++ [(l, w)]) → b ≠ a → heap₂ b = heap b := by
  have hfresh := h.fresh ha
  have hl : heap l = some ⟨w, none, lastOr p xs⟩ := h.get
  rw [LinkedList.addresses_concat] at hnodup hfresh ⊢
  obtain ⟨hlx, -⟩ := List.nodup_cons.mp (List.nodup_middle.mp hnodup)
  rw [List.append_nil] at hlx
  rw [List.mem_append, List.mem_singleton, not_or] at hfresh
  obtain ⟨hax, hal⟩ := hfresh
  obtain ⟨heap₁, h₁, hself₁, hframe₁⟩ := Heap.exists_setPrev (heap.alloc_self a v) (some l)
  have hl₁ : heap₁ l = some ⟨w, none, lastOr p xs⟩ := by
    rw [hframe₁ l (Ne.symm hal), heap.alloc_of_ne v (Ne.symm hal), hl]
  obtain ⟨heap₂, h₂, hself₂, hframe₂⟩ := Heap.exists_setNext hl₁ (some a)
  have hother : ∀ b, b ≠ a → b ≠ l → heap₂ b = heap b := fun b hba hbl => by
    rw [hframe₂ b hbl, hframe₁ b hba, heap.alloc_of_ne v hba]
  have hxs : ∀ b ∈ addresses xs, heap₂ b = heap b := fun b hb =>
    hother b (ne_of_mem_of_not_mem hb hax) (ne_of_mem_of_not_mem hb hlx)
  refine ⟨heap₁, heap₂, h₁, h₂, ?_, fun b hb hba => ?_⟩
  · rw [List.append_cons]
    refine Linked.insert (h.setNext hself₂ hxs) trivial ?_
    rw [hframe₂ a hal, hself₁, lastOr_concat]
    rfl
  · apply hother b hba
    rintro rfl
    exact hb (by simp)

/-! ### Whole lists -/

/-- What is visited from `p` on along the pointers to the next cells. -/
def Follows (heap : Heap α) : Option ℕ → List (ℕ × α) → Prop
  | p, [] => p = none
  | p, (a, v) :: rest =>
    p = some a ∧ ∃ node, heap a = some node ∧ node.value = v ∧ Follows heap node.next rest

/-- `a` is in the list, and `b` is next to it. -/
def IsNext (heap : Heap α) (nodes : List (ℕ × α)) (a b : ℕ) : Prop :=
  a ∈ addresses nodes ∧ ∃ node, heap a = some node ∧ node.next = some b

/-- `b` is in the list, and `a` is previous to it. -/
def IsPrev (heap : Heap α) (nodes : List (ℕ × α)) (b a : ℕ) : Prop :=
  b ∈ addresses nodes ∧ ∃ node, heap b = some node ∧ node.prev = some a

/-- The list from `head` has the given cells, each of them once, and the pointers back are
the inverse of those that lead on. -/
structure IsList (heap : Heap α) (head : Option ℕ) (nodes : List (ℕ × α)) : Prop where
  follows : Follows heap head nodes
  nodup : (addresses nodes).Nodup
  prev_head : ∀ a node, head = some a → heap a = some node → node.prev = none
  next_iff_prev : ∀ a b, IsNext heap nodes a b ↔ IsPrev heap nodes b a

theorem Linked.follows (h : Linked heap p nodes none) :
    Follows heap (firstOr nodes none) nodes := by
  induction nodes generalizing p with
  | nil => rfl
  | cons x rest ih => exact ⟨rfl, _, h.1, rfl, ih h.2⟩

theorem Linked.isNext_iff_isPrev (h : Linked heap none nodes none) (a b : ℕ) :
    IsNext heap nodes a b ↔ IsPrev heap nodes b a := by
  constructor
  · rintro ⟨hmem, node, hnode, hnext⟩
    obtain ⟨v, xs, ys, rfl⟩ := eq_append_cons_of_mem hmem
    cases hnode.symm.trans h.get
    obtain ⟨w, ys, rfl⟩ := firstOr_eq_some hnext
    rw [List.append_cons] at h
    exact ⟨by simp [addresses], _, h.get, lastOr_concat ..⟩
  · rintro ⟨hmem, node, hnode, hprev⟩
    obtain ⟨w, xs, ys, rfl⟩ := eq_append_cons_of_mem hmem
    cases hnode.symm.trans h.get
    obtain ⟨xs, v, rfl⟩ := lastOr_eq_some hprev
    rw [List.append_assoc, List.singleton_append] at h
    exact ⟨by simp [addresses], _, h.get, rfl⟩

theorem Linked.isList (h : Linked heap none nodes none) (hnodup : (addresses nodes).Nodup) :
    IsList heap (firstOr nodes none) nodes := by
  refine ⟨h.follows, hnodup, fun a node hhead hnode => ?_, h.isNext_iff_isPrev⟩
  obtain ⟨v, ys, rfl⟩ := firstOr_eq_some hhead
  cases hnode.symm.trans h.1
  rfl

/-- The cells from `a` on, once the list has come there over `p`. -/
theorem Follows.linked (h : Follows heap q nodes)
    (hprev : ∀ b node, q = some b → heap b = some node → node.prev = p)
    (hnext : ∀ a b node node', a ∈ addresses nodes → heap a = some node →
      node.next = some b → heap b = some node' → node'.prev = some a) :
    q = firstOr nodes none ∧ Linked heap p nodes none := by
  induction nodes generalizing p q with
  | nil => exact ⟨h, trivial⟩
  | cons x rest ih =>
    obtain ⟨a, v⟩ := x
    obtain ⟨rfl, node, hnode, rfl, hrest⟩ := h
    have hback : ∀ b node', node.next = some b → heap b = some node' → node'.prev = some a :=
      fun b node' => hnext a b node node' List.mem_cons_self hnode
    obtain ⟨hnodenext, hlinked⟩ := ih hrest hback fun b c node' node'' hb =>
      hnext b c node' node'' (List.mem_cons_of_mem _ hb)
    refine ⟨rfl, ?_, hlinked⟩
    rw [hnode, ← hnodenext, ← hprev a node rfl hnode]

/-- A list in this sense is linked in both directions. -/
theorem IsList.linked {head : Option ℕ} (h : IsList heap head nodes) :
    head = firstOr nodes none ∧ Linked heap none nodes none := by
  refine h.follows.linked h.prev_head fun a b node node' ha hnode hnext hnode' => ?_
  obtain ⟨-, node₁, hnode₁, hprev⟩ := (h.next_iff_prev a b).mp ⟨ha, node, hnode, hnext⟩
  cases hnode'.symm.trans hnode₁
  exact hprev

/-- The cells of a list and the memory around it determine the heap. -/
theorem Linked.heap_eq (h : Linked heap p nodes q) (h' : Linked heap' p nodes q)
    (hframe : ∀ b, b ∉ addresses nodes → heap' b = heap b) : heap' = heap := by
  refine LinkedList.heap_eq_of_agree (fun a v xs ys hsplit => ?_) hframe
  subst hsplit
  exact h'.get.trans h.get.symm

theorem lastOr_reverse (nodes : List (ℕ × α)) (p : Option ℕ) :
    lastOr p nodes.reverse = firstOr nodes p := by
  cases nodes with
  | nil => rfl
  | cons x rest => rw [List.reverse_cons, lastOr_concat, firstOr]

theorem firstOr_reverse (nodes : List (ℕ × α)) (p : Option ℕ) :
    firstOr nodes.reverse p = lastOr p nodes := by
  rw [← lastOr_reverse, List.reverse_reverse]

end DoublyLinked

end CS
