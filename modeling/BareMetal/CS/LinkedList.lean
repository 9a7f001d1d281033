import BareMetal.CS.Outcome
import Mathlib.Data.List.Nodup
import Mathlib.Logic.Function.Basic

/-!
# Singly linked lists on a heap

Cells are allocated at addresses and point to one another. A program that appends
keeps two pointers to a list, to its first and to its last cell. `Holds` ties such
a pair to the cells in their order, and `Lists` says the same of several lists on
one heap, which share no cell.

## Main results

* `Holds.insertLast` — a fresh cell goes to the end
* `Holds.removeFirst` — the first cell can be unlinked and freed
* `Holds.setValue` — a value is changed in place
* `Lists.insertLast`, `Lists.removeFirst`, `Lists.setValue` — the other lists do
  not notice
-/

namespace CS

namespace LinkedList

universe u

variable {ι : Type*} {α : Type u}

/-- A cell: a value and a pointer to the next cell. -/
structure Node (α : Type*) where
  value : α
  next : Option ℕ
  deriving DecidableEq, Repr

/-- The cells that are allocated. -/
abbrev Heap (α : Type*) := ℕ → Option (Node α)

/-- The pointers to the first and to the last cell. -/
structure Ends where
  head : Option ℕ
  tail : Option ℕ
  deriving DecidableEq, Repr

/-! ### Access to the heap -/

namespace Heap

variable {heap : Heap α} {a : ℕ} {node node' : Node α}

/-- Read the cell that `p` points to. -/
def load (heap : Heap α) : Option ℕ → Outcome (Node α)
  | none => .error (.outOfBounds 0)
  | some a =>
    match heap a with
    | none => .error (.outOfBounds a)
    | some node => .ok node

/-- Write the cell that `p` points to. -/
def store (heap : Heap α) (p : Option ℕ) (node : Node α) : Outcome (Heap α) :=
  match p with
  | none => .error (.outOfBounds 0)
  | some a =>
    match heap a with
    | none => .error (.outOfBounds a)
    | some _ => .ok (Function.update heap a (some node))

/-- `malloc`, and the fields of the new cell. -/
def alloc (heap : Heap α) (a : ℕ) (value : α) : Heap α :=
  Function.update heap a (some ⟨value, none⟩)

/-- `free`. -/
def free (heap : Heap α) (a : ℕ) : Heap α := Function.update heap a none

@[simp] theorem load_some (h : heap a = some node) : heap.load (some a) = .ok node := by
  simp only [load, h]

@[simp] theorem store_some (h : heap a = some node) :
    heap.store (some a) node' = .ok (Function.update heap a (some node')) := by
  simp only [store, h]

/-- A read that returns was from an allocated cell. -/
theorem exists_of_load {p : Option ℕ} (h : heap.load p = .ok node) :
    ∃ a, p = some a ∧ heap a = some node := by
  cases p with
  | none => cases h
  | some a =>
    refine ⟨a, rfl, ?_⟩
    cases hcell : heap a with
    | none =>
      simp only [load, hcell] at h
      cases h
    | some node' =>
      rw [load_some hcell] at h
      cases h
      rfl

end Heap

/-- Link the cell at `a` behind the last one: the first cell of an empty list, the
successor of `tail` otherwise. -/
def insertLast (heap : Heap α) (ends : Ends) (a : ℕ) : Outcome (Heap α × Ends) :=
  match ends.head with
  | none => .ok (heap, ⟨some a, some a⟩)
  | some _ => do
    let last ← heap.load ends.tail
    let heap ← heap.store ends.tail { last with next := some a }
    .ok (heap, { ends with tail := some a })

/-! ### Room for new cells -/

/-- Beyond some address nothing is allocated. -/
def Heap.Bounded (heap : Heap α) : Prop := ∃ bound, ∀ a, bound ≤ a → heap a = none

namespace Heap.Bounded

variable {heap heap' : Heap α} {ends ends' : Ends} {p : Option ℕ} {node : Node α}

theorem exists_free (h : heap.Bounded) : ∃ a, heap a = none := by
  obtain ⟨bound, hbound⟩ := h
  exact ⟨bound, hbound bound (Nat.le_refl bound)⟩

theorem update (h : heap.Bounded) (a : ℕ) (cell : Option (Node α)) :
    Heap.Bounded (Function.update heap a cell) := by
  obtain ⟨bound, hbound⟩ := h
  refine ⟨max bound (a + 1), fun b hb => ?_⟩
  rw [Function.update_of_ne (by omega)]
  exact hbound b (by omega)

theorem store (h : heap.Bounded) (hstore : heap.store p node = .ok heap') : heap'.Bounded := by
  unfold Heap.store at hstore
  split at hstore
  · cases hstore
  · split at hstore
    · cases hstore
    · cases hstore
      exact h.update _ _

theorem insertLast {a : ℕ} (h : heap.Bounded)
    (hinsert : insertLast heap ends a = .ok (heap', ends')) : heap'.Bounded := by
  unfold LinkedList.insertLast at hinsert
  split at hinsert
  · cases hinsert
    exact h
  · obtain ⟨last, -, hinsert⟩ := Outcome.bind_eq_ok.mp hinsert
    obtain ⟨heap₁, hstore, hinsert⟩ := Outcome.bind_eq_ok.mp hinsert
    cases hinsert
    exact h.store hstore

end Heap.Bounded

/-! ### Chains of cells -/

variable {heap heap' : Heap α} {ends : Ends} {nodes rest xs ys : List (ℕ × α)} {a b l m : ℕ}
  {v w : α}

/-- Where the cells are. -/
def addresses (nodes : List (ℕ × α)) : List ℕ := nodes.map Prod.fst

/-- The pointer to the first of the cells. -/
def first (nodes : List (ℕ × α)) : Option ℕ := (addresses nodes).head?

/-- Every cell points to the next one, and the last one to nothing. -/
def Chain (heap : Heap α) : List (ℕ × α) → Prop
  | [] => True
  | (a, v) :: rest => heap a = some ⟨v, first rest⟩ ∧ Chain heap rest

@[simp] theorem addresses_nil : addresses ([] : List (ℕ × α)) = [] := rfl

@[simp] theorem addresses_cons : addresses ((a, v) :: rest) = a :: addresses rest := rfl

@[simp] theorem addresses_append : addresses (xs ++ ys) = addresses xs ++ addresses ys :=
  List.map_append

theorem addresses_concat : addresses (xs ++ [(a, v)]) = addresses xs ++ [a] := by simp

theorem mem_addresses_concat {b : ℕ} :
    b ∈ addresses (xs ++ [(a, v)]) ↔ b ∈ addresses xs ∨ b = a := by simp

theorem exists_first_concat (xs : List (ℕ × α)) (x : ℕ × α) : ∃ c, first (xs ++ [x]) = some c := by
  cases xs <;> exact ⟨_, rfl⟩

/-- A list is cut at the cell with a given address. -/
theorem eq_append_cons_of_mem (h : a ∈ addresses nodes) :
    ∃ v xs ys, nodes = xs ++ (a, v) :: ys := by
  obtain ⟨⟨a, v⟩, hmem, rfl⟩ := List.mem_map.mp h
  obtain ⟨xs, ys, rfl⟩ := List.append_of_mem hmem
  exact ⟨v, xs, ys, rfl⟩

/-- Two heaps that agree at the cells of a list and around it. -/
theorem heap_eq_of_agree {β : Type*} {heap heap' : ℕ → Option β}
    (hcells : ∀ a v xs ys, nodes = xs ++ (a, v) :: ys → heap' a = heap a)
    (hframe : ∀ b, b ∉ addresses nodes → heap' b = heap b) : heap' = heap := by
  ext1 b
  by_cases hb : b ∈ addresses nodes
  · obtain ⟨v, xs, ys, hsplit⟩ := eq_append_cons_of_mem hb
    exact hcells b v xs ys hsplit
  · exact hframe b hb

theorem first_append_cons (xs ys ys' : List (ℕ × α)) (a : ℕ) (v v' : α) :
    first (xs ++ (a, v) :: ys) = first (xs ++ (a, v') :: ys') := by
  cases xs <;> rfl

theorem first_eq_none_iff : first nodes = none ↔ nodes = [] := by
  simp [first, addresses]

theorem first_drop (nodes : List (ℕ × α)) (m : ℕ) :
    first (nodes.drop m) = (addresses nodes)[m]? := by
  simp [first, addresses, List.head?_drop]

/-- The cells before and after the one with the index `m`. -/
theorem eq_append_cons_of_getElem? (hm : nodes[m]? = some (a, v)) :
    nodes = nodes.take m ++ (a, v) :: nodes.drop (m + 1) := by
  obtain ⟨hlt, hget⟩ := List.getElem?_eq_some_iff.mp hm
  rw [← hget, ← List.drop_eq_getElem_cons hlt, List.take_append_drop]

theorem addresses_set (hm : nodes[m]? = some (a, v)) (v' : α) :
    addresses (nodes.set m (a, v')) = addresses nodes := by
  have hlt := (List.getElem?_eq_some_iff.mp hm).1
  rw [List.set_eq_take_append_cons_drop, if_pos hlt]
  conv_rhs => rw [eq_append_cons_of_getElem? hm]
  simp

theorem chain_cons_append :
    Chain heap ((a, v) :: xs ++ ys) ↔
      heap a = some ⟨v, first (xs ++ ys)⟩ ∧ Chain heap (xs ++ ys) := Iff.rfl

theorem Chain.get (h : Chain heap (xs ++ (a, v) :: ys)) : heap a = some ⟨v, first ys⟩ := by
  induction xs with
  | nil => exact h.1
  | cons x xs ih => exact ih h.2

theorem Chain.allocated (h : Chain heap nodes) (ha : a ∈ addresses nodes) :
    ∃ node, heap a = some node := by
  obtain ⟨v, xs, ys, rfl⟩ := eq_append_cons_of_mem ha
  exact ⟨_, h.get⟩

/-- A chain depends on its own cells only. -/
theorem Chain.frame (h : Chain heap nodes) (hheap : ∀ b ∈ addresses nodes, heap' b = heap b) :
    Chain heap' nodes := by
  induction nodes with
  | nil => trivial
  | cons x rest ih =>
    refine ⟨(hheap x.1 (List.mem_cons_self ..)).trans h.1, ih h.2 fun b hb => ?_⟩
    exact hheap b (List.mem_cons_of_mem _ hb)

/-- A new cell is none of the list. -/
theorem Chain.fresh (h : Chain heap nodes) (ha : heap a = none) : a ∉ addresses nodes := by
  intro hmem
  obtain ⟨node, hnode⟩ := h.allocated hmem
  cases ha.symm.trans hnode

/-- A new cell leaves the list alone. -/
theorem Chain.alloc (h : Chain heap nodes) (ha : heap a = none) (v : α) :
    Chain (heap.alloc a v) nodes :=
  h.frame fun _ hb => Function.update_of_ne (ne_of_mem_of_not_mem hb (h.fresh ha)) ..

theorem Chain.of_append (h : Chain heap (xs ++ ys)) : Chain heap ys := by
  induction xs with
  | nil => exact h
  | cons x xs ih => exact ih h.2

/-- The cell at `a` gets another value and other successors. -/
theorem Chain.relink {zs : List (ℕ × α)} (h : Chain heap (xs ++ (a, v) :: ys))
    (hnodup : (addresses (xs ++ [(a, v)])).Nodup) (hzs : Chain heap zs) (ha : a ∉ addresses zs)
    (v' : α) :
    Chain (Function.update heap a (some ⟨v', first zs⟩)) (xs ++ (a, v') :: zs) := by
  induction xs with
  | nil =>
    refine ⟨Function.update_self .., hzs.frame fun b hb => Function.update_of_ne ?_ ..⟩
    rintro rfl
    exact ha hb
  | cons x xs ih =>
    -- a cell before `a` keeps its successor, whose address is the same
    obtain ⟨b, u⟩ := x
    obtain ⟨hcell, hchain⟩ := chain_cons_append.mp h
    obtain ⟨hb, hnodup⟩ := List.nodup_cons.mp hnodup
    have hba : b ≠ a := by
      rintro rfl
      exact hb (by simp)
    apply chain_cons_append.mpr
    refine ⟨?_, ih hchain hnodup⟩
    rw [Function.update_of_ne hba, hcell, first_append_cons xs ys zs a v v']

/-- The last cell gets a successor. -/
theorem Chain.link (h : Chain heap (xs ++ [(l, w)])) (hnodup : (addresses (xs ++ [(l, w)])).Nodup)
    (ha : heap a = none) (v : α) :
    Chain (Function.update (heap.alloc a v) l (some ⟨w, some a⟩)) (xs ++ [(l, w), (a, v)]) := by
  have hnew : Chain (heap.alloc a v) [(a, v)] := ⟨Function.update_self .., trivial⟩
  apply (h.alloc ha v).relink hnodup hnew
  rw [addresses_cons, addresses_nil, List.mem_singleton]
  rintro rfl
  exact h.fresh ha (by simp)

/-- A cell gets another value. -/
theorem Chain.setValue (h : Chain heap (xs ++ (a, v) :: ys))
    (hnodup : (addresses (xs ++ (a, v) :: ys)).Nodup) (v' : α) :
    Chain (Function.update heap a (some ⟨v', first ys⟩)) (xs ++ (a, v') :: ys) := by
  rw [List.append_cons, addresses_append] at hnodup
  have hrest : Chain heap ys := h.of_append.2
  apply h.relink hnodup.of_append_left hrest
  exact List.disjoint_of_nodup_append hnodup (by simp)

/-! ### One list -/

/-- The list between the two pointers has the given cells in this order. -/
structure Holds (heap : Heap α) (ends : Ends) (nodes : List (ℕ × α)) : Prop where
  head_eq : ends.head = first nodes
  tail_eq : ends.tail = (addresses nodes).getLast?
  chain : Chain heap nodes
  nodup : (addresses nodes).Nodup

theorem holds_nil (heap : Heap α) : Holds heap ⟨none, none⟩ [] :=
  ⟨rfl, rfl, trivial, List.nodup_nil⟩

theorem Holds.frame (h : Holds heap ends nodes)
    (hheap : ∀ b ∈ addresses nodes, heap' b = heap b) : Holds heap' ends nodes :=
  ⟨h.head_eq, h.tail_eq, h.chain.frame hheap, h.nodup⟩

theorem Holds.eq_nil (h : Holds heap ends nodes) (hhead : ends.head = none) : nodes = [] :=
  first_eq_none_iff.mp (h.head_eq.symm.trans hhead)

theorem Holds.eq_cons (h : Holds heap ends nodes) (hhead : ends.head = some a) :
    ∃ v rest, nodes = (a, v) :: rest := by
  have hfirst := h.head_eq.symm.trans hhead
  cases nodes with
  | nil => cases hfirst
  | cons node rest =>
    cases hfirst
    exact ⟨node.2, rest, rfl⟩

/-- A new cell is none of the list. -/
theorem Holds.fresh (h : Holds heap ends nodes) (ha : heap a = none) : a ∉ addresses nodes :=
  h.chain.fresh ha

theorem Holds.insertLast (h : Holds heap ends nodes) (ha : heap a = none) (v : α) :
    ∃ heap' ends', insertLast (heap.alloc a v) ends a = .ok (heap', ends') ∧
      Holds heap' ends' (nodes ++ [(a, v)]) ∧
      ∀ b, b ∉ addresses nodes → b ≠ a → heap' b = heap b := by
  have hnodup : (addresses (nodes ++ [(a, v)])).Nodup := by
    rw [addresses_concat, ← List.concat_eq_append]
    exact h.nodup.concat (h.fresh ha)
  have hself : heap.alloc a v a = some ⟨v, none⟩ := Function.update_self ..
  have hother : ∀ b, b ≠ a → heap.alloc a v b = heap b := fun b hb => Function.update_of_ne hb ..
  rcases List.eq_nil_or_concat nodes with rfl | ⟨xs, ⟨l, w⟩, rfl⟩
  · -- the new cell is the first one and the last one
    have hhead : ends.head = none := h.head_eq
    refine ⟨heap.alloc a v, ⟨some a, some a⟩, ?_, ⟨rfl, rfl, ⟨hself, trivial⟩, hnodup⟩,
      fun b _ => hother b⟩
    simp only [LinkedList.insertLast, hhead]
  · -- the last cell `l` gets the new one as its successor
    rw [List.concat_eq_append] at h hnodup ⊢
    have hlast := h.chain.get
    have hla : l ≠ a := by
      rintro rfl
      cases ha.symm.trans hlast
    have htail : ends.tail = some l := by
      rw [h.tail_eq, addresses_concat, List.getLast?_concat]
    obtain ⟨c, hhead⟩ : ∃ c, ends.head = some c := by
      rw [h.head_eq]
      cases xs <;> exact ⟨_, rfl⟩
    have hload : heap.alloc a v l = some ⟨w, none⟩ := (hother l hla).trans hlast
    refine ⟨Function.update (heap.alloc a v) l (some ⟨w, some a⟩), ⟨ends.head, some a⟩, ?_,
      ⟨?_, ?_, ?_, hnodup⟩, fun b hb hba => ?_⟩
    · simp only [LinkedList.insertLast, hhead, htail, Heap.load_some hload, Heap.store_some hload,
        Outcome.ok_bind]
    · rw [h.head_eq, List.append_assoc]
      exact first_append_cons xs [] [(a, v)] l w w
    · rw [addresses_concat, List.getLast?_concat]
    · rw [List.append_assoc]
      exact h.chain.link h.nodup ha v
    · have hbl : b ≠ l := by
        rintro rfl
        exact hb (by simp)
      rw [Function.update_of_ne hbl, hother b hba]

/-- The first cell, without which the list goes on. -/
theorem Holds.removeFirst (h : Holds heap ends ((a, v) :: rest)) :
    ends.head = some a ∧ heap a = some ⟨v, first rest⟩ ∧
      Holds (heap.free a) ⟨first rest, if first rest = none then none else ends.tail⟩ rest := by
  obtain ⟨hfresh, hnodup⟩ := List.nodup_cons.mp h.nodup
  refine ⟨h.head_eq, h.chain.1, rfl, ?_, h.chain.2.frame fun b hb => ?_, hnodup⟩
  · cases rest with
    | nil => rfl
    | cons x rest => exact h.tail_eq
  · refine Function.update_of_ne ?_ ..
    rintro rfl
    exact hfresh hb

/-- The cell with the index `m` points to the next one. -/
theorem Holds.get (h : Holds heap ends nodes) (hm : nodes[m]? = some (a, v)) :
    heap a = some ⟨v, first (nodes.drop (m + 1))⟩ := by
  have hchain := h.chain
  rw [eq_append_cons_of_getElem? hm] at hchain
  exact hchain.get

/-- The value of the cell with the index `m` is changed. -/
theorem Holds.setValue (h : Holds heap ends nodes) (hm : nodes[m]? = some (a, v)) (v' : α) :
    Holds (Function.update heap a (some ⟨v', first (nodes.drop (m + 1))⟩)) ends
      (nodes.set m (a, v')) := by
  have hsplit := eq_append_cons_of_getElem? hm
  have hlt := (List.getElem?_eq_some_iff.mp hm).1
  have hset : nodes.set m (a, v') = nodes.take m ++ (a, v') :: nodes.drop (m + 1) := by
    rw [List.set_eq_take_append_cons_drop, if_pos hlt]
  have hchain := h.chain
  have hnodup := h.nodup
  rw [hsplit] at hchain hnodup
  refine ⟨?_, ?_, hset ▸ hchain.setValue hnodup v', ?_⟩
  · rw [first, addresses_set hm]
    exact h.head_eq
  · rw [addresses_set hm, h.tail_eq]
  · rw [addresses_set hm]
    exact h.nodup

/-! ### Several lists -/

/-- Lists on one heap that share no cell. -/
structure Lists (heap : Heap α) (ends : ι → Ends) (nodes : ι → List (ℕ × α)) : Prop where
  holds : ∀ i, Holds heap (ends i) (nodes i)
  disjoint : ∀ i j, i ≠ j → ∀ a ∈ addresses (nodes i), a ∉ addresses (nodes j)

theorem lists_nil (heap : Heap α) :
    Lists heap (fun _ : ι => ⟨none, none⟩) (fun _ => ([] : List (ℕ × α))) :=
  ⟨fun _ => holds_nil heap, fun _ _ _ _ hmem => nomatch hmem⟩

section Update

variable [DecidableEq ι] {ends : ι → Ends} {nodes : ι → List (ℕ × α)} {i : ι}

/-- A change of the list `i` that touches its own cells and takes new ones only. -/
theorem Lists.update (h : Lists heap ends nodes) {ends' : Ends} {nodes' : List (ℕ × α)}
    (hi : Holds heap' ends' nodes')
    (hnew : ∀ b ∈ addresses nodes', b ∈ addresses (nodes i) ∨ heap b = none)
    (hframe : ∀ b, b ∉ addresses (nodes i) → heap b ≠ none → heap' b = heap b) :
    Lists heap' (Function.update ends i ends') (Function.update nodes i nodes') := by
  -- the cells of the other lists are allocated and not touched
  have hother : ∀ j, j ≠ i → ∀ b ∈ addresses (nodes j),
      b ∉ addresses (nodes i) ∧ heap b ≠ none := by
    intro j hj b hb
    refine ⟨h.disjoint j i hj b hb, fun hnone => (h.holds j).fresh hnone hb⟩
  constructor
  · intro j
    rcases eq_or_ne j i with rfl | hj
    · simpa using hi
    · rw [Function.update_of_ne hj, Function.update_of_ne hj]
      exact (h.holds j).frame fun b hb => hframe b (hother j hj b hb).1 (hother j hj b hb).2
  · -- no other list has a cell of the old list or a new one
    have hdisjoint : ∀ j, j ≠ i → ∀ b ∈ addresses (nodes j), b ∉ addresses nodes' := by
      intro j hj b hb hb'
      rcases hnew b hb' with hold | hfree
      · exact (hother j hj b hb).1 hold
      · exact (hother j hj b hb).2 hfree
    intro j k hjk b hj hk
    rcases eq_or_ne j i with rfl | hji
    · rw [Function.update_self] at hj
      rw [Function.update_of_ne hjk.symm] at hk
      exact hdisjoint k hjk.symm b hk hj
    · rw [Function.update_of_ne hji] at hj
      rcases eq_or_ne k i with rfl | hki
      · rw [Function.update_self] at hk
        exact hdisjoint j hji b hj hk
      · rw [Function.update_of_ne hki] at hk
        exact h.disjoint j k hjk b hj hk

theorem Lists.insertLast (h : Lists heap ends nodes) (i : ι) (ha : heap a = none) (v : α) :
    ∃ heap' ends', LinkedList.insertLast (heap.alloc a v) (ends i) a = .ok (heap', ends') ∧
      Lists heap' (Function.update ends i ends')
        (Function.update nodes i (nodes i ++ [(a, v)])) := by
  obtain ⟨heap', ends', hok, hholds, hframe⟩ := (h.holds i).insertLast ha v
  refine ⟨heap', ends', hok, h.update hholds (fun b hb => ?_) fun b hb hne => hframe b hb ?_⟩
  · rcases mem_addresses_concat.mp hb with hold | rfl
    · exact Or.inl hold
    · exact Or.inr ha
  · rintro rfl
    exact hne ha

theorem Lists.removeFirst (h : Lists heap ends nodes) (hi : nodes i = (a, v) :: rest) :
    (ends i).head = some a ∧ heap a = some ⟨v, first rest⟩ ∧
      Lists (heap.free a)
        (Function.update ends i
          ⟨first rest, if first rest = none then none else (ends i).tail⟩)
        (Function.update nodes i rest) := by
  obtain ⟨hhead, hcell, hholds⟩ := (hi ▸ h.holds i).removeFirst
  refine ⟨hhead, hcell, h.update hholds (fun b hb => ?_) fun b hb _ => ?_⟩
  · rw [hi]
    exact Or.inl (List.mem_cons_of_mem _ hb)
  · refine Function.update_of_ne ?_ ..
    rintro rfl
    exact hb (by rw [hi]; exact List.mem_cons_self ..)

theorem Lists.setValue (h : Lists heap ends nodes) (hm : (nodes i)[m]? = some (a, v)) (v' : α) :
    Lists (Function.update heap a (some ⟨v', first ((nodes i).drop (m + 1))⟩)) ends
      (Function.update nodes i ((nodes i).set m (a, v'))) := by
  have hmem : a ∈ addresses (nodes i) := by
    rw [eq_append_cons_of_getElem? hm]
    simp
  rw [← Function.update_eq_self i ends]
  refine h.update ((h.holds i).setValue hm v') (fun b hb => Or.inl ?_) fun b hb _ => ?_
  · rwa [addresses_set hm] at hb
  · refine Function.update_of_ne ?_ ..
    rintro rfl
    exact hb hmem

end Update

end LinkedList

end CS
