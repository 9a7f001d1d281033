import BareMetal.CS.CellHeap
import BareMetal.CS.LinkedList
import BareMetal.CS.Loop
import Mathlib.Data.Nat.Find
import Mathlib.Logic.Embedding.Basic

/-!
# Lists with a pointer to the first cell

A program that keeps no pointer to the last cell of a list walks: to the end, to
append there, or to the first cell whose value it looks for. `Chains` says what
several such lists on one heap hold.

## Main results

* `Chains.insertFirst` — a fresh cell goes to the front
* `Chains.insertLast`, `Chains.linkLast` — a walk to the end, and a fresh cell or a cell
  that is on no list there
* `Chains.seek` — a walk to the first cell that satisfies a test
* `Chains.setAt`, `Lists.setAt` — a value is changed in place
* `Chain.unique` — the first cell determines the list
* `Chain.values`, `Chain.freeAll` — loops that read or free a whole list

Where nothing is freed, an allocator is an embedding: no address is returned twice. Where
cells are freed, an `Allocator` returns some free address.
-/

namespace CS

namespace LinkedList

variable {ι : Type*} {α : Type} {heap heap' : Heap α} {head next : Option ℕ} {ends : Ends}
  {nodes nodes' rest xs ys : List (ℕ × α)} {a b l : ℕ} {v w : α} {p : α → Bool}

/-! ### Walks -/

/-- One pass of `while(current->next != NULL) current = current->next`. -/
def lastPass (heap : Heap α) (current : ℕ) : Outcome (Pass ℕ ℕ) := do
  let node ← heap.load (some current)
  match node.next with
  | none => .ok (.leave current)
  | some next => .ok (.again next)

/-- Link the cell at `a` behind the last one that a walk from `head` finds. -/
def linkLast (heap : Heap α) (head : Option ℕ) (a fuel : ℕ) : Outcome (Heap α × Option ℕ) :=
  match head with
  | none => .ok (heap, some a)
  | some current => do
    let last ← loop (lastPass heap) fuel current
    let node ← heap.load (some last)
    let heap ← heap.store (some last) { node with next := some a }
    .ok (heap, some current)

/-- One pass of a loop over a list that returns the first cell whose value satisfies `p`. -/
def seekPass (heap : Heap α) (p : α → Bool) : Option ℕ → Outcome (Pass (Option ℕ) (Option ℕ))
  | none => .ok (.leave none)
  | some current => do
    let node ← heap.load (some current)
    if p node.value then .ok (.leave (some current)) else .ok (.again node.next)

/-- The first cell from `head` on whose value satisfies `p`. -/
def seek (heap : Heap α) (p : α → Bool) (head : Option ℕ) (fuel : ℕ) : Outcome (Option ℕ) :=
  loop (seekPass heap p) fuel head

/-- The address of the first cell whose value satisfies `p`. -/
def find (p : α → Bool) (nodes : List (ℕ × α)) : Option ℕ :=
  (nodes.find? fun node => p node.2).map Prod.fst

/-- In a bucket, what passes the test is what passes it and belongs there. -/
theorem find?_bucket {β γ : Type} {f : γ → β} {belongs r : γ → Bool} {q : β → Bool}
    (h : ∀ c, r c = (belongs c && q (f c))) (l : List γ) :
    ((l.filter belongs).map f).find? q = (l.find? r).map f := by
  have hboth : r = fun c => decide (belongs c = true ∧ (q ∘ f) c = true) := by
    funext c
    rw [h c, Bool.eq_iff_iff, Bool.and_eq_true, decide_eq_true_eq, Function.comp_apply]
  rw [List.find?_map, List.find?_filter, hboth]

@[simp] theorem first_nil : first ([] : List (ℕ × α)) = none := rfl

@[simp] theorem first_cons : first ((a, v) :: rest) = some a := rfl

theorem Chain.leavesAfter_lastPass (h : Chain heap (xs ++ [(l, w)])) :
    ∃ a, first (xs ++ [(l, w)]) = some a ∧ LeavesAfter (lastPass heap) xs.length a l := by
  induction xs with
  | nil =>
    refine ⟨l, rfl, .leave ?_⟩
    rw [lastPass, Heap.load_some h.1]
    rfl
  | cons x xs ih =>
    obtain ⟨b, u⟩ := x
    obtain ⟨hcell, hchain⟩ := chain_cons_append.mp h
    obtain ⟨c, hfirst, hleaves⟩ := ih hchain
    refine ⟨b, rfl, .again ?_ hleaves⟩
    rw [lastPass, Heap.load_some hcell, Outcome.ok_bind, hfirst]

theorem Chain.leavesAfter_seekPass (h : Chain heap nodes) (p : α → Bool) :
    ∃ k, LeavesAfter (seekPass heap p) k (first nodes) (find p nodes) := by
  induction nodes with
  | nil => exact ⟨0, .leave rfl⟩
  | cons x rest ih =>
    obtain ⟨a, v⟩ := x
    have hpass : seekPass heap p (some a) =
        if p v then .ok (.leave (some a)) else .ok (.again (first rest)) := by
      rw [seekPass, Heap.load_some h.1]
      rfl
    by_cases hv : p v = true
    · rw [if_pos hv] at hpass
      have hfind : find p ((a, v) :: rest) = some a := by simp [find, hv]
      rw [hfind]
      exact ⟨0, .leave hpass⟩
    · rw [if_neg hv] at hpass
      have hfind : find p ((a, v) :: rest) = find p rest := by simp [find, hv]
      obtain ⟨k, hk⟩ := ih h.2
      rw [hfind]
      exact ⟨k + 1, .again hpass hk⟩

theorem Chain.seek (h : Chain heap nodes) (p : α → Bool) :
    Returns (LinkedList.seek heap p (first nodes)) (find p nodes) := by
  obtain ⟨k, hk⟩ := h.leavesAfter_seekPass p
  exact .loop hk

/-- The cells determine the list that starts at an address. -/
theorem Chain.unique (h : Chain heap nodes) (h' : Chain heap nodes')
    (hfirst : first nodes = first nodes') : nodes = nodes' := by
  induction nodes generalizing nodes' with
  | nil => exact (first_eq_none_iff.mp hfirst.symm).symm
  | cons x rest ih =>
    cases nodes' with
    | nil => cases first_eq_none_iff.mp hfirst
    | cons y rest' =>
      obtain ⟨a, v⟩ := x
      obtain ⟨b, w⟩ := y
      cases hfirst
      obtain ⟨rfl, hnext⟩ := Node.mk.inj (Option.some.inj (h.1.symm.trans h'.1))
      rw [ih h.2 h'.2 hnext]

/-- What a cell of the list holds. -/
theorem Chain.exists_next (h : Chain heap nodes) (hmem : (a, v) ∈ nodes) :
    ∃ next, heap a = some ⟨v, next⟩ := by
  obtain ⟨xs, ys, rfl⟩ := List.append_of_mem hmem
  exact ⟨_, h.get⟩

/-- The cell that a walk finds, and its value. -/
theorem find_eq_some (hfind : find p nodes = some a) :
    ∃ v, (nodes.map Prod.snd).find? p = some v ∧ (a, v) ∈ nodes := by
  obtain ⟨⟨b, v⟩, hsome, rfl⟩ := Option.map_eq_some_iff.mp hfind
  refine ⟨v, ?_, List.mem_of_find?_eq_some hsome⟩
  rw [List.find?_map]
  exact Option.map_eq_some_iff.mpr ⟨(b, v), hsome, rfl⟩

theorem find_eq_none_iff : find p nodes = none ↔ (nodes.map Prod.snd).find? p = none := by
  rw [List.find?_map, find, Option.map_eq_none_iff, Option.map_eq_none_iff]
  rfl

/-- A walk to the end links the same cell as a pointer to the end does. -/
theorem Holds.linkLast (h : Holds heap ends nodes) (ha : heap a = none) (v : α) :
    ∃ heap' ends', LinkedList.insertLast (heap.alloc a v) ends a = .ok (heap', ends') ∧
      Returns (LinkedList.linkLast (heap.alloc a v) ends.head a) (heap', ends'.head) := by
  obtain ⟨heap', ends', hok, -, -⟩ := h.insertLast ha v
  refine ⟨heap', ends', hok, ?_⟩
  rcases List.eq_nil_or_concat nodes with rfl | ⟨xs, ⟨l, w⟩, rfl⟩
  · have hhead : ends.head = none := h.head_eq
    simp only [LinkedList.insertLast, hhead] at hok
    cases hok
    exact .of_eq fun fuel => by simp only [LinkedList.linkLast, hhead]
  · rw [List.concat_eq_append] at h
    have hchain : Chain (heap.alloc a v) (xs ++ [(l, w)]) := by
      refine h.chain.frame fun b hb => Function.update_of_ne ?_ ..
      rintro rfl
      exact h.fresh ha hb
    obtain ⟨c, hfirst, hleaves⟩ := hchain.leavesAfter_lastPass
    have hhead : ends.head = some c := h.head_eq.trans hfirst
    have htail : ends.tail = some l := by
      rw [h.tail_eq, addresses_concat, List.getLast?_concat]
    -- the walk ends at the cell that `tail` points to
    simp only [LinkedList.insertLast, hhead, htail] at hok
    obtain ⟨node, hload, hok⟩ := Outcome.bind_eq_ok.mp hok
    obtain ⟨heap₁, hstore, hok⟩ := Outcome.bind_eq_ok.mp hok
    cases hok
    have hlink := (Returns.loop hleaves).bind (g := fun last _ => do
      let node ← (heap.alloc a v).load (some last)
      let heap ← (heap.alloc a v).store (some last) { node with next := some a }
      .ok (heap, some c)) (b := (heap', some c)) (.of_eq fun _ => by
        rw [hload, Outcome.ok_bind, hstore]
        rfl)
    rw [hhead]
    exact hlink

/-! ### Whole lists -/

/-- One pass of a loop that reads the values of a list. -/
def valuesPass (heap : Heap α) (s : Option ℕ × List α) :
    Outcome (Pass (Option ℕ × List α) (List α)) :=
  match s.1 with
  | none => .ok (.leave s.2)
  | some current => do
    let node ← heap.load (some current)
    .ok (.again (node.next, s.2 ++ [node.value]))

/-- The values of the cells from `head` on. -/
def values (heap : Heap α) (head : Option ℕ) (fuel : ℕ) : Outcome (List α) :=
  loop (valuesPass heap) fuel (head, [])

/-- One pass of a loop that frees the cells of a list: the next pointer is read first. -/
def freePass (s : Heap α × Option ℕ) : Outcome (Pass (Heap α × Option ℕ) (Heap α)) :=
  match s.2 with
  | none => .ok (.leave s.1)
  | some current => do
    let node ← s.1.load (some current)
    let heap ← CellHeap.free s.1 (some current)
    .ok (.again (heap, node.next))

/-- Free the cells from `head` on. -/
def freeAll (heap : Heap α) (head : Option ℕ) (fuel : ℕ) : Outcome (Heap α) :=
  loop freePass fuel (heap, head)

theorem Chain.values (h : Chain heap nodes) :
    Returns (LinkedList.values heap (first nodes)) (nodes.map Prod.snd) := by
  have hrest (nodes : List (ℕ × α)) (h : Chain heap nodes) (read : List α) :
      Returns (fun fuel => loop (valuesPass heap) fuel (first nodes, read))
        (read ++ nodes.map Prod.snd) := by
    induction nodes generalizing read with
    | nil =>
      rw [List.map_nil, List.append_nil]
      exact .loop_leave rfl
    | cons x rest ih =>
      obtain ⟨a, v⟩ := x
      have hread : read ++ ((a, v) :: rest).map Prod.snd = read ++ [v] ++ rest.map Prod.snd :=
        List.append_cons ..
      rw [hread]
      refine .loop_again ?_ (ih h.2 (read ++ [v]))
      rw [valuesPass, first_cons]
      dsimp only
      rw [Heap.load_some h.1]
      rfl
  exact hrest nodes h []

/-- Every cell of the list is freed, and no other one. -/
theorem Chain.freeAll (h : Chain heap nodes) (hnodup : (addresses nodes).Nodup) :
    ∃ heap', Returns (LinkedList.freeAll heap (first nodes)) heap' ∧
      (∀ b ∈ addresses nodes, heap' b = none) ∧ ∀ b, b ∉ addresses nodes → heap' b = heap b := by
  induction nodes generalizing heap with
  | nil => exact ⟨heap, .loop_leave rfl, by simp, fun _ _ => rfl⟩
  | cons x rest ih =>
    obtain ⟨a, v⟩ := x
    obtain ⟨hfresh, hnodup⟩ := List.nodup_cons.mp hnodup
    have hchain : Chain (Function.update heap a none) rest :=
      h.2.frame fun b hb => Function.update_of_ne (ne_of_mem_of_not_mem hb hfresh) ..
    obtain ⟨heap', hloop, hfreed, hframe⟩ := ih hchain hnodup
    refine ⟨heap', .loop_again ?_ hloop, fun b hb => ?_, fun b hb => ?_⟩
    · rw [freePass, first_cons]
      dsimp only
      rw [Heap.load_some h.1, Outcome.ok_bind, CellHeap.free_some h.1]
      rfl
    · rcases List.mem_cons.mp hb with rfl | hold
      · rw [hframe b hfresh, Function.update_self]
      · exact hfreed b hold
    · obtain ⟨hne, hb⟩ := not_or.mp (mt List.mem_cons.mpr hb)
      rw [hframe b hb, Function.update_of_ne hne]

/-! ### A value that changes in place -/

/-- The value at the address `a` becomes `v`. -/
def setAt (a : ℕ) (v : α) (nodes : List (ℕ × α)) : List (ℕ × α) :=
  nodes.map fun node => if node.1 = a then (a, v) else node

@[simp] theorem addresses_setAt (a : ℕ) (v : α) (nodes : List (ℕ × α)) :
    addresses (setAt a v nodes) = addresses nodes := by
  unfold addresses setAt
  rw [List.map_map]
  refine List.map_congr_left fun node _ => ?_
  by_cases h : node.1 = a
  · simp [h]
  · simp [h]

@[simp] theorem first_setAt (a : ℕ) (v : α) (nodes : List (ℕ × α)) :
    first (setAt a v nodes) = first nodes := by
  rw [first, addresses_setAt, first]

theorem Chain.setAt (h : Chain heap nodes) (ha : heap a = some ⟨w, next⟩) (v : α) :
    Chain (Function.update heap a (some ⟨v, next⟩)) (setAt a v nodes) := by
  induction nodes with
  | nil => exact h
  | cons x rest ih =>
    obtain ⟨b, u⟩ := x
    obtain ⟨hcell, hrest⟩ := h
    have hchain := ih hrest
    rcases eq_or_ne b a with rfl | hne
    · have hnext : next = first rest := congrArg Node.next (Option.some.inj (ha.symm.trans hcell))
      have hset : LinkedList.setAt b v ((b, u) :: rest) = (b, v) :: LinkedList.setAt b v rest := by
        simp [LinkedList.setAt]
      rw [hset]
      exact ⟨by rw [Function.update_self, first_setAt, hnext], hchain⟩
    · have hset : LinkedList.setAt a v ((b, u) :: rest) = (b, u) :: LinkedList.setAt a v rest := by
        simp [LinkedList.setAt, hne]
      rw [hset]
      exact ⟨by rw [Function.update_of_ne hne, first_setAt, hcell], hchain⟩

/-- A change at `a` that depends on the old value. -/
theorem Chain.map_eq_setAt (h : Chain heap nodes) (ha : heap a = some ⟨w, next⟩) (f : α → α) :
    (nodes.map fun node => if node.1 = a then (a, f node.2) else node) =
      LinkedList.setAt a (f w) nodes := by
  refine List.map_congr_left fun node hnode => ?_
  obtain ⟨b, v⟩ := node
  by_cases heq : b = a
  · subst heq
    obtain ⟨next', hcell⟩ := h.exists_next hnode
    have hvalue : v = w := congrArg Node.value (Option.some.inj (hcell.symm.trans ha))
    rw [if_pos rfl, if_pos rfl, hvalue]
  · rw [if_neg heq, if_neg heq]

theorem Holds.setAt (h : Holds heap ends nodes) (ha : heap a = some ⟨w, next⟩) (v : α) :
    Holds (Function.update heap a (some ⟨v, next⟩)) ends (setAt a v nodes) where
  head_eq := h.head_eq.trans (first_setAt a v nodes).symm
  tail_eq := by rw [addresses_setAt, h.tail_eq]
  chain := h.chain.setAt ha v
  nodup := by rw [addresses_setAt]; exact h.nodup

theorem Lists.setAt {ends : ι → Ends} {lists : ι → List (ℕ × α)} (h : Lists heap ends lists)
    (ha : heap a = some ⟨w, next⟩) (v : α) :
    Lists (Function.update heap a (some ⟨v, next⟩)) ends (fun i => setAt a v (lists i)) where
  holds i := (h.holds i).setAt ha v
  disjoint i j hij := by
    simp only [addresses_setAt]
    exact h.disjoint i j hij

/-! ### Several lists -/

/-- Lists on one heap that share no cell, each with a pointer to its first cell. -/
def Chains (heap : Heap α) (heads : ι → Option ℕ) (nodes : ι → List (ℕ × α)) : Prop :=
  Lists heap (fun i => ⟨heads i, (addresses (nodes i)).getLast?⟩) nodes

variable {heads : ι → Option ℕ} {lists : ι → List (ℕ × α)} {i : ι} {m : ℕ}

theorem chains_nil (heap : Heap α) :
    Chains heap (fun _ : ι => none) (fun _ => ([] : List (ℕ × α))) :=
  lists_nil heap

namespace Chains

theorem head_eq (h : Chains heap heads lists) (i : ι) : heads i = first (lists i) :=
  (h.holds i).head_eq

theorem fresh (h : Chains heap heads lists) (ha : heap a = none) (i : ι) :
    a ∉ addresses (lists i) :=
  (h.holds i).fresh ha

/-- A cell is on one list. -/
theorem eq_of_mem {j : ι} (h : Chains heap heads lists) (hi : a ∈ addresses (lists i))
    (hj : a ∈ addresses (lists j)) : i = j := by
  by_contra hne
  exact h.disjoint i j hne a hi hj

/-- The cells and the first addresses determine the lists. -/
theorem unique {lists' : ι → List (ℕ × α)} (h : Chains heap heads lists)
    (h' : Chains heap heads lists') : lists = lists' := by
  funext i
  exact (h.holds i).chain.unique (h'.holds i).chain ((h.head_eq i).symm.trans (h'.head_eq i))

/-- A change outside the lists. -/
theorem frame (h : Chains heap heads lists)
    (hheap : ∀ i, ∀ b ∈ addresses (lists i), heap' b = heap b) : Chains heap' heads lists :=
  ⟨fun i => (h.holds i).frame (hheap i), h.disjoint⟩

theorem seek (h : Chains heap heads lists) (i : ι) (p : α → Bool) :
    Returns (LinkedList.seek heap p (heads i)) (find p (lists i)) := by
  rw [h.head_eq i]
  exact (h.holds i).chain.seek p

variable [DecidableEq ι]

/-- A change of the list `i` that touches its own cells and takes new ones only. -/
theorem update (h : Chains heap heads lists) (hhead : head = first nodes)
    (hchain : Chain heap' nodes) (hnodup : (addresses nodes).Nodup)
    (hnew : ∀ b ∈ addresses nodes, b ∈ addresses (lists i) ∨ heap b = none)
    (hframe : ∀ b, b ∉ addresses (lists i) → heap b ≠ none → heap' b = heap b) :
    Chains heap' (Function.update heads i head) (Function.update lists i nodes) := by
  have hholds : Holds heap' ⟨head, (addresses nodes).getLast?⟩ nodes :=
    ⟨hhead, rfl, hchain, hnodup⟩
  have hlists := Lists.update h (i := i) hholds hnew hframe
  have hends : (fun j => (⟨Function.update heads i head j,
      (addresses (Function.update lists i nodes j)).getLast?⟩ : Ends)) =
      Function.update (fun j => ⟨heads j, (addresses (lists j)).getLast?⟩) i
        ⟨head, (addresses nodes).getLast?⟩ := by
    funext j
    rcases eq_or_ne j i with rfl | hj
    · simp
    · simp [Function.update_of_ne hj]
  unfold Chains
  rwa [hends]

theorem insertFirst (h : Chains heap heads lists) (i : ι) (ha : heap a = none) (v : α) :
    Chains (Function.update heap a (some ⟨v, heads i⟩)) (Function.update heads i (some a))
      (Function.update lists i ((a, v) :: lists i)) := by
  have hfresh := h.fresh ha i
  refine h.update rfl ⟨?_, ?_⟩ ?_ (fun b hb => ?_) fun b _ hne => Function.update_of_ne ?_ ..
  · rw [Function.update_self, h.head_eq i]
  · refine (h.holds i).chain.frame fun b hb => Function.update_of_ne ?_ ..
    rintro rfl
    exact hfresh hb
  · exact List.nodup_cons.mpr ⟨hfresh, (h.holds i).nodup⟩
  · rcases List.mem_cons.mp hb with rfl | hold
    · exact Or.inr ha
    · exact Or.inl hold
  · rintro rfl
    exact hne ha

/-- A walk to the end of the list `i`, and a fresh cell there. -/
theorem insertLast (h : Chains heap heads lists) (i : ι) (ha : heap a = none) (v : α) :
    ∃ heap' head', Returns (linkLast (heap.alloc a v) (heads i) a) (heap', head') ∧
      Chains heap' (Function.update heads i head')
        (Function.update lists i (lists i ++ [(a, v)])) ∧
      ∀ b, b ∉ addresses (lists i) → b ≠ a → heap' b = heap b := by
  obtain ⟨heap', ends', hok, hreturns⟩ := (h.holds i).linkLast ha v
  obtain ⟨heap₁, ends₁, hok₁, hholds, hframe⟩ := (h.holds i).insertLast ha v
  cases hok.symm.trans hok₁
  refine ⟨heap', ends'.head, hreturns, ?_, hframe⟩
  refine h.update hholds.head_eq hholds.chain hholds.nodup (fun b hb => ?_) fun b hb hne =>
    hframe b hb ?_
  · rcases mem_addresses_concat.mp hb with hold | rfl
    · exact Or.inl hold
    · exact Or.inr ha
  · rintro rfl
    exact hne ha

/-- A cell that is allocated and on no list goes to the end of the list `i`. -/
theorem linkLast (h : Chains heap heads lists) (i : ι) (ha : ∀ j, a ∉ addresses (lists j)) (v : α) :
    ∃ heap', Returns (LinkedList.linkLast (heap.alloc a v) (heads i) a)
        (heap', some ((heads i).getD a)) ∧
      Chains heap' (Function.update heads i (some ((heads i).getD a)))
        (Function.update lists i (lists i ++ [(a, v)])) ∧
      ∀ b, b ∉ addresses (lists i) → b ≠ a → heap' b = heap b := by
  -- to the lists the cell is as good as free
  have hfree : Chains (heap.free a) heads lists := by
    refine h.frame fun j b hb => Function.update_of_ne ?_ ..
    rintro rfl
    exact ha j hb
  obtain ⟨heap', head', hreturns, hchains, hframe⟩ :=
    hfree.insertLast i (Function.update_self ..) v
  have halloc : (heap.free a).alloc a v = heap.alloc a v := Function.update_idem ..
  have hhead : head' = some ((heads i).getD a) := by
    have hfirst := hchains.head_eq i
    rw [Function.update_self, Function.update_self] at hfirst
    rw [hfirst, h.head_eq i]
    cases lists i <;> rfl
  rw [halloc, hhead] at hreturns
  rw [hhead] at hchains
  refine ⟨heap', hreturns, hchains, fun b hb hne => ?_⟩
  rw [hframe b hb hne]
  exact Function.update_of_ne hne ..

omit [DecidableEq ι] in
theorem setAt (h : Chains heap heads lists) (ha : heap a = some ⟨w, next⟩) (v : α) :
    Chains (Function.update heap a (some ⟨v, next⟩)) heads
      (fun i => LinkedList.setAt a v (lists i)) := by
  have hlists := Lists.setAt h ha v
  refine ⟨fun i => ?_, hlists.disjoint⟩
  rw [addresses_setAt]
  exact hlists.holds i

end Chains

/-! ### Allocation without `free` -/

/-- The addresses of all calls of `malloc` from the `n`-th on are free. -/
def Fresh (malloc : ℕ ↪ ℕ) (heap : Heap α) (n : ℕ) : Prop := ∀ m, n ≤ m → heap (malloc m) = none

/-- One more cell, and perhaps changes of old ones. -/
theorem Fresh.succ {malloc : ℕ ↪ ℕ} {n : ℕ} (h : Fresh malloc heap n)
    (hframe : ∀ b, b ≠ malloc n → heap b = none → heap' b = none) :
    Fresh malloc heap' (n + 1) :=
  CellHeap.Fresh.succ h hframe

/-! ### Allocation with `free` -/

/-- An allocator that does not fail, and that may return an address again once the cell there is
freed. It knows the heap and the number of calls so far. -/
structure Allocator (α : Type) where
  malloc : ℕ → Heap α → ℕ
  fresh : ∀ (n : ℕ) (heap : Heap α), heap.Bounded → heap (malloc n heap) = none

open Classical in
/-- The allocator that returns the first free address. -/
noncomputable def Allocator.firstFit (α : Type) : Allocator α where
  malloc _ heap := if h : ∃ a, heap a = none then Nat.find h else 0
  fresh _ heap hbounded := by
    rw [dif_pos hbounded.exists_free]
    exact Nat.find_spec hbounded.exists_free

/-! ### Lists behind a header -/

/-- A struct with the pointer to the first cell. -/
structure Header where
  head : Option ℕ
  deriving DecidableEq, Repr

/-- The memory of a program that passes lists as pointers to such structs. -/
structure HeaderMemory (α : Type) where
  nodes : Heap α
  lists : ℕ → Option Header

namespace HeaderMemory

/-- `list->head`. -/
def loadHead (m : HeaderMemory α) (list : Option ℕ) : Outcome (Option ℕ) := do
  let header ← CellHeap.load m.lists list
  .ok header.head

/-- `list->head = p`. -/
def storeHead (m : HeaderMemory α) (list p : Option ℕ) : Outcome (HeaderMemory α) := do
  let lists ← CellHeap.modify m.lists list fun _ => ⟨p⟩
  .ok { m with lists := lists }

theorem loadHead_some {m : HeaderMemory α} (h : m.lists a = some ⟨head⟩) :
    m.loadHead (some a) = .ok head := by
  rw [loadHead, CellHeap.load_some h]
  rfl

theorem storeHead_some {m : HeaderMemory α} (h : m.lists a = some ⟨head⟩) (p : Option ℕ) :
    m.storeHead (some a) p = .ok { m with lists := Function.update m.lists a (some ⟨p⟩) } := by
  rw [storeHead, CellHeap.modify_some h]
  rfl

end HeaderMemory

end LinkedList

end CS
