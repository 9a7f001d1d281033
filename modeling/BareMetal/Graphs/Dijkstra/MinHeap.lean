import BareMetal.CS.Outcome
import BareMetal.Math.HeapOrder
import Mathlib.Algebra.Order.Ring.Int

/-!
# The binary heap of `Dijkstra-MinHeap.c`

The heap keeps its nodes in the first `size` cells of one allocation. `push`
fills the first free cell and moves it towards the root, `pop` saves the root,
moves the last node into its place and sifts it away from the root. Both loops
are translated as they stand, with the temporaries of the three-line swap
folded into `swapCells`.

A node's `city_id` is carried along and never inspected, so its type is a
parameter. Cells are numbered by naturals, and what the code computes in `int` is
computed in `int`: `push` adds 1 to the size, and the loop of `pop` doubles the
index of a cell.

## Main results

* `push_spec`, `pop_spec` — one call on a well-formed heap
* `push_eq_error_iff`, `pop_error` — which calls do not return
* `Run.wellFormed`, `Run.stored_add_popped` — every sequence of calls
* `Run.isPriorityQueue` — the heap is a priority queue
* `Run.pop_leaves_int` — with `2 ^ 30 + 2` nodes the index of a child can leave `int`
-/

namespace BareMetal.Dijkstra

open CS Math.HeapOrder

/-- A city waiting in the heap, with the distance it was pushed at. -/
structure HeapNode (ι : Type) where
  cityId : ι
  distance : ℤ
  deriving DecidableEq, Repr

instance {ι : Type} [Inhabited ι] : Inhabited (HeapNode ι) := ⟨⟨default, 0⟩⟩

/-- The heap: an allocation of `capacity` nodes, the first `size` in use. -/
structure MinHeap (ι : Type) where
  heapNodes : ℕ → HeapNode ι
  capacity : ℤ
  size : ℤ

variable {ι : Type}

/-- The exit `check_heap_alloc` takes without memory for the nodes. -/
def heapUnallocated : Stop := .exit 1 "Cannot allocate space for the HeapNode\n"

/-- `init_minheap`: the allocation is zeroed. A negative capacity becomes a `size_t` that no
memory is large enough for. -/
def initMinheap [Inhabited ι] (capacity : ℤ) : Outcome (MinHeap ι) :=
  if capacity < 0 then .error heapUnallocated else .ok ⟨fun _ => default, capacity, 0⟩

/-- The exit `push` takes on a full heap. -/
def heapFull : Stop := .exit 1 "Max heap capacity reached, the program will terminate\n"

/-- The exit `pop` takes on an empty heap. -/
def heapEmpty : Stop := .exit 1 "Error: Heap is empty, cannot pop\n"

/-- The loop of `push`: swap the node at `current` with its parent for as long
as the parent is strictly greater. -/
def siftUp (heapNodes : ℕ → HeapNode ι) (current : ℕ) : ℕ → HeapNode ι :=
  if 0 < current then
    if (heapNodes (parent current)).distance ≤ (heapNodes current).distance then heapNodes
    else siftUp (swapCells heapNodes current (parent current)) (parent current)
  else heapNodes
termination_by current
decreasing_by exact parent_lt ‹_›

/-- `push`. -/
def push (heap : MinHeap ι) (cityId : ι) (distance : ℤ) : Outcome (MinHeap ι) := do
  let newSize ← addInt heap.size 1
  if newSize > heap.capacity then .error heapFull
  else
    -- the node is stored before the loop looks at its parent
    let current := heap.size.toNat
    let heapNodes := Function.update heap.heapNodes current ⟨cityId, distance⟩
    .ok { heap with heapNodes := siftUp heapNodes current, size := newSize }

/-- The index of the left child, as the loop of `pop` computes it. -/
def leftChild (current : ℕ) : Outcome ℤ := do
  let twice ← mulInt 2 current
  addInt twice 1

theorem leftChild_of_lt {current : ℕ} (h : current < 2 ^ 30) :
    leftChild current = .ok (2 * current + 1) := by
  have hmul : mulInt 2 current = .ok (2 * current) :=
    mulInt_of_range (intMin_le (by omega)) (by unfold intMax; omega)
  rw [leftChild, hmul, Outcome.ok_bind]
  exact addInt_of_range (intMin_le (by omega)) (by unfold intMax; omega)

theorem leftChild_of_le {current : ℕ} (h : 2 ^ 30 ≤ current) :
    leftChild current = .error .overflow := by
  have hmul : mulInt 2 current = .error .overflow := mulInt_overflow (by unfold intMax; omega)
  rw [leftChild, hmul, Outcome.error_bind]

theorem of_leftChild_eq_ok {current : ℕ} {left : ℤ} (h : leftChild current = .ok left) :
    left = 2 * current + 1 := by
  rcases Nat.lt_or_ge current (2 ^ 30) with hlt | hle
  · exact (Except.ok.inj ((leftChild_of_lt hlt).symm.trans h)).symm
  · cases (leftChild_of_le hle).symm.trans h

/-- The child `pop` compares with: the left one, unless the right one exists
and is strictly cheaper. -/
def smallestChild (heapNodes : ℕ → HeapNode ι) (size current : ℕ) : ℕ :=
  let leftChild := 2 * current + 1
  let rightChild := 2 * current + 2
  if rightChild < size ∧ (heapNodes rightChild).distance < (heapNodes leftChild).distance then
    rightChild
  else leftChild

theorem smallestChild_eq (heapNodes : ℕ → HeapNode ι) (size current : ℕ) :
    smallestChild heapNodes size current = 2 * current + 1 ∨
      smallestChild heapNodes size current = 2 * current + 2 := by
  unfold smallestChild
  dsimp only
  split_ifs
  · exact Or.inr rfl
  · exact Or.inl rfl

theorem smallestChild_lt {heapNodes : ℕ → HeapNode ι} {size current : ℕ}
    (h : 2 * current + 1 < size) : smallestChild heapNodes size current < size := by
  unfold smallestChild
  dsimp only
  split_ifs with hright
  · exact hright.1
  · exact h

/-- The loop of `pop`: swap the node at `current` with its smallest child for
as long as that child is strictly cheaper. -/
def siftDown (heapNodes : ℕ → HeapNode ι) (size current : ℕ) : Outcome (ℕ → HeapNode ι) :=
  match _hleft : leftChild current with
  | .error e => .error e
  | .ok left =>
    if left < size then
      -- the index behind a left child in use is still an `int`
      let smallest := smallestChild heapNodes size current
      if (heapNodes current).distance > (heapNodes smallest).distance then
        siftDown (swapCells heapNodes current smallest) size smallest
      else .ok heapNodes
    else .ok heapNodes
termination_by size - current
decreasing_by
  have hchild := of_leftChild_eq_ok ‹leftChild current = .ok left›
  have hlt : smallestChild heapNodes size current < size := smallestChild_lt (by omega)
  have heq := smallestChild_eq heapNodes size current
  omega

/-- `pop`. -/
def pop (heap : MinHeap ι) : Outcome (HeapNode ι × MinHeap ι) :=
  if heap.size ≤ 0 then .error heapEmpty
  else if heap.size = 1 then .ok (heap.heapNodes 0, { heap with size := heap.size - 1 })
  else do
    -- the root is kept aside, the last node takes its place
    let root := heap.heapNodes 0
    let heapNodes := Function.update heap.heapNodes 0 (heap.heapNodes (heap.size - 1).toNat)
    let size := heap.size - 1
    let heapNodes ← siftDown heapNodes size.toNat 0
    .ok (root, { heap with heapNodes := heapNodes, size := size })

/-! ### The sifts restore the order -/

/-- The keys the heap order is about. -/
def keys (heapNodes : ℕ → HeapNode ι) : ℕ → ℤ := HeapNode.distance ∘ heapNodes

theorem keys_swapCells (heapNodes : ℕ → HeapNode ι) (i j : ℕ) :
    keys (swapCells heapNodes i j) = swapCells (keys heapNodes) i j :=
  comp_swapCells HeapNode.distance heapNodes i j

theorem siftUp_ordered {heapNodes : ℕ → HeapNode ι} {size current : ℕ} (hlt : current < size)
    (h : UpHole (keys heapNodes) size current) :
    Ordered (keys (siftUp heapNodes current)) size := by
  fun_induction siftUp heapNodes current with
  | case1 heapNodes current hpos hle => exact h.ordered fun _ => hle
  | case2 heapNodes current hpos hgt ih =>
    have hup := parent_lt hpos
    refine ih (by omega) ?_
    rw [keys_swapCells]
    exact h.swap hpos hlt (not_le.mp hgt)
  | case3 heapNodes current hzero => exact h.ordered fun hpos => absurd hpos hzero

theorem siftUp_contents {heapNodes : ℕ → HeapNode ι} {size current : ℕ} (hlt : current < size) :
    contents (siftUp heapNodes current) size = contents heapNodes size := by
  fun_induction siftUp heapNodes current with
  | case1 => rfl
  | case2 heapNodes current hpos hgt ih =>
    have hup := parent_lt hpos
    rw [ih (by omega), contents_swapCells heapNodes hlt (by omega)]
  | case3 => rfl

/-- A sift towards the root writes no cell after its starting point. -/
theorem siftUp_frame {heapNodes : ℕ → HeapNode ι} {current i : ℕ} (hi : current < i) :
    siftUp heapNodes current i = heapNodes i := by
  fun_induction siftUp heapNodes current with
  | case1 => rfl
  | case2 heapNodes current hpos hgt ih =>
    have hup := parent_lt hpos
    rw [ih (by omega), swapCells_of_ne heapNodes (by omega) (by omega)]
  | case3 => rfl

/-- No child of `current` is cheaper than the smallest one. -/
theorem smallestChild_le {heapNodes : ℕ → HeapNode ι} {size current i : ℕ} (hpos : 0 < i)
    (hi : i < size) (hparent : parent i = current) :
    keys heapNodes (smallestChild heapNodes size current) ≤ keys heapNodes i := by
  unfold smallestChild keys
  dsimp only [Function.comp_apply]
  rcases (parent_eq_iff hpos).mp hparent with rfl | rfl
  · split_ifs with hright
    · exact hright.2.le
    · exact le_rfl
  · split_ifs with hright
    · exact le_rfl
    · exact not_lt.mp fun hlt => hright ⟨hi, hlt⟩

theorem siftDown_ordered {heapNodes cells : ℕ → HeapNode ι} {size current : ℕ}
    (h : DownHole (keys heapNodes) size current)
    (hok : siftDown heapNodes size current = .ok cells) : Ordered (keys cells) size := by
  fun_induction siftDown heapNodes size current with
  | case1 => cases hok
  | case2 heapNodes current left hleft hlt smallest hgt ih =>
    have hchild := of_leftChild_eq_ok hleft
    have heq := smallestChild_eq heapNodes size current
    have hpos : 0 < smallest := by omega
    refine ih ?_ hok
    rw [keys_swapCells]
    exact h.swap hpos ((parent_eq_iff hpos).mpr heq) (smallestChild_lt (by omega)) hgt
      fun i hipos hi hparent => smallestChild_le hipos hi hparent
  | case3 heapNodes current left hleft hlt smallest hle =>
    cases hok
    refine h.ordered fun i hpos hi hparent => ?_
    exact (not_lt.mp hle).trans (smallestChild_le hpos hi hparent)
  | case4 heapNodes current left hleft hleaf =>
    cases hok
    have hchild := of_leftChild_eq_ok hleft
    -- a cell without a left child has no child at all
    refine h.ordered fun i hpos hi hparent => ?_
    have := (parent_eq_iff hpos).mp hparent
    omega

theorem siftDown_contents {heapNodes cells : ℕ → HeapNode ι} {size current : ℕ}
    (hok : siftDown heapNodes size current = .ok cells) :
    contents cells size = contents heapNodes size := by
  fun_induction siftDown heapNodes size current with
  | case1 => cases hok
  | case2 heapNodes current left hleft hlt smallest hgt ih =>
    have hchild := of_leftChild_eq_ok hleft
    rw [ih hok, contents_swapCells heapNodes (by omega) (smallestChild_lt (by omega))]
  | case3 | case4 =>
    cases hok
    rfl

/-- A sift away from the root writes no cell at or after `size`. -/
theorem siftDown_frame {heapNodes cells : ℕ → HeapNode ι} {size current i : ℕ} (hi : size ≤ i)
    (hok : siftDown heapNodes size current = .ok cells) : cells i = heapNodes i := by
  fun_induction siftDown heapNodes size current with
  | case1 => cases hok
  | case2 heapNodes current left hleft hlt smallest hgt ih =>
    have hchild := of_leftChild_eq_ok hleft
    have hlt : smallest < size := smallestChild_lt (by omega)
    rw [ih hok, swapCells_of_ne heapNodes (by omega) (by omega)]
  | case3 | case4 =>
    cases hok
    rfl

/-- A sift away from the root only stops at a cell from `2 ^ 30` on. -/
theorem siftDown_error {heapNodes : ℕ → HeapNode ι} {size current : ℕ} {e : Stop}
    (hlt : current < size) (hstop : siftDown heapNodes size current = .error e) :
    e = .overflow ∧ 2 ^ 30 < size := by
  fun_induction siftDown heapNodes size current with
  | case1 heapNodes current e' hleft =>
    rcases Nat.lt_or_ge current (2 ^ 30) with hbelow | habove
    · cases (leftChild_of_lt hbelow).symm.trans hleft
    · cases (leftChild_of_le habove).symm.trans hleft
      cases hstop
      exact ⟨rfl, by omega⟩
  | case2 heapNodes current left hleft hin smallest hgt ih =>
    have hchild := of_leftChild_eq_ok hleft
    exact ih (smallestChild_lt (by omega)) hstop
  | case3 | case4 => cases hstop

/-! ### One call -/

namespace MinHeap

variable [Inhabited ι]

/-- The nodes in the heap. -/
def stored (heap : MinHeap ι) : Multiset (HeapNode ι) := contents heap.heapNodes heap.size.toNat

/-- The size is an `int` that respects the allocation, the nodes are in heap order, and nothing
was ever written past the allocation. -/
structure WellFormed (heap : MinHeap ι) : Prop where
  size_nonneg : 0 ≤ heap.size
  size_le : heap.size ≤ heap.capacity
  size_le_intMax : heap.size ≤ intMax
  ordered : Ordered (keys heap.heapNodes) heap.size.toNat
  untouched : ∀ i : ℕ, heap.capacity ≤ i → heap.heapNodes i = default

/-- `init_minheap` leaves an empty heap of the capacity that it was given. -/
theorem init_spec {capacity : ℤ} {heap : MinHeap ι} (h : initMinheap capacity = .ok heap) :
    heap.WellFormed ∧ heap.capacity = capacity ∧ heap.size = 0 ∧ heap.stored = 0 := by
  unfold initMinheap at h
  split_ifs at h with hneg
  cases h
  have hmax : (0 : ℤ) ≤ intMax := by decide
  exact ⟨⟨le_rfl, not_lt.mp hneg, hmax, ordered_zero _, fun _ _ => rfl⟩, rfl, rfl, rfl⟩

end MinHeap

open MinHeap

variable {heap heap' : MinHeap ι}

/-- `pop` stops on the empty heap, and on a heap with too many nodes for the indices of the
children. -/
theorem pop_error {e : Stop} (h : pop heap = .error e) :
    heap.size ≤ 0 ∧ e = heapEmpty ∨ 2 ^ 30 + 2 ≤ heap.size ∧ e = .overflow := by
  unfold pop at h
  split_ifs at h with hempty hone
  · cases h
    exact Or.inl ⟨hempty, rfl⟩
  · dsimp only at h
    cases hsift : siftDown (Function.update heap.heapNodes 0
        (heap.heapNodes (heap.size - 1).toNat)) (heap.size - 1).toNat 0 with
    | error e' =>
      rw [hsift] at h
      cases h
      obtain ⟨rfl, hsize⟩ := siftDown_error (by omega) hsift
      exact Or.inr ⟨by omega, rfl⟩
    | ok cells =>
      rw [hsift] at h
      cases h

/-- A heap with few nodes is popped. -/
theorem exists_pop (hpos : 0 < heap.size) (hfew : heap.size < 2 ^ 30 + 2) :
    ∃ node heap', pop heap = .ok (node, heap') := by
  cases hpop : pop heap with
  | error e => rcases pop_error hpop with ⟨hempty, -⟩ | ⟨hmany, -⟩ <;> omega
  | ok result => exact ⟨result.1, result.2, rfl⟩

variable [Inhabited ι]

/-- `push` stops exactly where no cell is free or the number of nodes leaves the `int`s. -/
theorem push_eq_error_iff {cityId : ι} {distance : ℤ} {e : Stop} (hwf : heap.WellFormed) :
    push heap cityId distance = .error e ↔
      heap.size < intMax ∧ heap.size = heap.capacity ∧ e = heapFull ∨
        heap.size = intMax ∧ e = .overflow := by
  have hnonneg := hwf.size_nonneg
  have hcapacity := hwf.size_le
  rcases hwf.size_le_intMax.lt_or_eq with hlt | heq
  · have hadd : addInt heap.size 1 = .ok (heap.size + 1) :=
      addInt_of_range (intMin_le (by omega)) (by omega)
    rw [push, hadd, Outcome.ok_bind]
    split_ifs with hfull
    · rw [Except.error.injEq]
      constructor
      · rintro rfl
        exact Or.inl ⟨hlt, by omega, rfl⟩
      · rintro (⟨-, -, rfl⟩ | ⟨heq, -⟩)
        · rfl
        · omega
    · refine iff_of_false nofun ?_
      rintro (⟨-, heq, -⟩ | ⟨heq, -⟩) <;> omega
  · have hadd : addInt heap.size 1 = .error .overflow := addInt_overflow (by omega)
    rw [push, hadd, Outcome.error_bind, Except.error.injEq]
    constructor
    · rintro rfl
      exact Or.inr ⟨heq, rfl⟩
    · rintro (⟨hlt, -⟩ | ⟨-, rfl⟩)
      · omega
      · rfl

theorem push_spec {cityId : ι} {distance : ℤ} (hwf : heap.WellFormed)
    (h : push heap cityId distance = .ok heap') :
    heap'.WellFormed ∧ heap'.capacity = heap.capacity ∧ heap'.size = heap.size + 1 ∧
      heap'.stored = ⟨cityId, distance⟩ ::ₘ heap.stored := by
  obtain ⟨newSize, hadd, h⟩ := Outcome.bind_eq_ok.mp h
  obtain ⟨rfl, hmax⟩ := of_addInt_eq_ok hadd
  split_ifs at h with hfull
  cases h
  have hnonneg := hwf.size_nonneg
  have hsucc : (heap.size + 1).toNat = heap.size.toNat + 1 := by omega
  -- the new node leaves the cells in use as they were
  have hbelow : ∀ i, i ≠ heap.size.toNat →
      Function.update heap.heapNodes heap.size.toNat ⟨cityId, distance⟩ i = heap.heapNodes i :=
    fun i hi => Function.update_of_ne hi _ _
  have hordered : Ordered (keys (Function.update heap.heapNodes heap.size.toNat
      ⟨cityId, distance⟩)) heap.size.toNat := by
    intro i hpos hi
    have hup := parent_lt hpos
    unfold keys
    rw [Function.comp_apply, Function.comp_apply, hbelow i (by omega), hbelow _ (by omega)]
    exact hwf.ordered i hpos hi
  refine ⟨⟨by dsimp only; omega, not_lt.mp hfull, hmax, ?_, fun i hi => ?_⟩, rfl, rfl, ?_⟩
  · dsimp only
    rw [hsucc]
    exact siftUp_ordered (Nat.lt_succ_self _) hordered.upHole_succ
  · dsimp only at hi ⊢
    rw [siftUp_frame (by omega), hbelow i (by omega)]
    exact hwf.untouched i hi
  · unfold stored
    dsimp only
    rw [hsucc, siftUp_contents (Nat.lt_succ_self _), contents_succ, Function.update_self,
      contents_congr fun i hi => hbelow i (by omega)]

theorem pop_spec {node : HeapNode ι} (hwf : heap.WellFormed)
    (h : pop heap = .ok (node, heap')) :
    heap'.WellFormed ∧ heap'.capacity = heap.capacity ∧ heap.size = heap'.size + 1 ∧
      heap.stored = node ::ₘ heap'.stored ∧ ∀ m ∈ heap.stored, node.distance ≤ m.distance := by
  have hleast : 0 < heap.size → ∀ m ∈ heap.stored, (heap.heapNodes 0).distance ≤ m.distance := by
    intro _ m hm
    obtain ⟨i, hi, rfl⟩ := mem_contents.mp hm
    exact hwf.ordered.root_le hi
  have hle := hwf.size_le
  have hmax := hwf.size_le_intMax
  unfold pop at h
  split_ifs at h with hempty hone
  · cases h
    have hlast : (heap.size - 1).toNat = 0 := by omega
    refine ⟨⟨by dsimp only; omega, by dsimp only; omega, by dsimp only; omega, ?_,
      hwf.untouched⟩, rfl, by dsimp only; omega, ?_, hleast (by omega)⟩
    · dsimp only
      rw [hlast]
      exact ordered_zero _
    · simp [stored, hone, contents_succ]
  · obtain ⟨cells, hsift, h⟩ := Outcome.bind_eq_ok.mp h
    cases h
    obtain ⟨n, hn⟩ : ∃ n : ℕ, heap.size = n + 2 := ⟨(heap.size - 2).toNat, by omega⟩
    have hlast : (heap.size - 1).toNat = n + 1 := by omega
    have hall : heap.size.toNat = n + 2 := by omega
    rw [hlast] at hsift
    -- only the root is overwritten before the sift
    have habove : ∀ i, 0 < i → Function.update heap.heapNodes 0 (heap.heapNodes (n + 1)) i =
        heap.heapNodes i := fun i hi => Function.update_of_ne (by omega) _ _
    refine ⟨⟨by dsimp only; omega, by dsimp only; omega, by dsimp only; omega, ?_,
      fun i hi => ?_⟩, rfl, by dsimp only; omega, ?_, hleast (by omega)⟩
    · dsimp only
      rw [hlast]
      refine siftDown_ordered (hwf.ordered.downHole_root (by omega) fun i hpos _ => ?_) hsift
      exact congrArg HeapNode.distance (habove i hpos)
    · dsimp only at hi ⊢
      rw [siftDown_frame (by omega) hsift, habove i (by omega)]
      exact hwf.untouched i hi
    · unfold stored
      dsimp only
      rw [hlast, siftDown_contents hsift, hall]
      exact contents_pop_root heap.heapNodes n

/-! ### Sequences of calls -/

/-- `Run capacity pushed popped heap`: some sequence of calls on
`init_minheap capacity`, all of which returned, pushed the nodes `pushed`,
popped the nodes `popped` and left `heap`. -/
inductive Run (capacity : ℤ) : List (HeapNode ι) → List (HeapNode ι) → MinHeap ι → Prop
  | init {heap : MinHeap ι} (h : initMinheap capacity = .ok heap) : Run capacity [] [] heap
  | push {pushed popped : List (HeapNode ι)} {heap heap' : MinHeap ι} {cityId : ι} {distance : ℤ}
      (run : Run capacity pushed popped heap) (h : push heap cityId distance = .ok heap') :
      Run capacity (pushed ++ [⟨cityId, distance⟩]) popped heap'
  | pop {pushed popped : List (HeapNode ι)} {heap heap' : MinHeap ι} {node : HeapNode ι}
      (run : Run capacity pushed popped heap) (h : pop heap = .ok (node, heap')) :
      Run capacity pushed (popped ++ [node]) heap'

namespace Run

variable {capacity : ℤ} {pushed popped : List (HeapNode ι)}

theorem wellFormed (run : Run capacity pushed popped heap) :
    heap.WellFormed ∧ heap.capacity = capacity := by
  induction run with
  | init h =>
    obtain ⟨hwf, hcap, -, -⟩ := init_spec h
    exact ⟨hwf, hcap⟩
  | push _ h ih =>
    obtain ⟨hwf, hcap, -, -⟩ := push_spec ih.1 h
    exact ⟨hwf, hcap.trans ih.2⟩
  | pop _ h ih =>
    obtain ⟨hwf, hcap, -, -, -⟩ := pop_spec ih.1 h
    exact ⟨hwf, hcap.trans ih.2⟩

/-- Nothing is lost and nothing is invented. -/
theorem stored_add_popped (run : Run capacity pushed popped heap) :
    heap.stored + (popped : Multiset (HeapNode ι)) = pushed := by
  induction run with
  | init h =>
    obtain ⟨-, -, -, hstored⟩ := init_spec h
    rw [hstored]
    rfl
  | push run h ih =>
    obtain ⟨-, -, -, hstored⟩ := push_spec run.wellFormed.1 h
    rw [hstored, Multiset.cons_add, ih, ← Multiset.coe_add, Multiset.coe_singleton,
      Multiset.add_comm, Multiset.singleton_add]
  | pop run h ih =>
    obtain ⟨-, -, -, hstored, -⟩ := pop_spec run.wellFormed.1 h
    rw [← ih, hstored, ← Multiset.coe_add, Multiset.coe_singleton, Multiset.cons_add,
      ← Multiset.add_assoc, Multiset.add_comm _ {_}, Multiset.singleton_add]

/-- **The heap is a priority queue.** After every sequence of calls the size
fits the allocation, the nodes are in heap order, the nodes in the heap are the
ones pushed and not popped, and the next `pop` returns a nearest one. A call
that takes no exit returns, except that a `push` onto `INT_MAX` nodes and a
`pop` from `2 ^ 30 + 2` nodes or more may leave `int`. -/
theorem isPriorityQueue (run : Run capacity pushed popped heap) :
    heap.capacity = capacity ∧ 0 ≤ heap.size ∧ heap.size ≤ capacity ∧
      (∀ i : ℕ, 0 < i → i < heap.size →
        (heap.heapNodes ((i - 1) / 2)).distance ≤ (heap.heapNodes i).distance) ∧
      heap.stored + (popped : Multiset (HeapNode ι)) = pushed ∧
      (∀ node heap', Dijkstra.pop heap = .ok (node, heap') →
        ∀ m ∈ heap.stored, node.distance ≤ m.distance) ∧
      (∀ cityId distance e, Dijkstra.push heap cityId distance = .error e →
        e = heapFull ∧ heap.size = capacity ∨ e = .overflow ∧ heap.size = intMax) ∧
      ∀ e, Dijkstra.pop heap = .error e →
        e = heapEmpty ∧ heap.size = 0 ∨ e = .overflow ∧ 2 ^ 30 + 2 ≤ heap.size := by
  obtain ⟨hwf, hcap⟩ := run.wellFormed
  refine ⟨hcap, hwf.size_nonneg, hcap ▸ hwf.size_le, fun i hpos hi => ?_, run.stored_add_popped,
    fun node heap' hpop => ?_, fun cityId distance e hpush => ?_, fun e hpop => ?_⟩
  · exact hwf.ordered i hpos (by omega)
  · exact (pop_spec hwf hpop).2.2.2.2
  -- the exits, and the indices that are no `int`
  · rcases (push_eq_error_iff hwf).mp hpush with ⟨-, hfull, rfl⟩ | ⟨hmax, rfl⟩
    · exact Or.inl ⟨rfl, hfull.trans hcap⟩
    · exact Or.inr ⟨rfl, hmax⟩
  · rcases pop_error hpop with ⟨hempty, rfl⟩ | ⟨hmany, rfl⟩
    · exact Or.inl ⟨rfl, le_antisymm hempty hwf.size_nonneg⟩
    · exact Or.inr ⟨rfl, hmany⟩

/-- Two pushes and a pop on a heap of two cells. -/
theorem isPriorityQueue_two_pushes : ∃ (heap : MinHeap ℤ) (node : HeapNode ℤ),
    Run 2 [⟨7, 5⟩, ⟨3, 2⟩] [node] heap ∧ heap.size ≤ 2 ∧
      heap.stored + {node} = {⟨7, 5⟩, ⟨3, 2⟩} := by
  obtain ⟨heap, run, hsize⟩ : ∃ heap : MinHeap ℤ, Run 2 [⟨7, 5⟩, ⟨3, 2⟩] [] heap ∧ heap.size = 2 :=
    ⟨_, ((init rfl).push rfl).push rfl, rfl⟩
  have hpos : 0 < heap.size := by omega
  obtain ⟨node, rest, hpop⟩ := exists_pop hpos (by omega)
  have run := run.pop hpop
  obtain ⟨-, -, hsize, -, hstored, -⟩ := isPriorityQueue run
  exact ⟨rest, node, run, hsize, hstored⟩

/-! ### A heap that is too large -/

/-- Nodes that are pushed in heap order stay where they are put. -/
theorem exists_of_ordered {f : ℕ → HeapNode ι} {n : ℕ} (hn : (n : ℤ) ≤ intMax)
    (hcapacity : (n : ℤ) ≤ capacity) (hordered : Ordered (keys f) n) :
    ∃ heap : MinHeap ι, Run capacity ((List.range n).map f) [] heap ∧ heap.size = n ∧
      ∀ i < n, heap.heapNodes i = f i := by
  induction n with
  | zero =>
    exact ⟨_, .init (if_neg (by omega)), rfl, fun i hi => absurd hi (Nat.not_lt_zero i)⟩
  | succ n ih =>
    obtain ⟨heap, run, hsize, hcells⟩ := ih (by omega) (by omega) fun i hpos hi =>
      hordered i hpos (Nat.lt_succ_of_lt hi)
    obtain ⟨-, hcap⟩ := run.wellFormed
    have hcurrent : heap.size.toNat = n := by omega
    have hadd : addInt heap.size 1 = .ok (heap.size + 1) :=
      addInt_of_range (intMin_le (by omega)) (by omega)
    -- the parent of the new node is not greater, so the sift ends at once
    have hstays : siftUp (Function.update heap.heapNodes n (f n)) n =
        Function.update heap.heapNodes n (f n) := by
      unfold siftUp
      split_ifs with hpos hle
      · rfl
      · have hup := parent_lt hpos
        rw [Function.update_self, Function.update_of_ne (by omega), hcells _ hup] at hle
        exact absurd (hordered n hpos (Nat.lt_succ_self n)) hle
      · rfl
    have hpush : Dijkstra.push heap (f n).cityId (f n).distance =
        .ok ⟨Function.update heap.heapNodes n (f n), heap.capacity, heap.size + 1⟩ := by
      rw [Dijkstra.push, hadd, Outcome.ok_bind, if_neg (by omega), hcurrent]
      dsimp only
      rw [hstays]
    have hpushed : (List.range (n + 1)).map f = (List.range n).map f ++ [f n] := by
      rw [List.range_succ, List.map_append, List.map_singleton]
    refine ⟨_, hpushed ▸ run.push hpush, by dsimp only; omega, fun i hi => ?_⟩
    rcases Nat.lt_succ_iff_lt_or_eq.mp hi with hlt | rfl
    · exact (Function.update_of_ne hlt.ne ..).trans (hcells i hlt)
    · exact Function.update_self ..

end Run

omit [Inhabited ι] in
theorem siftDown_of_le {heapNodes : ℕ → HeapNode ι} {size current : ℕ} (h : 2 ^ 30 ≤ current) :
    siftDown heapNodes size current = .error .overflow := by
  rw [siftDown]
  split
  · rename_i hleft
    cases (leftChild_of_le h).symm.trans hleft
    rfl
  · rename_i hleft
    cases (leftChild_of_le h).symm.trans hleft

omit [Inhabited ι] in
theorem siftDown_swap {heapNodes : ℕ → HeapNode ι} {size current : ℕ} (hcurrent : current < 2 ^ 30)
    (hleft : 2 * current + 1 < size)
    (hgt : (heapNodes (smallestChild heapNodes size current)).distance <
      (heapNodes current).distance) :
    siftDown heapNodes size current =
      siftDown (swapCells heapNodes current (smallestChild heapNodes size current)) size
        (smallestChild heapNodes size current) := by
  rw [siftDown]
  split
  · rename_i hchild
    cases (leftChild_of_lt hcurrent).symm.trans hchild
  · rename_i hchild
    have heq := of_leftChild_eq_ok hchild
    rw [if_pos (by omega)]
    exact if_pos hgt

/-- Distances that are 0 from the root to the cell `2 ^ 30`, which lies always to the left and then
once to the right. The last node is farther than all others. -/
def spine (i : ℕ) : ℤ :=
  if i = 2 ^ 30 + 1 then 2 else if i = 2 ^ 30 ∨ ∃ k < 30, i + 1 = 2 ^ k then 0 else 1

theorem spine_nonneg (i : ℕ) : 0 ≤ spine i := by
  unfold spine
  split_ifs <;> decide

theorem spine_left {k : ℕ} (hk : k < 30) : spine (2 ^ k - 1) = 0 := by
  have hpos := Nat.two_pow_pos k
  have hlt : 2 ^ k < 2 ^ 30 := Nat.pow_lt_pow_right (by decide) hk
  unfold spine
  rw [if_neg (by omega), if_pos (Or.inr ⟨k, hk, by omega⟩)]

theorem spine_right : spine (2 ^ 30) = 0 := by
  unfold spine
  rw [if_neg (by omega), if_pos (Or.inl rfl)]

/-- The left neighbour of the cell `2 ^ 30` is not on the way to it. -/
theorem spine_beside : spine (2 ^ 30 - 1) = 1 := by
  unfold spine
  rw [if_neg (by omega), if_neg]
  rintro (heq | ⟨k, hk, heq⟩)
  · omega
  · have hlt : 2 ^ k < 2 ^ 30 := Nat.pow_lt_pow_right (by decide) hk
    omega

theorem spine_le_one {i : ℕ} (hi : i ≤ 2 ^ 30) : spine i ≤ 1 := by
  unfold spine
  rw [if_neg (by omega)]
  split_ifs <;> decide

theorem spine_ordered : Ordered spine (2 ^ 30 + 2) := by
  intro i hpos hi
  have hup := parent_lt hpos
  have hone : spine (parent i) ≤ 1 := spine_le_one (by omega)
  rcases eq_or_ne i (2 ^ 30 + 1) with rfl | hlast
  · have htwo : spine (2 ^ 30 + 1) = 2 := if_pos rfl
    omega
  by_cases hon : i = 2 ^ 30 ∨ ∃ k < 30, i + 1 = 2 ^ k
  · -- the parent of a cell on the way is on the way
    obtain ⟨k, hk, hparent⟩ : ∃ k < 30, parent i = 2 ^ k - 1 := by
      unfold parent
      rcases hon with rfl | ⟨k, hk, heq⟩
      · exact ⟨29, by decide, by decide⟩
      · obtain ⟨j, rfl⟩ : ∃ j, k = j + 1 := Nat.exists_eq_succ_of_ne_zero (by rintro rfl; omega)
        exact ⟨j, by omega, by rw [Nat.pow_succ] at heq; omega⟩
    rw [hparent, spine_left hk]
    exact spine_nonneg i
  · have hoff : spine i = 1 := by
      unfold spine
      rw [if_neg hlast, if_neg hon]
    omega

omit [Inhabited ι] in
/-- The last node goes down the spine. The induction is on the cells of the spine below it. -/
theorem siftDown_spine {cells : ℕ → HeapNode ι} {k m : ℕ} (hk : k + m = 29)
    (hcurrent : (cells (2 ^ k - 1)).distance = 2)
    (hbelow : ∀ i, 2 ^ k ≤ i → i ≤ 2 ^ 30 → (cells i).distance = spine i) :
    siftDown cells (2 ^ 30 + 1) (2 ^ k - 1) = .error .overflow := by
  induction m generalizing cells k with
  | zero =>
    -- the last cell of the spine is a right child: no left child of it has an `int` index
    obtain rfl : k = 29 := hk
    have hchild : smallestChild cells (2 ^ 30 + 1) (2 ^ 29 - 1) = 2 ^ 30 := by
      have hcheaper : (cells (2 ^ 30)).distance < (cells (2 ^ 30 - 1)).distance := by
        rw [hbelow _ (by omega) le_rfl, hbelow _ (by omega) (by omega), spine_right, spine_beside]
        decide
      exact if_pos ⟨by omega, hcheaper⟩
    rw [siftDown_swap (by omega) (by omega), hchild, siftDown_of_le le_rfl]
    rw [hchild, hbelow _ (by omega) le_rfl, spine_right, hcurrent]
    decide
  | succ m ih =>
    have hpos := Nat.two_pow_pos k
    have hsucc : 2 ^ (k + 1) = 2 * 2 ^ k := Nat.pow_succ'
    have hle : 2 ^ (k + 1) ≤ 2 ^ 29 := Nat.pow_le_pow_right (by decide) (by omega)
    have hleft : 2 * (2 ^ k - 1) + 1 = 2 ^ (k + 1) - 1 := by omega
    have hright : 2 * (2 ^ k - 1) + 2 = 2 ^ (k + 1) := by omega
    have hdistance : (cells (2 ^ (k + 1) - 1)).distance = 0 := by
      rw [hbelow _ (by omega) (by omega), spine_left (by omega)]
    have hchild : smallestChild cells (2 ^ 30 + 1) (2 ^ k - 1) = 2 ^ (k + 1) - 1 := by
      unfold smallestChild
      dsimp only
      rw [hleft, hright, hdistance, hbelow _ (by omega) (by omega), if_neg]
      exact fun hcheaper => absurd hcheaper.2 (not_lt.mpr (spine_nonneg _))
    rw [siftDown_swap (by omega) (by omega), hchild]
    · refine ih (by omega) ?_ fun i hi hmax => ?_
      · rw [swapCells_right, hcurrent]
      · rw [swapCells_of_ne cells (by omega) (by omega), hbelow i (by omega) hmax]
    · rw [hchild, hdistance, hcurrent]
      decide

/-- **A heap of `2 ^ 30 + 2` nodes is too large.** They can be pushed so that the `pop` that follows
takes no exit and computes an index that is no `int`. -/
theorem Run.pop_leaves_int : ∃ (pushed : List (HeapNode ℤ)) (heap : MinHeap ℤ),
    Run (2 ^ 30 + 2) pushed [] heap ∧ Dijkstra.pop heap = .error .overflow := by
  let f (i : ℕ) : HeapNode ℤ := ⟨0, spine i⟩
  obtain ⟨heap, run, hsize, hcells⟩ : ∃ heap : MinHeap ℤ,
      Run (2 ^ 30 + 2) ((List.range (2 ^ 30 + 2)).map f) [] heap ∧ heap.size = (2 ^ 30 + 2 : ℕ) ∧
        ∀ i < 2 ^ 30 + 2, heap.heapNodes i = f i :=
    Run.exists_of_ordered (by decide) (by decide) spine_ordered
  refine ⟨_, heap, run, ?_⟩
  have hlast : (heap.size - 1).toNat = 2 ^ 30 + 1 := by omega
  have hsift : siftDown (Function.update heap.heapNodes 0 (heap.heapNodes (2 ^ 30 + 1)))
      (2 ^ 30 + 1) 0 = .error .overflow := by
    refine siftDown_spine (k := 0) (m := 29) rfl ?_ fun i hi hmax => ?_
    · exact congrArg HeapNode.distance (hcells (2 ^ 30 + 1) (by omega))
    · rw [Function.update_of_ne (by omega), hcells i (by omega)]
  rw [Dijkstra.pop, if_neg (by omega), if_neg (by omega)]
  dsimp only
  rw [hlast, hsift]
  rfl

end BareMetal.Dijkstra
