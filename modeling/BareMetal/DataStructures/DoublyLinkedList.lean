import BareMetal.CS.CellHeap
import BareMetal.CS.DoublyLinked
import BareMetal.CS.FormattedIO
import BareMetal.CS.Loop
import Mathlib.Algebra.Order.Ring.Int
import Mathlib.Data.List.Induction

/-!
# The list of `data-structures/double_linked_list.c`

`dll_create` asks `calloc` for the size of a pointer, and writes the three fields of the list to
the block. `dll_append` keeps pointers to both ends and counts the nodes in an `int`. Printing and
freeing start at the tail and follow the pointers back. The walk that frees goes to the node
before first, and finds the one to be freed through the next pointer of that node. Both walks
look at the node at the tail in any case, which an empty list does not have.

## Main results

* `Represents.dllAppend` — one call
* `returns_dllPrintReverse`, `exists_dllFree` — the walks from the tail
* `dllAppends_complete_iff` — the block is too small for the list; in a block that is not, all of
  this holds after at least one call, and at most as many as an `int` counts
* `dllCreate_not_complete` — the list of `main`, and the walks on an empty list
-/

namespace BareMetal.DoublyLinkedList

open CS DoublyLinked FormattedIO
open LinkedList (addresses)

/-- `struct DoublyLinkedList`. -/
structure Dll where
  head : Option ℕ
  tail : Option ℕ
  size : ℤ
  deriving DecidableEq, Repr

/-- The memory, how many nodes have been allocated, and the list. -/
structure State where
  heap : Heap ℤ
  allocated : ℕ
  dll : Dll

/-- A list without nodes, in a program that has none. -/
def newList : State := ⟨fun _ => none, 0, ⟨none, none, 0⟩⟩

/-- `sizeof(struct DoublyLinkedList *)`. -/
def sizeofPointer : ℕ := 8

/-- A write of `size` bytes from the byte `offset` of a block of `bytes` bytes on. -/
def writeField (bytes offset size : ℕ) : Outcome Unit :=
  if offset + size ≤ bytes then .ok () else .error (.outOfBounds offset)

/-- The writes of `dll_create` to a block of `bytes` bytes. Later calls access the same fields of
the same block. -/
def createIn (bytes : ℕ) : Outcome State := do
  -- `head` and `tail` are pointers, and `size` is an `int` behind them
  writeField bytes 0 8
  writeField bytes 8 8
  writeField bytes 16 4
  .ok newList

/-- `dll_create`. -/
def dllCreate : Outcome State := createIn sizeofPointer

/-- The pointers to and from a new node, with the new head. -/
def wire (heap : Heap ℤ) (dll : Dll) (node : ℕ) : Outcome (Heap ℤ × Option ℕ) :=
  if dll.head = none then do
    let heap ← heap.setPrev (some node) none
    .ok (heap, some node)
  else do
    let heap ← heap.setPrev (some node) dll.tail
    let heap ← heap.setNext dll.tail (some node)
    .ok (heap, dll.head)

/-- `dll_append`. -/
def dllAppend (malloc : ℕ ↪ ℕ) (s : State) (value : ℤ) : Outcome State := do
  let (heap, head) ← wire (s.heap.alloc (malloc s.allocated) value) s.dll (malloc s.allocated)
  let size ← addInt s.dll.size 1
  .ok ⟨heap, s.allocated + 1, ⟨head, some (malloc s.allocated), size⟩⟩

/-- `printf("At index %d we stored the value %d\n", index, value)`. -/
def line (index value : ℤ) : List Char :=
  "At index ".toList ++ decimal index ++ " we stored the value ".toList ++ decimal value ++
    "\n".toList

/-- The walk that prints: the node, the counter and the output so far. -/
structure Printing where
  current : Option ℕ
  counter : ℤ
  out : List Char
  deriving DecidableEq, Repr

/-- The output with one more line, for the node of the walk. -/
def printLine (s : Printing) (value : ℤ) : Outcome (List Char) := do
  let index ← subInt s.counter 1
  .ok (s.out ++ line index value)

/-- One pass of the walk that prints. -/
def printPass (heap : Heap ℤ) (s : Printing) : Outcome (Pass Printing Printing) := do
  let node ← heap.load s.current
  if node.prev ≠ none then do
    let out ← printLine s node.value
    let counter ← subInt s.counter 1
    .ok (.again ⟨node.prev, counter, out⟩)
  else .ok (.leave s)

/-- `dll_print_reverse`, with what it prints. -/
def dllPrintReverse (s : State) (fuel : ℕ) : Outcome (List Char) := do
  let last ← loop (printPass s.heap) fuel ⟨s.dll.tail, s.dll.size, []⟩
  let node ← s.heap.load last.current
  printLine last node.value

/-- The walk that frees: the memory, the node, and the nodes freed so far. -/
structure Freeing where
  heap : Heap ℤ
  current : Option ℕ
  freed : List ℕ

/-- `free` of a node. -/
def freeNode (s : Freeing) (node : Option ℕ) : Outcome Freeing := do
  let heap ← CellHeap.free s.heap node
  .ok { s with heap := heap, freed := s.freed ++ node.toList }

/-- One pass of the walk that frees. -/
def freePass (s : Freeing) : Outcome (Pass Freeing Freeing) := do
  let node ← s.heap.load s.current
  if node.prev ≠ none then do
    let current ← s.heap.load node.prev
    let s ← freeNode { s with current := node.prev } current.next
    .ok (.again s)
  else .ok (.leave s)

/-- `dll_free`, with the memory that it leaves and the nodes that it has freed. -/
def dllFree (s : State) (fuel : ℕ) : Outcome (Heap ℤ × List ℕ) := do
  let last ← loop freePass fuel ⟨s.heap, s.dll.tail, []⟩
  let last ← freeNode last last.current
  .ok (last.heap, last.freed)

/-- Calls of `dll_append`, one after the other. -/
def appendAll (malloc : ℕ ↪ ℕ) (values : List ℤ) (s : State) : Outcome State :=
  values.foldlM (dllAppend malloc) s

/-- Calls of `dll_append` on a new list. -/
def dllAppends (malloc : ℕ ↪ ℕ) (values : List ℤ) : Outcome State :=
  dllCreate >>= appendAll malloc values

/-! ### Appending -/

/-- The list has the given nodes with the values `values`, and `malloc` has addresses left. -/
structure Represents (malloc : ℕ ↪ ℕ) (s : State) (values : List ℤ) (nodes : List (ℕ × ℤ)) :
    Prop where
  head_eq : s.dll.head = firstOr nodes none
  tail_eq : s.dll.tail = lastOr none nodes
  size_eq : s.dll.size = values.length
  linked : Linked s.heap none nodes none
  nodup : (addresses nodes).Nodup
  values_eq : nodes.map Prod.snd = values
  fresh : CellHeap.Fresh malloc s.heap s.allocated

variable {malloc : ℕ ↪ ℕ} {s : State} {values : List ℤ} {nodes xs ys : List (ℕ × ℤ)}
  {heap : Heap ℤ} {a l : ℕ} {v w : ℤ} {q : Option ℕ}

theorem represents_newList (malloc : ℕ ↪ ℕ) : Represents malloc newList [] [] :=
  ⟨rfl, rfl, rfl, trivial, List.nodup_nil, rfl, fun _ _ => rfl⟩

/-- The three fields take 20 bytes. -/
theorem createIn_eq_ok_iff (bytes : ℕ) (s : State) :
    createIn bytes = .ok s ↔ 20 ≤ bytes ∧ s = newList := by
  unfold createIn writeField
  constructor
  · intro hok
    obtain ⟨_, -, hok⟩ := Outcome.bind_eq_ok.mp hok
    obtain ⟨_, -, hok⟩ := Outcome.bind_eq_ok.mp hok
    obtain ⟨_, hsize, hok⟩ := Outcome.bind_eq_ok.mp hok
    split_ifs at hsize with hle
    exact ⟨hle, (Except.ok.inj hok).symm⟩
  · rintro ⟨hle, rfl⟩
    rw [if_pos (by omega), if_pos (by omega), if_pos (by omega)]
    rfl

/-- **`dll_append`**, as long as an `int` can count the nodes. -/
theorem Represents.dllAppend (h : Represents malloc s values nodes) (v : ℤ)
    (hmax : (values.length : ℤ) < intMax) :
    ∃ s' nodes', dllAppend malloc s v = .ok s' ∧ Represents malloc s' (values ++ [v]) nodes' := by
  obtain ⟨heap, allocated, head, tail, size⟩ := s
  obtain ⟨hhead, htail, hsize, hlinked, hnodup, hvalues, hfresh⟩ := h
  dsimp only at hhead htail hsize hlinked hfresh
  subst hhead htail hsize
  let a := malloc allocated
  have ha : heap a = none := hfresh _ (Nat.le_refl _)
  have hadd : addInt values.length 1 = .ok ((values ++ [v]).length : ℤ) := by
    rw [List.length_append, List.length_singleton]
    exact addInt_one hmax
  have hnodup' : (addresses (nodes ++ [(a, v)])).Nodup := by
    rw [LinkedList.addresses_concat, ← List.concat_eq_append]
    exact hnodup.concat (hlinked.fresh ha)
  have hvalues' : (nodes ++ [(a, v)]).map Prod.snd = values ++ [v] := by
    rw [List.map_append, hvalues]
    rfl
  rcases List.eq_nil_or_concat nodes with rfl | ⟨xs, ⟨l, w⟩, rfl⟩
  · -- the new node is the head and the tail
    obtain ⟨heap₁, h₁, hself₁, hframe₁⟩ := Heap.exists_setPrev (heap.alloc_self a v) none
    refine ⟨⟨heap₁, allocated + 1, ⟨some a, some a, (values ++ [v]).length⟩⟩, [(a, v)], ?_,
      ⟨rfl, rfl, rfl, ⟨hself₁, trivial⟩, hnodup', hvalues', ?_⟩⟩
    · simp only [DoublyLinkedList.dllAppend, wire, firstOr, if_true, hadd]
      rw [h₁]
      rfl
    · refine CellHeap.Fresh.succ hfresh fun b hb hnone => ?_
      exact (hframe₁ b hb).trans ((heap.alloc_of_ne v hb).trans hnone)
  · -- the old tail and the new node point to each other
    rw [List.concat_eq_append] at hlinked hnodup hnodup' hvalues' ⊢
    obtain ⟨heap₁, heap₂, h₁, h₂, hlinked', hframe⟩ := hlinked.exists_linkLast hnodup ha v
    have hfresh' : ∀ b, b ≠ a → heap b = none → heap₂ b = none := fun b hb hnone => by
      rw [hframe b (hlinked.fresh hnone) hb, hnone]
    rw [List.append_cons] at hlinked'
    have hne : firstOr (xs ++ [(l, w)]) none ≠ none := by
      cases xs <;> exact Option.some_ne_none _
    refine ⟨⟨heap₂, allocated + 1, ⟨firstOr (xs ++ [(l, w)]) none, some a,
      (values ++ [v]).length⟩⟩, xs ++ [(l, w)] ++ [(a, v)], ?_,
      ⟨?_, ?_, rfl, hlinked', hnodup', hvalues', CellHeap.Fresh.succ hfresh hfresh'⟩⟩
    · simp only [DoublyLinkedList.dllAppend, wire, if_neg hne, lastOr_concat, hadd]
      rw [h₁, Outcome.ok_bind, h₂]
      rfl
    · cases xs <;> rfl
    · rw [lastOr_concat]

/-! ### Printing -/

/-- The lines for the values, from the last one to the first. -/
def report (values : List ℤ) : List Char :=
  (values.zipIdx.reverse.map fun (value, index) => line index value).flatten

theorem report_concat (values : List ℤ) (v : ℤ) :
    report (values ++ [v]) = line values.length v ++ report values := by
  simp [report, List.zipIdx_append]

theorem printLine_eq {n : ℕ} (hn : ((n + 1 : ℕ) : ℤ) ≤ intMax) (current : Option ℕ)
    (out : List Char) (value : ℤ) :
    printLine ⟨current, (n + 1 : ℕ), out⟩ value = .ok (out ++ line n value) := by
  rw [printLine, subInt_one hn, Outcome.ok_bind, Nat.cast_succ, Int.add_sub_cancel]

/-- The walk to the first node. The induction is on the nodes `xs` before the current one. -/
theorem exists_loop_printPass (h : Linked heap none (xs ++ (l, w) :: ys) q)
    (hmax : ((xs.length + 1 : ℕ) : ℤ) ≤ intMax) (out : List Char) :
    ∃ c u next out', Returns (fun fuel => loop (printPass heap) fuel
        ⟨some l, (xs.length + 1 : ℕ), out⟩) ⟨some c, (0 + 1 : ℕ), out'⟩ ∧
      heap c = some ⟨u, next, none⟩ ∧
      out' ++ line 0 u = out ++ report (xs.map Prod.snd ++ [w]) := by
  have hcell := h.get
  induction xs using List.reverseRecOn generalizing l w ys out with
  | nil =>
    refine ⟨l, w, _, out, .loop_leave ?_, hcell, ?_⟩
    · rw [printPass, Heap.load_some hcell]
      rfl
    · rw [List.map_nil, report_concat]
      simp [report]
  | append_singleton xs x ih =>
    -- the current node is printed, and the walk goes on at `b`
    obtain ⟨b, u⟩ := x
    rw [lastOr_concat] at hcell
    rw [List.append_assoc, List.singleton_append] at h
    rw [List.length_append, List.length_singleton] at hmax ⊢
    obtain ⟨c, u', next, out', hrest, hc, hout⟩ :=
      ih h (by omega) (out ++ line (xs.length + 1 : ℕ) w) h.get
    refine ⟨c, u', next, out', .loop_again ?_ hrest, hc, ?_⟩
    · rw [printPass, Heap.load_some hcell, Outcome.ok_bind, if_pos (Option.some_ne_none b),
        printLine_eq hmax, Outcome.ok_bind, subInt_one hmax, Outcome.ok_bind]
      have hcount : ((xs.length + 1 + 1 : ℕ) : ℤ) - 1 = (xs.length + 1 : ℕ) := by omega
      rw [hcount]
    · rw [hout, List.map_append, List.map_singleton, report_concat _ w, List.append_assoc,
        List.length_append, List.length_map]
      rfl

/-- **`dll_print_reverse`** of a list with a node. -/
theorem Represents.returns_dllPrintReverse (h : Represents malloc s values nodes)
    (hne : values ≠ []) (hmax : (values.length : ℤ) ≤ intMax) :
    Returns (dllPrintReverse s) (report values) := by
  obtain ⟨-, htail, hsize, hlinked, -, rfl, -⟩ := h
  rcases List.eq_nil_or_concat nodes with rfl | ⟨xs, ⟨l, w⟩, rfl⟩
  · exact absurd rfl hne
  · rw [List.concat_eq_append] at htail hsize hlinked hmax ⊢
    rw [List.length_map, List.length_append, List.length_singleton] at hsize hmax
    rw [lastOr_concat] at htail
    obtain ⟨c, u, next, out', hloop, hc, hout⟩ := exists_loop_printPass hlinked hmax []
    rw [← htail, ← hsize] at hloop
    -- the first node is printed behind the loop
    have hprint : printLine ⟨some c, (0 + 1 : ℕ), out'⟩ u =
        .ok (report ((xs ++ [(l, w)]).map Prod.snd)) := by
      rw [printLine_eq (by decide), Nat.cast_zero, hout, List.map_append, List.nil_append]
      rfl
    refine hloop.bind (g := fun last _ => do
      let node ← s.heap.load last.current
      printLine last node.value) (.of_eq fun _ => ?_)
    rw [Heap.load_some hc, Outcome.ok_bind]
    exact hprint

/-! ### Freeing -/

/-- The walk frees the nodes behind the first one. The induction is on the nodes `xs` before
the current one, and the pointer `q` of the current one is that of a freed node. -/
theorem exists_loop_freePass (h : Linked heap none (xs ++ [(l, w)]) q)
    (hnodup : (addresses (xs ++ [(l, w)])).Nodup) (freed : List ℕ) :
    ∃ heap' c rest, Returns (fun fuel => loop freePass fuel ⟨heap, some l, freed⟩)
        ⟨heap', some c, freed ++ rest⟩ ∧
      heap' c ≠ none ∧ rest ++ [c] = (addresses (xs ++ [(l, w)])).reverse ∧
      ∀ b, heap' b = if b ∈ rest then none else heap b := by
  have hcell := h.get
  induction xs using List.reverseRecOn generalizing heap l w q freed with
  | nil =>
    refine ⟨heap, l, [], ?_, ?_, rfl, fun b => rfl⟩
    · rw [List.append_nil]
      refine .loop_leave ?_
      rw [freePass, Heap.load_some hcell]
      rfl
    · rw [hcell]
      exact Option.some_ne_none _
  | append_singleton xs x ih =>
    obtain ⟨b, u⟩ := x
    rw [lastOr_concat] at hcell
    rw [LinkedList.addresses_concat] at hnodup
    obtain ⟨hl, hnodup⟩ := List.nodup_cons.mp (List.nodup_middle.mp hnodup)
    rw [List.append_nil] at hl hnodup
    have hprev : heap b = some ⟨u, some l, lastOr none xs⟩ := by
      rw [List.append_assoc, List.singleton_append] at h
      exact h.get
    -- the current node is freed, and the nodes before it are left
    have hlinked : Linked (Function.update heap l none) none (xs ++ [(b, u)]) (some l) := by
      refine (linked_append.mp h).1.frame fun a ha => Function.update_of_ne ?_ ..
      rintro rfl
      exact hl ha
    obtain ⟨heap', c, rest, hrest, hc, hfreed, hheap⟩ :=
      ih hlinked hnodup (freed ++ [l]) hlinked.get
    have hpass : freePass ⟨heap, some l, freed⟩ =
        .ok (.again ⟨Function.update heap l none, some b, freed ++ [l]⟩) := by
      rw [freePass, Heap.load_some hcell, Outcome.ok_bind, if_pos (Option.some_ne_none b),
        Heap.load_some hprev, Outcome.ok_bind, freeNode, CellHeap.free_some hcell]
      rfl
    rw [← List.append_cons] at hrest
    refine ⟨heap', c, l :: rest, .loop_again hpass hrest, hc, ?_, fun a => ?_⟩
    · rw [List.cons_append, hfreed]
      simp
    · rw [hheap a]
      by_cases ha : a = l
      · simp [ha]
      · simp [ha, Function.update_of_ne]

/-- **`dll_free`** of a list with a node: each node is freed once, and nothing else is. -/
theorem Represents.exists_dllFree (h : Represents malloc s values nodes) (hne : values ≠ []) :
    ∃ heap', Returns (dllFree s) (heap', (addresses nodes).reverse) ∧
      ∀ b, heap' b = if b ∈ addresses nodes then none else s.heap b := by
  obtain ⟨-, htail, -, hlinked, hnodup, rfl, -⟩ := h
  rcases List.eq_nil_or_concat nodes with rfl | ⟨xs, ⟨l, w⟩, rfl⟩
  · exact absurd rfl hne
  · rw [List.concat_eq_append] at htail hlinked hnodup ⊢
    rw [lastOr_concat] at htail
    obtain ⟨heap, c, rest, hloop, hc, hfreed, hheap⟩ := exists_loop_freePass hlinked hnodup []
    obtain ⟨cell, hcell⟩ := Option.ne_none_iff_exists'.mp hc
    rw [← htail] at hloop
    refine ⟨Function.update heap c none, ?_, fun b => ?_⟩
    · -- the first node is freed behind the loop
      have hlast : freeNode ⟨heap, some c, rest⟩ (some c) =
          .ok ⟨Function.update heap c none, some c, rest ++ [c]⟩ := by
        rw [freeNode, CellHeap.free_some hcell]
        rfl
      rw [← hfreed]
      refine hloop.bind (g := fun last _ => do
        let last ← freeNode last last.current
        .ok (last.heap, last.freed)) (.of_eq fun _ => ?_)
      rw [List.nil_append, hlast]
      rfl
    · have hmem : b ∈ addresses (xs ++ [(l, w)]) ↔ b ∈ rest ++ [c] := by
        rw [hfreed, List.mem_reverse]
      simp only [hmem, List.mem_append, List.mem_singleton]
      by_cases hb : b = c
      · simp [hb]
      · simp [hb, hheap b, Function.update_of_ne]

/-! ### Any number of calls -/

/-- A call that returns has counted its node. -/
theorem Represents.length_lt (h : Represents malloc s values nodes) {s' : State}
    (hok : DoublyLinkedList.dllAppend malloc s v = .ok s') : (values.length : ℤ) < intMax := by
  obtain ⟨links, -, hok⟩ := Outcome.bind_eq_ok.mp hok
  obtain ⟨size, hadd, -⟩ := Outcome.bind_eq_ok.mp hok
  have hle := (of_addInt_eq_ok hadd).2
  rw [h.size_eq] at hle
  omega

theorem exists_appendAll (malloc : ℕ ↪ ℕ) (hmax : (values.length : ℤ) ≤ intMax) :
    ∃ s nodes, appendAll malloc values newList = .ok s ∧ Represents malloc s values nodes := by
  induction values using List.reverseRecOn with
  | nil => exact ⟨newList, [], rfl, represents_newList malloc⟩
  | append_singleton values v ih =>
    rw [List.length_append, List.length_singleton] at hmax
    obtain ⟨s, nodes, hrun, hs⟩ := ih (by omega)
    obtain ⟨s', nodes', hstep, hs'⟩ := hs.dllAppend v (by omega)
    refine ⟨s', nodes', ?_, hs'⟩
    rw [appendAll] at hrun ⊢
    rw [List.foldlM_append, hrun, Outcome.ok_bind, List.foldlM_cons, hstep]
    rfl

theorem length_le_of_appendAll (hrun : appendAll malloc values newList = .ok s) :
    (values.length : ℤ) ≤ intMax := by
  have hstart : (∃ nodes, Represents malloc newList [] nodes) ∧
      (([] : List ℤ).length : ℤ) ≤ intMax := ⟨⟨[], represents_newList malloc⟩, by decide⟩
  refine (foldlM_invariant (P := fun values s =>
    (∃ nodes, Represents malloc s values nodes) ∧ (values.length : ℤ) ≤ intMax)
      (fun values v s s' hs hok => ?_) hstart hrun).2
  obtain ⟨⟨nodes, hs⟩, -⟩ := hs
  have hlt := hs.length_lt hok
  obtain ⟨s₁, nodes', hstep, hs'⟩ := hs.dllAppend v hlt
  cases hok.symm.trans hstep
  refine ⟨⟨nodes', hs'⟩, ?_⟩
  rw [List.length_append, List.length_singleton]
  omega

/-- The list holds the values, linked in both directions, with pointers to its ends and the
number of its nodes. It is printed from its tail, and its nodes are freed once each. -/
def IsComplete (s : State) (values : List ℤ) : Prop :=
  ∃ nodes, IsList s.heap s.dll.head nodes ∧ s.dll.tail = (addresses nodes).getLast? ∧
    nodes.map Prod.snd = values ∧ s.dll.size = values.length ∧
    Returns (dllPrintReverse s) (report values) ∧
    ∃ heap', Returns (dllFree s) (heap', (addresses nodes).reverse) ∧
      ∀ b, heap' b = if b ∈ addresses nodes then none else s.heap b

theorem Represents.isComplete (h : Represents malloc s values nodes) (hne : values ≠ [])
    (hmax : (values.length : ℤ) ≤ intMax) : IsComplete s values := by
  refine ⟨nodes, ?_, ?_, h.values_eq, h.size_eq, h.returns_dllPrintReverse hne hmax,
    h.exists_dllFree hne⟩
  · rw [h.head_eq]
    exact h.linked.isList h.nodup
  · rw [h.tail_eq]
    rcases List.eq_nil_or_concat nodes with rfl | ⟨xs, ⟨a, v⟩, rfl⟩
    · rfl
    · rw [List.concat_eq_append, lastOr_concat, LinkedList.addresses_concat,
        List.getLast?_concat]

/-- The walks from the tail of an empty list read through a null pointer. -/
theorem dllPrintReverse_newList (fuel : ℕ) :
    dllPrintReverse newList (fuel + 1) = .error (.outOfBounds 0) := rfl

theorem dllFree_newList (fuel : ℕ) :
    dllFree newList (fuel + 1) = .error (.outOfBounds 0) := rfl

theorem IsComplete.ne_newList (h : IsComplete s values) : s ≠ newList := by
  rintro rfl
  obtain ⟨nodes, -, -, -, -, hprint, -⟩ := h
  obtain ⟨bound, hbound⟩ := hprint.enough
  cases (dllPrintReverse_newList bound).symm.trans (hbound (bound + 1) (Nat.le_succ bound))

theorem appendAll_complete_iff (malloc : ℕ ↪ ℕ) (values : List ℤ) :
    (∃ s, appendAll malloc values newList = .ok s ∧ IsComplete s values) ↔
      values ≠ [] ∧ (values.length : ℤ) ≤ intMax := by
  constructor
  · rintro ⟨s, hrun, hcomplete⟩
    refine ⟨?_, length_le_of_appendAll hrun⟩
    rintro rfl
    exact hcomplete.ne_newList (Except.ok.inj hrun).symm
  · rintro ⟨hne, hmax⟩
    obtain ⟨s, nodes, hrun, hs⟩ := exists_appendAll malloc hmax
    exact ⟨s, hrun, hs.isComplete hne hmax⟩

/-- The block that `dll_create` asks for has no room for the pointer to the tail. -/
theorem dllCreate_eq : dllCreate = .error (.outOfBounds 8) := rfl

/-- **The list is never complete**: `dll_create` writes behind its block. In a block of any other
size the list is complete after any calls exactly when the fields fit, when there was a call, and
when an `int` can count them. -/
theorem dllAppends_complete_iff (malloc : ℕ ↪ ℕ) (values : List ℤ) :
    (¬ ∃ s, dllAppends malloc values = .ok s ∧ IsComplete s values) ∧
      ∀ bytes, (∃ s, (createIn bytes >>= appendAll malloc values) = .ok s ∧ IsComplete s values) ↔
        20 ≤ bytes ∧ values ≠ [] ∧ (values.length : ℤ) ≤ intMax := by
  constructor
  · rintro ⟨s, hrun, -⟩
    rw [dllAppends, dllCreate_eq] at hrun
    cases hrun
  · intro bytes
    -- where the fields fit, what follows starts from the empty list
    rw [← appendAll_complete_iff malloc values]
    constructor
    · rintro ⟨s, hrun, hcomplete⟩
      obtain ⟨s₀, hcreate, happends⟩ := Outcome.bind_eq_ok.mp hrun
      obtain ⟨hle, rfl⟩ := (createIn_eq_ok_iff bytes s₀).mp hcreate
      exact ⟨hle, s, happends, hcomplete⟩
    · rintro ⟨hle, s, happends, hcomplete⟩
      refine ⟨s, ?_, hcomplete⟩
      rw [(createIn_eq_ok_iff bytes newList).mpr ⟨hle, rfl⟩]
      exact happends

/-- The calls of `main` end in `dll_create`. In a block of 24 bytes neither walk returns without a
call of `dll_append`. -/
theorem dllCreate_not_complete :
    dllAppends (Function.Embedding.refl ℕ) [14, 7, 13, 19, 4, 114] = .error (.outOfBounds 8) ∧
      createIn 24 = .ok newList ∧
      (∀ fuel, dllPrintReverse newList (fuel + 1) = .error (.outOfBounds 0)) ∧
      (∀ fuel, dllFree newList (fuel + 1) = .error (.outOfBounds 0)) ∧ ¬ IsComplete newList [] :=
  ⟨rfl, rfl, dllPrintReverse_newList, dllFree_newList, fun h => h.ne_newList rfl⟩

end BareMetal.DoublyLinkedList
