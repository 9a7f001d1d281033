import BareMetal.CS.Calls
import BareMetal.CS.Teardown

/-!
# The list of `data-structures/linked_list.c`

A struct on the heap points to the first node and counts the nodes. `list_append` walks to the
last node, and `list_get` ends the process when the count excludes the index.

## Main results

* `Represents.listAppend`, `Represents.listGet`, `Represents.listFree` — one call each
* `list_life_cycle` — any calls of `list_append` and `list_get`, and then `list_free`
-/

namespace BareMetal.IntList

open CS LinkedList

/-- `struct LinkedList`. -/
structure ListHeader where
  head : Option ℕ
  size : ℤ
  deriving DecidableEq, Repr

/-- The nodes, the lists, and how many calls of `malloc` and `calloc` there were. -/
structure Memory where
  nodes : Heap ℤ
  lists : ℕ → Option ListHeader
  mallocs : ℕ

/-- `list_create`, in a program that has allocated nothing. -/
def listCreate (malloc : ℕ ↪ ℕ) : Memory × Option ℕ :=
  let ll := malloc 0
  (⟨fun _ => none, Function.update (fun _ => none) ll (some ⟨none, 0⟩), 1⟩, some ll)

/-- What `list_append` prints. -/
def addedLine (isRoot : Bool) (value : ℤ) : String :=
  if isRoot then s!"Added root node with value: {value}\n"
  else s!"Added child node with value: {value}\n"

/-- `list_append`, with what it prints. -/
def listAppend (malloc : ℕ ↪ ℕ) (m : Memory) (list : Option ℕ) (value : ℤ) (fuel : ℕ) :
    Outcome (Memory × String) := do
  let node := malloc m.mallocs
  let header ← CellHeap.load m.lists list
  let (nodes, head) ← linkLast (m.nodes.alloc node value) header.head node fuel
  let size ← addInt header.size 1
  let lists ← CellHeap.modify m.lists list fun _ => ⟨head, size⟩
  .ok (⟨nodes, lists, m.mallocs + 1⟩, addedLine header.head.isNone value)

/-- One pass of the walk in `list_get`: the current node and the counter. -/
def getPass (nodes : Heap ℤ) (index : ℤ) (s : Option ℕ × ℤ) : Outcome (Pass (Option ℕ × ℤ) ℤ) := do
  let node ← nodes.load s.1
  match node.next with
  | none => .ok (.leave node.value)
  | some next =>
    if index = s.2 then .ok (.leave node.value)
    else do
      let counter ← addInt s.2 1
      .ok (.again (some next, counter))

/-- `list_get`. -/
def listGet (m : Memory) (list : Option ℕ) (index : ℤ) (fuel : ℕ) : Outcome ℤ := do
  let header ← CellHeap.load m.lists list
  if index < 0 ∨ header.size ≤ index then .error (.exit 1 "Index OutOfBound Error\n")
  else loop (getPass m.nodes index) fuel (header.head, 0)

/-- One pass of the loop of `list_free`: the memory, the current node, and what is printed. -/
def listFreePass (s : Heap ℤ × Option ℕ × String) :
    Outcome (Pass (Heap ℤ × Option ℕ × String) (Heap ℤ × String)) :=
  match s.2.1 with
  | none => .ok (.leave (s.1, s.2.2))
  | some current => do
    let node ← s.1.load (some current)
    let printed := s!"- Freeing node value = {node.value}\n"
    let nodes ← CellHeap.free s.1 (some current)
    .ok (.again (nodes, node.next, s.2.2 ++ printed))

/-- `list_free`, with what it prints. -/
def listFree (m : Memory) (list : Option ℕ) (fuel : ℕ) : Outcome (Memory × String) := do
  let header ← CellHeap.load m.lists list
  let (nodes, printed) ←
    loop listFreePass fuel (m.nodes, header.head, "\nMemory Cleanup Process Called ---\n")
  let lists ← CellHeap.free m.lists list
  .ok (⟨nodes, lists, m.mallocs⟩, printed ++ "- Freeing LinkedList wrapper\n" ++
    "----------------------------------\n")

/-! ### One call -/

/-- One list is allocated, and its nodes hold the values. -/
structure Represents (malloc : ℕ ↪ ℕ) (values : List ℤ) (nodes : List (ℕ × ℤ)) (m : Memory) :
    Prop where
  lists_eq : m.lists =
    Function.update (fun _ => none) (malloc 0) (some ⟨first nodes, values.length⟩)
  fresh : Fresh malloc m.nodes m.mallocs
  chain : Chain m.nodes nodes
  nodup : (addresses nodes).Nodup
  values_eq : nodes.map Prod.snd = values
  covers : ∀ a, m.nodes a ≠ none → a ∈ addresses nodes
  size_le : (values.length : ℤ) ≤ intMax

variable {malloc : ℕ ↪ ℕ} {values : List ℤ} {nodes : List (ℕ × ℤ)} {m : Memory} {heap : Heap ℤ}
  {index : ℤ}

theorem represents_listCreate (malloc : ℕ ↪ ℕ) : Represents malloc [] [] (listCreate malloc).1 where
  lists_eq := rfl
  fresh _ _ := rfl
  chain := trivial
  nodup := List.nodup_nil
  values_eq := rfl
  covers _ hne := absurd rfl hne
  size_le := by simp [intMax]

/-- The struct with the count. -/
theorem Represents.load_list (h : Represents malloc values nodes m) :
    CellHeap.load m.lists (some (malloc 0)) = .ok ⟨first nodes, values.length⟩ := by
  rw [h.lists_eq, CellHeap.load_single]

theorem Represents.isNone_first (h : Represents malloc values nodes m) :
    (first nodes).isNone = values.isEmpty := by
  rw [← h.values_eq]
  cases nodes with
  | nil => rfl
  | cons x rest => rfl

/-- The last node that is there points to the new one. -/
theorem Represents.listAppend (h : Represents malloc values nodes m)
    (hroom : (values.length : ℤ) < intMax) (value : ℤ) :
    ∃ m', Returns (listAppend malloc m (some (malloc 0)) value)
        (m', addedLine values.isEmpty value) ∧
      Represents malloc (values ++ [value]) (nodes ++ [(malloc m.mallocs, value)]) m' := by
  have hholds : Holds m.nodes ⟨first nodes, (addresses nodes).getLast?⟩ nodes :=
    ⟨rfl, rfl, h.chain, h.nodup⟩
  have hfree := h.fresh m.mallocs (Nat.le_refl _)
  -- the walk to the last node ends where a list with a tail pointer would insert
  obtain ⟨heap, ends, hok, hlink⟩ := hholds.linkLast hfree value
  obtain ⟨heap', ends', hok', hholds', hframe⟩ := hholds.insertLast hfree value
  cases hok.symm.trans hok'
  have hload := h.load_list
  have hadd : addInt values.length 1 = .ok ((values ++ [value]).length : ℤ) := by
    rw [List.length_append, List.length_singleton]
    exact addInt_one hroom
  refine ⟨⟨heap, Function.update (fun _ => none) (malloc 0)
    (some ⟨ends.head, (values ++ [value]).length⟩), m.mallocs + 1⟩, ?_, ?_⟩
  · refine (hlink.bind (g := fun x _ => do
      let size ← addInt values.length 1
      let lists ← CellHeap.modify m.lists (some (malloc 0)) fun _ => ⟨x.2, size⟩
      .ok (⟨x.1, lists, m.mallocs + 1⟩, addedLine values.isEmpty value)) (.of_eq fun _ => ?_)).congr
        fun fuel => ?_
    · dsimp only
      rw [hadd, Outcome.ok_bind, h.lists_eq, CellHeap.modify_single, Outcome.ok_bind]
    · rw [IntList.listAppend, hload, Outcome.ok_bind, ← h.isNone_first]
  · refine ⟨?_, ?_, hholds'.chain, hholds'.nodup, ?_, fun a ha => ?_, ?_⟩
    · dsimp only
      rw [← hholds'.head_eq]
    · refine h.fresh.succ fun b hb hnone => ?_
      dsimp only
      rw [hframe b (hholds.fresh hnone) hb, hnone]
    · rw [List.map_append, h.values_eq]
      rfl
    · rw [mem_addresses_concat]
      by_contra hnot
      obtain ⟨hold, hne⟩ := not_or.mp hnot
      dsimp only at ha
      rw [hframe a hold hne] at ha
      exact hold (h.covers a ha)
    · rw [List.length_append, List.length_singleton]
      omega

/-- The count overflows when it is the greatest `int`. -/
theorem Represents.lt_of_listAppend (h : Represents malloc values nodes m) {value : ℤ} {fuel : ℕ}
    {out : Memory × String}
    (hok : IntList.listAppend malloc m (some (malloc 0)) value fuel = .ok out) :
    (values.length : ℤ) < intMax := by
  unfold IntList.listAppend at hok
  rw [h.load_list, Outcome.ok_bind] at hok
  obtain ⟨x, -, hok⟩ := Outcome.bind_eq_ok.mp hok
  obtain ⟨size, hadd, -⟩ := Outcome.bind_eq_ok.mp hok
  have hle := (of_addInt_eq_ok hadd).2
  dsimp only at hle
  omega

/-- The walk from the counter `k` on, to the node at the distance `j`. -/
theorem returns_getPass (h : Chain heap nodes) {k : ℤ} {j : ℕ} {value : ℤ}
    (hj : (nodes.map Prod.snd)[j]? = some value) (hk : 0 ≤ k) (hindex : index = k + j)
    (hmax : index ≤ intMax) :
    Returns (fun fuel => loop (getPass heap index) fuel (first nodes, k)) value := by
  induction nodes generalizing k j with
  | nil => cases hj
  | cons x rest ih =>
    obtain ⟨a, v⟩ := x
    obtain ⟨hcell, hrest⟩ := h
    cases j with
    | zero =>
      cases hj
      refine .loop_leave ?_
      rw [getPass, first_cons, Heap.load_some hcell, Outcome.ok_bind]
      -- the last node is returned without a look at the counter
      cases first rest with
      | none => rfl
      | some next => exact if_pos (by rw [hindex]; omega)
    | succ j =>
      obtain ⟨next, hnext⟩ : ∃ next, first rest = some next := by
        apply Option.ne_none_iff_exists'.mp
        intro hnone
        rw [LinkedList.first_eq_none_iff.mp hnone] at hj
        cases hj
      have hrun := ih hrest (k := k + 1) hj (by omega) (by omega)
      refine .loop_again ?_ hrun
      rw [getPass, first_cons, Heap.load_some hcell, Outcome.ok_bind, hnext]
      dsimp only
      rw [if_neg (by omega), addInt_of_range (by simp only [intMin]; omega) (by omega),
        Outcome.ok_bind]

theorem Represents.listGet (h : Represents malloc values nodes m) {value : ℤ} (hindex : 0 ≤ index)
    (hvalue : values[index.toNat]? = some value) :
    Returns (listGet m (some (malloc 0)) index) value := by
  obtain ⟨hlt, -⟩ := List.getElem?_eq_some_iff.mp hvalue
  have hmax := h.size_le
  have hin : ¬ (index < 0 ∨ (values.length : ℤ) ≤ index) := by omega
  rw [← h.values_eq] at hvalue
  have hdistance : index = 0 + index.toNat := by omega
  have hwalk := returns_getPass h.chain hvalue (le_refl 0) hdistance (by omega)
  refine hwalk.congr fun fuel => ?_
  rw [IntList.listGet, h.load_list, Outcome.ok_bind, if_neg hin]

/-- An index that the count excludes ends the process. -/
theorem Represents.listGet_exit (h : Represents malloc values nodes m)
    (hindex : ¬ (0 ≤ index ∧ index < values.length)) (fuel : ℕ) :
    IntList.listGet m (some (malloc 0)) index fuel =
      .error (.exit 1 "Index OutOfBound Error\n") := by
  have hout : index < 0 ∨ (values.length : ℤ) ≤ index := by omega
  rw [IntList.listGet, h.load_list, Outcome.ok_bind, if_pos hout]

/-- What `list_free` prints for the nodes. -/
def freedLines (values : List ℤ) : String :=
  values.foldl (fun printed value => printed ++ s!"- Freeing node value = {value}\n")
    "\nMemory Cleanup Process Called ---\n"

theorem exists_listFreePass (h : Chain heap nodes) (hnodup : (addresses nodes).Nodup)
    (printed : String) :
    ∃ heap', Returns (fun fuel => loop listFreePass fuel (heap, first nodes, printed))
        (heap', (nodes.map Prod.snd).foldl
          (fun printed value => printed ++ s!"- Freeing node value = {value}\n") printed) ∧
      Frees heap heap' {a | a ∈ addresses nodes} := by
  induction nodes generalizing heap printed with
  | nil => exact ⟨heap, .loop_leave rfl, fun a ha => absurd ha List.not_mem_nil, fun _ _ => rfl⟩
  | cons x rest ih =>
    obtain ⟨a, v⟩ := x
    obtain ⟨hfresh, hnodup⟩ := List.nodup_cons.mp hnodup
    have hchain : Chain (Function.update heap a none) rest :=
      h.2.frame fun b hb => Function.update_of_ne (ne_of_mem_of_not_mem hb hfresh) ..
    obtain ⟨heap', hloop, hfrees⟩ := ih hchain hnodup (printed ++ s!"- Freeing node value = {v}\n")
    refine ⟨heap', .loop_again ?_ hloop, ((Frees.update heap a).trans hfrees).congr ?_⟩
    · rw [listFreePass, first_cons]
      dsimp only
      rw [Heap.load_some h.1, Outcome.ok_bind]
      dsimp only
      rw [CellHeap.free_some h.1]
      rfl
    · ext b
      exact List.mem_cons.symm

/-- Every node and the list itself are freed. -/
theorem Represents.listFree (h : Represents malloc values nodes m) :
    ∃ m', Returns (listFree m (some (malloc 0))) (m', freedLines values ++
        "- Freeing LinkedList wrapper\n" ++ "----------------------------------\n") ∧
      (∀ a, m'.nodes a = none) ∧ ∀ a, m'.lists a = none := by
  obtain ⟨heap, hloop, hfrees⟩ :=
    exists_listFreePass h.chain h.nodup "\nMemory Cleanup Process Called ---\n"
  rw [h.values_eq] at hloop
  refine ⟨⟨heap, fun _ => none, m.mallocs⟩, ?_, hfrees.all h.covers, fun _ => rfl⟩
  · refine (hloop.bind (g := fun x _ => do
      let lists ← CellHeap.free m.lists (some (malloc 0))
      .ok (⟨x.1, lists, m.mallocs⟩, x.2 ++ "- Freeing LinkedList wrapper\n" ++
        "----------------------------------\n")) (.of_eq fun _ => ?_)).congr fun fuel => ?_
    · dsimp only
      rw [h.lists_eq, CellHeap.free_single, Outcome.ok_bind]
      rfl
    · rw [IntList.listFree, h.load_list, Outcome.ok_bind]

/-! ### Any number of calls -/

/-- The calls of a program. -/
inductive Call
  | listAppend (value : ℤ)
  | listGet (index : ℤ)
  deriving DecidableEq, Repr

/-- The memory, the variable that points to the list, and what has been printed. -/
structure Program where
  memory : Memory
  list : Option ℕ
  output : String

/-- One call. What `list_get` returns is printed as in `main`. -/
def perform (malloc : ℕ ↪ ℕ) (s : Program) (call : Call) (fuel : ℕ) : Outcome Program :=
  match call with
  | .listAppend value => do
    let (memory, printed) ← listAppend malloc s.memory s.list value fuel
    .ok ⟨memory, s.list, s.output ++ printed⟩
  | .listGet index => do
    let value ← listGet s.memory s.list index fuel
    .ok ⟨s.memory, s.list, s.output ++ s!"\nAt index {index} I found the value = {value}\n"⟩

/-- A new list. -/
def start (malloc : ℕ ↪ ℕ) : Program := ⟨(listCreate malloc).1, (listCreate malloc).2, ""⟩

/-- All calls of a program. -/
def performAll (malloc : ℕ ↪ ℕ) (calls : List Call) (fuel : ℕ) : Outcome Program :=
  calls.foldlM (fun s call => perform malloc s call fuel) (start malloc)

/-- What a call adds to the values. -/
def Call.added : Call → List ℤ
  | .listAppend value => [value]
  | .listGet _ => []

/-- What is printed for a call when the list has the values. -/
def Call.printed (values : List ℤ) : Call → String
  | .listAppend value => addedLine values.isEmpty value
  | .listGet index =>
    match values[index.toNat]? with
    | some value => s!"\nAt index {index} I found the value = {value}\n"
    | none => ""

/-- The values of the list after some calls, and what is printed up to then. -/
def record (calls : List Call) : List ℤ × String :=
  calls.foldl (fun s call => (s.1 ++ call.added, s.2 ++ call.printed s.1)) ([], "")

/-- There is an `int` for the count. -/
def Fits (pre : List Call) : Call → Prop
  | .listAppend _ => ((record pre).1.length : ℤ) < intMax
  | .listGet _ => True

/-- The index is that of a value. -/
def InRange (pre : List Call) : Call → Prop
  | .listAppend _ => True
  | .listGet index => 0 ≤ index ∧ index < (record pre).1.length

variable {calls pre : List Call} {call : Call} {s : Program}

theorem record_concat (calls : List Call) (call : Call) :
    record (calls ++ [call]) =
      ((record calls).1 ++ call.added, (record calls).2 ++ call.printed (record calls).1) := by
  rw [record, List.foldl_append]
  rfl

/-- What the calls so far leave. -/
structure Reached (malloc : ℕ ↪ ℕ) (calls : List Call) (s : Program) : Prop where
  list_eq : s.list = some (malloc 0)
  output_eq : s.output = (record calls).2
  exists_nodes : ∃ nodes, Represents malloc (record calls).1 nodes s.memory

theorem reached_start (malloc : ℕ ↪ ℕ) : Reached malloc [] (start malloc) :=
  ⟨rfl, rfl, [], represents_listCreate malloc⟩

theorem Reached.perform (h : Reached malloc calls s) (hfits : Fits calls call)
    (hin : InRange calls call) :
    ∃ s', Returns (perform malloc s call) s' ∧ Reached malloc (calls ++ [call]) s' := by
  obtain ⟨nodes, hnodes⟩ := h.exists_nodes
  cases call with
  | listAppend value =>
    obtain ⟨m', hreturns, h'⟩ := hnodes.listAppend hfits value
    rw [← h.list_eq] at hreturns
    refine ⟨_, hreturns.map fun x => (⟨x.1, s.list, s.output ++ x.2⟩ : Program), h.list_eq, ?_,
      nodes ++ [(malloc s.memory.mallocs, value)], ?_⟩
    · rw [record_concat, h.output_eq]
      rfl
    · rw [record_concat]
      exact h'
  | listGet index =>
    obtain ⟨hindex, hlt⟩ := hin
    obtain ⟨value, hvalue⟩ : ∃ value, (record calls).1[index.toNat]? = some value :=
      ⟨_, List.getElem?_eq_getElem (by omega)⟩
    have hreturns := hnodes.listGet hindex hvalue
    rw [← h.list_eq] at hreturns
    refine ⟨_, hreturns.map fun value => (⟨s.memory, s.list,
      s.output ++ s!"\nAt index {index} I found the value = {value}\n"⟩ : Program), h.list_eq, ?_,
      nodes, ?_⟩
    · rw [record_concat, h.output_eq, Call.printed]
      dsimp only
      rw [hvalue]
    · rw [record_concat, Call.added, List.append_nil]
      exact hnodes

/-- An index that is out of range ends the process. -/
theorem Reached.perform_exit (h : Reached malloc calls s) (hin : ¬ InRange calls call) (fuel : ℕ) :
    IntList.perform malloc s call fuel = .error (.exit 1 "Index OutOfBound Error\n") := by
  obtain ⟨nodes, hnodes⟩ := h.exists_nodes
  cases call with
  | listAppend value => exact absurd trivial hin
  | listGet index =>
    rw [IntList.perform, h.list_eq]
    rw [hnodes.listGet_exit hin, Outcome.error_bind]

/-- The count has not overflowed in a call that returns. -/
theorem Reached.fits (h : Reached malloc calls s) {fuel : ℕ} {s' : Program}
    (hok : IntList.perform malloc s call fuel = .ok s') : Fits calls call := by
  obtain ⟨nodes, hnodes⟩ := h.exists_nodes
  cases call with
  | listAppend value =>
    rw [IntList.perform, h.list_eq] at hok
    obtain ⟨x, happend, -⟩ := Outcome.bind_eq_ok.mp hok
    exact hnodes.lt_of_listAppend happend
  | listGet index => trivial

/-- Calls for which the count fits. -/
theorem callRule (malloc : ℕ ↪ ℕ) :
    CallRule (perform malloc) Fits InRange (Reached malloc) where
  returns _ _ _ hfits h hin := h.perform hfits hin
  of_ok _ _ _ fuel _ _ h hok := by
    by_contra hin
    cases (h.perform_exit hin fuel).symm.trans hok

/-- In calls that return, the count has always fitted. -/
theorem fits_of_performAll {s : Program} {fuel : ℕ} (hok : performAll malloc calls fuel = .ok s) :
    AllCalls Fits calls := by
  have hboth := foldlM_invariant
    (P := fun pre s => AllCalls Fits pre ∧ Reached malloc pre s)
    (fun pre call s s' h hstep => ?_) ⟨allCalls_nil Fits, reached_start malloc⟩ hok
  · exact hboth.1
  · obtain ⟨hpre, hs⟩ := h
    have hfits := hs.fits hstep
    have hin : InRange pre call := by
      by_contra hin
      cases (hs.perform_exit hin fuel).symm.trans hstep
    obtain ⟨t, hreturns, ht⟩ := hs.perform hfits hin
    rw [hreturns.eq_of_ok hstep]
    exact ⟨allCalls_concat.mpr ⟨hpre, hfits⟩, ht⟩

/-- **The list in a program.** The calls of `list_append` and `list_get` return exactly when the
count stays an `int` and every index is that of a value. While the count fits, the process ends
exactly when some index is out of range. Each value is found at the index of its call, and
`list_free` then frees every node and the list. -/
theorem list_life_cycle (malloc : ℕ ↪ ℕ) (calls : List Call) :
    ((∃ s, Returns (performAll malloc calls) s) ↔ AllCalls Fits calls ∧ AllCalls InRange calls) ∧
      (AllCalls Fits calls → (Exits (performAll malloc calls) ↔ ¬ AllCalls InRange calls)) ∧
      ∀ s, Returns (performAll malloc calls) s → s.output = (record calls).2 ∧
        ∃ m, Returns (listFree s.memory s.list) (m, freedLines (record calls).1 ++
            "- Freeing LinkedList wrapper\n" ++ "----------------------------------\n") ∧
          (∀ a, m.nodes a = none) ∧ ∀ a, m.lists a = none := by
  have hfits : ∀ s, Returns (performAll malloc calls) s → AllCalls Fits calls := by
    intro s hreturns
    obtain ⟨fuel, hok⟩ := hreturns.exists_ok
    exact fits_of_performAll hok
  refine ⟨⟨?_, ?_⟩, fun hall => ?_, fun s hreturns => ?_⟩
  · rintro ⟨s, hreturns⟩
    exact ⟨hfits s hreturns,
      ((callRule malloc).of_returns (hfits s hreturns) (reached_start malloc) hreturns).1⟩
  · rintro ⟨hall, hin⟩
    obtain ⟨s, hreturns, -⟩ := (callRule malloc).exists_returns hall hin (reached_start malloc)
    exact ⟨s, hreturns⟩
  · exact (callRule malloc).exits_iff hall (reached_start malloc)
      fun _ _ _ h hin => ⟨0, fun fuel _ => ⟨_, _, h.perform_exit hin fuel⟩⟩
  · obtain ⟨-, h⟩ :=
      (callRule malloc).of_returns (hfits s hreturns) (reached_start malloc) hreturns
    obtain ⟨nodes, hnodes⟩ := h.exists_nodes
    refine ⟨h.output_eq, ?_⟩
    rw [h.list_eq]
    exact hnodes.listFree

end BareMetal.IntList
