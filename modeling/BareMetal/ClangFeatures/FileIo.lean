import BareMetal.CS.Chains
import BareMetal.CS.FormattedIO

/-!
# Saving and loading the list of `clang-features/file_io.c`

`save_list` writes one line for each node of a linked list, with the index of the node and
its value. `load_list` starts a new list, skips two words of each line and appends the
number behind them, until `fscanf` no longer reads one.

The file is the list of its characters; opening it and allocating nodes succeed.

## Main results

* `returns_saveList` — the file that is written
* `fscanf_record` — one line is read
* `saveList_loadList` — the list that is loaded is the one that was saved
-/

namespace BareMetal.FileIo

open CS CS.LinkedList FormattedIO

/-- `struct LinkedList`. -/
structure LinkedList extends Ends where
  count : Int32
  deriving DecidableEq, Repr

/-- The list behind `list_ref` and the heap that its nodes are on. -/
structure Store where
  heap : Heap Int32
  allocated : ℕ
  list : LinkedList

/-- `init`. -/
def init : LinkedList := ⟨⟨none, none⟩, 0⟩

/-- `add_node`. -/
def addNode (malloc : ℕ ↪ ℕ) (store : Store) (value : Int32) : Outcome Store := do
  let newNode := malloc store.allocated
  let count ← addInt store.list.count.toInt 1
  let (heap, ends) ← insertLast (store.heap.alloc newNode value) store.list.toEnds newNode
  .ok ⟨heap, store.allocated + 1, ⟨ends, Int32.ofInt count⟩⟩

/-! ### Saving -/

/-- `fprintf(file, "Node[%d] =  %d\n", count, current->data)`. -/
def record (count : ℤ) (data : Int32) : List Char :=
  "Node[".toList ++ decimal count ++ "] =  ".toList ++ decimal data.toInt ++ "\n".toList

/-- One pass of the loop of `save_list`: the index, the node and the file so far. -/
def savePass (heap : Heap Int32) :
    ℤ × Option ℕ × List Char → Outcome (Pass (ℤ × Option ℕ × List Char) (List Char))
  | (_, none, file) => .ok (.leave file)
  | (count, some current, file) => do
    let node ← heap.load (some current)
    let next ← addInt count 1
    .ok (.again (next, node.next, file ++ record count node.value))

/-- `save_list`, with the file that it writes. -/
def saveList (store : Store) (fuel : ℕ) : Outcome (List Char) :=
  if store.list.count = 0 then .error (.exit 1 "")
  else loop (savePass store.heap) fuel (0, store.list.head, [])

/-! ### Loading -/

/-- `"%*s %*s %d "`. -/
def loadFormat : List Directive := [.skipWord, .space, .skipWord, .space, .int, .space]

/-- One pass of the loop of `load_list`: the list, `value`, and the file that is left. -/
def loadPass (malloc : ℕ ↪ ℕ) :
    Store × Int32 × List Char → Outcome (Pass (Store × Int32 × List Char) Store)
  | (store, value, file) => do
    let scanned ← fscanf loadFormat file
    if scanned.ret = 1 then do
      let value := (scanned.assigned.head?.map Int32.ofInt).getD value
      let store ← addNode malloc store value
      .ok (.again (store, value, scanned.rest))
    else .ok (.leave store)

/-- `load_list`, on a heap with `allocated` calls of `malloc` behind it. -/
def loadList (malloc : ℕ ↪ ℕ) (heap : Heap Int32) (allocated : ℕ) (file : List Char) (fuel : ℕ) :
    Outcome Store :=
  loop (loadPass malloc) fuel (⟨heap, allocated, init⟩, 0, file)

/-! ### Lists in memory -/

/-- The list has the given values, `count` is their number, and `head` and `tail` are its
first and its last node. -/
def Represents (store : Store) (values : List Int32) : Prop :=
  ∃ nodes : List (ℕ × Int32), Holds store.heap store.list.toEnds nodes ∧
    nodes.map Prod.snd = values ∧ store.list.count.toInt = values.length

variable {malloc : ℕ ↪ ℕ} {store : Store} {heap : Heap Int32} {values : List Int32}
  {value data : Int32} {n : ℕ} {file rest : List Char} {count : ℤ}

theorem represents_init (heap : Heap Int32) (n : ℕ) : Represents ⟨heap, n, init⟩ [] :=
  ⟨[], holds_nil heap, by simp, by simp [init]⟩

/-- The counter is an `int`. -/
theorem Represents.length_le (h : Represents store values) : (values.length : ℤ) ≤ intMax := by
  obtain ⟨nodes, -, -, hcount⟩ := h
  have hlt := store.list.count.toInt_lt
  simp only [intMax]
  omega

/-- A new node goes to the end, as long as the nodes can be counted. -/
theorem Represents.addNode (h : Represents store values)
    (hfresh : Fresh malloc store.heap store.allocated) (hroom : values.length + 1 ≤ intMax)
    (value : Int32) :
    ∃ store', addNode malloc store value = .ok store' ∧ Represents store' (values ++ [value]) ∧
      Fresh malloc store'.heap store'.allocated := by
  obtain ⟨nodes, hholds, hvalues, hcount⟩ := h
  have ha := hfresh store.allocated (Nat.le_refl _)
  obtain ⟨heap', ends', hinsert, hholds', hframe⟩ := hholds.insertLast ha value
  have hadd : addInt store.list.count.toInt 1 = .ok (values.length + 1) := by
    rw [hcount]
    exact if_pos ⟨by simp only [intMin]; omega, hroom⟩
  have hsize : (Int32.ofInt (values.length + 1)).toInt = values.length + 1 := by
    simp only [intMax] at hroom
    exact Int32.toInt_ofInt_of_le (by omega) (by omega)
  refine ⟨⟨heap', store.allocated + 1, ⟨ends', Int32.ofInt (values.length + 1)⟩⟩, ?_, ?_, ?_⟩
  · simp [FileIo.addNode, hadd, hinsert]
  · refine ⟨nodes ++ [(malloc store.allocated, value)], hholds', by simp [hvalues], ?_⟩
    dsimp only
    rw [hsize]
    simp
  · refine hfresh.succ fun b hb hnone => ?_
    dsimp only
    rw [hframe b (fun hmem => hholds.fresh hnone hmem) hb, hnone]

/-! ### The file -/

/-- The lines for the values from the index `count` on. -/
def records : ℤ → List Int32 → List Char
  | _, [] => []
  | count, data :: values => record count data ++ records (count + 1) values

theorem leavesAfter_savePass {nodes : List (ℕ × Int32)} (h : Chain heap nodes)
    (hmin : 0 ≤ count) (hroom : count + nodes.length ≤ intMax) (file : List Char) :
    LeavesAfter (savePass heap) nodes.length (count, first nodes, file)
      (file ++ records count (nodes.map Prod.snd)) := by
  induction nodes generalizing count file with
  | nil =>
    refine .leave ?_
    simp [savePass, records]
  | cons node nodes ih =>
    obtain ⟨a, data⟩ := node
    rw [List.length_cons] at hroom
    push_cast at hroom
    have hnext : addInt count 1 = .ok (count + 1) := by
      exact if_pos ⟨by simp only [intMin]; omega, by omega⟩
    have hrest := ih h.2 (by omega : 0 ≤ count + 1) (by omega) (file ++ record count data)
    have hpass : savePass heap (count, some a, file) =
        .ok (.again (count + 1, first nodes, file ++ record count data)) := by
      simp [savePass, Heap.load_some h.1, hnext]
    refine .again hpass ?_
    simpa [records] using hrest

/-- The file has one line for each value. -/
theorem returns_saveList (h : Represents store values) (hne : values ≠ []) :
    Returns (saveList store) (records 0 values) := by
  obtain ⟨nodes, hholds, rfl, hcount⟩ := id h
  have hlength := h.length_le
  have hnonzero : store.list.count ≠ 0 := by
    intro hzero
    rw [hzero] at hcount
    exact hne (List.length_eq_zero_iff.mp (by simpa using hcount.symm))
  have hleaves := leavesAfter_savePass hholds.chain (Int.le_refl 0) (by simpa using hlength) []
  have hreturns := Returns.loop hleaves
  rw [← hholds.head_eq, List.nil_append] at hreturns
  apply hreturns.congr
  intro fuel
  rw [saveList, if_neg hnonzero]

/-- The end of a file, or the start of a line. -/
def AtLine (rest : List Char) : Prop := rest = [] ∨ StartsWord rest

theorem startsWord_record (count : ℤ) (data : Int32) : StartsWord (record count data) :=
  ⟨'N', _, rfl, by decide⟩

theorem atLine_records (count : ℤ) (values : List Int32) : AtLine (records count values) := by
  cases values with
  | nil => exact Or.inl rfl
  | cons data values => exact Or.inr ((startsWord_record count data).append _)

theorem AtLine.skipSpace_eq (h : AtLine rest) : skipSpace ('\n' :: rest) = rest := by
  rcases h with rfl | h
  · decide
  · exact skipSpace_append ['\n'] (by simp [isSpace]) h

/-- One line is read: its value, and the input behind the line. -/
theorem fscanf_record (count : ℤ) (data : Int32) (h : AtLine rest) :
    fscanf loadFormat (record count data ++ rest) = .ok ⟨1, [data.toInt], rest⟩ := by
  have hsplit : record count data ++ rest =
      ("Node[".toList ++ decimal count ++ "]".toList) ++
        ' ' :: ("=".toList ++ ' ' :: (" ".toList ++ (decimal data.toInt ++ '\n' :: rest))) := by
    have hmiddle : "] =  ".toList = "]".toList ++ ' ' :: ("=".toList ++ ' ' :: " ".toList) := by
      decide
    have hend : "\n".toList = ['\n'] := by decide
    unfold record
    simp only [hmiddle, hend, List.append_assoc, List.cons_append, List.nil_append]
  have hname : ∀ c ∈ "Node[".toList ++ decimal count ++ "]".toList, isSpace c = false := by
    intro c hc
    rcases List.mem_append.mp hc with hc | hc
    · rcases List.mem_append.mp hc with hc | hc
      · exact (by simp [isSpace] : ∀ c ∈ "Node[".toList, isSpace c = false) c hc
      · exact isSpace_of_mem_decimal hc
    · exact (by simp [isSpace] : ∀ c ∈ "]".toList, isSpace c = false) c hc
  have hstart : StartsWord ("Node[".toList ++ decimal count ++ "]".toList) :=
    ⟨'N', _, rfl, by decide⟩
  have hnumber := (startsWord_decimal data.toInt).append ('\n' :: rest)
  have hmin : intMin ≤ data.toInt := data.le_toInt
  have hmax : data.toInt ≤ intMax := Int.le_of_lt_add_one data.toInt_lt
  -- the directives one by one
  calc fscanf loadFormat (record count data ++ rest)
      = scan [.space, .skipWord, .space, .int, .space] true []
          (' ' :: ("=".toList ++ ' ' :: (" ".toList ++ (decimal data.toInt ++ '\n' :: rest)))) := by
        rw [hsplit]
        exact scan_skipWord hstart hname (by decide)
    _ = scan [.skipWord, .space, .int, .space] true []
          ("=".toList ++ ' ' :: (" ".toList ++ (decimal data.toInt ++ '\n' :: rest))) :=
        scan_space [' '] (by simp [isSpace]) (startsWord_cons (by decide))
    _ = scan [.space, .int, .space] true []
          (' ' :: (" ".toList ++ (decimal data.toInt ++ '\n' :: rest))) :=
        scan_skipWord (startsWord_cons (by decide)) (by simp [isSpace]) (by decide)
    _ = scan [.int, .space] true [] (decimal data.toInt ++ '\n' :: rest) :=
        scan_space [' ', ' '] (by simp [isSpace]) hnumber
    _ = scan [.space] true ([] ++ [data.toInt]) ('\n' :: rest) :=
        scan_int hmin hmax (by decide)
    _ = .ok ⟨1, [data.toInt], rest⟩ := by
        rw [scan, h.skipSpace_eq, scan_nil]
        rfl

/-! ### Loading what was saved -/

/-- A pass that reads a line appends its value. -/
theorem loadPass_record (hrep : Represents store values)
    (hfresh : Fresh malloc store.heap store.allocated) (hroom : values.length + 1 ≤ intMax)
    (count : ℤ) (value data : Int32) (h : AtLine rest) :
    ∃ store', loadPass malloc (store, value, record count data ++ rest) =
        .ok (.again (store', data, rest)) ∧
      Represents store' (values ++ [data]) ∧ Fresh malloc store'.heap store'.allocated := by
  obtain ⟨store', hadd, hrep', hfresh'⟩ := hrep.addNode hfresh hroom data
  refine ⟨store', ?_, hrep', hfresh'⟩
  simp [loadPass, fscanf_record count data h, hadd]

/-- The end of the file ends the loop. -/
theorem loadPass_nil (store : Store) (value : Int32) :
    loadPass malloc (store, value, []) = .ok (.leave store) := rfl

theorem leavesAfter_loadPass {pre : List Int32} (hrep : Represents store pre)
    (hfresh : Fresh malloc store.heap store.allocated)
    (hroom : pre.length + values.length ≤ intMax) (count : ℤ) (value : Int32) :
    ∃ store', LeavesAfter (loadPass malloc) values.length (store, value, records count values)
        store' ∧ Represents store' (pre ++ values) := by
  induction values generalizing store pre count value with
  | nil => exact ⟨store, .leave (loadPass_nil store value), by simpa using hrep⟩
  | cons data values ih =>
    rw [List.length_cons] at hroom
    push_cast at hroom
    obtain ⟨store₁, hpass, hrep₁, hfresh₁⟩ :=
      loadPass_record hrep hfresh (by omega) count value data (atLine_records (count + 1) values)
    obtain ⟨store', hleaves, hrep'⟩ := ih hrep₁ hfresh₁
      (by rw [List.length_append, List.length_singleton]; push_cast; omega) (count + 1) data
    exact ⟨store', .again hpass hleaves, by simpa using hrep'⟩

/-- **A saved list is loaded back.** For every non-empty list in memory, the file that
`save_list` writes makes `load_list` build a list with the same values in the same order,
whose counter is its length and whose two pointers are its first and its last node,
wherever the nodes are allocated. -/
theorem saveList_loadList {store : Store} {values : List Int32} (h : Represents store values)
    (hne : values ≠ []) (malloc : ℕ ↪ ℕ) (heap : Heap Int32) (n : ℕ)
    (hfresh : Fresh malloc heap n) :
    ∃ file, Returns (saveList store) file ∧
      ∃ store', Returns (loadList malloc heap n file) store' ∧ Represents store' values := by
  have hroom : (([] : List Int32).length : ℤ) + values.length ≤ intMax := by
    simpa using h.length_le
  obtain ⟨store', hleaves, hrep⟩ := leavesAfter_loadPass (represents_init heap n) hfresh hroom 0 0
  exact ⟨records 0 values, returns_saveList h hne, store', .loop hleaves, hrep⟩

/-- A list of two nodes. -/
theorem saveList_loadList_two :
    ∃ store, Represents store [14, 7] ∧ ∃ file, Returns (saveList store) file ∧
      ∃ store', Returns (loadList (.refl ℕ) (fun _ => none) 0 file) store' ∧
        Represents store' [14, 7] := by
  have hfresh : Fresh (.refl ℕ) (fun _ => none : Heap Int32) 0 := fun _ _ => rfl
  obtain ⟨store₁, -, hrep₁, hfresh₁⟩ :=
    (represents_init (fun _ => none) 0).addNode hfresh (by decide) 14
  obtain ⟨store₂, -, hrep₂, -⟩ := hrep₁.addNode hfresh₁ (by decide) 7
  exact ⟨store₂, hrep₂, saveList_loadList hrep₂ (by simp) (.refl ℕ) (fun _ => none) 0 hfresh⟩

end BareMetal.FileIo
