import BareMetal.CS.Teardown
import BareMetal.DataStructures.HashTable

/-!
# The memory of `data-structures/hash-table.c`

`table_insert` copies each key into a block of its own, and a pair points to it. `view` forgets
where the keys are; what the functions do here is then what they do on the pairs alone.
`table_free` frees the block of a key and then its pair, bucket by bucket.

## Main results

* `view_tableInsert`, `tableGet_eq` — the functions on memory and those on pairs
* `Stored.tableFree` — everything is freed, and nothing twice
* `table_refines` — any calls on a new table
-/

namespace BareMetal.TableMemory

open CS LinkedList
open DataStructures (HashTable KeyValuePair hashFunction copyKey)

/-- `struct KeyValuePair`, with the address of its key and without the pointer to the next pair. -/
structure Pair where
  key : ℕ
  value : Int32
  deriving DecidableEq, Repr

/-- `struct HashTable` with the memory of its pairs and keys, and the number of pairs so far. For
each of them `malloc` was called twice. -/
structure Table (capacity : ℕ) where
  buckets : Block capacity (Option ℕ)
  memory : Owning Pair CString
  allocated : ℕ

variable {capacity : ℕ}

/-- `table_create`. -/
def tableCreate (capacity : ℕ) : Table capacity :=
  ⟨fun _ => none, ⟨fun _ => none, fun _ => none⟩, 0⟩

/-- `table_insert`: one call of `malloc` for the pair and one for its key. -/
def tableInsert (malloc : ℕ ↪ ℕ) (table : Table capacity) (key : CString) (value : Int32) :
    Outcome (Table capacity) := do
  let kvp := malloc (2 * table.allocated)
  let index ← hashFunction key capacity
  let text := malloc (2 * table.allocated + 1)
  let key ← copyKey key
  let next ← table.buckets.load index
  let buckets ← table.buckets.store index (some kvp)
  .ok ⟨buckets, ⟨Function.update table.memory.cells kvp (some ⟨⟨text, value⟩, next⟩),
    Function.update table.memory.blocks text (some key)⟩, table.allocated + 1⟩

/-- One pass of the loop of `table_get`. -/
def getPass (memory : Owning Pair CString) (key : CString) :
    Option ℕ → Outcome (Pass (Option ℕ) Int32)
  | none => .ok (.leave (-1))
  | some current => do
    let node ← memory.cells.load (some current)
    let text ← CellHeap.load memory.blocks (some node.value.key)
    if text == key then .ok (.leave node.value.value) else .ok (.again node.next)

/-- `table_get`. -/
def tableGet (table : Table capacity) (key : CString) (fuel : ℕ) : Outcome Int32 := do
  let index ← hashFunction key capacity
  match ← table.buckets.load index with
  | none => .error (.exit 1 s!"Could not find any value for key = {key.toText} \n")
  | some head => loop (getPass table.memory key) fuel (some head)

/-- The block that a pair owns. -/
def Pair.owned (pair : Pair) : Option ℕ := some pair.key

/-- `table_free`, with the pairs and the keys that it leaves. -/
def tableFree (table : Table capacity) (fuel : ℕ) : Outcome (Owning Pair CString) :=
  freeOwningSlots Pair.owned table.buckets capacity table.memory fuel

/-- A sequence of calls of `table_insert` on a new table. -/
def insertAll (malloc : ℕ ↪ ℕ) (capacity : ℕ) (calls : List (CString × Int32)) :
    Outcome (Table capacity) :=
  calls.foldlM (fun table call => tableInsert malloc table call.1 call.2) (tableCreate capacity)

/-! ### Pairs without their memory -/

/-- A pair with its key in place of the address. -/
def readPair (blocks : ℕ → Option CString) (node : Node Pair) : Option (Node KeyValuePair) :=
  (blocks node.value.key).map fun key => ⟨⟨key, node.value.value⟩, node.next⟩

/-- The table without the memory of the keys. -/
def view (table : Table capacity) : HashTable capacity where
  buckets := table.buckets
  heap a := (table.memory.cells a).bind (readPair table.memory.blocks)
  allocated := table.allocated

/-- The calls of `malloc` for pairs. -/
def forPairs (malloc : ℕ ↪ ℕ) : ℕ ↪ ℕ where
  toFun n := malloc (2 * n)
  inj' a b h := by
    have heq := malloc.injective h
    omega

/-- What the calls so far leave. -/
structure Stored (malloc : ℕ ↪ ℕ) (table : Table capacity) : Prop where
  freshPair : Fresh malloc table.memory.cells (2 * table.allocated)
  freshKey : CellHeap.Fresh malloc table.memory.blocks (2 * table.allocated)
  lists : ∃ lists : Fin capacity → List (ℕ × Pair),
    Chains table.memory.cells table.buckets lists ∧
      ∀ a, table.memory.cells a ≠ none → ∃ i, a ∈ addresses (lists i)
  hasKey : ∀ a node, table.memory.cells a = some node → table.memory.blocks node.value.key ≠ none
  keyOnce : ∀ a b node node', table.memory.cells a = some node → table.memory.cells b = some node' →
    node.value.key = node'.value.key → a = b
  hasPair : ∀ k, table.memory.blocks k ≠ none →
    ∃ a node, table.memory.cells a = some node ∧ node.value.key = k

variable {malloc : ℕ ↪ ℕ} {table table' : Table capacity} {key : CString} {value : Int32}
  {calls : List (CString × Int32)}

theorem stored_tableCreate (malloc : ℕ ↪ ℕ) (capacity : ℕ) :
    Stored malloc (tableCreate capacity) where
  freshPair _ _ := rfl
  freshKey _ _ := rfl
  lists := ⟨fun _ => [], chains_nil _, fun _ hne => absurd rfl hne⟩
  hasKey _ node hcell := absurd hcell.symm (Option.some_ne_none node)
  keyOnce _ _ node _ hcell := absurd hcell.symm (Option.some_ne_none node)
  hasPair _ hne := absurd rfl hne

/-! ### Insertion -/

namespace Stored

theorem key_ne (h : Stored malloc table) {a : ℕ} {node : Node Pair}
    (hcell : table.memory.cells a = some node) :
    node.value.key ≠ malloc (2 * table.allocated + 1) := by
  intro heq
  have hnone := h.freshKey (2 * table.allocated + 1) (Nat.le_succ _)
  exact h.hasKey a node hcell (heq ▸ hnone)

/-- A new pair in front of the bucket `i`. -/
theorem insert (h : Stored malloc table) (i : Fin capacity) (key : CString) (value : Int32) :
    Stored malloc (⟨Function.update table.buckets i (some (malloc (2 * table.allocated))),
      ⟨Function.update table.memory.cells (malloc (2 * table.allocated))
          (some ⟨⟨malloc (2 * table.allocated + 1), value⟩, table.buckets i⟩),
        Function.update table.memory.blocks (malloc (2 * table.allocated + 1)) (some key)⟩,
      table.allocated + 1⟩ : Table capacity) := by
  obtain ⟨lists, hchains, hcovers⟩ := h.lists
  have hfree := h.freshPair (2 * table.allocated) (Nat.le_refl _)
  have hne {k : ℕ} (hk : k < 2) {m : ℕ} (hm : 2 * (table.allocated + 1) ≤ m) :
      malloc m ≠ malloc (2 * table.allocated + k) := fun heq => by
    have hindex := malloc.injective heq
    omega
  refine ⟨fun m hm => ?_, fun m hm => ?_,
    ⟨_, hchains.insertFirst i hfree _, fun a ha => ?_⟩, fun a node hcell => ?_,
    fun a b node node' hcell hcell' hkey => ?_, fun k hk => ?_⟩
  · exact (Function.update_of_ne (hne (k := 0) (by decide) hm) ..).trans
      (h.freshPair m (Nat.le_of_add_right_le hm))
  · exact (Function.update_of_ne (hne (k := 1) (by decide) hm) ..).trans
      (h.freshKey m (Nat.le_of_add_right_le hm))
  · dsimp only at ha
    rcases eq_or_ne a (malloc (2 * table.allocated)) with rfl | hold
    · exact ⟨i, by rw [Function.update_self]; exact List.mem_cons_self⟩
    · rw [Function.update_of_ne hold] at ha
      obtain ⟨j, hj⟩ := hcovers a ha
      refine ⟨j, ?_⟩
      rcases eq_or_ne j i with rfl | hji
      · rw [Function.update_self]
        exact List.mem_cons_of_mem _ hj
      · rwa [Function.update_of_ne hji]
  · dsimp only at hcell ⊢
    rcases eq_or_ne a (malloc (2 * table.allocated)) with rfl | hold
    · rw [Function.update_self] at hcell
      cases hcell
      rw [Function.update_self]
      exact Option.some_ne_none _
    · rw [Function.update_of_ne hold] at hcell
      rw [Function.update_of_ne (h.key_ne hcell)]
      exact h.hasKey a node hcell
  · dsimp only at hcell hcell'
    -- an old pair has an old key
    rcases eq_or_ne a (malloc (2 * table.allocated)) with rfl | hold
    · rcases eq_or_ne b (malloc (2 * table.allocated)) with rfl | hold'
      · rfl
      · rw [Function.update_self] at hcell
        rw [Function.update_of_ne hold'] at hcell'
        cases hcell
        exact absurd hkey.symm (h.key_ne hcell')
    · rw [Function.update_of_ne hold] at hcell
      rcases eq_or_ne b (malloc (2 * table.allocated)) with rfl | hold'
      · rw [Function.update_self] at hcell'
        cases hcell'
        exact absurd hkey (h.key_ne hcell)
      · rw [Function.update_of_ne hold'] at hcell'
        exact h.keyOnce a b node node' hcell hcell' hkey
  · dsimp only at hk ⊢
    rcases eq_or_ne k (malloc (2 * table.allocated + 1)) with rfl | hold
    · exact ⟨_, _, Function.update_self .., rfl⟩
    · rw [Function.update_of_ne hold] at hk
      obtain ⟨a, node, hcell, hkey⟩ := h.hasPair k hk
      refine ⟨a, node, ?_, hkey⟩
      exact CellHeap.update_of_some hfree hcell

/-- What the new pair looks like without its memory. -/
theorem view_insert (h : Stored malloc table) (buckets : Block capacity (Option ℕ))
    (key : CString) (value : Int32) (next : Option ℕ) :
    view (⟨buckets, ⟨Function.update table.memory.cells (malloc (2 * table.allocated))
          (some ⟨⟨malloc (2 * table.allocated + 1), value⟩, next⟩),
        Function.update table.memory.blocks (malloc (2 * table.allocated + 1)) (some key)⟩,
      table.allocated + 1⟩ : Table capacity) =
      ⟨buckets, Function.update (view table).heap (forPairs malloc (view table).allocated)
        (some ⟨⟨key, value⟩, next⟩), (view table).allocated + 1⟩ := by
  refine congrArg (fun heap => (⟨buckets, heap, table.allocated + 1⟩ : HashTable capacity))
    (funext fun a => ?_)
  have hpair : forPairs malloc (view table).allocated = malloc (2 * table.allocated) := rfl
  rw [hpair]
  dsimp only [view]
  rcases eq_or_ne a (malloc (2 * table.allocated)) with rfl | hne
  · rw [Function.update_self, Function.update_self, Option.bind_some, readPair,
      Function.update_self]
    rfl
  · rw [Function.update_of_ne hne, Function.update_of_ne hne]
    cases hcell : table.memory.cells a with
    | none => rfl
    | some node =>
      rw [Option.bind_some, Option.bind_some, readPair, readPair,
        Function.update_of_ne (h.key_ne hcell)]

end Stored

/-- What a call of `table_insert` that returns has done. -/
theorem of_tableInsert (hok : tableInsert malloc table key value = .ok table') :
    ∃ i : Fin capacity, table' =
      ⟨Function.update table.buckets i (some (malloc (2 * table.allocated))),
        ⟨Function.update table.memory.cells (malloc (2 * table.allocated))
            (some ⟨⟨malloc (2 * table.allocated + 1), value⟩, table.buckets i⟩),
          Function.update table.memory.blocks (malloc (2 * table.allocated + 1)) (some key)⟩,
        table.allocated + 1⟩ := by
  obtain ⟨index, -, hok⟩ := Outcome.bind_eq_ok.mp hok
  obtain ⟨copy, hcopy, hok⟩ := Outcome.bind_eq_ok.mp hok
  obtain ⟨next, hload, hok⟩ := Outcome.bind_eq_ok.mp hok
  obtain ⟨buckets, hstore, hok⟩ := Outcome.bind_eq_ok.mp hok
  obtain ⟨i, rfl, rfl⟩ := Block.exists_of_load hload
  cases (Block.store_natCast ..).symm.trans hstore
  cases hok
  exact ⟨i, by rw [DataStructures.eq_of_copyKey hcopy]⟩

theorem Stored.tableInsert (h : Stored malloc table)
    (hok : tableInsert malloc table key value = .ok table') : Stored malloc table' := by
  obtain ⟨i, rfl⟩ := of_tableInsert hok
  exact h.insert i key value

/-- **Insertion**, with and without the memory of the keys. -/
theorem view_tableInsert (h : Stored malloc table) (key : CString) (value : Int32) :
    view <$> tableInsert malloc table key value =
      DataStructures.tableInsert (forPairs malloc) (view table) key value := by
  rw [TableMemory.tableInsert, DataStructures.tableInsert]
  cases hashFunction key capacity with
  | error e => rfl
  | ok index =>
    cases copyKey key with
    | error e => rfl
    | ok copy =>
      have hbuckets : (view table).buckets = table.buckets := rfl
      have hpair : forPairs malloc (view table).allocated = malloc (2 * table.allocated) := rfl
      simp only [Outcome.ok_bind, hbuckets, hpair]
      cases table.buckets.load index with
      | error e => rfl
      | ok next =>
        simp only [Outcome.ok_bind]
        cases table.buckets.store index (some (malloc (2 * table.allocated))) with
        | error e => rfl
        | ok buckets => exact congrArg Except.ok (h.view_insert buckets copy value next)

/-! ### Lookups -/

theorem view_heap_none {a : ℕ} (hcell : table.memory.cells a = none) :
    (view table).heap a = none := by
  dsimp only [view]
  rw [hcell, Option.bind_none]

theorem view_heap_some {a : ℕ} {node : Node Pair} {text : CString}
    (hcell : table.memory.cells a = some node)
    (htext : table.memory.blocks node.value.key = some text) :
    (view table).heap a = some ⟨⟨text, node.value.value⟩, node.next⟩ := by
  dsimp only [view]
  rw [hcell, Option.bind_some, readPair, htext, Option.map_some]

/-- What `table_get` does with the pair that it has found. -/
def valueAt (table : HashTable capacity) : Option ℕ → Outcome Int32
  | some current => do
    let node ← table.heap.load (some current)
    .ok node.value.value
  | none => .ok (-1)

/-- The two walks through a bucket. The induction is on the bound of the walk. -/
theorem loop_getPass (h : Stored malloc table) (key : CString) (fuel : ℕ) (p : Option ℕ) :
    loop (getPass table.memory key) fuel p =
      seek (view table).heap (fun kvp => kvp.key == key) p fuel >>= valueAt (view table) := by
  induction fuel generalizing p with
  | zero => rfl
  | succ fuel ih =>
    rw [seek]
    cases p with
    | none => rfl
    | some a =>
      cases hcell : table.memory.cells a with
      | none =>
        have hpass : getPass table.memory key (some a) = .error (.outOfBounds a) := by
          simp only [getPass, Heap.load, hcell, Outcome.error_bind]
        have hseek : seekPass (view table).heap (fun kvp => kvp.key == key) (some a) =
            .error (.outOfBounds a) := by
          simp only [seekPass, Heap.load, view_heap_none hcell, Outcome.error_bind]
        rw [loop_succ_stop hpass, loop_succ_stop hseek, Outcome.error_bind]
      | some node =>
        obtain ⟨text, htext⟩ := Option.ne_none_iff_exists'.mp (h.hasKey a node hcell)
        have hview := view_heap_some hcell htext
        have hpass : getPass table.memory key (some a) = if text == key then
            .ok (.leave node.value.value) else .ok (.again node.next) := by
          rw [getPass, Heap.load_some hcell, Outcome.ok_bind, CellHeap.load_some htext]
          rfl
        have hseek : seekPass (view table).heap (fun kvp => kvp.key == key) (some a) =
            if text == key then .ok (.leave (some a)) else .ok (.again node.next) := by
          rw [seekPass, Heap.load_some hview]
          rfl
        by_cases heq : (text == key) = true
        · rw [if_pos heq] at hpass hseek
          rw [loop_succ_leave hpass, loop_succ_leave hseek, Outcome.ok_bind, valueAt,
            Heap.load_some hview]
          rfl
        · rw [if_neg heq] at hpass hseek
          rw [loop_succ_again hpass, loop_succ_again hseek]
          exact ih node.next

/-- **Lookups**, with and without the memory of the keys. -/
theorem tableGet_eq (h : Stored malloc table) (key : CString) :
    tableGet table key = DataStructures.tableGet (view table) key := by
  funext fuel
  rw [tableGet, DataStructures.tableGet]
  cases hashFunction key capacity with
  | error e => rfl
  | ok index =>
    have hbuckets : (view table).buckets = table.buckets := rfl
    simp only [Outcome.ok_bind, hbuckets]
    cases table.buckets.load index with
    | error e => rfl
    | ok head =>
      cases head with
      | none => rfl
      | some head =>
        simp only [Outcome.ok_bind, loop_getPass h]
        refine congrArg _ (funext fun found => ?_)
        cases found <;> rfl

/-! ### Teardown -/

namespace Stored

theorem owns (h : Stored malloc table) {lists : Fin capacity → List (ℕ × Pair)}
    (hchains : Chains table.memory.cells table.buckets lists) :
    Owns Pair.owned table.memory.blocks {x | ∃ i, x ∈ lists i} where
  allocated := by
    rintro ⟨a, pair⟩ ⟨i, hmem⟩ b hb
    obtain ⟨next, hcell⟩ := (hchains.holds i).chain.exists_next hmem
    cases hb
    exact h.hasKey a _ hcell
  once := by
    rintro ⟨a, pair⟩ ⟨i, hmem⟩ ⟨a', pair'⟩ ⟨j, hmem'⟩ b hb hb'
    obtain ⟨next, hcell⟩ := (hchains.holds i).chain.exists_next hmem
    obtain ⟨next', hcell'⟩ := (hchains.holds j).chain.exists_next hmem'
    exact h.keyOnce a a' _ _ hcell hcell' (Option.some.inj (hb.trans hb'.symm))

/-- `table_free` frees every pair and every key, each of them once. -/
theorem tableFree (h : Stored malloc table) :
    ∃ memory, Returns (tableFree table) memory ∧ (∀ a, memory.cells a = none) ∧
      ∀ k, memory.blocks k = none := by
  obtain ⟨lists, hchains, hcovers⟩ := h.lists
  obtain ⟨memory, hreturns, hcells, hblocks⟩ :=
    hchains.freeOwningSlots (h.owns hchains) (Nat.le_refl capacity)
  refine ⟨memory, hreturns, hcells.all fun a ha => ?_, hblocks.all fun k hk => ?_⟩
  · obtain ⟨i, hi⟩ := hcovers a ha
    exact ⟨i, i.isLt, hi⟩
  · obtain ⟨a, node, hcell, hkey⟩ := h.hasPair k hk
    obtain ⟨i, hi⟩ := hcovers a (hcell ▸ Option.some_ne_none node)
    obtain ⟨pair, hmem⟩ : ∃ pair, (a, pair) ∈ lists i := by
      obtain ⟨⟨b, pair⟩, hmem, rfl⟩ := List.mem_map.mp hi
      exact ⟨pair, hmem⟩
    obtain ⟨next, hnode⟩ := (hchains.holds i).chain.exists_next hmem
    cases hcell.symm.trans hnode
    exact ⟨(a, pair), ⟨i, i.isLt, hmem⟩, congrArg some hkey⟩

end Stored

/-! ### Sequences of calls -/

theorem insertAll_concat (calls : List (CString × Int32)) (call : CString × Int32) :
    insertAll malloc capacity (calls ++ [call]) =
      insertAll malloc capacity calls >>= fun table => tableInsert malloc table call.1 call.2 := by
  simp [insertAll, List.foldlM_append]

theorem stored_of_insertAll (hok : insertAll malloc capacity calls = .ok table) :
    Stored malloc table := by
  induction calls using List.reverseRecOn generalizing table with
  | nil =>
    cases hok
    exact stored_tableCreate malloc capacity
  | append_singleton calls call ih =>
    rw [insertAll_concat] at hok
    obtain ⟨before, hbefore, hlast⟩ := Outcome.bind_eq_ok.mp hok
    exact (ih hbefore).tableInsert hlast

theorem view_insertAll (malloc : ℕ ↪ ℕ) (capacity : ℕ) (calls : List (CString × Int32)) :
    view <$> insertAll malloc capacity calls =
      DataStructures.insertAll (forPairs malloc) capacity calls := by
  induction calls using List.reverseRecOn with
  | nil => rfl
  | append_singleton calls call ih =>
    rw [insertAll_concat, DataStructures.insertAll_concat, ← ih]
    cases hok : insertAll malloc capacity calls with
    | error e => rfl
    | ok table => exact view_tableInsert (stored_of_insertAll hok) call.1 call.2

/-- **The table in memory is the table of pairs.** Any calls of `table_insert` on a new table have
the outcome that they have on the pairs alone, and so has every lookup then. What the calls leave
is freed by `table_free`, every pair and every key exactly once. -/
theorem table_refines (malloc : ℕ ↪ ℕ) (capacity : ℕ) (calls : List (CString × Int32)) :
    view <$> insertAll malloc capacity calls =
        DataStructures.insertAll (forPairs malloc) capacity calls ∧
      ∀ table, insertAll malloc capacity calls = .ok table →
        (∀ key, tableGet table key = DataStructures.tableGet (view table) key) ∧
          ∃ memory, Returns (tableFree table) memory ∧ (∀ a, memory.cells a = none) ∧
            ∀ k, memory.blocks k = none := by
  refine ⟨view_insertAll malloc capacity calls, fun table hok => ?_⟩
  have h := stored_of_insertAll hok
  exact ⟨tableGet_eq h, h.tableFree⟩

end BareMetal.TableMemory
