import BareMetal.CS.Block
import BareMetal.CS.Chains
import BareMetal.CS.HashSign

/-!
# The hash table of `data-structures/hash-table.c`

`table_insert` puts every pair in front of the chain of its bucket and never looks for
an older pair with the same key, so `table_get` meets the youngest one first.

The hash and the size of a key are `int`s. A hash whose addition overflows, and a key
whose size does not fit, are outcomes of the model.

## Main results

* `represents` — each chain holds the pairs of its bucket, youngest first
* `get_latest_iff` — calls return and the last write wins exactly while no `int`
  overflows
-/

namespace BareMetal.DataStructures

open CS LinkedList

/-- `struct KeyValuePair`, without the pointer to the next one. -/
structure KeyValuePair where
  key : CString
  value : Int32
  deriving DecidableEq, Repr

/-- `struct HashTable`, with the heap that its pairs are on. -/
structure HashTable (capacity : ℕ) where
  buckets : Block capacity (Option ℕ)
  heap : Heap KeyValuePair
  allocated : ℕ

variable {capacity : ℕ}

/-- `hash_function`. -/
def hashFunction (key : CString) (capacity : ℕ) : Outcome ℤ := charHash key capacity

/-- `table_create`: `calloc` leaves null pointers. -/
def tableCreate (capacity : ℕ) : HashTable capacity := ⟨fun _ => none, fun _ => none, 0⟩

/-- The copy of the key. `malloc` refuses a negative size, and a size that has lost its
high bits is too small for `strcpy`. -/
def copyKey (key : CString) : Outcome CString :=
  if key.size < 0 then .error (.exit 1 "Cannot allocate space for the key\n")
  else if key.size < key.length + 1 then .error (.outOfBounds (key.size))
  else .ok key

/-- `table_insert`, with the address that `malloc` returns for the pair. -/
def tableInsert (malloc : ℕ ↪ ℕ) (table : HashTable capacity) (key : CString) (value : Int32) :
    Outcome (HashTable capacity) := do
  let kvp := malloc table.allocated
  let index ← hashFunction key capacity
  let key ← copyKey key
  -- the first pair of a bucket gets the null pointer as its next
  let next ← table.buckets.load index
  let buckets ← table.buckets.store index (some kvp)
  .ok ⟨buckets, Function.update table.heap kvp (some ⟨⟨key, value⟩, next⟩), table.allocated + 1⟩

/-- `table_get`. -/
def tableGet (table : HashTable capacity) (key : CString) (fuel : ℕ) : Outcome Int32 := do
  let index ← hashFunction key capacity
  match ← table.buckets.load index with
  | none => .error (.exit 1 s!"Could not find any value for key = {key.toText} \n")
  | some head =>
    match ← seek table.heap (fun kvp => kvp.key == key) (some head) fuel with
    | some current => do
      let node ← table.heap.load (some current)
      .ok node.value.value
    | none => .ok (-1)

/-- A sequence of calls of `table_insert` on a new table. -/
def insertAll (malloc : ℕ ↪ ℕ) (capacity : ℕ) (calls : List (CString × Int32)) :
    Outcome (HashTable capacity) :=
  calls.foldlM (fun table call => tableInsert malloc table call.1 call.2) (tableCreate capacity)

/-- The value of the last call with the given key. -/
def latest (key : CString) (calls : List (CString × Int32)) : Option Int32 :=
  (calls.reverse.find? fun call => call.1 == key).map Prod.snd

/-! ### What the buckets hold -/

/-- The pairs with the hash `i`, the youngest first. -/
def pairs (capacity : ℕ) (calls : List (CString × Int32)) (i : Fin capacity) : List KeyValuePair :=
  (calls.reverse.filter fun call => charSum call.1 % capacity = (i : ℕ)).map fun call =>
    ⟨call.1, call.2⟩

/-- Each chain holds the pairs of its bucket. -/
def Represents (malloc : ℕ ↪ ℕ) (table : HashTable capacity) (calls : List (CString × Int32)) :
    Prop :=
  ∃ lists : Fin capacity → List (ℕ × KeyValuePair), Chains table.heap table.buckets lists ∧
    (∀ i, (lists i).map Prod.snd = pairs capacity calls i) ∧
    Fresh malloc table.heap table.allocated

/-- The hash and the size of the key are `int`s. -/
def Fits (capacity : ℕ) (key : CString) : Prop :=
  NoOverflow capacity key ∧ key.length < 2 ^ 31 - 1

/-- The key has a bucket and can be copied. -/
structure Accepted (capacity : ℕ) (key : CString) : Prop where
  hash : hashFunction key capacity = .ok (charSum key % capacity)
  copy : copyKey key = .ok key

variable {malloc : ℕ ↪ ℕ} {table table' : HashTable capacity} {calls : List (CString × Int32)}
  {key : CString} {value : Int32}

theorem copyKey_eq_ok_iff : copyKey key = .ok key ↔ key.length < 2 ^ 31 - 1 := by
  have hsize : key.size = if (key.length + 1 : ℤ) % 2 ^ 32 < 2 ^ 31 then
      (key.length + 1 : ℤ) % 2 ^ 32 else (key.length + 1 : ℤ) % 2 ^ 32 - 2 ^ 32 := rfl
  unfold copyKey
  split_ifs at hsize ⊢ <;> simp <;> omega

theorem eq_of_copyKey {copy : CString} (h : copyKey key = .ok copy) : copy = key := by
  unfold copyKey at h
  split_ifs at h
  exact (Except.ok.inj h).symm

/-- The bucket of a key. -/
theorem exists_bucket (hcapacity : 0 < capacity) (key : CString) :
    ∃ i : Fin capacity, charSum key % capacity = (i : ℕ) := by
  have hnonneg : 0 ≤ charSum key % capacity := Int.emod_nonneg _ (by omega)
  have hlt : charSum key % capacity < capacity := Int.emod_lt_of_pos _ (by omega)
  exact Block.exists_index hnonneg hlt

theorem hashFunction_eq_iff (hcapacity : 0 < capacity) (hascii : key.IsAscii) {index : ℤ} :
    hashFunction key capacity = .ok index ↔
      NoOverflow capacity key ∧ index = charSum key % capacity :=
  charHash_eq_iff (by omega) hascii

theorem Fits.accepted (h : Fits capacity key) (hcapacity : 0 < capacity) (hascii : key.IsAscii) :
    Accepted capacity key :=
  ⟨(hashFunction_eq_iff hcapacity hascii).mpr ⟨h.1, rfl⟩, copyKey_eq_ok_iff.mpr h.2⟩

theorem Accepted.fits (h : Accepted capacity key) (hcapacity : 0 < capacity)
    (hascii : key.IsAscii) : Fits capacity key :=
  ⟨((hashFunction_eq_iff hcapacity hascii).mp h.hash).1, copyKey_eq_ok_iff.mp h.copy⟩

/-- A hash that names a bucket is the sum of the characters modulo the capacity. -/
theorem hashFunction_eq_emod {i : Fin capacity}
    (hhash : hashFunction key capacity = .ok (i : ℕ)) : charSum key % capacity = (i : ℕ) :=
  (isHash_of_ok (Int.natCast_pos.mpr i.pos) hhash).eq_emod (Int.natCast_nonneg _)

/-- A call that returns had a key with a bucket. -/
theorem accepted_of_tableInsert (h : tableInsert malloc table key value = .ok table') :
    Accepted capacity key := by
  obtain ⟨index, hhash, h⟩ := Outcome.bind_eq_ok.mp h
  obtain ⟨copy, hcopy, h⟩ := Outcome.bind_eq_ok.mp h
  obtain ⟨next, hload, -⟩ := Outcome.bind_eq_ok.mp h
  obtain ⟨i, rfl, -⟩ := Block.exists_of_load hload
  rw [eq_of_copyKey hcopy] at hcopy
  exact ⟨(hashFunction_eq_emod hhash).symm ▸ hhash, hcopy⟩

/-- One more call adds its pair in front of the bucket of its key. -/
theorem pairs_concat {i : Fin capacity} (hi : charSum key % capacity = (i : ℕ))
    (calls : List (CString × Int32)) (value : Int32) :
    pairs capacity (calls ++ [(key, value)]) =
      Function.update (pairs capacity calls) i (⟨key, value⟩ :: pairs capacity calls i) := by
  funext j
  unfold pairs
  rw [List.reverse_append, List.reverse_singleton, List.singleton_append]
  rcases eq_or_ne j i with rfl | hne
  · rw [Function.update_self, List.filter_cons_of_pos (by simpa using hi), List.map_cons]
  · have hother : ¬ charSum key % capacity = (j : ℕ) := by
      rw [hi]
      exact fun heq => hne (Fin.ext (Int.ofNat.inj heq.symm))
    rw [Function.update_of_ne hne, List.filter_cons_of_neg (by simpa using hother)]

theorem represents_nil (malloc : ℕ ↪ ℕ) (capacity : ℕ) :
    Represents malloc (tableCreate capacity) [] :=
  ⟨fun _ => [], chains_nil _, fun _ => rfl, fun _ _ => rfl⟩

/-- A key with a bucket is inserted, in front of the others. -/
theorem Represents.tableInsert (h : Represents malloc table calls) (hcapacity : 0 < capacity)
    (haccepted : Accepted capacity key) (value : Int32) :
    ∃ table', tableInsert malloc table key value = .ok table' ∧
      Represents malloc table' (calls ++ [(key, value)]) := by
  obtain ⟨lists, hchains, hpairs, hfresh⟩ := h
  obtain ⟨i, hi⟩ := exists_bucket hcapacity key
  have hfree := hfresh table.allocated (Nat.le_refl _)
  have hchains' := hchains.insertFirst i hfree ⟨key, value⟩
  refine ⟨⟨Function.update table.buckets i (some (malloc table.allocated)),
    Function.update table.heap (malloc table.allocated) (some ⟨⟨key, value⟩, table.buckets i⟩),
    table.allocated + 1⟩, ?_, _, hchains', fun j => ?_, ?_⟩
  · simp only [DataStructures.tableInsert, haccepted.hash, hi, haccepted.copy,
      Block.load_natCast, Block.store_natCast, Outcome.ok_bind]
  · rw [pairs_concat hi]
    rcases eq_or_ne j i with rfl | hne
    · rw [Function.update_self, Function.update_self, List.map_cons, hpairs]
    · rw [Function.update_of_ne hne, Function.update_of_ne hne, hpairs]
  · exact hfresh.succ fun b hb hnone => (Function.update_of_ne hb ..).trans hnone

/-! ### Sequences of calls -/

theorem insertAll_concat (calls : List (CString × Int32)) (call : CString × Int32) :
    insertAll malloc capacity (calls ++ [call]) =
      insertAll malloc capacity calls >>= fun table => tableInsert malloc table call.1 call.2 := by
  simp [insertAll, List.foldlM_append]

/-- While all keys have buckets, the calls return. The induction is on the calls made so far. -/
theorem represents (hcapacity : 0 < capacity)
    (haccepted : ∀ call ∈ calls, Accepted capacity call.1) :
    ∃ table, insertAll malloc capacity calls = .ok table ∧ Represents malloc table calls := by
  induction calls using List.reverseRecOn with
  | nil => exact ⟨_, rfl, represents_nil malloc capacity⟩
  | append_singleton calls call ih =>
    have hmem : call ∈ calls ++ [call] := by simp
    obtain ⟨table, hok, h⟩ := ih fun c hc => haccepted c (List.mem_append_left _ hc)
    obtain ⟨table', hcall, h'⟩ := h.tableInsert hcapacity (haccepted call hmem) call.2
    refine ⟨table', ?_, h'⟩
    rw [insertAll_concat, hok, Outcome.ok_bind, hcall]

/-- Calls that return had keys with buckets. -/
theorem accepted_of_insertAll (h : insertAll malloc capacity calls = .ok table) :
    ∀ call ∈ calls, Accepted capacity call.1 := by
  induction calls using List.reverseRecOn generalizing table with
  | nil => exact fun call hcall => absurd hcall List.not_mem_nil
  | append_singleton calls last ih =>
    rw [insertAll_concat] at h
    obtain ⟨table₁, hok, hlast⟩ := Outcome.bind_eq_ok.mp h
    intro call hcall
    rcases List.mem_append.mp hcall with hold | hnew
    · exact ih hok call hold
    · cases List.mem_singleton.mp hnew
      exact accepted_of_tableInsert hlast

/-! ### Lookups -/

/-- The youngest pair with the key is the one that the last call with it inserted. -/
theorem find_pairs {i : Fin capacity} (hi : charSum key % capacity = (i : ℕ))
    (calls : List (CString × Int32)) :
    (pairs capacity calls i).find? (fun kvp => kvp.key == key) =
      (latest key calls).map fun value => ⟨key, value⟩ := by
  unfold pairs latest
  -- a call with the key is in the bucket
  have hbelongs : ∀ call : CString × Int32, (call.1 == key) =
      (decide (charSum call.1 % capacity = (i : ℕ)) && call.1 == key) := by
    intro call
    by_cases heq : call.1 = key
    · simp [heq, hi]
    · simp [heq]
  rw [LinkedList.find?_bucket hbelongs, Option.map_map]
  refine Option.map_congr fun call hcall => ?_
  have hkey : call.1 = key := by simpa using List.find?_some hcall
  rw [Function.comp_apply, hkey]

theorem mem_of_latest (h : latest key calls = some value) : (key, value) ∈ calls := by
  obtain ⟨call, hfind, rfl⟩ := Option.map_eq_some_iff.mp h
  have hkey : call.1 = key := by simpa using List.find?_some hfind
  rw [← hkey]
  exact List.mem_reverse.mp (List.mem_of_find?_eq_some hfind)

/-- The walk of `table_get` through a bucket that is not empty. -/
theorem tableGet_eq_seek {i : Fin capacity} (hhash : hashFunction key capacity = .ok (i : ℕ))
    (hbucket : table.buckets i ≠ none) :
    tableGet table key = fun fuel =>
      seek table.heap (fun kvp => kvp.key == key) (table.buckets i) fuel >>= fun found =>
        match found with
        | some current => table.heap.load (some current) >>= fun node => .ok node.value.value
        | none => .ok (-1) := by
  obtain ⟨head, hhead⟩ := Option.ne_none_iff_exists'.mp hbucket
  funext fuel
  rw [tableGet, hhash, Outcome.ok_bind, Block.load_natCast, Outcome.ok_bind, hhead]

/-- The walk of `table_get` ends at the youngest pair with the key. -/
theorem Represents.tableGet (h : Represents malloc table calls) (hcapacity : 0 < capacity)
    (hhash : hashFunction key capacity = .ok (charSum key % capacity))
    (hlatest : latest key calls = some value) : Returns (tableGet table key) value := by
  obtain ⟨lists, hchains, hpairs, -⟩ := h
  obtain ⟨i, hi⟩ := exists_bucket hcapacity key
  have hpair := find_pairs hi calls
  rw [← hpairs, hlatest, Option.map_some] at hpair
  obtain ⟨a, hfind⟩ : ∃ a, find (fun kvp => kvp.key == key) (lists i) = some a := by
    rw [← Option.ne_none_iff_exists']
    intro hnone
    cases hpair.symm.trans (find_eq_none_iff.mp hnone)
  obtain ⟨kvp, hkvp, hmem⟩ := find_eq_some hfind
  obtain ⟨next, hcell⟩ := (hchains.holds i).chain.exists_next hmem
  cases hkvp.symm.trans hpair
  have hseek := hchains.seek i fun kvp => kvp.key == key
  rw [hfind] at hseek
  have hbucket : table.buckets i ≠ none := by
    rw [hchains.head_eq i, Ne, first_eq_none_iff]
    exact List.ne_nil_of_mem hmem
  rw [hi] at hhash
  rw [tableGet_eq_seek hhash hbucket]
  exact hseek.bind (.of_eq fun _ => by simp only [Heap.load_some hcell, Outcome.ok_bind])

/-- All calls return and every key that was inserted has its last value, exactly when the
hash and the size of each key are `int`s. -/
theorem get_latest_iff (malloc : ℕ ↪ ℕ) (hcapacity : 0 < capacity)
    (calls : List (CString × Int32)) (hascii : ∀ call ∈ calls, call.1.IsAscii) :
    (∃ table : HashTable capacity, insertAll malloc capacity calls = .ok table ∧
      ∀ key value, latest key calls = some value → Returns (tableGet table key) value) ↔
      ∀ call ∈ calls, Fits capacity call.1 := by
  constructor
  · rintro ⟨table, hok, -⟩ call hcall
    exact (accepted_of_insertAll hok call hcall).fits hcapacity (hascii call hcall)
  · intro hfits
    have haccepted : ∀ call ∈ calls, Accepted capacity call.1 := fun call hcall =>
      (hfits call hcall).accepted hcapacity (hascii call hcall)
    obtain ⟨table, hok, h⟩ : ∃ table, insertAll malloc capacity calls = .ok table ∧
        Represents malloc table calls := represents hcapacity haccepted
    refine ⟨table, hok, fun key value hlatest => ?_⟩
    exact h.tableGet hcapacity (haccepted _ (mem_of_latest hlatest)).hash hlatest

/-- The calls of `main`, and one more that writes the value of `Val` again. -/
def mainCalls : List (CString × Int32) :=
  [(.ofString "Leonor", 8), (.ofString "Val", 14), (.ofString "Grace", 19),
    (.ofString "Leonordo", 11), (.ofString "Nash", 11), (.ofString "Turing", 10),
    (.ofString "Val", 15)]

/-- The keys of `main` fit in a table with five buckets. -/
theorem mainCalls_get_latest :
    ∃ table : HashTable 5, insertAll (.refl ℕ) 5 mainCalls = .ok table ∧
      ∀ key value, latest key mainCalls = some value → Returns (tableGet table key) value :=
  (get_latest_iff (.refl ℕ) (by decide) mainCalls (by decide +kernel)).mpr fun call hcall =>
    ⟨noOverflow_of_le (by decide) (by decide) call.1,
      (by decide : ∀ call ∈ mainCalls, call.1.length < 2 ^ 31 - 1) call hcall⟩

/-! ### A hash that overflows -/

theorem charHash_replicate {n : ℕ} (hn : 122 * n < intMax) :
    charHash (List.replicate n 122) intMax = .ok (122 * n) := by
  induction n with
  | zero => rfl
  | succ n ih =>
    have hstep : charHashStep intMax (122 * n) 122 = .ok (122 * n + 122) :=
      (charHashStep_eq_ok_iff (by decide) (by omega) (by decide)).mpr
        ⟨by push_cast at hn; exact hn.le, (Int.emod_eq_of_lt (by omega) (by omega)).symm⟩
    rw [List.replicate_succ', charHash_concat, ih (by omega), Outcome.ok_bind, hstep]
    rfl

/-- Another `z` behind a hash that it does not fit on. -/
theorem insertAll_replicate {n : ℕ} (hn : 122 * n < intMax) (hlong : intMax < 122 * n + 122)
    (malloc : ℕ ↪ ℕ) (value : Int32) :
    insertAll malloc 2147483647 [(List.replicate (n + 1) 122, value)] = .error .overflow := by
  have hstep : charHashStep intMax (122 * n) 122 = .error .overflow := by
    have hadd : addInt (122 * n) (122 : Int8).toInt = .error .overflow := addInt_overflow hlong
    rw [charHashStep, hadd, Outcome.error_bind]
  have hhash : hashFunction (List.replicate (n + 1) 122) 2147483647 = .error .overflow := by
    have h := charHash_concat (List.replicate n 122) 122 intMax
    rwa [← List.replicate_succ', charHash_replicate hn, Outcome.ok_bind, hstep] at h
  have hnil : insertAll malloc 2147483647 [] = .ok (tableCreate 2147483647) := rfl
  rw [← List.nil_append [_], insertAll_concat, hnil, Outcome.ok_bind, tableInsert, hhash,
    Outcome.error_bind]

/-- A table with `INT_MAX` buckets cannot take a key of 17602325 times `z`. -/
theorem insertAll_long_key :
    CString.IsAscii (List.replicate 17602325 122) ∧
      insertAll (.refl ℕ) 2147483647 [(List.replicate 17602325 122, 7)] = .error .overflow :=
  ⟨fun _ hc => List.eq_of_mem_replicate hc ▸ by decide,
    insertAll_replicate (by decide) (by decide) (.refl ℕ) 7⟩

end BareMetal.DataStructures
