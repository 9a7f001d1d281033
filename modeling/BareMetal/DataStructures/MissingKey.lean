import BareMetal.DataStructures.HashTable

/-!
# Keys that are not in the table

`table_get` exits for a key whose bucket is empty and returns -1 for a key whose bucket holds
other keys. Nothing keeps -1 from being stored.

## Main results

* `missing_iff` — when two tables agree on a missing key, and when its outcome differs from the
  one of a key that is there
-/

namespace BareMetal.DataStructures

open CS LinkedList

/-- How a lookup ends. -/
inductive Answer
  | value (v : Int32)
  | exits
  deriving DecidableEq, Repr

/-- With enough fuel the lookup returns the value, or it ends the process. -/
def Gives (get : ℕ → Outcome Int32) : Answer → Prop
  | .value v => Returns get v
  | .exits => ∃ bound, ∀ fuel, bound ≤ fuel →
    ∃ status message, get fuel = .error (.exit status message)

/-- Both lookups return the same value or both exit. -/
def SameOutcome (get get' : ℕ → Outcome Int32) : Prop :=
  ∃ answer, Gives get answer ∧ Gives get' answer

/-- The lookups return different values, or only one of them returns. -/
def DifferentOutcome (get get' : ℕ → Outcome Int32) : Prop :=
  ∃ answer answer', Gives get answer ∧ Gives get' answer' ∧ answer ≠ answer'

/-- A key with the same hash was inserted. -/
def Occupied (capacity : ℕ) (calls : List (CString × Int32)) (key : CString) : Prop :=
  ∃ call ∈ calls, hashFunction call.1 capacity = hashFunction key capacity

/-- The outcome for a key that is not there. -/
def absent (pairs : List KeyValuePair) : Answer := if pairs = [] then .exits else .value (-1)

variable {capacity : ℕ} {malloc malloc₁ malloc₂ : ℕ ↪ ℕ} {table table₁ table₂ : HashTable capacity}
  {calls calls₁ calls₂ : List (CString × Int32)} {key : CString} {value : Int32}
  {get get' : ℕ → Outcome Int32} {answer answer' : Answer} {i : Fin capacity}

/-! ### Answers -/

theorem Gives.unique (h : Gives get answer) (h' : Gives get answer') : answer = answer' := by
  -- a lookup that returns with some fuel returns with more
  have hclash : ∀ v, Gives get (.value v) → ¬ Gives get .exits := by
    rintro v ⟨⟨bound, hbound⟩, -⟩ ⟨bound', hbound'⟩
    obtain ⟨status, message, hexit⟩ := hbound' (max bound bound') (Nat.le_max_right _ _)
    cases (hbound _ (Nat.le_max_left _ _)).symm.trans hexit
  cases answer with
  | value v =>
    cases answer' with
    | value v' => exact congrArg Answer.value (Returns.unique h h')
    | exits => exact absurd h' (hclash v h)
  | exits =>
    cases answer' with
    | value v' => exact absurd h (hclash v' h')
    | exits => rfl

theorem sameOutcome_iff (h : Gives get answer) (h' : Gives get' answer') :
    SameOutcome get get' ↔ answer = answer' := by
  constructor
  · rintro ⟨common, hget, hget'⟩
    rw [h.unique hget, h'.unique hget']
  · rintro rfl
    exact ⟨answer, h, h'⟩

theorem differentOutcome_iff (h : Gives get answer) (h' : Gives get' answer') :
    DifferentOutcome get get' ↔ answer ≠ answer' := by
  constructor
  · rintro ⟨first, second, hget, hget', hne⟩
    rwa [h.unique hget, h'.unique hget']
  · intro hne
    exact ⟨answer, answer', h, h', hne⟩

theorem absent_eq_iff {xs ys : List KeyValuePair} :
    absent xs = absent ys ↔ (xs = [] ↔ ys = []) := by
  unfold absent
  by_cases hxs : xs = [] <;> by_cases hys : ys = [] <;> simp [hxs, hys]

theorem absent_eq_value_iff {xs : List KeyValuePair} :
    absent xs = .value value ↔ xs ≠ [] ∧ -1 = value := by
  unfold absent
  by_cases hxs : xs = [] <;> simp [hxs]

/-! ### Lookups of missing keys -/

theorem represents_of_insertAll (hcapacity : 0 < capacity)
    (hok : insertAll malloc capacity calls = .ok table) : Represents malloc table calls := by
  obtain ⟨table', hok', h⟩ : ∃ table', insertAll malloc capacity calls = .ok table' ∧
      Represents malloc table' calls := represents hcapacity (accepted_of_insertAll hok)
  cases hok.symm.trans hok'
  exact h

theorem isIndex_iff_exists :
    IsIndex capacity (hashFunction key capacity) ↔
      ∃ i : Fin capacity, hashFunction key capacity = .ok (i : ℕ) := by
  constructor
  · rintro ⟨h, hok, hnonneg, hlt⟩
    obtain ⟨i, rfl⟩ := Block.exists_index hnonneg hlt
    exact ⟨i, hok⟩
  · rintro ⟨i, hok⟩
    exact ⟨_, hok, Int.natCast_nonneg _, Int.ofNat_lt.mpr i.isLt⟩

/-- The bucket of a key is empty exactly when no key with its hash was inserted. -/
theorem occupied_iff (hok : insertAll malloc capacity calls = .ok table)
    (hhash : hashFunction key capacity = .ok (i : ℕ)) :
    Occupied capacity calls key ↔ pairs capacity calls i ≠ [] := by
  -- the hash of a key that was inserted is the sum modulo the capacity
  have hsame : ∀ call ∈ calls, hashFunction call.1 capacity = hashFunction key capacity ↔
      charSum call.1 % capacity = (i : ℕ) := by
    intro call hcall
    rw [(accepted_of_insertAll hok call hcall).hash, hhash, Except.ok.injEq]
  unfold Occupied pairs
  rw [Ne, List.map_eq_nil_iff, List.filter_eq_nil_iff]
  simp only [List.mem_reverse, decide_eq_true_eq, not_forall, not_not, exists_prop]
  exact exists_congr fun call => and_congr_right (hsame call)

/-- The walk of `table_get` for a key that is not there. -/
theorem Represents.gives_absent (h : Represents malloc table calls)
    (hhash : hashFunction key capacity = .ok (i : ℕ)) (hnone : latest key calls = none) :
    Gives (DataStructures.tableGet table key) (absent (pairs capacity calls i)) := by
  obtain ⟨lists, hchains, hpairs, -⟩ := h
  by_cases hempty : pairs capacity calls i = []
  · -- `table_get` ends the process before it walks
    rw [absent, if_pos hempty]
    have hbucket : table.buckets i = none := by
      rw [hchains.head_eq i, first_eq_none_iff, ← List.map_eq_nil_iff (f := Prod.snd), hpairs,
        hempty]
    refine ⟨0, fun fuel _ => ⟨1, s!"Could not find any value for key = {key.toText} \n", ?_⟩⟩
    rw [DataStructures.tableGet, hhash, Outcome.ok_bind, Block.load_natCast, Outcome.ok_bind,
      hbucket]
  · rw [absent, if_neg hempty]
    have hbucket : table.buckets i ≠ none := by
      rwa [hchains.head_eq i, Ne, first_eq_none_iff, ← List.map_eq_nil_iff (f := Prod.snd), hpairs]
    have hfind : find (fun kvp => kvp.key == key) (lists i) = none := by
      rw [find_eq_none_iff, hpairs, find_pairs (hashFunction_eq_emod hhash), hnone]
      rfl
    have hseek := hchains.seek i fun kvp => kvp.key == key
    rw [hfind] at hseek
    rw [tableGet_eq_seek hhash hbucket]
    exact hseek.bind (.of_eq fun _ => rfl)

/-- A lookup that returns or exits has found a bucket. -/
theorem isIndex_of_gives (h : Gives (tableGet table key) answer) :
    IsIndex capacity (hashFunction key capacity) := by
  -- it has not stopped in another way
  obtain ⟨fuel, hfuel⟩ : ∃ fuel, ∀ stop, tableGet table key fuel = .error stop →
      ∃ status message, stop = .exit status message := by
    cases answer with
    | value v =>
      obtain ⟨fuel, hok⟩ := Returns.exists_ok h
      refine ⟨fuel, fun stop hstop => ?_⟩
      cases hok.symm.trans hstop
    | exits =>
      obtain ⟨bound, hbound⟩ := h
      obtain ⟨status, message, hexit⟩ := hbound bound (Nat.le_refl bound)
      refine ⟨bound, fun stop hstop => ⟨status, message, ?_⟩⟩
      exact Except.error.inj (hstop.symm.trans hexit)
  cases hhash : hashFunction key capacity with
  | error stop =>
    have hget : tableGet table key fuel = .error stop := by
      rw [tableGet, hhash, Outcome.error_bind]
    obtain ⟨status, message, rfl⟩ := hfuel stop hget
    rcases charHash_eq_error hhash with hstop | hstop <;> cases hstop
  | ok index =>
    cases hload : table.buckets.load index with
    | error stop =>
      have hget : tableGet table key fuel = .error stop := by
        rw [tableGet, hhash, Outcome.ok_bind, hload, Outcome.error_bind]
      obtain ⟨status, message, rfl⟩ := hfuel stop hget
      unfold Block.load at hload
      split_ifs at hload
      cases hload
    | ok bucket =>
      obtain ⟨i, rfl, -⟩ := Block.exists_of_load hload
      exact ⟨_, rfl, Int.natCast_nonneg _, Int.ofNat_lt.mpr i.isLt⟩

/-- What is decided by the bucket of a key, where nothing but a bucket leads to it. -/
theorem iff_isIndex_and {p q : Prop} (hindex : p → IsIndex capacity (hashFunction key capacity))
    (hbucket : ∀ i : Fin capacity, hashFunction key capacity = .ok (i : ℕ) → (p ↔ q)) :
    p ↔ IsIndex capacity (hashFunction key capacity) ∧ q := by
  constructor
  · intro hp
    obtain ⟨i, hhash⟩ := isIndex_iff_exists.mp (hindex hp)
    exact ⟨hindex hp, (hbucket i hhash).mp hp⟩
  · rintro ⟨hnamed, hq⟩
    obtain ⟨i, hhash⟩ := isIndex_iff_exists.mp hnamed
    exact (hbucket i hhash).mpr hq

/-- For every two tables without a key, the two lookups of it have the same outcome exactly when
its hash names a bucket that is empty in both or in neither. In a table without it, its outcome
differs from the one of a key that is there, exactly when its hash names a bucket, unless that
bucket is not empty and the value is -1. -/
theorem missing_iff (hcapacity : 0 < capacity)
    (hok₁ : insertAll malloc₁ capacity calls₁ = .ok table₁)
    (hok₂ : insertAll malloc₂ capacity calls₂ = .ok table₂)
    (hnone₁ : latest key calls₁ = none) (hnone₂ : latest key calls₂ = none) :
    (SameOutcome (tableGet table₁ key) (tableGet table₂ key) ↔
        IsIndex capacity (hashFunction key capacity) ∧
          (Occupied capacity calls₁ key ↔ Occupied capacity calls₂ key)) ∧
      ∀ key' value, latest key' calls₁ = some value →
        (DifferentOutcome (tableGet table₁ key) (tableGet table₁ key') ↔
          IsIndex capacity (hashFunction key capacity) ∧
            ¬ (Occupied capacity calls₁ key ∧ value = -1)) := by
  have h₁ := represents_of_insertAll hcapacity hok₁
  have h₂ := represents_of_insertAll hcapacity hok₂
  constructor
  · refine iff_isIndex_and ?_ fun i hhash => ?_
    · rintro ⟨answer, hgives, -⟩
      exact isIndex_of_gives hgives
    · rw [sameOutcome_iff (h₁.gives_absent hhash hnone₁) (h₂.gives_absent hhash hnone₂),
        absent_eq_iff, occupied_iff hok₁ hhash, occupied_iff hok₂ hhash, not_iff_not]
  · intro key' value hlatest
    have haccepted := accepted_of_insertAll hok₁ _ (mem_of_latest hlatest)
    have hpresent : Gives (tableGet table₁ key') (.value value) :=
      h₁.tableGet hcapacity haccepted.hash hlatest
    refine iff_isIndex_and ?_ fun i hhash => ?_
    · rintro ⟨answer, answer', hgives, -⟩
      exact isIndex_of_gives hgives
    · rw [differentOutcome_iff (h₁.gives_absent hhash hnone₁) hpresent, occupied_iff hok₁ hhash,
        Ne, absent_eq_value_iff, eq_comm (a := value)]

/-! ### Two tables without a key -/

/-- The only call on the second table. -/
def storeMinusOne : List (CString × Int32) := [(.ofString "a", -1)]

/-- The hashes of `a` and of `f` are 2. -/
theorem hashFunction_f : hashFunction (.ofString "f") 5 = .ok ((2 : Fin 5) : ℕ) := by decide

theorem exists_insertAll_storeMinusOne :
    ∃ table : HashTable 5, insertAll (.refl ℕ) 5 storeMinusOne = .ok table ∧
      Represents (.refl ℕ) table storeMinusOne := by
  refine represents (by decide) fun call hcall => ?_
  cases List.mem_singleton.mp hcall
  exact ⟨by decide, by decide⟩

theorem missing_iff_storeMinusOne :
    ∃ table₁ table₂ : HashTable 5, insertAll (.refl ℕ) 5 [] = .ok table₁ ∧
      insertAll (.refl ℕ) 5 storeMinusOne = .ok table₂ ∧
      (SameOutcome (tableGet table₂ (.ofString "f")) (tableGet table₁ (.ofString "f")) ↔
        IsIndex 5 (hashFunction (.ofString "f") 5) ∧
          (Occupied 5 storeMinusOne (.ofString "f") ↔ Occupied 5 [] (.ofString "f"))) ∧
      ∀ key' value, latest key' storeMinusOne = some value →
        (DifferentOutcome (tableGet table₂ (.ofString "f")) (tableGet table₂ key') ↔
          IsIndex 5 (hashFunction (.ofString "f") 5) ∧
            ¬ (Occupied 5 storeMinusOne (.ofString "f") ∧ value = -1)) := by
  obtain ⟨table₂, hok₂, -⟩ := exists_insertAll_storeMinusOne
  have hok₁ : insertAll (.refl ℕ) 5 [] = .ok (tableCreate 5) := rfl
  exact ⟨tableCreate 5, table₂, hok₁, hok₂,
    missing_iff (by decide) hok₂ hok₁ (by decide) rfl⟩

/-- The empty table exits for `f`. The table with `a` returns -1 for `f`, and for `a`. -/
theorem missing_differs :
    ∃ table₁ table₂ : HashTable 5, insertAll (.refl ℕ) 5 [] = .ok table₁ ∧
      insertAll (.refl ℕ) 5 storeMinusOne = .ok table₂ ∧
      latest (.ofString "f") [] = none ∧ latest (.ofString "f") storeMinusOne = none ∧
      latest (.ofString "a") storeMinusOne = some (-1) ∧
      ¬ SameOutcome (tableGet table₁ (.ofString "f")) (tableGet table₂ (.ofString "f")) ∧
      ¬ DifferentOutcome (tableGet table₂ (.ofString "f")) (tableGet table₂ (.ofString "a")) := by
  obtain ⟨table₂, hok₂, h₂⟩ := exists_insertAll_storeMinusOne
  have hgives₁ : Gives (tableGet (tableCreate 5) (.ofString "f")) .exits :=
    (represents_nil (.refl ℕ) 5).gives_absent hashFunction_f rfl
  have hgives₂ : Gives (tableGet table₂ (.ofString "f")) (.value (-1)) :=
    h₂.gives_absent hashFunction_f (by decide)
  have hpresent : Gives (tableGet table₂ (.ofString "a")) (.value (-1)) :=
    h₂.tableGet (by decide) (by decide) (by decide)
  refine ⟨tableCreate 5, table₂, rfl, hok₂, rfl, by decide, by decide, ?_, ?_⟩
  · rw [sameOutcome_iff hgives₁ hgives₂]
    decide
  · rw [differentOutcome_iff hgives₂ hpresent]
    decide

end BareMetal.DataStructures
