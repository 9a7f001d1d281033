import BareMetal.Problems.RpgInventory

/-!
# Equipping weapons

`equip_weapon` sets a bit in the state of the first item of a name, and like `use_consumable` it
takes what `find_item` returns for an item. `find_item` ends the process where the bucket of the
name is empty and returns a null pointer where the bucket holds other names.

## Main results

* `missing_item_iff` — a name that is not stored does no harm exactly when its bucket is empty
-/

namespace BareMetal.RpgInventory

open CS Transition LinkedList

/-- `ITEM_EQUIP_IDX`. -/
def itemEquipIdx : UInt8 := 3

/-- `weapon->item_state |= BIT(ITEM_EQUIP_IDX)`. -/
def Item.equip (item : Item) : Item :=
  { item with itemState := item.itemState ||| bit itemEquipIdx }

/-- `equip_weapon`. The bit is looked at again once it is set, for the message only. -/
def equipWeapon (inventory : Inventory) (weaponName : CString) (fuel : ℕ) :
    Outcome Inventory := do
  let weapon ← findItem inventory weaponName fuel
  let node ← inventory.heap.load weapon
  if node.value.itemState &&& bit itemEquipIdx ≠ 0 then .ok inventory
  else
    let heap ← inventory.heap.store weapon { node with value := node.value.equip }
    .ok { inventory with heap := heap }

/-! ### Runs -/

/-- A call with its arguments; an item that is added goes with its address. -/
inductive Action
  | addWeapon (item : ℕ) (weaponName : CString) (weapon : Weapons)
  | addConsumable (item : ℕ) (consumableName : CString) (consumable : Consumables)
  | equipWeapon (weaponName : CString)
  | useConsumable (consumableName : CString) (ph pm : UInt8)
  deriving DecidableEq, Repr

/-- A call that returns. -/
inductive Plays (s : Inventory) : Action → Inventory → Prop
  | addWeapon {item fuel : ℕ} {weaponName : CString} {weapon : Weapons} {s' : Inventory}
      (hfree : s.heap item = none)
      (hcall : RpgInventory.addWeapon s item weaponName weapon fuel = .ok s') :
      Plays s (.addWeapon item weaponName weapon) s'
  | addConsumable {item fuel : ℕ} {consumableName : CString} {consumable : Consumables}
      {s' : Inventory} (hfree : s.heap item = none)
      (hcall : RpgInventory.addConsumable s item consumableName consumable fuel = .ok s') :
      Plays s (.addConsumable item consumableName consumable) s'
  | equipWeapon {fuel : ℕ} {weaponName : CString} {s' : Inventory}
      (hcall : RpgInventory.equipWeapon s weaponName fuel = .ok s') :
      Plays s (.equipWeapon weaponName) s'
  | useConsumable {fuel : ℕ} {consumableName : CString} {ph pm : UInt8}
      {consumed : Option (UInt8 × UInt8)} {s' : Inventory}
      (hcall : RpgInventory.useConsumable s consumableName ph pm fuel = .ok (s', consumed)) :
      Plays s (.useConsumable consumableName ph pm) s'

/-- Sequences of calls on a new inventory. -/
def game : System Inventory Action where
  start s := s = initInventory
  step s e s' := Plays s e s'

/-- An item with the given name is in some bucket. -/
def Stored (s : Inventory) (name : CString) : Prop :=
  ∃ lists, Chains s.heap s.items lists ∧ ∃ i, ∃ cell ∈ lists i, cell.2.name = name

/-- The bucket of the name holds nothing. -/
def BucketEmpty (s : Inventory) (name : CString) : Prop :=
  ∃ i : Fin capacity, hashFunction name capacity = .ok (UInt8.ofNat i) ∧ s.items i = none

/-- The call returns with everything as it was, or it ends the process. -/
def Harmless {α : Type} (call : ℕ → Outcome α) (unchanged : α) : Prop :=
  ∃ bound, ∀ fuel, bound ≤ fuel →
    call fuel = .ok unchanged ∨ ∃ status message, call fuel = .error (.exit status message)

variable {s s' : Inventory} {name : CString} {i : Fin capacity} {fuel : ℕ} {found : Option ℕ}
  {lists : Fin capacity → List (ℕ × Item)} {trace : Trace Inventory Action}

/-! ### What `find_item` finds -/

/-- The byte of a bucket. -/
theorem toNat_ofNat_bucket (i : Fin capacity) : (UInt8.ofNat i).toNat = i :=
  UInt8.toNat_ofNat_of_lt' (Nat.lt_trans i.isLt (by decide))

/-- The hash of an ASCII name is the byte of a bucket. -/
theorem exists_hashFunction (hascii : name.IsAscii) :
    ∃ i : Fin capacity, hashFunction name capacity = .ok (UInt8.ofNat i) := by
  obtain ⟨i, hhash, hbyte⟩ := exists_charHash_eq (n := capacity) (by decide) (by decide) hascii
  have hidx : UInt8.ofInt (i : ℕ) = UInt8.ofNat i :=
    UInt8.toNat_inj.mp (hbyte.trans (toNat_ofNat_bucket i).symm)
  exact ⟨i, by rw [hashFunction, hhash, Outcome.ok_bind, hidx]⟩

theorem findItem_empty (hhash : hashFunction name capacity = .ok (UInt8.ofNat i))
    (hempty : s.items i = none) (fuel : ℕ) :
    findItem s name fuel =
      .error (.exit 1 s!"Could not find the item '{name.toText}' for in your inventory\n") := by
  rw [findItem, hhash, Outcome.ok_bind, toNat_ofNat_bucket, Block.load_natCast, Outcome.ok_bind,
    hempty]

/-- A bucket with items is searched for the first one with the name. -/
theorem findItem_returns (hchains : Chains s.heap s.items lists)
    (hhash : hashFunction name capacity = .ok (UInt8.ofNat i)) (hbucket : s.items i ≠ none) :
    Returns (findItem s name) (find (fun item => item.name == name) (lists i)) := by
  have hseek := hchains.seek i fun item => item.name == name
  have hchain := (hchains.holds i).chain
  have hhead := hchains.head_eq i
  cases hnodes : lists i with
  | nil =>
    rw [hnodes] at hhead
    exact absurd hhead hbucket
  | cons first rest =>
    obtain ⟨a, item⟩ := first
    rw [hnodes] at hseek hchain hhead
    rw [first_cons] at hhead
    rw [hhead] at hseek
    -- `find_item` looks at the first item before it walks
    have hfind : findItem s name = fun fuel =>
        if item.name = name then .ok (some a)
        else seek s.heap (fun item => item.name == name) (some a) fuel := by
      funext fuel
      simp only [findItem, hhash, Outcome.ok_bind, toNat_ofNat_bucket, Block.load_natCast, hhead,
        Heap.load_some hchain.1]
    rw [hfind]
    by_cases hname : item.name = name
    · have hfirst : find (fun item => item.name == name) ((a, item) :: rest) = some a := by
        simp [find, hname]
      rw [hfirst]
      exact .of_eq fun _ => if_pos hname
    · simp only [if_neg hname]
      exact hseek

/-- A search that returns was in the bucket of the name. -/
theorem findItem_eq_ok (hchains : Chains s.heap s.items lists)
    (hok : findItem s name fuel = .ok found) :
    ∃ i : Fin capacity, hashFunction name capacity = .ok (UInt8.ofNat i) ∧
      found = find (fun item => item.name == name) (lists i) := by
  obtain ⟨idx, hhash, hrest⟩ := Outcome.bind_eq_ok.mp hok
  obtain ⟨bucket, hload, hrest⟩ := Outcome.bind_eq_ok.mp hrest
  obtain ⟨i, hi, rfl⟩ := Block.exists_of_load hload
  have hidx : idx = UInt8.ofNat i := by
    rw [← Int.ofNat.inj hi, UInt8.ofNat_toNat]
  subst hidx
  refine ⟨i, hhash, ?_⟩
  by_cases hempty : s.items i = none
  · cases (findItem_empty hhash hempty fuel).symm.trans hok
  · exact (findItem_returns hchains hhash hempty).eq_of_ok hok

/-! ### Invariants of the runs -/

/-- What `equip_weapon` changes. -/
theorem equipWeapon_cases (hcall : equipWeapon s name fuel = .ok s') :
    ∃ a node, findItem s name fuel = .ok (some a) ∧ s.heap a = some node ∧
      (node.value.itemState &&& bit itemEquipIdx ≠ 0 ∧ s' = s ∨
        node.value.itemState &&& bit itemEquipIdx = 0 ∧ s' = { s with
          heap := Function.update s.heap a (some ⟨node.value.equip, node.next⟩) }) := by
  obtain ⟨found, hfound, hcall⟩ := Outcome.bind_eq_ok.mp hcall
  obtain ⟨node, hload, hcall⟩ := Outcome.bind_eq_ok.mp hcall
  obtain ⟨a, rfl, hcell⟩ := Heap.exists_of_load hload
  refine ⟨a, node, hfound, hcell, ?_⟩
  split_ifs at hcall with hequipped
  · exact Or.inl ⟨hequipped, (Except.ok.inj hcall).symm⟩
  · rw [Heap.store_some hcell, Outcome.ok_bind] at hcall
    exact Or.inr ⟨not_not.mp hequipped, (Except.ok.inj hcall).symm⟩

/-- No call breaks a chain. -/
theorem exists_chains (hrun : Run game trace s) : ∃ lists, Chains s.heap s.items lists := by
  refine hrun.invariant (I := fun _ s => ∃ lists, Chains s.heap s.items lists) ?_ ?_
  · rintro s rfl
    exact ⟨_, chains_nil _⟩
  · rintro calls s e s' ⟨lists, hchains⟩ hstep
    cases hstep with
    | addWeapon hfree hcall =>
      obtain ⟨stats, -, hcall⟩ := Outcome.bind_eq_ok.mp hcall
      obtain ⟨i, -, hchains', -⟩ := addItem_chains hchains hfree hcall
      exact ⟨_, hchains'⟩
    | addConsumable hfree hcall =>
      obtain ⟨stats, -, hcall⟩ := Outcome.bind_eq_ok.mp hcall
      obtain ⟨i, -, hchains', -⟩ := addItem_chains hchains hfree hcall
      exact ⟨_, hchains'⟩
    | equipWeapon hcall =>
      obtain ⟨a, node, -, hcell, ⟨-, rfl⟩ | ⟨-, rfl⟩⟩ := equipWeapon_cases hcall
      · exact ⟨lists, hchains⟩
      · exact ⟨_, hchains.setAt hcell (node.value.equip)⟩
    | useConsumable hcall =>
      rcases useConsumable_cases hcall with ⟨-, rfl, -⟩ | ⟨-, rfl, -⟩
      · exact ⟨lists, hchains⟩
      · exact ⟨lists, hchains⟩

/-! ### Names that are not stored -/

/-- A call that goes on with what `find_item` returns. -/
theorem harmless_iff {α : Type} {call : ℕ → Outcome α} {rest : Option ℕ → Outcome α}
    {unchanged : α} (hcall : ∀ fuel, call fuel = findItem s name fuel >>= rest)
    (hnull : rest none = .error (.outOfBounds 0)) (hchains : Chains s.heap s.items lists)
    (hascii : name.IsAscii) (hmissing : ¬ Stored s name) :
    Harmless call unchanged ↔ BucketEmpty s name := by
  obtain ⟨i, hhash⟩ := exists_hashFunction hascii
  by_cases hempty : s.items i = none
  · -- `find_item` ends the process
    refine iff_of_true ⟨0, fun fuel _ => Or.inr ?_⟩ ⟨i, hhash, hempty⟩
    rw [hcall, findItem_empty hhash hempty, Outcome.error_bind]
    exact ⟨_, _, rfl⟩
  · -- `find_item` returns a null pointer, and what follows reads through it
    have hfind : find (fun item => item.name == name) (lists i) = none := by
      rw [← Option.not_isSome_iff_eq_none, Option.isSome_iff_exists]
      rintro ⟨a, hfind⟩
      obtain ⟨item, hitem, hmem⟩ := find_eq_some hfind
      have hname : item.name = name := by simpa using List.find?_some hitem
      exact hmissing ⟨lists, hchains, i, (a, item), hmem, hname⟩
    have hreturns := findItem_returns hchains hhash hempty
    rw [hfind] at hreturns
    obtain ⟨bound, hbound⟩ := hreturns.enough
    have hnullRead : ∀ fuel, bound ≤ fuel → call fuel = .error (.outOfBounds 0) := by
      intro fuel hfuel
      rw [hcall, hbound fuel hfuel, Outcome.ok_bind, hnull]
    refine iff_of_false ?_ ?_
    · rintro ⟨bound', hharmless⟩
      have hread := hnullRead (max bound bound') (Nat.le_max_left _ _)
      rcases hharmless (max bound bound') (Nat.le_max_right _ _) with hok | ⟨status, message, hexit⟩
      · cases hread.symm.trans hok
      · cases hread.symm.trans hexit
    · rintro ⟨j, hhash', hempty'⟩
      have hj := (ofNat_inj_of_le (by decide)).mp (Except.ok.inj (hhash.symm.trans hhash'))
      exact hempty (hj ▸ hempty')

/-- In every inventory, for every ASCII name that no item has: equipping it and using it change
nothing and read through no null pointer exactly when the bucket of the name is empty. -/
theorem missing_item_iff (hrun : Run game trace s) (hascii : name.IsAscii)
    (hmissing : ¬ Stored s name) (ph pm : UInt8) :
    (Harmless (equipWeapon s name) s ↔ BucketEmpty s name) ∧
      (Harmless (useConsumable s name ph pm) (s, none) ↔ BucketEmpty s name) := by
  obtain ⟨lists, hchains⟩ := exists_chains hrun
  exact ⟨harmless_iff (fun _ => rfl) rfl hchains hascii hmissing,
    harmless_iff (fun _ => rfl) rfl hchains hascii hmissing⟩

theorem run_game_onePotion :
    Run game ([] ++ [(initInventory, .addConsumable 0 potionName .potion)]) onePotion := by
  have hfree : initInventory.heap 0 = none := rfl
  have hstep : game.step initInventory (.addConsumable 0 potionName .potion) onePotion :=
    .addConsumable hfree addConsumable_potion
  exact (Run.start rfl).step hstep

/-- The potion is the only item. -/
theorem not_stored_onePotion (hne : potionName ≠ name) : ¬ Stored onePotion name := by
  rintro ⟨lists, hchains, i, cell, hmem, hname⟩
  have hcall := addConsumable_potion
  obtain ⟨stats, -, hcall⟩ := Outcome.bind_eq_ok.mp hcall
  obtain ⟨j, -, hchains', -⟩ := addItem_chains (chains_nil _) rfl hcall
  rw [hchains.unique hchains'] at hmem
  rcases eq_or_ne i j with rfl | hne'
  · rw [Function.update_self, List.nil_append] at hmem
    cases List.mem_singleton.mp hmem
    rw [newItem_name (by decide)] at hname
    exact hne hname
  · rw [Function.update_of_ne hne'] at hmem
    cases hmem

/-- A name with another hash. -/
def otherName : CString := .ofString "h"

/-- The inventory holds a potion, and a name whose bucket is empty is looked for. -/
theorem missing_item_onePotion :
    Harmless (equipWeapon onePotion otherName) onePotion ∧
      Harmless (useConsumable onePotion otherName 20 10) (onePotion, none) := by
  have hbucket : BucketEmpty onePotion otherName := ⟨4, by decide, rfl⟩
  obtain ⟨hequip, huse⟩ := missing_item_iff run_game_onePotion (by decide +kernel)
    (not_stored_onePotion (by decide : potionName ≠ otherName)) 20 10
  exact ⟨hequip.mpr hbucket, huse.mpr hbucket⟩

/-- A name with the hash of the potion. -/
def sharedName : CString := .ofString "g"

/-- The inventory holds a potion, and another name with its hash is looked for. -/
theorem missing_item_crashes :
    ∃ trace s, Run game trace s ∧ sharedName.IsAscii ∧ ¬ Stored s sharedName ∧
      ¬ Harmless (equipWeapon s sharedName) s ∧
      ¬ Harmless (useConsumable s sharedName 20 10) (s, none) := by
  have hascii : sharedName.IsAscii := by decide +kernel
  have hmissing : ¬ Stored onePotion sharedName := not_stored_onePotion (by decide)
  obtain ⟨lists, hchains⟩ := exists_chains run_game_onePotion
  have hbucket : ¬ BucketEmpty onePotion sharedName := by
    rintro ⟨i, hhash, hempty⟩
    have hthree : hashFunction sharedName capacity = .ok (UInt8.ofNat (3 : Fin capacity)) := by
      decide
    have hi := (ofNat_inj_of_le (by decide)).mp (Except.ok.inj (hhash.symm.trans hthree))
    subst hi
    cases hempty
  refine ⟨_, _, run_game_onePotion, hascii, hmissing, ?_, ?_⟩
  · exact (not_congr (harmless_iff (fun _ => rfl) rfl hchains hascii hmissing)).mpr hbucket
  · exact (not_congr (harmless_iff (fun _ => rfl) rfl hchains hascii hmissing)).mpr hbucket

end BareMetal.RpgInventory
