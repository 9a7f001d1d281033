import BareMetal.Problems.RpgInventory.Game

/-!
# Weapons and consumables under one name

Nothing in an item tells a weapon from a consumable. `equip_weapon` and `use_consumable` both
take the first item of the name that they are given.

## Main results

* `shelved` — the buckets hold the items in the order in which they were added
* `kinds_iff` — which names are only equipped as weapons and only used as consumables
-/

namespace BareMetal.RpgInventory

open CS Transition LinkedList

/-- The call adds an item. -/
def Action.adds : Action → Prop
  | .addWeapon .. => True
  | .addConsumable .. => True
  | _ => False

/-- An item that was added, with its address. -/
structure Entry where
  address : ℕ
  name : CString
  stats : UInt8 × UInt8
  isWeapon : Bool
  deriving DecidableEq, Repr

/-- The item that a call adds. -/
def Action.entry : Action → Option Entry
  | .addWeapon item weaponName weapon =>
    match mapWeaponStats weapon with
    | .ok stats => some ⟨item, weaponName, stats, true⟩
    | .error _ => none
  | .addConsumable item consumableName consumable =>
    match mapConsumable consumable with
    | .ok consStats => some ⟨item, consumableName, consStats, false⟩
    | .error _ => none
  | _ => none

/-- The items in the order in which they were added. -/
def entries (calls : List Action) : List Entry := calls.filterMap Action.entry

namespace Entry

/-- The cell of the item. -/
def cell (entry : Entry) : ℕ × Item := (entry.address, newItem entry.name entry.stats)

/-- What a use of the item takes. -/
def cost (entry : Entry) : UInt8 := itemDExtractRight (newItem entry.name entry.stats).itemDetail

/-- The item has the name and is in the bucket of the name. -/
def named (name : CString) (entry : Entry) : Bool :=
  (newItem entry.name entry.stats).name == name &&
    decide (hashFunction entry.name capacity = hashFunction name capacity)

end Entry

/-- The first item that was added under a name. -/
def firstNamed (name : CString) (calls : List Action) : Option Entry :=
  (entries calls).find? (Entry.named name)

/-- `equip_weapon` sets the bit of weapons only. -/
def EquipsWeapons (calls : List Action) (s : Inventory) (name : CString) : Prop :=
  ∀ fuel s' a node node', equipWeapon s name fuel = .ok s' →
    s.heap a = some node → s'.heap a = some node' →
    node.value.itemState &&& bit itemEquipIdx = 0 →
    node'.value.itemState &&& bit itemEquipIdx ≠ 0 →
    ∃ weaponName weapon, Action.addWeapon a weaponName weapon ∈ calls

/-- Where `use_consumable` changes the counter, the health or the magicka, it has found a
consumable. -/
def UsesConsumables (calls : List Action) (s : Inventory) (name : CString) (ph pm : UInt8) :
    Prop :=
  ∀ fuel s' consumed, useConsumable s name ph pm fuel = .ok (s', consumed) →
    s'.itemsStored ≠ s.itemsStored ∨ consumed.getD (ph, pm) ≠ (ph, pm) →
    ∃ a consumableName consumable, findItem s name fuel = .ok (some a) ∧
      Action.addConsumable a consumableName consumable ∈ calls

/-- The items of the bucket `i`. -/
def shelf (items : List Entry) (i : Fin capacity) : List (ℕ × Item) :=
  (items.filter fun entry => hashFunction entry.name capacity = .ok (UInt8.ofNat i)).map Entry.cell

/-- The buckets hold the items, each at an address of its own. -/
structure Shelved (items : List Entry) (s : Inventory) : Prop where
  chains : Chains s.heap s.items (shelf items)
  hashed : ∀ entry ∈ items, ∃ i : Fin capacity,
    hashFunction entry.name capacity = .ok (UInt8.ofNat i)
  nodup : (items.map Entry.address).Nodup

variable {s s' : Inventory} {name : CString} {i : Fin capacity} {fuel a : ℕ}
  {items : List Entry} {entry : Entry} {calls : List Action} {trace : Trace Inventory Action}

/-! ### What the buckets hold -/

theorem shelf_concat (hi : hashFunction entry.name capacity = .ok (UInt8.ofNat i))
    (items : List Entry) :
    shelf (items ++ [entry]) = Function.update (shelf items) i (shelf items i ++ [entry.cell]) := by
  funext j
  unfold shelf
  rw [List.filter_append, List.map_append]
  rcases eq_or_ne j i with rfl | hne
  · rw [Function.update_self, List.filter_cons_of_pos (by simpa using hi)]
    rfl
  · have hother : ¬ hashFunction entry.name capacity = .ok (UInt8.ofNat j) := by
      rw [hi, Except.ok.injEq, ofNat_inj_of_le (by decide)]
      exact hne.symm
    rw [Function.update_of_ne hne, List.filter_cons_of_neg (by simpa using hother)]
    exact List.append_nil _

/-- The cell of an item that was added. -/
theorem Shelved.exists_next (h : Shelved items s) (hmem : entry ∈ items) :
    ∃ next, s.heap entry.address = some ⟨newItem entry.name entry.stats, next⟩ := by
  obtain ⟨i, hi⟩ := h.hashed entry hmem
  refine (h.chains.holds i).chain.exists_next (List.mem_map.mpr ⟨entry, ?_, rfl⟩)
  exact List.mem_filter.mpr ⟨hmem, by simpa using hi⟩

/-- One more item, at a free address. -/
theorem Shelved.addItem (h : Shelved items s) {stats : UInt8 × UInt8} {message : String}
    (hfree : s.heap a = none) (hcall : addItem s a name stats message fuel = .ok s')
    (isWeapon : Bool) : Shelved (items ++ [⟨a, name, stats, isWeapon⟩]) s' := by
  obtain ⟨i, hhash, hchains, -⟩ := addItem_chains h.chains hfree hcall
  refine ⟨?_, fun entry hmem => ?_, ?_⟩
  · rw [shelf_concat hhash]
    exact hchains
  · rcases List.mem_append.mp hmem with hold | hlast
    · exact h.hashed entry hold
    · cases List.mem_singleton.mp hlast
      exact ⟨i, hhash⟩
  · rw [List.map_append, List.nodup_append]
    refine ⟨h.nodup, List.nodup_singleton _, fun b hb c hc heq => ?_⟩
    -- the address of the new item was free
    obtain ⟨entry, hmem, rfl⟩ := List.mem_map.mp hb
    cases List.mem_singleton.mp hc
    obtain ⟨next, hcell⟩ := h.exists_next hmem
    rw [heq, hfree] at hcell
    cases hcell

/-- The first item of a name is the first one in the bucket. -/
theorem find_shelf (hhash : hashFunction name capacity = .ok (UInt8.ofNat i))
    (items : List Entry) :
    find (fun item => item.name == name) (shelf items i) =
      (items.find? (Entry.named name)).map Entry.address := by
  unfold shelf LinkedList.find
  have hbelongs : ∀ entry : Entry, Entry.named name entry =
      (decide (hashFunction entry.name capacity = .ok (UInt8.ofNat i)) &&
        entry.cell.2.name == name) := by
    intro entry
    rw [Entry.named, hhash, Entry.cell]
    exact Bool.and_comm ..
  rw [find?_bucket (f := Entry.cell) (q := fun node => node.2.name == name) hbelongs,
    Option.map_map]
  rfl

/-- What `find_item` finds is the first item of the name. -/
theorem Shelved.firstNamed_of_findItem (h : Shelved items s)
    (hok : findItem s name fuel = .ok (some a)) :
    ∃ entry, items.find? (Entry.named name) = some entry ∧ entry.address = a := by
  obtain ⟨i, hhash, hfound⟩ := findItem_eq_ok h.chains hok
  rw [find_shelf hhash] at hfound
  exact Option.map_eq_some_iff.mp hfound.symm

/-- The first item of a name is found. -/
theorem Shelved.findItem_of_firstNamed (h : Shelved items s)
    (hfirst : items.find? (Entry.named name) = some entry) :
    Returns (findItem s name) (some entry.address) := by
  have hmem := List.mem_of_find?_eq_some hfirst
  have hnamed := List.find?_some hfirst
  rw [Entry.named, Bool.and_eq_true, decide_eq_true_eq] at hnamed
  obtain ⟨i, hi⟩ := h.hashed entry hmem
  have hhash := hnamed.2.symm.trans hi
  have hbucket : s.items i ≠ none := by
    rw [h.chains.head_eq i, Ne, first_eq_none_iff]
    refine List.ne_nil_of_mem (List.mem_map.mpr ⟨entry, ?_, rfl⟩)
    exact List.mem_filter.mpr ⟨hmem, by simpa using hi⟩
  have hreturns := findItem_returns h.chains hhash hbucket
  rwa [find_shelf hhash, hfirst] at hreturns

/-! ### Runs of additions -/

/-- The items of the calls are in the buckets, and every call has added one. -/
structure Filled (calls : List Action) (s : Inventory) : Prop where
  shelved : Shelved (entries calls) s
  added : ∀ call ∈ calls, ∃ entry, call.entry = some entry

theorem filled_initInventory : Filled [] initInventory where
  shelved := ⟨chains_nil _, fun _ hmem => absurd hmem List.not_mem_nil, List.nodup_nil⟩
  added _ hmem := absurd hmem List.not_mem_nil

theorem Filled.addItem {call : Action} (h : Filled calls s) (hentry : call.entry = some entry)
    (hshelved : Shelved (entries calls ++ [entry]) s') : Filled (calls ++ [call]) s' where
  shelved := by
    have hentries : entries (calls ++ [call]) = entries calls ++ [entry] := by
      rw [entries, List.filterMap_append, List.filterMap_cons_some hentry]
      rfl
    exact hentries ▸ hshelved
  added := by
    intro call' hmem
    rcases List.mem_append.mp hmem with hold | hlast
    · exact h.added call' hold
    · cases List.mem_singleton.mp hlast
      exact ⟨entry, hentry⟩

theorem filled (hrun : Run (game.restrict Action.adds) trace s) : Filled (events trace) s := by
  refine hrun.invariant (I := Filled) ?_ ?_
  · rintro s rfl
    exact filled_initInventory
  · rintro calls s e s' h ⟨hadds, hstep⟩
    cases hstep with
    | addWeapon hfree hcall =>
      obtain ⟨stats, hstats, hcall⟩ := Outcome.bind_eq_ok.mp hcall
      refine h.addItem ?_ (h.shelved.addItem hfree hcall true)
      simp only [Action.entry, hstats]
    | addConsumable hfree hcall =>
      obtain ⟨consStats, hstats, hcall⟩ := Outcome.bind_eq_ok.mp hcall
      refine h.addItem ?_ (h.shelved.addItem hfree hcall false)
      simp only [Action.entry, hstats]
    | equipWeapon => exact hadds.elim
    | useConsumable => exact hadds.elim

/-- Two items at one address are one. -/
theorem Shelved.eq_of_address {entry' : Entry} (h : Shelved items s) (hmem : entry ∈ items)
    (hmem' : entry' ∈ items) (haddress : entry.address = entry'.address) : entry = entry' :=
  List.inj_on_of_nodup_map h.nodup hmem hmem' haddress

/-- The call that has added an item. -/
theorem Action.cases_of_entry {call : Action} (h : call.entry = some entry) :
    (entry.isWeapon = true ∧
        ∃ weaponName weapon, call = .addWeapon entry.address weaponName weapon) ∨
      (entry.isWeapon = false ∧ ∃ consumableName consumable,
        call = .addConsumable entry.address consumableName consumable) := by
  unfold Action.entry at h
  split at h
  · split at h
    · cases h
      exact Or.inl ⟨rfl, _, _, rfl⟩
    · cases h
  · split at h
    · cases h
      exact Or.inr ⟨rfl, _, _, rfl⟩
    · cases h
  · cases h

/-- A call has added an item, and no other item is at the address of that one. -/
theorem Filled.entry_of_call {call : Action} (h : Filled calls s) (hcall : call ∈ calls) :
    ∃ entry', call.entry = some entry' ∧
      ∀ entry ∈ entries calls, entry.address = entry'.address → entry = entry' := by
  obtain ⟨entry', hentry⟩ := h.added call hcall
  have hmem' : entry' ∈ entries calls := List.mem_filterMap.mpr ⟨call, hcall, hentry⟩
  exact ⟨entry', hentry, fun entry hmem => h.shelved.eq_of_address hmem hmem'⟩

/-- The calls tell the weapons from the consumables. -/
theorem Filled.isWeapon_iff (h : Filled calls s) (hmem : entry ∈ entries calls) :
    entry.isWeapon ↔
      ∃ weaponName weapon, Action.addWeapon entry.address weaponName weapon ∈ calls := by
  constructor
  · intro hweapon
    obtain ⟨call, hcall, hentry⟩ := List.mem_filterMap.mp hmem
    rcases Action.cases_of_entry hentry with ⟨-, n, w, rfl⟩ | ⟨hother, -⟩
    · exact ⟨n, w, hcall⟩
    · cases hweapon.symm.trans hother
  · rintro ⟨n, w, hcall⟩
    obtain ⟨entry', hentry, hunique⟩ := h.entry_of_call hcall
    rcases Action.cases_of_entry hentry with ⟨hweapon, _, _, heq⟩ | ⟨-, _, _, heq⟩
    · obtain ⟨haddress, -, -⟩ := Action.addWeapon.inj heq
      rwa [hunique entry hmem haddress]
    · cases heq

theorem Filled.isConsumable_iff (h : Filled calls s) (hmem : entry ∈ entries calls) :
    entry.isWeapon = false ↔
      ∃ consumableName consumable,
        Action.addConsumable entry.address consumableName consumable ∈ calls := by
  constructor
  · intro hconsumable
    obtain ⟨call, hcall, hentry⟩ := List.mem_filterMap.mp hmem
    rcases Action.cases_of_entry hentry with ⟨hother, -⟩ | ⟨-, n, c, rfl⟩
    · cases hconsumable.symm.trans hother
    · exact ⟨n, c, hcall⟩
  · rintro ⟨n, c, hcall⟩
    obtain ⟨entry', hentry, hunique⟩ := h.entry_of_call hcall
    rcases Action.cases_of_entry hentry with ⟨-, _, _, heq⟩ | ⟨hconsumable, _, _, heq⟩
    · cases heq
    · obtain ⟨haddress, -, -⟩ := Action.addConsumable.inj heq
      rwa [hunique entry hmem haddress]

/-! ### Equipping and using -/

/-- A new item is not equipped, and equipping sets its bit. -/
theorem equip_newItem (name : CString) (stats : UInt8 × UInt8) :
    (newItem name stats).itemState &&& bit itemEquipIdx = 0 ∧
      (newItem name stats).equip.itemState &&& bit itemEquipIdx ≠ 0 :=
  ⟨(by decide : (itemResetMask ||| bit itemAddedIdx) &&& bit itemEquipIdx = 0),
    (by decide : ((itemResetMask ||| bit itemAddedIdx) ||| bit itemEquipIdx) &&&
      bit itemEquipIdx ≠ 0)⟩

/-- A use that succeeds changes the counter. -/
theorem sub_one_ne (x : UInt8) : x - 1 ≠ x := by
  intro heq
  have hsub : (x - 1).toNat = (256 - 1 + x.toNat) % 256 := UInt8.toNat_sub ..
  have hlt := x.toNat_lt
  rw [heq] at hsub
  omega

/-- The first item of a name can be equipped. -/
theorem Shelved.exists_equip (h : Shelved items s)
    (hfirst : items.find? (Entry.named name) = some entry) :
    ∃ fuel s' node node', equipWeapon s name fuel = .ok s' ∧
      s.heap entry.address = some node ∧ s'.heap entry.address = some node' ∧
      node.value.itemState &&& bit itemEquipIdx = 0 ∧
      node'.value.itemState &&& bit itemEquipIdx ≠ 0 := by
  obtain ⟨fuel, hfind⟩ := (h.findItem_of_firstNamed hfirst).exists_ok
  obtain ⟨next, hcell⟩ := h.exists_next (List.mem_of_find?_eq_some hfirst)
  obtain ⟨hnew, hequipped⟩ := equip_newItem entry.name entry.stats
  have hcall : equipWeapon s name fuel = .ok ⟨s.itemsStored, s.items,
      Function.update s.heap entry.address
        (some ⟨(newItem entry.name entry.stats).equip, next⟩)⟩ := by
    rw [equipWeapon, hfind, Outcome.ok_bind, Heap.load_some hcell, Outcome.ok_bind,
      if_neg (not_not.mpr hnew), Heap.store_some hcell, Outcome.ok_bind]
  exact ⟨fuel, _, _, _, hcall, hcell, Function.update_self .., hnew, hequipped⟩

/-- A name is equipped as a weapon exactly when its first item is one. -/
theorem Filled.equipsWeapons_iff (h : Filled calls s) (name : CString) :
    EquipsWeapons calls s name ↔ ∀ entry, firstNamed name calls = some entry → entry.isWeapon := by
  constructor
  · intro hequips entry hfirst
    obtain ⟨fuel, s', node, node', hcall, hcell, hcell', hnew, hset⟩ :=
      h.shelved.exists_equip hfirst
    rw [h.isWeapon_iff (List.mem_of_find?_eq_some hfirst)]
    exact hequips fuel s' _ node node' hcall hcell hcell' hnew hset
  · intro hfirst fuel s' a node node' hcall hcell hcell' hnew hset
    obtain ⟨a₀, node₀, hfind, hcell₀, hcases⟩ := equipWeapon_cases hcall
    obtain ⟨entry, hentry, rfl⟩ := h.shelved.firstNamed_of_findItem hfind
    rcases hcases with ⟨-, rfl⟩ | ⟨-, rfl⟩
    · -- the item was equipped before
      cases hcell.symm.trans hcell'
      exact absurd hnew hset
    · dsimp only at hcell'
      rcases eq_or_ne a entry.address with rfl | hne
      · exact (h.isWeapon_iff (List.mem_of_find?_eq_some hentry)).mp (hfirst entry hentry)
      · -- the other items stay as they are
        rw [Function.update_of_ne hne, hcell] at hcell'
        cases hcell'
        exact absurd hnew hset

/-- A name is used as a consumable exactly when its first item is one, or is too expensive. -/
theorem Filled.usesConsumables_iff (h : Filled calls s) (name : CString) (ph pm : UInt8) :
    UsesConsumables calls s name ph pm ↔
      ∀ entry, firstNamed name calls = some entry → entry.isWeapon = false ∨ pm < entry.cost := by
  constructor
  · intro huses entry hfirst
    by_contra hnot
    obtain ⟨hweapon, hcost⟩ := not_or.mp hnot
    have hreturns := h.shelved.findItem_of_firstNamed hfirst
    obtain ⟨fuel, hfind⟩ := hreturns.exists_ok
    obtain ⟨next, hcell⟩ := h.shelved.exists_next (List.mem_of_find?_eq_some hfirst)
    have hcall : useConsumable s name ph pm fuel =
        .ok ({ s with itemsStored := s.itemsStored - 1 },
          some (ph + itemDExtractLeft (newItem entry.name entry.stats).itemDetail,
            pm - itemDExtractRight (newItem entry.name entry.stats).itemDetail)) := by
      rw [useConsumable, hfind, Outcome.ok_bind, Heap.load_some hcell, Outcome.ok_bind]
      exact if_neg hcost
    -- a weapon that is cheap enough is used, and the counter tells
    obtain ⟨a, n, c, hfind', hadded⟩ := huses fuel _ _ hcall (Or.inl (sub_one_ne _))
    cases hfind.symm.trans hfind'
    have hmem := List.mem_of_find?_eq_some hfirst
    exact hweapon ((h.isConsumable_iff hmem).mpr ⟨n, c, hadded⟩)
  · intro hfirst fuel s' consumed hcall hchanged
    rcases useConsumable_cases hcall with ⟨rfl, rfl, -⟩ | ⟨-, -, hhigh⟩
    · rcases hchanged with hstored | hstats
      · exact absurd rfl hstored
      · exact absurd rfl hstats
    · obtain ⟨found, hfind, hcall⟩ := Outcome.bind_eq_ok.mp hcall
      obtain ⟨node, hload, -⟩ := Outcome.bind_eq_ok.mp hcall
      obtain ⟨a, rfl, hcell⟩ := Heap.exists_of_load hload
      obtain ⟨entry, hentry, rfl⟩ := h.shelved.firstNamed_of_findItem hfind
      have hmem := List.mem_of_find?_eq_some hentry
      have hcheap : ¬ pm < entry.cost := by
        obtain ⟨next, hcell'⟩ := h.shelved.exists_next hmem
        exact hhigh _ ⟨fuel, _, next, hfind, Heap.load_some hcell'⟩
      obtain ⟨n, c, hadded⟩ := (h.isConsumable_iff hmem).mp
        ((hfirst entry hentry).resolve_right hcheap)
      exact ⟨_, n, c, hfind, hadded⟩

/-- In every inventory that additions lead to, for every name: only weapons are equipped under
it exactly when the first item that was added under it is a weapon, and only consumables are
used under it exactly when that item is a consumable or costs more than there is magicka. -/
theorem kinds_iff (hrun : Run (game.restrict Action.adds) trace s) (name : CString)
    (ph pm : UInt8) :
    (EquipsWeapons (events trace) s name ↔
        ∀ entry, firstNamed name (events trace) = some entry → entry.isWeapon) ∧
      (UsesConsumables (events trace) s name ph pm ↔
        ∀ entry, firstNamed name (events trace) = some entry →
          entry.isWeapon = false ∨ pm < entry.cost) :=
  ⟨(filled hrun).equipsWeapons_iff name, (filled hrun).usesConsumables_iff name ph pm⟩

/-! ### An inventory with a potion -/

theorem run_adds_onePotion :
    Run (game.restrict Action.adds)
      ([] ++ [(initInventory, .addConsumable 0 potionName .potion)]) onePotion := by
  have hfree : initInventory.heap 0 = none := rfl
  have hstep : (game.restrict Action.adds).step initInventory
      (.addConsumable 0 potionName .potion) onePotion :=
    ⟨trivial, .addConsumable hfree addConsumable_potion⟩
  exact (Run.start rfl).step hstep

/-- The potion is the first item with its name. -/
theorem firstNamed_onePotion :
    firstNamed potionName [.addConsumable 0 potionName .potion] =
      some ⟨0, potionName, (8, 4), false⟩ := by
  have hentry : (⟨0, potionName, (8, 4), false⟩ : Entry).named potionName = true := by
    rw [Entry.named, newItem_name (by decide)]
    decide +kernel
  exact List.find?_cons_of_pos hentry

/-- The potion can be equipped, and only consumables are used under its name. -/
theorem kinds_onePotion :
    ∃ trace, Run (game.restrict Action.adds) trace onePotion ∧
      ¬ EquipsWeapons (events trace) onePotion potionName ∧
      UsesConsumables (events trace) onePotion potionName 20 10 := by
  obtain ⟨hequips, huses⟩ := kinds_iff run_adds_onePotion potionName 20 10
  refine ⟨_, run_adds_onePotion, fun h => ?_, huses.mpr fun entry hentry => ?_⟩
  · cases hequips.mp h _ firstNamed_onePotion
  · cases firstNamed_onePotion.symm.trans hentry
    exact Or.inl rfl

/-- The potion is equipped. -/
theorem potion_equipped :
    ∃ trace, Run (game.restrict Action.adds) trace onePotion ∧
      (∃ entry, firstNamed potionName (events trace) = some entry) ∧
      ¬ EquipsWeapons (events trace) onePotion potionName := by
  refine ⟨_, run_adds_onePotion, ⟨_, firstNamed_onePotion⟩, ?_⟩
  rw [(filled run_adds_onePotion).equipsWeapons_iff]
  intro hweapons
  cases hweapons _ firstNamed_onePotion

end BareMetal.RpgInventory
