import BareMetal.CS.Block
import BareMetal.CS.Chains
import BareMetal.CS.Tally
import BareMetal.CS.Text
import BareMetal.CS.Transition

/-!
# The inventory of `problems/rpg_inventory.c`

Weapons and consumables are appended to the chain of the bucket that the hash of
their name selects, and a counter of one byte goes up. `use_consumable` takes the
first item of a name, lowers the counter, and leaves the item where it is.

A run is a sequence of calls that return. An item goes to any free address.

## Main results

* `Step.inv` — the chains hold all items that were added, and the counter is what
  was added less what was used, modulo 256
* `accounted_iff` — the counter is right and nothing is used twice exactly while
  every use is refused and every addition has room in the counter
-/

namespace BareMetal.RpgInventory

open CS Transition LinkedList

/-- `CAPACITY`. The buckets have room for more pointers than a hash can name. -/
abbrev capacity : ℕ := 10

/-- `enum Weapons`, and the other values of its type. -/
inductive Weapons
  | axe
  | bow
  | dagger
  | sword
  | other
  deriving DecidableEq, Repr

/-- `enum Consumables`, and the other values of its type. -/
inductive Consumables
  | potion
  | snack
  | other
  deriving DecidableEq, Repr

/-- `Item`, without the pointer to the next one. Both members of the detail are one byte. -/
structure Item where
  name : CString
  itemState : UInt8
  itemDetail : UInt8
  deriving DecidableEq, Repr

/-- `Inventory`, with the heap that its items are on. -/
structure Inventory where
  itemsStored : UInt8
  items : Block capacity (Option ℕ)
  heap : Heap Item

/-- `BIT`. -/
def bit (x : UInt8) : UInt8 := 1 <<< x

/-- `ITEM_RESET_MASK`. -/
def itemResetMask : UInt8 := 0x00

/-- `ITEM_ADDED_IDX`. -/
def itemAddedIdx : UInt8 := 7

/-- `ITEM_D_COMBINE`. -/
def itemDCombine (left right : UInt8) : UInt8 := ((left <<< 4) &&& 0xF0) ||| (right &&& 0x0F)

/-- `ITEM_D_EXTRACT_LEFT`. -/
def itemDExtractLeft (val : UInt8) : UInt8 := (val &&& 0xF0) >>> 4

/-- `ITEM_D_EXTRACT_RIGHT`. -/
def itemDExtractRight (val : UInt8) : UInt8 := val &&& 0x0F

/-- `hash_function`, whose `int` is returned in one byte. -/
def hashFunction (key : CString) (capacity : ℤ) : Outcome UInt8 := do
  let hash ← charHash key capacity
  .ok (UInt8.ofInt hash)

/-- `map_weapon_stats`: damage and durability. -/
def mapWeaponStats : Weapons → Outcome (UInt8 × UInt8)
  | .axe => .ok (15, 8)
  | .bow => .ok (4, 7)
  | .dagger => .ok (2, 4)
  | .sword => .ok (10, 15)
  | .other => .error (.exit 1 "Unsupported WEAPON\n")

/-- `map_consumable`: health and cost. -/
def mapConsumable : Consumables → Outcome (UInt8 × UInt8)
  | .potion => .ok (8, 4)
  | .snack => .ok (4, 2)
  | .other => .error (.exit 1 "Unsupported CONSUMABLE\n")

/-- `init_inventory`. -/
def initInventory : Inventory := ⟨0, fun _ => none, fun _ => none⟩

/-- The copy of a name: `strncpy` takes no more characters than the size has room for. -/
def copyName (message : String) (name : CString) : Outcome CString :=
  if name.size < 0 then .error (.exit 1 message)
  else if name.size = 0 then .error (.outOfBounds (-1))
  else .ok (name.take (name.size - 1).toNat)

/-- What `add_weapon` and `add_consumable` do with the stats of the item, at the address
that `malloc` returns for it. -/
def addItem (inventory : Inventory) (item : ℕ) (name : CString) (stats : UInt8 × UInt8)
    (message : String) (fuel : ℕ) : Outcome Inventory := do
  let idx ← hashFunction name capacity
  let copy ← copyName message name
  let value : Item :=
    ⟨copy, itemResetMask ||| bit itemAddedIdx, itemDCombine stats.1 stats.2⟩
  let bucket ← inventory.items.load idx.toNat
  let (heap, bucket) ← linkLast (inventory.heap.alloc item value) bucket item fuel
  let items ← inventory.items.store idx.toNat bucket
  .ok ⟨inventory.itemsStored + 1, items, heap⟩

/-- `add_weapon`. -/
def addWeapon (inventory : Inventory) (item : ℕ) (weaponName : CString) (weapon : Weapons)
    (fuel : ℕ) : Outcome Inventory := do
  let stats ← mapWeaponStats weapon
  addItem inventory item weaponName stats "Could not allocate space for the weapon's name\n" fuel

/-- `add_consumable`. -/
def addConsumable (inventory : Inventory) (item : ℕ) (consumableName : CString)
    (consumable : Consumables) (fuel : ℕ) : Outcome Inventory := do
  let consStats ← mapConsumable consumable
  addItem inventory item consumableName consStats
    "Could not allocate space for the consumable_name's name\n" fuel

/-- `find_item`: the first item of the bucket is looked at twice. -/
def findItem (inventory : Inventory) (itemName : CString) (fuel : ℕ) : Outcome (Option ℕ) := do
  let idx ← hashFunction itemName capacity
  match ← inventory.items.load idx.toNat with
  | none =>
    .error (.exit 1 s!"Could not find the item '{itemName.toText}' for in your inventory\n")
  | some head => do
    let node ← inventory.heap.load (some head)
    if node.value.name = itemName then .ok (some head)
    else seek inventory.heap (fun item => item.name == itemName) (some head) fuel

/-- `use_consumable`, with what `on_consume` is called with, the new health and magicka;
without enough magicka it is not called. -/
def useConsumable (inventory : Inventory) (consumableName : CString) (ph pm : UInt8) (fuel : ℕ) :
    Outcome (Inventory × Option (UInt8 × UInt8)) := do
  let consumable ← findItem inventory consumableName fuel
  -- a name that only its bucket knows gives the null pointer
  let node ← inventory.heap.load consumable
  let health := itemDExtractLeft node.value.itemDetail
  let magicka := itemDExtractRight node.value.itemDetail
  if pm < magicka then .ok (inventory, none)
  else
    .ok ({ inventory with itemsStored := inventory.itemsStored - 1 },
      some (ph + health, pm - magicka))

/-! ### Runs -/

/-- A call with its arguments, and what a use led to. -/
inductive Call
  | addWeapon (weaponName : CString) (weapon : Weapons)
  | addConsumable (consumableName : CString) (consumable : Consumables)
  | useConsumable (consumableName : CString) (ph pm : UInt8) (consumed : Option (UInt8 × UInt8))
  deriving DecidableEq, Repr

/-- A call that returns. -/
inductive Step (s : Inventory) : Call → Inventory → Prop
  | addWeapon {item fuel : ℕ} {weaponName : CString} {weapon : Weapons} {s' : Inventory}
      (hfree : s.heap item = none)
      (hcall : RpgInventory.addWeapon s item weaponName weapon fuel = .ok s') :
      Step s (.addWeapon weaponName weapon) s'
  | addConsumable {item fuel : ℕ} {consumableName : CString} {consumable : Consumables}
      {s' : Inventory} (hfree : s.heap item = none)
      (hcall : RpgInventory.addConsumable s item consumableName consumable fuel = .ok s') :
      Step s (.addConsumable consumableName consumable) s'
  | useConsumable {fuel : ℕ} {consumableName : CString} {ph pm : UInt8}
      {consumed : Option (UInt8 × UInt8)} {s' : Inventory}
      (hcall : RpgInventory.useConsumable s consumableName ph pm fuel = .ok (s', consumed)) :
      Step s (.useConsumable consumableName ph pm consumed) s'

/-- Sequences of calls on a new inventory. -/
def system : System Inventory Call where
  start s := s = initInventory
  step s e s' := Step s e s'

/-- The call adds an item. -/
def Call.adds : Call → Bool
  | .addWeapon .. => true
  | .addConsumable .. => true
  | .useConsumable .. => false

/-- The call adds a consumable with the given name. -/
def Call.addsConsumable (name : CString) : Call → Bool
  | .addConsumable consumableName _ => consumableName == name
  | _ => false

/-- The call is a use that succeeds. -/
def Call.consumes : Call → Bool
  | .useConsumable _ _ _ consumed => consumed.isSome
  | _ => false

/-- The call uses a consumable with the given name. -/
def Call.consumesNamed (name : CString) : Call → Bool
  | .useConsumable consumableName _ _ consumed => consumableName == name && consumed.isSome
  | _ => false

/-- How many items the buckets hold. -/
def Chained (s : Inventory) (n : ℕ) : Prop :=
  ∃ lists : Fin capacity → List (ℕ × Item), Chains s.heap s.items lists ∧
    tally (fun _ nodes => nodes.length) lists = n

/-- The counter is the number of items in the buckets, and what was added once was used
at most once. -/
structure Accounted (calls : List Call) (s : Inventory) : Prop where
  stored : Chained s s.itemsStored.toNat
  used_once : ∀ name, calls.countP (Call.addsConsumable name) = 1 →
    calls.countP (Call.consumesNamed name) ≤ 1

/-- The buckets hold what was added; the counter has also gone down at every use. -/
structure Inv (calls : List Call) (s : Inventory) : Prop where
  chained : Chained s (calls.countP Call.adds)
  stored : (s.itemsStored.toNat + calls.countP Call.consumes) % 256 = calls.countP Call.adds % 256

/-- `find_item` reaches the item. -/
def Finds (s : Inventory) (name : CString) (item : Item) : Prop :=
  ∃ fuel found next, findItem s name fuel = .ok found ∧ s.heap.load found = .ok ⟨item, next⟩

/-- The counter has room for the item that is added; the magicka is too low for the item
that is used. -/
def Keeps (s : Inventory) : Call → Prop
  | .addWeapon .. => s.itemsStored ≠ 255
  | .addConsumable .. => s.itemsStored ≠ 255
  | .useConsumable name _ pm _ => ∃ item, Finds s name item ∧ pm < itemDExtractRight item.itemDetail

variable {s s' : Inventory} {name : CString} {n : ℕ}

/-! ### What the calls do -/

theorem copyName_eq (h : name.length < 2 ^ 31 - 1) (message : String) :
    copyName message name = .ok name := by
  unfold copyName
  rw [CString.size_eq h, if_neg (by omega), if_neg (by omega), Int.add_sub_cancel,
    Int.toNat_natCast, List.take_length]

/-- The cells and the first addresses determine what is in the buckets. -/
theorem Chained.unique {m : ℕ} (h : Chained s n) (h' : Chained s m) : n = m := by
  obtain ⟨lists, hchains, rfl⟩ := h
  obtain ⟨lists', hchains', rfl⟩ := h'
  rw [hchains.unique hchains']

theorem chained_initInventory : Chained initInventory 0 :=
  ⟨fun _ => [], chains_nil _, tally_eq_zero fun _ => rfl⟩

/-- The item that an addition makes, with what is copied of its name. -/
def newItem (name : CString) (stats : UInt8 × UInt8) : Item :=
  ⟨name.take (name.size - 1).toNat, itemResetMask ||| bit itemAddedIdx,
    itemDCombine stats.1 stats.2⟩

theorem newItem_name (h : name.length < 2 ^ 31 - 1) (stats : UInt8 × UInt8) :
    (newItem name stats).name = name := by
  rw [newItem, CString.size_eq h, Int.add_sub_cancel, Int.toNat_natCast, List.take_length]

theorem eq_take_of_copyName {message : String} {copy : CString}
    (h : copyName message name = .ok copy) : copy = name.take (name.size - 1).toNat := by
  unfold copyName at h
  split_ifs at h
  exact (Except.ok.inj h).symm

/-- An addition that returns has put its item behind the others of a bucket. -/
theorem addItem_chains {lists : Fin capacity → List (ℕ × Item)}
    (hchains : Chains s.heap s.items lists) {item fuel : ℕ} {stats : UInt8 × UInt8}
    {message : String} (hfree : s.heap item = none)
    (hcall : addItem s item name stats message fuel = .ok s') :
    ∃ i : Fin capacity, hashFunction name capacity = .ok (UInt8.ofNat i) ∧
      Chains s'.heap s'.items
        (Function.update lists i (lists i ++ [(item, newItem name stats)])) ∧
      s'.itemsStored = s.itemsStored + 1 := by
  obtain ⟨idx, hhash, hcall⟩ := Outcome.bind_eq_ok.mp hcall
  obtain ⟨copy, hcopy, hcall⟩ := Outcome.bind_eq_ok.mp hcall
  obtain ⟨bucket, hload, hcall⟩ := Outcome.bind_eq_ok.mp hcall
  obtain ⟨⟨heap, head⟩, hlink, hcall⟩ := Outcome.bind_eq_ok.mp hcall
  obtain ⟨items, hstore, hcall⟩ := Outcome.bind_eq_ok.mp hcall
  obtain ⟨i, hi, rfl⟩ := Block.exists_of_load hload
  have hidx : idx = UInt8.ofNat i := by
    rw [← Int.ofNat.inj hi, UInt8.ofNat_toNat]
  rw [hi, Block.store_natCast] at hstore
  cases hstore
  cases hcall
  rw [eq_take_of_copyName hcopy] at hlink
  obtain ⟨heap', head', hreturns, hchains', -⟩ :=
    hchains.insertLast i hfree (newItem name stats)
  cases hreturns.eq_of_ok hlink
  exact ⟨i, hidx ▸ hhash, hchains', rfl⟩

/-- An addition that returns has put one more item into a bucket. -/
theorem Chained.addItem (h : Chained s n) {item fuel : ℕ} {stats : UInt8 × UInt8}
    {message : String} (hfree : s.heap item = none)
    (hcall : addItem s item name stats message fuel = .ok s') :
    Chained s' (n + 1) ∧ s'.itemsStored = s.itemsStored + 1 := by
  obtain ⟨lists, hchains, rfl⟩ := h
  obtain ⟨i, -, hchains', hsucc⟩ := addItem_chains hchains hfree hcall
  refine ⟨⟨_, hchains', ?_⟩, hsucc⟩
  have hmove := tally_move (fun _ nodes => nodes.length) (rfl : lists i = lists i)
    (lists i ++ [(item, newItem name stats)])
  rw [List.length_append, List.length_singleton] at hmove
  omega

theorem Chained.addWeapon (h : Chained s n) {item fuel : ℕ} {weapon : Weapons}
    (hfree : s.heap item = none) (hcall : addWeapon s item name weapon fuel = .ok s') :
    Chained s' (n + 1) ∧ s'.itemsStored = s.itemsStored + 1 := by
  obtain ⟨stats, -, hcall⟩ := Outcome.bind_eq_ok.mp hcall
  exact h.addItem hfree hcall

theorem Chained.addConsumable (h : Chained s n) {item fuel : ℕ} {consumable : Consumables}
    (hfree : s.heap item = none) (hcall : addConsumable s item name consumable fuel = .ok s') :
    Chained s' (n + 1) ∧ s'.itemsStored = s.itemsStored + 1 := by
  obtain ⟨consStats, -, hcall⟩ := Outcome.bind_eq_ok.mp hcall
  exact h.addItem hfree hcall

theorem findItem_unique {fuel fuel' : ℕ} {found found' : Option ℕ}
    (h : findItem s name fuel = .ok found) (h' : findItem s name fuel' = .ok found') :
    found = found' := by
  obtain ⟨idx, hhash, h⟩ := Outcome.bind_eq_ok.mp h
  obtain ⟨bucket, hload, h⟩ := Outcome.bind_eq_ok.mp h
  rw [findItem, hhash, Outcome.ok_bind, hload, Outcome.ok_bind] at h'
  cases bucket with
  | none => cases h
  | some head =>
    obtain ⟨node, hnode, h⟩ := Outcome.bind_eq_ok.mp h
    obtain ⟨node', hnode', h'⟩ := Outcome.bind_eq_ok.mp h'
    cases hnode.symm.trans hnode'
    split_ifs at h h'
    · exact Except.ok.inj (h.symm.trans h')
    · exact loop_unique h h'

/-- The first item of a bucket is found. -/
theorem findItem_of_first {idx : UInt8} {i : Fin capacity} {head fuel : ℕ} {node : Node Item}
    (hhash : hashFunction name capacity = .ok idx) (hi : idx.toNat = i)
    (hitems : s.items i = some head) (hcell : s.heap head = some node)
    (hname : node.value.name = name) : findItem s name fuel = .ok (some head) := by
  rw [findItem, hhash, Outcome.ok_bind, hi, Block.load_natCast, Outcome.ok_bind, hitems]
  simp only [Heap.load_some hcell, Outcome.ok_bind, hname, if_true]

/-- A use either leaves the inventory as it was, or lowers the counter and nothing else. -/
theorem useConsumable_cases {fuel : ℕ} {ph pm : UInt8} {consumed : Option (UInt8 × UInt8)}
    (hcall : useConsumable s name ph pm fuel = .ok (s', consumed)) :
    (consumed = none ∧ s' = s ∧
        ∃ item, Finds s name item ∧ pm < itemDExtractRight item.itemDetail) ∨
      (consumed.isSome ∧ s' = { s with itemsStored := s.itemsStored - 1 } ∧
        ∀ item, Finds s name item → ¬ pm < itemDExtractRight item.itemDetail) := by
  obtain ⟨found, hfound, hcall⟩ := Outcome.bind_eq_ok.mp hcall
  obtain ⟨node, hnode, hcall⟩ := Outcome.bind_eq_ok.mp hcall
  dsimp only at hcall
  split_ifs at hcall with hlow
  · cases hcall
    exact Or.inl ⟨rfl, rfl, node.value, ⟨fuel, found, node.next, hfound, hnode⟩, hlow⟩
  · cases hcall
    refine Or.inr ⟨rfl, rfl, fun item hitem => ?_⟩
    obtain ⟨fuel', found', next, hfound', hnode'⟩ := hitem
    cases findItem_unique hfound hfound'
    cases hnode.symm.trans hnode'
    exact hlow

/-! ### Invariants of the runs -/

variable {calls : List Call} {trace : Trace Inventory Call} {e : Call}

theorem inv_initInventory : Inv [] initInventory := ⟨chained_initInventory, rfl⟩

theorem countP_concat_true {p : Call → Bool} (calls : List Call) (he : p e) :
    (calls ++ [e]).countP p = calls.countP p + 1 := by
  simp [List.countP_append, he]

theorem countP_concat_false {p : Call → Bool} (calls : List Call) (he : p e = false) :
    (calls ++ [e]).countP p = calls.countP p := by
  simp [List.countP_append, he]

/-- An addition. -/
theorem Inv.add (h : Inv calls s) (hadds : e.adds) (hconsumes : e.consumes = false)
    (hcall : Chained s' (calls.countP Call.adds + 1) ∧ s'.itemsStored = s.itemsStored + 1) :
    Inv (calls ++ [e]) s' := by
  obtain ⟨hchained, hsucc⟩ := hcall
  have hstored := h.stored
  have hadd : s'.itemsStored.toNat = (s.itemsStored.toNat + 1) % 256 := by
    rw [hsucc]
    exact UInt8.toNat_add ..
  refine ⟨?_, ?_⟩
  · rw [countP_concat_true calls hadds]
    exact hchained
  · rw [countP_concat_true calls hadds, countP_concat_false calls hconsumes]
    omega

/-- A use that succeeds. -/
theorem Inv.use (h : Inv calls s) (hadds : e.adds = false) (hconsumes : e.consumes) :
    Inv (calls ++ [e]) { s with itemsStored := s.itemsStored - 1 } := by
  have hstored := h.stored
  have hsub : (s.itemsStored - 1).toNat = (256 - 1 + s.itemsStored.toNat) % 256 :=
    UInt8.toNat_sub ..
  refine ⟨?_, ?_⟩
  · rw [countP_concat_false calls hadds]
    exact h.chained
  · rw [countP_concat_false calls hadds, countP_concat_true calls hconsumes]
    dsimp only
    omega

/-- A use that is refused. -/
theorem Inv.refuse (h : Inv calls s) (hadds : e.adds = false) (hconsumes : e.consumes = false) :
    Inv (calls ++ [e]) s := by
  refine ⟨?_, ?_⟩
  · rw [countP_concat_false calls hadds]
    exact h.chained
  · rw [countP_concat_false calls hadds, countP_concat_false calls hconsumes]
    exact h.stored

theorem Step.inv (h : Inv calls s) (hstep : Step s e s') : Inv (calls ++ [e]) s' := by
  cases hstep with
  | addWeapon hfree hcall => exact h.add rfl rfl (h.chained.addWeapon hfree hcall)
  | addConsumable hfree hcall => exact h.add rfl rfl (h.chained.addConsumable hfree hcall)
  | useConsumable hcall =>
    rcases useConsumable_cases hcall with ⟨rfl, rfl, -⟩ | ⟨hsome, rfl, -⟩
    · exact h.refuse rfl rfl
    · exact h.use rfl hsome

theorem run_inv (hrun : Run system trace s) : Inv (events trace) s := by
  refine hrun.invariant ?_ fun _ _ _ _ h hstep => Step.inv h hstep
  rintro s rfl
  exact inv_initInventory

/-! ### When the books are right -/

/-- Where nothing has been used, the counter is all that has to be right. -/
theorem accounted_of_unused (hstored : Chained s s.itemsStored.toNat)
    (hunused : calls.countP Call.consumes = 0) : Accounted calls s where
  stored := hstored
  used_once name _ := by
    have hle : calls.countP (Call.consumesNamed name) ≤ calls.countP Call.consumes := by
      refine List.countP_mono_left fun e _ he => ?_
      cases e with
      | useConsumable => exact (Bool.and_eq_true_iff.mp he).2
      | _ => cases he
    omega

/-- An addition keeps the books right while the counter has room. -/
theorem accounted_add_iff (h : Inv calls s) (hright : Accounted calls s)
    (hunused : calls.countP Call.consumes = 0) (hconsumes : e.consumes = false)
    (hcall : Chained s' (calls.countP Call.adds + 1) ∧ s'.itemsStored = s.itemsStored + 1) :
    Accounted (calls ++ [e]) s' ↔ s.itemsStored ≠ 255 := by
  have hnum := hright.stored.unique h.chained
  have hlt := s.itemsStored.toNat_lt
  have hsucc : s'.itemsStored.toNat = (s.itemsStored.toNat + 1) % 256 := by
    rw [hcall.2]
    exact UInt8.toNat_add ..
  have hfull : s.itemsStored = 255 ↔ s.itemsStored.toNat = 255 := UInt8.toNat_inj.symm
  have hunused' := (countP_concat_false calls hconsumes).trans hunused
  rw [Ne, hfull]
  constructor
  · intro hright'
    have hnum' := hright'.stored.unique hcall.1
    omega
  · intro hroom
    refine accounted_of_unused ?_ hunused'
    have heq : s'.itemsStored.toNat = calls.countP Call.adds + 1 := by omega
    exact heq ▸ hcall.1

/-- A step keeps the books right exactly when it meets the condition. -/
theorem Step.accounted_concat_iff (hstep : Step s e s') (h : Inv calls s)
    (hright : Accounted calls s) (hunused : calls.countP Call.consumes = 0) : Accounted (calls ++ [e]) s' ↔ Keeps s e := by
  cases hstep with
  | addWeapon hfree hcall =>
    exact accounted_add_iff h hright hunused rfl (h.chained.addWeapon hfree hcall)
  | addConsumable hfree hcall =>
    exact accounted_add_iff h hright hunused rfl (h.chained.addConsumable hfree hcall)
  | useConsumable hcall =>
    rcases useConsumable_cases hcall with ⟨rfl, rfl, hlow⟩ | ⟨hsome, rfl, hhigh⟩
    · refine iff_of_true (accounted_of_unused hright.stored ?_) hlow
      exact (countP_concat_false calls rfl).trans hunused
    · refine iff_of_false (fun hright' => ?_) fun ⟨item, hfinds, hlow⟩ => hhigh item hfinds hlow
      -- the chains have not changed, and the counter has
      have hnum := hright.stored.unique hright'.stored
      have hsub : (s.itemsStored - 1).toNat = (256 - 1 + s.itemsStored.toNat) % 256 :=
        UInt8.toNat_sub ..
      have hlt := s.itemsStored.toNat_lt
      dsimp only at hnum
      omega

/-- While the books are right at every stage, nothing is used. -/
theorem unused_of_accounted (hrun : Run system trace s)
    (hright : ∀ pre v, Stage trace s pre v → Accounted (events pre) v) :
    (events trace).countP Call.consumes = 0 := by
  induction hrun with
  | start => rfl
  | @step trace s s' e hrun hstep ih =>
    have hold := fun pre v hstage => hright pre v (stage_concat.mpr (Or.inr hstage))
    have hlast := hright _ _ (Stage.last _ _)
    have hunused := ih hold
    rw [events_concat] at hlast ⊢
    have hkeeps := (Step.accounted_concat_iff hstep (run_inv hrun) (hold _ _ (Stage.last _ _))
      hunused).mp hlast
    cases hstep with
    | addWeapon => exact (countP_concat_false _ rfl).trans hunused
    | addConsumable => exact (countP_concat_false _ rfl).trans hunused
    | useConsumable hcall =>
      rcases useConsumable_cases hcall with ⟨rfl, -, -⟩ | ⟨-, -, hhigh⟩
      · exact (countP_concat_false _ rfl).trans hunused
      · obtain ⟨item, hfinds, hlow⟩ := hkeeps
        exact absurd hlow (hhigh item hfinds)

/-- At every stage the counter is the number of items in the buckets and what was added
once was used at most once, exactly when all steps meet the condition. -/
theorem accounted_iff (hrun : Run system trace s) :
    (∀ pre v, Stage trace s pre v → Accounted (events pre) v) ↔
      ∀ v e, (v, e) ∈ trace → Keeps v e := by
  refine hrun.stages_iff (P := fun trace s => Accounted (events trace) s) ?_ ?_
  · rintro s rfl
    exact accounted_of_unused chained_initInventory rfl
  · intro trace s e s' hrun hright hstep
    rw [events_concat]
    exact Step.accounted_concat_iff hstep (run_inv hrun) (hright _ _ (Stage.last _ _))
      (unused_of_accounted hrun hright)

/-- The name of the potion in `main`. -/
def potionName : CString := .ofString "Health Potion"

/-- The inventory with one potion, at the address 0. -/
def onePotion : Inventory where
  itemsStored := 1
  items := Function.update (fun _ => none) 3 (some 0)
  heap := Heap.alloc (fun _ => none) 0 ⟨potionName, 0x80, 0x84⟩

theorem hashFunction_potionName : hashFunction potionName capacity = .ok 3 := by decide

theorem addConsumable_potion :
    addConsumable initInventory 0 potionName .potion 0 = .ok onePotion := by
  rw [addConsumable, mapConsumable, Outcome.ok_bind, addItem, hashFunction_potionName,
    Outcome.ok_bind, copyName_eq (by decide), Outcome.ok_bind]
  rfl

theorem findItem_potion (stored : UInt8) :
    findItem { onePotion with itemsStored := stored } potionName 0 = .ok (some 0) :=
  findItem_of_first hashFunction_potionName (i := 3) rfl rfl rfl rfl

/-- The potion stays, whatever the counter says. -/
theorem useConsumable_potion (stored ph pm : UInt8) :
    useConsumable { onePotion with itemsStored := stored } potionName ph pm 0 =
      if pm < 4 then .ok ({ onePotion with itemsStored := stored }, none)
      else .ok ({ onePotion with itemsStored := stored - 1 }, some (ph + 8, pm - 4)) := by
  rw [useConsumable, findItem_potion, Outcome.ok_bind]
  rfl

theorem run_onePotion :
    Run system ([] ++ [(initInventory, .addConsumable potionName .potion)]) onePotion := by
  have hfree : initInventory.heap 0 = none := rfl
  exact (Run.start rfl).step (.addConsumable hfree addConsumable_potion)

/-- A potion that is too expensive. -/
theorem accounted_iff_poor :
    ∃ trace s, Run system trace s ∧ trace.length = 2 ∧
      ∀ pre v, Stage trace s pre v → Accounted (events pre) v := by
  have hpoor := useConsumable_potion 1 20 3
  rw [if_pos (by decide)] at hpoor
  have hrun := run_onePotion.step (.useConsumable hpoor)
  refine ⟨_, _, hrun, rfl, (accounted_iff hrun).mpr fun v e hmem => ?_⟩
  rcases List.mem_append.mp hmem with hadd | huse
  · cases List.mem_singleton.mp hadd
    exact (by decide : (0 : UInt8) ≠ 255)
  · cases List.mem_singleton.mp huse
    exact ⟨_, ⟨0, some 0, none, findItem_potion 1, rfl⟩, by decide⟩

/-- The player of `main` drinks the potion twice. -/
theorem potion_used_twice :
    ∃ trace s, Run system trace s ∧ Chained s 1 ∧ s.itemsStored = 255 ∧
      (events trace).countP (Call.addsConsumable potionName) = 1 ∧
      (events trace).countP (Call.consumesNamed potionName) = 2 := by
  have hfirst := useConsumable_potion 1 20 10
  have hsecond := useConsumable_potion 0 28 6
  rw [if_neg (by decide)] at hfirst hsecond
  have hrun := (run_onePotion.step (.useConsumable hfirst)).step (.useConsumable hsecond)
  exact ⟨_, _, hrun, (run_inv hrun).chained, rfl, rfl, rfl⟩

end BareMetal.RpgInventory
