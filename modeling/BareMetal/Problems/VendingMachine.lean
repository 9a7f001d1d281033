import BareMetal.CS.Calls
import BareMetal.CS.Chains
import BareMetal.CS.StringCopy
import BareMetal.CS.Block

/-!
# The slots of `problems/vending_machine.c`

A machine has a slot for snacks, one for drinks and one for devices. A slot is a list of items
and counts them. Three functions put an item at the end of its slot; they differ in the field of
the union that they set and in the flags.

## Main results

* `addItem_full`, `exists_addItem` — one item
* `slots_faithful` — the process ends exactly when a slot is given an eleventh item or a device
  has an invalid warranty, and until then every slot holds its own items
-/

namespace BareMetal.VendingMachine

open CS LinkedList StringCopy

/-- `ITEM_NAME_SIZE`. -/
def itemNameSize : ℕ := 16

/-- `CAPACITY`. -/
abbrev capacity : ℕ := 3

/-- `SLOT_ITEM_CAPACITY`. -/
def slotItemCapacity : ℕ := 10

/-- `TYPE_SNACK`. -/
def typeSnack : Fin capacity := 0

/-- `TYPE_DRINK`. -/
def typeDrink : Fin capacity := 1

/-- `TYPE_DEVICE`. -/
def typeDevice : Fin capacity := 2

/-- `Item`. The members of the union `info` are of one type. -/
structure Item where
  name : CString
  price : UInt8
  itemFlags : UInt8
  info : UInt16
  deriving DecidableEq, Repr

/-- An item in memory from `calloc`. -/
def Item.zero : Item := ⟨List.replicate itemNameSize 0, 0, 0, 0⟩

/-- `Slot`. -/
structure Slot where
  head : Option ℕ
  slotCapacity : UInt8
  deriving DecidableEq, Repr

/-- The items in memory and `VendingMachine`, and the number of calls of `calloc` for items. -/
structure Machine where
  heap : Heap Item
  grid : Block capacity Slot
  allocated : ℕ

/-- `setup_vm`. -/
def setupVm : Machine := ⟨fun _ => none, fun _ => ⟨none, 0⟩, 0⟩

/-- The name of a type in the messages. -/
def slotName : ℕ → Option String
  | 0 => some "Snack"
  | 1 => some "Drink"
  | 2 => some "Device"
  | _ => none

/-- `check_slot_availability`. -/
def checkSlotAvailability (current : Option ℕ) (currentCapacity : UInt8) (slotType : ℕ) :
    Outcome Unit :=
  match slotName slotType with
  | none => .error (.exit 1 "Unsupported type\n")
  | some str =>
    if currentCapacity.toNat + 1 > slotItemCapacity then
      .error (.exit 1 s!"The {str} slot is full\n")
    else
      match current with
      | none => .error (.exit 1 s!"Could not allocate space for a new {str}\n")
      | some _ => .ok ()

/-- What the three functions have in common, with the pointer that `calloc` returns. -/
def addItem (vm : Machine) (newItem : Option ℕ) (slotType : Fin capacity) (name : TextBuffer)
    (price itemFlags : UInt8) (info : UInt16) (fuel : ℕ) : Outcome Machine := do
  checkSlotAvailability newItem (vm.grid slotType).slotCapacity slotType
  match newItem with
  | none => .error (.outOfBounds 0)
  | some a => do
    let copy ← strncpy Item.zero.name 0 name.cells itemNameSize
    let copy ← Cells.store copy (itemNameSize - 1 : ℕ) 0
    let item : Item := ⟨copy, price, Item.zero.itemFlags ||| itemFlags, info⟩
    let (heap, head) ← linkLast (vm.heap.alloc a item) (vm.grid slotType).head a fuel
    .ok
      { heap := heap
        grid := Function.update vm.grid slotType ⟨head, (vm.grid slotType).slotCapacity + 1⟩
        allocated := vm.allocated + 1 }

/-- `add_snack`. -/
def addSnack (vm : Machine) (newSnack : Option ℕ) (name : TextBuffer) (price : UInt8)
    (calories : UInt16) (fuel : ℕ) : Outcome Machine :=
  addItem vm newSnack typeSnack name price ((0 : UInt8) <<< 0) calories fuel

/-- `add_drink`. -/
def addDrink (vm : Machine) (newDrink : Option ℕ) (name : TextBuffer) (price : UInt8)
    (volume : UInt16) (fuel : ℕ) : Outcome Machine :=
  addItem vm newDrink typeDrink name price ((0 : UInt8) <<< 0) volume fuel

/-- `add_device`. Nothing sets the union of a device. -/
def addDevice (vm : Machine) (newDevice : Option ℕ) (name : TextBuffer) (price : UInt8)
    (hasWarranty : UInt8) (fuel : ℕ) : Outcome Machine :=
  if hasWarranty > 1 then .error (.exit 1 "Invalid warranty value provided\n")
  else
    addItem vm newDevice typeDevice name price
      (if hasWarranty = 1 then (1 : UInt8) <<< 1 else (0 : UInt8) <<< 1) Item.zero.info fuel

/-! ### Sequences of calls -/

/-- A call with its arguments. -/
inductive Call
  | addSnack (name : TextBuffer) (price : UInt8) (calories : UInt16)
  | addDrink (name : TextBuffer) (price : UInt8) (volume : UInt16)
  | addDevice (name : TextBuffer) (price : UInt8) (hasWarranty : UInt8)

/-- One call. The pointers that `calloc` returns are all different. -/
def perform (malloc : ℕ ↪ ℕ) (vm : Machine) (call : Call) (fuel : ℕ) : Outcome Machine :=
  match call with
  | .addSnack name price calories =>
    VendingMachine.addSnack vm (some (malloc vm.allocated)) name price calories fuel
  | .addDrink name price volume =>
    VendingMachine.addDrink vm (some (malloc vm.allocated)) name price volume fuel
  | .addDevice name price hasWarranty =>
    VendingMachine.addDevice vm (some (malloc vm.allocated)) name price hasWarranty fuel

/-- All calls, on a machine from `setup_vm`. -/
def run (malloc : ℕ ↪ ℕ) (calls : List Call) (fuel : ℕ) : Outcome Machine :=
  calls.foldlM (fun vm call => perform malloc vm call fuel) setupVm

/-- What a customer sees of an item. -/
structure Shown where
  name : CString
  price : UInt8
  info : UInt16
  warranty : Bool
  deriving DecidableEq, Repr

/-- What the functions that print read of an item. -/
def Item.shown (item : Item) : Shown :=
  ⟨text item.name, item.price, item.info, item.itemFlags &&& ((1 : UInt8) <<< 1) ≠ 0⟩

namespace Call

/-- The slot of the item. -/
def slot : Call → Fin capacity
  | .addSnack .. => typeSnack
  | .addDrink .. => typeDrink
  | .addDevice .. => typeDevice

/-- The item that a call describes. -/
def shown : Call → Shown
  | .addSnack name price calories => ⟨name.chars.take (itemNameSize - 1), price, calories, false⟩
  | .addDrink name price volume => ⟨name.chars.take (itemNameSize - 1), price, volume, false⟩
  | .addDevice name price hasWarranty =>
    ⟨name.chars.take (itemNameSize - 1), price, 0, hasWarranty = 1⟩

/-- The warranty of a device is 0 or 1. -/
def Valid : Call → Prop
  | .addDevice _ _ hasWarranty => hasWarranty ≤ 1
  | _ => True

end Call

/-- The items of a slot in the order of the calls. -/
def items (slot : Fin capacity) (calls : List Call) : List Shown :=
  (calls.filter fun call => call.slot = slot).map Call.shown

/-- Every slot holds its own items in the order of the calls, and counts them. -/
def Faithful (calls : List Call) (vm : Machine) : Prop :=
  ∃ lists, Chains vm.heap (fun slot => (vm.grid slot).head) lists ∧ ∀ slot,
    (lists slot).map (fun node => node.2.shown) = items slot calls ∧
      (vm.grid slot).slotCapacity.toNat = (lists slot).length

variable {malloc : ℕ ↪ ℕ} {vm vm' : Machine} {calls : List Call} {call : Call} {name : TextBuffer}
  {price itemFlags : UInt8} {info : UInt16} {slot : Fin capacity} {a fuel : ℕ}

/-! ### One item -/

theorem items_concat (slot : Fin capacity) (calls : List Call) (call : Call) :
    items slot (calls ++ [call]) =
      if call.slot = slot then items slot calls ++ [call.shown] else items slot calls := by
  unfold items
  rw [List.filter_append, List.map_append]
  split_ifs with hslot
  · rw [List.filter_cons_of_pos (by simpa using hslot)]
    rfl
  · rw [List.filter_cons_of_neg (by simpa using hslot)]
    exact List.append_nil _

theorem length_items_concat (slot : Fin capacity) (calls : List Call) (call : Call) :
    (items slot (calls ++ [call])).length =
      (items slot calls).length + if call.slot = slot then 1 else 0 := by
  rw [items_concat]
  split_ifs
  · exact List.length_append
  · rfl

theorem exists_slotName (slot : Fin capacity) : ∃ str, slotName slot = some str := by
  have hsome : ∀ slot : Fin capacity, (slotName slot).isSome := by decide
  exact Option.isSome_iff_exists.mp (hsome slot)

/-- A slot with ten items takes no other one. -/
theorem addItem_full (hfull : slotItemCapacity ≤ (vm.grid slot).slotCapacity.toNat)
    (newItem : Option ℕ) (name : TextBuffer) (price itemFlags : UInt8) (info : UInt16) (fuel : ℕ) :
    ∃ message, addItem vm newItem slot name price itemFlags info fuel =
      .error (.exit 1 message) := by
  obtain ⟨str, hstr⟩ := exists_slotName slot
  have hcheck : checkSlotAvailability newItem (vm.grid slot).slotCapacity slot =
      .error (.exit 1 s!"The {str} slot is full\n") := by
    rw [checkSlotAvailability, hstr]
    exact if_pos (Nat.lt_succ_of_le hfull)
  refine ⟨s!"The {str} slot is full\n", ?_⟩
  unfold addItem
  rw [hcheck, Outcome.error_bind]

/-- The item that `addItem` puts on the heap. -/
def newItem (name : TextBuffer) (price itemFlags : UInt8) (info : UInt16) : Item :=
  ⟨(padded name.chars itemNameSize).set (itemNameSize - 1) 0, price,
    Item.zero.itemFlags ||| itemFlags, info⟩

theorem shown_newItem (name : TextBuffer) (price itemFlags : UInt8) (info : UInt16) :
    (newItem name price itemFlags info).shown =
      ⟨name.chars.take (itemNameSize - 1), price, info, itemFlags &&& ((1 : UInt8) <<< 1) ≠ 0⟩ := by
  have htext := text_set_padded name.nul_notMem (itemNameSize - 1)
  have hflags : Item.zero.itemFlags ||| itemFlags = itemFlags := UInt8.zero_or ..
  rw [Item.shown, newItem, hflags]
  exact congrArg (fun name => Shown.mk name _ _ _) htext

/-- A slot with room takes the item, and counts it. -/
theorem exists_addItem {lists : Fin capacity → List (ℕ × Item)}
    (hchains : Chains vm.heap (fun slot => (vm.grid slot).head) lists) (hfree : vm.heap a = none)
    (hroom : (vm.grid slot).slotCapacity.toNat < slotItemCapacity) (name : TextBuffer)
    (price itemFlags : UInt8) (info : UInt16) :
    ∃ heap head, Returns (addItem vm (some a) slot name price itemFlags info)
        ⟨heap, Function.update vm.grid slot ⟨head, (vm.grid slot).slotCapacity + 1⟩,
          vm.allocated + 1⟩ ∧
      Chains heap (Function.update (fun slot => (vm.grid slot).head) slot head)
        (Function.update lists slot (lists slot ++ [(a, newItem name price itemFlags info)])) ∧
      ∀ b, b ≠ a → vm.heap b = none → heap b = none := by
  obtain ⟨str, hstr⟩ := exists_slotName slot
  have hcheck : checkSlotAvailability (some a) (vm.grid slot).slotCapacity slot = .ok () := by
    rw [checkSlotAvailability, hstr]
    exact if_neg (Nat.not_lt.mpr hroom)
  have hcopy : strncpy Item.zero.name 0 name.cells itemNameSize =
      .ok (padded name.chars itemNameSize) :=
    strncpy_all name.nul_notMem List.length_replicate name.rest
  have hstore : Cells.store (padded name.chars itemNameSize) (itemNameSize - 1 : ℕ) 0 =
      .ok ((padded name.chars itemNameSize).set (itemNameSize - 1) 0) :=
    Cells.store_of_lt (by rw [length_padded]; decide) 0
  obtain ⟨heap, head, hlink, hchains', hframe⟩ :=
    hchains.insertLast slot hfree (newItem name price itemFlags info)
  refine ⟨heap, head, ?_, hchains', fun b hb hnone => ?_⟩
  · refine (hlink.map fun linked => (⟨linked.1, Function.update vm.grid slot
      ⟨linked.2, (vm.grid slot).slotCapacity + 1⟩, vm.allocated + 1⟩ : Machine)).congr
      fun fuel => ?_
    rw [addItem, hcheck, Outcome.ok_bind]
    dsimp only
    rw [hcopy, Outcome.ok_bind, hstore, Outcome.ok_bind]
    rfl
  · rw [hframe b (fun hmem => ?_) hb, hnone]
    obtain ⟨node, hnode⟩ := (hchains.holds slot).chain.allocated hmem
    cases hnone.symm.trans hnode

/-! ### Sequences of calls -/

/-- What the calls so far leave. -/
structure Holds (malloc : ℕ ↪ ℕ) (calls : List Call) (vm : Machine) : Prop where
  faithful : Faithful calls vm
  length_le : ∀ slot, (items slot calls).length ≤ slotItemCapacity
  fresh : Fresh malloc vm.heap vm.allocated

/-- The condition on one call. -/
def Accepted (pre : List Call) (call : Call) : Prop :=
  call.Valid ∧ (items call.slot pre).length < slotItemCapacity

theorem Faithful.slotCapacity_eq (h : Faithful calls vm) (slot : Fin capacity) :
    (vm.grid slot).slotCapacity.toNat = (items slot calls).length := by
  obtain ⟨lists, -, hslots⟩ := h
  obtain ⟨hitems, hcapacity⟩ := hslots slot
  rw [hcapacity, ← hitems, List.length_map]

theorem holds_setupVm (malloc : ℕ ↪ ℕ) : Holds malloc [] setupVm where
  faithful := ⟨fun _ => [], chains_nil _, fun _ => ⟨rfl, rfl⟩⟩
  length_le _ := Nat.zero_le _
  fresh _ _ := rfl

/-- An item that a call describes goes to the end of its slot. -/
theorem Holds.addItem (h : Holds malloc calls vm)
    (hroom : (items call.slot calls).length < slotItemCapacity)
    (hshown : (newItem name price itemFlags info).shown = call.shown) :
    ∃ vm', Returns (addItem vm (some (malloc vm.allocated)) call.slot name price itemFlags info)
        vm' ∧ Holds malloc (calls ++ [call]) vm' := by
  have hcapacity := h.faithful.slotCapacity_eq call.slot
  obtain ⟨lists, hchains, hslots⟩ := h.faithful
  obtain ⟨heap, head, hreturns, hchains', hframe⟩ := exists_addItem hchains
    (h.fresh _ (Nat.le_refl _)) (hcapacity ▸ hroom) name price itemFlags info
  -- the heads after the call are those of the new slots
  have hheads : Function.update (fun slot => (vm.grid slot).head) call.slot head =
      fun slot => (Function.update vm.grid call.slot
        ⟨head, (vm.grid call.slot).slotCapacity + 1⟩ slot).head := by
    funext slot
    exact (Function.apply_update (fun _ => Slot.head) vm.grid call.slot
      ⟨head, (vm.grid call.slot).slotCapacity + 1⟩ slot).symm
  rw [hheads] at hchains'
  -- a slot with room is far from the largest number of 8 bits
  have hnext : ((vm.grid call.slot).slotCapacity + 1).toNat =
      (vm.grid call.slot).slotCapacity.toNat + 1 := by
    have hsmall : (vm.grid call.slot).slotCapacity.toNat + 1 < 2 ^ 8 :=
      Nat.lt_of_le_of_lt (hcapacity ▸ hroom) (by decide)
    rw [UInt8.toNat_add]
    exact Nat.mod_eq_of_lt hsmall
  refine ⟨_, hreturns, ⟨_, hchains', fun slot => ?_⟩, fun slot => ?_, h.fresh.succ hframe⟩
  · obtain ⟨hitems, hcount⟩ := hslots slot
    dsimp only
    rw [items_concat]
    split_ifs with heq
    · subst heq
      rw [Function.update_self, Function.update_self, List.map_append, hitems, List.length_append,
        hnext, hcount, ← hshown]
      exact ⟨rfl, rfl⟩
    · rw [Function.update_of_ne (Ne.symm heq), Function.update_of_ne (Ne.symm heq)]
      exact ⟨hitems, hcount⟩
  · rw [length_items_concat]
    split_ifs with heq
    · exact heq ▸ hroom
    · exact h.length_le slot

/-- A call that the machine accepts. -/
theorem Holds.perform (h : Holds malloc calls vm) (haccepted : Accepted calls call) :
    ∃ vm', Returns (perform malloc vm call) vm' ∧ Holds malloc (calls ++ [call]) vm' := by
  obtain ⟨hvalid, hroom⟩ := haccepted
  cases call with
  | addSnack name price calories => exact h.addItem hroom (shown_newItem ..)
  | addDrink name price volume => exact h.addItem hroom (shown_newItem ..)
  | addDevice name price hasWarranty =>
    -- the flag is that of the warranty
    have hshown : (newItem name price
        (if hasWarranty = 1 then (1 : UInt8) <<< 1 else (0 : UInt8) <<< 1) 0).shown =
          (Call.addDevice name price hasWarranty).shown := by
      rw [shown_newItem, Call.shown]
      refine congrArg (Shown.mk _ _ _) ?_
      by_cases hone : hasWarranty = 1
      · rw [if_pos hone, decide_eq_true hone]
        rfl
      · rw [if_neg hone, decide_eq_false hone]
        rfl
    obtain ⟨vm', hreturns, h'⟩ := h.addItem hroom hshown
    refine ⟨vm', hreturns.congr fun fuel => ?_, h'⟩
    exact if_neg (UInt8.not_lt.mpr hvalid)

/-- A call that the machine does not accept. -/
theorem Holds.refuse (h : Holds malloc calls vm) (hrefused : ¬ Accepted calls call) (fuel : ℕ) :
    ∃ message, VendingMachine.perform malloc vm call fuel = .error (.exit 1 message) := by
  have hfull : call.Valid → slotItemCapacity ≤ (vm.grid call.slot).slotCapacity.toNat := by
    intro hvalid
    rw [h.faithful.slotCapacity_eq]
    exact Nat.not_lt.mp fun hroom => hrefused ⟨hvalid, hroom⟩
  cases call with
  | addSnack name price calories => exact addItem_full (hfull trivial) ..
  | addDrink name price volume => exact addItem_full (hfull trivial) ..
  | addDevice name price hasWarranty =>
    rw [VendingMachine.perform, VendingMachine.addDevice]
    by_cases hwarranty : hasWarranty > 1
    · rw [if_pos hwarranty]
      exact ⟨_, rfl⟩
    · rw [if_neg hwarranty]
      exact addItem_full (hfull (UInt8.not_lt.mp hwarranty)) ..

theorem callRule (malloc : ℕ ↪ ℕ) :
    CallRule (perform malloc) (fun _ _ => True) Accepted (Holds malloc) where
  returns _ _ _ _ h haccepted := h.perform haccepted
  of_ok pre call vm fuel vm' _ h hok := by
    by_contra hrefused
    obtain ⟨message, hexit⟩ := h.refuse hrefused fuel
    cases hexit.symm.trans hok

theorem allCalls_accepted_iff :
    AllCalls Accepted calls ↔
      (∀ call ∈ calls, call.Valid) ∧ ∀ slot, (items slot calls).length ≤ slotItemCapacity := by
  refine allCalls_iff_forall_and
    (Q := fun calls => ∀ slot, (items slot calls).length ≤ slotItemCapacity)
    (fun _ => Nat.zero_le _) (fun pre call hle slot => ?_) fun pre call hle => ?_
  · exact Nat.le_of_add_right_le (length_items_concat slot pre call ▸ hle slot)
  · refine and_congr_right fun _ => ⟨fun hroom slot => ?_, fun hle' => ?_⟩
    · rw [length_items_concat]
      split_ifs with heq
      · exact heq ▸ hroom
      · exact hle slot
    · have hroom := hle' call.slot
      rwa [length_items_concat, if_pos rfl] at hroom

/-- **Faithful slots.** For every sequence of calls on a new machine: the process ends in one of
them exactly when some slot is given more than ten items or a device has a warranty that is
neither 0 nor 1. Otherwise every slot holds its own items in the order of the calls, each with
its price, its info, its warranty and the first 15 characters of its name, and counts them. -/
theorem slots_faithful (malloc : ℕ ↪ ℕ) (calls : List Call) :
    (Exits (run malloc calls) ↔
        (∃ slot, slotItemCapacity < (items slot calls).length) ∨ ∃ call ∈ calls, ¬ call.Valid) ∧
      (¬ Exits (run malloc calls) → ∃ vm, Returns (run malloc calls) vm ∧ Faithful calls vm) := by
  have hall : AllCalls (fun _ _ => True) calls := fun _ _ _ _ => trivial
  have hstart := holds_setupVm malloc
  have hexits : Exits (run malloc calls) ↔ ¬ AllCalls Accepted calls := by
    refine (callRule malloc).exits_iff hall hstart fun pre call vm h hrefused => ?_
    exact ⟨0, fun fuel _ => ⟨1, h.refuse hrefused fuel⟩⟩
  constructor
  · rw [hexits, allCalls_accepted_iff, not_and_or, or_comm]
    simp only [not_forall, Nat.not_le, exists_prop]
  · intro hnot
    obtain ⟨vm, hreturns, h⟩ := (callRule malloc).exists_returns hall
      (not_not.mp (mt hexits.mpr hnot)) hstart
    exact ⟨vm, hreturns, h.faithful⟩

end BareMetal.VendingMachine
