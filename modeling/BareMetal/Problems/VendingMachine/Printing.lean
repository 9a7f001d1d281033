import BareMetal.CS.Teardown
import BareMetal.Problems.VendingMachine

/-!
# What the vending machine shows and frees

`print_slot` of `problems/vending_machine.c` walks through the list of a slot and prints every
item; `clean_vm` walks through the lists of all slots and frees them.

## Main results

* `Stocked.of_perform` — no item has expired, and every item is in a slot
* `machine_life_cycle` — what was put into a slot is what is printed of it, and all items are
  freed
-/

namespace BareMetal.VendingMachine

open CS LinkedList StringCopy

/-! ### Printing -/

/-- The first lines of `print_slot`. -/
def heading (slot : Fin capacity) (count : ℕ) : String :=
  if slot = typeSnack then s!"SLOT A1 - SNACKS\n{count} SNACKS Stored\n"
  else if slot = typeDrink then s!"SLOT A2 - DRINKS\n{count} DRINK Stored\n"
  else s!"SLOT A3 - DEVICES\n{count} DEVICES Stored\n"

/-- The line around an item. -/
def line : String := "-----------------------\n"

/-- The lines of `print_slot` for one item. -/
def itemLines (slot : Fin capacity) (item : Item) : String :=
  line ++ s!"Item: {(text item.name).toText}\n" ++ s!"Price: {item.price.toNat}$\n" ++
    (if slot = typeSnack then s!"Calories: {item.info.toNat}\n" else "") ++
    (if slot = typeDrink then s!"Volume: {item.info.toNat} ml\n" else "") ++
    (if slot = typeSnack ∧ item.itemFlags &&& ((1 : UInt8) <<< 0) ≠ 0 then "Expired: True\n"
      else "") ++
    (if slot = typeDevice ∧ item.itemFlags &&& ((1 : UInt8) <<< 1) ≠ 0 then "Warranty: True\n"
      else "") ++ line

/-- `print_slot` for one of its cases. -/
def printItems (vm : Machine) (slot : Fin capacity) (fuel : ℕ) : Outcome String := do
  let items ← values vm.heap (vm.grid slot).head fuel
  .ok (heading slot (vm.grid slot).slotCapacity.toNat ++ String.join (items.map (itemLines slot)))

/-- `print_slot`, with what it prints. -/
def printSlot (vm : Machine) (slotType : ℤ) (fuel : ℕ) : Outcome String :=
  if slotType = (typeSnack : ℕ) then printItems vm typeSnack fuel
  else if slotType = (typeDrink : ℕ) then printItems vm typeDrink fuel
  else if slotType = (typeDevice : ℕ) then printItems vm typeDevice fuel
  else .error (.exit 1 "Invalid slot type\n")

/-- `clean_vm`, with the items that it leaves. -/
def cleanVm (vm : Machine) (fuel : ℕ) : Outcome (Heap Item) :=
  freeSlots (fun slot => (vm.grid slot).head) capacity vm.heap fuel

/-! ### What is to be printed -/

/-- The lines for an item that has not expired, from what a customer sees of it. -/
def shownLines (slot : Fin capacity) (item : Shown) : String :=
  line ++ s!"Item: {item.name.toText}\n" ++ s!"Price: {item.price.toNat}$\n" ++
    (if slot = typeSnack then s!"Calories: {item.info.toNat}\n" else "") ++
    (if slot = typeDrink then s!"Volume: {item.info.toNat} ml\n" else "") ++
    (if slot = typeDevice ∧ item.warranty then "Warranty: True\n" else "") ++ line

/-- The page of a slot after a sequence of calls. -/
def page (calls : List Call) (slot : Fin capacity) : String :=
  heading slot (items slot calls).length ++
    String.join ((items slot calls).map (shownLines slot))

/-- The item has not expired. -/
def Item.Unexpired (item : Item) : Prop := item.itemFlags &&& ((1 : UInt8) <<< 0) = 0

theorem itemLines_eq {item : Item} (h : item.Unexpired) (slot : Fin capacity) :
    itemLines slot item = shownLines slot item.shown := by
  have hnot : ¬ (slot = typeSnack ∧ item.itemFlags &&& ((1 : UInt8) <<< 0) ≠ 0) :=
    fun hexpired => hexpired.2 h
  have hwarranty : item.shown.warranty ↔ item.itemFlags &&& ((1 : UInt8) <<< 1) ≠ 0 :=
    decide_eq_true_iff
  rw [itemLines, shownLines, if_neg hnot, String.append_empty]
  simp only [hwarranty]
  rfl

/-! ### Invariants -/

/-- No item has expired, and every item is in a slot. -/
def Stocked (vm : Machine) : Prop :=
  ∃ lists, Chains vm.heap (fun slot => (vm.grid slot).head) lists ∧
    (∀ slot, ∀ node ∈ lists slot, node.2.Unexpired) ∧
    ∀ a, vm.heap a ≠ none → ∃ slot, a ∈ addresses (lists slot)

variable {malloc : ℕ ↪ ℕ} {vm vm' : Machine} {calls : List Call} {call : Call} {name : TextBuffer}
  {price itemFlags : UInt8} {info : UInt16} {slot : Fin capacity} {a fuel : ℕ}

theorem stocked_setupVm : Stocked setupVm :=
  ⟨fun _ => [], chains_nil _, fun _ _ hmem => absurd hmem List.not_mem_nil,
    fun _ hne => absurd rfl hne⟩

theorem unexpired_newItem (hflags : itemFlags &&& ((1 : UInt8) <<< 0) = 0) (name : TextBuffer)
    (price : UInt8) (info : UInt16) : (newItem name price itemFlags info).Unexpired := by
  have hzero : Item.zero.itemFlags ||| itemFlags = itemFlags := UInt8.zero_or ..
  rw [Item.Unexpired, newItem, hzero, hflags]

/-- An item that was added is in its slot. -/
theorem Stocked.of_addItem (h : Stocked vm) (hfree : vm.heap a = none)
    (hok : addItem vm (some a) slot name price itemFlags info fuel = .ok vm')
    (hflags : itemFlags &&& ((1 : UInt8) <<< 0) = 0) : Stocked vm' := by
  obtain ⟨lists, hchains, hfresh, hcovers⟩ := h
  have hroom : (vm.grid slot).slotCapacity.toNat < slotItemCapacity := by
    by_contra hfull
    obtain ⟨message, hexit⟩ :=
      addItem_full (not_lt.mp hfull) (some a) name price itemFlags info fuel
    cases hexit.symm.trans hok
  obtain ⟨heap, head, hreturns, hchains', hframe⟩ :=
    exists_addItem hchains hfree hroom name price itemFlags info
  cases hreturns.eq_of_ok hok
  have hheads : Function.update (fun slot => (vm.grid slot).head) slot head =
      fun slot' => (Function.update vm.grid slot
        ⟨head, (vm.grid slot).slotCapacity + 1⟩ slot').head := by
    funext slot'
    exact (Function.apply_update (fun _ => Slot.head) vm.grid slot
      ⟨head, (vm.grid slot).slotCapacity + 1⟩ slot').symm
  rw [hheads] at hchains'
  refine ⟨_, hchains', fun slot' node hnode => ?_, fun b hb => ?_⟩
  · rcases eq_or_ne slot' slot with rfl | hne
    · rw [Function.update_self] at hnode
      rcases List.mem_append.mp hnode with hold | hnew
      · exact hfresh slot' node hold
      · rw [List.mem_singleton.mp hnew]
        exact unexpired_newItem hflags name price info
    · rw [Function.update_of_ne hne] at hnode
      exact hfresh slot' node hnode
  · -- the item at `b` is the new one, or it was in its slot before
    rcases eq_or_ne b a with rfl | hne
    · refine ⟨slot, ?_⟩
      rw [Function.update_self, addresses_concat]
      exact List.mem_append_right _ (List.mem_singleton_self b)
    · obtain ⟨slot', hmem⟩ := hcovers b fun hnone => hb (hframe b hne hnone)
      refine ⟨slot', ?_⟩
      rcases eq_or_ne slot' slot with rfl | hother
      · rw [Function.update_self, addresses_concat]
        exact List.mem_append_left _ hmem
      · rwa [Function.update_of_ne hother]

/-- None of the functions sets the flag of an item that has expired. -/
theorem Stocked.of_perform (h : Stocked vm) (hfree : vm.heap (malloc vm.allocated) = none)
    (hok : perform malloc vm call fuel = .ok vm') : Stocked vm' := by
  cases call with
  | addSnack name price calories => exact h.of_addItem hfree hok (by decide)
  | addDrink name price volume => exact h.of_addItem hfree hok (by decide)
  | addDevice name price hasWarranty =>
    rw [perform, VendingMachine.addDevice] at hok
    split_ifs at hok with hinvalid hwarranty
    · exact h.of_addItem hfree hok (by decide)
    · exact h.of_addItem hfree hok (by decide)

theorem stockedRule (malloc : ℕ ↪ ℕ) :
    CallRule (perform malloc) (fun _ _ => True) Accepted
      fun calls vm => Holds malloc calls vm ∧ Stocked vm where
  returns pre call vm _ h haccepted := by
    obtain ⟨vm', hreturns, h'⟩ := h.1.perform haccepted
    obtain ⟨fuel, hok⟩ := hreturns.exists_ok
    exact ⟨vm', hreturns, h', h.2.of_perform (h.1.fresh _ (Nat.le_refl _)) hok⟩
  of_ok pre call vm fuel vm' _ h hok := (callRule malloc).of_ok pre call vm fuel vm' trivial h.1 hok

/-! ### The life of a machine -/

theorem Stocked.printItems (h : Stocked vm) (hholds : Holds malloc calls vm)
    (slot : Fin capacity) : Returns (printItems vm slot) (page calls slot) := by
  have hcount := hholds.faithful.slotCapacity_eq slot
  obtain ⟨lists, hchains, hfresh, -⟩ := h
  obtain ⟨lists', hchains', hslots⟩ := hholds.faithful
  cases hchains.unique hchains'
  have hvalues := (hchains.holds slot).chain.values
  rw [← hchains.head_eq slot] at hvalues
  have hlines : ((lists slot).map Prod.snd).map (itemLines slot) =
      (items slot calls).map (shownLines slot) := by
    rw [← (hslots slot).1, List.map_map, List.map_map]
    exact List.map_congr_left fun node hnode => itemLines_eq (hfresh slot node hnode) slot
  rw [page, ← hcount, ← hlines]
  exact hvalues.map fun values => heading slot (vm.grid slot).slotCapacity.toNat ++
    String.join (values.map (itemLines slot))

theorem Stocked.cleanVm (h : Stocked vm) :
    ∃ heap, Returns (cleanVm vm) heap ∧ ∀ a, heap a = none := by
  obtain ⟨lists, hchains, -, hcovers⟩ := h
  obtain ⟨heap, hreturns, hfrees⟩ := hchains.freeSlots (Nat.le_refl capacity)
  refine ⟨heap, hreturns, hfrees.all fun a ha => ?_⟩
  obtain ⟨slot, hslot⟩ := hcovers a ha
  exact ⟨slot, slot.isLt, hslot⟩

/-- **The life of a machine.** When every warranty is valid and no slot is given more than ten
items, all calls return, `print_slot` prints for each slot what was put into it, in this order,
and ends the program for every other number, and `clean_vm` frees every item, once. -/
theorem machine_life_cycle (malloc : ℕ ↪ ℕ) (hvalid : ∀ call ∈ calls, call.Valid)
    (hroom : ∀ slot, (items slot calls).length ≤ slotItemCapacity) :
    ∃ vm, Returns (run malloc calls) vm ∧
      (∀ slot : Fin capacity, Returns (printSlot vm (slot : ℕ)) (page calls slot)) ∧
      (∀ slotType : ℤ, slotType < 0 ∨ (capacity : ℤ) ≤ slotType → Exits (printSlot vm slotType)) ∧
      ∃ heap, Returns (cleanVm vm) heap ∧ ∀ a, heap a = none := by
  obtain ⟨vm, hreturns, hholds, hstocked⟩ := (stockedRule malloc).exists_returns
    (fun _ _ _ _ => trivial) (allCalls_accepted_iff.mpr ⟨hvalid, hroom⟩)
    ⟨holds_setupVm malloc, stocked_setupVm⟩
  refine ⟨vm, hreturns, fun slot => ?_, fun slotType hout => ?_, hstocked.cleanVm⟩
  · have hprinted := hstocked.printItems hholds slot
    refine hprinted.congr fun fuel => ?_
    have hcase : ∀ slot : Fin capacity,
        slot = typeSnack ∨ slot = typeDrink ∨ slot = typeDevice := by
      decide
    rcases hcase slot with rfl | rfl | rfl <;> rfl
  · refine ⟨0, fun fuel _ => ⟨1, "Invalid slot type\n", ?_⟩⟩
    have hne : ∀ slot : Fin capacity, slotType ≠ (slot : ℕ) := fun slot => by
      have hlt := slot.isLt
      omega
    rw [printSlot, if_neg (hne typeSnack), if_neg (hne typeDrink), if_neg (hne typeDevice)]

/-- The calls of `main`. -/
def mainCalls : List Call :=
  [.addSnack ⟨.ofString "Choco Bar", [], by decide⟩ 2 246,
    .addSnack ⟨.ofString "Cookies", [], by decide⟩ 7 268,
    .addSnack ⟨.ofString "Fried Chips", [], by decide⟩ 17 453,
    .addDrink ⟨.ofString "Coca Cola", [], by decide⟩ 2 250,
    .addDrink ⟨.ofString "Soda", [], by decide⟩ 1 150,
    .addDevice ⟨.ofString "Pixel 4", [], by decide⟩ 199 1,
    .addDevice ⟨.ofString "Used iPhone 11", [], by decide⟩ 250 0,
    .addDevice ⟨.ofString "Galaxy Buds Pro", [], by decide⟩ 245 1]

theorem valid_mainCalls : ∀ call ∈ mainCalls, call.Valid := by
  intro call hcall
  simp only [mainCalls, List.mem_cons, List.not_mem_nil, or_false] at hcall
  rcases hcall with rfl | rfl | rfl | rfl | rfl | rfl | rfl | rfl
  iterate 5 exact trivial
  iterate 3 exact UInt8.le_iff_toNat_le.mpr (by decide)

theorem machine_life_cycle_main :
    ∃ vm, Returns (run (Function.Embedding.refl ℕ) mainCalls) vm ∧
      Returns (printSlot vm 2) (page mainCalls typeDevice) ∧
      (items typeDevice mainCalls).length = 3 ∧
      ∃ heap, Returns (cleanVm vm) heap ∧ ∀ a, heap a = none := by
  have hroom : ∀ slot, (items slot mainCalls).length ≤ slotItemCapacity := by decide
  obtain ⟨vm, hreturns, hprinted, -, hfreed⟩ :=
    machine_life_cycle (Function.Embedding.refl ℕ) valid_mainCalls hroom
  exact ⟨vm, hreturns, hprinted typeDevice, by decide, hfreed⟩

end BareMetal.VendingMachine
