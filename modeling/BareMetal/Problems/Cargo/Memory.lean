import BareMetal.CS.Ledger
import BareMetal.CS.Views
import BareMetal.Problems.Cargo.Routing

/-!
# The memory of the cargo bay

A container of `problems/cargo.c` points to its tracking code, and `validate_tc` allocates one
more copy of a code for every caller. `load` frees that copy, `enqueue` frees only the structure
around it. `clean` frees what is on the rails with its codes, and what is still in the queue
without them. Of the three structures that are there from the start it frees the bay and the
queue, but not the array of the rails that the bay points to.

`Depot` is the station with these pointers. `view` reads the codes in place of the pointers, and
the calls do to the view what they do to the station.

## Main results

* `Stored.step_view` — a call does the same to the depot and to its view
* `refines` — the runs of the depot are runs of the station
* `Fixtures.Built.clean` — the array of the rails is what is left of the three structures
* `clean_loses` — after any calls `clean` frees every container, and it leaves the array of the
  rails, one code for each call of `enqueue` and one for each container that was still in the queue
-/

namespace BareMetal.Cargo.Memory

open CS Transition LinkedList SlotQueue

/-- `Container`, with the pointer to its tracking code. -/
structure Crate where
  trackingCode : ℕ
  containerMaterial : UInt8
  containerState : UInt8
  deriving DecidableEq, Repr

/-- The block that a container owns. -/
def Crate.owned (crate : Crate) : Option ℕ := some crate.trackingCode

/-- A structure that is allocated from the start: the bay, the array `bay->rails` or the queue. -/
inductive Fixture
  | cargoBay
  | rails
  | cargoQueue
  deriving DecidableEq, Repr

/-- The pointers to these structures, and where they are allocated. -/
structure Fixtures where
  cargoBay : ℕ
  rails : ℕ
  cargoQueue : ℕ
  allocated : ℕ → Option Fixture

/-- The queue, the bay, the containers and the tracking codes. -/
structure Depot where
  queue : CargoQueue
  bay : CargoBay
  memory : Owning Crate CString
  fixtures : Fixtures

/-- The structures, with what `calloc` returns for them. -/
def initFixtures (cargoBay rails cargoQueue : ℕ) : Fixtures where
  cargoBay := cargoBay
  rails := rails
  cargoQueue := cargoQueue
  allocated :=
    Function.update (Function.update (Function.update (fun _ => none) cargoBay (some .cargoBay))
      rails (some .rails)) cargoQueue (some .cargoQueue)

/-- `init_cargo_bay` and `init_cargo_queue`. -/
def initDepot (fixtures : Fixtures) : Depot :=
  ⟨⟨fun _ => none, 0⟩, ⟨fun _ => none⟩, ⟨fun _ => none, fun _ => none⟩, fixtures⟩

/-- `enqueue`, with the addresses that `malloc` returns for the container, for the code of
`validate_tc` and for the code of the container. -/
def enqueue (d : Depot) (container label code : ℕ) (material state : UInt8) (text : CString)
    (mat : CargoMaterial) (v1 v2 : UInt8) : Outcome Depot :=
  if d.queue.size.toNat + 1 > cargoQueueCapacity then
    .error (.exit 1 "Please standby, the CargoQueue is full\n")
  else
    match validateTc text with
    | none => .error (.outOfBounds 0)
    | some tc => do
      let blocks := Function.update (Function.update d.memory.blocks label (some tc)) code (some tc)
      let value := inspect (mark ⟨tc, material, state⟩ mat v1 v2) mat
      let queue ← d.queue.queue.store d.queue.size.toNat (some container)
      -- the structure around the code of `validate_tc` is freed, the code itself is not
      .ok { d with
        queue := ⟨queue, d.queue.size + 1⟩
        memory :=
          ⟨d.memory.cells.alloc container
            ⟨code, value.containerMaterial, value.containerState⟩, blocks⟩ }

/-- `load`, with the address that `validate_tc` gets for its code. -/
def load (d : Depot) (container : Option ℕ) (label fuel : ℕ) : Outcome Depot := do
  let node ← d.memory.cells.load container
  let text ← CellHeap.load d.memory.blocks (some node.value.trackingCode)
  match container, validateTc text with
  | some a, some tc => do
    let blocks := Function.update d.memory.blocks label (some tc)
    let idx ← hashFunction tc cargoRailsCapacity
    if node.value.containerState &&& bit inspectedIdx = 0 then do
      let blocks ← CellHeap.free blocks (some node.value.trackingCode)
      let cells ← CellHeap.free d.memory.cells (some a)
      let blocks ← CellHeap.free blocks (some label)
      .ok { d with memory := ⟨cells, blocks⟩ }
    else
      match ← d.bay.rails.load idx.toNat with
      | none => do
        let rails ← d.bay.rails.store idx.toNat (some a)
        let blocks ← CellHeap.free blocks (some label)
        .ok { d with bay := ⟨rails⟩, memory := ⟨d.memory.cells, blocks⟩ }
      | some first => do
        let cells ← d.memory.cells.store (some a)
          { node with
            value := { node.value with containerState := resetState ||| bit departureIdx } }
        let (cells, _) ← linkLast cells (some first) a fuel
        let blocks ← CellHeap.free blocks (some label)
        .ok { d with memory := ⟨cells, blocks⟩ }
  | _, _ => .error (.outOfBounds 0)

/-- `dequeue`. -/
def dequeue (d : Depot) (onDequeue : Depot → Option ℕ → Outcome Depot) : Outcome Depot :=
  if d.queue.size = 0 then .ok d
  else do
    let newContainer ← d.queue.queue.load 0
    let size := d.queue.size - 1
    let queue ← moveDown d.queue.queue size.toNat
    let queue ← queue.store size.toNat none
    onDequeue { d with queue := ⟨queue, size⟩ } newContainer

/-- One pass of the loop of `clean` over the queue. -/
def freePass (queue : Block cargoQueueCapacity (Option ℕ)) (cells : Heap Crate) (i : ℕ) :
    Outcome (Heap Crate) := do
  let container ← queue.load i
  if container = none then .ok cells else CellHeap.free cells container

/-- The end of `clean`: `free(bay)` and `free(queue)`. -/
def Fixtures.clean (f : Fixtures) : Outcome Fixtures := do
  let allocated ← CellHeap.free f.allocated (some f.cargoBay)
  let allocated ← CellHeap.free allocated (some f.cargoQueue)
  .ok { f with allocated := allocated }

/-- `clean`, with what it leaves. -/
def clean (d : Depot) (fuel : ℕ) : Outcome Depot := do
  let memory ← freeOwningSlots Crate.owned d.bay.rails cargoRailsCapacity d.memory fuel
  let cells ← (List.range cargoQueueCapacity).foldlM (freePass d.queue.queue) memory.cells
  let fixtures ← d.fixtures.clean
  .ok { d with memory := ⟨cells, memory.blocks⟩, fixtures := fixtures }

/-! ### Runs -/

/-- A call, with the addresses that `malloc` returns in it. -/
inductive Event
  | enqueue (container label code : ℕ) (order : Order)
  | dequeue (label : ℕ)
  deriving DecidableEq, Repr

/-- The call as the station sees it. -/
def Event.call : Event → Call
  | .enqueue container _ _ order => .enqueue container order
  | .dequeue _ => .dequeue

/-- A call that returns. What `malloc` returns is not allocated. -/
inductive Step (d : Depot) : Event → Depot → Prop
  | enqueue {container label code : ℕ} {material state : UInt8} {order : Order} {d' : Depot}
      (hcontainer : d.memory.cells container = none) (hlabel : d.memory.blocks label = none)
      (hcode : d.memory.blocks code = none) (hne : code ≠ label)
      (hcall : Memory.enqueue d container label code material state order.code order.mat order.v1
        order.v2 = .ok d') :
      Step d (.enqueue container label code order) d'
  | dequeue {label fuel : ℕ} {d' : Depot} (hlabel : d.memory.blocks label = none)
      (hcall : Memory.dequeue d (fun d container => load d container label fuel) = .ok d') :
      Step d (.dequeue label) d'

/-- The structures as they are set up, each in a block of its own. -/
def Fixtures.Built (f : Fixtures) : Prop :=
  ∃ cargoBay rails cargoQueue, [cargoBay, rails, cargoQueue].Nodup ∧
    f = initFixtures cargoBay rails cargoQueue

/-- Sequences of calls on a new depot. -/
def system : System Depot Event where
  start d := ∃ fixtures : Fixtures, fixtures.Built ∧ d = initDepot fixtures
  step d e d' := Step d e d'

/-! ### The view -/

/-- A container with its code in place of the pointer. -/
def readCrate (blocks : ℕ → Option CString) (crate : Crate) : Container where
  trackingCode := (blocks crate.trackingCode).getD []
  containerMaterial := crate.containerMaterial
  containerState := crate.containerState

/-- The depot without its pointers to codes. -/
def view (d : Depot) : Station where
  queue := d.queue
  bay := d.bay
  heap := d.memory.cells.mapValues (readCrate d.memory.blocks)

/-- The depot stands for the yard, and the codes in `lost` belong to no container. -/
structure Stored (d : Depot) (yard : Yard) (lost : List ℕ) : Prop where
  represents : Represents (view d) yard
  ledger : Ledger (owners Crate.owned d.memory.cells) d.memory.blocks lost
  built : d.fixtures.Built

variable {d d' : Depot} {yard : Yard} {lost : List ℕ} {e : Event} {a b label fuel : ℕ}
  {node : Node Crate} {blocks : ℕ → Option CString} {text : CString}

theorem stored_initDepot {fixtures : Fixtures} (h : fixtures.Built) :
    Stored (initDepot fixtures) ⟨[], []⟩ [] :=
  ⟨represents_initStation, Ledger.start, h⟩

/-- Of the structures the array of the rails is left. -/
theorem Fixtures.Built.clean {f : Fixtures} (h : f.Built) :
    ∃ f', f.clean = .ok f' ∧ ∀ b, f'.allocated b ≠ none ↔ b = f.rails := by
  obtain ⟨cargoBay, rails, cargoQueue, hnodup, rfl⟩ := h
  obtain ⟨hbay, hrails⟩ : (cargoBay ≠ rails ∧ cargoBay ≠ cargoQueue) ∧ rails ≠ cargoQueue := by
    simpa using hnodup
  have hfirst : (initFixtures cargoBay rails cargoQueue).allocated cargoBay = some .cargoBay := by
    rw [initFixtures]
    dsimp only
    rw [Function.update_of_ne hbay.2, Function.update_of_ne hbay.1, Function.update_self]
  have hsecond : Function.update (initFixtures cargoBay rails cargoQueue).allocated cargoBay none
      cargoQueue = some .cargoQueue := by
    rw [Function.update_of_ne hbay.2.symm]
    exact Function.update_self ..
  refine ⟨_, Outcome.bind_eq_ok.mpr ⟨_, CellHeap.free_some hfirst,
    Outcome.bind_eq_ok.mpr ⟨_, CellHeap.free_some hsecond, rfl⟩⟩, fun b => ?_⟩
  dsimp only [initFixtures]
  simp only [Function.update_apply]
  grind

theorem readCrate_eq (h : blocks b = some text) (material state : UInt8) :
    readCrate blocks ⟨b, material, state⟩ = ⟨text, material, state⟩ := by
  rw [readCrate, h, Option.getD_some]

/-- Blocks that are not owned may change. -/
theorem mapValues_readCrate {blocks' : ℕ → Option CString} {cells : Heap Crate}
    (h : ∀ a b, owners Crate.owned cells a = some b → blocks' b = blocks b) :
    cells.mapValues (readCrate blocks') = cells.mapValues (readCrate blocks) := by
  refine mapValues_congr fun a node hcell => ?_
  rw [readCrate, readCrate, h a node.value.trackingCode (owners_some hcell)]

/-! ### Queueing -/

theorem Stored.enqueue {container code : ℕ} {material state : UInt8} {order : Order}
    (h : Stored d yard lost) (hcontainer : d.memory.cells container = none)
    (hlabel : d.memory.blocks label = none) (hcode : d.memory.blocks code = none)
    (hne : code ≠ label)
    (hcall : Memory.enqueue d container label code material state order.code order.mat order.v1
      order.v2 = .ok d') :
    Cargo.Step (view d) (.enqueue container order) (view d') ∧
      Ledger (owners Crate.owned d'.memory.cells) d'.memory.blocks (lost ++ [label]) ∧
      d'.fixtures = d.fixtures := by
  unfold Memory.enqueue at hcall
  split_ifs at hcall with hfull
  by_cases hlength : order.code.length = tcSize
  swap
  · rw [validateTc, if_pos hlength] at hcall
    cases hcall
  rw [validateTc_eq hlength] at hcall
  dsimp only at hcall
  rw [inspect_mark] at hcall
  obtain ⟨queue, hstore, hok⟩ := Outcome.bind_eq_ok.mp hcall
  cases hok
  have howner : owners Crate.owned d.memory.cells container = none := owners_none hcontainer
  have hfree : Function.update d.memory.blocks label (some order.code) code = none := by
    rw [Function.update_of_ne hne, hcode]
  have hledger := (h.ledger.lose hlabel order.code).take howner hfree order.code
  -- the codes of the other containers are where they were
  have hcells : Heap.mapValues
      (readCrate (Function.update (Function.update d.memory.blocks label (some order.code)) code
        (some order.code))) d.memory.cells =
      d.memory.cells.mapValues (readCrate d.memory.blocks) := by
    refine mapValues_readCrate fun a b hb => ?_
    have hlost := (h.ledger.lose hlabel order.code).ne_of_free hfree hb
    rw [Function.update_of_ne hlost, Function.update_of_ne (h.ledger.ne_of_free hlabel hb)]
  have hview : Cargo.enqueue (view d) container material state order.code order.mat order.v1
      order.v2 = .ok (view ⟨⟨queue, d.queue.size + 1⟩, d.bay,
        ⟨d.memory.cells.alloc container ⟨code, (stowed order material).containerMaterial,
          (stowed order material).containerState⟩,
          Function.update (Function.update d.memory.blocks label (some order.code)) code
            (some order.code)⟩, d.fixtures⟩) := by
    rw [Cargo.enqueue, view, if_neg hfull, validateTc_eq hlength]
    dsimp only
    rw [inspect_mark, hstore, Outcome.ok_bind, view]
    dsimp only
    rw [mapValues_alloc, hcells, readCrate_eq (Function.update_self ..)]
    rfl
  refine ⟨.enqueue (mapValues_none _ hcontainer) hview, ?_, rfl⟩
  dsimp only [Heap.alloc]
  rw [owners_update]
  exact hledger

/-- An order with a valid code is enqueued while there is room. -/
theorem Stored.exists_enqueue {order : Order} (h : Stored d yard lost)
    (hroom : yard.waiting.length < cargoQueueCapacity) (hlength : order.code.length = tcSize)
    (container label code : ℕ) (material state : UInt8) :
    ∃ d', Memory.enqueue d container label code material state order.code order.mat order.v1
      order.v2 = .ok d' := by
  have hsize : d.queue.size.toNat = yard.waiting.length := h.represents.lined.size_eq
  obtain ⟨queue, hstore, -⟩ := h.represents.lined.push hroom container order
  have hstore' : d.queue.queue.store d.queue.size.toNat (some container) = .ok queue := hstore
  rw [Memory.enqueue, if_neg (by omega), validateTc_eq hlength]
  dsimp only
  rw [hstore']
  exact ⟨_, rfl⟩

/-! ### Loading -/

/-- The copy of a code lives as long as the call of `load`. -/
theorem free_label (hlabel : blocks label = none) (text : CString) :
    CellHeap.free (Function.update blocks label (some text)) (some label) = .ok blocks := by
  rw [CellHeap.free_some (Function.update_self ..), Function.update_idem,
    Function.update_eq_self_iff.mpr hlabel.symm]

/-- What `load` does to the memory of a container that it refuses. -/
theorem free_refused (hlabel : blocks label = none) (hblock : blocks b = some text) :
    ∃ between, CellHeap.free (Function.update blocks label (some text)) (some b) = .ok between ∧
      CellHeap.free between (some label) = .ok (Function.update blocks b none) := by
  have hne : b ≠ label := by
    rintro rfl
    cases hlabel.symm.trans hblock
  have hfirst : Function.update blocks label (some text) b = some text := by
    rw [Function.update_of_ne hne, hblock]
  refine ⟨_, CellHeap.free_some hfirst, ?_⟩
  rw [Function.update_comm hne.symm]
  exact free_label (by rw [Function.update_of_ne hne.symm, hlabel]) text

/-- The code that `validate_tc` copies. -/
theorem of_validateTc {tc : CString} (h : validateTc text = some tc) : tc = text := by
  unfold validateTc at h
  split_ifs at h
  exact (Option.some.inj h).symm

/-- The view of a depot in which a container goes with its code. -/
theorem mapValues_free (h : Ledger (owners Crate.owned d.memory.cells) d.memory.blocks lost)
    (hcell : d.memory.cells a = some node) :
    Heap.mapValues (readCrate (Function.update d.memory.blocks node.value.trackingCode none))
      (Function.update d.memory.cells a none) =
      (d.memory.cells.mapValues (readCrate d.memory.blocks)).free a := by
  rw [Heap.free, ← Option.map_none (f := Node.mapValue (readCrate d.memory.blocks)),
    ← mapValues_update]
  refine mapValues_readCrate fun a' b hb => ?_
  -- another container owns another code
  have hne : a' ≠ a := by
    rintro rfl
    rw [owners, Function.update_self] at hb
    cases hb
  rw [owners, Function.update_of_ne hne] at hb
  refine Function.update_of_ne ?_ ..
  rintro rfl
  exact hne (h.once a' a _ hb (owners_some hcell))

theorem load_view (h : Ledger (owners Crate.owned d.memory.cells) d.memory.blocks lost)
    (hlabel : d.memory.blocks label = none) {container : Option ℕ}
    (hcall : Memory.load d container label fuel = .ok d') :
    Cargo.load (view d) container fuel = .ok (view d') ∧
      Ledger (owners Crate.owned d'.memory.cells) d'.memory.blocks lost ∧
      d'.fixtures = d.fixtures := by
  obtain ⟨node, hload, hcall⟩ := Outcome.bind_eq_ok.mp hcall
  obtain ⟨a, rfl, hcell⟩ := Heap.exists_of_load hload
  have howner : owners Crate.owned d.memory.cells a = some node.value.trackingCode :=
    owners_some hcell
  obtain ⟨text, hblock⟩ := Option.ne_none_iff_exists'.mp (h.allocated _ _ howner)
  rw [CellHeap.load_some hblock, Outcome.ok_bind] at hcall
  have hview : (view d).heap a = some (node.mapValue (readCrate d.memory.blocks)) :=
    mapValues_some _ hcell
  have hcode : (node.mapValue (readCrate d.memory.blocks)).value.trackingCode = text := by
    rw [Node.mapValue, readCrate, hblock, Option.getD_some]
  rw [Cargo.load, Heap.load_some hview, Outcome.ok_bind, hcode]
  cases hvalid : validateTc text with
  | none =>
    simp only [hvalid] at hcall
    cases hcall
  | some tc =>
    obtain rfl := of_validateTc hvalid
    simp only [hvalid] at hcall ⊢
    obtain ⟨idx, hidx, hcall⟩ := Outcome.bind_eq_ok.mp hcall
    rw [hidx, Outcome.ok_bind]
    have hstate : (node.mapValue (readCrate d.memory.blocks)).value.containerState =
        node.value.containerState := rfl
    rw [hstate]
    split_ifs at hcall with hinspected
    · -- the container is refused
      obtain ⟨between, hfirst, hsecond⟩ := free_refused hlabel hblock
      rw [hfirst, Outcome.ok_bind, CellHeap.free_some hcell, Outcome.ok_bind, hsecond] at hcall
      cases hcall
      rw [if_pos hinspected]
      refine ⟨?_, ?_, rfl⟩
      · rw [view, view]
        dsimp only
        rw [mapValues_free h hcell]
      · dsimp only
        rw [owners_update]
        exact h.release howner
    rw [if_neg hinspected]
    obtain ⟨rail, hrail, hcall⟩ := Outcome.bind_eq_ok.mp hcall
    have hrail' : (view d).bay.rails.load idx.toNat = .ok rail := hrail
    rw [hrail', Outcome.ok_bind]
    cases rail with
    | none =>
      -- it becomes the first container of its rail
      dsimp only at hcall ⊢
      obtain ⟨rails, hstore, hcall⟩ := Outcome.bind_eq_ok.mp hcall
      rw [free_label hlabel] at hcall
      cases hcall
      have hstore' : (view d).bay.rails.store idx.toNat (some a) = .ok rails := hstore
      rw [hstore']
      exact ⟨rfl, h, rfl⟩
    | some first =>
      -- it is marked and linked behind the last one
      dsimp only at hcall ⊢
      rw [Heap.store_some hcell, Outcome.ok_bind] at hcall
      obtain ⟨⟨cells, p⟩, hlink, hcall⟩ := Outcome.bind_eq_ok.mp hcall
      dsimp only at hcall
      rw [free_label hlabel] at hcall
      cases hcall
      rw [Heap.store_some hview, Outcome.ok_bind]
      have hlink' := linkLast_mapValues (readCrate d.memory.blocks) hlink
      rw [mapValues_update] at hlink'
      have howners : owners Crate.owned cells = owners Crate.owned d.memory.cells := by
        rw [owners_congr (values_linkLast hlink), owners_update]
        exact Function.update_eq_self_iff.mpr howner.symm
      refine ⟨Outcome.bind_eq_ok.mpr ⟨_, hlink', rfl⟩, ?_, rfl⟩
      dsimp only
      rw [howners]
      exact h

theorem dequeue_view (h : Ledger (owners Crate.owned d.memory.cells) d.memory.blocks lost)
    (hlabel : d.memory.blocks label = none)
    (hcall : Memory.dequeue d (fun d container => load d container label fuel) = .ok d') :
    Cargo.dequeue (view d) (fun s container => Cargo.load s container fuel) = .ok (view d') ∧
      Ledger (owners Crate.owned d'.memory.cells) d'.memory.blocks lost ∧
      d'.fixtures = d.fixtures := by
  unfold Memory.dequeue at hcall
  unfold Cargo.dequeue
  split_ifs at hcall with hempty
  · cases hcall
    exact ⟨if_pos hempty, h, rfl⟩
  · obtain ⟨container, hfront, hcall⟩ := Outcome.bind_eq_ok.mp hcall
    obtain ⟨moved, hmoved, hcall⟩ := Outcome.bind_eq_ok.mp hcall
    obtain ⟨queue, hqueue, hcall⟩ := Outcome.bind_eq_ok.mp hcall
    obtain ⟨hload, hledger⟩ :=
      load_view (d := ⟨⟨queue, d.queue.size - 1⟩, d.bay, d.memory, d.fixtures⟩) h hlabel hcall
    refine ⟨?_, hledger⟩
    have hsize : ¬ (view d).queue.size = 0 := hempty
    rw [if_neg hsize]
    refine Outcome.bind_eq_ok.mpr ⟨container, hfront, ?_⟩
    refine Outcome.bind_eq_ok.mpr ⟨moved, hmoved, ?_⟩
    exact Outcome.bind_eq_ok.mpr ⟨queue, hqueue, hload⟩

/-! ### Runs of the depot -/

/-- The call is one of `enqueue`. -/
def Event.isEnqueue : Event → Bool
  | .enqueue _ _ _ _ => true
  | .dequeue _ => false

/-- The codes that a call loses. -/
def Event.loses : Event → List ℕ
  | .enqueue _ label _ _ => [label]
  | .dequeue _ => []

/-- A call does to the view what it does to the station, and `enqueue` loses a code. -/
theorem Stored.step_view (h : Stored d yard lost) (hstep : Step d e d') :
    Cargo.Step (view d) e.call (view d') ∧
      Ledger (owners Crate.owned d'.memory.cells) d'.memory.blocks (lost ++ e.loses) ∧
      d'.fixtures = d.fixtures := by
  cases hstep with
  | enqueue hcontainer hlabel hcode hne hcall => exact h.enqueue hcontainer hlabel hcode hne hcall
  | dequeue hlabel hcall =>
    obtain ⟨hview, hledger⟩ := dequeue_view h.ledger hlabel hcall
    rw [Event.loses, List.append_nil]
    exact ⟨.dequeue hview, hledger⟩

theorem Stored.step (h : Stored d yard lost) (hstep : Step d e d') :
    Stored d' (yard.apply e.call) (lost ++ e.loses) := by
  obtain ⟨hview, hledger, hfixtures⟩ := h.step_view hstep
  exact ⟨h.represents.step hview, hledger, hfixtures ▸ h.built⟩

theorem stored {trace : Trace Depot Event} (hrun : Run system trace d) :
    Stored d (Cargo.yard ((events trace).map Event.call)) ((events trace).flatMap Event.loses) := by
  refine Run.invariant
    (I := fun es d => Stored d (Cargo.yard (es.map Event.call)) (es.flatMap Event.loses)) ?_ ?_ hrun
  · rintro d ⟨fixtures, hbuilt, rfl⟩
    exact stored_initDepot hbuilt
  · intro es d e d' h hstep
    rw [List.map_append, List.flatMap_append, List.map_singleton, List.flatMap_singleton,
      yard_concat]
    exact h.step hstep

theorem length_loses (es : List Event) :
    (es.flatMap Event.loses).length = es.countP Event.isEnqueue := by
  induction es with
  | nil => rfl
  | cons e es ih =>
    rw [List.flatMap_cons, List.length_append, ih, List.countP_cons, Nat.add_comm]
    cases e <;> rfl

/-- **Refinement.** A run of the depot is a run of the station. -/
theorem refines {trace : Trace Depot Event} (hrun : Run system trace d) :
    ∃ trace', Run Cargo.system trace' (view d) ∧ events trace' = (events trace).map Event.call := by
  induction hrun with
  | start hstart =>
    obtain ⟨fixtures, -, rfl⟩ := hstart
    exact ⟨[], .start rfl, rfl⟩
  | step hrun hstep ih =>
    obtain ⟨trace', hrun', hevents⟩ := ih
    refine ⟨_, hrun'.step ((stored hrun).step_view hstep).1, ?_⟩
    rw [events_concat, events_concat, List.map_append, hevents, List.map_singleton]

/-! ### The end -/

/-- The containers in `taken` have been freed, and the codes in them are lost. -/
structure Dropped (cells : Heap Crate) (blocks : ℕ → Option CString) (lost taken : List ℕ)
    (cells' : Heap Crate) : Prop where
  frees : Frees cells cells' {a | a ∈ taken}
  ledger : ∃ codes, codes.length = taken.length ∧
    Ledger (owners Crate.owned cells') blocks (lost ++ codes)

variable {cells cells' : Heap Crate} {taken waiting : List ℕ}
  {queue : Block cargoQueueCapacity (Option ℕ)}

/-- Nothing is freed yet. -/
theorem dropped_nil (h : Ledger (owners Crate.owned cells) blocks lost) :
    Dropped cells blocks lost [] cells where
  frees := (Frees.refl cells).congr (Set.eq_empty_of_forall_notMem (by simp)).symm
  ledger := ⟨[], rfl, by rwa [List.append_nil]⟩

/-- One more container. -/
theorem Dropped.free {node : Node Crate} (h : Dropped cells blocks lost taken cells')
    (hcell : cells' a = some node) :
    Dropped cells blocks lost (taken ++ [a]) (Function.update cells' a none) where
  frees := by
    refine (h.frees.trans (Frees.update cells' a)).congr ?_
    ext b
    exact (List.mem_append.trans (or_congr Iff.rfl List.mem_singleton)).symm
  ledger := by
    obtain ⟨codes, hlength, hledger⟩ := h.ledger
    have habandon := hledger.abandon (owners_some hcell)
    rw [List.append_assoc] at habandon
    refine ⟨codes ++ [node.value.trackingCode], ?_, ?_⟩
    · rw [List.length_append, List.length_append, hlength]
      rfl
    · rw [owners_update]
      exact habandon

/-- One slot of the queue, which is null behind the containers that wait. -/
theorem Dropped.pass {i : ℕ} (h : Dropped cells blocks lost (waiting.take i) cells')
    (hqueue : queue = slots cargoQueueCapacity waiting) (hi : i < cargoQueueCapacity)
    (hnodup : waiting.Nodup) (hcells : ∀ a ∈ waiting, cells a ≠ none) :
    ∃ cells'', freePass queue cells' i = .ok cells'' ∧
      Dropped cells blocks lost (waiting.take (i + 1)) cells'' := by
  have hload : queue.load (i : ℕ) = .ok waiting[i]? := by
    rw [hqueue]
    exact Block.load_natCast _ ⟨i, hi⟩
  have htake := List.take_add_one (l := waiting) (i := i)
  rw [freePass, hload, Outcome.ok_bind]
  cases hwaits : waiting[i]? with
  | none =>
    rw [hwaits, Option.toList_none, List.append_nil] at htake
    exact ⟨cells', if_pos rfl, htake ▸ h⟩
  | some a =>
    rw [hwaits, Option.toList_some] at htake
    have hnew : a ∉ waiting.take i := by
      have htaken := hnodup.sublist (List.take_sublist (i + 1) waiting)
      rw [htake, ← List.concat_eq_append, List.nodup_concat] at htaken
      exact htaken.1
    obtain ⟨node, hcell⟩ := Option.ne_none_iff_exists'.mp
      (hcells a (List.mem_of_getElem? hwaits))
    -- no pass before has freed it
    have hcell' : cells' a = some node := (h.frees.kept a hnew).trans hcell
    rw [htake, if_neg (Option.some_ne_none a), CellHeap.free_some hcell']
    exact ⟨_, rfl, h.free hcell'⟩

/-- The queue: every container in it is freed, and its code is lost. -/
theorem exists_freeQueue (hqueue : queue = slots cargoQueueCapacity waiting)
    (hroom : waiting.length ≤ cargoQueueCapacity) (hnodup : waiting.Nodup)
    (hcells : ∀ a ∈ waiting, cells a ≠ none)
    (h : Ledger (owners Crate.owned cells) blocks lost) :
    ∃ cells', (List.range cargoQueueCapacity).foldlM (freePass queue) cells = .ok cells' ∧
      Dropped cells blocks lost waiting cells' := by
  have hpass : ∀ i < cargoQueueCapacity, ∀ cells',
      Dropped cells blocks lost (waiting.take i) cells' →
      ∃ cells'', Returns (fun _ => freePass queue cells' i) cells'' ∧
        Dropped cells blocks lost (waiting.take (i + 1)) cells'' := by
    intro i hi cells' hdropped
    obtain ⟨cells'', hok, hdropped'⟩ := hdropped.pass hqueue hi hnodup hcells
    exact ⟨cells'', .of_eq fun _ => hok, hdropped'⟩
  obtain ⟨cells', hreturns, hdropped⟩ := Returns.foldlM_range hpass (dropped_nil h)
  rw [List.take_of_length_le hroom] at hdropped
  obtain ⟨fuel, hok⟩ := hreturns.exists_ok
  exact ⟨cells', hok, hdropped⟩

/-- **What the program leaves.** It frees every container, once. What is left are the array of the
rails, the codes that `enqueue` lost and those of the containers in the queue. -/
theorem clean_loses {trace : Trace Depot Event} (hrun : Run system trace d) :
    (∃ trace', Run Cargo.system trace' (view d) ∧
      events trace' = (events trace).map Event.call) ∧
    ∃ (left : Depot) (codes : List ℕ), Returns (clean d) left ∧
      (∀ a, left.memory.cells a = none) ∧
      (∀ b, left.fixtures.allocated b ≠ none ↔ b = d.fixtures.rails) ∧
      codes.Nodup ∧ (∀ b, left.memory.blocks b ≠ none ↔ b ∈ codes) ∧
      codes.length = (events trace).countP Event.isEnqueue + d.queue.size.toNat := by
  refine ⟨refines hrun, ?_⟩
  have h := stored hrun
  generalize Cargo.yard ((events trace).map Event.call) = yard at h
  obtain ⟨lists, hlists, hchains⟩ := h.represents.rails.of_mapValues
  have hmem : ∀ r a, a ∈ addresses (lists r) ↔ a ∈ addresses (railCells (yard.loaded r)) := by
    intro r a
    rw [← hlists r, addresses_mapNodes]
  obtain ⟨m, hrails, hcells, hledger⟩ :=
    exists_freeOwningSlots h.ledger hchains (le_refl cargoRailsCapacity)
  -- what waits is on no rail, so the loop over the rails leaves it
  have hwaiting : ∀ a ∈ addresses yard.waiting, m.cells a ≠ none := by
    intro a ha
    obtain ⟨⟨a, order⟩, hwaits, rfl⟩ := List.mem_map.mp ha
    obtain ⟨material, hview⟩ := h.represents.queued a order hwaits
    obtain ⟨node, hcell, -⟩ := exists_of_mapValues hview
    rw [hcells.kept, hcell]
    · exact Option.some_ne_none node
    · rintro ⟨r, -, hr⟩
      exact h.represents.apart a ha r ((hmem r a).mp hr)
  obtain ⟨cells, hqueue, hfrees, codes, hlength, hledger'⟩ := exists_freeQueue
    h.represents.lined.queue_eq (by rw [addresses, List.length_map]; exact h.represents.lined.room)
    h.represents.nodup hwaiting hledger
  -- every container waits or is on a rail
  have hgone : ∀ a, cells a = none := by
    refine (hcells.trans hfrees).all fun a ha => ?_
    obtain ⟨node, hcell⟩ := Option.ne_none_iff_exists'.mp ha
    have hview : (view d).heap a ≠ none := by
      rw [view]
      dsimp only
      rw [mapValues_some _ hcell]
      exact Option.some_ne_none _
    rcases h.represents.allocated a hview with hwaits | ⟨r, hr⟩
    · exact Or.inr hwaits
    · exact Or.inl ⟨r, r.isLt, (hmem r a).mpr hr⟩
  -- `free(bay)` does not reach the array of the rails
  obtain ⟨fixtures, hclean, hfixtures⟩ := h.built.clean
  refine ⟨⟨d.queue, d.bay, ⟨cells, m.blocks⟩, fixtures⟩, _, ?_, hgone, hfixtures, hledger'.nodup,
    hledger'.allocated_iff fun a => owners_none (hgone a), ?_⟩
  · refine hrails.bind (.of_eq fun _ => ?_)
    exact Outcome.bind_eq_ok.mpr ⟨cells, hqueue, Outcome.bind_eq_ok.mpr ⟨fixtures, hclean, rfl⟩⟩
  · rw [List.length_append, length_loses, hlength, addresses, List.length_map,
      ← h.represents.lined.size_eq]
    rfl

/-- The first container of `main`, still in the queue at the end. -/
theorem clean_loses_bioen :
    ∃ trace d, Run system trace d ∧ events trace = [.enqueue 0 0 1 bioen] ∧
      ∃ (left : Depot) (codes : List ℕ), Returns (clean d) left ∧
        left.fixtures.allocated d.fixtures.rails ≠ none ∧ codes.Nodup ∧
        (∀ b, left.memory.blocks b ≠ none ↔ b ∈ codes) ∧ codes.length = 2 := by
  have hlength : bioen.code.length = tcSize := by decide
  have hbuilt : (initFixtures 0 1 2).Built := ⟨0, 1, 2, by decide, rfl⟩
  obtain ⟨d, hcall⟩ := (stored_initDepot hbuilt).exists_enqueue (by decide) hlength 0 0 1 0 0
  have hrun : Run system [(initDepot (initFixtures 0 1 2), .enqueue 0 0 1 bioen)] d :=
    (Run.start ⟨_, hbuilt, rfl⟩ : Run system [] (initDepot (initFixtures 0 1 2))).step
      (.enqueue rfl rfl rfl (by decide) hcall)
  obtain ⟨-, left, codes, hclean, -, hfixtures, hnodup, hleft, hcount⟩ := clean_loses hrun
  have hsize : d.queue.size.toNat = 1 := (stored hrun).represents.lined.size_eq
  refine ⟨_, d, hrun, rfl, left, codes, hclean, (hfixtures _).mpr rfl, hnodup, hleft, ?_⟩
  rw [hcount, hsize]
  rfl

end BareMetal.Cargo.Memory
