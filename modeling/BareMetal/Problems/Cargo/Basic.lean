import BareMetal.CS.Chains
import BareMetal.CS.SlotQueue
import BareMetal.CS.Text
import BareMetal.CS.Transition
import Mathlib.Tactic.IntervalCases

/-!
# The cargo bay of `problems/cargo.c`

`enqueue` fills in a container, inspects it and puts a pointer to it behind the queue.
`dequeue` takes the first container and hands it to `load`, which frees it or puts it
on the rail that the hash of its code selects.

`malloc` leaves bytes in a new container: the state and, for an unknown material, the
material start with any value.

`Yard` says what the queue and the rails stand for: the orders that wait and those that
are gone, with the addresses of their containers.
-/

namespace BareMetal.Cargo

open CS Transition LinkedList SlotQueue

/-- `CARGO_QUEUE_CAPACITY`. -/
abbrev cargoQueueCapacity : ℕ := 10

/-- `CARGO_RAILS_CAPACITY`. -/
abbrev cargoRailsCapacity : ℕ := 4

/-- `TC_SIZE`. -/
def tcSize : ℕ := 7

/-- `BIT`. -/
def bit (x : UInt8) : UInt8 := 1 <<< x

/-- `IN_QUEUE_IDX`. -/
def inQueueIdx : UInt8 := 0

/-- `INSPECTED_IDX`. -/
def inspectedIdx : UInt8 := 1

/-- `QUARANTINE_IDX`. -/
def quarantineIdx : UInt8 := 3

/-- `DEPARTURE_IDX`. -/
def departureIdx : UInt8 := 7

/-- `RESET_STATE`. -/
def resetState : UInt8 := 0x00

/-- `MAT_COMBINE`. -/
def matCombine (left right : UInt8) : UInt8 := ((left <<< 4) &&& 0xF0) ||| (right &&& 0x0F)

/-- `MAT_EXTRACT_LEFT`. -/
def matExtractLeft (val : UInt8) : UInt8 := (val &&& 0xF0) >>> 4

/-- `MAT_EXTRACT_RIGHT`. -/
def matExtractRight (val : UInt8) : UInt8 := val &&& 0x0F

/-- `CargoMaterial`, and the other values of its type. -/
inductive CargoMaterial
  | matBio
  | matMac
  | other
  deriving DecidableEq, Repr

/-- `Container`, without the pointer to the next one. Both members of its material are one
byte. -/
structure Container where
  trackingCode : CString
  containerMaterial : UInt8
  containerState : UInt8
  deriving DecidableEq, Repr

/-- `CargoQueue`. -/
structure CargoQueue where
  queue : Block cargoQueueCapacity (Option ℕ)
  size : UInt8

/-- `CargoBay`. -/
structure CargoBay where
  rails : Block cargoRailsCapacity (Option ℕ)

/-- The queue, the bay and the containers that are allocated. -/
structure Station where
  queue : CargoQueue
  bay : CargoBay
  heap : Heap Container

/-- `init_cargo_queue` and `init_cargo_bay`. -/
def initStation : Station := ⟨⟨fun _ => none, 0⟩, ⟨fun _ => none⟩, fun _ => none⟩

/-- `hash_function`, whose `int` is returned in one byte. -/
def hashFunction (key : CString) (capacity : ℤ) : Outcome UInt8 := do
  let hash ← charHash key capacity
  .ok (UInt8.ofInt hash)

/-- `validate_tc`, with the code of its result; the size beside it counts the terminator. -/
def validateTc (trackingCode : CString) : Option CString :=
  if trackingCode.length ≠ tcSize then none else some trackingCode

/-- The bits that `enqueue` sets before the inspection. -/
def mark (container : Container) (mat : CargoMaterial) (v1 v2 : UInt8) : Container :=
  match mat with
  | .matBio =>
    { container with
      containerState := container.containerState ||| bit inQueueIdx
      containerMaterial := matCombine v1 v2 }
  | .matMac =>
    { container with
      containerState := container.containerState ||| bit inQueueIdx
      containerMaterial := matCombine v1 v2 }
  | .other => { container with containerState := container.containerState ||| bit quarantineIdx }

/-- The test of `inspect` on the two halves of the material. -/
def unfit (container : Container) : Bool :=
  matExtractLeft container.containerMaterial == 0 ||
    matExtractRight container.containerMaterial == 0

/-- `inspect`. -/
def inspect (container : Container) (mat : CargoMaterial) : Container :=
  let queued := container.containerState &&& bit inQueueIdx != 0
  let quarantine := match mat with
    | .matBio => !queued || unfit container
    | .matMac => !queued || unfit container
    | .other => true
  if quarantine then { container with containerState := resetState ||| bit quarantineIdx }
  else { container with containerState := resetState ||| bit inspectedIdx }

/-- `enqueue`, with what `malloc` returns: an address, and the material and the state that
the new container starts with. -/
def enqueue (s : Station) (container : ℕ) (material state : UInt8) (code : CString)
    (mat : CargoMaterial) (v1 v2 : UInt8) : Outcome Station :=
  if s.queue.size.toNat + 1 > cargoQueueCapacity then
    .error (.exit 1 "Please standby, the CargoQueue is full\n")
  else
    match validateTc code with
    -- the size of a code that is not valid is read through a null pointer
    | none => .error (.outOfBounds 0)
    | some tc => do
      let value := inspect (mark ⟨tc, material, state⟩ mat v1 v2) mat
      let queue ← s.queue.queue.store s.queue.size.toNat (some container)
      .ok { s with
        queue := ⟨queue, s.queue.size + 1⟩
        heap := s.heap.alloc container value }

/-- `load`. -/
def load (s : Station) (container : Option ℕ) (fuel : ℕ) : Outcome Station := do
  let node ← s.heap.load container
  match container, validateTc node.value.trackingCode with
  | some a, some tc => do
    let idx ← hashFunction tc cargoRailsCapacity
    if node.value.containerState &&& bit inspectedIdx = 0 then .ok { s with heap := s.heap.free a }
    else
      match ← s.bay.rails.load idx.toNat with
      | none => do
        let rails ← s.bay.rails.store idx.toNat (some a)
        .ok { s with bay := ⟨rails⟩ }
      | some first => do
        -- the walk comes before the change of the state, which it does not read
        let heap ← s.heap.store (some a)
          { node with
            value := { node.value with containerState := resetState ||| bit departureIdx } }
        let (heap, _) ← linkLast heap (some first) a fuel
        .ok { s with heap := heap }
  | _, _ => .error (.outOfBounds 0)

/-- `dequeue`. -/
def dequeue (s : Station) (onDequeue : Station → Option ℕ → Outcome Station) : Outcome Station :=
  if s.queue.size = 0 then .ok s
  else do
    let newContainer ← s.queue.queue.load 0
    let size := s.queue.size - 1
    let queue ← moveDown s.queue.queue size.toNat
    let queue ← queue.store size.toNat none
    onDequeue { s with queue := ⟨queue, size⟩ } newContainer

/-! ### Runs -/

/-- What `enqueue` is asked for. -/
structure Order where
  code : CString
  mat : CargoMaterial
  v1 : UInt8
  v2 : UInt8
  deriving DecidableEq, Repr

/-- A call; an enqueued order goes with the address of its container. -/
inductive Call
  | enqueue (container : ℕ) (order : Order)
  | dequeue
  deriving DecidableEq, Repr

/-- A call that returns. Containers are dequeued with `load`. -/
inductive Step (s : Station) : Call → Station → Prop
  | enqueue {container : ℕ} {material state : UInt8} {order : Order} {s' : Station}
      (hfree : s.heap container = none)
      (hcall : Cargo.enqueue s container material state order.code order.mat order.v1 order.v2 =
        .ok s') :
      Step s (.enqueue container order) s'
  | dequeue {fuel : ℕ} {s' : Station}
      (hcall : Cargo.dequeue s (fun s container => load s container fuel) = .ok s') :
      Step s .dequeue s'

/-- Sequences of calls on a new station. -/
def system : System Station Call where
  start s := s = initStation
  step s e s' := Step s e s'

/-! ### What the station stands for -/

/-- The material is known and both values have a low half that is not zero. -/
def Order.accepted (order : Order) : Bool :=
  order.mat != .other && order.v1 &&& 0x0F != 0 && order.v2 &&& 0x0F != 0

/-- The orders in the queue, and those that have left it, in order. -/
structure Yard where
  waiting : List (ℕ × Order)
  gone : List (ℕ × Order)

/-- What a call does to the yard. -/
def Yard.apply (yard : Yard) : Call → Yard
  | .enqueue container order => { yard with waiting := yard.waiting ++ [(container, order)] }
  | .dequeue =>
    match yard.waiting with
    | [] => yard
    | first :: rest => ⟨rest, yard.gone ++ [first]⟩

/-- The yard after a sequence of calls. -/
def yard (calls : List Call) : Yard := calls.foldl Yard.apply ⟨[], []⟩

/-- The orders that are to be on the rail `r`. -/
def Yard.loaded (yard : Yard) (r : Fin cargoRailsCapacity) : List (ℕ × Order) :=
  yard.gone.filter fun order =>
    order.2.accepted && decide (hashFunction order.2.code cargoRailsCapacity = .ok (UInt8.ofNat r))

/-! ### The inspection -/

theorem matExtractLeft_matCombine (v1 v2 : UInt8) :
    matExtractLeft (matCombine v1 v2) = v1 &&& 0x0F := by
  apply UInt8.toBitVec_inj.mp
  ext i hi
  unfold matExtractLeft matCombine
  interval_cases i <;> simp

theorem matExtractRight_matCombine (v1 v2 : UInt8) :
    matExtractRight (matCombine v1 v2) = v2 &&& 0x0F := by
  apply UInt8.toBitVec_inj.mp
  ext i hi
  unfold matExtractRight matCombine
  interval_cases i <;> simp

/-- Whatever the state was, a container in the queue has the bit of the queue. -/
theorem inQueue_of_mark (state : UInt8) : (state ||| bit inQueueIdx) &&& bit inQueueIdx ≠ 0 := by
  have hbit : (state ||| bit inQueueIdx) &&& bit inQueueIdx = 1 := by
    apply UInt8.toBitVec_inj.mp
    ext i hi
    unfold bit inQueueIdx
    interval_cases i <;> simp
  rw [hbit]
  decide

/-- The container that `enqueue` has made of an order. -/
def stowed (order : Order) (material : UInt8) : Container where
  trackingCode := order.code
  containerMaterial :=
    match order.mat with
    | .matBio => matCombine order.v1 order.v2
    | .matMac => matCombine order.v1 order.v2
    | .other => material
  containerState := if order.accepted then 0x02 else 0x08

theorem unfit_matCombine (code : CString) (state v1 v2 : UInt8) :
    unfit ⟨code, matCombine v1 v2, state⟩ = (v1 &&& 0x0F == 0 || v2 &&& 0x0F == 0) := by
  rw [unfit, matExtractLeft_matCombine, matExtractRight_matCombine]

/-- The bytes of `malloc` do not reach the state. -/
theorem inspect_mark (order : Order) (material state : UInt8) :
    inspect (mark ⟨order.code, material, state⟩ order.mat order.v1 order.v2) order.mat =
      stowed order material := by
  obtain ⟨code, mat, v1, v2⟩ := order
  have hqueued : ((state ||| bit inQueueIdx) &&& bit inQueueIdx != 0) = true :=
    bne_iff_ne.mpr (inQueue_of_mark state)
  cases mat with
  | other => rfl
  | _ =>
    simp only [inspect, mark, hqueued, unfit_matCombine, stowed, Order.accepted]
    by_cases h1 : v1 &&& 0x0F = 0
    · simp [h1]
      rfl
    · by_cases h2 : v2 &&& 0x0F = 0
      · simp [h2]
        rfl
      · simp [h1, h2]
        rfl

end BareMetal.Cargo
