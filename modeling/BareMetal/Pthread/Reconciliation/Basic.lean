import BareMetal.CS.LinkedList
import BareMetal.CS.Transition
import Mathlib.Data.Fin.VecNotation

/-!
# The reconciliation pipeline of `pthread/reconciliation.c`

Two extractors fill a data source each, mark its packets as ready and count
themselves in `reconciliate_state`. `start_reconciliation` waits until both are
counted and prints the two data sources; `print_ds_data` counts each in
`process_reco`, which `process_reconciliation` waits for.

A locked section is one step, and so is each read of shared data outside the lock.
A broadcast wakes whoever sleeps on its condition variable; sleepers may also wake
on their own.
-/

namespace BareMetal.Reconciliation

open CS Transition LinkedList

/-- `DS_MAX_SIZE`. -/
abbrev dsMaxSize : ℕ := 100

/-- `BIT`. -/
def bit (x : UInt8) : UInt8 := 1 <<< x

/-- `SOURCE_BIT`. -/
abbrev sourceBit : UInt8 := 0

/-- `PROCESS_BIT`. -/
abbrev processBit : UInt8 := 3

/-- `RECONCILIATION_READY_BIT`. -/
abbrev reconciliationReadyBit : UInt8 := 7

/-- `DEFAULT_MASK`. -/
abbrev defaultMask : UInt8 := 0x00

/-- `ANAPLAN_META_MASK`. -/
abbrev anaplanMetaMask : UInt8 := 0x09

/-- `SNOWFLAKE_META_MASK`. -/
abbrev snowflakeMetaMask : UInt8 := 0x0A

/-- `SNOWFLAKE`. -/
abbrev snowflake : String := "SNOWF"

/-- `ANAPLAN`. -/
abbrev anaplan : String := "ANAPL"

/-- What a packet holds beside the pointer to the next one. -/
structure PipelineData where
  ccCode : UInt8
  metadata : UInt8
  deriving DecidableEq, Repr

/-- The packets of a source, the two ends of their list and their number. -/
structure DataSource where
  list : Ends
  dsCode : String
  size : UInt32
  capacity : UInt32
  deriving DecidableEq, Repr

/-- `validate_ds_code`. -/
def validateDsCode (dsCode : String) : Outcome UInt8 :=
  if dsCode = snowflake then .ok 0
  else if dsCode = anaplan then .ok 1
  else .error (.exit 1 "Invalid DataSource Code Identifier\n")

/-- `init_datasource`. -/
def initDatasource (code : String) : Outcome DataSource := do
  let _ ← validateDsCode code
  .ok ⟨⟨none, none⟩, code, 0, UInt32.ofNat dsMaxSize⟩

/-- `set_metadata`: the metadata of a packet from the source `dsCode`. -/
def setMetadata (dsCode : UInt8) : Outcome UInt8 :=
  let metadata := defaultMask ||| bit processBit
  if dsCode = 0 then .ok (metadata ||| snowflakeMetaMask)
  else if dsCode = 1 then .ok (metadata ||| anaplanMetaMask)
  else .error (.exit 1 "Invalid DataSource Source Code\n")

/-- `add_data`, with the new packet at `a`. -/
def addData (heap : Heap PipelineData) (ds : DataSource) (ccCode : UInt8)
    (handleMetadata : UInt8 → Outcome UInt8) (a : ℕ) : Outcome (Heap PipelineData × DataSource) :=
  if ds.capacity < ds.size + 1 then .error (.exit 1 "Max Data Packet Capacity Reached\n")
  else do
    let dsMetaSource ← validateDsCode ds.dsCode
    let metadata ← handleMetadata dsMetaSource
    let (heap, list) ← insertLast (heap.alloc a ⟨ccCode, metadata⟩) ds.list a
    .ok (heap, { ds with list := list, size := ds.size + 1 })

/-- A packet with its ready bit set. -/
def PipelineData.ready (data : PipelineData) : PipelineData :=
  { data with metadata := data.metadata ||| bit reconciliationReadyBit }

/-- The locked section of the second loop of `extract_and_process`. -/
def markSection (heap : Heap PipelineData) (current : ℕ) : Outcome (Heap PipelineData) := do
  let node ← heap.load (some current)
  heap.store (some current) { node with value := node.value.ready }

/-- The source that `print_ds_data` prints for a packet. -/
def printedSource (data : PipelineData) : String :=
  if data.metadata &&& bit sourceBit = 0 then snowflake else anaplan

/-- What `process_reconciliation` writes when the sizes differ. -/
def sizesDiffer (c1 c2 : DataSource) : String :=
  s!"Reconciliate Failed. {c1.dsCode} size = {c1.size} while {c2.dsCode} size = {c2.size}\n"

/-! ### The threads -/

/-- Where an extractor stands: before the size check, before the pass `i` of its first
loop, at the test of its second loop, before the read of `next`, or at the end. -/
inductive Extractor
  | start
  | fill (i : ℕ)
  | mark (current : Option ℕ)
  | advance (current : ℕ)
  | finished
  deriving DecidableEq, Repr

/-- Where `start_reconciliation` stands: before the test of its loop, asleep, in
`print_ds_data` of a source (before the read of `head`, before the header, at the test of
the loop), or at the end. -/
inductive Reconciler
  | ready
  | asleep
  | enter (k : Fin 2)
  | header (k : Fin 2) (current : ℕ)
  | line (k : Fin 2) (current : Option ℕ)
  | finished
  deriving DecidableEq, Repr

/-- Where `process_reconciliation` stands. -/
inductive Process
  | ready
  | asleep
  | finished
  deriving DecidableEq, Repr

/-- A broadcast on `ready`. -/
def Reconciler.woken : Reconciler → Reconciler
  | .asleep => .ready
  | k => k

/-- A broadcast on `process_status`. -/
def Process.woken : Process → Process
  | .asleep => .ready
  | k => k

/-- What `start_reconciliation` does after the source `k`. -/
def Reconciler.after : Fin 2 → Reconciler
  | 0 => .enter (Fin.last 1)
  | 1 => .finished

/-- The shared state and the positions of the threads; `stopped` is set once a thread
has ended the process. -/
structure World where
  heap : Heap PipelineData
  sources : Fin 2 → DataSource
  reconciliateState : UInt8
  processReco : UInt8
  extractors : Fin 2 → Extractor
  reconciliation : Reconciler
  process : Process
  stopped : Option Stop

/-- The steps of the threads. A printed line names the code of the packet and its source. -/
inductive Event
  | begin (k : Fin 2)
  | add (k : Fin 2)
  | scan (k : Fin 2)
  | mark (k : Fin 2)
  | advance (k : Fin 2)
  | announce (k : Fin 2)
  | sleepReady
  | leave
  | skip (k : Fin 2)
  | enter (k : Fin 2)
  | header (k : Fin 2)
  | line (k : Fin 2) (ccCode : UInt8) (source : String)
  | count (k : Fin 2)
  | sleepStatus
  | reconciled
  | exit
  | spuriousReady
  | spuriousStatus
  deriving DecidableEq, Repr

/-- The sleepers that nobody woke. -/
def Event.spurious : Event → Bool
  | .spuriousReady => true
  | .spuriousStatus => true
  | _ => false

variable {q : Fin 2 → UInt8} {world world' : World} {e : Event} {k : Fin 2}

/-- One step of the program, in which the source `k` is to get `q k` packets. -/
inductive Step (q : Fin 2 → UInt8) : World → Event → World → Prop
  | beginStop {world : World} {k : Fin 2} :
      world.extractors k = .start → dsMaxSize < (q k).toNat →
      Step q world .exit
        { world with
          stopped := some (.exit 1
            "The size of the data to extract is greater than the max capacity\n") }
  | begin {world : World} {k : Fin 2} :
      world.extractors k = .start → (q k).toNat ≤ dsMaxSize →
      Step q world (.begin k)
        { world with extractors := Function.update world.extractors k (.fill 0) }
  | add {world : World} {k : Fin 2} {i a : ℕ} {heap : Heap PipelineData} {ds : DataSource} :
      world.extractors k = .fill i → i < (q k).toNat → world.heap a = none →
      addData world.heap (world.sources k) (UInt8.ofNat i) setMetadata a = .ok (heap, ds) →
      Step q world (.add k)
        { world with
          heap := heap, sources := Function.update world.sources k ds
          extractors := Function.update world.extractors k (.fill (i + 1)) }
  | addStop {world : World} {k : Fin 2} {i a : ℕ} {stop : Stop} :
      world.extractors k = .fill i → i < (q k).toNat → world.heap a = none →
      addData world.heap (world.sources k) (UInt8.ofNat i) setMetadata a = .error stop →
      Step q world .exit { world with stopped := some stop }
  -- the read of `head`, outside the lock
  | scan {world : World} {k : Fin 2} {i : ℕ} :
      world.extractors k = .fill i → (q k).toNat ≤ i →
      Step q world (.scan k)
        { world with
          extractors := Function.update world.extractors k (.mark (world.sources k).list.head) }
  | mark {world : World} {k : Fin 2} {current : ℕ} {heap : Heap PipelineData} :
      world.extractors k = .mark (some current) → markSection world.heap current = .ok heap →
      Step q world (.mark k)
        { world with
          heap := heap, extractors := Function.update world.extractors k (.advance current) }
  -- the read of `next`, after the unlock
  | advance {world : World} {k : Fin 2} {current : ℕ} {node : Node PipelineData} :
      world.extractors k = .advance current → world.heap.load (some current) = .ok node →
      Step q world (.advance k)
        { world with extractors := Function.update world.extractors k (.mark node.next) }
  -- the broadcast goes out for the second source only
  | announce {world : World} {k : Fin 2} :
      world.extractors k = .mark none →
      Step q world (.announce k)
        { world with
          reconciliateState := world.reconciliateState + 1
          reconciliation :=
            if world.reconciliateState + 1 = 2 then world.reconciliation.woken
            else world.reconciliation
          extractors := Function.update world.extractors k .finished }
  | sleepReady {world : World} :
      world.reconciliation = .ready → world.reconciliateState ≠ 2 →
      Step q world .sleepReady { world with reconciliation := .asleep }
  | leave {world : World} :
      world.reconciliation = .ready → world.reconciliateState = 2 →
      Step q world .leave { world with reconciliation := .enter 0 }
  -- an empty source is neither printed nor counted
  | skip {world : World} {k : Fin 2} :
      world.reconciliation = .enter k → (world.sources k).list.head = none →
      Step q world (.skip k) { world with reconciliation := .after k }
  | enter {world : World} {k : Fin 2} {current : ℕ} :
      world.reconciliation = .enter k → (world.sources k).list.head = some current →
      Step q world (.enter k) { world with reconciliation := .header k current }
  | header {world : World} {k : Fin 2} {current : ℕ} :
      world.reconciliation = .header k current →
      Step q world (.header k) { world with reconciliation := .line k (some current) }
  | line {world : World} {k : Fin 2} {current : ℕ} {node : Node PipelineData} :
      world.reconciliation = .line k (some current) →
      world.heap.load (some current) = .ok node →
      Step q world (.line k node.value.ccCode (printedSource node.value))
        { world with reconciliation := .line k node.next }
  | count {world : World} {k : Fin 2} :
      world.reconciliation = .line k none →
      Step q world (.count k)
        { world with
          processReco := world.processReco + 1
          process := if world.processReco + 1 = 2 then world.process.woken else world.process
          reconciliation := .after k }
  | sleepStatus {world : World} :
      world.process = .ready → world.processReco ≠ 2 →
      Step q world .sleepStatus { world with process := .asleep }
  | reconciled {world : World} :
      world.process = .ready → world.processReco = 2 →
      (world.sources 0).size = (world.sources 1).size →
      Step q world .reconciled { world with process := .finished }
  -- different sizes end the process inside the section
  | differ {world : World} :
      world.process = .ready → world.processReco = 2 →
      (world.sources 0).size ≠ (world.sources 1).size →
      Step q world .exit
        { world with
          stopped := some (.exit 1 (sizesDiffer (world.sources 0) (world.sources 1))) }
  | spuriousReady {world : World} :
      world.reconciliation = .asleep →
      Step q world .spuriousReady { world with reconciliation := .ready }
  | spuriousStatus {world : World} :
      world.process = .asleep →
      Step q world .spuriousStatus { world with process := .ready }

/-- The world that `main` starts its threads in. -/
def World.initial (snow ana : DataSource) : World :=
  ⟨fun _ => none, ![snow, ana], 0, 0, fun _ => .start, .ready, .ready, none⟩

/-- The four threads of `main`, until one of them ends the process. -/
def system (q : Fin 2 → UInt8) : System World Event where
  start world := ∃ snow ana, initDatasource snowflake = .ok snow ∧
    initDatasource anaplan = .ok ana ∧ world = World.initial snow ana
  step world e world' := world.stopped = none ∧ Step q world e world'

end BareMetal.Reconciliation
