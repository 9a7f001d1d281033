import BareMetal.CS.Block
import BareMetal.CS.LinkedList
import BareMetal.CS.Tally
import BareMetal.CS.Text
import BareMetal.CS.Transition
import Mathlib.Data.Fin.VecNotation
import Mathlib.Data.List.FinRange

/-!
# The view queues of `pthread/prod_cons.c`

Producers check the name of a view and append it to one of `VIEWS_COUNT` lists,
the one its hash names; consumers take the first view of the first list that is
not empty. One semaphore counts the views: a producer posts it after its locked
section, a consumer waits on it before its own.

`add_view` makes its node before it takes the lock. Nobody else can reach the node
until it is linked, so making it belongs to the step of the locked section.

## Main results

* `token_finds_view` — a consumer with a token removes the first view of some
  list, and every list is consumed in the order in which it was filled
* `addView_returns` — an ASCII name is rejected or inserted
-/

namespace BareMetal.ProdCons

open CS Transition LinkedList

/-- `VIEWS_COUNT`. -/
abbrev viewsCount : ℕ := 4

/-- A C string without its terminator: `char` is signed. -/
abbrev View := List Int8

/-- The `char`s of a literal. -/
def literal (text : String) : View := text.toList.map fun c => Int8.ofNat c.toNat

/-- `DB_VIEWS`. -/
def dbViews : Block viewsCount View :=
  ![literal "users_view", literal "orders_view", literal "inventory_view", literal "logs_view"]

/-- The ends of the lists, and the number of views in them. -/
structure Processor where
  list : Block viewsCount Ends
  size : UInt8

/-- `init_processor`. -/
def initProcessor : Processor := ⟨fun _ => ⟨none, none⟩, 0⟩

/-- `hash_function`: the remainder of an `int` has the sign of its dividend. -/
def hashFunction (key : View) : UInt8 :=
  UInt8.ofInt (key.foldl (fun hash c => (hash + c.toInt).tmod viewsCount) 0)

/-- `verify_view`: the view under the hash, then all of them. -/
def verifyView (key : View) : Outcome Bool := do
  let view ← dbViews.load (hashFunction key).toNat
  if key = view then .ok true
  else .ok ((List.finRange viewsCount).any fun i => decide (key = dbViews i))

/-- The locked section of `add_view`, on a node made at `a`. -/
def insertSection (heap : Heap View) (processor : Processor) (viewName : View) (a : ℕ) :
    Outcome (Heap View × Processor) := do
  let listIdx := hashFunction viewName
  -- a hash outside `VIEWS_COUNT` stops here
  let list ← processor.list.load listIdx.toNat
  let (heap, list) ← insertLast (heap.alloc a viewName) list a
  let lists ← processor.list.store listIdx.toNat list
  .ok (heap, ⟨lists, processor.size + 1⟩)

/-- `add_view` up to `sem_post`; `none` when the name is rejected. -/
def addView (heap : Heap View) (processor : Processor) (viewName : View)
    (verify : View → Outcome Bool) (a : ℕ) : Outcome (Option (Heap View × Processor)) := do
  if ← verify viewName then
    let inserted ← insertSection heap processor viewName a
    .ok (some inserted)
  else .ok none

/-- The loop of `consume_any` over the lists `indices`, with the node that was freed. -/
def consumeFrom (heap : Heap View) (processor : Processor) :
    List (Fin viewsCount) →
      Outcome (Heap View × Processor × Option (Fin viewsCount × ℕ × View))
  | [] => .ok (heap, processor, none)
  | i :: indices =>
    match (processor.list i).head with
    | none => consumeFrom heap processor indices
    | some a => do
      let current ← heap.load (some a)
      -- the list that has lost its last node loses its tail
      let tail := if current.next = none then none else (processor.list i).tail
      .ok (heap.free a,
        ⟨Function.update processor.list i ⟨current.next, tail⟩, processor.size - 1⟩,
        some (i, a, current.value))

/-- `consume_any`. -/
def consumeAny (heap : Heap View) (processor : Processor) :
    Outcome (Heap View × Processor × Option (Fin viewsCount × ℕ × View)) :=
  consumeFrom heap processor (List.finRange viewsCount)

/-! ### ASCII names -/

/-- All characters are positive, as those of ASCII text are. -/
def IsAscii (key : View) : Prop := ∀ c ∈ key, 0 < c

/-- A hash that starts below `VIEWS_COUNT` stays there. -/
theorem hash_bounds {key : View} (h : IsAscii key) {hash : ℤ} (hhash : 0 ≤ hash)
    (hlt : hash < viewsCount) :
    0 ≤ key.foldl (fun hash c => (hash + c.toInt).tmod viewsCount) hash ∧
      key.foldl (fun hash c => (hash + c.toInt).tmod viewsCount) hash < viewsCount := by
  induction key generalizing hash with
  | nil => exact ⟨hhash, hlt⟩
  | cons c key ih =>
    have hc : 0 < c.toInt := Int8.lt_iff_toInt_lt.mp (h c (List.mem_cons_self ..))
    apply ih fun d hd => h d (List.mem_cons_of_mem _ hd)
    · exact Int.tmod_nonneg _ (by omega)
    · exact Int.tmod_lt_of_pos _ (by decide)

theorem hashFunction_lt {key : View} (h : IsAscii key) : (hashFunction key).toNat < viewsCount := by
  obtain ⟨hnonneg, hlt⟩ := hash_bounds h le_rfl (by decide)
  unfold hashFunction
  generalize key.foldl (fun hash c => (hash + c.toInt).tmod viewsCount) 0 = hash at hnonneg hlt ⊢
  have hfour : ((viewsCount : ℕ) : ℤ) = 4 := rfl
  rw [toNat_ofInt_of_lt hnonneg (by omega)]
  omega

/-! ### The locked sections on lists of views -/

variable {heap heap' : Heap View} {processor processor' : Processor} {viewName : View} {a : ℕ}
  {nodes : Fin viewsCount → List (ℕ × View)} {i : Fin viewsCount}

theorem insertSection_eq (h : Lists heap processor.list nodes) (ha : heap a = none)
    (hi : (hashFunction viewName).toNat = i) :
    ∃ heap' list, insertSection heap processor viewName a =
        .ok (heap', ⟨Function.update processor.list i list, processor.size + 1⟩) ∧
      Lists heap' (Function.update processor.list i list)
        (Function.update nodes i (nodes i ++ [(a, viewName)])) := by
  obtain ⟨heap', list, hinsert, hlists⟩ := h.insertLast i ha viewName
  refine ⟨heap', list, ?_, hlists⟩
  simp only [insertSection, hi, Block.load_natCast, Block.store_natCast, Outcome.ok_bind, hinsert]

/-- An ASCII name is rejected, or its node is inserted. -/
theorem addView_returns (h : Lists heap processor.list nodes) (ha : heap a = none)
    (hname : IsAscii viewName) :
    addView heap processor viewName verifyView a = .ok none ∨
      ∃ heap' processor', addView heap processor viewName verifyView a =
        .ok (some (heap', processor')) := by
  have hlt := hashFunction_lt hname
  obtain ⟨accepted, hverify⟩ : ∃ accepted, verifyView viewName = .ok accepted := by
    have hload := Block.load_natCast dbViews ⟨(hashFunction viewName).toNat, hlt⟩
    rw [verifyView, hload, Outcome.ok_bind]
    split_ifs <;> exact ⟨_, rfl⟩
  obtain ⟨heap', list, hinsert, -⟩ :=
    insertSection_eq (i := ⟨(hashFunction viewName).toNat, hlt⟩) h ha rfl
  cases accepted with
  | false =>
    left
    simp [addView, hverify]
  | true =>
    right
    exact ⟨heap', _, by simp [addView, hverify, hinsert]; rfl⟩

/-- A name that was not rejected went through the locked section. -/
theorem insertSection_of_addView {verify : View → Outcome Bool} {inserted : Heap View × Processor}
    (hcall : addView heap processor viewName verify a = .ok (some inserted)) :
    insertSection heap processor viewName a = .ok inserted := by
  obtain ⟨accepted, -, hcall⟩ := Outcome.bind_eq_ok.mp hcall
  cases accepted with
  | false => simp at hcall
  | true =>
    obtain ⟨result, hinsert, hresult⟩ := Outcome.bind_eq_ok.mp hcall
    cases hresult
    exact hinsert

/-- The loop passes by the empty lists and stops at the first list with a node. -/
theorem consumeFrom_eq (h : Lists heap processor.list nodes) {indices : List (Fin viewsCount)}
    (hnodes : ∃ i ∈ indices, nodes i ≠ []) :
    ∃ i a view rest list, nodes i = (a, view) :: rest ∧
      consumeFrom heap processor indices =
        .ok (heap.free a, ⟨Function.update processor.list i list, processor.size - 1⟩,
          some (i, a, view)) ∧
      Lists (heap.free a) (Function.update processor.list i list)
        (Function.update nodes i rest) := by
  induction indices with
  | nil =>
    obtain ⟨i, hmem, -⟩ := hnodes
    cases hmem
  | cons j indices ih =>
    cases hj : nodes j with
    | nil =>
      -- the loop goes on, and the node is further behind
      have hhead : (processor.list j).head = none := (h.holds j).head_eq.trans (by rw [hj]; rfl)
      obtain ⟨i, hmem, hi⟩ := hnodes
      have hmem' : i ∈ indices := by
        rcases List.mem_cons.mp hmem with rfl | hmem'
        · exact absurd hj hi
        · exact hmem'
      obtain ⟨k, a, view, rest, list, hk, hok, hlists⟩ := ih ⟨i, hmem', hi⟩
      refine ⟨k, a, view, rest, list, hk, ?_, hlists⟩
      simp only [consumeFrom, hhead, hok]
    | cons node rest =>
      obtain ⟨a, view⟩ := node
      obtain ⟨hhead, hcell, hlists⟩ := h.removeFirst hj
      refine ⟨j, a, view, rest, _, hj, ?_, hlists⟩
      simp only [consumeFrom, hhead, Heap.load_some hcell, Outcome.ok_bind]

theorem consumeAny_eq (h : Lists heap processor.list nodes) (hnodes : ∃ i, nodes i ≠ []) :
    ∃ i a view rest list, nodes i = (a, view) :: rest ∧
      consumeAny heap processor =
        .ok (heap.free a, ⟨Function.update processor.list i list, processor.size - 1⟩,
          some (i, a, view)) ∧
      Lists (heap.free a) (Function.update processor.list i list)
        (Function.update nodes i rest) := by
  obtain ⟨i, hi⟩ := hnodes
  exact consumeFrom_eq h ⟨i, List.mem_finRange i, hi⟩

/-! ### The interleavings -/

/-- Where a producer stands: before its section, before `sem_post`, or at the end. -/
inductive Producer
  | start
  | post
  | finished
  deriving DecidableEq, Repr

/-- Where a consumer stands: before `sem_wait`, before its section, or at the end. -/
inductive Consumer
  | start
  | take
  | finished
  deriving DecidableEq, Repr

/-- The shared state and the positions of the threads. -/
structure World (producerCount consumerCount : ℕ) where
  heap : Heap View
  processor : Processor
  itemsInQueue : ℕ
  producers : Fin producerCount → Producer
  consumers : Fin consumerCount → Consumer

/-- The steps of the threads. An insertion names the list and the node, a
consumption what was taken. -/
inductive Event (producerCount consumerCount : ℕ)
  | reject (p : Fin producerCount)
  | insert (p : Fin producerCount) (i : Fin viewsCount) (node : ℕ × View)
  | post (p : Fin producerCount)
  | wait (c : Fin consumerCount)
  | consume (c : Fin consumerCount) (taken : Option (Fin viewsCount × ℕ × View))
  deriving DecidableEq, Repr

variable {producerCount consumerCount : ℕ}

/-- One step of the program, in which the producer `p` was given the name `names p`. -/
inductive Step (names : Fin producerCount → View) : World producerCount consumerCount →
    Event producerCount consumerCount → World producerCount consumerCount → Prop
  | reject {world : World producerCount consumerCount} {p : Fin producerCount} {a : ℕ} :
      world.producers p = .start →
      addView world.heap world.processor (names p) verifyView a = .ok none →
      Step names world (.reject p)
        { world with producers := Function.update world.producers p .finished }
  | insert {world : World producerCount consumerCount} {p : Fin producerCount}
      {i : Fin viewsCount} {a : ℕ} {heap : Heap View} {processor : Processor} :
      world.producers p = .start → world.heap a = none →
      (hashFunction (names p)).toNat = i →
      addView world.heap world.processor (names p) verifyView a = .ok (some (heap, processor)) →
      Step names world (.insert p i (a, names p))
        { world with
          heap := heap, processor := processor
          producers := Function.update world.producers p .post }
  -- the lock is released by now: a consumer may take the node before it is posted
  | post {world : World producerCount consumerCount} {p : Fin producerCount} :
      world.producers p = .post →
      Step names world (.post p)
        { world with
          itemsInQueue := world.itemsInQueue + 1
          producers := Function.update world.producers p .finished }
  | wait {world : World producerCount consumerCount} {c : Fin consumerCount} {items : ℕ} :
      world.consumers c = .start → world.itemsInQueue = items + 1 →
      Step names world (.wait c)
        { world with
          itemsInQueue := items, consumers := Function.update world.consumers c .take }
  | consume {world : World producerCount consumerCount} {c : Fin consumerCount}
      {heap : Heap View} {processor : Processor} {taken : Option (Fin viewsCount × ℕ × View)} :
      world.consumers c = .take →
      consumeAny world.heap world.processor = .ok (heap, processor, taken) →
      Step names world (.consume c taken)
        { world with
          heap := heap, processor := processor
          consumers := Function.update world.consumers c .finished }

/-- The threads of `main`, for any number of producers and consumers. -/
def system (names : Fin producerCount → View) (consumerCount : ℕ) :
    System (World producerCount consumerCount) (Event producerCount consumerCount) where
  start world := world = ⟨fun _ => none, initProcessor, 0, fun _ => .start, fun _ => .start⟩
  step := Step names

/-- The nodes inserted into the list `i`, in their order. -/
def inserts (i : Fin viewsCount) (es : List (Event producerCount consumerCount)) :
    List (ℕ × View) :=
  es.filterMap fun
    | .insert _ j node => if j = i then some node else none
    | _ => none

/-- The nodes consumed from the list `i`, in their order. -/
def consumes (i : Fin viewsCount) (es : List (Event producerCount consumerCount)) :
    List (ℕ × View) :=
  es.filterMap fun
    | .consume _ (some (j, node)) => if j = i then some node else none
    | _ => none

/-- The nodes that wait in the lists. -/
def queued (nodes : Fin viewsCount → List (ℕ × View)) : ℕ := ∑ i, (nodes i).length

/-! ### Tokens and nodes -/

variable {names : Fin producerCount → View} {world world' : World producerCount consumerCount}
  {es : List (Event producerCount consumerCount)} {e : Event producerCount consumerCount}
  {trace : Trace (World producerCount consumerCount) (Event producerCount consumerCount)}
  {p : Fin producerCount} {c : Fin consumerCount}

/-- A producer has inserted a node and not posted it. -/
def Producer.posting : Producer → ℕ
  | .post => 1
  | _ => 0

/-- A consumer holds a token for the node it is about to take. -/
def Consumer.taking : Consumer → ℕ
  | .take => 1
  | _ => 0

/-- Every queued node is posted, about to be posted, or about to be taken. -/
structure Balanced (world : World producerCount consumerCount)
    (nodes : Fin viewsCount → List (ℕ × View)) : Prop where
  lists : Lists world.heap world.processor.list nodes
  size_eq : world.processor.size = UInt8.ofNat (queued nodes)
  tokens : queued nodes = world.itemsInQueue + tally (fun _ => Producer.posting) world.producers +
    tally (fun _ => Consumer.taking) world.consumers

/-- What the lists hold after the events `es`. -/
def Stored (es : List (Event producerCount consumerCount))
    (world : World producerCount consumerCount) : Prop :=
  ∃ nodes, (∀ i, inserts i es = consumes i es ++ nodes i) ∧ Balanced world nodes

theorem inserts_concat (es : List (Event producerCount consumerCount))
    (e : Event producerCount consumerCount) :
    inserts i (es ++ [e]) = inserts i es ++ inserts i [e] :=
  List.filterMap_append

theorem consumes_concat (es : List (Event producerCount consumerCount))
    (e : Event producerCount consumerCount) :
    consumes i (es ++ [e]) = consumes i es ++ consumes i [e] :=
  List.filterMap_append

/-- One list more or less long. -/
theorem queued_update (nodes : Fin viewsCount → List (ℕ × View)) (i : Fin viewsCount)
    (list : List (ℕ × View)) :
    queued (Function.update nodes i list) + (nodes i).length = queued nodes + list.length :=
  tally_move (fun _ => List.length) rfl list

theorem exists_ne_nil (h : 0 < queued nodes) : ∃ i, nodes i ≠ [] := by
  obtain ⟨i, hi⟩ : ∃ i, 0 < (nodes i).length := exists_pos_of_tally_pos h
  exact ⟨i, List.ne_nil_of_length_pos hi⟩

/-- A consumer that holds a token finds a node. -/
theorem Balanced.exists_node (h : Balanced world nodes) (hc : world.consumers c = .take) :
    ∃ i, nodes i ≠ [] := by
  have htaking := le_tally (fun _ => Consumer.taking) world.consumers c
  have htokens := h.tokens
  simp only [hc, Consumer.taking] at htaking
  apply exists_ne_nil
  omega

/-- A step that touches no list keeps what they hold, if it keeps the tokens. -/
theorem Stored.keep (h : Stored es world) (hinserts : ∀ i, inserts i [e] = [])
    (hconsumes : ∀ i, consumes i [e] = []) (hheap : world'.heap = world.heap)
    (hprocessor : world'.processor = world.processor)
    (htokens : world'.itemsInQueue + tally (fun _ => Producer.posting) world'.producers +
        tally (fun _ => Consumer.taking) world'.consumers =
      world.itemsInQueue + tally (fun _ => Producer.posting) world.producers +
        tally (fun _ => Consumer.taking) world.consumers) :
    Stored (es ++ [e]) world' := by
  obtain ⟨nodes, hsplit, hbal⟩ := h
  refine ⟨nodes, fun i => ?_, ?_, ?_, hbal.tokens.trans htokens.symm⟩
  · rw [inserts_concat, consumes_concat, hinserts, hconsumes, List.append_nil, List.append_nil,
      hsplit]
  · rw [hheap, hprocessor]
    exact hbal.lists
  · rw [hprocessor]
    exact hbal.size_eq

/-- A producer appends a node to the list of its name, and owes a post. -/
theorem Stored.insert {heap' : Heap View} {processor' : Processor} (h : Stored es world)
    (hp : world.producers p = .start) (ha : world.heap a = none)
    (hi : (hashFunction (names p)).toNat = i)
    (hcall : addView world.heap world.processor (names p) verifyView a =
      .ok (some (heap', processor'))) :
    Stored (es ++ [.insert p i (a, names p)])
      { world with
        heap := heap', processor := processor'
        producers := Function.update world.producers p .post } := by
  obtain ⟨nodes, hsplit, hbal⟩ := h
  obtain ⟨heap₁, list, hinsert, hlists⟩ := insertSection_eq hbal.lists ha hi
  cases (insertSection_of_addView hcall).symm.trans hinsert
  have hmove := tally_move (fun _ => Producer.posting) hp .post
  have hqueued := queued_update nodes i (nodes i ++ [(a, names p)])
  have htokens := hbal.tokens
  rw [List.length_append, List.length_singleton] at hqueued
  refine ⟨Function.update nodes i (nodes i ++ [(a, names p)]), fun j => ?_, hlists, ?_, ?_⟩
  · rw [inserts_concat, consumes_concat, hsplit]
    rcases eq_or_ne j i with rfl | hne
    -- only the list of the name has grown
    · simp [inserts, consumes]
    · simp [inserts, consumes, hne, hne.symm]
  · have hsize : queued (Function.update nodes i (nodes i ++ [(a, names p)])) =
        queued nodes + 1 := by omega
    rw [hsize, UInt8.ofNat_add, ← hbal.size_eq]
    rfl
  · simp only [Producer.posting] at hmove ⊢
    omega

/-- A consumer takes the first node of some list, and its token is used up. -/
theorem Stored.consume {heap' : Heap View} {processor' : Processor}
    {taken : Option (Fin viewsCount × ℕ × View)} (h : Stored es world)
    (hc : world.consumers c = .take)
    (hcall : consumeAny world.heap world.processor = .ok (heap', processor', taken)) :
    Stored (es ++ [.consume c taken])
      { world with
        heap := heap', processor := processor'
        consumers := Function.update world.consumers c .finished } := by
  obtain ⟨nodes, hsplit, hbal⟩ := h
  obtain ⟨i, a, view, rest, list, hi, hok, hlists⟩ :=
    consumeAny_eq hbal.lists (hbal.exists_node hc)
  cases hcall.symm.trans hok
  have hmove := tally_move (fun _ => Consumer.taking) hc .finished
  have hqueued := queued_update nodes i rest
  have htokens := hbal.tokens
  rw [hi, List.length_cons] at hqueued
  refine ⟨Function.update nodes i rest, fun j => ?_, hlists, ?_, ?_⟩
  · rw [inserts_concat, consumes_concat, hsplit]
    rcases eq_or_ne j i with rfl | hne
    · simp [inserts, consumes, hi]
    · simp [inserts, consumes, hne, hne.symm]
  · have hsize : queued nodes = queued (Function.update nodes i rest) + 1 := by omega
    rw [hbal.size_eq, hsize, UInt8.ofNat_add]
    exact UInt8.add_sub_cancel _ _
  · simp only [Consumer.taking] at hmove ⊢
    omega

theorem Stored.step (h : Stored es world) (hstep : Step names world e world') :
    Stored (es ++ [e]) world' := by
  cases hstep with
  | reject hp =>
    have hmove := tally_move (fun _ => Producer.posting) hp .finished
    refine h.keep (fun _ => rfl) (fun _ => rfl) rfl rfl ?_
    simp only [Producer.posting] at hmove ⊢
    omega
  | insert hp ha hi hcall => exact h.insert hp ha hi hcall
  | post hp =>
    -- the token passes from the producer to the semaphore
    have hmove := tally_move (fun _ => Producer.posting) hp .finished
    refine h.keep (fun _ => rfl) (fun _ => rfl) rfl rfl ?_
    simp only [Producer.posting] at hmove ⊢
    omega
  | wait hc hitems =>
    -- and from there to the consumer
    have hmove := tally_move (fun _ => Consumer.taking) hc .take
    refine h.keep (fun _ => rfl) (fun _ => rfl) rfl rfl ?_
    simp only [hitems, Consumer.taking] at hmove ⊢
    omega
  | consume hc hcall => exact h.consume hc hcall

theorem stored (hrun : Run (system names consumerCount) trace world) :
    Stored (events trace) world := by
  apply Run.invariant _ (fun _ _ _ _ h hstep => h.step hstep) hrun
  rintro _ rfl
  refine ⟨fun _ => [], fun _ => rfl, lists_nil _, rfl, ?_⟩
  simp [queued, tally, Producer.posting, Consumer.taking]

/-- **A consumer with a token always finds a view.** After every run, for any number of
producers with any names and any number of consumers: the nodes inserted into each list
are those consumed from it, in the same order, followed by those it still holds; `tail`
points to the last of these; `size` is their number modulo `256`; and a consumer that is
about to run `consume_any` removes the first node of exactly one list. -/
theorem token_finds_view (hrun : Run (system names consumerCount) trace world) :
    ∃ nodes : Fin viewsCount → List (ℕ × View),
      Lists world.heap world.processor.list nodes ∧
        (∀ i, inserts i (events trace) = consumes i (events trace) ++ nodes i) ∧
        world.processor.size.toNat = (∑ i, (nodes i).length) % 256 ∧
        ∀ c, world.consumers c = .take →
          ∃ i node rest heap processor, nodes i = node :: rest ∧
            consumeAny world.heap world.processor = .ok (heap, processor, some (i, node)) ∧
            Lists heap processor.list (Function.update nodes i rest) := by
  obtain ⟨nodes, hsplit, hbal⟩ := stored hrun
  refine ⟨nodes, hbal.lists, hsplit, ?_, fun c hc => ?_⟩
  · rw [hbal.size_eq]
    exact UInt8.toNat_ofNat'
  · obtain ⟨i, a, view, rest, list, hi, hok, hlists⟩ :=
      consumeAny_eq hbal.lists (hbal.exists_node hc)
    exact ⟨i, (a, view), rest, _, _, hi, hok, hlists⟩

/-- One producer and one consumer, which is about to take `logs_view`. -/
theorem token_finds_view_logs :
    ∃ (trace : Trace (World 1 1) (Event 1 1)) (world : World 1 1),
      Run (system (fun _ : Fin 1 => literal "logs_view") 1) trace world ∧
        world.consumers 0 = .take ∧
        ∃ i node heap processor,
          consumeAny world.heap world.processor = .ok (heap, processor, some (i, node)) := by
  have hstart : Run (system (fun _ : Fin 1 => literal "logs_view") 1) []
      ⟨fun _ => none, initProcessor, 0, fun _ => .start, fun _ => .start⟩ := .start rfl
  have hinsert := hstart.step
    (@Step.insert 1 1 _ _ 0 3 0 _ _ rfl rfl (by decide) rfl)
  have hpost := hinsert.step (@Step.post 1 1 _ _ 0 rfl)
  have hwait := hpost.step (@Step.wait 1 1 _ _ 0 0 rfl rfl)
  obtain ⟨nodes, -, -, -, htake⟩ := token_finds_view hwait
  obtain ⟨i, node, rest, heap, processor, -, hconsume, -⟩ := htake 0 rfl
  exact ⟨_, _, hwait, rfl, i, node, heap, processor, hconsume⟩

end BareMetal.ProdCons
