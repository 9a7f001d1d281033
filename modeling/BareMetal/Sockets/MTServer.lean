import BareMetal.CS.LinkedList
import BareMetal.CS.Transition

/-!
# The shutdown of `sockets/MT-Server.c`

`main` accepts `QUEUE_SIZE` connections and hands each to a detached thread, which
reads one message and appends it to the log under a lock. After the last accept
`main` calls `shutdown_server`, which prints and frees the log without the lock and
without waiting for the threads.

A call of `accept` or `read` and the locked section of a handler are one step each;
`shutdown_server` takes one step for each message that it prints, for each that it
frees, and for the logger. Every `read` returns at least one byte. When `main`
returns, the process ends and takes the handlers with it.

`log_message` asks `malloc` for as many bytes as the message has, and writes the
terminator behind them. `Malloc n block` says that a call of `malloc(n)` may return a
block of `block` bytes, `none` for a null pointer. C promises `n` bytes and no more.

## Main results

* `served_iff` — with such a `malloc` no run is served in which `main` leaves its loop;
  with larger blocks the log is complete and intact in all of a run exactly when no
  terminator is written behind a block and `main` leaves its loop after the last handler
  has logged
* `exists_dangling` — if `main` leaves its loop before, some order of steps makes a
  handler use the logger after it was freed
-/

namespace BareMetal.MTServer

open CS Transition LinkedList

/-- `BUFFER_SIZE`. -/
abbrev bufferSize : ℕ := 1024

/-- A logged message: what was sent, and by which socket. -/
structure Message where
  msn : List UInt8
  clientSocket : ℕ
  deriving DecidableEq, Repr

/-- The list of messages and the count of its entries. -/
structure ServerLogger where
  list : Ends
  totalConnection : UInt8
  deriving DecidableEq, Repr

/-- `init_server_logger`. -/
def initServerLogger : ServerLogger := ⟨⟨none, none⟩, 0⟩

/-- What `strlen` sees of the bytes in the buffer. -/
def text (bytes : List UInt8) : List UInt8 := bytes.takeWhile (· ≠ 0)

/-- The first half of `log_message`, up to the terminator of the copy: the address of the new
entry, `none` where the message is lost. The entry and the block of the copy are what `malloc`
returned. -/
def copyMessage (message : Message) : Option ℕ → Option ℕ → Outcome (Option ℕ)
  -- `message->msn` is written before the test for a null pointer
  | none, _ => .error (.outOfBounds 0)
  | some _, none => .ok none
  | some a, some bytes =>
    if message.msn.length < bytes then .ok (some a) else .error (.outOfBounds message.msn.length)

/-- The second half of `log_message`, with the new entry at `a`. -/
def linkMessage (heap : Heap Message) (logger : ServerLogger) (message : Message) (a : ℕ) :
    Outcome (Heap Message × ServerLogger) := do
  let (heap, list) ← insertLast (heap.alloc a message) logger.list a
  .ok (heap, ⟨list, logger.totalConnection + 1⟩)

/-! ### The threads -/

/-- Where a handler stands: not yet created, before `read`, before its locked section, or
behind it, with its message in the log or without. -/
inductive Handler
  | unborn
  | reading (socket : ℕ)
  | logging (message : Message)
  | done
  | lost
  deriving DecidableEq, Repr

/-- Where `main` stands: in its loop, in `shutdown_server` before the test or before the
`free` of a message, behind the `free` of the logger, or at the end. -/
inductive Main
  | accepting (connections : ℕ)
  | visit (current : Option ℕ)
  | release (current : ℕ) (next : Option ℕ)
  | returning
  | exited
  deriving DecidableEq, Repr

/-- The heap, the logger until it is freed, and the threads. -/
structure World (queueSize : ℕ) where
  heap : Heap Message
  logger : Option ServerLogger
  main : Main
  handlers : Fin queueSize → Handler

/-- The steps of the threads. -/
inductive Event (queueSize : ℕ)
  | accept (i : Fin queueSize) (socket : ℕ)
  | read (i : Fin queueSize) (message : Message)
  | log (i : Fin queueSize) (message : Message)
  | lose (i : Fin queueSize)
  | overrun (i : Fin queueSize)
  | dangling (i : Fin queueSize)
  | shutdown
  | report (message : Message)
  | release
  | freeLogger
  | exit
  deriving DecidableEq, Repr

variable {queueSize : ℕ}

/-- One step of the program. A handler that writes behind a block or through a null pointer makes
an `overrun`, and one that finds the logger or its last message freed a `dangling` access. -/
inductive Step (Malloc : ℕ → Option ℕ → Prop) :
    World queueSize → Event queueSize → World queueSize → Prop
  | accept {world : World queueSize} {i : Fin queueSize} {socket : ℕ} :
      world.main = .accepting i →
      Step Malloc world (.accept i socket)
        { world with
          main := .accepting (i + 1)
          handlers := Function.update world.handlers i (.reading socket) }
  | read {world : World queueSize} {i : Fin queueSize} {socket : ℕ} {bytes : List UInt8} :
      world.handlers i = .reading socket → bytes ≠ [] → bytes.length ≤ bufferSize - 1 →
      Step Malloc world (.read i ⟨text bytes, socket⟩)
        { world with
          handlers := Function.update world.handlers i (.logging ⟨text bytes, socket⟩) }
  | log {world : World queueSize} {i : Fin queueSize} {message : Message}
      {logger logger' : ServerLogger} {heap : Heap Message} {a : ℕ} {block : Option ℕ} :
      world.handlers i = .logging message → Malloc message.msn.length block →
      world.heap a = none → copyMessage message (some a) block = .ok (some a) →
      world.logger = some logger → linkMessage world.heap logger message a = .ok (heap, logger') →
      Step Malloc world (.log i message)
        { world with
          heap := heap, logger := some logger'
          handlers := Function.update world.handlers i .done }
  -- nothing points to the new entry, and the logger is not looked at
  | lose {world : World queueSize} {i : Fin queueSize} {message : Message} {a : ℕ}
      {block : Option ℕ} :
      world.handlers i = .logging message → Malloc message.msn.length block →
      world.heap a = none → copyMessage message (some a) block = .ok none →
      Step Malloc world (.lose i)
        { world with handlers := Function.update world.handlers i .lost }
  | overrun {world : World queueSize} {i : Fin queueSize} {message : Message}
      {entry block : Option ℕ} {stop : Stop} :
      world.handlers i = .logging message → Malloc message.msn.length block →
      (∀ a, entry = some a → world.heap a = none) →
      copyMessage message entry block = .error stop →
      Step Malloc world (.overrun i)
        { world with handlers := Function.update world.handlers i .lost }
  -- the logger is still there, but its last message has been freed
  | danglingTail {world : World queueSize} {i : Fin queueSize} {message : Message}
      {logger : ServerLogger} {a : ℕ} {block : Option ℕ} {stop : Stop} :
      world.handlers i = .logging message → Malloc message.msn.length block →
      world.heap a = none → copyMessage message (some a) block = .ok (some a) →
      world.logger = some logger → linkMessage world.heap logger message a = .error stop →
      Step Malloc world (.dangling i)
        { world with handlers := Function.update world.handlers i .lost }
  | dangling {world : World queueSize} {i : Fin queueSize} {message : Message} {a : ℕ}
      {block : Option ℕ} :
      world.handlers i = .logging message → Malloc message.msn.length block →
      world.heap a = none → copyMessage message (some a) block = .ok (some a) →
      world.logger = none →
      Step Malloc world (.dangling i)
        { world with handlers := Function.update world.handlers i .lost }
  -- the connections are counted, not the handlers that are done
  | shutdown {world : World queueSize} {connections : ℕ} {logger : ServerLogger} :
      world.main = .accepting connections → queueSize ≤ connections →
      world.logger = some logger →
      Step Malloc world .shutdown { world with main := .visit logger.list.head }
  -- `shutdown_server` takes no lock: handlers may append in between
  | report {world : World queueSize} {a : ℕ} {node : Node Message} :
      world.main = .visit (some a) → world.heap.load (some a) = .ok node →
      Step Malloc world (.report node.value) { world with main := .release a node.next }
  | release {world : World queueSize} {a : ℕ} {next : Option ℕ} :
      world.main = .release a next →
      Step Malloc world .release { world with heap := world.heap.free a, main := .visit next }
  | freeLogger {world : World queueSize} :
      world.main = .visit none →
      Step Malloc world .freeLogger { world with logger := none, main := .returning }
  | exit {world : World queueSize} :
      world.main = .returning → Step Malloc world .exit { world with main := .exited }

/-- The server with `QUEUE_SIZE` clients, until the process ends. -/
def system (Malloc : ℕ → Option ℕ → Prop) (queueSize : ℕ) :
    System (World queueSize) (Event queueSize) where
  start world := world = ⟨fun _ => none, some initServerLogger, .accepting 0, fun _ => .unborn⟩
  step world e world' := world.main ≠ .exited ∧ Step Malloc world e world'

/-- The messages that the client `i` sent. -/
def received (i : Fin queueSize) (es : List (Event queueSize)) : List Message :=
  es.filterMap fun
    | .read j message => if j = i then some message else none
    | _ => none

/-- The messages that were logged for the client `i`. -/
def logged (i : Fin queueSize) (es : List (Event queueSize)) : List Message :=
  es.filterMap fun
    | .log j message => if j = i then some message else none
    | _ => none

/-- All messages that were logged, in their order. -/
def logs (es : List (Event queueSize)) : List Message :=
  es.filterMap fun
    | .log _ message => some message
    | _ => none

/-- All messages that `shutdown_server` has printed, in their order. -/
def reports (es : List (Event queueSize)) : List Message :=
  es.filterMap fun
    | .report message => some message
    | _ => none

/-- `main` has left its loop. -/
def Main.closing : Main → Bool
  | .accepting _ => false
  | _ => true

/-- `main` is done with the log. -/
def Main.closed : Main → Bool
  | .returning => true
  | .exited => true
  | _ => false

/-- Every client's message is logged before the log is walked; when the logger is freed,
what was logged has been printed, once and in order; and nobody writes behind a block or uses
freed memory. -/
structure Served (es : List (Event queueSize)) (world : World queueSize) : Prop where
  appended : world.main.closing = true →
    ∀ i, ∃ message, received i es = [message] ∧ logged i es = [message]
  reported : world.main.closed = true → reports es = logs es
  not_overrun : ∀ i, .overrun i ∉ es
  not_dangling : ∀ i, .dangling i ∉ es

/-! ### Runs in which `main` waits -/

variable {Malloc : ℕ → Option ℕ → Prop} {world world' : World queueSize}
  {es : List (Event queueSize)} {e : Event queueSize}
  {trace : Trace (World queueSize) (Event queueSize)} {i : Fin queueSize} {pos : Handler}

/-- Every handler has left its locked section, with its message in the log. -/
def World.AllDone (world : World queueSize) : Prop := ∀ i, world.handlers i = .done

/-- What a handler has done so far. -/
def Tracks (es : List (Event queueSize)) (i : Fin queueSize) : Handler → Prop
  | .unborn => received i es = [] ∧ logged i es = []
  | .reading _ => received i es = [] ∧ logged i es = []
  | .logging message => received i es = [message] ∧ logged i es = []
  | .done => ∃ message, received i es = [message] ∧ logged i es = [message]
  | .lost => ∃ message, received i es = [message] ∧ logged i es = []

/-- What the log holds, and how much of it is printed. -/
def Walks (es : List (Event queueSize)) (world : World queueSize) : Main → Prop
  | .accepting connections =>
    (∀ i, world.handlers i = .unborn ↔ connections ≤ i) ∧ reports es = [] ∧
      ∃ logger nodes, world.logger = some logger ∧ Holds world.heap logger.list nodes ∧
        logs es = nodes.map Prod.snd
  | .visit current =>
    world.AllDone ∧ ∃ ends rest, current = ends.head ∧ Holds world.heap ends rest ∧
      logs es = reports es ++ rest.map Prod.snd
  | .release current next =>
    world.AllDone ∧ ∃ ends message rest, next = first rest ∧
      Holds world.heap ends ((current, message) :: rest) ∧
      logs es = reports es ++ rest.map Prod.snd
  | .returning => world.AllDone ∧ reports es = logs es
  | .exited => world.AllDone ∧ reports es = logs es

/-- The log and the handlers, as long as `main` waits for them. -/
structure Waits (es : List (Event queueSize)) (world : World queueSize) : Prop where
  tracks : ∀ i, Tracks es i (world.handlers i)
  walks : Walks es world world.main
  not_dangling : ∀ i, .dangling i ∉ es

theorem received_concat (i : Fin queueSize) (es : List (Event queueSize)) (e : Event queueSize) :
    received i (es ++ [e]) = received i es ++ received i [e] :=
  List.filterMap_append

theorem logged_concat (i : Fin queueSize) (es : List (Event queueSize)) (e : Event queueSize) :
    logged i (es ++ [e]) = logged i es ++ logged i [e] :=
  List.filterMap_append

theorem logs_concat (es : List (Event queueSize)) (e : Event queueSize) :
    logs (es ++ [e]) = logs es ++ logs [e] :=
  List.filterMap_append

theorem reports_concat (es : List (Event queueSize)) (e : Event queueSize) :
    reports (es ++ [e]) = reports es ++ reports [e] :=
  List.filterMap_append

/-- An event that is not of the handler `i` changes nothing for it. -/
theorem Tracks.keep (h : Tracks es i pos) (hreceived : received i [e] = [])
    (hlogged : logged i [e] = []) : Tracks (es ++ [e]) i pos := by
  have hsame : received i (es ++ [e]) = received i es ∧ logged i (es ++ [e]) = logged i es := by
    rw [received_concat, logged_concat, hreceived, hlogged, List.append_nil, List.append_nil]
    exact ⟨rfl, rfl⟩
  cases pos <;> simpa only [Tracks, hsame.1, hsame.2] using h

/-- The handler `i` moves with the event `e`, which says nothing of the others. -/
theorem tracks_move {handlers : Fin queueSize → Handler} (h : ∀ j, Tracks es j (handlers j))
    (hother : ∀ j, j ≠ i → received j [e] = [] ∧ logged j [e] = [])
    (hi : Tracks (es ++ [e]) i pos) :
    ∀ j, Tracks (es ++ [e]) j (Function.update handlers i pos j) := by
  apply (Function.forall_update_iff handlers fun j pos => Tracks (es ++ [e]) j pos).mpr
  exact ⟨hi, fun j hj => (h j).keep (hother j hj).1 (hother j hj).2⟩

/-- A handler that has not logged yet is at work only while `main` accepts. -/
theorem Waits.accepting (h : Waits es world) (hi : world.handlers i = pos) (hpos : pos ≠ .done) :
    ∃ connections, world.main = .accepting connections := by
  have hwalks := h.walks
  cases hmain : world.main with
  | accepting connections => exact ⟨connections, rfl⟩
  | _ =>
    rw [hmain] at hwalks
    exact absurd (hi.symm.trans (hwalks.1 i)) hpos

/-- While `main` accepts, the locked section of a handler appends to an intact log. -/
theorem Waits.linkMessage_eq {connections a : ℕ} {logger : ServerLogger} (h : Waits es world)
    (hmain : world.main = .accepting connections) (hlogger : world.logger = some logger)
    (ha : world.heap a = none) (message : Message) :
    ∃ heap' logger' nodes', linkMessage world.heap logger message a = .ok (heap', logger') ∧
      Holds heap' logger'.list nodes' ∧ logs es ++ [message] = nodes'.map Prod.snd := by
  have hwalks := h.walks
  rw [hmain] at hwalks
  obtain ⟨-, -, logger₁, nodes, hlogger₁, hholds, hlogs⟩ := hwalks
  cases hlogger.symm.trans hlogger₁
  obtain ⟨heap', list, hinsert, hholds', -⟩ := hholds.insertLast ha message
  refine ⟨heap', ⟨list, logger.totalConnection + 1⟩, _, ?_, hholds', ?_⟩
  · rw [linkMessage, hinsert, Outcome.ok_bind]
  · rw [hlogs, List.map_append]
    rfl

/-- A step that neither logs nor prints. -/
theorem logs_reports_keep (es : List (Event queueSize)) (e : Event queueSize)
    (hlogs : logs [e] = []) (hreports : reports [e] = []) :
    logs (es ++ [e]) = logs es ∧ reports (es ++ [e]) = reports es := by
  rw [logs_concat, reports_concat, hlogs, hreports, List.append_nil, List.append_nil]
  exact ⟨rfl, rfl⟩

/-- A thread that exists moves on. -/
theorem unborn_move {handlers : Fin queueSize → Handler} {connections : ℕ} {pos' : Handler}
    (hunborn : ∀ j, handlers j = .unborn ↔ connections ≤ j) (hi : handlers i = pos)
    (hpos : pos ≠ .unborn) (hpos' : pos' ≠ .unborn) (j : Fin queueSize) :
    Function.update handlers i pos' j = .unborn ↔ connections ≤ j := by
  rcases eq_or_ne j i with rfl | hne
  · rw [Function.update_self, ← hunborn j, hi]
    exact iff_of_false hpos' hpos
  · rw [Function.update_of_ne hne]
    exact hunborn j

theorem not_dangling_concat (h : ∀ i, .dangling i ∉ es) (hne : ∀ i, e ≠ .dangling i) :
    ∀ i, .dangling i ∉ es ++ [e] := by
  intro i hmem
  rcases List.mem_append.mp hmem with hold | hnew
  · exact h i hold
  · exact hne i (List.mem_singleton.mp hnew).symm

theorem Waits.accept {socket : ℕ} (h : Waits es world) (hmain : world.main = .accepting i) :
    Waits (es ++ [.accept i socket])
      { world with
        main := .accepting (i + 1)
        handlers := Function.update world.handlers i (.reading socket) } := by
  have hwalks := h.walks
  rw [hmain] at hwalks
  obtain ⟨hunborn, hreports, logger, nodes, hlogger, hholds, hlogs⟩ := hwalks
  -- the thread does not exist yet, so it has neither read nor logged
  have htracks := h.tracks i
  rw [(hunborn i).mpr (Nat.le_refl _)] at htracks
  have hkeep := logs_reports_keep es (.accept i socket) rfl rfl
  refine ⟨tracks_move h.tracks (fun _ _ => ⟨rfl, rfl⟩) ?_, ⟨fun j => ?_, ?_, ?_⟩,
    not_dangling_concat h.not_dangling nofun⟩
  · exact (show Tracks es i (.reading socket) from htracks).keep rfl rfl
  · rcases eq_or_ne j i with rfl | hne
    · simp
    · dsimp only
      rw [Function.update_of_ne hne, hunborn j]
      have hval : (j : ℕ) ≠ i := fun heq => hne (Fin.ext heq)
      omega
  · exact hkeep.2.trans hreports
  · exact ⟨logger, nodes, hlogger, hholds, hkeep.1.trans hlogs⟩

theorem Waits.read {socket : ℕ} {bytes : List UInt8} (h : Waits es world)
    (hi : world.handlers i = .reading socket) :
    Waits (es ++ [.read i ⟨text bytes, socket⟩])
      { world with
        handlers := Function.update world.handlers i (.logging ⟨text bytes, socket⟩) } := by
  obtain ⟨connections, hmain⟩ := h.accepting hi nofun
  have hwalks := h.walks
  rw [hmain] at hwalks
  obtain ⟨hunborn, hreports, logger, nodes, hlogger, hholds, hlogs⟩ := hwalks
  have htracks := h.tracks i
  rw [hi] at htracks
  have hkeep := logs_reports_keep es (.read i ⟨text bytes, socket⟩) rfl rfl
  refine ⟨tracks_move h.tracks (fun j hj => ?_) ?_, ?_, not_dangling_concat h.not_dangling nofun⟩
  · simp [received, logged, hj.symm]
  · rw [Tracks, received_concat, logged_concat, htracks.1, htracks.2]
    simp [received, logged]
  · dsimp only
    rw [hmain]
    exact ⟨unborn_move hunborn hi nofun nofun, hkeep.2.trans hreports, logger, nodes, hlogger,
      hholds, hkeep.1.trans hlogs⟩

theorem Waits.log {message : Message} {logger logger' : ServerLogger} {heap : Heap Message} {a : ℕ}
    (h : Waits es world) (hi : world.handlers i = .logging message)
    (hlogger : world.logger = some logger) (ha : world.heap a = none)
    (hcall : linkMessage world.heap logger message a = .ok (heap, logger')) :
    Waits (es ++ [.log i message])
      { world with
        heap := heap, logger := some logger'
        handlers := Function.update world.handlers i .done } := by
  obtain ⟨connections, hmain⟩ := h.accepting hi nofun
  obtain ⟨heap', logger₁, nodes', hok, hholds, hlogs⟩ := h.linkMessage_eq hmain hlogger ha message
  cases hcall.symm.trans hok
  have hwalks := h.walks
  rw [hmain] at hwalks
  obtain ⟨hunborn, hreports, -⟩ := hwalks
  have htracks := h.tracks i
  rw [hi] at htracks
  refine ⟨tracks_move h.tracks (fun j hj => ?_) ?_, ?_, not_dangling_concat h.not_dangling nofun⟩
  · simp [received, logged, hj.symm]
  · refine ⟨message, ?_⟩
    rw [received_concat, logged_concat, htracks.1, htracks.2]
    simp [received, logged]
  · dsimp only
    rw [hmain]
    refine ⟨unborn_move hunborn hi nofun nofun, ?_, _, nodes', rfl, hholds, ?_⟩
    · rw [reports_concat, hreports]
      rfl
    · rw [logs_concat, ← hlogs]
      rfl

/-- A handler leaves its locked section without its message in the log. -/
theorem Waits.lose {message : Message} (h : Waits es world)
    (hi : world.handlers i = .logging message) (hreceived : ∀ j, received j [e] = [])
    (hlogged : ∀ j, logged j [e] = []) (hlogs : logs [e] = []) (hreports : reports [e] = [])
    (hne : ∀ j, e ≠ .dangling j) :
    Waits (es ++ [e]) { world with handlers := Function.update world.handlers i .lost } := by
  obtain ⟨connections, hmain⟩ := h.accepting hi nofun
  have hwalks := h.walks
  rw [hmain] at hwalks
  obtain ⟨hunborn, hnone, logger, nodes, hlogger, hholds, hall⟩ := hwalks
  have htracks := h.tracks i
  rw [hi] at htracks
  have hkeep := logs_reports_keep es e hlogs hreports
  refine ⟨tracks_move h.tracks (fun j _ => ⟨hreceived j, hlogged j⟩) ?_, ?_,
    not_dangling_concat h.not_dangling hne⟩
  · have hlost : Tracks es i .lost := ⟨message, htracks⟩
    exact hlost.keep (hreceived i) (hlogged i)
  · dsimp only
    rw [hmain]
    exact ⟨unborn_move hunborn hi nofun nofun, hkeep.2.trans hnone, logger, nodes, hlogger, hholds,
      hkeep.1.trans hall⟩

/-- A step of `main` keeps the handlers, and what they have done. -/
theorem Waits.moveMain (h : Waits es world) (hreceived : ∀ i, received i [e] = [])
    (hlogged : ∀ i, logged i [e] = []) (hne : ∀ i, e ≠ .dangling i)
    (hhandlers : world'.handlers = world.handlers)
    (hwalks : Walks (es ++ [e]) world' world'.main) : Waits (es ++ [e]) world' := by
  refine ⟨fun i => ?_, hwalks, not_dangling_concat h.not_dangling hne⟩
  rw [hhandlers]
  exact (h.tracks i).keep (hreceived i) (hlogged i)

/-- Every step keeps the log and the handlers in order, if `main` leaves its loop only when
all handlers have logged. -/
theorem Waits.step (h : Waits es world) (hwait : e = .shutdown → world.AllDone)
    (hstep : Step Malloc world e world') : Waits (es ++ [e]) world' := by
  have hwalks := h.walks
  cases hstep with
  | accept hmain => exact h.accept hmain
  | read hi => exact h.read hi
  | log hi _ ha _ hlogger hcall => exact h.log hi hlogger ha hcall
  | lose hi => exact h.lose hi (fun _ => rfl) (fun _ => rfl) rfl rfl nofun
  | overrun hi => exact h.lose hi (fun _ => rfl) (fun _ => rfl) rfl rfl nofun
  | danglingTail hi _ ha _ hlogger hcall =>
    -- while `main` accepts, the log is intact
    obtain ⟨connections, hmain⟩ := h.accepting hi nofun
    obtain ⟨heap', logger', nodes', hok, -⟩ := h.linkMessage_eq hmain hlogger ha _
    cases hcall.symm.trans hok
  | dangling hi _ _ _ hnone =>
    obtain ⟨connections, hmain⟩ := h.accepting hi nofun
    rw [hmain] at hwalks
    obtain ⟨-, -, logger, nodes, hlogger, -⟩ := hwalks
    cases hnone.symm.trans hlogger
  | shutdown hmain _ hlogger =>
    rw [hmain] at hwalks
    obtain ⟨-, hreports, _, nodes, hlogger', hholds, hlogs⟩ := hwalks
    cases hlogger.symm.trans hlogger'
    have hkeep := logs_reports_keep es .shutdown rfl rfl
    refine h.moveMain (fun _ => rfl) (fun _ => rfl) nofun rfl
      ⟨hwait rfl, _, nodes, rfl, hholds, ?_⟩
    rw [hkeep.1, hkeep.2, hreports, hlogs, List.nil_append]
  | @report a node hmain hload =>
    rw [hmain] at hwalks
    obtain ⟨hall, ends, rest, hcurrent, hholds, hlogs⟩ := hwalks
    obtain ⟨message, rest, rfl⟩ := hholds.eq_cons hcurrent.symm
    cases hload.symm.trans (Heap.load_some hholds.chain.1)
    refine h.moveMain (fun _ => rfl) (fun _ => rfl) nofun rfl
      ⟨hall, ends, message, rest, rfl, hholds, ?_⟩
    rw [logs_concat, reports_concat, hlogs]
    simp [logs, reports]
  | @release a next hmain =>
    rw [hmain] at hwalks
    obtain ⟨hall, ends, message, rest, rfl, hholds, hlogs⟩ := hwalks
    obtain ⟨-, -, hholds'⟩ := hholds.removeFirst
    have hkeep := logs_reports_keep es .release rfl rfl
    refine h.moveMain (fun _ => rfl) (fun _ => rfl) nofun rfl ⟨hall, _, rest, rfl, hholds', ?_⟩
    rw [hkeep.1, hkeep.2, hlogs]
  | freeLogger hmain =>
    rw [hmain] at hwalks
    obtain ⟨hall, ends, rest, hcurrent, hholds, hlogs⟩ := hwalks
    cases hholds.eq_nil hcurrent.symm
    have hkeep := logs_reports_keep es .freeLogger rfl rfl
    refine h.moveMain (fun _ => rfl) (fun _ => rfl) nofun rfl ⟨hall, ?_⟩
    rw [hkeep.1, hkeep.2, hlogs, List.map_nil, List.append_nil]
  | exit hmain =>
    rw [hmain] at hwalks
    have hkeep := logs_reports_keep es .exit rfl rfl
    refine h.moveMain (fun _ => rfl) (fun _ => rfl) nofun rfl ⟨hwalks.1, ?_⟩
    rw [hkeep.1, hkeep.2, hwalks.2]

theorem waits (hrun : Run (system Malloc queueSize) trace world)
    (hwait : ∀ v, (v, .shutdown) ∈ trace → v.AllDone) : Waits (events trace) world := by
  refine Run.invariant_of_trace (I := Waits) (C := fun v e => e = .shutdown → v.AllDone) ?_ ?_
    hrun ?_
  · rintro _ rfl
    exact ⟨fun _ => ⟨rfl, rfl⟩, ⟨fun _ => ⟨fun _ => Nat.zero_le _, fun _ => rfl⟩, rfl,
      initServerLogger, [], rfl, holds_nil _, rfl⟩, fun _ => List.not_mem_nil⟩
  · intro es v e v' h hC hstep
    exact h.step hC hstep.2
  · rintro v _ hmem rfl
    exact hwait v hmem

theorem Waits.served (h : Waits es world) (hover : ∀ i, .overrun i ∉ es) : Served es world := by
  have hwalks := h.walks
  refine ⟨fun hclosing i => ?_, fun hclosed => ?_, hover, h.not_dangling⟩
  · have hdone : world.handlers i = .done := by
      cases hmain : world.main with
      | accepting => rw [hmain] at hclosing; cases hclosing
      | _ => rw [hmain] at hwalks; exact hwalks.1 i
    have htracks := h.tracks i
    rwa [hdone] at htracks
  · cases hmain : world.main with
    | returning => rw [hmain] at hwalks; exact hwalks.2
    | exited => rw [hmain] at hwalks; exact hwalks.2
    | _ => rw [hmain] at hclosed; cases hclosed

/-! ### Runs in which `main` does not wait -/

/-- `main` never returns to its loop. -/
theorem closing_of_step (hstep : Step Malloc world e world')
    (hclosing : world.main.closing = true) : world'.main.closing = true := by
  cases hstep with
  | accept hmain => rw [hmain] at hclosing; cases hclosing
  | read | log | lose | overrun | danglingTail | dangling => exact hclosing
  | _ => rfl

/-- While `main` accepts, it has not called `shutdown_server`. -/
theorem waits_of_accepting {connections : ℕ} (hrun : Run (system Malloc queueSize) trace world)
    (hmain : world.main = .accepting connections) : Waits (events trace) world := by
  -- a call before would have left `main` outside its loop
  refine waits hrun fun v hmem => ?_
  have hshutdown : world.main.closing = true := by
    refine hrun.since (I := fun world => world.main.closing = true)
      (C := fun _ e => e = .shutdown) (fun _ _ _ _ _ h hstep => ?_) ⟨v, _, hmem, rfl⟩
    rcases h with hclosing | rfl
    · exact closing_of_step hstep.2 hclosing
    · cases hstep.2
      rfl
  rw [hmain] at hshutdown
  cases hshutdown

/-- `malloc` returns a null pointer or a block of just the bytes that were asked for. -/
def Exact (Malloc : ℕ → Option ℕ → Prop) : Prop := ∀ n bytes, Malloc n (some bytes) → bytes = n

/-- With such a `malloc` no message comes into the log: its terminator is behind its block. -/
theorem logged_eq_nil (hexact : Exact Malloc) (hrun : Run (system Malloc queueSize) trace world)
    (i : Fin queueSize) : logged i (events trace) = [] := by
  refine Run.invariant (I := fun es _ => logged i es = []) (fun _ _ => rfl) ?_ hrun
  rintro es v e v' hnone ⟨-, hstep⟩
  rw [logged_concat, hnone, List.nil_append]
  cases hstep with
  | @log _ message _ _ _ _ block _ hblock _ hcopy =>
    -- the copy returned, so the block has room for the terminator
    cases block with
    | none => cases hcopy
    | some bytes =>
      obtain rfl := hexact _ _ hblock
      rw [copyMessage, if_neg (Nat.lt_irrefl _)] at hcopy
      cases hcopy
  | _ => rfl

/-- **When the shutdown waits for the clients.** In a run of the server with any number of
clients, the following holds at every stage if and only if no terminator is written behind its
block, and `main` leaves its loop in a state in which all handlers have left their locked section
with their message in the log: once `shutdown_server` has been called, every client's message was
logged exactly once; once the logger is freed, the messages printed are those logged, in the same
order; and no handler has written behind a block or used freed memory. With blocks of just the
bytes that were asked for this is so in no run in which `main` leaves its loop. -/
theorem served_iff (hrun : Run (system Malloc queueSize) trace world) :
    (Exact Malloc → 0 < queueSize → world.main.closing = true → ¬ Served (events trace) world) ∧
      ((∀ pre v, Stage trace world pre v → Served (events pre) v) ↔
        (∀ i, .overrun i ∉ events trace) ∧ ∀ v, (v, .shutdown) ∈ trace → v.AllDone) := by
  refine ⟨fun hexact hpos hclosing hserved => ?_, ?_, ?_⟩
  · obtain ⟨message, -, hlogged⟩ := hserved.appended hclosing ⟨0, hpos⟩
    cases (logged_eq_nil hexact hrun ⟨0, hpos⟩).symm.trans hlogged
  · intro hserved
    refine ⟨(hserved _ _ (Stage.last _ _)).not_overrun, fun v hmem i => ?_⟩
    obtain ⟨pre, v', hpre, ⟨-, hstep⟩, hstage⟩ := hrun.next_stage hmem
    have happended := (hserved _ _ hstage).appended
    cases hstep with
    | shutdown hmain =>
      obtain ⟨message, -, hlogged⟩ := happended rfl i
      rw [events_concat, logged_concat] at hlogged
      -- `main` was still in its loop, so what the handler has logged tells where it stands
      have htracks := (waits_of_accepting hpre hmain).tracks i
      cases hpos : v.handlers i with
      | done => rfl
      | lost =>
        rw [hpos] at htracks
        obtain ⟨-, -, hnone⟩ := htracks
        rw [hnone] at hlogged
        cases hlogged
      | _ =>
        rw [hpos] at htracks
        rw [htracks.2] at hlogged
        cases hlogged
  -- a stage is a run whose steps are steps of the whole run
  · rintro ⟨hover, hwait⟩ pre v hstage
    refine (waits (hstage.run hrun) fun u hmem => hwait u (hstage.isPrefix.subset hmem)).served
      fun i hmem => hover i ?_
    obtain ⟨step, hstep, heq⟩ := List.mem_map.mp hmem
    exact List.mem_map.mpr ⟨step, hstage.isPrefix.subset hstep, heq⟩

/-- `malloc` returns the bytes that were asked for. -/
def plain : ℕ → Option ℕ → Prop := fun n block => block = some n

/-- `malloc` rounds up to a multiple of 16 bytes, and beyond. -/
def roomy : ℕ → Option ℕ → Prop := fun n block => block = some (n + 16 - n % 16)

/-- Two clients of a server that waits for them: both messages are printed. Without room for the
terminators nothing is served. -/
theorem served_iff_two :
    (∃ (trace : Trace (World 2) (Event 2)) (world : World 2),
      Run (system roomy 2) trace world ∧ Served (events trace) world ∧
        reports (events trace) = [⟨[104, 105], 5⟩, ⟨[111, 107], 4⟩]) ∧
      ∃ (trace : Trace (World 1) (Event 1)) (world : World 1),
        Run (system plain 1) trace world ∧ ¬ Served (events trace) world := by
  constructor
  · have hstart : Run (system roomy 2) []
        ⟨fun _ => none, some initServerLogger, .accepting 0, fun _ => .unborn⟩ := .start rfl
    have h0 := hstart.step (e := .accept 0 4) ⟨nofun, .accept rfl⟩
    have h1 := h0.step (e := .accept 1 5) ⟨nofun, .accept rfl⟩
    have hread1 := h1.step ⟨nofun, @Step.read _ _ _ 1 _ [104, 105] rfl nofun (by decide)⟩
    have hlog1 := hread1.step ⟨nofun, Step.log (i := 1) (a := 9) rfl rfl rfl rfl rfl rfl⟩
    -- what follows a zero byte is not logged
    have hread0 := hlog1.step ⟨nofun, @Step.read _ _ _ 0 _ [111, 107, 0] rfl nofun (by decide)⟩
    have hlog0 := hread0.step ⟨nofun, Step.log (i := 0) (a := 7) rfl rfl rfl rfl rfl rfl⟩
    have hshutdown := hlog0.step ⟨nofun, Step.shutdown rfl (by decide) rfl⟩
    have hreport1 := hshutdown.step ⟨nofun, Step.report rfl rfl⟩
    have hrelease1 := hreport1.step ⟨nofun, Step.release rfl⟩
    have hreport0 := hrelease1.step ⟨nofun, Step.report rfl rfl⟩
    have hrelease0 := hreport0.step ⟨nofun, Step.release rfl⟩
    have hfree := hrelease0.step ⟨nofun, Step.freeLogger rfl⟩
    have hserved := (served_iff hfree).2.mpr ⟨by decide, fun v hmem => ?_⟩
    · exact ⟨_, _, hfree, hserved _ _ (Stage.last _ _), by decide⟩
    · simp at hmem
      subst hmem
      exact Fin.forall_fin_two.mpr ⟨rfl, rfl⟩
  · have hstart : Run (system plain 1) []
        ⟨fun _ => none, some initServerLogger, .accepting 0, fun _ => .unborn⟩ := .start rfl
    have h0 := hstart.step (e := .accept 0 4) ⟨nofun, .accept rfl⟩
    have hread := h0.step ⟨nofun, @Step.read _ _ _ 0 _ [104, 105] rfl nofun (by decide)⟩
    have hover := hread.step
      ⟨nofun, @Step.overrun _ _ _ 0 _ (some 9) _ _ rfl rfl (fun _ _ => rfl) rfl⟩
    have hshutdown := hover.step ⟨nofun, Step.shutdown rfl (by decide) rfl⟩
    refine ⟨_, _, hshutdown, (served_iff hshutdown).1 (fun n bytes hblock => ?_) (by decide) rfl⟩
    exact Option.some.inj hblock

/-- The first message of five clients is copied to a block that is too small. In larger blocks, a
`main` that waits for none of the five frees the logger before the first message. -/
theorem not_served_five :
    (¬ ∀ trace world, Run (system plain 5) trace world → Served (events trace) world) ∧
      ¬ ∀ trace world, Run (system roomy 5) trace world → Served (events trace) world := by
  constructor
  · intro hserved
    have hstart : Run (system plain 5) []
        ⟨fun _ => none, some initServerLogger, .accepting 0, fun _ => .unborn⟩ := .start rfl
    have h0 := hstart.step (e := .accept 0 4) ⟨nofun, .accept rfl⟩
    have hread := h0.step ⟨nofun, @Step.read _ _ _ 0 _ [104, 105] rfl nofun (by decide)⟩
    have hover := hread.step
      ⟨nofun, @Step.overrun _ _ _ 0 _ (some 9) _ _ rfl rfl (fun _ _ => rfl) rfl⟩
    exact (hserved _ _ hover).not_overrun 0 (by decide)
  · intro hserved
    have hstart : Run (system roomy 5) []
        ⟨fun _ => none, some initServerLogger, .accepting 0, fun _ => .unborn⟩ := .start rfl
    have h0 := hstart.step (e := .accept 0 4) ⟨nofun, .accept rfl⟩
    have h1 := h0.step (e := .accept 1 5) ⟨nofun, .accept rfl⟩
    have h2 := h1.step (e := .accept 2 6) ⟨nofun, .accept rfl⟩
    have h3 := h2.step (e := .accept 3 7) ⟨nofun, .accept rfl⟩
    have h4 := h3.step (e := .accept 4 8) ⟨nofun, .accept rfl⟩
    have hshutdown := h4.step ⟨nofun, Step.shutdown rfl (by decide) rfl⟩
    have hfree := hshutdown.step ⟨nofun, Step.freeLogger rfl⟩
    have hread := hfree.step ⟨nofun, @Step.read _ _ _ 0 _ [104, 105] rfl nofun (by decide)⟩
    have hdangling := hread.step ⟨nofun, Step.dangling (i := 0) (a := 9) rfl rfl rfl rfl rfl⟩
    exact (hserved _ _ hdangling).not_dangling 0 (by decide)

/-! ### What becomes of a handler that `main` does not wait for -/

/-- `shutdown_server` has at most `n` steps to take, while the handlers rest. -/
def Walking (handlers : Fin queueSize → Handler) (n : ℕ) (world : World queueSize) : Prop :=
  world.handlers = handlers ∧
    match world.main with
    | .accepting _ => False
    | .visit current => ∃ ends rest, current = ends.head ∧ Holds world.heap ends rest ∧
        n = 2 * rest.length + 1
    | .release current next => ∃ ends message rest, next = first rest ∧
        Holds world.heap ends ((current, message) :: rest) ∧ n = 2 * rest.length + 2
    | .returning => world.logger = none
    | .exited => False

/-- Nobody has to help `main` through the log. -/
theorem Walking.next {handlers : Fin queueSize → Handler} (n : ℕ) (world : World queueSize)
    (h : Walking handlers n world) :
    (world.main = .returning ∧ world.logger = none ∧ world.handlers = handlers) ∨
      ∃ m e world', m < n ∧ (system Malloc queueSize).step world e world' ∧
        Walking handlers m world' := by
  obtain ⟨hhandlers, hmain⟩ := h
  cases hpos : world.main with
  | accepting connections =>
    rw [hpos] at hmain
    exact hmain.elim
  | visit current =>
    rw [hpos] at hmain
    obtain ⟨ends, rest, rfl, hholds, rfl⟩ := hmain
    right
    cases hhead : ends.head with
    | none =>
      rw [hhead] at hpos
      exact ⟨0, _, _, Nat.succ_pos _, ⟨by rw [hpos]; nofun, .freeLogger hpos⟩, hhandlers, rfl⟩
    | some a =>
      rw [hhead] at hpos
      obtain ⟨message, rest, rfl⟩ := hholds.eq_cons hhead
      have hload := Heap.load_some hholds.chain.1
      refine ⟨_, _, _, ?_, ⟨by rw [hpos]; nofun, .report hpos hload⟩, hhandlers,
        ends, message, rest, rfl, hholds, rfl⟩
      rw [List.length_cons]
      omega
  | release current next =>
    rw [hpos] at hmain
    obtain ⟨ends, message, rest, rfl, hholds, rfl⟩ := hmain
    right
    obtain ⟨-, -, hholds'⟩ := hholds.removeFirst
    exact ⟨2 * rest.length + 1, _, _, Nat.lt_succ_self _,
      ⟨by rw [hpos]; nofun, .release hpos⟩, hhandlers, _, rest, rfl, hholds', rfl⟩
  | returning =>
    rw [hpos] at hmain
    exact Or.inl ⟨rfl, hmain, hhandlers⟩
  | exited =>
    rw [hpos] at hmain
    exact hmain.elim

/-- There is always room for one more entry. -/
theorem bounded (hrun : Run (system Malloc queueSize) trace world) : world.heap.Bounded := by
  refine Run.keeps (I := fun world : World queueSize => world.heap.Bounded) (C := fun _ _ => True)
    ?_ ?_ hrun fun _ _ _ => trivial
  · rintro _ rfl
    exact ⟨0, fun _ _ => rfl⟩
  · rintro _ v e v' - h - ⟨-, hstep⟩
    cases hstep with
    | log _ _ _ _ _ hcall =>
      obtain ⟨x, hinsert, hcall⟩ := Outcome.bind_eq_ok.mp hcall
      cases hcall
      exact (h.update _ _).insertLast hinsert
    | release => exact h.update _ _
    | _ => exact h

/-- A run in which `main` leaves its loop before a handler enters its locked section can go on
until this handler uses the logger that was freed, if `malloc` may return a block with room for
the terminator. -/
theorem exists_dangling (hroom : ∀ n, ∃ bytes, n < bytes ∧ Malloc n (some bytes))
    (hrun : Run (system Malloc queueSize) trace world)
    (hshutdown : Step Malloc world .shutdown world') (hdone : world.handlers i ≠ .done)
    (hlost : world.handlers i ≠ .lost) :
    ∃ rest v, Run (system Malloc queueSize) (trace ++ (world, .shutdown) :: rest) v ∧
      .dangling i ∈ events rest := by
  cases hshutdown with
  | @shutdown connections logger hmain hfull hlogger =>
    have hwaits := waits_of_accepting hrun hmain
    have hwalks := hwaits.walks
    rw [hmain] at hwalks
    obtain ⟨hunborn, -, logger₁, nodes, hlogger₁, hholds, -⟩ := hwalks
    cases hlogger.symm.trans hlogger₁
    have hnext := hrun.step ⟨by rw [hmain]; nofun, Step.shutdown hmain hfull hlogger⟩
    obtain ⟨rest, v, hwalk, hreturning, hnone, hhandlers⟩ := Run.reach Walking.next hnext
      ⟨rfl, logger.list, nodes, rfl, hholds, rfl⟩
    obtain ⟨a, ha⟩ := (bounded hwalk).exists_free
    -- the logger is gone, and the handler has still to read or to log
    cases hpos : world.handlers i with
    | unborn =>
      have hle := (hunborn i).mp hpos
      omega
    | done => exact absurd hpos hdone
    | lost => exact absurd hpos hlost
    | logging message =>
      obtain ⟨bytes, hlt, hblock⟩ := hroom message.msn.length
      have hdangling := hwalk.step ⟨by rw [hreturning]; nofun,
        Step.dangling (hhandlers ▸ hpos) hblock ha (if_pos hlt) hnone⟩
      simp only [List.append_assoc, List.cons_append, List.nil_append] at hdangling
      exact ⟨rest ++ [(v, .dangling i)], _, hdangling, by simp⟩
    | reading socket =>
      obtain ⟨bytes, hlt, hblock⟩ := hroom 1
      have hread := hwalk.step ⟨by rw [hreturning]; nofun,
        @Step.read _ _ _ _ _ [65] (hhandlers ▸ hpos) nofun (by decide)⟩
      have hdangling := hread.step ⟨by simp [hreturning],
        Step.dangling (Function.update_self ..) hblock ha (if_pos hlt) hnone⟩
      simp only [List.append_assoc, List.cons_append, List.nil_append] at hdangling
      exact ⟨rest ++ [(v, .read i _), (_, .dangling i)], _, hdangling, by simp [events]⟩

end BareMetal.MTServer
