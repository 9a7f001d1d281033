import BareMetal.CS.Progress
import BareMetal.Pthread.ProdCons

/-!
# When the threads of `pthread/prod_cons.c` finish

A producer whose view is rejected posts nothing, so only accepted views feed consumers. A
consumer without a view waits forever, and a view without a consumer stays in its list, where
`end_process` does not look.

## Main results

* `served` — what was posted is in the semaphore or was taken from it
* `count_inserts` — which views have been put into which list
* `consumers_never_hang_iff` — no interleaving hangs exactly when there are no more consumers than
  accepted views; the views that no consumer took are in the lists
-/

namespace BareMetal.ProdCons

open CS Transition LinkedList

variable {producerCount consumerCount : ℕ} {names : Fin producerCount → View}
  {world world' : World producerCount consumerCount} {e : Event producerCount consumerCount}
  {p : Fin producerCount} {c : Fin consumerCount}
  {trace : Trace (World producerCount consumerCount) (Event producerCount consumerCount)}

/-- The view with this name is put into a list. -/
def Accepts (name : View) : Prop := verifyView name = .ok true

instance (name : View) : Decidable (Accepts name) := inferInstanceAs (Decidable (_ = _))

/-- The producers with a view that is accepted. -/
def acceptedCount (names : Fin producerCount → View) : ℕ := ∑ p, if Accepts (names p) then 1 else 0

/-- What a producer has posted. -/
def postedBy (names : Fin producerCount → View) (p : Fin producerCount) : Producer → ℕ
  | .finished => if Accepts (names p) then 1 else 0
  | _ => 0

/-- The producers whose view is accepted, is `view` and belongs into the list `i`. -/
def acceptedAs (names : Fin producerCount → View) (i : Fin viewsCount) (view : View) : ℕ :=
  ∑ p, if Accepts (names p) ∧ (hashFunction (names p)).toNat = i ∧ names p = view then 1 else 0

/-- What a producer has inserted into the list `i` as `view`. -/
def insertedBy (names : Fin producerCount → View) (i : Fin viewsCount) (view : View)
    (p : Fin producerCount) : Producer → ℕ
  | .start => 0
  | _ => if Accepts (names p) ∧ (hashFunction (names p)).toNat = i ∧ names p = view then 1 else 0

/-- A producer that is about to post has a view that is accepted. -/
def MayPost (names : Fin producerCount → View) (p : Fin producerCount) (k : Producer) : Prop :=
  k = .post → Accepts (names p)

/-- The tokens that a consumer has taken. -/
def Consumer.waited : Consumer → ℕ
  | .start => 0
  | _ => 1

/-- The steps that a producer has before it, at most. -/
def Producer.left : Producer → ℕ
  | .start => 2
  | .post => 1
  | .finished => 0

/-- The steps that a consumer has before it. -/
def Consumer.left : Consumer → ℕ
  | .start => 2
  | .take => 1
  | .finished => 0

/-- The steps that all threads have before them. -/
def World.left (world : World producerCount consumerCount) : ℕ :=
  tally (fun _ => Producer.left) world.producers + tally (fun _ => Consumer.left) world.consumers

/-- All threads have returned. -/
def Finished (world : World producerCount consumerCount) : Prop :=
  (∀ p, world.producers p = .finished) ∧ ∀ c, world.consumers c = .finished

/-! ### Tokens that were posted -/

theorem waited_le (world : World producerCount consumerCount) (c : Fin consumerCount) :
    (world.consumers c).waited ≤ 1 := by
  cases world.consumers c <;> decide

/-- Who is about to post has an accepted view, what was posted is in the semaphore or was taken
from it, and there is room for another node. -/
structure Served (names : Fin producerCount → View) (world : World producerCount consumerCount) :
    Prop where
  accepts : ∀ p, MayPost names p (world.producers p)
  posted : tally (postedBy names) world.producers =
    world.itemsInQueue + tally (fun _ => Consumer.waited) world.consumers
  bounded : world.heap.Bounded

theorem accepts_of_addView {heap : Heap View} {processor : Processor} {name : View} {a : ℕ}
    {inserted : Heap View × Processor}
    (hcall : addView heap processor name verifyView a = .ok (some inserted)) : Accepts name := by
  obtain ⟨accepted, hverify, hcall⟩ := Outcome.bind_eq_ok.mp hcall
  cases accepted with
  | false => simp at hcall
  | true => exact hverify

theorem not_accepts_of_addView {heap : Heap View} {processor : Processor} {name : View} {a : ℕ}
    (hcall : addView heap processor name verifyView a = .ok none) : ¬ Accepts name := by
  intro haccepts
  obtain ⟨accepted, hverify, hcall⟩ := Outcome.bind_eq_ok.mp hcall
  cases hverify.symm.trans haccepts
  obtain ⟨inserted, -, hcall⟩ := Outcome.bind_eq_ok.mp hcall
  cases hcall

theorem bounded_of_addView {heap heap' : Heap View} {processor processor' : Processor}
    {name : View} {a : ℕ} (h : heap.Bounded)
    (hcall : addView heap processor name verifyView a = .ok (some (heap', processor'))) :
    heap'.Bounded := by
  obtain ⟨list, -, hinsert⟩ := Outcome.bind_eq_ok.mp (insertSection_of_addView hcall)
  obtain ⟨⟨heap₁, list₁⟩, hlast, hinsert⟩ := Outcome.bind_eq_ok.mp hinsert
  obtain ⟨lists, -, hinsert⟩ := Outcome.bind_eq_ok.mp hinsert
  cases hinsert
  exact (h.update _ _).insertLast hlast

theorem Served.step (h : Served names world) (hrun : Run (system names consumerCount) trace world)
    (hstep : Step names world e world') : Served names world' := by
  cases hstep with
  | @reject p a hp hcall =>
    have hmove := tally_move (postedBy names) hp .finished
    have hnot := not_accepts_of_addView hcall
    have hold := h.posted
    simp only [postedBy, if_neg hnot] at hmove
    refine ⟨forall_move (P := MayPost names) h.accepts p nofun, ?_, h.bounded⟩
    dsimp only
    omega
  | @insert p i a heap processor hp ha hi hcall =>
    have hmove := tally_move (postedBy names) hp .post
    have hold := h.posted
    simp only [postedBy] at hmove
    refine ⟨forall_move (P := MayPost names) h.accepts p fun _ => accepts_of_addView hcall, ?_,
      bounded_of_addView h.bounded hcall⟩
    dsimp only
    omega
  | @post p hp =>
    have hmove := tally_move (postedBy names) hp .finished
    have hold := h.posted
    simp only [postedBy, if_pos (h.accepts p hp)] at hmove
    refine ⟨forall_move (P := MayPost names) h.accepts p nofun, ?_, h.bounded⟩
    dsimp only
    omega
  | @wait c items hc hitems =>
    have hmove := tally_move (fun _ => Consumer.waited) hc .take
    have hold := h.posted
    simp only [Consumer.waited] at hmove
    refine ⟨h.accepts, ?_, h.bounded⟩
    dsimp only
    omega
  | @consume c heap processor taken hc hcall =>
    have hmove := tally_move (fun _ => Consumer.waited) hc .finished
    have hold := h.posted
    simp only [Consumer.waited] at hmove
    -- a node is freed
    obtain ⟨nodes, -, hbal⟩ := stored hrun
    obtain ⟨i, a, view, rest, list, -, hok, -⟩ := consumeAny_eq hbal.lists (hbal.exists_node hc)
    cases hcall.symm.trans hok
    refine ⟨h.accepts, ?_, h.bounded.update _ _⟩
    dsimp only
    omega

theorem served (hrun : Run (system names consumerCount) trace world) : Served names world := by
  refine hrun.keeps (C := fun _ _ => True) ?_ (fun _ _ _ _ hrun h _ hstep => h.step hrun hstep)
    fun _ _ _ => trivial
  rintro _ rfl
  refine ⟨nofun, ?_, 0, fun _ _ => rfl⟩
  simp [tally, postedBy, Consumer.waited]

/-- An inserted node holds the view of its producer. -/
theorem count_inserts_insert (i j : Fin viewsCount) (node : ℕ × View) (view : View) :
    ((inserts i [(Event.insert p j node : Event producerCount consumerCount)]).map
      Prod.snd).count view = if j = i ∧ node.2 = view then 1 else 0 := by
  by_cases hj : j = i
  · by_cases hview : node.2 = view
    · simp [inserts, hj, hview]
    · simp [inserts, hj, hview]
  · simp [inserts, hj]

/-- A list has got each view as often as producers of that view have inserted it. -/
theorem count_inserts (hrun : Run (system names consumerCount) trace world) (i : Fin viewsCount)
    (view : View) :
    ((inserts i (events trace)).map Prod.snd).count view =
      tally (insertedBy names i view) world.producers := by
  induction hrun with
  | start hstart =>
    obtain rfl := hstart
    symm
    exact tally_eq_zero fun _ => rfl
  | @step trace world e world' hrun hstep ih =>
    rw [events_concat, inserts_concat, List.map_append, List.count_append, ih]
    cases hstep with
    | @reject p a hp hcall =>
      -- a view that is not accepted counts for no list
      have hmove := tally_move (insertedBy names i view) hp .finished
      simp only [insertedBy, not_accepts_of_addView hcall, false_and, if_false] at hmove
      have hnone : inserts i [(.reject p : Event producerCount consumerCount)] = [] := rfl
      rw [hnone, List.map_nil, List.count_nil]
      dsimp only
      omega
    | @insert p j a heap processor hp ha hj hcall =>
      have hmove := tally_move (insertedBy names i view) hp .post
      simp only [insertedBy, accepts_of_addView hcall, true_and, hj, Fin.val_inj] at hmove
      rw [count_inserts_insert]
      dsimp only
      omega
    | @post p hp =>
      -- the producer has inserted before it posts
      have hmove : tally (insertedBy names i view) (Function.update world.producers p .finished) =
          tally (insertedBy names i view) world.producers := tally_move_eq hp rfl
      have hnone : inserts i [(.post p : Event producerCount consumerCount)] = [] := rfl
      rw [hnone, List.map_nil, List.count_nil]
      dsimp only
      omega
    | wait => rfl
    | consume => rfl

theorem World.left_lt_of_producer {k k' : Producer} (hp : world.producers p = k)
    (hlt : k'.left < k.left) {heap : Heap View} {processor : Processor} {items : ℕ} :
    World.left ⟨heap, processor, items, Function.update world.producers p k', world.consumers⟩ <
      world.left := by
  have hmove := tally_move (fun _ => Producer.left) hp k'
  unfold World.left
  dsimp only
  omega

theorem World.left_lt_of_consumer {k k' : Consumer} (hc : world.consumers c = k)
    (hlt : k'.left < k.left) {heap : Heap View} {processor : Processor} {items : ℕ} :
    World.left ⟨heap, processor, items, world.producers, Function.update world.consumers c k'⟩ <
      world.left := by
  have hmove := tally_move (fun _ => Consumer.left) hc k'
  unfold World.left
  dsimp only
  omega

theorem lowers_left (p : Event producerCount consumerCount → Prop) :
    (system names consumerCount).Lowers p World.left := by
  intro trace world e world' _ _ hstep
  cases hstep with
  | reject hp => exact World.left_lt_of_producer hp (by decide)
  | insert hp => exact World.left_lt_of_producer hp (by decide)
  | post hp => exact World.left_lt_of_producer hp (by decide)
  | wait hc => exact World.left_lt_of_consumer hc (by decide)
  | consume hc => exact World.left_lt_of_consumer hc (by decide)

/-! ### Runs that are at rest -/

/-- The steps of all threads count. -/
abbrev anyStep (_ : Event producerCount consumerCount) : Prop := True

/-- The producers have returned, and a consumer that has not finds no token. -/
structure AtRest (world : World producerCount consumerCount) : Prop where
  producer : ∀ p, world.producers p = .finished
  consumer : ∀ c, world.consumers c = .finished ∨
    world.consumers c = .start ∧ world.itemsInQueue = 0

theorem atRest (hnames : ∀ p, IsAscii (names p))
    (hrun : Run (system names consumerCount) trace world)
    (hstuck : ((system names consumerCount).restrict anyStep).Stuck world) : AtRest world := by
  obtain ⟨nodes, -, hbal⟩ := stored hrun
  constructor
  · intro p
    cases hp : world.producers p with
    | start =>
      obtain ⟨a, ha⟩ := (served hrun).bounded.exists_free
      rcases addView_returns hbal.lists ha (hnames p) with hcall | ⟨heap, processor, hcall⟩
      · exact absurd ⟨trivial, .reject hp hcall⟩ (hstuck _ _)
      · let i : Fin viewsCount := ⟨_, hashFunction_lt (hnames p)⟩
        have hinsert : Step names world (.insert p i (a, names p)) _ := .insert hp ha rfl hcall
        exact absurd ⟨trivial, hinsert⟩ (hstuck _ _)
    | post => exact absurd ⟨trivial, .post hp⟩ (hstuck _ _)
    | finished => rfl
  · intro c
    cases hc : world.consumers c with
    | start =>
      refine Or.inr ⟨rfl, ?_⟩
      -- a token that is left could be taken
      by_contra hne
      obtain ⟨items, hitems⟩ := Nat.exists_eq_succ_of_ne_zero hne
      exact hstuck _ _ ⟨trivial, .wait hc hitems⟩
    | take =>
      obtain ⟨i, a, view, rest, list, -, hok, -⟩ := consumeAny_eq hbal.lists (hbal.exists_node hc)
      exact absurd ⟨trivial, .consume hc hok⟩ (hstuck _ _)
    | finished => exact Or.inl rfl

namespace AtRest

/-- Every accepted view was posted, and its token was taken or is left. -/
theorem accepted_eq (h : AtRest world) (hserved : Served names world) :
    acceptedCount names =
      world.itemsInQueue + tally (fun _ => Consumer.waited) world.consumers := by
  rw [← hserved.posted]
  refine Finset.sum_congr rfl fun p _ => ?_
  rw [h.producer p, postedBy]

/-- Every accepted view was inserted, and nothing else was. -/
theorem count_eq (h : AtRest world) (hrun : Run (system names consumerCount) trace world)
    (i : Fin viewsCount) (view : View) :
    ((inserts i (events trace)).map Prod.snd).count view = acceptedAs names i view := by
  rw [count_inserts hrun]
  refine Finset.sum_congr rfl fun p _ => ?_
  rw [h.producer p, insertedBy]
  exact Producer.noConfusion

/-- The tokens that are left are for nodes in the lists. -/
theorem queued_eq (h : AtRest world) {nodes : Fin viewsCount → List (ℕ × View)}
    (hbal : Balanced world nodes) : queued nodes = world.itemsInQueue := by
  have hposting : tally (fun _ => Producer.posting) world.producers = 0 := by
    refine tally_eq_zero fun p => ?_
    rw [h.producer p]
    rfl
  have htaking : tally (fun _ => Consumer.taking) world.consumers = 0 := by
    refine tally_eq_zero fun c => ?_
    rcases h.consumer c with hc | ⟨hc, -⟩ <;> simp only [hc, Consumer.taking]
  have htokens := hbal.tokens
  omega

/-- The consumers have returned when as many tokens were taken. -/
theorem consumers_iff (h : AtRest world) :
    (∀ c, world.consumers c = .finished) ↔
      tally (fun _ => Consumer.waited) world.consumers = consumerCount * 1 := by
  have hfull := tally_eq_card_mul_iff (waited_le world)
  rw [Fintype.card_fin] at hfull
  rw [hfull]
  refine forall_congr' fun c => ?_
  rcases h.consumer c with hc | ⟨hc, -⟩ <;> rw [hc] <;> decide

/-- A token that is left has met no consumer. -/
theorem consumers_of_items (h : AtRest world) (hitems : world.itemsInQueue ≠ 0)
    (c : Fin consumerCount) : world.consumers c = .finished := by
  rcases h.consumer c with hc | ⟨-, hzero⟩
  · exact hc
  · exact absurd hzero hitems

/-- At rest the tokens that are left are those for which there is no consumer. -/
theorem items_eq (h : AtRest world) (hserved : Served names world) :
    world.itemsInQueue = acceptedCount names - consumerCount ∧
      (Finished world ↔ consumerCount ≤ acceptedCount names) := by
  have haccepted := h.accepted_eq hserved
  have hconsumers := h.consumers_iff
  have hsum := tally_le (waited_le world)
  have hitems : world.itemsInQueue ≠ 0 →
      tally (fun _ => Consumer.waited) world.consumers = consumerCount * 1 :=
    fun hne => hconsumers.mp (h.consumers_of_items hne)
  rw [Fintype.card_fin] at hsum
  rw [Finished, hconsumers, and_iff_right h.producer]
  omega

end AtRest

/-- A thread takes two steps at most. -/
theorem steps_le (hrun : Run (system names consumerCount) trace world) :
    trace.length + world.left ≤ 2 * (producerCount + consumerCount) := by
  refine hrun.length_le (lowers_left anyStep) ?_
  rintro _ rfl
  rw [World.left, tally_const, tally_const, Producer.left, Consumer.left]
  omega

/-- **When the consumers never hang.** Every run comes to rest; then the producers have
returned, every accepted view and no other has been inserted into its list, and each list holds
what was inserted into it and no consumer took, in that order. These are as many as there are more
accepted views than consumers. No interleaving rests with an unfinished thread exactly when there
are no more consumers than accepted views. -/
theorem consumers_never_hang_iff (hnames : ∀ p, IsAscii (names p)) :
    (∀ trace world, Run (system names consumerCount) trace world →
        trace.length ≤ 2 * (producerCount + consumerCount)) ∧
      (∀ trace world, Run (system names consumerCount) trace world →
        ((system names consumerCount).restrict anyStep).Stuck world →
        (∀ p, world.producers p = .finished) ∧
          ∃ nodes, Lists world.heap world.processor.list nodes ∧
            (∀ i, inserts i (events trace) = consumes i (events trace) ++ nodes i) ∧
            (∀ i view, ((inserts i (events trace)).map Prod.snd).count view =
              acceptedAs names i view) ∧
            queued nodes = acceptedCount names - consumerCount) ∧
      ((system names consumerCount).NeverHangs anyStep Finished ↔
        consumerCount ≤ acceptedCount names) := by
  refine ⟨fun trace world hrun => Nat.le_of_add_right_le (steps_le hrun),
    fun trace world hrun hstuck => ?_, ?_⟩
  · obtain ⟨nodes, hsplit, hbal⟩ := stored hrun
    have hrest := atRest hnames hrun hstuck
    exact ⟨hrest.producer, nodes, hbal.lists, hsplit, hrest.count_eq hrun,
      (hrest.queued_eq hbal).trans (hrest.items_eq (served hrun)).1⟩
  · refine neverHangs_iff (lowers_left anyStep) rfl fun trace world hrun hstuck => ?_
    exact ((atRest hnames hrun hstuck).items_eq (served hrun)).2

/-- The requests of `main`. -/
def requests : Fin 4 → View :=
  ![literal "logs_view", literal "inventory_view", literal "orders_view", literal "users_view"]

/-- The four producers and the four consumers of `main`. -/
theorem consumers_never_hang_iff_main : (system requests 4).NeverHangs anyStep Finished := by
  have hascii : ∀ p, IsAscii (requests p) := by
    unfold IsAscii
    decide +kernel
  refine (consumers_never_hang_iff hascii).2.2.mpr ?_
  decide +kernel

end BareMetal.ProdCons
