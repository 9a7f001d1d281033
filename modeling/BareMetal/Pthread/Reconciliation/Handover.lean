import BareMetal.Pthread.Reconciliation.Extraction

/-!
# The hand-over to `process_reconciliation`

`print_ds_data` counts a data source in `process_reco` after it has printed it, but
returns before that when the source is empty. So the counter ends at the number of
sources that are not empty, and `process_reconciliation` waits for two.

## Main results

* `Handed.step` — what `process_reco` has counted, in every state
* `pipeline_never_hangs_iff` — the pipeline cannot hang exactly when no source is empty
-/

namespace BareMetal.Reconciliation

open CS Transition LinkedList

variable {q : Fin 2 → UInt8} {k : Fin 2} {a l m : ℕ} {progress progress' : Fin 2 → Progress}
  {world world' : World} {e : Event} {trace : Trace World Event} {pos : Reconciler}

/-- What a data source contributes to `process_reco`. -/
def share (quantity : UInt8) : ℕ := if quantity = 0 then 0 else 1

/-- What the sources before `k` contribute. -/
def shareBefore (q : Fin 2 → UInt8) : Fin 2 → ℕ := ![0, share (q 0)]

/-- What has been counted when the reconciler stands there. -/
def Reconciler.counted (q : Fin 2 → UInt8) : Reconciler → ℕ
  | .ready => 0
  | .asleep => 0
  | .enter k => shareBefore q k
  | .header k _ => shareBefore q k
  | .line k _ => shareBefore q k
  | .finished => share (q 0) + share (q 1)

/-- The reconciler has left its loop. -/
def Reconciler.begun : Reconciler → Bool
  | .ready => false
  | .asleep => false
  | _ => true

/-- The steps after the source `k`. -/
def stepsAfter (q : Fin 2 → UInt8) : Fin 2 → ℕ := ![(q 1).toNat + 3, 0]

/-- The reconciler has `l` steps left. It prints a source that is not empty, and stands at a
packet of it or behind the last one. -/
def Left (q : Fin 2 → UInt8) (progress : Fin 2 → Progress) : Reconciler → ℕ → Prop
  | .ready, l => l = (q 0).toNat + (q 1).toNat + 7
  | .asleep, l => l = (q 0).toNat + (q 1).toNat + 8
  | .enter k, l => l = (q k).toNat + 3 + stepsAfter q k
  | .header k current, l =>
    (progress k).addrs[0]? = some current ∧ l = (q k).toNat + 2 + stepsAfter q k
  | .line k current, l =>
    ∃ j, 0 < (q k).toNat ∧ j ≤ (q k).toNat ∧ current = (progress k).addrs[j]? ∧
      l = (q k).toNat - j + 1 + stepsAfter q k
  | .finished, l => l = 0

/-- The data, both counters, and where the threads stand that wait for them; the reconciler
has `l` steps left. -/
structure Handed (q : Fin 2 → UInt8) (world : World) (progress : Fin 2 → Progress) (l : ℕ) :
    Prop where
  kept : Kept q world progress
  processReco_eq : world.processReco = UInt8.ofNat (world.reconciliation.counted q)
  begun : world.reconciliation.begun = true → world.reconciliateState = 2
  left : Left q progress world.reconciliation l
  asleep : world.process = .asleep → world.processReco ≠ 2
  room : world.heap.Bounded

/-- The steps that bring the pipeline nearer to its end. -/
def Event.advances : Event → Bool
  | .leave => true
  | .skip _ => true
  | .enter _ => true
  | .header _ => true
  | .line _ _ _ => true
  | .count _ => true
  | e => e.extracts

theorem counted_after (q : Fin 2 → UInt8) (k : Fin 2) :
    (Reconciler.after k).counted q = shareBefore q k + share (q k) := by
  revert k
  exact Fin.forall_fin_two.mpr ⟨(Nat.zero_add _).symm, rfl⟩

theorem left_after (q : Fin 2 → UInt8) (progress : Fin 2 → Progress) (k : Fin 2) :
    Left q progress (.after k) (stepsAfter q k) := by
  revert k
  exact Fin.forall_fin_two.mpr ⟨rfl, rfl⟩

/-- Before the reconciler has left its loop, nothing is counted, and it does not matter how
far the extractors are. -/
theorem counted_of_not_begun (hpos : pos.begun = false) : pos.counted q = 0 := by
  cases pos <;> first | rfl | cases hpos

theorem Left.of_not_begun (h : Left q progress pos l) (hpos : pos.begun = false) :
    Left q progress' pos l := by
  cases pos <;> first | exact h | cases hpos

theorem addData_bounded {heap heap' : Heap PipelineData} {ds ds' : DataSource} {ccCode : UInt8}
    {handleMetadata : UInt8 → Outcome UInt8} (h : heap.Bounded)
    (hcall : addData heap ds ccCode handleMetadata a = .ok (heap', ds')) : heap'.Bounded := by
  unfold addData at hcall
  split_ifs at hcall
  obtain ⟨dsMetaSource, -, hcall⟩ := Outcome.bind_eq_ok.mp hcall
  obtain ⟨metadata, -, hcall⟩ := Outcome.bind_eq_ok.mp hcall
  obtain ⟨⟨heap₁, list⟩, hinsert, hcall⟩ := Outcome.bind_eq_ok.mp hcall
  cases hcall
  exact (h.update a _).insertLast hinsert

theorem markSection_bounded {heap heap' : Heap PipelineData} (h : heap.Bounded)
    (hcall : markSection heap a = .ok heap') : heap'.Bounded := by
  obtain ⟨node, -, hstore⟩ := Outcome.bind_eq_ok.mp hcall
  exact h.store hstore

/-- Once the reconciler has left its loop, both sources are complete. -/
theorem Handed.length_eq (h : Handed q world progress l)
    (hbegun : world.reconciliation.begun = true) (k : Fin 2) :
    (progress k).addrs.length = (q k).toNat :=
  (h.kept.extracted.stands_at (h.kept.finished (h.begun hbegun) k)).1

/-- While an extractor is at work, the reconciler has not left its loop. -/
theorem Handed.waiting (h : Handed q world progress l) {pos : Extractor}
    (hk : world.extractors k = pos) (hne : pos ≠ .finished) :
    world.reconciliation.begun = false := by
  by_contra hbegun
  exact hne (hk.symm.trans (h.kept.finished (h.begun (by simpa using hbegun)) k))

/-- A broadcast that depends on a counter may be none. -/
theorem announced_eq_or (p : Prop) [Decidable p] (pos : Reconciler) :
    (if p then pos.woken else pos) = pos ∨ (if p then pos.woken else pos) = pos.woken := by
  split_ifs
  · exact Or.inr rfl
  · exact Or.inl rfl

/-- A reconciler that is woken goes back to the test of its loop. -/
theorem Left.woken (h : Left q progress pos l) (hpos : pos.begun = false) :
    pos.woken.begun = false ∧ ∃ l' ≤ l, Left q progress' pos.woken l' := by
  cases pos with
  | ready => exact ⟨rfl, l, le_rfl, h⟩
  | asleep =>
    have hl : l = (q 0).toNat + (q 1).toNat + 8 := h
    exact ⟨rfl, (q 0).toNat + (q 1).toNat + 7, by omega, rfl⟩
  | _ => cases hpos

/-- An extractor takes a step; the reconciler may be woken by it. -/
theorem Handed.extract (h : Handed q world progress l) {pos : Extractor}
    (hk : world.extractors k = pos) (hne : pos ≠ .finished) (hkept : Kept q world' progress')
    (hroom : world'.heap.Bounded) (hprocess : world'.process = world.process)
    (hreco : world'.processReco = world.processReco)
    (hwoken : world'.reconciliation = world.reconciliation ∨
      world'.reconciliation = world.reconciliation.woken) :
    ∃ l' ≤ l, Handed q world' progress' l' := by
  have hpos := h.waiting hk hne
  have hzero : world.processReco = UInt8.ofNat 0 := by
    rw [h.processReco_eq, counted_of_not_begun hpos]
  obtain ⟨hpos', l', hle, hleft⟩ : world'.reconciliation.begun = false ∧
      ∃ l' ≤ l, Left q progress' world'.reconciliation l' := by
    rcases hwoken with hsame | hwoken
    · rw [hsame]
      exact ⟨hpos, l, le_rfl, h.left.of_not_begun hpos⟩
    · rw [hwoken]
      exact h.left.woken hpos
  refine ⟨l', hle, hkept, ?_, ?_, hleft, ?_, hroom⟩
  · rw [hreco, hzero, counted_of_not_begun hpos']
  · rw [hpos']
    exact Bool.noConfusion
  · rw [hprocess, hreco]
    exact h.asleep

/-- The reconciler moves without counting. -/
theorem Handed.reconcile (h : Handed q world progress l) {pos : Reconciler} {l' : ℕ}
    (hcounted : pos.counted q = world.reconciliation.counted q)
    (hbegun : pos.begun = true → world.reconciliateState = 2) (hleft : Left q progress pos l') :
    Handed q { world with reconciliation := pos } progress l' :=
  ⟨⟨h.kept.extracted, h.kept.state_eq⟩, h.processReco_eq.trans (congrArg UInt8.ofNat hcounted.symm),
    hbegun, hleft, h.asleep, h.room⟩

/-- `start_reconciliation` leaves its loop. -/
theorem Handed.leave (h : Handed q world progress l) (hready : world.reconciliation = .ready)
    (hstate : world.reconciliateState = 2) :
    ∃ l' < l, Handed q { world with reconciliation := .enter 0 } progress l' := by
  have hleft := h.left
  rw [hready] at hleft
  have hl : l = (q 0).toNat + (q 1).toNat + 7 := hleft
  have hsteps : stepsAfter q 0 = (q 1).toNat + 3 := rfl
  refine ⟨_, ?_, h.reconcile (by rw [hready]; rfl) (fun _ => hstate) rfl⟩
  omega

/-- `print_ds_data` returns early on an empty list: nothing was to be extracted. -/
theorem Handed.skip (h : Handed q world progress l) (henter : world.reconciliation = .enter k)
    (hhead : (world.sources k).list.head = none) :
    ∃ l' < l, Handed q { world with reconciliation := .after k } progress l' := by
  have hleft := h.left
  have hbegun := h.begun
  have hlength := h.length_eq
  rw [henter] at hleft hbegun hlength
  have hl : l = (q k).toNat + 3 + stepsAfter q k := hleft
  -- the list has as many packets as were to be extracted, and it has none
  rw [h.kept.extracted.head_eq, List.getElem?_eq_none_iff, hlength rfl k] at hhead
  have hshare : share (q k) = 0 := if_pos (UInt8.toNat_inj.mp (Nat.le_zero.mp hhead))
  have hcounted : (Reconciler.after k).counted q = world.reconciliation.counted q := by
    rw [counted_after, hshare, henter]
    rfl
  refine ⟨_, ?_, h.reconcile hcounted (fun _ => hbegun rfl) (left_after q progress k)⟩
  omega

/-- `print_ds_data` finds a first packet. -/
theorem Handed.enter (h : Handed q world progress l) (henter : world.reconciliation = .enter k)
    (hhead : (world.sources k).list.head = some a) :
    ∃ l' < l, Handed q { world with reconciliation := .header k a } progress l' := by
  have hleft := h.left
  have hbegun := h.begun
  rw [henter] at hleft hbegun
  have hl : l = (q k).toNat + 3 + stepsAfter q k := hleft
  rw [h.kept.extracted.head_eq] at hhead
  refine ⟨_, ?_, h.reconcile (by rw [henter]; rfl) (fun _ => hbegun rfl) ⟨hhead, rfl⟩⟩
  omega

theorem Handed.header (h : Handed q world progress l)
    (hheader : world.reconciliation = .header k a) :
    ∃ l' < l, Handed q { world with reconciliation := .line k (some a) } progress l' := by
  have hleft := h.left
  have hbegun := h.begun
  have hlength := h.length_eq
  rw [hheader] at hleft hbegun hlength
  obtain ⟨hcurrent, hl⟩ := hleft
  have hpos : 0 < (q k).toNat := by
    rw [← hlength rfl k]
    exact (List.getElem?_eq_some_iff.mp hcurrent).1
  refine ⟨_, ?_, h.reconcile (by rw [hheader]; rfl) (fun _ => hbegun rfl)
    ⟨0, hpos, Nat.zero_le _, hcurrent.symm, rfl⟩⟩
  omega

/-- `print_ds_data` goes on to the next packet. -/
theorem Handed.line (h : Handed q world progress l) {node : Node PipelineData}
    (hline : world.reconciliation = .line k (some a))
    (hload : world.heap.load (some a) = .ok node) :
    ∃ l' < l, Handed q { world with reconciliation := .line k node.next } progress l' := by
  have hleft := h.left
  have hbegun := h.begun
  have hlength := h.length_eq
  rw [hline] at hleft hbegun hlength
  obtain ⟨j, hpos, -, hcurrent, hl⟩ := hleft
  -- `current` is the packet number `j`, and `next` the one behind it
  have hlt : j < (q k).toNat := by
    rw [← hlength rfl k]
    exact (List.getElem?_eq_some_iff.mp hcurrent.symm).1
  cases hload.symm.trans (h.kept.extracted.load_eq hcurrent.symm)
  refine ⟨_, ?_, h.reconcile (by rw [hline]; rfl) (fun _ => hbegun rfl)
    ⟨j + 1, hpos, hlt, rfl, rfl⟩⟩
  omega

/-- `print_ds_data` counts the source it has printed. -/
theorem Handed.count (h : Handed q world progress l)
    (hline : world.reconciliation = .line k none) :
    ∃ l' < l, Handed q
      { world with
        processReco := world.processReco + 1
        process := if world.processReco + 1 = 2 then world.process.woken else world.process
        reconciliation := .after k } progress l' := by
  have hleft := h.left
  have hbegun := h.begun
  have hreco := h.processReco_eq
  rw [hline] at hleft hbegun hreco
  obtain ⟨j, hpos, -, -, hl⟩ := hleft
  have hshare : share (q k) = 1 := by
    apply if_neg
    intro hzero
    rw [hzero] at hpos
    exact absurd hpos (by decide)
  refine ⟨stepsAfter q k, by omega, ⟨h.kept.extracted, h.kept.state_eq⟩, ?_, fun _ => hbegun rfl,
    left_after q progress k, ?_, h.room⟩
  · rw [counted_after, hshare, UInt8.ofNat_add]
    exact congrArg (· + 1) hreco
  · -- a broadcast leaves nobody asleep
    intro hasleep htwo
    rw [if_pos htwo] at hasleep
    cases hprocess : world.process <;> rw [hprocess] at hasleep <;> cases hasleep

section

variable (hq : ∀ k, (q k).toNat ≤ dsMaxSize)
include hq

/-- Every step keeps the counters, and brings the pipeline nearer to its end if it is not a
step of a thread that waits. -/
theorem Handed.step (h : Handed q world progress l) (hstep : Step q world e world') :
    ∃ progress' l', Handed q world' progress' l' ∧
      (e.advances = true →
        work q progress' world'.extractors + l' < work q progress world.extractors + l) := by
  obtain ⟨progress', hkept, hwork⟩ := h.kept.step hq hstep
  -- an extractor has less work, and the reconciler fewer steps
  have hextract : e.extracts = true → (∃ l' ≤ l, Handed q world' progress' l') →
      ∃ progress' l', Handed q world' progress' l' ∧ (e.advances = true →
        work q progress' world'.extractors + l' < work q progress world.extractors + l) := by
    rintro he ⟨l', hle, h'⟩
    exact ⟨progress', l', h', fun _ => Nat.add_lt_add_of_lt_of_le (hwork he) hle⟩
  have hreconcile : world'.extractors = world.extractors → (∃ l' < l, Handed q world' progress l') →
      ∃ progress' l', Handed q world' progress' l' ∧ (e.advances = true →
        work q progress' world'.extractors + l' < work q progress world.extractors + l) := by
    rintro hsame ⟨l', hlt, h'⟩
    exact ⟨progress, l', h', fun _ => by rw [hsame]; exact Nat.add_lt_add_left hlt _⟩
  cases hstep with
  | begin hk => exact hextract rfl (h.extract hk nofun hkept h.room rfl rfl (Or.inl rfl))
  | add hk _ _ hcall =>
    exact hextract rfl
      (h.extract hk nofun hkept (addData_bounded h.room hcall) rfl rfl (Or.inl rfl))
  | scan hk => exact hextract rfl (h.extract hk nofun hkept h.room rfl rfl (Or.inl rfl))
  | mark hk hcall =>
    exact hextract rfl
      (h.extract hk nofun hkept (markSection_bounded h.room hcall) rfl rfl (Or.inl rfl))
  | advance hk => exact hextract rfl (h.extract hk nofun hkept h.room rfl rfl (Or.inl rfl))
  | announce hk =>
    exact hextract rfl (h.extract hk nofun hkept h.room rfl rfl (announced_eq_or _ _))
  | leave hready hstate => exact hreconcile rfl (h.leave hready hstate)
  | skip henter hhead => exact hreconcile rfl (h.skip henter hhead)
  | enter henter hhead => exact hreconcile rfl (h.enter henter hhead)
  | header hheader => exact hreconcile rfl (h.header hheader)
  | line hline hload => exact hreconcile rfl (h.line hline hload)
  | count hline => exact hreconcile rfl (h.count hline)
  | sleepReady hready =>
    exact ⟨progress, _, h.reconcile (by rw [hready]; rfl) nofun rfl, nofun⟩
  | spuriousReady hasleep =>
    exact ⟨progress, _, h.reconcile (by rw [hasleep]; rfl) nofun rfl, nofun⟩
  | sleepStatus _ hne =>
    exact ⟨progress, l, ⟨⟨h.kept.extracted, h.kept.state_eq⟩, h.processReco_eq, h.begun, h.left,
      fun _ => hne, h.room⟩, nofun⟩
  | reconciled =>
    exact ⟨progress, l, ⟨⟨h.kept.extracted, h.kept.state_eq⟩, h.processReco_eq, h.begun, h.left,
      nofun, h.room⟩, nofun⟩
  | spuriousStatus =>
    exact ⟨progress, l, ⟨⟨h.kept.extracted, h.kept.state_eq⟩, h.processReco_eq, h.begun, h.left,
      nofun, h.room⟩, nofun⟩
  | _ =>
    exact ⟨progress, l, ⟨⟨h.kept.extracted, h.kept.state_eq⟩, h.processReco_eq, h.begun, h.left,
      h.asleep, h.room⟩, nofun⟩

omit hq in
theorem Handed.initial (q : Fin 2 → UInt8) {snow ana : DataSource}
    (hsnow : initDatasource snowflake = .ok snow) (hana : initDatasource anaplan = .ok ana) :
    Handed q (World.initial snow ana) (fun _ => ⟨[], 0⟩) ((q 0).toNat + (q 1).toNat + 7) :=
  ⟨Kept.initial q hsnow hana, rfl, nofun, rfl, nofun, ⟨0, fun _ _ => rfl⟩⟩

theorem handed (hrun : Run (system q) trace world) : ∃ progress l, Handed q world progress l := by
  refine Run.invariant (I := fun _ world => ∃ progress l, Handed q world progress l) ?_ ?_ hrun
  · rintro _ ⟨snow, ana, hsnow, hana, rfl⟩
    exact ⟨_, _, Handed.initial q hsnow hana⟩
  · rintro _ world e world' ⟨progress, l, h⟩ ⟨-, hstep⟩
    obtain ⟨progress', l', h', -⟩ := h.step hq hstep
    exact ⟨progress', l', h'⟩

/-! ### Who waits for whom -/

/-- `process_reconciliation` waits while the other three threads have finished. -/
def World.Hung (world : World) : Prop :=
  world.process = .asleep ∧ world.reconciliation = .finished ∧ ∀ k, world.extractors k = .finished

/-- A step that brings the pipeline nearer to its end and wakes `process_reconciliation`
only when both sources are counted. -/
structure Advances (world : World) (e : Event) (world' : World) : Prop where
  advances : e.advances = true
  stopped_eq : world'.stopped = world.stopped
  awake : world'.reconciliation ≠ .asleep
  process_eq : world'.process = world.process ∨ world'.processReco = 2

omit hq in
theorem Event.not_spurious (he : e.advances = true) : e.spurious = false := by
  cases e <;> first | rfl | cases he

omit hq in
theorem after_ne_asleep (k : Fin 2) : Reconciler.after k ≠ .asleep := by
  revert k
  decide

omit hq in
theorem announced_ne_asleep (hawake : pos ≠ .asleep) (p : Prop) [Decidable p] :
    (if p then pos.woken else pos) ≠ .asleep := by
  rcases announced_eq_or p pos with hsame | hwoken
  · rwa [hsame]
  · rw [hwoken]
    cases pos <;> exact Reconciler.noConfusion

/-- An extractor that is not finished can take its next step. -/
theorem Handed.exists_extract (h : Handed q world progress l)
    (hawake : world.reconciliation ≠ .asleep) (hk : world.extractors k ≠ .finished) :
    ∃ e world', Step q world e world' ∧ Advances world e world' := by
  have hstands := h.kept.extracted.stands k
  cases hpos : world.extractors k with
  | start => exact ⟨_, _, .begin hpos (hq k), rfl, rfl, hawake, Or.inl rfl⟩
  | fill i =>
    rw [hpos] at hstands
    obtain ⟨rfl, -, hmarked⟩ := hstands
    rcases Nat.lt_or_ge (progress k).addrs.length (q k).toNat with hlt | hge
    · obtain ⟨a, ha⟩ := h.room.exists_free
      obtain ⟨heap', ds', hcall, -⟩ :=
        h.kept.extracted.addData_eq (hlt.trans_le (hq k)) hmarked ha
      exact ⟨_, _, .add hpos hlt ha hcall, rfl, rfl, hawake, Or.inl rfl⟩
    · exact ⟨_, _, .scan hpos hge, rfl, rfl, hawake, Or.inl rfl⟩
  | mark current =>
    cases current with
    | none => exact ⟨_, _, .announce hpos, rfl, rfl, announced_ne_asleep hawake _, Or.inl rfl⟩
    | some a =>
      rw [hpos] at hstands
      obtain ⟨heap', hcall, -⟩ := h.kept.extracted.markSection_eq hstands.2.2.symm
      exact ⟨_, _, .mark hpos hcall, rfl, rfl, hawake, Or.inl rfl⟩
  | advance a =>
    rw [hpos] at hstands
    have hload := h.kept.extracted.load_eq hstands.2.2.2
    exact ⟨_, _, .advance hpos hload, rfl, rfl, hawake, Or.inl rfl⟩
  | finished => exact absurd hpos hk

omit hq in
/-- When both extractors are finished, the reconciler can take its next step. -/
theorem Handed.exists_reconcile (h : Handed q world progress l)
    (hawake : world.reconciliation ≠ .asleep) (hall : ∀ k, world.extractors k = .finished)
    (hunfinished : world.reconciliation ≠ .finished) :
    ∃ e world', Step q world e world' ∧ Advances world e world' := by
  have hleft := h.left
  cases hpos : world.reconciliation with
  | ready =>
    have hcount : tally (fun _ => Extractor.counted) world.extractors = Fintype.card _ * 1 :=
      tally_eq_card_mul fun k => congrArg Extractor.counted (hall k)
    have hstate : world.reconciliateState = 2 := by
      rw [h.kept.state_eq, hcount]
      rfl
    exact ⟨_, _, .leave hpos hstate, rfl, rfl, Reconciler.noConfusion, Or.inl rfl⟩
  | asleep => exact absurd hpos hawake
  | enter k =>
    cases hhead : (world.sources k).list.head with
    | none =>
      exact ⟨_, _, .skip hpos hhead, rfl, rfl, after_ne_asleep k, Or.inl rfl⟩
    | some current =>
      exact ⟨_, _, .enter hpos hhead, rfl, rfl, Reconciler.noConfusion, Or.inl rfl⟩
  | header k current =>
    exact ⟨_, _, .header hpos, rfl, rfl, Reconciler.noConfusion, Or.inl rfl⟩
  | line k current =>
    cases current with
    | none =>
      refine ⟨_, _, .count hpos, rfl, rfl, after_ne_asleep k, ?_⟩
      by_cases htwo : world.processReco + 1 = 2
      · exact Or.inr htwo
      · exact Or.inl (if_neg htwo)
    | some current =>
      rw [hpos] at hleft
      obtain ⟨j, -, -, hcurrent, -⟩ := hleft
      have hload := h.kept.extracted.load_eq hcurrent.symm
      exact ⟨_, _, .line hpos hload, rfl, rfl, Reconciler.noConfusion, Or.inl rfl⟩
  | finished => exact absurd hpos hunfinished

omit hq in
theorem shareBefore_le (q : Fin 2 → UInt8) (k : Fin 2) :
    shareBefore q k ≤ share (q 0) + share (q 1) := by
  revert k
  exact Fin.forall_fin_two.mpr ⟨Nat.zero_le _, Nat.le_add_right _ _⟩

omit hq in
/-- With an empty source the counter never gets to two. -/
theorem Handed.processReco_ne (h : Handed q world progress l) (hempty : q 0 = 0 ∨ q 1 = 0) :
    world.processReco ≠ 2 := by
  have hone : share (q 0) + share (q 1) ≤ 1 := by
    unfold share
    rcases hempty with hzero | hzero
    · simp only [hzero, if_true]
      split_ifs <;> omega
    · simp only [hzero, if_true]
      split_ifs <;> omega
  have hle : world.reconciliation.counted q ≤ 1 := by
    refine le_trans ?_ hone
    cases world.reconciliation with
    | ready => exact Nat.zero_le _
    | asleep => exact Nat.zero_le _
    | finished => exact le_rfl
    | _ => exact shareBefore_le q _
  intro htwo
  have hcounted := congrArg UInt8.toNat (h.processReco_eq.symm.trans htwo)
  rw [UInt8.toNat_ofNat_of_lt' (by unfold UInt8.size; omega)] at hcounted
  have hnum : (2 : UInt8).toNat = 2 := rfl
  omega

/-- `process_reconciliation` sleeps, and the others have at most `n` steps left. -/
def Approaching (q : Fin 2 → UInt8) (n : ℕ) (world : World) : Prop :=
  ∃ progress l, Handed q world progress l ∧ n = work q progress world.extractors + l ∧
    world.process = .asleep ∧ world.reconciliation ≠ .asleep ∧ world.stopped = none

/-- With an empty source, some thread takes a step and `process_reconciliation` sleeps on. -/
theorem Approaching.next (hempty : q 0 = 0 ∨ q 1 = 0) (n : ℕ) (world : World)
    (happroaching : Approaching q n world) :
    world.Hung ∨ ∃ m e world', m < n ∧
      ((system q).restrict fun e => e.spurious = false).step world e world' ∧
      Approaching q m world' := by
  obtain ⟨progress, l, h, rfl, hprocess, hawake, hstopped⟩ := happroaching
  by_cases hhung : world.Hung
  · exact Or.inl hhung
  · right
    -- the extractors first, then the reconciler
    obtain ⟨e, world', hstep, hadvances⟩ : ∃ e world', Step q world e world' ∧
        Advances world e world' := by
      by_cases hall : ∀ k, world.extractors k = .finished
      · exact h.exists_reconcile hawake hall fun hfinished => hhung ⟨hprocess, hfinished, hall⟩
      · obtain ⟨k, hk⟩ := not_forall.mp hall
        exact h.exists_extract hq hawake hk
    obtain ⟨progress', l', h', hless⟩ := h.step hq hstep
    refine ⟨_, e, world', hless hadvances.advances,
      ⟨Event.not_spurious hadvances.advances, hstopped, hstep⟩,
      progress', l', h', rfl, ?_, hadvances.awake, hadvances.stopped_eq.trans hstopped⟩
    rcases hadvances.process_eq with hsame | htwo
    · exact hsame.trans hprocess
    · exact absurd htwo (h'.processReco_ne hempty)

/-- The pipeline with an empty source runs into the state in which it hangs. -/
theorem exists_hung (hempty : q 0 = 0 ∨ q 1 = 0) :
    ∃ trace world, Run ((system q).restrict fun e => e.spurious = false) trace world ∧
      world.Hung := by
  -- `process_reconciliation` goes to sleep at once, and the others take all their steps
  have hstart : Run ((system q).restrict fun e => e.spurious = false) []
      (World.initial _ _) := .start ⟨_, _, rfl, rfl, rfl⟩
  have hsleep := hstart.step ⟨rfl, rfl, Step.sleepStatus rfl (by decide)⟩
  obtain ⟨progress, l, h, -⟩ := (Handed.initial q rfl rfl).step hq (.sleepStatus rfl (by decide))
  obtain ⟨rest, world, hrun, hhung⟩ := Run.reach (Approaching.next hq hempty) hsleep
    ⟨progress, l, h, rfl, rfl, Reconciler.noConfusion, rfl⟩
  exact ⟨_, world, hrun, hhung⟩

omit hq in
/-- With two sources that are not empty, whoever finds the reconciler finished finds both
counted. -/
theorem Handed.not_hung (h : Handed q world progress l) (hpos : 0 < q 0 ∧ 0 < q 1) :
    ¬ world.Hung := by
  rintro ⟨hasleep, hfinished, -⟩
  apply h.asleep hasleep
  have hshare : ∀ quantity : UInt8, 0 < quantity → share quantity = 1 :=
    fun quantity hquantity => if_neg (UInt8.pos_iff_ne_zero.mp hquantity)
  rw [h.processReco_eq, hfinished, Reconciler.counted, hshare _ hpos.1, hshare _ hpos.2]
  rfl

/-- **When the pipeline never hangs.** With quantities up to `100`, and with sleepers woken by
broadcasts only: no interleaving leaves `process_reconciliation` waiting while the other three
threads have finished, exactly when both quantities are positive. -/
theorem pipeline_never_hangs_iff :
    (∀ trace world, Run ((system q).restrict fun e => e.spurious = false) trace world →
      ¬ world.Hung) ↔ 0 < q 0 ∧ 0 < q 1 := by
  constructor
  · intro hnever
    by_contra hpos
    have hempty : q 0 = 0 ∨ q 1 = 0 := by
      by_contra hne
      obtain ⟨hfst, hsnd⟩ := not_or.mp hne
      exact hpos ⟨UInt8.pos_iff_ne_zero.mpr hfst, UInt8.pos_iff_ne_zero.mpr hsnd⟩
    obtain ⟨trace, world, hrun, hhung⟩ := exists_hung hq hempty
    exact hnever trace world hrun hhung
  · intro hpos trace world hrun
    obtain ⟨progress, l, h⟩ := handed hq hrun.of_restrict
    exact h.not_hung hpos

omit hq in
/-- The quantities of `main`. -/
theorem pipeline_never_hangs_iff_six :
    ¬ ∃ trace world, Run ((system fun _ => 6).restrict fun e => e.spurious = false) trace world ∧
      world.Hung := by
  rintro ⟨trace, world, hrun, hhung⟩
  exact (pipeline_never_hangs_iff (q := fun _ => 6) (by decide)).mpr ⟨by decide, by decide⟩ _ _
    hrun hhung

omit hq in
/-- Two empty sources: nobody is left to wake `process_reconciliation`. -/
theorem empty_sources_hang :
    ¬ ∀ trace world, Run ((system fun _ => 0).restrict fun e => e.spurious = false) trace world →
      ¬ world.Hung := by
  intro hnever
  have hstart : Run ((system fun _ => 0).restrict fun e => e.spurious = false) []
      (World.initial _ _) := .start ⟨_, _, rfl, rfl, rfl⟩
  have hsleep := hstart.step ⟨rfl, rfl, Step.sleepStatus rfl (by decide)⟩
  have hbegin := hsleep.step ⟨rfl, rfl, Step.begin (k := 0) rfl (by decide)⟩
  have hscan := hbegin.step ⟨rfl, rfl, Step.scan (k := 0) rfl (by decide)⟩
  have hannounce := hscan.step ⟨rfl, rfl, Step.announce (k := 0) rfl⟩
  have hbegin' := hannounce.step ⟨rfl, rfl, Step.begin (k := 1) rfl (by decide)⟩
  have hscan' := hbegin'.step ⟨rfl, rfl, Step.scan (k := 1) rfl (by decide)⟩
  have hannounce' := hscan'.step ⟨rfl, rfl, Step.announce (k := 1) rfl⟩
  have hleave := hannounce'.step ⟨rfl, rfl, Step.leave rfl rfl⟩
  have hskip := hleave.step ⟨rfl, rfl, Step.skip (k := 0) rfl rfl⟩
  have hskip' := hskip.step ⟨rfl, rfl, Step.skip (k := 1) rfl rfl⟩
  exact hnever _ _ hskip' ⟨rfl, rfl, Fin.forall_fin_two.mpr ⟨rfl, rfl⟩⟩

end

end BareMetal.Reconciliation
