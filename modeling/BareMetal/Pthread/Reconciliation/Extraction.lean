import BareMetal.CS.Tally
import BareMetal.Pthread.Reconciliation.Basic

/-!
# What the extractors have made

An extraction is described by the addresses of the packets it has added so far and
by how many of them are marked. `Extracted` ties the two data sources and the two
extractors to such descriptions, and every step of the program keeps it.

## Main results

* `Extracted.step` — a step keeps the descriptions, and an extractor that moves has
  less to do afterwards
* `complete_at_leave` — `start_reconciliation` leaves its loop on complete data only
-/

namespace BareMetal.Reconciliation

open CS Transition LinkedList

/-- How far an extraction is. -/
structure Progress where
  addrs : List ℕ
  marked : ℕ

/-- The codes that `main` gives the data sources. -/
def code : Fin 2 → String := ![snowflake, anaplan]

/-- What `set_metadata` gives a packet of the source `k`. -/
def baseMetadata : Fin 2 → UInt8 := ![0x0A, 0x09]

/-- The packet number `i` of the source `k`, when `marked` packets are marked. -/
def packet (k : Fin 2) (marked i : ℕ) : PipelineData :=
  if i < marked then PipelineData.ready ⟨UInt8.ofNat i, baseMetadata k⟩
  else ⟨UInt8.ofNat i, baseMetadata k⟩

/-- The cells of the source `k`. -/
def Progress.nodes (k : Fin 2) (p : Progress) : List (ℕ × PipelineData) :=
  p.addrs.mapIdx fun i a => (a, packet k p.marked i)

variable {q : Fin 2 → UInt8} {k : Fin 2} {p p' : Progress} {a i m : ℕ} {ds ds' : DataSource}
  {heap heap' : Heap PipelineData} {sources : Fin 2 → DataSource}
  {extractors : Fin 2 → Extractor} {progress : Fin 2 → Progress} {world world' : World} {e : Event}

@[simp] theorem addresses_nodes (k : Fin 2) (p : Progress) : addresses (p.nodes k) = p.addrs := by
  apply List.ext_getElem
  · simp [addresses, Progress.nodes]
  · intro i hi hi'
    simp [addresses, Progress.nodes]

theorem first_nodes_drop (k : Fin 2) (p : Progress) (m : ℕ) :
    first ((p.nodes k).drop m) = p.addrs[m]? := by
  rw [first_drop, addresses_nodes]

theorem getElem?_nodes (hm : p.addrs[m]? = some a) :
    (p.nodes k)[m]? = some (a, packet k p.marked m) := by
  simp [Progress.nodes, hm]

/-- One more packet, while none is marked. -/
theorem nodes_concat (k : Fin 2) (addrs : List ℕ) (a : ℕ) :
    Progress.nodes k ⟨addrs ++ [a], 0⟩ =
      Progress.nodes k ⟨addrs, 0⟩ ++ [(a, ⟨UInt8.ofNat addrs.length, baseMetadata k⟩)] := by
  simp [Progress.nodes, packet]

/-- One more mark. -/
theorem nodes_mark (k : Fin 2) (hm : p.addrs[p.marked]? = some a) :
    Progress.nodes k { p with marked := p.marked + 1 } =
      (p.nodes k).set p.marked (a, (packet k p.marked p.marked).ready) := by
  obtain ⟨hlt, hget⟩ := List.getElem?_eq_some_iff.mp hm
  apply List.ext_getElem (by simp [Progress.nodes])
  intro i hi hi'
  rcases eq_or_ne i p.marked with rfl | hne
  · simp [Progress.nodes, packet, hget]
  · have hiff : i < p.marked + 1 ↔ i < p.marked := by omega
    have hpacket : packet k (p.marked + 1) i = packet k p.marked i := by
      simp only [packet, hiff]
    simp [Progress.nodes, hpacket, hne.symm]

theorem setMetadata_code (k : Fin 2) :
    (validateDsCode (code k) >>= setMetadata) = .ok (baseMetadata k) := by
  revert k
  decide

/-! ### Sources and extractors -/

/-- A data source with the given packets. -/
structure Sound (k : Fin 2) (p : Progress) (ds : DataSource) : Prop where
  dsCode_eq : ds.dsCode = code k
  capacity_eq : ds.capacity = UInt32.ofNat dsMaxSize
  size_eq : ds.size = UInt32.ofNat p.addrs.length

/-- Where an extractor stands that has come this far. -/
def Stands (q : ℕ) (p : Progress) : Extractor → Prop
  | .start => p.addrs = [] ∧ p.marked = 0
  | .fill i => p.addrs.length = i ∧ i ≤ q ∧ p.marked = 0
  | .mark current => p.addrs.length = q ∧ p.marked ≤ q ∧ current = p.addrs[p.marked]?
  | .advance current =>
    p.addrs.length = q ∧ 0 < p.marked ∧ p.marked ≤ q ∧ p.addrs[p.marked - 1]? = some current
  | .finished => p.addrs.length = q ∧ p.marked = q

/-- The data sources hold what the extractors have added, in separate lists. -/
structure Extracted (q : Fin 2 → UInt8) (heap : Heap PipelineData) (sources : Fin 2 → DataSource)
    (extractors : Fin 2 → Extractor) (progress : Fin 2 → Progress) : Prop where
  lists : Lists heap (fun k => (sources k).list) fun k => (progress k).nodes k
  sound : ∀ k, Sound k (progress k) (sources k)
  stands : ∀ k, Stands (q k).toNat (progress k) (extractors k)

/-- The steps that an extractor has still to take. -/
def remaining (q : ℕ) (p : Progress) : Extractor → ℕ
  | .start => 3 * q + 3
  | .fill i => 3 * q - i + 2
  | .mark _ => 2 * (q - p.marked) + 1
  | .advance _ => 2 * (q - p.marked) + 2
  | .finished => 0

/-- The steps that both extractors have still to take. -/
def work (q : Fin 2 → UInt8) (progress : Fin 2 → Progress) (extractors : Fin 2 → Extractor) : ℕ :=
  ∑ k, remaining (q k).toNat (progress k) (extractors k)

theorem Extracted.stands_at (h : Extracted q heap sources extractors progress) {pos : Extractor}
    (hk : extractors k = pos) : Stands (q k).toNat (progress k) pos :=
  hk ▸ h.stands k

/-- The extractor `k` takes a step. -/
theorem Extracted.move (h : Extracted q heap sources extractors progress) {pos pos' : Extractor}
    (hk : extractors k = pos)
    (hlists : Lists heap' (Function.update (fun k => (sources k).list) k ds'.list)
      (Function.update (fun k => (progress k).nodes k) k (p'.nodes k)))
    (hsound : Sound k p' ds') (hstands : Stands (q k).toNat p' pos')
    (hless : remaining (q k).toNat p' pos' < remaining (q k).toNat (progress k) pos) :
    Extracted q heap' (Function.update sources k ds') (Function.update extractors k pos')
        (Function.update progress k p') ∧
      work q (Function.update progress k p') (Function.update extractors k pos') <
        work q progress extractors := by
  subst hk
  refine ⟨⟨?_, fun j => ?_, fun j => ?_⟩, ?_⟩
  · have hends : (fun j => (Function.update sources k ds' j).list) =
        Function.update (fun k => (sources k).list) k ds'.list :=
      funext fun j => Function.apply_update (fun _ ds => ds.list) sources k ds' j
    have hnodes : (fun j => (Function.update progress k p' j).nodes j) =
        Function.update (fun k => (progress k).nodes k) k (p'.nodes k) :=
      funext fun j => Function.apply_update (fun j p => p.nodes j) progress k p' j
    rw [hends, hnodes]
    exact hlists
  · rcases eq_or_ne j k with rfl | hne
    · simpa using hsound
    · simpa [hne] using h.sound j
  · rcases eq_or_ne j k with rfl | hne
    · simpa using hstands
    · simpa [hne] using h.stands j
  · apply Finset.sum_lt_sum
    · intro j _
      rcases eq_or_ne j k with rfl | hne
      · simpa using hless.le
      · simp [hne]
    · exact ⟨k, Finset.mem_univ k, by simpa using hless⟩

/-- The extractor `k` moves and leaves the data as they are. -/
theorem Extracted.moveOnly (h : Extracted q heap sources extractors progress)
    {pos pos' : Extractor} (hk : extractors k = pos)
    (hstands : Stands (q k).toNat (progress k) pos')
    (hless : remaining (q k).toNat (progress k) pos' < remaining (q k).toNat (progress k) pos) :
    Extracted q heap sources (Function.update extractors k pos') progress ∧
      work q progress (Function.update extractors k pos') < work q progress extractors := by
  have hlists : Lists heap
      (Function.update (fun k => (sources k).list) k (sources k).list)
      (Function.update (fun k => (progress k).nodes k) k ((progress k).nodes k)) := by
    simpa using h.lists
  simpa using h.move hk hlists (h.sound k) hstands hless

/-! ### The locked sections -/

theorem Sound.size_add_one (h : Sound k p ds) (hlt : p.addrs.length < dsMaxSize) :
    ds.size + 1 = UInt32.ofNat (p.addrs.length + 1) ∧ ¬ ds.capacity < ds.size + 1 := by
  have hsize : ds.size + 1 = UInt32.ofNat (p.addrs.length + 1) := by
    rw [h.size_eq, UInt32.ofNat_add]
    rfl
  have hmax : dsMaxSize = 100 := rfl
  have hsmall : p.addrs.length + 1 < UInt32.size := by
    unfold UInt32.size
    omega
  refine ⟨hsize, ?_⟩
  rw [hsize, h.capacity_eq, UInt32.lt_iff_toNat_lt, UInt32.toNat_ofNat_of_lt' hsmall,
    UInt32.toNat_ofNat_of_lt' (by decide)]
  omega

/-- `add_data` appends a packet that is not marked. -/
theorem Extracted.addData_eq (h : Extracted q heap sources extractors progress)
    (hlt : (progress k).addrs.length < dsMaxSize) (hmarked : (progress k).marked = 0)
    (ha : heap a = none) :
    ∃ heap' ds', addData heap (sources k) (UInt8.ofNat (progress k).addrs.length) setMetadata a =
        .ok (heap', ds') ∧
      Lists heap' (Function.update (fun k => (sources k).list) k ds'.list)
        (Function.update (fun k => (progress k).nodes k) k
          (Progress.nodes k ⟨(progress k).addrs ++ [a], 0⟩)) ∧
      Sound k ⟨(progress k).addrs ++ [a], 0⟩ ds' := by
  obtain ⟨hsize, hroom⟩ := (h.sound k).size_add_one hlt
  obtain ⟨dsMetaSource, hsource, hmetadata⟩ := Outcome.bind_eq_ok.mp (setMetadata_code k)
  obtain ⟨heap', list, hinsert, hlists⟩ :=
    h.lists.insertLast k ha ⟨UInt8.ofNat (progress k).addrs.length, baseMetadata k⟩
  have hp : progress k = ⟨(progress k).addrs, 0⟩ := by
    rw [← hmarked]
  refine ⟨heap', { sources k with list := list, size := (sources k).size + 1 }, ?_, ?_, ?_⟩
  · rw [addData, if_neg hroom, (h.sound k).dsCode_eq, hsource, Outcome.ok_bind, hmetadata,
      Outcome.ok_bind, hinsert, Outcome.ok_bind]
    simp only [(h.sound k).dsCode_eq]
  · rw [nodes_concat, ← hp]
    exact hlists
  · exact ⟨(h.sound k).dsCode_eq, (h.sound k).capacity_eq, by simpa using hsize⟩

/-- The locked section of the second loop marks the next packet. -/
theorem Extracted.markSection_eq (h : Extracted q heap sources extractors progress)
    (hm : (progress k).addrs[(progress k).marked]? = some a) :
    ∃ heap', markSection heap a = .ok heap' ∧
      Lists heap' (fun k => (sources k).list)
        (Function.update (fun k => (progress k).nodes k) k
          (Progress.nodes k { progress k with marked := (progress k).marked + 1 })) := by
  have hnode : ((progress k).nodes k)[(progress k).marked]? = _ := getElem?_nodes hm
  have hcell := (h.lists.holds k).get hnode
  rw [nodes_mark k hm]
  refine ⟨_, ?_, h.lists.setValue hnode _⟩
  rw [markSection, Heap.load_some hcell, Outcome.ok_bind]
  exact Heap.store_some hcell

/-- The next packet of a source. -/
theorem Extracted.load_eq (h : Extracted q heap sources extractors progress)
    (hm : (progress k).addrs[m]? = some a) :
    heap.load (some a) =
      .ok ⟨packet k (progress k).marked m, (progress k).addrs[m + 1]?⟩ := by
  rw [Heap.load_some ((h.lists.holds k).get (getElem?_nodes hm)), first_nodes_drop]

theorem Extracted.head_eq (h : Extracted q heap sources extractors progress) (k : Fin 2) :
    (sources k).list.head = (progress k).addrs[0]? := by
  rw [(h.lists.holds k).head_eq, ← first_nodes_drop k, List.drop_zero]

/-! ### The steps -/

/-- The steps of the extractors. -/
def Event.extracts : Event → Bool
  | .begin _ => true
  | .add _ => true
  | .scan _ => true
  | .mark _ => true
  | .advance _ => true
  | .announce _ => true
  | _ => false

section

variable (hq : ∀ k, (q k).toNat ≤ dsMaxSize)
include hq

/-- Every step keeps what the data sources hold tied to where the extractors stand, and an
extractor that moves has less to do. -/
theorem Extracted.step
    (h : Extracted q world.heap world.sources world.extractors progress)
    (hstep : Step q world e world') :
    ∃ progress', Extracted q world'.heap world'.sources world'.extractors progress' ∧
      (e.extracts = true →
        work q progress' world'.extractors < work q progress world.extractors) := by
  cases hstep with
  | begin hk =>
    obtain ⟨haddrs, hmarked⟩ := h.stands_at hk
    refine ⟨progress, (h.moveOnly hk ?_ ?_).imp_right fun hless _ => hless⟩
    · exact ⟨by simp [haddrs], Nat.zero_le _, hmarked⟩
    · simp only [remaining]
      omega
  | @add k i a heap ds hk hlt ha hcall =>
    obtain ⟨rfl, -, hmarked⟩ := h.stands_at hk
    obtain ⟨heap', ds', hok, hlists, hsound⟩ := h.addData_eq (hlt.trans_le (hq k)) hmarked ha
    cases hcall.symm.trans hok
    refine ⟨_, (h.move hk hlists hsound ?_ ?_).imp_right fun hless _ => hless⟩
    · exact ⟨by simp, hlt, rfl⟩
    · simp only [remaining]
      omega
  | scan hk hle =>
    obtain ⟨hlength, hle', hmarked⟩ := h.stands_at hk
    refine ⟨progress, (h.moveOnly hk ?_ ?_).imp_right fun hless _ => hless⟩
    · refine ⟨hlength.trans (le_antisymm hle' hle), hmarked ▸ Nat.zero_le _, ?_⟩
      rw [hmarked, h.head_eq]
    · simp only [remaining]
      omega
  | @mark k a heap hk hcall =>
    obtain ⟨hlength, hle, hcurrent⟩ := h.stands_at hk
    obtain ⟨hlt, -⟩ := List.getElem?_eq_some_iff.mp hcurrent.symm
    rw [hlength] at hlt
    obtain ⟨heap', hok, hlists⟩ := h.markSection_eq hcurrent.symm
    cases hcall.symm.trans hok
    -- only the value of one cell changes, so the source keeps its fields
    have hsources : Function.update world.sources k (world.sources k) = world.sources :=
      Function.update_eq_self k _
    have hsound := h.sound k
    refine ⟨_, (hsources ▸ h.move hk (by simpa using hlists) ?_ ?_ ?_).imp_right
      fun hless _ => hless⟩
    · exact ⟨hsound.dsCode_eq, hsound.capacity_eq, hsound.size_eq⟩
    · exact ⟨hlength, Nat.succ_pos _, hlt, hcurrent.symm⟩
    · simp only [remaining]
      omega
  | advance hk hload =>
    obtain ⟨hlength, hpos, hle, hcurrent⟩ := h.stands_at hk
    cases hload.symm.trans (h.load_eq hcurrent)
    refine ⟨progress, (h.moveOnly hk ?_ ?_).imp_right fun hless _ => hless⟩
    · refine ⟨hlength, hle, ?_⟩
      rw [Nat.sub_add_cancel hpos]
    · exact Nat.lt_succ_self _
  | announce hk =>
    obtain ⟨hlength, hle, hcurrent⟩ := h.stands_at hk
    have hall := List.getElem?_eq_none_iff.mp hcurrent.symm
    rw [hlength] at hall
    refine ⟨progress, (h.moveOnly hk ?_ ?_).imp_right fun hless _ => hless⟩
    · exact ⟨hlength, le_antisymm hle hall⟩
    · exact Nat.succ_pos _
  | _ => exact ⟨progress, h, nofun⟩

omit hq in
theorem Extracted.initial (q : Fin 2 → UInt8) {snow ana : DataSource}
    (hsnow : initDatasource snowflake = .ok snow) (hana : initDatasource anaplan = .ok ana) :
    Extracted q (World.initial snow ana).heap (World.initial snow ana).sources
      (World.initial snow ana).extractors fun _ => ⟨[], 0⟩ := by
  cases hsnow
  cases hana
  refine ⟨⟨fun k => ?_, fun _ _ _ _ hmem => nomatch hmem⟩, fun k => ?_, fun _ => ⟨rfl, rfl⟩⟩
  · revert k
    exact Fin.forall_fin_two.mpr ⟨holds_nil _, holds_nil _⟩
  · revert k
    exact Fin.forall_fin_two.mpr ⟨⟨rfl, rfl, rfl⟩, ⟨rfl, rfl, rfl⟩⟩

/-! ### The counter of the extractors -/

/-- An extractor that has counted itself. -/
def Extractor.counted : Extractor → ℕ
  | .finished => 1
  | _ => 0

/-- The data, and the counter that says when they are complete. -/
structure Kept (q : Fin 2 → UInt8) (world : World) (progress : Fin 2 → Progress) : Prop where
  extracted : Extracted q world.heap world.sources world.extractors progress
  state_eq : world.reconciliateState =
    UInt8.ofNat (tally (fun _ => Extractor.counted) world.extractors)

omit hq in
theorem counted_le (k : Extractor) : k.counted ≤ 1 := by
  cases k <;> simp [Extractor.counted]

omit hq in
/-- Only when both extractors are done does the counter stand at two. -/
theorem Kept.finished (h : Kept q world progress) (hstate : world.reconciliateState = 2)
    (k : Fin 2) : world.extractors k = .finished := by
  have hle : tally (fun _ => Extractor.counted) world.extractors ≤ 2 :=
    tally_le fun k => counted_le (world.extractors k)
  have hall := congrArg UInt8.toNat (h.state_eq.symm.trans hstate)
  rw [UInt8.toNat_ofNat_of_lt' (by unfold UInt8.size; omega)] at hall
  have hone := weight_eq_of_tally_eq (fun k => counted_le (world.extractors k)) hall k
  cases hk : world.extractors k with
  | finished => rfl
  | _ => simp [hk, Extractor.counted] at hone

theorem Kept.step (h : Kept q world progress) (hstep : Step q world e world') :
    ∃ progress', Kept q world' progress' ∧
      (e.extracts = true →
        work q progress' world'.extractors < work q progress world.extractors) := by
  obtain ⟨progress', hextracted, hwork⟩ := h.extracted.step hq hstep
  refine ⟨progress', ⟨hextracted, ?_⟩, hwork⟩
  have hstate := h.state_eq
  cases hstep with
  | announce hk =>
    have hmove := tally_move (fun _ => Extractor.counted) hk .finished
    have hsucc : tally (fun _ => Extractor.counted) (Function.update world.extractors _ .finished) =
        tally (fun _ => Extractor.counted) world.extractors + 1 := hmove
    rw [hsucc, UInt8.ofNat_add, ← hstate]
    rfl
  | begin hk => exact hstate.trans (congrArg UInt8.ofNat (tally_move_eq hk (by rfl)).symm)
  | add hk => exact hstate.trans (congrArg UInt8.ofNat (tally_move_eq hk (by rfl)).symm)
  | scan hk => exact hstate.trans (congrArg UInt8.ofNat (tally_move_eq hk (by rfl)).symm)
  | mark hk => exact hstate.trans (congrArg UInt8.ofNat (tally_move_eq hk (by rfl)).symm)
  | advance hk => exact hstate.trans (congrArg UInt8.ofNat (tally_move_eq hk (by rfl)).symm)
  | _ => exact hstate

omit hq in
theorem Kept.initial (q : Fin 2 → UInt8) {snow ana : DataSource}
    (hsnow : initDatasource snowflake = .ok snow) (hana : initDatasource anaplan = .ok ana) :
    Kept q (World.initial snow ana) fun _ => ⟨[], 0⟩ := by
  refine ⟨Extracted.initial q hsnow hana, ?_⟩
  have hzero : tally (fun _ => Extractor.counted) (World.initial snow ana).extractors = 0 :=
    tally_eq_zero fun _ => rfl
  rw [hzero]
  rfl

theorem kept {trace : Trace World Event} (hrun : Run (system q) trace world) :
    ∃ progress, Kept q world progress := by
  refine Run.invariant (I := fun _ world => ∃ progress, Kept q world progress) ?_ ?_ hrun
  · rintro _ ⟨snow, ana, hsnow, hana, rfl⟩
    exact ⟨_, Kept.initial q hsnow hana⟩
  · rintro _ world e world' ⟨progress, h⟩ ⟨-, hstep⟩
    obtain ⟨progress', h', -⟩ := h.step hq hstep
    exact ⟨progress', h'⟩

/-- What a finished extractor leaves behind. -/
theorem Extracted.complete (h : Extracted q heap sources extractors progress)
    (hk : extractors k = .finished) :
    ∃ nodes, Holds heap (sources k).list nodes ∧
      nodes.map (fun node => node.2.ccCode) = (List.range (q k).toNat).map UInt8.ofNat ∧
      (sources k).size.toNat = (q k).toNat ∧
      ∀ node ∈ nodes, node.2.metadata &&& bit reconciliationReadyBit ≠ 0 := by
  -- as many packets as were to be extracted, and as many marks
  obtain ⟨hlength, hmarked⟩ := h.stands_at hk
  refine ⟨_, h.lists.holds k, ?_, ?_, ?_⟩
  · apply List.ext_getElem
    · simp [Progress.nodes, hlength]
    · intro i hi hi'
      simp only [Progress.nodes, packet, List.getElem_map, List.getElem_mapIdx, List.getElem_range]
      split_ifs <;> rfl
  · rw [(h.sound k).size_eq, hlength]
    have hmax : dsMaxSize = 100 := rfl
    have hle := hq k
    exact UInt32.toNat_ofNat_of_lt' (by unfold UInt32.size; omega)
  · intro node hnode
    obtain ⟨i, hi, rfl⟩ := List.getElem_of_mem hnode
    have hlt : i < (progress k).marked := by
      simp only [Progress.nodes, List.length_mapIdx] at hi
      omega
    have hbit : ∀ k, (baseMetadata k ||| bit reconciliationReadyBit) &&&
        bit reconciliationReadyBit ≠ 0 := by decide
    simp only [Progress.nodes, List.getElem_mapIdx, packet, if_pos hlt]
    exact hbit k

/-- **Reconciliation starts on complete data.** For all quantities up to `100` and in every
interleaving: when `start_reconciliation` leaves its loop, each data source holds a list of
as many packets as were to be extracted, with the codes `0`, `1`, `2`, … in this order and
all of them marked, and `size` is their number. -/
theorem complete_at_leave {trace : Trace World Event} (hrun : Run (system q) trace world)
    (hleave : (system q).step world .leave world') (k : Fin 2) :
    ∃ nodes, Holds world'.heap (world'.sources k).list nodes ∧
      nodes.map (fun node => node.2.ccCode) = (List.range (q k).toNat).map UInt8.ofNat ∧
      (world'.sources k).size.toNat = (q k).toNat ∧
      ∀ node ∈ nodes, node.2.metadata &&& bit reconciliationReadyBit ≠ 0 := by
  obtain ⟨progress, h⟩ := kept hq hrun
  cases hleave.2 with
  | leave _ hstate => exact h.extracted.complete hq (h.finished hstate k)

end

/-- One packet from one source and none from the other. -/
theorem complete_at_leave_one :
    ∃ (trace : Trace World Event) (world : World) (nodes : List (ℕ × PipelineData)),
      Run (system ![1, 0]) trace world ∧ Holds world.heap (world.sources 0).list nodes ∧
        nodes.map (fun node => node.2.ccCode) = [0] ∧
        ∀ node ∈ nodes, node.2.metadata &&& bit reconciliationReadyBit ≠ 0 := by
  have hstart : Run (system ![1, 0]) [] (World.initial ⟨⟨none, none⟩, snowflake, 0, 100⟩
      ⟨⟨none, none⟩, anaplan, 0, 100⟩) := .start ⟨_, _, rfl, rfl, rfl⟩
  have hbegin := hstart.step ⟨rfl, Step.begin (k := 0) rfl (by decide)⟩
  have hadd := hbegin.step ⟨rfl, Step.add (k := 0) (a := 7) rfl (by decide) rfl rfl⟩
  have hscan := hadd.step ⟨rfl, Step.scan (k := 0) rfl (by decide)⟩
  have hmark := hscan.step ⟨rfl, Step.mark (k := 0) rfl rfl⟩
  have hadvance := hmark.step ⟨rfl, Step.advance (k := 0) rfl rfl⟩
  have hannounce := hadvance.step ⟨rfl, Step.announce (k := 0) rfl⟩
  have hbegin' := hannounce.step ⟨rfl, Step.begin (k := 1) rfl (by decide)⟩
  have hscan' := hbegin'.step ⟨rfl, Step.scan (k := 1) rfl (by decide)⟩
  have hannounce' := hscan'.step ⟨rfl, Step.announce (k := 1) rfl⟩
  have hleave := hannounce'.step ⟨rfl, Step.leave rfl rfl⟩
  obtain ⟨nodes, hholds, hcodes, -, hready⟩ :=
    complete_at_leave (by decide) hannounce' ⟨rfl, Step.leave rfl rfl⟩ 0
  exact ⟨_, _, nodes, hleave, hholds, hcodes, hready⟩

end BareMetal.Reconciliation
