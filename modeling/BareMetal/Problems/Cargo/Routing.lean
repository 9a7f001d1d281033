import BareMetal.Problems.Cargo.Basic

/-!
# Where the containers go

## Main results

* `Represents.step` — a call that returns does to the station what it does to the yard
* `routed` — the queue holds the orders that wait, each rail the accepted orders of its
  codes, and nothing else is allocated
-/

namespace BareMetal.Cargo

open CS Transition LinkedList SlotQueue

/-- A container on a rail. -/
def onRail (state : UInt8) (order : ℕ × Order) : ℕ × Container :=
  (order.1, ⟨order.2.code, matCombine order.2.v1 order.2.v2, state⟩)

/-- The cells of a rail: `load` changes the state of all containers but the first. -/
def railCells : List (ℕ × Order) → List (ℕ × Container)
  | [] => []
  | first :: rest => onRail 0x02 first :: rest.map (onRail 0x80)

/-- The first slots of the queue point to the containers that wait; the others are null. -/
structure Lined (queue : CargoQueue) (waiting : List (ℕ × Order)) : Prop where
  queue_eq : queue.queue = slots cargoQueueCapacity (addresses waiting)
  size_eq : queue.size.toNat = waiting.length
  room : waiting.length ≤ cargoQueueCapacity

/-- The station stands for the yard. -/
structure Represents (s : Station) (yard : Yard) : Prop where
  lined : Lined s.queue yard.waiting
  queued : ∀ a order, (a, order) ∈ yard.waiting →
    ∃ material, s.heap a = some ⟨stowed order material, none⟩
  codes : ∀ order ∈ yard.waiting, order.2.code.length = tcSize
  nodup : (addresses yard.waiting).Nodup
  rails : Chains s.heap s.bay.rails fun r => railCells (yard.loaded r)
  apart : ∀ a ∈ addresses yard.waiting, ∀ r, a ∉ addresses (railCells (yard.loaded r))
  allocated : ∀ a, s.heap a ≠ none →
    a ∈ addresses yard.waiting ∨ ∃ r, a ∈ addresses (railCells (yard.loaded r))

variable {s s' : Station} {queue : CargoQueue} {yard : Yard} {order : Order} {a fuel : ℕ}
  {idx material state : UInt8} {r : Fin cargoRailsCapacity} {waiting rest gone : List (ℕ × Order)}

theorem represents_initStation : Represents initStation ⟨[], []⟩ where
  lined := ⟨rfl, rfl, Nat.zero_le _⟩
  queued := fun _ _ hmem => absurd hmem List.not_mem_nil
  codes := fun _ hmem => absurd hmem List.not_mem_nil
  nodup := List.nodup_nil
  rails := chains_nil _
  apart := fun _ hmem => absurd hmem List.not_mem_nil
  allocated := fun _ h => absurd rfl h

/-! ### The queue -/

theorem Lined.push (h : Lined queue waiting) (hroom : waiting.length < cargoQueueCapacity)
    (a : ℕ) (order : Order) :
    ∃ cells, queue.queue.store queue.size.toNat (some a) = .ok cells ∧
      Lined ⟨cells, queue.size + 1⟩ (waiting ++ [(a, order)]) := by
  have hlength : (addresses waiting).length = waiting.length := List.length_map ..
  have hstore := store_slots (n := cargoQueueCapacity) (hlength.trans_lt hroom) a
  rw [hlength, ← h.size_eq, ← h.queue_eq] at hstore
  have hten : cargoQueueCapacity = 10 := rfl
  have hsize := h.size_eq
  have hadd : (queue.size + 1).toNat = (queue.size.toNat + 1) % 256 := UInt8.toNat_add ..
  have hconcat : (waiting ++ [(a, order)]).length = waiting.length + 1 := by simp
  exact ⟨_, hstore, by rw [addresses_concat], by dsimp only; omega, by omega⟩

theorem Lined.pop (h : Lined queue ((a, order) :: rest)) :
    queue.size ≠ 0 ∧ queue.queue.load 0 = .ok (some a) ∧
      ∃ moved cells, moveDown queue.queue (queue.size - 1).toNat = .ok moved ∧
        moved.store (queue.size - 1).toNat none = .ok cells ∧
        Lined ⟨cells, queue.size - 1⟩ rest := by
  have hsize : queue.size.toNat = rest.length + 1 := h.size_eq
  have hroom : rest.length + 1 ≤ cargoQueueCapacity := h.room
  have hlength : (addresses rest).length = rest.length := List.length_map ..
  have hsub : (queue.size - 1).toNat = (256 - 1 + queue.size.toNat) % 256 := UInt8.toNat_sub ..
  have hlt := queue.size.toNat_lt
  have hpred : (queue.size - 1).toNat = (addresses rest).length := by omega
  have hfit : (addresses rest).length < cargoQueueCapacity := by omega
  have hmove := moveDown_slots hfit a
  rw [← addresses_cons (v := order), ← h.queue_eq, ← hpred] at hmove
  obtain ⟨moved, hdown, hclear⟩ := Outcome.bind_eq_ok.mp hmove
  refine ⟨fun hzero => ?_, ?_, moved, _, hdown, hclear, rfl, by dsimp only; omega, by omega⟩
  · rw [hzero] at hsize
    cases hsize
  · rw [h.queue_eq]
    rfl

/-! ### Queueing -/

theorem validateTc_eq {code : CString} (hcode : code.length = tcSize) :
    validateTc code = some code :=
  if_neg (not_not_intro hcode)

/-- What an `enqueue` that returns was given. -/
theorem of_enqueue {s' : Station} {code : CString} {mat : CargoMaterial} {v1 v2 : UInt8}
    (hcall : enqueue s a material state code mat v1 v2 = .ok s') :
    s.queue.size.toNat < cargoQueueCapacity ∧ code.length = tcSize := by
  unfold enqueue validateTc at hcall
  split_ifs at hcall with hfull hcode
  · exact ⟨by omega, by simpa using hcode⟩

/-- A free cell is neither in the queue nor on a rail. -/
theorem Represents.fresh (h : Represents s yard) (hfree : s.heap a = none) :
    a ∉ addresses yard.waiting := by
  intro hmem
  obtain ⟨⟨a', order⟩, hwaits, rfl⟩ := List.mem_map.mp hmem
  obtain ⟨material, hcell⟩ := h.queued a' order hwaits
  cases hcell.symm.trans hfree

theorem Represents.enqueue (h : Represents s yard) (hfree : s.heap a = none)
    (hroom : yard.waiting.length < cargoQueueCapacity) (hcode : order.code.length = tcSize)
    (material state : UInt8) :
    ∃ s', enqueue s a material state order.code order.mat order.v1 order.v2 = .ok s' ∧
      Represents s' (yard.apply (.enqueue a order)) := by
  have hfresh := h.fresh hfree
  obtain ⟨cells, hstore, hlined⟩ := h.lined.push hroom a order
  have hframe : ∀ b, b ≠ a → s.heap.alloc a (stowed order material) b = s.heap b :=
    fun b hb => Function.update_of_ne hb ..
  refine ⟨{ s with
    queue := ⟨cells, s.queue.size + 1⟩
    heap := s.heap.alloc a (stowed order material) }, ?_, ?_⟩
  · -- the queue has room and the code is valid, so neither check refuses the order
    have hsize := h.lined.size_eq
    unfold Cargo.enqueue
    rw [if_neg (by omega), validateTc_eq hcode]
    simp only [hstore, Outcome.ok_bind, inspect_mark]
  · exact
      { lined := hlined
        queued := by
          intro b order' hmem
          rcases List.mem_append.mp hmem with hold | hlast
          · have hb : b ≠ a := by
              rintro rfl
              exact hfresh (List.mem_map_of_mem hold)
            obtain ⟨material', hcell⟩ := h.queued b order' hold
            exact ⟨material', (hframe b hb).trans hcell⟩
          · cases List.mem_singleton.mp hlast
            exact ⟨material, Function.update_self ..⟩
        codes := by
          intro order' hmem
          rcases List.mem_append.mp hmem with hold | hlast
          · exact h.codes order' hold
          · cases List.mem_singleton.mp hlast
            exact hcode
        nodup := by
          rw [Yard.apply, addresses_concat, ← List.concat_eq_append, List.nodup_concat]
          exact ⟨hfresh, h.nodup⟩
        rails := h.rails.frame fun r b hb => hframe b fun heq => h.rails.fresh hfree r (heq ▸ hb)
        -- the new container is on no rail, as its address was free
        apart := by
          intro b hmem r
          rcases mem_addresses_concat.mp hmem with hold | rfl
          · exact h.apart b hold r
          · exact h.rails.fresh hfree r
        allocated := by
          intro b hb
          rw [Yard.apply, mem_addresses_concat]
          rcases eq_or_ne b a with rfl | hne
          · exact Or.inl (Or.inr rfl)
          · dsimp only at hb
            rw [hframe b hne] at hb
            exact (h.allocated b hb).imp_left Or.inl }

/-! ### Loading -/

theorem railCells_concat (orders : List (ℕ × Order)) (order : ℕ × Order) :
    railCells (orders ++ [order]) =
      railCells orders ++ [onRail (if orders = [] then 0x02 else 0x80) order] := by
  cases orders with
  | nil => rfl
  | cons first rest => simp [railCells]

/-- The bit that `load` looks at. -/
theorem stowed_inspected_iff (order : Order) (material : UInt8) :
    (stowed order material).containerState &&& bit inspectedIdx = 0 ↔ order.accepted = false := by
  have hstate : (stowed order material).containerState = if order.accepted then 0x02 else 0x08 :=
    rfl
  rw [hstate]
  cases order.accepted <;> decide

theorem not_uninspected (haccepted : order.accepted) (material : UInt8) :
    ¬ (stowed order material).containerState &&& bit inspectedIdx = 0 := by
  rw [stowed_inspected_iff, haccepted]
  decide

theorem validateTc_stowed (hcode : order.code.length = tcSize) (material : UInt8) :
    validateTc (stowed order material).trackingCode = some order.code :=
  validateTc_eq hcode

theorem stowed_of_accepted (haccepted : order.accepted) (material : UInt8) :
    stowed order material = (onRail 0x02 (a, order)).2 := by
  obtain ⟨code, mat, v1, v2⟩ := order
  cases mat with
  | other => cases haccepted
  | _ => simp only [stowed, onRail, haccepted, if_true]

/-- A container that has not passed the inspection is freed. -/
theorem load_refused (hcell : s.heap a = some ⟨stowed order material, none⟩)
    (hcode : order.code.length = tcSize)
    (hidx : hashFunction order.code cargoRailsCapacity = .ok idx)
    (hrefused : order.accepted = false) (fuel : ℕ) :
    load s (some a) fuel = .ok { s with heap := s.heap.free a } := by
  have hstate := (stowed_inspected_iff order material).mpr hrefused
  have hvalid := validateTc_stowed hcode material
  simp only [load, Heap.load_some hcell, Outcome.ok_bind, hvalid, hidx, hstate, if_true]

/-- On an empty rail an accepted container becomes the first one, as it is. -/
theorem load_onEmpty (hcell : s.heap a = some ⟨stowed order material, none⟩)
    (hcode : order.code.length = tcSize)
    (hidx : hashFunction order.code cargoRailsCapacity = .ok idx) (hr : idx.toNat = r)
    (haccepted : order.accepted) (hrail : s.bay.rails r = none) (fuel : ℕ) :
    load s (some a) fuel = .ok { s with bay := ⟨Function.update s.bay.rails r (some a)⟩ } := by
  have hstate := not_uninspected haccepted material
  have hvalid := validateTc_stowed hcode material
  simp only [load, Heap.load_some hcell, Outcome.ok_bind, hvalid, hidx, if_neg hstate, hr,
    Block.load_natCast, Block.store_natCast, hrail]

/-- On a rail with containers it is marked and linked behind the last one. -/
theorem load_behind {first : ℕ} (hcell : s.heap a = some ⟨stowed order material, none⟩)
    (hcode : order.code.length = tcSize)
    (hidx : hashFunction order.code cargoRailsCapacity = .ok idx) (hr : idx.toNat = r)
    (haccepted : order.accepted) (hrail : s.bay.rails r = some first) :
    load s (some a) = fun fuel =>
      linkLast (s.heap.alloc a (onRail 0x80 (a, order)).2) (some first) a fuel >>=
        fun linked => .ok { s with heap := linked.1 } := by
  have hstate := not_uninspected haccepted material
  have hvalid := validateTc_stowed hcode material
  have hmark : (⟨(stowed order material).trackingCode, (stowed order material).containerMaterial,
      resetState ||| bit departureIdx⟩ : Container) = (onRail 0x80 (a, order)).2 := by
    rw [stowed_of_accepted (a := a) haccepted]
    rfl
  funext fuel
  simp only [load, Heap.load_some hcell, Outcome.ok_bind, hvalid, hidx, if_neg hstate, hr,
    Block.load_natCast, hrail, Heap.store_some hcell, hmark]
  rfl

/-- An accepted container goes to the end of its rail. -/
theorem load_accepted {lists : Fin cargoRailsCapacity → List (ℕ × Container)}
    (h : Chains s.heap s.bay.rails lists) (ha : ∀ r, a ∉ addresses (lists r))
    (hcell : s.heap a = some ⟨stowed order material, none⟩)
    (hcode : order.code.length = tcSize)
    (hidx : hashFunction order.code cargoRailsCapacity = .ok idx) (hr : idx.toNat = r)
    (haccepted : order.accepted) :
    ∃ s', Returns (load s (some a)) s' ∧ s'.queue = s.queue ∧
      Chains s'.heap s'.bay.rails (Function.update lists r
        (lists r ++ [onRail (if lists r = [] then 0x02 else 0x80) (a, order)])) ∧
      ∀ b, b ∉ addresses (lists r) → b ≠ a → s'.heap b = s.heap b := by
  have hempty : s.bay.rails r = none ↔ lists r = [] := by
    rw [h.head_eq r, first_eq_none_iff]
  rcases hrail : s.bay.rails r with _ | first
  · have hload := load_onEmpty hcell hcode hidx hr haccepted hrail
    obtain ⟨heap', hlink, hchains, hframe⟩ := h.linkLast r ha (onRail 0x02 (a, order)).2
    have hsame : s.heap.alloc a (onRail 0x02 (a, order)).2 = s.heap := by
      rw [← stowed_of_accepted haccepted material]
      exact Function.update_eq_self_iff.mpr hcell.symm
    rw [hrail, hsame] at hlink
    cases hlink.unique (.of_eq fun _ => rfl)
    rw [hrail] at hchains
    rw [if_pos (hempty.mp hrail)]
    exact ⟨_, .of_eq hload, rfl, hchains, hframe⟩
  · have hload := load_behind hcell hcode hidx hr haccepted hrail
    obtain ⟨heap', hlink, hchains, hframe⟩ := h.linkLast r ha (onRail 0x80 (a, order)).2
    have hrails : Function.update s.bay.rails r (some first) = s.bay.rails :=
      Function.update_eq_self_iff.mpr hrail.symm
    rw [hrail] at hlink hchains
    rw [Option.getD_some, hrails] at hchains
    have hne : lists r ≠ [] := fun hnil => by
      cases hrail.symm.trans (hempty.mpr hnil)
    rw [if_neg hne]
    exact ⟨{ s with heap := heap' }, hload ▸ hlink.bind (.of_eq fun _ => rfl), rfl, hchains,
      hframe⟩

/-- A load that returns could hash the code, and an accepted one found its rail. -/
theorem of_load (hcell : s.heap a = some ⟨stowed order material, none⟩)
    (hcode : order.code.length = tcSize) (hok : load s (some a) fuel = .ok s') :
    ∃ idx, hashFunction order.code cargoRailsCapacity = .ok idx ∧
      (order.accepted → ∃ r : Fin cargoRailsCapacity, idx.toNat = r) := by
  have hvalid := validateTc_stowed hcode material
  simp only [load, Heap.load_some hcell, Outcome.ok_bind, hvalid] at hok
  obtain ⟨idx, hidx, hok⟩ := Outcome.bind_eq_ok.mp hok
  refine ⟨idx, hidx, fun haccepted => ?_⟩
  rw [if_neg (by rw [stowed_inspected_iff, haccepted]; decide)] at hok
  obtain ⟨rail, hload, -⟩ := Outcome.bind_eq_ok.mp hok
  obtain ⟨r, hr, -⟩ := Block.exists_of_load hload
  exact ⟨r, Int.ofNat.inj hr⟩

/-! ### Dequeueing -/

/-- What the callback of `dequeue` is given. -/
theorem Lined.dequeue_eq (h : Lined s.queue ((a, order) :: rest)) :
    ∃ queue, Lined queue rest ∧ ∀ onDequeue : Station → Option ℕ → Outcome Station,
      dequeue s onDequeue = onDequeue { s with queue := queue } (some a) := by
  obtain ⟨hpos, hfront, moved, cells, hdown, hclear, hlined⟩ := h.pop
  refine ⟨_, hlined, fun onDequeue => ?_⟩
  rw [dequeue, if_neg hpos, hfront, Outcome.ok_bind]
  simp only [hdown, Outcome.ok_bind, hclear]

theorem railCells_eq_nil_iff {orders : List (ℕ × Order)} : railCells orders = [] ↔ orders = [] := by
  cases orders with
  | nil => exact iff_of_true rfl rfl
  | cons first rest => exact iff_of_false (List.cons_ne_nil _ _) (List.cons_ne_nil _ _)

/-- An order that is refused changes no rail. -/
theorem loaded_refused (hrefused : order.accepted = false) (waiting rest : List (ℕ × Order)) :
    Yard.loaded ⟨waiting, gone ++ [(a, order)]⟩ = Yard.loaded ⟨rest, gone⟩ := by
  funext r
  unfold Yard.loaded
  rw [List.filter_append, List.filter_cons_of_neg (by simp [hrefused]), List.filter_nil,
    List.append_nil]

theorem loaded_accepted (haccepted : order.accepted)
    (hidx : hashFunction order.code cargoRailsCapacity = .ok (UInt8.ofNat r))
    (gone waiting rest : List (ℕ × Order)) (r' : Fin cargoRailsCapacity) :
    Yard.loaded ⟨waiting, gone ++ [(a, order)]⟩ r' =
      if r' = r then Yard.loaded ⟨rest, gone⟩ r' ++ [(a, order)]
      else Yard.loaded ⟨rest, gone⟩ r' := by
  unfold Yard.loaded
  rw [List.filter_append]
  split_ifs with hr
  · rw [List.filter_cons_of_pos (by rw [haccepted, hr, decide_eq_true hidx]; rfl), List.filter_nil]
  · have hother : ¬ hashFunction order.code cargoRailsCapacity = .ok (UInt8.ofNat r') := by
      rw [hidx, Except.ok.injEq, ofNat_inj_of_le (by decide)]
      exact fun heq => hr heq.symm
    rw [List.filter_cons_of_neg (by rw [decide_eq_false hother]; simp), List.filter_nil,
      List.append_nil]

/-- An order that is accepted changes the rail of its code. -/
theorem railCells_loaded (haccepted : order.accepted)
    (hidx : hashFunction order.code cargoRailsCapacity = .ok (UInt8.ofNat r)) (a : ℕ)
    (gone waiting rest : List (ℕ × Order)) :
    (fun r' => railCells (Yard.loaded ⟨waiting, gone ++ [(a, order)]⟩ r')) =
      Function.update (fun r' => railCells (Yard.loaded ⟨rest, gone⟩ r')) r
        (railCells (Yard.loaded ⟨rest, gone⟩ r) ++
          [onRail (if railCells (Yard.loaded ⟨rest, gone⟩ r) = [] then 0x02 else 0x80)
            (a, order)]) := by
  funext r'
  rw [loaded_accepted haccepted hidx gone waiting rest]
  rcases eq_or_ne r' r with rfl | hne
  · rw [Function.update_self, if_pos rfl, railCells_concat]
    simp only [railCells_eq_nil_iff]
  · rw [Function.update_of_ne hne, if_neg hne]

/-- The first container does not wait behind itself, and the others wait once. -/
theorem Represents.nodup_behind (h : Represents s yard)
    (hwaiting : yard.waiting = (a, order) :: rest) :
    a ∉ addresses rest ∧ (addresses rest).Nodup := by
  have hnodup := h.nodup
  rwa [hwaiting, addresses_cons, List.nodup_cons] at hnodup

/-- A container has left the queue, and the rails have taken no other one. -/
theorem Represents.depart (h : Represents s yard) (hwaiting : yard.waiting = (a, order) :: rest)
    (hlined : Lined s'.queue rest) (hframe : ∀ b ∈ addresses rest, s'.heap b = s.heap b)
    (hrails : Chains s'.heap s'.bay.rails fun r =>
      railCells (Yard.loaded ⟨rest, yard.gone ++ [(a, order)]⟩ r))
    (hnew : ∀ b r, b ∈ addresses (railCells (Yard.loaded ⟨rest, yard.gone ++ [(a, order)]⟩ r)) →
      b = a ∨ b ∈ addresses (railCells (yard.loaded r)))
    (hallocated : ∀ b, s'.heap b ≠ none → b ∈ addresses rest ∨
      ∃ r, b ∈ addresses (railCells (Yard.loaded ⟨rest, yard.gone ++ [(a, order)]⟩ r))) :
    Represents s' ⟨rest, yard.gone ++ [(a, order)]⟩ := by
  have hnodup := h.nodup_behind hwaiting
  have hsub : ∀ x ∈ rest, x ∈ yard.waiting := fun x hx => by
    rw [hwaiting]
    exact List.mem_cons_of_mem _ hx
  exact
    { lined := hlined
      queued := by
        intro b order' hmem
        obtain ⟨material, hcell⟩ := h.queued b order' (hsub _ hmem)
        exact ⟨material, (hframe b (List.mem_map_of_mem hmem)).trans hcell⟩
      codes := fun order' hmem => h.codes order' (hsub _ hmem)
      nodup := hnodup.2
      rails := hrails
      apart := by
        intro b hmem r hrail
        rcases hnew b r hrail with rfl | hold
        · exact hnodup.1 hmem
        · have hwaits : b ∈ addresses yard.waiting := by
            rw [hwaiting]
            exact List.mem_cons_of_mem _ hmem
          exact h.apart b hwaits r hold
      allocated := hallocated }

/-- The rails hold what they held, and the accepted order. -/
theorem mem_railCells_loaded_iff (haccepted : order.accepted)
    (hidx : hashFunction order.code cargoRailsCapacity = .ok (UInt8.ofNat r))
    (gone waiting rest : List (ℕ × Order)) {b : ℕ} {r' : Fin cargoRailsCapacity} :
    b ∈ addresses (railCells (Yard.loaded ⟨waiting, gone ++ [(a, order)]⟩ r')) ↔
      b ∈ addresses (railCells (Yard.loaded ⟨rest, gone⟩ r')) ∨ b = a ∧ r' = r := by
  rw [congrFun (railCells_loaded haccepted hidx a gone waiting rest) r']
  rcases eq_or_ne r' r with rfl | hne
  · rw [Function.update_self, addresses_append, List.mem_append]
    simp [onRail]
  · rw [Function.update_of_ne hne]
    simp [hne]

/-- What was allocated is the first container, waits behind it or is on a rail. -/
theorem Represents.behind (h : Represents s yard) (hwaiting : yard.waiting = (a, order) :: rest)
    {b : ℕ} (hne : b ≠ a) (hb : s.heap b ≠ none) :
    b ∈ addresses rest ∨ ∃ r, b ∈ addresses (railCells (yard.loaded r)) := by
  refine (h.allocated b hb).imp_left fun hwaits => ?_
  rw [hwaiting, addresses_cons] at hwaits
  exact (List.mem_cons.mp hwaits).resolve_left hne

/-- The first container of the queue is refused. -/
theorem Represents.refuse (h : Represents s yard) (hwaiting : yard.waiting = (a, order) :: rest)
    (hlined : Lined queue rest) (hcell : s.heap a = some ⟨stowed order material, none⟩)
    (hidx : hashFunction order.code cargoRailsCapacity = .ok idx)
    (hrefused : order.accepted = false) :
    ∃ s', Returns (load { s with queue := queue } (some a)) s' ∧
      Represents s' ⟨rest, yard.gone ++ [(a, order)]⟩ := by
  have hmem : (a, order) ∈ yard.waiting := by simp [hwaiting]
  have hcode := h.codes _ hmem
  have hnodup := h.nodup_behind hwaiting
  have hloaded : Yard.loaded ⟨rest, yard.gone ++ [(a, order)]⟩ = yard.loaded :=
    loaded_refused hrefused rest yard.waiting
  have hframe : ∀ b, b ≠ a → s.heap.free a b = s.heap b :=
    fun b hne => Function.update_of_ne hne ..
  refine ⟨_, .of_eq (load_refused (s := { s with queue := queue }) hcell hcode hidx hrefused),
    h.depart hwaiting hlined (fun b hb => hframe b ?_) ?_ ?_ ?_⟩
  · rintro rfl
    exact hnodup.1 hb
  · rw [hloaded]
    refine h.rails.frame fun r b hb => hframe b ?_
    rintro rfl
    exact h.apart b (List.mem_map_of_mem hmem) r hb
  · rw [hloaded]
    exact fun b r hb => Or.inr hb
  · rw [hloaded]
    intro b hb
    have hne : b ≠ a := by
      rintro rfl
      exact hb (Function.update_self ..)
    exact h.behind hwaiting hne (hframe b hne ▸ hb)

/-- The first container of the queue is accepted. -/
theorem Represents.accept (h : Represents s yard) (hwaiting : yard.waiting = (a, order) :: rest)
    (hlined : Lined queue rest) (hcell : s.heap a = some ⟨stowed order material, none⟩)
    (hidx : hashFunction order.code cargoRailsCapacity = .ok idx)
    (haccepted : order.accepted) (hr : idx.toNat = r) :
    ∃ s', Returns (load { s with queue := queue } (some a)) s' ∧
      Represents s' ⟨rest, yard.gone ++ [(a, order)]⟩ := by
  have hmem : (a, order) ∈ yard.waiting := by simp [hwaiting]
  have hcode := h.codes _ hmem
  have hapart := h.apart a (List.mem_map_of_mem hmem)
  have hnodup := h.nodup_behind hwaiting
  obtain rfl : idx = UInt8.ofNat r := by rw [← hr, UInt8.ofNat_toNat]
  obtain ⟨s', hload, hqueue, hchains, hframe⟩ := load_accepted (s := { s with queue := queue })
    h.rails hapart hcell hcode hidx hr haccepted
  have hrail : ∀ b r',
      b ∈ addresses (railCells (Yard.loaded ⟨rest, yard.gone ++ [(a, order)]⟩ r')) ↔
        b ∈ addresses (railCells (yard.loaded r')) ∨ b = a ∧ r' = r :=
    fun b r' => mem_railCells_loaded_iff haccepted hidx yard.gone rest yard.waiting
  refine ⟨s', hload, h.depart hwaiting (hqueue ▸ hlined) (fun b hb => ?_)
    (railCells_loaded haccepted hidx a yard.gone rest yard.waiting ▸ hchains)
    (fun b r' hb => ?_) fun b hb => ?_⟩
  · have hwaits : b ∈ addresses yard.waiting := by
      rw [hwaiting]
      exact List.mem_cons_of_mem _ hb
    refine hframe b (h.apart b hwaits r) ?_
    rintro rfl
    exact hnodup.1 hb
  · exact ((hrail b r').mp hb).symm.imp_left And.left
  · by_cases hon : b ∈ addresses (railCells (yard.loaded r))
    · exact Or.inr ⟨r, (hrail b r).mpr (Or.inl hon)⟩
    · rcases eq_or_ne b a with rfl | hne
      · exact Or.inr ⟨r, (hrail b r).mpr (Or.inr ⟨rfl, rfl⟩)⟩
      · rw [hframe b hon hne] at hb
        refine (h.behind hwaiting hne hb).imp_right ?_
        rintro ⟨r', hr'⟩
        exact ⟨r', (hrail b r').mpr (Or.inl hr')⟩

/-- The first order of the queue is dequeued. -/
theorem Represents.dequeue (h : Represents s yard) (hwaiting : yard.waiting = (a, order) :: rest)
    (hidx : hashFunction order.code cargoRailsCapacity = .ok idx)
    (hr : order.accepted → ∃ r : Fin cargoRailsCapacity, idx.toNat = r) :
    ∃ s', Returns (fun fuel => Cargo.dequeue s (fun s container => load s container fuel)) s' ∧
      Represents s' (yard.apply .dequeue) := by
  have hmem : (a, order) ∈ yard.waiting := by simp [hwaiting]
  obtain ⟨material, hcell⟩ := h.queued a order hmem
  have hyard : yard.apply .dequeue = ⟨rest, yard.gone ++ [(a, order)]⟩ := by
    rw [Yard.apply, hwaiting]
  obtain ⟨queue, hlined, hcallback⟩ := (hwaiting ▸ h.lined).dequeue_eq
  obtain ⟨s', hload, h'⟩ : ∃ s', Returns (load { s with queue := queue } (some a)) s' ∧
      Represents s' (yard.apply .dequeue) := by
    rw [hyard]
    cases haccepted : order.accepted with
    | false => exact h.refuse hwaiting hlined hcell hidx haccepted
    | true =>
      obtain ⟨r, hr⟩ := hr haccepted
      exact h.accept hwaiting hlined hcell hidx haccepted hr
  exact ⟨s', hload.congr fun fuel => hcallback _, h'⟩

/-! ### Runs -/

/-- With nothing in the queue `dequeue` does nothing. -/
theorem Lined.dequeue_nil (h : Lined s.queue [])
    (onDequeue : Station → Option ℕ → Outcome Station) : dequeue s onDequeue = .ok s :=
  if_pos (UInt8.toNat_inj.mp h.size_eq)

/-- A `dequeue` that returns could hash the code, and an accepted order found its rail. -/
theorem Represents.of_dequeue (h : Represents s yard) (hwaiting : yard.waiting = (a, order) :: rest)
    (hcall : Cargo.dequeue s (fun s container => load s container fuel) = .ok s') :
    ∃ idx, hashFunction order.code cargoRailsCapacity = .ok idx ∧
      (order.accepted → ∃ r : Fin cargoRailsCapacity, idx.toNat = r) := by
  have hmem : (a, order) ∈ yard.waiting := by simp [hwaiting]
  obtain ⟨material, hcell⟩ := h.queued a order hmem
  obtain ⟨queue, -, hcallback⟩ := (hwaiting ▸ h.lined).dequeue_eq
  rw [hcallback] at hcall
  exact of_load (s := { s with queue := queue }) hcell (h.codes _ hmem) hcall

/-- A call that returns does to the station what it does to the yard. -/
theorem Represents.step {e : Call} (h : Represents s yard) (hstep : Step s e s') :
    Represents s' (yard.apply e) := by
  cases hstep with
  | enqueue hfree hcall =>
    obtain ⟨hroom, hcode⟩ := of_enqueue hcall
    rw [h.lined.size_eq] at hroom
    obtain ⟨s₁, hcall₁, h₁⟩ := h.enqueue hfree hroom hcode _ _
    cases hcall₁.symm.trans hcall
    exact h₁
  | dequeue hcall =>
    rcases hwaiting : yard.waiting with _ | ⟨⟨a, order⟩, rest⟩
    · have hlined := h.lined
      rw [hwaiting] at hlined
      rw [hlined.dequeue_nil] at hcall
      cases hcall
      rw [Yard.apply, hwaiting]
      exact h
    · obtain ⟨idx, hidx, hr⟩ := h.of_dequeue hwaiting hcall
      obtain ⟨s₁, hreturns, h₁⟩ := h.dequeue hwaiting hidx hr
      cases hreturns.eq_of_ok hcall
      exact h₁

theorem yard_concat (calls : List Call) (e : Call) : Cargo.yard (calls ++ [e]) =
    (Cargo.yard calls).apply e := by
  rw [Cargo.yard, List.foldl_append]
  rfl

theorem represents {trace : Trace Station Call} (hrun : Run system trace s) :
    Represents s (Cargo.yard (events trace)) := by
  refine hrun.invariant (I := fun calls s => Represents s (Cargo.yard calls)) ?_ ?_
  · rintro s rfl
    exact represents_initStation
  · intro calls s e s' h hstep
    rw [yard_concat]
    exact h.step hstep

/-- The order of an `enqueue`, with the address of its container. -/
def Call.enqueued : Call → Option (ℕ × Order)
  | .enqueue container order => some (container, order)
  | .dequeue => none

/-- What was enqueued is gone or waits, in the order in which it arrived. -/
theorem gone_append_waiting (calls : List Call) :
    (Cargo.yard calls).gone ++ (Cargo.yard calls).waiting = calls.filterMap Call.enqueued := by
  induction calls using List.reverseRecOn with
  | nil => rfl
  | append_singleton calls e ih =>
    rw [yard_concat, List.filterMap_append, ← ih]
    cases e with
    | enqueue container order => exact (List.append_assoc ..).symm
    | dequeue =>
      rcases hwaiting : (Cargo.yard calls).waiting with _ | ⟨first, rest⟩
      · simp [Yard.apply, hwaiting, Call.enqueued]
      · simp [Yard.apply, hwaiting, Call.enqueued]

theorem exists_hashFunction_eq {code : CString} (hascii : code.IsAscii) :
    ∃ (idx : UInt8) (r : Fin cargoRailsCapacity),
      hashFunction code cargoRailsCapacity = .ok idx ∧ idx.toNat = r := by
  obtain ⟨r, hhash, hbyte⟩ := exists_charHash_eq (n := cargoRailsCapacity) (by decide)
    (by decide) hascii
  exact ⟨_, r, by rw [hashFunction, hhash, Outcome.ok_bind], hbyte⟩

/-- Orders with ASCII codes can be dequeued. -/
theorem Represents.exists_dequeue (h : Represents s yard)
    (hascii : ∀ order ∈ yard.waiting, order.2.code.IsAscii) : ∃ s', Step s .dequeue s' := by
  rcases hwaiting : yard.waiting with _ | ⟨⟨a, order⟩, rest⟩
  · have hlined := h.lined
    rw [hwaiting] at hlined
    have hcall := hlined.dequeue_nil fun s container => load s container 0
    exact ⟨s, .dequeue hcall⟩
  · obtain ⟨idx, r, hidx, hr⟩ := exists_hashFunction_eq (hascii (a, order) (by simp [hwaiting]))
    obtain ⟨s', hreturns, -⟩ := h.dequeue hwaiting hidx fun _ => ⟨r, hr⟩
    obtain ⟨fuel, hcall⟩ := hreturns.exists_ok
    exact ⟨s', .dequeue hcall⟩

/-- One order on its way through the queue. -/
theorem exists_run (hcode : order.code.length = tcSize) (hascii : order.code.IsAscii) :
    ∃ v s, Run system [(initStation, .enqueue 0 order), (v, .dequeue)] s ∧
      Represents v ⟨[(0, order)], []⟩ := by
  obtain ⟨v, hcall, h⟩ := represents_initStation.enqueue (a := 0) rfl (by decide) hcode 0 0
  have hrun := (Run.start rfl : Run system [] initStation).step (.enqueue rfl hcall)
  obtain ⟨s, hstep⟩ := h.exists_dequeue fun order' hmem => by
    cases List.mem_singleton.mp hmem
    exact hascii
  exact ⟨v, s, hrun.step hstep, h⟩

/-- Where the containers of a sequence of calls are, and that valid calls return. -/
structure Routed (calls : List Call) (s : Station) : Prop where
  kept : (Cargo.yard calls).gone ++ (Cargo.yard calls).waiting = calls.filterMap Call.enqueued
  slots_eq : ∀ i : Fin cargoQueueCapacity,
    s.queue.queue i = (Cargo.yard calls).waiting[(i : ℕ)]?.map Prod.fst
  size_eq : s.queue.size.toNat = (Cargo.yard calls).waiting.length
  queued : ∀ a order, (a, order) ∈ (Cargo.yard calls).waiting →
    ∃ container, s.heap a = some ⟨container, none⟩ ∧ container.trackingCode = order.code
  nodup : (addresses (Cargo.yard calls).waiting).Nodup
  rails : ∃ lists, Chains s.heap s.bay.rails lists ∧ ∀ r,
    (lists r).map (fun cell => (cell.1, cell.2.trackingCode, cell.2.containerMaterial)) =
      ((Cargo.yard calls).loaded r).map fun order =>
        (order.1, order.2.code, matCombine order.2.v1 order.2.v2)
  allocated : ∀ a, s.heap a ≠ none ↔ a ∈ addresses (Cargo.yard calls).waiting ∨
    ∃ r, a ∈ addresses ((Cargo.yard calls).loaded r)
  enqueue_returns : ∀ a order, s.heap a = none →
    (Cargo.yard calls).waiting.length < cargoQueueCapacity → order.code.length = tcSize →
      ∃ s', Step s (.enqueue a order) s'
  dequeue_returns : (∀ order ∈ calls.filterMap Call.enqueued, order.2.code.IsAscii) →
    ∃ s', Step s .dequeue s'

theorem addresses_railCells (orders : List (ℕ × Order)) :
    addresses (railCells orders) = addresses orders := by
  cases orders with
  | nil => rfl
  | cons first rest => simp [railCells, onRail, addresses, Function.comp_def]

theorem map_railCells (orders : List (ℕ × Order)) :
    (railCells orders).map (fun cell => (cell.1, cell.2.trackingCode, cell.2.containerMaterial)) =
      orders.map fun order => (order.1, order.2.code, matCombine order.2.v1 order.2.v2) := by
  cases orders with
  | nil => rfl
  | cons first rest => simp [railCells, onRail, Function.comp_def]

/-- Containers are neither lost nor duplicated nor misplaced. -/
theorem routed {trace : Trace Station Call} (hrun : Run system trace s) :
    Routed (events trace) s := by
  have h := represents hrun
  have hkept := gone_append_waiting (events trace)
  exact
    { kept := hkept
      slots_eq := by
        intro i
        rw [h.lined.queue_eq, slots, addresses, List.getElem?_map]
      size_eq := h.lined.size_eq
      queued := by
        intro a order hmem
        obtain ⟨material, hcell⟩ := h.queued a order hmem
        exact ⟨_, hcell, rfl⟩
      nodup := h.nodup
      rails := ⟨_, h.rails, fun r => map_railCells _⟩
      allocated := by
        intro a
        have hrails : (∃ r, a ∈ addresses ((Cargo.yard (events trace)).loaded r)) ↔
            ∃ r, a ∈ addresses (railCells ((Cargo.yard (events trace)).loaded r)) :=
          exists_congr fun r => by rw [addresses_railCells]
        rw [hrails]
        refine ⟨h.allocated a, ?_⟩
        rintro (hwaits | ⟨r, hr⟩) hnone
        · exact h.fresh hnone hwaits
        · exact h.rails.fresh hnone r hr
      enqueue_returns := by
        intro a order hfree hroom hcode
        obtain ⟨s', hcall, -⟩ := h.enqueue hfree hroom hcode 0 0
        exact ⟨s', .enqueue hfree hcall⟩
      dequeue_returns := by
        intro hascii
        refine h.exists_dequeue fun order hmem => hascii order ?_
        rw [← hkept]
        exact List.mem_append_right _ hmem }

/-- The first order of `main`. -/
def bioen : Order := ⟨.ofString "BIOEN-0", .matBio, 9, 6⟩

/-- The first container of `main` on its way through the queue. -/
theorem routed_bioen :
    ∃ trace s, Run system trace s ∧ events trace = [.enqueue 0 bioen, .dequeue] ∧
      Routed (events trace) s := by
  obtain ⟨v, s, hrun, -⟩ := exists_run (by decide : bioen.code.length = tcSize)
    (by decide +kernel)
  exact ⟨_, s, hrun, rfl, routed hrun⟩

end BareMetal.Cargo
