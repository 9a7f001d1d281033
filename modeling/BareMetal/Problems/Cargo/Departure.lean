import BareMetal.Problems.Cargo.Routing

/-!
# Containers marked for departure

`load` sets the departure bit where it links a container behind another one. The
container that becomes the first of its rail keeps the state of the inspection.

## Main results

* `departed_iff` — all containers on the rails are marked exactly while no container
  becomes the first of its rail
-/

namespace BareMetal.Cargo

open CS Transition LinkedList SlotQueue

/-- The state of every container on a rail is the departure bit. -/
def Departed (s : Station) : Prop :=
  ∃ lists, Chains s.heap s.bay.rails lists ∧
    ∀ r, ∀ cell ∈ lists r, cell.2.containerState = bit departureIdx

/-- The first container of the queue has passed the inspection and its rail is empty. -/
def LoadsFirst (s : Station) : Prop :=
  ∃ a node idx, ∃ r : Fin cargoRailsCapacity, s.queue.queue.load 0 = .ok (some a) ∧
    s.heap a = some node ∧ node.value.containerState &&& bit inspectedIdx ≠ 0 ∧
    hashFunction node.value.trackingCode cargoRailsCapacity = .ok idx ∧ idx.toNat = r ∧
    s.bay.rails r = none

variable {s s' : Station} {yard : Yard} {order : Order} {a : ℕ} {rest : List (ℕ × Order)}

/-- The first container of a rail is never marked, so a station without a mistake has no
container on a rail. -/
theorem Represents.departed_iff_marked (h : Represents s yard) :
    Departed s ↔ ∀ r, yard.loaded r = [] := by
  constructor
  · rintro ⟨lists, hchains, hstate⟩ r
    cases hloaded : yard.loaded r with
    | nil => rfl
    | cons first rest =>
      have hcells := congrFun (hchains.unique h.rails) r
      rw [hloaded, railCells] at hcells
      have hfirst := hstate r (onRail 0x02 first) (by rw [hcells]; exact List.mem_cons_self ..)
      exact absurd hfirst (by decide : ¬ (0x02 : UInt8) = bit departureIdx)
  · intro hempty
    refine ⟨_, h.rails, fun r cell hcell => ?_⟩
    rw [hempty r] at hcell
    cases hcell

theorem Represents.rail_eq_none (h : Represents s yard) {r : Fin cargoRailsCapacity}
    (hempty : yard.loaded r = []) : s.bay.rails r = none := by
  rw [h.rails.head_eq r, hempty]
  rfl

/-- What `dequeue` is about to load. -/
theorem Represents.loadsFirst_iff (h : Represents s yard)
    (hwaiting : yard.waiting = (a, order) :: rest) (hempty : ∀ r, yard.loaded r = []) :
    LoadsFirst s ↔ order.accepted ∧ ∃ idx, ∃ r : Fin cargoRailsCapacity,
      hashFunction order.code cargoRailsCapacity = .ok idx ∧ idx.toNat = r := by
  have hlined := h.lined
  rw [hwaiting] at hlined
  obtain ⟨material, hcell⟩ := h.queued a order (by simp [hwaiting])
  constructor
  · rintro ⟨a', node, idx, r, hfront, hcell', hstate, hidx, hr, -⟩
    cases hlined.pop.2.1.symm.trans hfront
    cases hcell.symm.trans hcell'
    rw [Ne, stowed_inspected_iff, Bool.not_eq_false] at hstate
    exact ⟨hstate, idx, r, hidx, hr⟩
  · rintro ⟨haccepted, idx, r, hidx, hr⟩
    have hstate : (stowed order material).containerState &&& bit inspectedIdx ≠ 0 := by
      rw [Ne, stowed_inspected_iff, haccepted]
      decide
    exact ⟨a, _, idx, r, hlined.pop.2.1, hcell, hstate, hidx, hr, h.rail_eq_none (hempty r)⟩

/-- The step after which a container is not marked. -/
theorem Represents.step_departed_iff {e : Call} (h : Represents s yard) (hdeparted : Departed s)
    (hstep : Step s e s') : Departed s' ↔ (e = .dequeue → ¬ LoadsFirst s) := by
  have h' := h.step hstep
  have hempty := h.departed_iff_marked.mp hdeparted
  rw [h'.departed_iff_marked]
  cases hstep with
  | enqueue => exact iff_of_true hempty fun heq => by cases heq
  | dequeue hcall =>
    refine Iff.trans ?_ (forall_prop_of_true rfl).symm
    rcases hwaiting : yard.waiting with _ | ⟨⟨a, order⟩, rest⟩
    · -- nothing is dequeued
      have hyard : yard.apply .dequeue = yard := by
        rw [Yard.apply, hwaiting]
      have hnone : s.queue.queue.load 0 = .ok none := by
        rw [h.lined.queue_eq, hwaiting]
        rfl
      rw [hyard]
      refine iff_of_true hempty ?_
      rintro ⟨a, -, -, -, hfront, -⟩
      cases hnone.symm.trans hfront
    · obtain ⟨idx, hidx, hr⟩ := h.of_dequeue hwaiting hcall
      have hyard : yard.apply .dequeue = ⟨rest, yard.gone ++ [(a, order)]⟩ := by
        rw [Yard.apply, hwaiting]
      rw [hyard, h.loadsFirst_iff hwaiting hempty]
      cases haccepted : order.accepted with
      | false =>
        -- a container that is refused is loaded on no rail
        have hloaded : Yard.loaded ⟨rest, yard.gone ++ [(a, order)]⟩ = yard.loaded :=
          loaded_refused haccepted rest yard.waiting
        rw [hloaded]
        exact iff_of_true hempty fun hloads => by cases hloads.1
      | true =>
        -- an accepted one is the first on its rail, and keeps its state there
        obtain ⟨r, hr⟩ := hr haccepted
        have hofNat : idx = UInt8.ofNat r := by
          rw [← hr, UInt8.ofNat_toNat]
        have hloaded := loaded_accepted (a := a) haccepted (hofNat ▸ hidx) yard.gone rest
          yard.waiting r
        rw [if_pos rfl] at hloaded
        refine iff_of_false (fun hempty' => ?_) (not_not_intro ⟨rfl, idx, r, hidx, hr⟩)
        rw [hempty' r] at hloaded
        exact List.append_ne_nil_of_right_ne_nil _ (by simp) hloaded.symm

/-- At every stage all containers on the rails are marked for departure, exactly when no
`dequeue` meets an inspected container whose rail is empty. -/
theorem departed_iff {trace : Trace Station Call} (hrun : Run system trace s) :
    (∀ pre v, Stage trace s pre v → Departed v) ↔
      ∀ v, (v, Call.dequeue) ∈ trace → ¬ LoadsFirst v := by
  have hstages := hrun.stages_iff (P := fun _ v => Departed v)
    (C := fun v e => e = .dequeue → ¬ LoadsFirst v) ?_ ?_
  · rw [hstages]
    exact ⟨fun h v hmem => h v _ hmem rfl, fun h v e hmem he => h v (he ▸ hmem)⟩
  · rintro s rfl
    exact ⟨_, represents_initStation.rails, fun r cell hcell => nomatch hcell⟩
  · intro trace s e s' hrun hdeparted hstep
    exact (represents hrun).step_departed_iff (hdeparted _ _ (Stage.last _ _)) hstep

/-- The last order of `main`: one of its values is zero. -/
def bioenRefused : Order := ⟨.ofString "BIOEN-4", .matBio, 1, 0⟩

/-- A container that is refused reaches no rail. -/
theorem departed_iff_refused :
    ∃ trace s, Run system trace s ∧ events trace = [.enqueue 0 bioenRefused, .dequeue] ∧
      ∀ pre v, Stage trace s pre v → Departed v := by
  obtain ⟨v, s, hrun, h⟩ := exists_run (by decide : bioenRefused.code.length = tcSize)
    (by decide +kernel)
  refine ⟨_, s, hrun, rfl, (departed_iff hrun).mpr fun u hmem => ?_⟩
  have hv : u = v := by simpa using hmem
  rw [hv, h.loadsFirst_iff rfl fun _ => rfl]
  exact fun haccepted => absurd haccepted.1 (by decide)

/-- The first container of `main` keeps the state of the inspection. -/
theorem bioen_not_departed :
    ∃ trace s, Run system trace s ∧ events trace = [.enqueue 0 bioen, .dequeue] ∧
      ¬ Departed s := by
  obtain ⟨v, s, hrun, -⟩ := exists_run (by decide : bioen.code.length = tcSize)
    (by decide +kernel)
  refine ⟨_, s, hrun, rfl, ?_⟩
  rw [(represents hrun).departed_iff_marked]
  have hloaded : (Cargo.yard [.enqueue 0 bioen, .dequeue]).loaded 2 ≠ [] := by decide
  exact fun hempty => hloaded (hempty 2)

end BareMetal.Cargo
