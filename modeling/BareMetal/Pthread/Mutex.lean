import BareMetal.CS.Mutex

/-!
# The sensor of `pthread/mutex.c`

`toggle_sensor` counts itself in the log of the sensor and toggles the switch. Both are loaded
and stored while the thread holds the mutex. The log is an `int`, so that a thread that finds
its greatest value there stops the program.

## Main results

* `run_toggleSensor`, `serial_toggleSensor` — one toggle, and toggles one after another
* `toggles_counted` — what the sensor shows whenever the mutex is free, and when all toggles
  return
-/

namespace BareMetal.ToggleSensor

open CS Transition Mutex

/-- `Sensor`. -/
structure Sensor where
  log : ℤ
  isOn : ℤ
  deriving DecidableEq, Repr

/-- `init_sensor`. -/
def initSensor : Sensor := ⟨0, 0⟩

/-- `toggle_sensor` under the mutex: the log is loaded, increased and stored, then the switch
loaded and stored. There is one register. -/
def toggleSensor : Body Sensor ℤ where
  actions :=
    [fun s => .ok (s.1, s.1.log),
      fun s => do
        let log ← addInt s.2 1
        .ok (s.1, log),
      fun s => .ok ({ s.1 with log := s.2 }, s.2),
      fun s => .ok (s.1, s.1.isOn),
      fun s => .ok ({ s.1 with isOn := if s.2 = 0 then 1 else 0 }, s.2)]
  registers := 0

/-- The sensor after `n` toggles. -/
def toggled (n : ℕ) : Sensor := ⟨n, (n % 2 : ℕ)⟩

variable {ι : Type*} {order : List ι} {sensor : Sensor}

theorem run_toggleSensor (sensor : Sensor) :
    toggleSensor.run sensor =
      addInt sensor.log 1 >>= fun log => .ok ⟨log, if sensor.isOn = 0 then 1 else 0⟩ := by
  rw [Body.run, toggleSensor, execute]
  simp only [List.foldlM_cons, List.foldlM_nil, Outcome.ok_bind, bind_assoc, pure_bind]

theorem run_toggled {n : ℕ} (hmax : (n : ℤ) < intMax) :
    toggleSensor.run (toggled n) = .ok (toggled (n + 1)) := by
  have hparity : (if ((n % 2 : ℕ) : ℤ) = 0 then (1 : ℤ) else 0) = ((n + 1) % 2 : ℕ) := by
    split_ifs <;> omega
  rw [run_toggleSensor, toggled, toggled]
  dsimp only
  rw [addInt_one hmax, Outcome.ok_bind, hparity, Nat.cast_succ]

/-- The log cannot be increased any more. -/
theorem run_toggled_ne_ok {n : ℕ} (hmax : intMax ≤ n) :
    toggleSensor.run (toggled n) ≠ .ok sensor := by
  rw [run_toggleSensor]
  intro hok
  obtain ⟨log, hadd, -⟩ := Outcome.bind_eq_ok.mp hok
  have hle := (of_addInt_eq_ok hadd).2
  dsimp only [toggled] at hle
  omega

/-- Toggles one after another, as far as the log can count them. -/
theorem of_serial_toggleSensor
    (h : serial (fun _ : ι => toggleSensor) initSensor order = .ok sensor) :
    sensor = toggled order.length ∧ (order.length : ℤ) ≤ intMax := by
  induction order using List.reverseRecOn generalizing sensor with
  | nil =>
    cases h
    exact ⟨rfl, (by decide : (0 : ℤ) ≤ intMax)⟩
  | append_singleton order i ih =>
    rw [serial_concat] at h
    obtain ⟨before, hbefore, hrun⟩ := Outcome.bind_eq_ok.mp h
    obtain ⟨rfl, -⟩ := ih hbefore
    have hmax : (order.length : ℤ) < intMax := by
      by_contra hfull
      exact run_toggled_ne_ok (not_lt.mp hfull) hrun
    rw [run_toggled hmax] at hrun
    rw [List.length_append, List.length_singleton]
    exact ⟨(Except.ok.inj hrun).symm, by omega⟩

variable [Fintype ι] [DecidableEq ι]

/-- The number of threads that have returned. -/
def returned (world : World ι Sensor ℤ) : ℕ :=
  ({i | (world.threads i).isBehind} : Finset ι).card

theorem memory_eq {memory : Sensor} {world : World ι Sensor ℤ}
    (h : Serialized (fun _ => toggleSensor) initSensor world order memory) :
    memory = toggled (returned world) ∧ order.length = returned world := by
  have hcard : order.length = returned world := by
    rw [returned, ← h.toFinset_eq, List.toFinset_card_of_nodup h.nodup]
  rw [← hcard]
  exact ⟨(of_serial_toggleSensor h.serial_eq).1, rfl⟩

/-- Whenever the mutex is free, the log is the number of toggles that were made and the switch
is their parity. All toggles return, in every interleaving, exactly when an `int` can count
them. -/
theorem toggles_counted :
    (∀ trace world, Run (system (fun _ : ι => toggleSensor) initSensor) trace world →
      (∀ i j, (world.threads i).isInside → (world.threads j).isInside → i = j) ∧
      (world.mutex = none → world.memory = toggled (returned world))) ∧
    (system (fun _ : ι => toggleSensor) initSensor).Lowers (fun _ => True)
      (World.left fun _ => toggleSensor) ∧
    ((system (fun _ : ι => toggleSensor) initSensor).NeverHangs (fun _ => True)
        (fun world => ∀ i, (world.threads i).isBehind) ↔
      (Fintype.card ι : ℤ) ≤ intMax) := by
  refine ⟨fun trace world hrun => ⟨fun i j => exclusive hrun, fun hfree => ?_⟩,
    lowers_left _ _, neverHangs_iff (lowers_left _ _) rfl fun trace world hrun hrest => ?_⟩
  · obtain ⟨order, memory, h⟩ := serialized hrun
    rw [h.free hfree, (memory_eq h).1]
  · obtain ⟨order, memory, h⟩ := serialized hrun
    obtain ⟨hmemory, hlength⟩ := memory_eq h
    have hle := (of_serial_toggleSensor h.serial_eq).2
    rcases h.atRest hrest with ⟨-, hall⟩ | ⟨i, hnew, hstops⟩
    · -- every thread has returned, so the log has counted all of them
      have hbehind : ∀ i, (world.threads i).isBehind := fun i => h.isBehind_iff.mpr (hall i)
      have hcard : returned world = Fintype.card ι := by
        rw [returned, Finset.filter_true_of_mem fun i _ => hbehind i, Finset.card_univ]
      exact iff_of_true hbehind (by omega)
    · -- the next toggle would be one too many, and its thread is there
      have hfull : intMax ≤ (order.length : ℤ) := by
        by_contra hroom
        rw [hmemory, ← hlength] at hstops
        exact hstops _ (run_toggled (not_le.mp hroom))
      have hlt : order.length < Fintype.card ι := by
        have hnodup : (order ++ [i]).Nodup := by
          rw [← List.concat_eq_append, List.nodup_concat]
          exact ⟨hnew, h.nodup⟩
        have hcard := hnodup.length_le_card
        rw [List.length_append, List.length_singleton] at hcard
        omega
      exact iff_of_false (fun hall => hnew (h.isBehind_iff.mp (hall i))) (by omega)

end BareMetal.ToggleSensor
