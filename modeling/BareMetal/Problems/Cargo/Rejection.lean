import BareMetal.Problems.Cargo.Basic

/-!
# Codes that are not valid

`enqueue` asks for the memory of a container before it looks at the code, and reads the size of
the validated code before it looks whether there is one.

## Main results

* `enqueue_rejects_iff` — a code of the wrong length is refused without harm exactly when there
  is no memory for its container
-/

namespace BareMetal.Cargo

open CS Transition

/-- What `malloc` returns for a container: an address, and the material and the state that the
container starts with. -/
structure Memory where
  container : ℕ
  material : UInt8
  state : UInt8
  deriving DecidableEq, Repr

/-- `enqueue` with either result of `malloc`: without memory the queue stays as it is. -/
def enqueueOrReturn (s : Station) (memory : Option Memory) (code : CString) (mat : CargoMaterial)
    (v1 v2 : UInt8) : Outcome Station :=
  if s.queue.size.toNat + 1 > cargoQueueCapacity then
    .error (.exit 1 "Please standby, the CargoQueue is full\n")
  else
    match memory with
    | none => .ok s
    | some m => enqueue s m.container m.material m.state code mat v1 v2

/-- The queue is as it was when the call returns, and a call that does not return has ended the
process. -/
def RejectsCleanly (s : Station) (memory : Option Memory) (order : Order) : Prop :=
  match enqueueOrReturn s memory order.code order.mat order.v1 order.v2 with
  | .ok s' => s'.queue = s.queue
  | .error stop => ∃ status message, stop = .exit status message

variable {s : Station} {memory : Option Memory} {order : Order}

/-- The size of a code that is not valid is read. -/
theorem enqueue_outOfBounds (hroom : s.queue.size.toNat < cargoQueueCapacity)
    (hcode : order.code.length ≠ tcSize) (m : Memory) :
    enqueueOrReturn s (some m) order.code order.mat order.v1 order.v2 =
      .error (.outOfBounds 0) := by
  have hnotFull : ¬ s.queue.size.toNat + 1 > cargoQueueCapacity := Nat.not_lt.mpr hroom
  have hinvalid : validateTc order.code = none := if_pos hcode
  rw [enqueueOrReturn, if_neg hnotFull]
  rw [enqueue, if_neg hnotFull, hinvalid]

theorem not_rejectsCleanly (hroom : s.queue.size.toNat < cargoQueueCapacity)
    (hcode : order.code.length ≠ tcSize) (m : Memory) : ¬ RejectsCleanly s (some m) order := by
  rw [RejectsCleanly, enqueue_outOfBounds hroom hcode]
  rintro ⟨status, message, hstop⟩
  cases hstop

/-- In every station with room, a code of the wrong length is rejected cleanly exactly when
`malloc` has no memory for the container. -/
theorem enqueue_rejects_iff (hroom : s.queue.size.toNat < cargoQueueCapacity)
    (hcode : order.code.length ≠ tcSize) : RejectsCleanly s memory order ↔ memory = none := by
  cases memory with
  | none =>
    have hreturns : enqueueOrReturn s none order.code order.mat order.v1 order.v2 = .ok s :=
      if_neg (Nat.not_lt.mpr hroom)
    rw [RejectsCleanly, hreturns]
    exact iff_of_true rfl rfl
  | some m => exact iff_of_false (not_rejectsCleanly hroom hcode m) (Option.some_ne_none m)

/-- A code of `main` without its last character. -/
def shortOrder : Order := ⟨.ofString "BIOEN-", .matBio, 9, 6⟩

theorem enqueue_rejects_shortOrder :
    RejectsCleanly initStation none shortOrder ∧
      ¬ RejectsCleanly initStation (some ⟨0, 0, 0⟩) shortOrder :=
  ⟨(enqueue_rejects_iff (by decide) (by decide)).mpr rfl, fun h =>
    Option.some_ne_none _ ((enqueue_rejects_iff (by decide) (by decide)).mp h)⟩

/-- The station is new and the container gets memory. -/
theorem not_rejectsCleanly_shortOrder :
    Run system [] initStation ∧ initStation.queue.size.toNat < cargoQueueCapacity ∧
      shortOrder.code.length ≠ tcSize ∧ ¬ RejectsCleanly initStation (some ⟨0, 0, 0⟩) shortOrder :=
  ⟨.start rfl, by decide, by decide, not_rejectsCleanly (by decide) (by decide) _⟩

end BareMetal.Cargo
