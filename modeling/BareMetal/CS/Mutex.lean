import BareMetal.CS.Outcome
import BareMetal.CS.Progress
import BareMetal.CS.Tally

/-!
# Sections under a mutex

A thread that holds a mutex takes the steps of its section one at a time: it loads into its
registers, computes and stores, while other threads go on as well. Nothing in a step asks who
holds the mutex; a thread only waits for it before its section.

The sections then have the effect that they have one after another, each as a whole, in the
order in which the threads unlock. This is why elsewhere a locked section may be a single step.

## Main results

* `Serialized.step`, `serialized` — every state of a run, from the sections that are complete
  and the one that has begun
* `exclusive` — at most one thread is inside its section
* `Serialized.atRest` — at rest every thread has returned, or the section that has begun stops
-/

namespace CS.Mutex

open Transition

variable {ι : Type*} {σ ρ : Type}

/-- One step of a thread, on the shared memory and on its own registers. -/
abbrev Action (σ ρ : Type) := σ × ρ → Outcome (σ × ρ)

/-- Steps one after another. -/
def execute (actions : List (Action σ ρ)) (s : σ × ρ) : Outcome (σ × ρ) :=
  actions.foldlM (fun s action => action s) s

/-- What a thread does between lock and unlock. -/
structure Body (σ ρ : Type) where
  actions : List (Action σ ρ)
  registers : ρ

/-- A whole section. -/
def Body.run (body : Body σ ρ) (memory : σ) : Outcome σ := do
  let s ← execute body.actions (memory, body.registers)
  .ok s.1

/-- Before the section, inside it with the steps that are left, or behind it. -/
inductive Position (σ ρ : Type)
  | before
  | inside (left : List (Action σ ρ)) (registers : ρ)
  | behind

/-- The thread is between lock and unlock. -/
def Position.isInside : Position σ ρ → Bool
  | .inside _ _ => true
  | _ => false

/-- The thread has returned. -/
def Position.isBehind : Position σ ρ → Bool
  | .behind => true
  | _ => false

/-- The mutex with the thread that holds it, the memory and the threads. -/
structure World (ι : Type*) (σ ρ : Type) where
  mutex : Option ι
  memory : σ
  threads : ι → Position σ ρ

/-- What a thread does. -/
inductive Event (ι : Type*)
  | lock (i : ι)
  | act (i : ι)
  | unlock (i : ι)
  deriving DecidableEq, Repr

/-- The whole sections of threads, one after another. -/
def serial (body : ι → Body σ ρ) (memory : σ) (order : List ι) : Outcome σ :=
  order.foldlM (fun memory i => (body i).run memory) memory

section Steps

variable [DecidableEq ι]

/-- A step of a thread. The mutex is looked at to lock it, and not by what a thread does
then. -/
inductive Step (body : ι → Body σ ρ) (world : World ι σ ρ) : Event ι → World ι σ ρ → Prop
  | lock {i : ι} (hi : world.threads i = .before) (hfree : world.mutex = none) :
      Step body world (.lock i)
        { world with
          mutex := some i
          threads := Function.update world.threads i
            (.inside (body i).actions (body i).registers) }
  | act {i : ι} {action : Action σ ρ} {left : List (Action σ ρ)} {registers : ρ} {s : σ × ρ}
      (hi : world.threads i = .inside (action :: left) registers)
      (hok : action (world.memory, registers) = .ok s) :
      Step body world (.act i)
        { world with
          memory := s.1
          threads := Function.update world.threads i (.inside left s.2) }
  | unlock {i : ι} {registers : ρ} (hi : world.threads i = .inside [] registers) :
      Step body world (.unlock i)
        { world with
          mutex := none
          threads := Function.update world.threads i .behind }

/-- The threads before their sections, and the mutex free. -/
def system (body : ι → Body σ ρ) (memory : σ) : System (World ι σ ρ) (Event ι) where
  start world := world = ⟨none, memory, fun _ => .before⟩
  step := Step body

end Steps

/-- The complete sections in their order, and the memory after them. A section that has begun
has done its first steps on that memory. -/
structure Serialized (body : ι → Body σ ρ) (memory₀ : σ) (world : World ι σ ρ) (order : List ι)
    (memory : σ) : Prop where
  nodup : order.Nodup
  behind : ∀ i, world.threads i = .behind ↔ i ∈ order
  inside : ∀ i, (world.threads i).isInside ↔ world.mutex = some i
  serial_eq : serial body memory₀ order = .ok memory
  free : world.mutex = none → world.memory = memory
  begun : ∀ i left registers, world.threads i = .inside left registers →
    execute (body i).actions (memory, (body i).registers) = execute left (world.memory, registers)

variable {body : ι → Body σ ρ} {memory₀ memory : σ} {world world' : World ι σ ρ}
  {order : List ι} {e : Event ι} {i j : ι}

theorem serial_concat (body : ι → Body σ ρ) (memory₀ : σ) (order : List ι) (i : ι) :
    serial body memory₀ (order ++ [i]) = serial body memory₀ order >>= (body i).run := by
  simp only [serial, List.foldlM_append, List.foldlM_cons, List.foldlM_nil, bind_pure]

/-- A thread has returned when its section is complete. -/
theorem Serialized.isBehind_iff (h : Serialized body memory₀ world order memory) :
    (world.threads i).isBehind ↔ i ∈ order := by
  rw [← h.behind]
  cases world.threads i with
  | behind => exact iff_of_true rfl rfl
  | _ => exact iff_of_false (fun heq => by cases heq) fun heq => by cases heq

/-- Only the holder is inside. -/
theorem Serialized.eq_of_inside (h : Serialized body memory₀ world order memory)
    (hi : (world.threads i).isInside) (hj : (world.threads j).isInside) : i = j :=
  Option.some.inj (((h.inside i).mp hi).symm.trans ((h.inside j).mp hj))

theorem serialized_start (body : ι → Body σ ρ) (memory₀ : σ) :
    Serialized body memory₀ ⟨none, memory₀, fun _ => .before⟩ [] memory₀ where
  nodup := List.nodup_nil
  behind i := iff_of_false (fun h => by cases h) List.not_mem_nil
  inside i := iff_of_false (fun h => by cases h) (fun h => by cases h)
  serial_eq := rfl
  free _ := rfl
  begun i left registers h := by cases h

section Reduction

variable [DecidableEq ι]

/-- A thread that goes on inside its section, or enters it, is not complete. -/
theorem Serialized.behind_update (h : Serialized body memory₀ world order memory)
    (hi : world.threads i ≠ .behind) (left : List (Action σ ρ)) (registers : ρ) (j : ι) :
    Function.update world.threads i (.inside left registers) j = .behind ↔ j ∈ order := by
  rcases eq_or_ne j i with rfl | hne
  · rw [Function.update_self, ← h.behind]
    exact iff_of_false (fun heq => by cases heq) hi
  · rw [Function.update_of_ne hne, h.behind]

/-- The steps that are left to a thread inside, where all others are outside. -/
theorem begun_update {position : Position σ ρ} {memory' : σ}
    (hothers : ∀ j, j ≠ i → ¬ (world.threads j).isInside)
    (hi : ∀ left registers, position = .inside left registers →
      execute (body i).actions (memory, (body i).registers) = execute left (memory', registers))
    (j : ι) (left : List (Action σ ρ)) (registers : ρ)
    (hj : Function.update world.threads i position j = .inside left registers) :
    execute (body j).actions (memory, (body j).registers) = execute left (memory', registers) := by
  rcases eq_or_ne j i with rfl | hne
  · rw [Function.update_self] at hj
    exact hi left registers hj
  · rw [Function.update_of_ne hne] at hj
    exact absurd (by rw [hj]; rfl) (hothers j hne)

theorem Serialized.lock (h : Serialized body memory₀ world order memory)
    (hi : world.threads i = .before) (hfree : world.mutex = none) :
    Serialized body memory₀
      { world with
        mutex := some i
        threads := Function.update world.threads i (.inside (body i).actions (body i).registers) }
      order memory where
  nodup := h.nodup
  behind := h.behind_update (by rw [hi]; exact fun heq => by cases heq) _ _
  inside j := by
    dsimp only
    rcases eq_or_ne j i with rfl | hne
    · rw [Function.update_self]
      exact iff_of_true rfl rfl
    · rw [Function.update_of_ne hne, h.inside, hfree]
      exact iff_of_false (fun heq => by cases heq) fun heq => hne (Option.some.inj heq).symm
  serial_eq := h.serial_eq
  free hnone := by cases hnone
  begun := by
    refine begun_update (fun j _ hj => ?_) fun left registers heq => ?_
    · cases hfree.symm.trans ((h.inside j).mp hj)
    · -- the holder is at the beginning of its section
      cases heq
      rw [h.free hfree]

theorem Serialized.act {action : Action σ ρ} {left : List (Action σ ρ)} {registers : ρ}
    {s : σ × ρ} (h : Serialized body memory₀ world order memory)
    (hi : world.threads i = .inside (action :: left) registers)
    (hok : action (world.memory, registers) = .ok s) :
    Serialized body memory₀
      { world with
        memory := s.1
        threads := Function.update world.threads i (.inside left s.2) }
      order memory := by
  have hinside : (world.threads i).isInside := by
    rw [hi]
    rfl
  refine ⟨h.nodup, h.behind_update (by rw [hi]; exact fun heq => by cases heq) _ _, fun j => ?_,
    h.serial_eq, fun hnone => ?_, ?_⟩
  · dsimp only
    rcases eq_or_ne j i with rfl | hne
    · rw [Function.update_self, ← h.inside, hi]
      exact iff_of_true rfl rfl
    · rw [Function.update_of_ne hne, h.inside]
  · cases hnone.symm.trans ((h.inside i).mp hinside)
  · refine begun_update (fun j hne hj => hne (h.eq_of_inside hj hinside)) ?_
    intro left' registers' heq
    cases heq
    rw [h.begun _ _ _ hi, execute, List.foldlM_cons, hok]
    rfl

theorem Serialized.unlock {registers : ρ} (h : Serialized body memory₀ world order memory)
    (hi : world.threads i = .inside [] registers) :
    Serialized body memory₀
      { world with
        mutex := none
        threads := Function.update world.threads i .behind }
      (order ++ [i]) world.memory := by
  have hinside : (world.threads i).isInside := by
    rw [hi]
    rfl
  have hnew : i ∉ order := fun hmem => by
    cases hi.symm.trans ((h.behind i).mpr hmem)
  refine ⟨?_, fun j => ?_, fun j => ?_, ?_, fun _ => rfl, ?_⟩
  · rw [← List.concat_eq_append, List.nodup_concat]
    exact ⟨hnew, h.nodup⟩
  · rw [List.mem_append, List.mem_singleton]
    dsimp only
    rcases eq_or_ne j i with rfl | hne
    · rw [Function.update_self]
      exact iff_of_true rfl (Or.inr rfl)
    · rw [Function.update_of_ne hne, h.behind]
      exact (or_iff_left hne).symm
  · dsimp only
    rcases eq_or_ne j i with rfl | hne
    · rw [Function.update_self]
      exact iff_of_false (fun heq => by cases heq) fun heq => by cases heq
    · rw [Function.update_of_ne hne]
      exact iff_of_false (fun hj => hne (h.eq_of_inside hj hinside)) fun heq => by cases heq
  · -- all steps of the section have been done, on the memory that the others had left
    rw [serial_concat, h.serial_eq, Outcome.ok_bind, Body.run, h.begun _ _ _ hi]
    rfl
  · refine begun_update (fun j hne hj => hne (h.eq_of_inside hj hinside)) ?_
    intro left' registers' heq
    cases heq

/-- A step does nothing to the complete sections, or it completes one. -/
theorem Serialized.step (h : Serialized body memory₀ world order memory)
    (hstep : Step body world e world') :
    ∃ order' memory', Serialized body memory₀ world' order' memory' := by
  cases hstep with
  | lock hi hfree => exact ⟨_, _, h.lock hi hfree⟩
  | act hi hok => exact ⟨_, _, h.act hi hok⟩
  | unlock hi => exact ⟨_, _, h.unlock hi⟩

variable {trace : Trace (World ι σ ρ) (Event ι)}

/-- **Reduction.** At every stage the memory is what whole sections have made of it, with the
first steps of at most one section more. -/
theorem serialized (hrun : Run (system body memory₀) trace world) :
    ∃ order memory, Serialized body memory₀ world order memory := by
  refine Run.invariant
    (I := fun _ world => ∃ order memory, Serialized body memory₀ world order memory) ?_ ?_ hrun
  · rintro world rfl
    exact ⟨_, _, serialized_start body memory₀⟩
  · rintro _ world e world' ⟨order, memory, h⟩ hstep
    exact h.step hstep

/-- **Mutual exclusion.** -/
theorem exclusive (hrun : Run (system body memory₀) trace world)
    (hi : (world.threads i).isInside) (hj : (world.threads j).isInside) : i = j := by
  obtain ⟨order, memory, h⟩ := serialized hrun
  exact h.eq_of_inside hi hj

/-! ### Rest -/

/-- Where no thread can step, all have returned, or the holder's next step stops the program, as
its section does when it runs on its own. -/
theorem Serialized.atRest (h : Serialized body memory₀ world order memory)
    (hrest : ((system body memory₀).restrict fun _ => True).Stuck world) :
    (world.mutex = none ∧ ∀ i, i ∈ order) ∨
      ∃ i, i ∉ order ∧ ∀ memory', (body i).run memory ≠ .ok memory' := by
  cases hmutex : world.mutex with
  | none =>
    refine Or.inl ⟨rfl, fun i => (h.behind i).mp ?_⟩
    cases hi : world.threads i with
    | before => exact (hrest.elim (.lock hi hmutex) trivial).elim
    | inside left registers =>
      have hheld := (h.inside i).mp (by rw [hi]; rfl)
      cases hmutex.symm.trans hheld
    | behind => rfl
  | some i =>
    refine Or.inr ⟨i, ?_⟩
    have hinside := (h.inside i).mpr hmutex
    cases hi : world.threads i with
    | before =>
      rw [hi] at hinside
      cases hinside
    | behind =>
      rw [hi] at hinside
      cases hinside
    | inside left registers =>
      refine ⟨fun hmem => ?_, fun memory' hrun => ?_⟩
      · cases hi.symm.trans ((h.behind i).mpr hmem)
      · cases left with
        | nil => exact hrest.elim (.unlock hi) trivial
        | cons action left =>
          rw [Body.run, h.begun _ _ _ hi, execute, List.foldlM_cons] at hrun
          obtain ⟨s, hexecute, -⟩ := Outcome.bind_eq_ok.mp hrun
          obtain ⟨s', hok, -⟩ := Outcome.bind_eq_ok.mp hexecute
          exact hrest.elim (.act hi hok) trivial

/-- The steps that a thread has before it, with those that lock and unlock. -/
def Position.left (body : Body σ ρ) : Position σ ρ → ℕ
  | .before => body.actions.length + 2
  | .inside left _ => left.length + 1
  | .behind => 0

variable [Fintype ι]

/-- The complete sections are those of the threads that have returned. -/
theorem Serialized.toFinset_eq (h : Serialized body memory₀ world order memory) :
    order.toFinset = ({i | (world.threads i).isBehind} : Finset ι) := by
  ext i
  rw [List.mem_toFinset, ← h.isBehind_iff, Finset.mem_filter_univ]

/-- The steps that all threads have before them. -/
def World.left (body : ι → Body σ ρ) (world : World ι σ ρ) : ℕ :=
  tally (fun i position => position.left (body i)) world.threads

theorem lowers_left (body : ι → Body σ ρ) (memory₀ : σ) :
    (system body memory₀).Lowers (fun _ => True) (World.left body) := by
  intro trace world e world' _ _ hstep
  cases hstep with
  | @lock i hi hfree =>
    have hmove := tally_move (fun i (position : Position σ ρ) => position.left (body i)) hi
      (.inside (body i).actions (body i).registers)
    dsimp only [World.left, Position.left] at hmove ⊢
    omega
  | @act i action left registers s hi hok =>
    have hmove := tally_move (fun i (position : Position σ ρ) => position.left (body i)) hi
      (.inside left s.2)
    dsimp only [World.left, Position.left, List.length_cons] at hmove ⊢
    omega
  | @unlock i registers hi =>
    have hmove := tally_move (fun i (position : Position σ ρ) => position.left (body i)) hi .behind
    dsimp only [World.left, Position.left, List.length_nil] at hmove ⊢
    omega

end Reduction

end CS.Mutex
