import BareMetal.CS.Loop
import BareMetal.CS.Progress
import BareMetal.CS.Tally

/-!
# Threads that are created and joined in order

A program creates a thread for each piece of its work, one after the other, and then joins them
in the same order and collects what they return. Each thread runs a loop on a state of its own;
what they share is only read. The array of threads may have fewer places than there are pieces,
and then the program stops at the first one without a place.

The threads may take turns in any order, also while others are still to be created.

## Main results

* `collected` — what has been joined so far is what the threads return when each runs alone
* `lowers_left` — every step brings the program nearer to its end
* `neverHangs_iff` — when all threads are joined in every run
-/

namespace CS

namespace ForkJoin

open Transition

/-- The loops of the threads, their first states, and the places in the array of threads. -/
structure Program (n : ℕ) (σ ρ : Type*) where
  body : Fin n → σ → Outcome (Pass σ ρ)
  start : Fin n → σ
  places : ℕ

/-- Where a thread stands. -/
inductive Thread (σ ρ : Type*)
  | ready
  | running (s : σ)
  | returned (r : ρ)
  | joined

/-- How many threads were created, the threads, and what was collected. -/
structure World (n : ℕ) (σ ρ : Type*) where
  created : ℕ
  threads : Fin n → Thread σ ρ
  results : List ρ

/-- The steps of the program and of the threads. -/
inductive Event (n : ℕ)
  | create (k : Fin n)
  | pass (k : Fin n)
  | join (k : Fin n)
  deriving DecidableEq, Repr

variable {n : ℕ} {σ ρ : Type*} {program : Program n σ ρ} {world world' : World n σ ρ} {e : Event n}
  {k : Fin n} {trace : Trace (World n σ ρ) (Event n)}

/-- One step. -/
inductive Step (program : Program n σ ρ) : World n σ ρ → Event n → World n σ ρ → Prop
  | create {world : World n σ ρ} {k : Fin n} (hnext : world.created = k)
      (hplace : k < program.places) :
      Step program world (.create k)
        { world with
          created := world.created + 1
          threads := Function.update world.threads k (.running (program.start k)) }
  | again {world : World n σ ρ} {k : Fin n} {s s' : σ} (hk : world.threads k = .running s)
      (hbody : program.body k s = .ok (.again s')) :
      Step program world (.pass k)
        { world with threads := Function.update world.threads k (.running s') }
  | leave {world : World n σ ρ} {k : Fin n} {s : σ} {r : ρ} (hk : world.threads k = .running s)
      (hbody : program.body k s = .ok (.leave r)) :
      Step program world (.pass k)
        { world with threads := Function.update world.threads k (.returned r) }
  | join {world : World n σ ρ} {k : Fin n} {r : ρ} (hall : world.created = n)
      (hnext : world.results.length = k) (hk : world.threads k = .returned r) :
      Step program world (.join k)
        { world with
          threads := Function.update world.threads k .joined
          results := world.results ++ [r] }

/-- The program before its first step. -/
def system (program : Program n σ ρ) : System (World n σ ρ) (Event n) where
  start world := world = ⟨0, fun _ => .ready, []⟩
  step := Step program

/-- What the thread `k` returns when it runs alone. -/
def Program.Alone (program : Program n σ ρ) (k : Fin n) (r : ρ) : Prop :=
  ∃ passes, LeavesAfter (program.body k) passes (program.start k) r

/-- All threads were created and joined. -/
def Finished (world : World n σ ρ) : Prop := world.created = n ∧ world.results.length = n

/-! ### One step -/

/-- What the position of a thread says about what it returns alone. -/
def Fits (program : Program n σ ρ) (created : ℕ) (results : List ρ) (k : Fin n) :
    Thread σ ρ → Prop
  | .ready => created ≤ k ∧ results.length ≤ k
  | .running s => (k : ℕ) < created ∧ results.length ≤ k ∧
      ∀ r, (∃ passes, LeavesAfter (program.body k) passes s r) ↔ program.Alone k r
  | .returned r => (k : ℕ) < created ∧ results.length ≤ k ∧ program.Alone k r
  | .joined => ∃ r, results[(k : ℕ)]? = some r ∧ program.Alone k r

/-- A position still fits when others were created or joined. -/
theorem Fits.mono {created created' : ℕ} {results results' : List ρ} {t : Thread σ ρ}
    (h : Fits program created results k t) (hcreated : created ≤ created')
    (hready : t = .ready → created' ≤ k) (hresults : results <+: results')
    (hlength : results.length ≤ k → results'.length ≤ k) : Fits program created' results' k t := by
  cases t with
  | ready => exact ⟨hready rfl, hlength h.2⟩
  | running s => exact ⟨Nat.lt_of_lt_of_le h.1 hcreated, hlength h.2.1, h.2.2⟩
  | returned r => exact ⟨Nat.lt_of_lt_of_le h.1 hcreated, hlength h.2.1, h.2.2⟩
  | joined =>
    obtain ⟨r, hr, halone⟩ := h
    obtain ⟨more, rfl⟩ := hresults
    refine ⟨r, ?_, halone⟩
    rw [List.getElem?_append_left (List.getElem?_eq_some_iff.mp hr).1, hr]

/-- Threads were created for places, they are joined only when all are there, and every position
fits. -/
structure Collected (program : Program n σ ρ) (world : World n σ ρ) : Prop where
  created_le : world.created ≤ n ∧ world.created ≤ program.places
  results_le : world.results.length ≤ n
  nil_of_lt : world.created < n → world.results = []
  fits : ∀ k, Fits program world.created world.results k (world.threads k)

theorem Collected.step (h : Collected program world) (hstep : Step program world e world') :
    Collected program world' := by
  obtain ⟨hcreated, hplaces⟩ := h.created_le
  cases hstep with
  | @create k hnext hplace =>
    have hlt := k.isLt
    have hnil := h.nil_of_lt (by omega)
    refine ⟨⟨by dsimp only; omega, by dsimp only; omega⟩, h.results_le, fun _ => hnil, fun j => ?_⟩
    dsimp only
    rcases eq_or_ne j k with rfl | hne
    · rw [Function.update_self, hnil]
      exact ⟨by omega, Nat.zero_le _, fun r => Iff.rfl⟩
    · have hindex : (j : ℕ) ≠ k := fun heq => hne (Fin.ext heq)
      rw [Function.update_of_ne hne]
      refine (h.fits j).mono (Nat.le_succ _) (fun hready => ?_) List.prefix_rfl id
      have hfits := h.fits j
      rw [hready] at hfits
      have hle := hfits.1
      omega
  | @again k s s' hk hbody =>
    have hfits := h.fits k
    rw [hk] at hfits
    refine ⟨h.created_le, h.results_le, h.nil_of_lt, forall_move h.fits k ?_⟩
    refine ⟨hfits.1, hfits.2.1, fun r => ?_⟩
    rw [← hfits.2.2 r]
    -- one pass less from the next state
    constructor
    · rintro ⟨passes, hleaves⟩
      exact ⟨passes + 1, .again hbody hleaves⟩
    · rintro ⟨passes, hleaves⟩
      obtain ⟨rest, -, hleaves⟩ := (leavesAfter_again_iff hbody).mp hleaves
      exact ⟨rest, hleaves⟩
  | @leave k s r hk hbody =>
    have hfits := h.fits k
    rw [hk] at hfits
    refine ⟨h.created_le, h.results_le, h.nil_of_lt, forall_move h.fits k ?_⟩
    exact ⟨hfits.1, hfits.2.1, (hfits.2.2 r).mp ⟨0, .leave hbody⟩⟩
  | @join k r hall hnext hk =>
    have hfits := h.fits k
    rw [hk] at hfits
    have hlength : (world.results ++ [r]).length = world.results.length + 1 := by
      rw [List.length_append, List.length_singleton]
    have hlt := k.isLt
    refine ⟨h.created_le, by dsimp only; omega, fun hless => absurd hall (Nat.ne_of_lt hless),
      fun j => ?_⟩
    dsimp only
    rcases eq_or_ne j k with rfl | hne
    · rw [Function.update_self]
      refine ⟨r, ?_, hfits.2.2⟩
      rw [← hnext, List.getElem?_append_right (Nat.le_refl _), Nat.sub_self,
        List.getElem?_cons_zero]
    · have hindex : (j : ℕ) ≠ k := fun heq => hne (Fin.ext heq)
      rw [Function.update_of_ne hne]
      refine (h.fits j).mono (Nat.le_refl _) (fun hready => ?_) (List.prefix_append _ _)
        fun hle => by omega
      have hfits := h.fits j
      rw [hready] at hfits
      exact hfits.1

/-- **What was joined** is what the threads return alone. -/
theorem collected (hrun : Run (system program) trace world) : Collected program world := by
  refine Run.invariant (I := fun _ => Collected program) ?_ (fun _ _ _ _ h hstep => h.step hstep)
    hrun
  rintro _ rfl
  exact ⟨⟨Nat.zero_le _, Nat.zero_le _⟩, Nat.zero_le _, fun _ => rfl,
    fun k => ⟨Nat.zero_le _, Nat.zero_le _⟩⟩

/-- What a finished program has collected. -/
theorem Collected.alone (h : Collected program world) (hfinished : Finished world) :
    ∀ k : Fin n, ∃ r, world.results[(k : ℕ)]? = some r ∧ program.Alone k r := by
  intro k
  have hfits := h.fits k
  have hlt := k.isLt
  obtain ⟨hcreated, hlength⟩ := hfinished
  cases hk : world.threads k with
  | joined =>
    rw [hk] at hfits
    exact hfits
  | ready =>
    rw [hk] at hfits
    have hle := hfits.2
    omega
  | running s =>
    rw [hk] at hfits
    have hle := hfits.2.1
    omega
  | returned r =>
    rw [hk] at hfits
    have hle := hfits.2.1
    omega

/-! ### Rest -/

/-- A number that every further pass of a thread lowers. -/
def Program.Shrinks (program : Program n σ ρ) (variant : Fin n → σ → ℕ) : Prop :=
  ∀ k s s', program.body k s = .ok (.again s') → variant k s' < variant k s

/-- What a thread has before it. -/
def Thread.left (start : σ) (variant : σ → ℕ) : Thread σ ρ → ℕ
  | .ready => variant start + 3
  | .running s => variant s + 2
  | .returned _ => 1
  | .joined => 0

/-- What all threads have before them. -/
def left (program : Program n σ ρ) (variant : Fin n → σ → ℕ) (world : World n σ ρ) : ℕ :=
  tally (fun k => Thread.left (program.start k) (variant k)) world.threads

variable {variant : Fin n → σ → ℕ}

/-- A thread that has been created is not ready any more. -/
theorem Collected.ready_of_eq (h : Collected program world) (hnext : world.created = k) :
    world.threads k = .ready := by
  have hfits := h.fits k
  have hlt := k.isLt
  cases hk : world.threads k with
  | ready => rfl
  | running s =>
    rw [hk] at hfits
    have hle := hfits.1
    omega
  | returned r =>
    rw [hk] at hfits
    have hle := hfits.1
    omega
  | joined =>
    rw [hk, h.nil_of_lt (by omega)] at hfits
    obtain ⟨r, hr, -⟩ := hfits
    rw [List.getElem?_nil] at hr
    cases hr

theorem lowers_left (hshrinks : program.Shrinks variant) :
    (system program).Lowers (fun _ => True) (left program variant) := by
  intro trace world e world' hrun _ hstep
  unfold left
  cases hstep with
  | @create k hnext hplace =>
    have hmove := tally_move (fun k => Thread.left (ρ := ρ) (program.start k) (variant k))
      ((collected hrun).ready_of_eq hnext) (.running (program.start k))
    simp only [Thread.left] at hmove
    dsimp only
    omega
  | @again k s s' hk hbody =>
    have hlt := hshrinks k s s' hbody
    have hmove := tally_move (fun k => Thread.left (ρ := ρ) (program.start k) (variant k)) hk
      (.running s')
    simp only [Thread.left] at hmove
    dsimp only
    omega
  | @leave k s r hk hbody =>
    have hmove := tally_move (fun k => Thread.left (ρ := ρ) (program.start k) (variant k)) hk
      (.returned r)
    simp only [Thread.left] at hmove
    dsimp only
    omega
  | @join k r hall hnext hk =>
    have hmove := tally_move (fun k => Thread.left (ρ := ρ) (program.start k) (variant k)) hk
      .joined
    simp only [Thread.left] at hmove
    dsimp only
    omega

/-- A thread that would return alone can take a step. -/
theorem running_ne (h : Collected program world)
    (hstuck : ((system program).restrict fun _ => True).Stuck world) {r : ρ}
    (halone : program.Alone k r) (s : σ) : world.threads k ≠ .running s := by
  intro hk
  have hfits := h.fits k
  rw [hk] at hfits
  obtain ⟨passes, hleaves⟩ := (hfits.2.2 r).mpr halone
  cases hleaves with
  | leave hbody => exact hstuck.elim (.leave hk hbody) trivial
  | again hbody _ => exact hstuck.elim (.again hk hbody) trivial

/-- At rest the program is finished, if there are places enough and all threads return. -/
theorem finished_of_stuck (h : Collected program world)
    (hstuck : ((system program).restrict fun _ => True).Stuck world) (hplaces : n ≤ program.places)
    (hall : ∀ k, ∃ r, program.Alone k r) : Finished world := by
  have hcreated : world.created = n := by
    by_contra hne
    have hlt : world.created < n := Nat.lt_of_le_of_ne h.created_le.1 hne
    exact hstuck.elim (.create (k := ⟨world.created, hlt⟩) rfl (Nat.lt_of_lt_of_le hlt hplaces))
      trivial
  refine ⟨hcreated, ?_⟩
  by_contra hne
  have hlt : world.results.length < n := Nat.lt_of_le_of_ne h.results_le hne
  -- the thread that is to be joined next has returned, so it can be joined
  obtain ⟨r, halone⟩ := hall ⟨world.results.length, hlt⟩
  have hfits := h.fits ⟨world.results.length, hlt⟩
  cases hk : world.threads ⟨world.results.length, hlt⟩ with
  | ready =>
    rw [hk] at hfits
    have hle := hfits.1
    dsimp only at hle
    omega
  | running s => exact running_ne h hstuck halone s hk
  | returned r => exact hstuck.elim (.join hcreated rfl hk) trivial
  | joined =>
    rw [hk] at hfits
    obtain ⟨r, hr, -⟩ := hfits
    exact Nat.lt_irrefl _ (List.getElem?_eq_some_iff.mp hr).1

/-- **When all threads are joined in every run**: when there are places enough, and every thread
returns when it runs alone. -/
theorem neverHangs_iff (hshrinks : program.Shrinks variant) :
    (system program).NeverHangs (fun _ => True) Finished ↔
      n ≤ program.places ∧ ∀ k, ∃ r, program.Alone k r := by
  refine Transition.neverHangs_iff (lowers_left hshrinks) rfl fun trace world hrun hstuck => ?_
  have h := collected hrun
  constructor
  · intro hfinished
    have hplaces := h.created_le.2
    rw [hfinished.1] at hplaces
    refine ⟨hplaces, fun k => ?_⟩
    obtain ⟨r, -, halone⟩ := h.alone hfinished k
    exact ⟨r, halone⟩
  · rintro ⟨hplaces, hall⟩
    exact finished_of_stuck h hstuck hplaces hall

end ForkJoin

end CS
