import BareMetal.CS.Progress
import BareMetal.CS.Tally
import BareMetal.Pthread.ContionalVar

/-!
# When the threads of `pthread/contional_var.c` finish

A broadcast comes after the lock is released, so a thread may test its condition between the
change and the broadcast. It then finds the change; a thread that sleeps has tested before the
change, and the broadcast is still to come.

## Main results

* `Awaited.step` — nobody sleeps on a condition that holds without a broadcast to come
* `pool_never_hangs_iff` — no interleaving hangs exactly when a pool that is filled or opened
  has a cleaner, and a pool that is opened has a filler
-/

namespace BareMetal.ContionalVar

open CS Transition Byte

variable {ι κ μ : Type*} [DecidableEq ι] [DecidableEq κ] [DecidableEq μ]
  {world world' : World ι κ μ} {e : Event ι κ μ} {trace : Trace (World ι κ μ) (Event ι κ μ)}

/-- The steps that a thread takes without luck. -/
def Driven : Event ι κ μ → Prop
  | .fillWake _ | .openWake _ => False
  | _ => True

/-- All threads have returned. -/
def Finished (world : World ι κ μ) : Prop :=
  (∀ i, world.cleaners i = .finished) ∧ (∀ j, world.fillers j = .finished) ∧
    ∀ k, world.openers k = .finished

/-! ### The bits and the threads that have set them -/

/-- The second section of `fill` is over. -/
def Filler.HasFilled : Filler → Prop
  | .broadcast | .finished => True
  | _ => False

/-- Who has passed a section has left its bit. -/
structure Marked (world : World ι κ μ) : Prop where
  clean : Has world.state (bit cleanBit) ↔ ∃ i, world.cleaners i ≠ .start
  fill : Has world.state (bit fillBit) ↔ ∃ j, (world.fillers j).HasFilled
  opened : (∃ k, world.openers k = .finished) → Has world.state (bit fillBit)

/-- Who sleeps waits for a bit that is not set, or for a broadcast. -/
structure Awaited (world : World ι κ μ) : Prop where
  filler : Has world.state (bit cleanBit) → (∃ j, world.fillers j = .asleep) →
    ∃ i, world.cleaners i = .broadcast
  opener : Has world.state (bit fillBit) → (∃ k, world.openers k = .asleep) →
    ∃ j, world.fillers j = .broadcast

section Phases

omit [DecidableEq ι] [DecidableEq κ] [DecidableEq μ]

variable {p : Phase}

/-- A pool is filled after it was cleaned. -/
theorem InPhase.has_clean_of_has_fill (h : InPhase p world)
    (hbit : Has world.state (bit fillBit)) : Has world.state (bit cleanBit) := by
  rw [h.state_eq] at hbit ⊢
  cases p with
  | dirty | clean => exact absurd hbit (by decide)
  | full | opened => decide

/-- `open_pool` sleeps only before the pool is filled. -/
theorem InPhase.full_of_has_fill (h : InPhase p world) (hbit : Has world.state (bit fillBit)) :
    world.state &&& (bit cleanBit ||| bit fillBit) = 3 := by
  rw [h.state_eq] at hbit ⊢
  cases p with
  | dirty | clean => exact absurd hbit (by decide)
  | full | opened => decide

theorem InPhase.has_fill (h : InPhase p world)
    (hfull : world.state &&& (bit cleanBit ||| bit fillBit) = 3) :
    Has world.state (bit fillBit) := by
  rw [h.state_eq] at hfull ⊢
  cases p with
  | dirty | clean => exact absurd hfull (by decide)
  | full | opened => decide

end Phases

omit [DecidableEq ι] [DecidableEq μ] in
theorem Marked.moveFiller (h : Marked world) {j : κ} {k : Filler} (hj : world.fillers j = k)
    (k' : Filler) (hk : k'.HasFilled ↔ k.HasFilled) :
    Marked { world with fillers := Function.update world.fillers j k' } where
  clean := h.clean
  fill := h.fill.trans (exists_move_iff Filler.HasFilled hj hk).symm
  opened := h.opened

omit [DecidableEq ι] [DecidableEq κ] in
theorem Marked.moveOpener (h : Marked world) {k : μ} {o : Opener} (ho : o ≠ .finished) :
    Marked { world with openers := Function.update world.openers k o } where
  clean := h.clean
  fill := h.fill
  opened hopened := h.opened (exists_of_move (· = Opener.finished) ho hopened)

theorem Marked.step (h : Marked world) (hphase : ∃ p : Phase, InPhase p world)
    (hstep : Step world e world') : Marked world' := by
  obtain ⟨p, hp⟩ := hphase
  cases hstep with
  | @clean i hi =>
    have hfill : Has (world.state ||| bit cleanBit) (bit fillBit) ↔
        Has world.state (bit fillBit) := has_or_of_not (by decide)
    have hcleaned : ∃ i', Function.update world.cleaners i .broadcast i' ≠ .start :=
      exists_move (· ≠ Cleaner.start) (by decide)
    constructor
    · exact iff_of_true (has_or_of_has (by decide)) hcleaned
    · exact hfill.trans h.fill
    · exact fun hopened => hfill.mpr (h.opened hopened)
  | @broadcastClean i hi =>
    have hcleaned : (∃ i', Function.update world.cleaners i .finished i' ≠ .start) ↔
        ∃ i', world.cleaners i' ≠ .start := exists_move_iff (· ≠ .start) hi (by decide)
    constructor
    · exact h.clean.trans hcleaned.symm
    · refine h.fill.trans (exists_congr fun j => ?_).symm
      refine isClean.broadcast_iff Filler.HasFilled (fun k hk => ?_) j
      rw [of_decide_eq_true hk]
      exact Iff.rfl
    · exact h.opened
  | fillWait hj => exact h.moveFiller hj .asleep Iff.rfl
  | fillWake hj => exact h.moveFiller hj .start Iff.rfl
  | pass hj => exact h.moveFiller hj .fill Iff.rfl
  | fill hj =>
    have hclean : Has (world.state ||| bit fillBit) (bit cleanBit) ↔
        Has world.state (bit cleanBit) := has_or_of_not (by decide)
    have hfill : Has (world.state ||| bit fillBit) (bit fillBit) := has_or_of_has (by decide)
    constructor
    · exact hclean.trans h.clean
    · exact iff_of_true hfill (exists_move Filler.HasFilled trivial)
    · exact fun _ => hfill
  | broadcastFull hj =>
    have hfillers := h.moveFiller hj .finished Iff.rfl
    refine ⟨h.clean, hfillers.fill, ?_⟩
    rintro ⟨k, hk⟩
    refine h.opened ⟨k, (isFull.broadcast_iff (· = .finished) (fun k hk => ?_) k).mp hk⟩
    rw [of_decide_eq_true hk]
    decide
  | openWait hk => exact h.moveOpener (by decide)
  | openWake hk => exact h.moveOpener (by decide)
  | openPool hk hfull =>
    have hclean : Has (world.state ||| bit openBit) (bit cleanBit) ↔
        Has world.state (bit cleanBit) := has_or_of_not (by decide)
    have hfill : Has (world.state ||| bit openBit) (bit fillBit) ↔
        Has world.state (bit fillBit) := has_or_of_not (by decide)
    exact ⟨hclean.trans h.clean, hfill.trans h.fill, fun _ => hfill.mpr (hp.has_fill hfull)⟩

omit [DecidableEq ι] [DecidableEq μ] in
/-- A filler that does not fall asleep, and has no broadcast before or after it. -/
theorem Awaited.moveFiller (h : Awaited world) {j : κ} {k : Filler} (hj : world.fillers j = k)
    (k' : Filler) (hasleep : k' ≠ .asleep) (hk : k' = .broadcast ↔ k = .broadcast) :
    Awaited { world with fillers := Function.update world.fillers j k' } where
  filler hbit hsleeper := h.filler hbit (exists_of_move (· = Filler.asleep) hasleep hsleeper)
  opener hbit hsleeper := (exists_move_iff (· = .broadcast) hj hk).mpr (h.opener hbit hsleeper)

/-- A broadcast that reaches all who sleep. -/
theorem no_sleeper {ν τ : Type*} {cv : CondVar τ} {threads : ν → τ} {asleep : τ}
    (hcv : cv.asleep asleep = true) : ¬ ∃ i, cv.broadcast threads i = asleep := by
  rintro ⟨i, hi⟩
  have hawake : cv.asleep (cv.broadcast threads i) = false := CondVar.not_asleep_broadcast i
  rw [hi, hcv] at hawake
  cases hawake

theorem Awaited.step (h : Awaited world) (hphase : ∃ p : Phase, InPhase p world)
    (hstep : Step world e world') : Awaited world' := by
  obtain ⟨p, hp⟩ := hphase
  cases hstep with
  | clean hi =>
    have hfill : Has (world.state ||| bit cleanBit) (bit fillBit) ↔
        Has world.state (bit fillBit) := has_or_of_not (by decide)
    exact ⟨fun _ _ => exists_move (· = Cleaner.broadcast) rfl, fun hbit => h.opener (hfill.mp hbit)⟩
  | broadcastClean hi =>
    refine ⟨fun _ hsleeper => absurd hsleeper (no_sleeper rfl), fun hbit hsleeper => ?_⟩
    obtain ⟨j, hj⟩ := h.opener hbit hsleeper
    refine ⟨j, (isClean.broadcast_iff (· = .broadcast) (fun k hk => ?_) j).mpr hj⟩
    rw [of_decide_eq_true hk]
    decide
  | fillWait hj hclear =>
    refine ⟨fun hbit _ => absurd hclear hbit, fun hbit hsleeper => ?_⟩
    exact (exists_move_iff (· = Filler.broadcast) hj (by decide)).mpr (h.opener hbit hsleeper)
  | fillWake hj => exact h.moveFiller hj .start (by decide) (by decide)
  | pass hj => exact h.moveFiller hj .fill (by decide) (by decide)
  | fill hj =>
    have hclean : Has (world.state ||| bit fillBit) (bit cleanBit) ↔
        Has world.state (bit cleanBit) := has_or_of_not (by decide)
    refine ⟨fun hbit hsleeper => ?_, fun _ _ => exists_move (· = Filler.broadcast) rfl⟩
    exact h.filler (hclean.mp hbit) (exists_of_move (· = Filler.asleep) (by decide) hsleeper)
  | broadcastFull hj =>
    refine ⟨fun hbit hsleeper => ?_, fun _ hsleeper => absurd hsleeper (no_sleeper rfl)⟩
    exact h.filler hbit (exists_of_move (· = Filler.asleep) (by decide) hsleeper)
  | openWait hk hopen =>
    exact ⟨h.filler, fun hbit _ => absurd (hp.full_of_has_fill hbit) hopen⟩
  | openWake hk =>
    exact ⟨h.filler, fun hbit hsleeper =>
      h.opener hbit (exists_of_move (· = Opener.asleep) (by decide) hsleeper)⟩
  | openPool hk =>
    have hclean : Has (world.state ||| bit openBit) (bit cleanBit) ↔
        Has world.state (bit cleanBit) := has_or_of_not (by decide)
    have hfill : Has (world.state ||| bit openBit) (bit fillBit) ↔
        Has world.state (bit fillBit) := has_or_of_not (by decide)
    refine ⟨fun hbit => h.filler (hclean.mp hbit), fun hbit hsleeper => ?_⟩
    exact h.opener (hfill.mp hbit) (exists_of_move (· = Opener.asleep) (by decide) hsleeper)

theorem marked (hrun : Run system trace world) : Marked world := by
  refine hrun.keeps (C := fun _ _ => True) ?_
    (fun _ _ _ _ hrun h _ hstep => h.step (exists_phase hrun) hstep) fun _ _ _ => trivial
  rintro _ rfl
  have hclean : ¬ Has defaultMask (bit cleanBit) := by decide
  have hfill : ¬ Has defaultMask (bit fillBit) := by decide
  constructor
  · exact iff_of_false hclean fun ⟨_, hne⟩ => hne rfl
  · exact iff_of_false hfill fun ⟨_, hfilled⟩ => hfilled
  · exact nofun

theorem awaited (hrun : Run system trace world) : Awaited world := by
  refine hrun.keeps (C := fun _ _ => True) ?_
    (fun _ _ _ _ hrun h _ hstep => h.step (exists_phase hrun) hstep) fun _ _ _ => trivial
  rintro _ rfl
  exact ⟨nofun, nofun⟩

/-! ### Runs that come to rest -/

/-- What a cleaner has before it: its broadcast may bring the fillers back to the start. -/
def Cleaner.left (fillers : ℕ) : Cleaner → ℕ
  | .start => fillers + 2
  | .broadcast => fillers + 1
  | .finished => 0

/-- What a filler has before it, with the openers that its broadcast may wake. -/
def Filler.left (openers : ℕ) : Filler → ℕ
  | .start => openers + 4
  | .asleep => openers + 3
  | .fill => openers + 2
  | .broadcast => openers + 1
  | .finished => 0

def Opener.left : Opener → ℕ
  | .start => 2
  | .asleep => 1
  | .finished => 0

section Measure

variable [Fintype ι] [Fintype κ] [Fintype μ]

def World.left (world : World ι κ μ) : ℕ :=
  tally (fun _ => Cleaner.left (Fintype.card κ)) world.cleaners +
    tally (fun _ => Filler.left (Fintype.card μ)) world.fillers +
      tally (fun _ => Opener.left) world.openers

omit [DecidableEq κ] in
theorem left_broadcastClean (openers : ℕ) (fillers : κ → Filler) :
    tally (fun _ => Filler.left openers) (isClean.broadcast fillers) ≤
      tally (fun _ => Filler.left openers) fillers + Fintype.card κ := by
  rw [← Nat.mul_one (Fintype.card κ)]
  refine tally_le_add fun j => ?_
  unfold CondVar.broadcast
  split_ifs with hj
  · have hasleep : fillers j = .asleep := of_decide_eq_true hj
    rw [hasleep]
    exact Nat.le_refl _
  · exact Nat.le_succ _

omit [DecidableEq μ] in
theorem left_broadcastFull (openers : μ → Opener) :
    tally (fun _ => Opener.left) (isFull.broadcast openers) ≤
      tally (fun _ => Opener.left) openers + Fintype.card μ := by
  rw [← Nat.mul_one (Fintype.card μ)]
  refine tally_le_add fun k => ?_
  unfold CondVar.broadcast
  split_ifs with hk
  · have hasleep : openers k = .asleep := of_decide_eq_true hk
    rw [hasleep]
    exact Nat.le_refl _
  · exact Nat.le_succ _

theorem lowers_left : (system : System (World ι κ μ) (Event ι κ μ)).Lowers Driven World.left := by
  intro trace world e world' _ hdriven hstep
  unfold World.left
  cases hstep with
  | clean hi =>
    have hmove := tally_move (fun _ => Cleaner.left (Fintype.card κ)) hi .broadcast
    simp only [Cleaner.left] at hmove ⊢
    omega
  | broadcastClean hi =>
    have hmove := tally_move (fun _ => Cleaner.left (Fintype.card κ)) hi .finished
    have hwoken := left_broadcastClean (Fintype.card μ) world.fillers
    simp only [Cleaner.left] at hmove
    dsimp only
    omega
  | fillWait hj =>
    have hmove := tally_move (fun _ => Filler.left (Fintype.card μ)) hj .asleep
    simp only [Filler.left] at hmove
    dsimp only
    omega
  | fillWake => exact hdriven.elim
  | pass hj =>
    have hmove := tally_move (fun _ => Filler.left (Fintype.card μ)) hj .fill
    simp only [Filler.left] at hmove
    dsimp only
    omega
  | fill hj =>
    have hmove := tally_move (fun _ => Filler.left (Fintype.card μ)) hj .broadcast
    simp only [Filler.left] at hmove
    dsimp only
    omega
  | broadcastFull hj =>
    have hmove := tally_move (fun _ => Filler.left (Fintype.card μ)) hj .finished
    have hwoken := left_broadcastFull world.openers
    simp only [Filler.left] at hmove
    dsimp only
    omega
  | openWait hk =>
    have hmove := tally_move (fun _ => Opener.left) hk .asleep
    simp only [Opener.left] at hmove
    dsimp only
    omega
  | openWake => exact hdriven.elim
  | openPool hk =>
    have hmove := tally_move (fun _ => Opener.left) hk .finished
    simp only [Opener.left] at hmove
    dsimp only
    omega

end Measure

/-- A thread at rest sleeps or has returned. -/
structure AtRest (world : World ι κ μ) : Prop where
  cleaner : ∀ i, world.cleaners i = .finished
  filler : ∀ j, world.fillers j = .asleep ∨ world.fillers j = .finished
  opener : ∀ k, world.openers k = .asleep ∨ world.openers k = .finished

theorem atRest (hstuck : (system.restrict Driven).Stuck world) : AtRest world := by
  constructor
  · intro i
    cases hi : world.cleaners i with
    | start => exact (hstuck.elim (.clean hi) trivial).elim
    | broadcast => exact (hstuck.elim (.broadcastClean hi) trivial).elim
    | finished => rfl
  · intro j
    cases hj : world.fillers j with
    | start =>
      by_cases hclear : world.state &&& bit cleanBit = 0
      · exact (hstuck.elim (.fillWait hj hclear) trivial).elim
      · exact (hstuck.elim (.pass hj hclear) trivial).elim
    | asleep => exact Or.inl rfl
    | fill => exact (hstuck.elim (.fill hj) trivial).elim
    | broadcast => exact (hstuck.elim (.broadcastFull hj) trivial).elim
    | finished => exact Or.inr rfl
  · intro k
    cases hk : world.openers k with
    | start =>
      by_cases hfull : world.state &&& (bit cleanBit ||| bit fillBit) = 3
      · exact (hstuck.elim (.openPool hk hfull) trivial).elim
      · exact (hstuck.elim (.openWait hk hfull) trivial).elim
    | asleep => exact Or.inl rfl
    | finished => exact Or.inr rfl

namespace AtRest

omit [DecidableEq ι] [DecidableEq κ] [DecidableEq μ]

/-- A clean pool is filled by all who wait for it. -/
theorem fillers_finished (h : AtRest world) (hmarked : Marked world) (hawaited : Awaited world)
    [hi : Nonempty ι] (j : κ) : world.fillers j = .finished := by
  refine (h.filler j).resolve_left fun hasleep => ?_
  obtain ⟨i⟩ := hi
  have hbit := hmarked.clean.mpr ⟨i, by rw [h.cleaner i]; decide⟩
  obtain ⟨i', hi'⟩ := hawaited.filler hbit ⟨j, hasleep⟩
  cases hi'.symm.trans (h.cleaner i')

/-- A pool that has been filled is opened by all who wait for it. -/
theorem openers_finished (h : AtRest world) (hmarked : Marked world) (hawaited : Awaited world)
    (hfilled : ∃ j, world.fillers j = .finished) (k : μ) : world.openers k = .finished := by
  refine (h.opener k).resolve_left fun hasleep => ?_
  obtain ⟨j, hj⟩ := hfilled
  have hbit := hmarked.fill.mpr ⟨j, by rw [hj]; trivial⟩
  obtain ⟨j', hj'⟩ := hawaited.opener hbit ⟨k, hasleep⟩
  rcases h.filler j' with hrest | hrest
  · cases hj'.symm.trans hrest
  · cases hj'.symm.trans hrest

/-- At rest the roles that are filled decide whether somebody sleeps. -/
theorem finished_iff (h : AtRest world) (hmarked : Marked world) (hawaited : Awaited world)
    (hphase : ∃ p : Phase, InPhase p world) :
    Finished world ↔ (Nonempty κ ∨ Nonempty μ → Nonempty ι) ∧ (Nonempty μ → Nonempty κ) := by
  obtain ⟨p, hp⟩ := hphase
  have hcleaner : Has world.state (bit fillBit) → Nonempty ι := by
    intro hbit
    obtain ⟨i, -⟩ := hmarked.clean.mp (hp.has_clean_of_has_fill hbit)
    exact ⟨i⟩
  constructor
  · rintro ⟨-, hfillers, hopeners⟩
    refine ⟨?_, ?_⟩
    · rintro (⟨⟨j⟩⟩ | ⟨⟨k⟩⟩)
      · exact hcleaner (hmarked.fill.mpr ⟨j, by rw [hfillers j]; trivial⟩)
      · exact hcleaner (hmarked.opened ⟨k, hopeners k⟩)
    · rintro ⟨k⟩
      obtain ⟨j, -⟩ := hmarked.fill.mp (hmarked.opened ⟨k, hopeners k⟩)
      exact ⟨j⟩
  · rintro ⟨hι, hκ⟩
    refine ⟨h.cleaner, fun j => ?_, fun k => ?_⟩
    · have := hι (Or.inl ⟨j⟩)
      exact h.fillers_finished hmarked hawaited j
    · have := hι (Or.inr ⟨k⟩)
      obtain ⟨j⟩ := hκ ⟨k⟩
      exact h.openers_finished hmarked hawaited ⟨j, h.fillers_finished hmarked hawaited j⟩ k

end AtRest

/-- **When the preparation of a pool never hangs**, if a sleeper wakes only by a broadcast: no
interleaving comes to rest with an unfinished thread exactly when some thread cleans a pool that
is filled or opened, and some thread fills a pool that is opened. -/
theorem pool_never_hangs_iff (ι κ μ : Type*) [Fintype ι] [Fintype κ] [Fintype μ] [DecidableEq ι]
    [DecidableEq κ] [DecidableEq μ] :
    (system : System (World ι κ μ) (Event ι κ μ)).NeverHangs Driven Finished ↔
      (Nonempty κ ∨ Nonempty μ → Nonempty ι) ∧ (Nonempty μ → Nonempty κ) := by
  refine neverHangs_iff lowers_left rfl fun trace world hrun hstuck => ?_
  exact (atRest hstuck).finished_iff (marked hrun) (awaited hrun) (exists_phase hrun)

end BareMetal.ContionalVar
