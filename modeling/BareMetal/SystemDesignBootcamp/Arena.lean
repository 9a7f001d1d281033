import BareMetal.CS.Block
import BareMetal.CS.Extent
import BareMetal.CS.Transition

/-!
# The padded arena of `system-design-bootcamp/arena.c`

`alloc_obj` moves the tracker forward by the size of the request, rounded up to a
multiple of eight, but tests the capacity with the size as it is. The padding never goes
past the end, because the capacity and the tracker are both multiples of eight.

A pointer into the memory is its distance from the start.

## Main results

* `allocObj_spec` — one call
* `aligned_safe` — the tracker and all pointers are multiples of eight, and the blocks
  stay in the memory and apart from each other
-/

namespace BareMetal.PaddedArena

open CS Transition

/-- `MAX_SIZE`. -/
def maxSize : ℕ := 1024 * 1024

/-- `Arena`. -/
structure Arena where
  capacity : UInt64
  allocated : UInt64
  memory : Block maxSize UInt8

/-- `init_arena`. -/
def initArena : Arena where
  capacity := UInt64.ofNat maxSize
  allocated := 0
  memory := fun _ => 0

/-- `alloc_obj`, with the pointer that it returns. -/
def allocObj (arena : Arena) (size : UInt64) : Outcome (Arena × UInt64) :=
  if arena.allocated + size > arena.capacity then .error (.exit 1 "Max capacity reached\n")
  else
    let reminder := size % 8
    let memToAlloc := if reminder ≠ 0 then size + (8 - reminder) else size
    .ok ({ arena with allocated := arena.allocated + memToAlloc }, arena.allocated)

/-- `arena_reset`. -/
def arenaReset (arena : Arena) : Arena := { arena with allocated := 0 }

/-! ### Sequences of calls -/

/-- A call that returned. -/
inductive Event
  | alloc (size ptr : UInt64)
  | reset
  deriving DecidableEq, Repr

/-- The calls that do not exit. -/
inductive Step : Arena → Event → Arena → Prop
  | alloc {arena arena' : Arena} {size ptr : UInt64} :
      allocObj arena size = .ok (arena', ptr) → Step arena (.alloc size ptr) arena'
  | reset {arena : Arena} : Step arena .reset (arenaReset arena)

/-- Any sequence of calls on a new arena. -/
def system : System Arena Event where
  start arena := arena = initArena
  step := Step

/-- The blocks after one more call. -/
def track (blocks : List Extent) : Event → List Extent
  | .alloc size ptr => blocks ++ [⟨ptr.toNat, size.toNat⟩]
  | .reset => []

/-- The blocks returned since the last reset. -/
def live (es : List Event) : List Extent := es.foldl track []

/-- The request is at most `SIZE_MAX - capacity`. -/
def Modest (capacity : UInt64) : Event → Prop
  | .alloc size _ => size.toNat ≤ 2 ^ 64 - 1 - capacity.toNat
  | .reset => True

/-- The pointer that the call returned is a multiple of eight. -/
def Event.Aligned : Event → Prop
  | .alloc _ ptr => 8 ∣ ptr.toNat
  | .reset => True

variable {arena arena' : Arena} {size ptr : UInt64} {es : List Event} {e : Event}
  {trace : Trace Arena Event}

@[simp] theorem live_concat (es : List Event) (e : Event) :
    live (es ++ [e]) = track (live es) e := by
  simp [live]

/-! ### The invariant -/

/-- The tracker of the arena, and the blocks that lie before it. -/
structure Packed (arena : Arena) (blocks : List Extent) : Prop where
  capacity_eq : arena.capacity.toNat = maxSize
  aligned : 8 ∣ arena.allocated.toNat
  allocated_le : arena.allocated.toNat ≤ maxSize
  laid : Extent.Laid arena.allocated.toNat blocks

theorem packed_init : Packed initArena [] where
  capacity_eq := by decide
  aligned := by decide
  allocated_le := by decide
  laid := Extent.laid_nil _

/-- The size of a request, rounded up to a multiple of eight. -/
def padded (size : ℕ) : ℕ := (size + 7) / 8 * 8

/-- The padding in `size_t` arithmetic, for a request that leaves room for it. -/
theorem toNat_memToAlloc (hsize : size.toNat + 8 ≤ 2 ^ 64) :
    (if size % 8 ≠ 0 then size + (8 - size % 8) else size).toNat = padded size.toNat := by
  have hmod : (size % 8).toNat = size.toNat % 8 := by simp
  have hlt : size.toNat % 8 < 8 := Nat.mod_lt _ (by decide)
  unfold padded
  split_ifs with hreminder
  · have hsub : (8 - size % 8).toNat = 8 - size.toNat % 8 := by
      rw [UInt64.toNat_sub_of_le _ _ (by rw [UInt64.le_iff_toNat_le, hmod]; exact hlt.le), hmod]
      rfl
    have hne : size.toNat % 8 ≠ 0 := by
      rw [← hmod]
      exact fun h => hreminder (UInt64.toNat_inj.mp h)
    rw [UInt64.toNat_add, hsub, Nat.mod_eq_of_lt (by omega)]
    omega
  · have hzero : size.toNat % 8 = 0 := by
      rw [← hmod, not_not.mp hreminder]
      rfl
    omega

/-- An accepted request gets the next bytes, and the tracker moves by the padded size. -/
theorem allocObj_spec {blocks : List Extent} (h : Packed arena blocks)
    (hsize : size.toNat ≤ 2 ^ 64 - 1 - arena.capacity.toNat)
    (hcall : allocObj arena size = .ok (arena', ptr)) :
    ptr = arena.allocated ∧ Packed arena' (blocks ++ [⟨ptr.toNat, size.toNat⟩]) := by
  have hcapacity := h.capacity_eq
  have hle := h.allocated_le
  have haligned := h.aligned
  simp only [maxSize] at hcapacity hle
  unfold allocObj at hcall
  split_ifs at hcall with hfull
  cases hcall
  have hsum : (arena.allocated + size).toNat = arena.allocated.toNat + size.toNat := by
    rw [UInt64.toNat_add, Nat.mod_eq_of_lt (by omega)]
  have hroom : arena.allocated.toNat + size.toNat ≤ 1024 * 1024 := by
    rw [← hsum, ← hcapacity]
    exact UInt64.le_iff_toNat_le.mp (UInt64.not_lt.mp hfull)
  have hpadded := toNat_memToAlloc (by omega : size.toNat + 8 ≤ 2 ^ 64)
  -- capacity and tracker are multiples of eight, so there is room for the padding
  have hnext : arena.allocated.toNat + padded size.toNat ≤ 1024 * 1024 := by
    unfold padded
    omega
  have hmoved : (arena.allocated + if size % 8 ≠ 0 then size + (8 - size % 8) else size).toNat =
      arena.allocated.toNat + padded size.toNat := by
    rw [UInt64.toNat_add, hpadded, Nat.mod_eq_of_lt (by omega)]
  refine ⟨rfl, h.capacity_eq, ?_, ?_, ?_⟩
  · dsimp only
    rw [hmoved]
    exact (Nat.dvd_add_right haligned).mpr (Nat.dvd_mul_left ..)
  · dsimp only
    rwa [hmoved]
  · dsimp only
    rw [hmoved]
    refine h.laid.push (Nat.le_refl _) ?_
    simp only [Extent.stop, padded]
    omega

theorem Packed.reset {blocks : List Extent} (h : Packed arena blocks) :
    Packed (arenaReset arena) [] where
  capacity_eq := h.capacity_eq
  aligned := by simp [arenaReset]
  allocated_le := by simp [arenaReset]
  laid := Extent.laid_nil _

/-- The arena after the calls `es`, whose pointers were all aligned. -/
structure Sound (es : List Event) (arena : Arena) : Prop where
  packed : Packed arena (live es)
  aligned : ∀ e ∈ es, e.Aligned

theorem Sound.step (h : Sound es arena) (hmodest : Modest arena.capacity e)
    (hstep : Step arena e arena') : Sound (es ++ [e]) arena' := by
  have hconcat (he : e.Aligned) : ∀ e' ∈ es ++ [e], e'.Aligned := by
    intro e' he'
    rcases List.mem_append.mp he' with hold | hnew
    · exact h.aligned e' hold
    · rwa [List.mem_singleton.mp hnew]
  cases hstep with
  | alloc hcall =>
    obtain ⟨rfl, hpacked⟩ := allocObj_spec h.packed hmodest hcall
    exact ⟨by rwa [live_concat], hconcat h.packed.aligned⟩
  | reset => exact ⟨by rw [live_concat]; exact h.packed.reset, hconcat trivial⟩

/-- **Alignment and bounds.** After every sequence of requests, none larger than
`SIZE_MAX - capacity`, and resets, the tracker is a multiple of eight and at most the
capacity, every pointer returned so far is a multiple of eight, and the blocks returned
since the last reset lie in the memory and share no byte. -/
theorem aligned_safe {trace : Trace Arena Event} {arena : Arena} (hrun : Run system trace arena)
    (hmodest : ∀ e ∈ events trace, Modest initArena.capacity e) :
    8 ∣ arena.allocated.toNat ∧ arena.allocated ≤ arena.capacity ∧
      (∀ e ∈ events trace, e.Aligned) ∧ Extent.Laid maxSize (live (events trace)) := by
  have hsound : Sound (events trace) arena := by
    refine hrun.invariant_of_trace (C := fun _ e => Modest initArena.capacity e) ?_ ?_ ?_
    · rintro s rfl
      exact ⟨packed_init, by simp⟩
    · intro es s e s' h hC hstep
      have hcapacity : s.capacity = initArena.capacity :=
        UInt64.toNat_inj.mp (h.packed.capacity_eq.trans packed_init.capacity_eq.symm)
      exact h.step (hcapacity ▸ hC) hstep
    · exact fun v e hmem => hmodest e (List.mem_map_of_mem (f := Prod.snd) hmem)
  have hpacked := hsound.packed
  refine ⟨hpacked.aligned, ?_, hsound.aligned, hpacked.laid.mono hpacked.allocated_le⟩
  rw [UInt64.le_iff_toNat_le, hpacked.capacity_eq]
  exact hpacked.allocated_le

/-- The first string of `main`. -/
theorem aligned_safe_hello :
    ∃ trace arena, Run system trace arena ∧ events trace = [.alloc 13 0] ∧
      8 ∣ arena.allocated.toNat ∧ arena.allocated ≤ arena.capacity ∧
      (∀ e ∈ events trace, e.Aligned) ∧ Extent.Laid maxSize (live (events trace)) := by
  have hrun : Run system [(initArena, .alloc 13 0)] { initArena with allocated := 16 } :=
    .step (.start rfl) (.alloc rfl)
  refine ⟨_, _, hrun, rfl, aligned_safe hrun fun e he => ?_⟩
  rw [List.mem_singleton.mp he]
  exact (by decide : (13 : UInt64).toNat ≤ 2 ^ 64 - 1 - initArena.capacity.toNat)

end BareMetal.PaddedArena
