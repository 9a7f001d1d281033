import BareMetal.CS.Extent
import BareMetal.CS.Outcome
import BareMetal.CS.Transition

/-!
# The arena of `memory/arena.c`

`arena_alloc` hands out the bytes of one block of memory from the front to the back and
exits when the offset and the request together exceed the size. Both are of type `size_t`,
and so is their sum, which wraps.

A pointer into the memory block is its distance from the start.

## Main results

* `safe_iff` — the blocks stay in the arena and apart from each other exactly while no
  accepted request wraps the sum
* `large_request_overlaps` — after a request that does, memory is handed out twice
-/

namespace BareMetal.MemoryArena

open CS Transition

/-- `struct Arena`, without the address of the memory block. -/
structure Arena where
  totalSize : UInt64
  offset : UInt64
  deriving DecidableEq, Repr

/-- `init_arena`. -/
def initArena (size : UInt64) : Arena := ⟨size, 0⟩

/-- `arena_alloc`, with the pointer that it returns. -/
def arenaAlloc (a : Arena) (bytesRequested : UInt64) : Outcome (Arena × UInt64) :=
  if a.offset + bytesRequested > a.totalSize then .error (.exit 1 "ERNO02 - Arena OOM\n")
  else .ok ({ a with offset := a.offset + bytesRequested }, a.offset)

/-- `arena_reset`. -/
def arenaReset (a : Arena) : Arena := { a with offset := 0 }

/-! ### Sequences of calls -/

/-- A call that returned. -/
inductive Event
  | alloc (bytesRequested ptr : UInt64)
  | reset
  deriving DecidableEq, Repr

/-- The calls that do not exit. -/
inductive Step : Arena → Event → Arena → Prop
  | alloc {a a' : Arena} {bytesRequested ptr : UInt64} :
      arenaAlloc a bytesRequested = .ok (a', ptr) → Step a (.alloc bytesRequested ptr) a'
  | reset {a : Arena} : Step a .reset (arenaReset a)

/-- Any sequence of calls on a new arena. -/
def system (size : UInt64) : System Arena Event where
  start a := a = initArena size
  step := Step

/-- The blocks after one more call. -/
def track (blocks : List Extent) : Event → List Extent
  | .alloc bytesRequested ptr => blocks ++ [⟨ptr.toNat, bytesRequested.toNat⟩]
  | .reset => []

/-- The blocks returned since the last reset. -/
def live (es : List Event) : List Extent := es.foldl track []

/-- The blocks lie inside the arena, share no byte, and fill it up to the offset. -/
structure Safe (a : Arena) (blocks : List Extent) : Prop where
  laid : Extent.Laid a.totalSize.toNat blocks
  offset_eq : a.offset.toNat = Extent.total blocks

/-- The sum that is tested does not wrap. -/
def Fits (a : Arena) : Event → Prop
  | .alloc bytesRequested _ => a.offset.toNat + bytesRequested.toNat < 2 ^ 64
  | .reset => True

variable {size : UInt64} {a a' : Arena} {bytesRequested ptr : UInt64} {es : List Event} {e : Event}
  {blocks : List Extent} {trace pre : Trace Arena Event}

@[simp] theorem live_concat (es : List Event) (e : Event) :
    live (es ++ [e]) = track (live es) e := by
  simp [live]

/-- An accepted request that does not wrap gets the next bytes of the arena. -/
theorem arenaAlloc_eq (hcall : arenaAlloc a bytesRequested = .ok (a', ptr))
    (hfits : a.offset.toNat + bytesRequested.toNat < 2 ^ 64) :
    ptr = a.offset ∧ a'.totalSize = a.totalSize ∧
      a'.offset.toNat = a.offset.toNat + bytesRequested.toNat ∧
      a'.offset.toNat ≤ a.totalSize.toNat := by
  unfold arenaAlloc at hcall
  split_ifs at hcall with hfull
  cases hcall
  have hsum : (a.offset + bytesRequested).toNat = a.offset.toNat + bytesRequested.toNat := by
    rw [UInt64.toNat_add, Nat.mod_eq_of_lt hfits]
  exact ⟨rfl, rfl, hsum, UInt64.le_iff_toNat_le.mp (UInt64.not_lt.mp hfull)⟩

/-- An accepted request that wraps gets a block that is larger than the arena. -/
theorem totalSize_lt_stop (hcall : arenaAlloc a bytesRequested = .ok (a', ptr))
    (hwraps : ¬ a.offset.toNat + bytesRequested.toNat < 2 ^ 64) :
    a'.totalSize.toNat < (Extent.mk ptr.toNat bytesRequested.toNat).stop := by
  unfold arenaAlloc at hcall
  split_ifs at hcall
  cases hcall
  have hsize := a.totalSize.toNat_lt
  simp only [Extent.stop]
  omega

/-- The blocks end where the offset is, as long as no sum wraps. -/
structure Filled (es : List Event) (a : Arena) : Prop where
  laid : Extent.Laid a.offset.toNat (live es)
  offset_eq : a.offset.toNat = Extent.total (live es)
  offset_le : a.offset.toNat ≤ a.totalSize.toNat

theorem filled_init (size : UInt64) : Filled [] (initArena size) where
  laid := Extent.laid_nil _
  offset_eq := by simp [initArena, live]
  offset_le := by simp [initArena]

theorem Filled.safe (h : Filled es a) : Safe a (live es) :=
  ⟨h.laid.mono h.offset_le, h.offset_eq⟩

theorem Filled.step (h : Filled es a) (hfits : Fits a e) (hstep : Step a e a') :
    Filled (es ++ [e]) a' := by
  cases hstep with
  | alloc hcall =>
    obtain ⟨rfl, hsize, hoffset, hle⟩ := arenaAlloc_eq hcall hfits
    refine ⟨?_, ?_, by rwa [hsize]⟩
    · rw [live_concat]
      refine h.laid.push ?_ ?_
      · simp
      · simp [Extent.stop, hoffset]
    · simp [track, hoffset, h.offset_eq]
  | reset =>
    refine ⟨?_, ?_, ?_⟩
    · simpa [track] using Extent.laid_nil _
    · simp [track, arenaReset]
    · simp [arenaReset]

theorem filled (hrun : Run (system size) trace a) (hfits : ∀ v e, (v, e) ∈ trace → Fits v e) :
    Filled (events trace) a := by
  refine hrun.invariant_of_trace ?_ (fun es s e s' h hC hstep => h.step hC hstep) hfits
  rintro s rfl
  exact filled_init size

/-- The block of a request that wraps does not lie in the arena. -/
theorem Safe.fits (hstep : Step a e a') (h : Safe a' (live (es ++ [e]))) : Fits a e := by
  cases hstep with
  | @alloc _ bytesRequested ptr hcall =>
    by_contra hwraps
    have hstop := h.laid.stop_le ⟨ptr.toNat, bytesRequested.toNat⟩ (by simp [track])
    exact hstop.not_gt (totalSize_lt_stop hcall hwraps)
  | reset => trivial

/-- **Arena blocks and wrapped sums.** In a sequence of calls on an arena of any size, the
blocks returned since the last reset lie inside the arena, share no byte and add up to the
offset, after every call, exactly when no request made the sum of offset and request
wrap. -/
theorem safe_iff (size : UInt64) {trace : Trace Arena Event} {a : Arena}
    (hrun : Run (system size) trace a) :
    (∀ pre v, Stage trace a pre v → Safe v (live (events pre))) ↔
      ∀ v e, (v, e) ∈ trace → Fits v e := by
  constructor
  · intro hsafe v e hmem
    obtain ⟨pre, v', -, hstep, hstage⟩ := hrun.next_stage hmem
    have hnext := hsafe _ _ hstage
    rw [events_concat] at hnext
    exact Safe.fits hstep hnext
  · intro hfits pre v hstage
    have hpre := filled (hstage.run hrun) fun v e hmem => hfits v e (hstage.isPrefix.subset hmem)
    exact hpre.safe

/-- One block of the arena of `main`: the arena is safe before the call and after it. -/
theorem safe_iff_main :
    Run (system 1024) [(initArena 1024, .alloc 512 0)] ⟨1024, 512⟩ ∧
      ∀ pre v, Stage [(initArena 1024, .alloc 512 0)] ⟨1024, 512⟩ pre v →
        Safe v (live (events pre)) := by
  have run : Run (system 1024) [(initArena 1024, .alloc 512 0)] ⟨1024, 512⟩ :=
    .step (.start rfl) (.alloc rfl)
  refine ⟨run, (safe_iff 1024 run).mpr fun v e hmem => ?_⟩
  cases List.mem_singleton.mp hmem
  exact (by decide : 0 + 512 < 2 ^ 64)

/-- A request of nearly `2 ^ 64` bytes is accepted and moves the offset back, so that the
next block lies over the first one. -/
theorem large_request_overlaps :
    ∃ trace a, Run (system 1024) trace a ∧
      live (events trace) = [⟨0, 512⟩, ⟨512, 2 ^ 64 - 256⟩, ⟨256, 512⟩] ∧
      ¬ Safe a (live (events trace)) := by
  have hfirst : Run (system 1024) _ ⟨1024, 512⟩ :=
    .step (.start rfl) (@Step.alloc _ _ 512 0 rfl)
  have hlarge : Run (system 1024) _ ⟨1024, 256⟩ :=
    hfirst.step (@Step.alloc _ _ 18446744073709551360 512 rfl)
  have hnext : Run (system 1024) _ ⟨1024, 768⟩ :=
    hlarge.step (@Step.alloc _ _ 512 256 rfl)
  refine ⟨_, _, hnext, rfl, fun h => ?_⟩
  have hstop := h.laid.stop_le ⟨512, 2 ^ 64 - 256⟩ (by decide)
  exact absurd hstop (by decide)

end BareMetal.MemoryArena
