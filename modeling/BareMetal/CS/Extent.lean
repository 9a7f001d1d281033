import Mathlib.Order.Interval.Set.Disjoint
import Mathlib.Order.Interval.Set.Nat
import Mathlib.Tactic.Common
import Mathlib.Order.CompletePartialOrder

/-!
# Stretches of memory

An allocator that never takes single blocks back hands out the bytes of one piece of
memory from the front to the back. `Laid top blocks` says that the blocks it handed out
lie below `top` and share no byte, so that the next block may start there.

## Main results

* `Laid.push` — one more block behind the others
-/

namespace CS

/-- `size` bytes from `start` on. -/
structure Extent where
  start : ℕ
  size : ℕ
  deriving DecidableEq, Repr

namespace Extent

/-- The first byte behind the block. -/
def stop (block : Extent) : ℕ := block.start + block.size

/-- The positions of the bytes of the block. -/
def bytes (block : Extent) : Set ℕ := Set.Ico block.start block.stop

/-- All bytes that the blocks have together. -/
def total (blocks : List Extent) : ℕ := (blocks.map size).sum

/-- The blocks lie below `top` and are pairwise disjoint. -/
structure Laid (top : ℕ) (blocks : List Extent) : Prop where
  stop_le : ∀ block ∈ blocks, block.stop ≤ top
  disjoint : blocks.Pairwise fun block block' => Disjoint block.bytes block'.bytes

variable {top top' : ℕ} {block block' : Extent} {blocks : List Extent}

@[simp] theorem total_nil : total [] = 0 := by simp [total]

@[simp] theorem total_concat : total (blocks ++ [block]) = total blocks + block.size := by
  simp [total]

theorem disjoint_bytes (h : block.stop ≤ block'.start) : Disjoint block.bytes block'.bytes :=
  Set.Ico_disjoint_Ico_same.mono_right (Set.Ico_subset_Ico_left h)

theorem laid_nil (top : ℕ) : Laid top [] := ⟨by simp, by simp⟩

theorem Laid.mono (h : Laid top blocks) (htop : top ≤ top') : Laid top' blocks :=
  ⟨fun block hblock => (h.stop_le block hblock).trans htop, h.disjoint⟩

/-- One more block behind the others. -/
theorem Laid.push (h : Laid top blocks) (hstart : top ≤ block.start) (hstop : block.stop ≤ top') :
    Laid top' (blocks ++ [block]) := by
  have hle : block.start ≤ block.stop := by simp [stop]
  constructor
  · intro old hold
    rcases List.mem_append.mp hold with hold | hnew
    · exact (h.stop_le old hold).trans (hstart.trans (hle.trans hstop))
    · rwa [List.mem_singleton.mp hnew]
  · refine List.pairwise_append.mpr ⟨h.disjoint, by simp, fun old hold new hnew => ?_⟩
    rw [List.mem_singleton.mp hnew]
    exact disjoint_bytes ((h.stop_le old hold).trans hstart)

end Extent

end CS
