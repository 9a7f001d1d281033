import BareMetal.Multithreading.ConcurrentSum
import Mathlib.Order.Interval.Finset.Nat

/-!
# The chunks of `init_processing` and the list

`generate` divides the length of the list by the number of threads, and `init_processing`
gives every thread as many indices, each time the ones after those of the thread before. Nobody
gets the indices that the division leaves over.

## Main results

* `mem_indices_chunkAt` — the indices of a chunk are those with a given quotient
* `partition_iff` — the chunks partition the list exactly when nothing is left over
-/

namespace BareMetal.ConcurrentSum

open CS

variable {listSize n c i : ℕ} {list : Block listSize UInt16}

/-- The indices from `start_idx` on and before `end_idx`. -/
def Chunk.indices (chunk : Chunk listSize) : Finset ℕ :=
  Finset.Ico chunk.startIdx.toNat chunk.endIdx.toNat

/-- Every index of the list is in one chunk, and no other index is in a chunk. -/
structure Partition (threads : Block n (Chunk listSize)) : Prop where
  disjoint : ∀ t u, t ≠ u → Disjoint (threads t).indices (threads u).indices
  inside : ∀ t, (threads t).indices ⊆ Finset.range listSize
  covers : ∀ i < listSize, ∃ t, i ∈ (threads t).indices

/-- The quotient of an index is the number of its chunk. -/
theorem mem_indices_chunkAt {t : ℕ} (hfits : (t + 1) * c < 2 ^ 16) :
    i ∈ (chunkAt list c t).indices ↔ 0 < c ∧ i / c = t := by
  have hle : t * c ≤ (t + 1) * c := Nat.mul_le_mul_right c (Nat.le_succ t)
  have hstart : (UInt16.ofNat (t * c)).toNat = t * c :=
    UInt16.toNat_ofNat_of_lt' (hle.trans_lt hfits)
  have hend : (UInt16.ofNat ((t + 1) * c)).toNat = (t + 1) * c := UInt16.toNat_ofNat_of_lt' hfits
  rw [Chunk.indices, chunkAt, hstart, hend, Finset.mem_Ico]
  constructor
  · rintro ⟨hfirst, hlast⟩
    exact ⟨Nat.pos_of_lt_mul_left (hfirst.trans_lt hlast), Nat.div_eq_of_lt_le hfirst hlast⟩
  · rintro ⟨hpos, rfl⟩
    exact ⟨Nat.div_mul_le_self i c, Nat.lt_mul_of_div_lt (Nat.lt_succ_self _) hpos⟩

/-- All chunks together are the indices below the end of the last one. -/
theorem exists_mem_indices_iff (hfits : n * c < 2 ^ 16) :
    (∃ t : Fin n, i ∈ (chunkAt list c t).indices) ↔ i < n * c := by
  constructor
  · rintro ⟨t, ht⟩
    obtain ⟨hpos, hquot⟩ := (mem_indices_chunkAt (chunk_fits t hfits)).mp ht
    exact Nat.lt_mul_of_div_lt (hquot ▸ t.isLt) hpos
  · intro hi
    have hpos : 0 < c := Nat.pos_of_lt_mul_left hi
    have hquot : i / c < n := (Nat.div_lt_iff_lt_mul hpos).mpr hi
    let t : Fin n := ⟨i / c, hquot⟩
    exact ⟨t, (mem_indices_chunkAt (chunk_fits t hfits)).mpr ⟨hpos, rfl⟩⟩

/-- No index is in two chunks. -/
theorem disjoint_indices {t u : Fin n} (hfits : n * c < 2 ^ 16) (hne : t ≠ u) :
    Disjoint (chunkAt list c t).indices (chunkAt list c u).indices := by
  rw [Finset.disjoint_left]
  intro i ht hu
  obtain ⟨-, hquot⟩ := (mem_indices_chunkAt (chunk_fits t hfits)).mp ht
  obtain ⟨-, hquot'⟩ := (mem_indices_chunkAt (chunk_fits u hfits)).mp hu
  exact hne (Fin.ext (hquot.symm.trans hquot'))

/-- The chunks stay in the list. -/
theorem indices_subset (hfits : n * c < 2 ^ 16) (hle : n * c ≤ listSize) (t : Fin n) :
    (chunkAt list c t).indices ⊆ Finset.range listSize := by
  intro i hi
  have hlt : i < n * c := (exists_mem_indices_iff hfits).mp ⟨t, hi⟩
  exact Finset.mem_range.mpr (hlt.trans_le hle)

/-- Chunks of equal size partition the list exactly when they reach its end. -/
theorem partition_chunkAt_iff (hfits : n * c < 2 ^ 16) (hle : n * c ≤ listSize) :
    Partition (fun t : Fin n => chunkAt list c t) ↔ n * c = listSize := by
  constructor
  · intro h
    refine hle.antisymm (Nat.le_of_not_lt fun hlt => ?_)
    -- the first index that is left over
    have hmem : n * c < n * c := (exists_mem_indices_iff hfits).mp (h.covers (n * c) hlt)
    exact absurd hmem (Nat.lt_irrefl _)
  · intro heq
    refine ⟨fun t u => disjoint_indices hfits, indices_subset hfits hle, fun i hi => ?_⟩
    rw [← heq] at hi
    exact (exists_mem_indices_iff hfits).mpr hi

/-- **The chunks.** For a list of any length that a `uint16_t` can hold and any number of threads
but zero, the chunks of `init_processing` partition the list exactly when the number of threads
divides its length. -/
theorem partition_iff (numThreads : UInt8) (hpos : numThreads ≠ 0) (hsize : listSize ≤ 65535) :
    ∃ proc : Processing listSize numThreads.toNat, initProcessing numThreads generate = .ok proc ∧
      (Partition proc.threads ↔ numThreads.toNat ∣ listSize) := by
  have hle : numThreads.toNat * (listSize / numThreads.toNat) ≤ listSize := Nat.mul_div_le ..
  have hfits : numThreads.toNat * (listSize / numThreads.toNat) < 2 ^ 16 := by omega
  refine ⟨_, initProcessing_eq _ hpos, ?_⟩
  rw [partition_chunkAt_iff hfits hle, Nat.mul_div_eq_iff_dvd]

/-- The four threads of `main`. -/
theorem partition_main :
    ∃ proc : Processing 10000 4, initProcessing 4 generate = .ok proc ∧
      (Partition proc.threads ↔ 4 ∣ 10000) :=
  partition_iff 4 (by decide) (by decide)

/-- Three threads have 3333 indices each, and nobody has the last one. -/
theorem last_index_left_over :
    ∃ proc : Processing 10000 3, initProcessing 3 generate = .ok proc ∧
      (∀ t, 9999 ∉ (proc.threads t).indices) ∧ ¬ Partition proc.threads := by
  have hfits : 3 * 3333 < 2 ^ 16 := by decide
  have hlast : ∀ t : Fin 3, 9999 ∉ (chunkAt (fun _ : Fin 10000 => 1) 3333 t).indices := by
    intro t ht
    exact absurd ((exists_mem_indices_iff hfits).mp ⟨t, ht⟩) (by decide)
  refine ⟨_, initProcessing_eq (fun _ => 1) (by decide), hlast, fun h => ?_⟩
  obtain ⟨t, ht⟩ := h.covers 9999 (by decide)
  exact hlast t ht

end BareMetal.ConcurrentSum
