import BareMetal.CS.Block
import BareMetal.CS.Tally
import BareMetal.CS.Transition
import Mathlib.Data.Nat.ModEq

/-!
# The concurrent sum of `multithreading/concurrent_sum.c`

The list is cut into one chunk of indices for each thread. A thread runs through the
indices of its chunk, but reads the list at a counter of its own that starts at zero: every
thread adds up the first chunk. With the generated list, in which all values are one, the
total is right nevertheless.

Every pass of a thread's loop is one step, so that the threads may take turns in any order.
The length of the list and the number of threads are parameters.

## Main results

* `initProcessing_eq` — the chunks
* `total_eq` — the total is that of the first chunk, once for each thread
* `exists_joined` — the threads come to an end
* `total_iff` — the total is the sum of the list exactly when the rest of the list adds up
  to what the first chunk would
-/

namespace BareMetal.ConcurrentSum

open CS Transition

variable {listSize n : ℕ}

/-- `Data`. -/
structure Data (listSize : ℕ) where
  list : Block listSize UInt16
  chunkSize : UInt16

/-- `chunk_t`. The list that the pointer is for is never written to. -/
structure Chunk (listSize : ℕ) where
  list : Option (Block listSize UInt16)
  startIdx : UInt16
  endIdx : UInt16
  partialSum : UInt16

/-- `Processing`. -/
structure Processing (listSize n : ℕ) where
  chunkSize : UInt16
  masterList : Block listSize UInt16
  threads : Block n (Chunk listSize)

/-- `generate`, for a list with any content. -/
def generateList (list : Block listSize UInt16) (numThreads : UInt8) : Outcome (Data listSize) :=
  if numThreads = 0 then .error .divByZero
  else .ok ⟨list, UInt16.ofNat (listSize / numThreads.toNat)⟩

/-- `generate`. -/
def generate (numThreads : UInt8) : Outcome (Data listSize) := generateList (fun _ => 1) numThreads

/-- One pass of the loop of `init_processing`: the two indices and the chunks so far. -/
def initPass (data : Data listSize) (state : UInt16 × UInt16 × Block n (Chunk listSize))
    (threadsIdx : ℕ) : Outcome (UInt16 × UInt16 × Block n (Chunk listSize)) := do
  let (sIdx, eIdx, threads) := state
  let threads ← threads.store threadsIdx ⟨some data.list, sIdx, eIdx, 0⟩
  .ok (sIdx + data.chunkSize, eIdx + data.chunkSize, threads)

/-- `init_processing`: `calloc` leaves null pointers and zeros. -/
def initProcessing (numThreads : UInt8) (genData : UInt8 → Outcome (Data listSize)) :
    Outcome (Processing listSize numThreads.toNat) := do
  let data ← genData numThreads
  let (_, _, threads) ← (List.range numThreads.toNat).foldlM (initPass data)
    (0, data.chunkSize, fun _ => ⟨none, 0, 0, 0⟩)
  .ok ⟨data.chunkSize, data.list, threads⟩

/-! ### The threads -/

/-- Where a thread stands in `compute_partial_sum`: before its check, before the test of
the loop, or at its end. -/
inductive Position
  | ready
  | loop (i count : UInt16)
  | returned
  deriving DecidableEq, Repr

/-- The chunks, and where their threads stand. -/
structure World (listSize n : ℕ) where
  chunks : Block n (Chunk listSize)
  positions : Fin n → Position

/-- The thread that takes a step. -/
abbrev Event (n : ℕ) := Fin n

/-- The body of the loop: `partial_sum += list[count]`. -/
def addValue (chunk : Chunk listSize) (list : Block listSize UInt16) (count : UInt16) :
    Outcome (Chunk listSize) := do
  let value ← list.load count.toNat
  .ok { chunk with partialSum := chunk.partialSum + value }

/-- The steps of the threads. -/
inductive Step : World listSize n → Event n → World listSize n → Prop
  | enter {world : World listSize n} {t : Fin n} {list : Block listSize UInt16} :
      world.positions t = .ready → (world.chunks t).list = some list →
      Step world t { world with
        positions := Function.update world.positions t (.loop (world.chunks t).startIdx 0) }
  | add {world : World listSize n} {t : Fin n} {i count : UInt16}
      {list : Block listSize UInt16} {chunk : Chunk listSize} :
      world.positions t = .loop i count → i < (world.chunks t).endIdx →
      (world.chunks t).list = some list → addValue (world.chunks t) list count = .ok chunk →
      Step world t
        { chunks := Function.update world.chunks t chunk
          positions := Function.update world.positions t (.loop (i + 1) (count + 1)) }
  | leave {world : World listSize n} {t : Fin n} {i count : UInt16} :
      world.positions t = .loop i count → ¬ i < (world.chunks t).endIdx →
      Step world t { world with positions := Function.update world.positions t .returned }

/-- The threads that `parallel_compute` creates. -/
def system (proc : Processing listSize n) : System (World listSize n) (Event n) where
  start world := world = ⟨proc.threads, fun _ => .ready⟩
  step := Step

/-- All threads are joined. -/
def World.Joined (world : World listSize n) : Prop := ∀ t, world.positions t = .returned

/-- The total that `parallel_compute` prints last. -/
def total (world : World listSize n) : UInt16 :=
  (List.finRange n).foldl (fun total t => total + (world.chunks t).partialSum) 0

/-! ### The chunks -/

variable {list : Block listSize UInt16} {c k : ℕ} {world world' : World listSize n} {t : Fin n}

/-- The chunk of the indices from `t * c` on. -/
def chunkAt (list : Block listSize UInt16) (c t : ℕ) : Chunk listSize :=
  ⟨some list, UInt16.ofNat (t * c), UInt16.ofNat ((t + 1) * c), 0⟩

/-- The first `k` chunks are set, and the indices are those of the next one. -/
theorem foldlM_initPass (data : Data listSize) (hc : data.chunkSize = UInt16.ofNat c)
    (hk : k ≤ n) :
    (List.range k).foldlM (initPass data) (0, data.chunkSize, fun _ : Fin n => ⟨none, 0, 0, 0⟩) =
      .ok (UInt16.ofNat (k * c), UInt16.ofNat ((k + 1) * c),
        fun t => if (t : ℕ) < k then chunkAt data.list c t else ⟨none, 0, 0, 0⟩) := by
  induction k with
  | zero =>
    simp [hc]
    rfl
  | succ k ih =>
    have hstore := Block.store_natCast
      (fun t : Fin n => if (t : ℕ) < k then chunkAt data.list c t else ⟨none, 0, 0, 0⟩)
      ⟨k, hk⟩ (chunkAt data.list c k)
    have hnext (m : ℕ) : UInt16.ofNat (m * c) + data.chunkSize = UInt16.ofNat ((m + 1) * c) := by
      rw [hc, ← UInt16.ofNat_add, Nat.succ_mul]
    rw [List.range_succ, List.foldlM_append, ih (by omega), Outcome.ok_bind]
    simp only [List.foldlM_cons, List.foldlM_nil, initPass]
    rw [← chunkAt, hstore, Outcome.ok_bind, Outcome.ok_bind, hnext, hnext]
    refine congrArg Except.ok (Prod.ext rfl (Prod.ext rfl (funext fun t => ?_)))
    dsimp only
    rcases Nat.lt_trichotomy t k with hlt | heq | hgt
    · rw [Function.update_of_ne (Fin.ne_of_lt hlt), if_pos hlt, if_pos (by omega)]
    · obtain rfl : t = ⟨k, hk⟩ := Fin.ext heq
      rw [Function.update_self, if_pos (Nat.lt_succ_self k)]
    · rw [Function.update_of_ne (Fin.ne_of_gt hgt), if_neg (by omega), if_neg (by omega)]

/-- The chunks that `init_processing` makes. -/
theorem initProcessing_eq (list : Block listSize UInt16) {numThreads : UInt8}
    (hpos : numThreads ≠ 0) :
    initProcessing numThreads (generateList list) =
      .ok ⟨UInt16.ofNat (listSize / numThreads.toNat), list,
        fun t => chunkAt list (listSize / numThreads.toNat) t⟩ := by
  have hchunks := foldlM_initPass
    ⟨list, UInt16.ofNat (listSize / numThreads.toNat)⟩ rfl (Nat.le_refl numThreads.toNat)
  rw [initProcessing, generateList, if_neg hpos, Outcome.ok_bind, hchunks, Outcome.ok_bind]
  simp

/-- The chunk of every thread ends in range when the last one does. -/
theorem chunk_fits (t : Fin n) (hfits : n * c < 2 ^ 16) : ((t : ℕ) + 1) * c < 2 ^ 16 :=
  (Nat.mul_le_mul_right c t.isLt).trans_lt hfits

/-! ### What the threads add up -/

/-- The sum of the first `k` elements. -/
def front (list : Block listSize UInt16) (k : ℕ) : ℕ :=
  ∑ i ∈ Finset.univ.filter (fun i : Fin listSize => (i : ℕ) < k), (list i).toNat

/-- The sum of the other elements. -/
def rear (list : Block listSize UInt16) (k : ℕ) : ℕ :=
  ∑ i ∈ Finset.univ.filter (fun i : Fin listSize => ¬ (i : ℕ) < k), (list i).toNat

@[simp] theorem front_zero (list : Block listSize UInt16) : front list 0 = 0 := by simp [front]

theorem front_succ (list : Block listSize UInt16) (hk : k < listSize) :
    front list (k + 1) = front list k + (list ⟨k, hk⟩).toNat := by
  have hinsert : Finset.univ.filter (fun i : Fin listSize => (i : ℕ) < k + 1) =
      insert ⟨k, hk⟩ (Finset.univ.filter fun i : Fin listSize => (i : ℕ) < k) := by
    ext i
    simp only [Finset.mem_filter, Finset.mem_univ, true_and, Finset.mem_insert, Fin.ext_iff]
    omega
  unfold front
  rw [hinsert, Finset.sum_insert (by simp), Nat.add_comm]

theorem front_add_rear (list : Block listSize UInt16) (k : ℕ) :
    front list k + rear list k = ∑ i, (list i).toNat :=
  Finset.sum_filter_add_sum_filter_not ..

/-- The thread `t` stands in the pass `k` of its loop. -/
def Position.At (c t k : ℕ) : Position → Prop
  | .ready => k = 0
  | .loop i count => i = UInt16.ofNat (t * c + k) ∧ count = UInt16.ofNat k
  | .returned => k = c

/-- The thread `t` has its chunk and has added up elements from the start of the list, one
for each of its passes. -/
structure Adds (list : Block listSize UInt16) (c t : ℕ) (chunk : Chunk listSize) (pos : Position) :
    Prop where
  list_eq : chunk.list = some list
  startIdx_eq : chunk.startIdx = UInt16.ofNat (t * c)
  endIdx_eq : chunk.endIdx = UInt16.ofNat ((t + 1) * c)
  sum_eq : ∃ k ≤ c, pos.At c t k ∧ chunk.partialSum.toNat = front list k % 2 ^ 16

variable {chunk chunk' : Chunk listSize} {pos : Position} {i count : UInt16}
  {trace : Trace (World listSize n) (Event n)}

theorem adds_chunkAt (list : Block listSize UInt16) (c t : ℕ) :
    Adds list c t (chunkAt list c t) .ready :=
  ⟨rfl, rfl, rfl, 0, Nat.zero_le c, rfl, by simp [chunkAt]⟩

theorem Adds.enter (h : Adds list c t chunk .ready) :
    Adds list c t chunk (.loop chunk.startIdx 0) := by
  obtain ⟨hlist, hstart, hend, k, hk, rfl, hsum⟩ := h
  exact ⟨hlist, hstart, hend, 0, hk, ⟨by simpa using hstart, by simp⟩, hsum⟩

/-- The test of the loop, for a list whose indices fit. -/
theorem Adds.lt_endIdx_iff (h : Adds list c t chunk (.loop i count))
    (hfits : (t + 1) * c < 2 ^ 16) :
    ∃ k ≤ c, i = UInt16.ofNat (t * c + k) ∧ count = UInt16.ofNat k ∧ count.toNat = k ∧
      chunk.partialSum.toNat = front list k % 2 ^ 16 ∧ (i < chunk.endIdx ↔ k < c) := by
  obtain ⟨-, -, hend, k, hk, ⟨rfl, rfl⟩, hsum⟩ := h
  have hmul : (t + 1) * c = t * c + c := Nat.succ_mul t c
  have hi : (UInt16.ofNat (t * c + k)).toNat = t * c + k :=
    UInt16.toNat_ofNat_of_lt' (show _ < 2 ^ 16 by omega)
  have hlast : chunk.endIdx.toNat = t * c + c := by
    rw [hend, hmul]
    exact UInt16.toNat_ofNat_of_lt' (show _ < 2 ^ 16 by omega)
  refine ⟨k, hk, rfl, rfl, UInt16.toNat_ofNat_of_lt' (show _ < 2 ^ 16 by omega), hsum, ?_⟩
  rw [UInt16.lt_iff_toNat_lt, hi, hlast]
  omega

/-- A pass adds the next element of the list. -/
theorem Adds.add (h : Adds list c t chunk (.loop i count)) (hfits : (t + 1) * c < 2 ^ 16)
    (hc : c ≤ listSize) (hlt : i < chunk.endIdx) :
    ∃ chunk', addValue chunk list count = .ok chunk' ∧
      Adds list c t chunk' (.loop (i + 1) (count + 1)) := by
  obtain ⟨k, -, rfl, rfl, hcount, hsum, hiff⟩ := h.lt_endIdx_iff hfits
  have hk := hiff.mp hlt
  let cell : Fin listSize := ⟨k, hk.trans_le hc⟩
  have hload : list.load (UInt16.ofNat k).toNat = .ok (list cell) := by
    rw [hcount]
    exact Block.load_natCast list cell
  refine ⟨{ chunk with partialSum := chunk.partialSum + list cell }, ?_, h.list_eq,
    h.startIdx_eq, h.endIdx_eq, k + 1, hk, ⟨?_, ?_⟩, ?_⟩
  · rw [addValue, hload, Outcome.ok_bind]
  · simp [← Nat.add_assoc]
  · simp
  · dsimp only
    rw [UInt16.toNat_add, hsum, front_succ list (hk.trans_le hc), Nat.mod_add_mod]

theorem Adds.leave (h : Adds list c t chunk (.loop i count)) (hfits : (t + 1) * c < 2 ^ 16)
    (hge : ¬ i < chunk.endIdx) : Adds list c t chunk .returned := by
  obtain ⟨k, hk, -, -, -, hsum, hiff⟩ := h.lt_endIdx_iff hfits
  have hkc : k = c := by
    rw [hiff] at hge
    omega
  exact ⟨h.list_eq, h.startIdx_eq, h.endIdx_eq, c, Nat.le_refl c, rfl, hkc ▸ hsum⟩

/-- All threads add up elements from the start of the list. -/
def AllAdd (list : Block listSize UInt16) (c : ℕ) (world : World listSize n) : Prop :=
  ∀ t : Fin n, Adds list c t (world.chunks t) (world.positions t)

/-- The other threads do not notice a step. -/
theorem AllAdd.move (h : AllAdd list c world) (ht : Adds list c t chunk' pos) :
    AllAdd list c
      ⟨Function.update world.chunks t chunk', Function.update world.positions t pos⟩ := by
  intro u
  rcases eq_or_ne u t with rfl | hne
  · simpa using ht
  · simpa [hne] using h u

theorem AllAdd.moveOnly (h : AllAdd list c world) (ht : Adds list c t (world.chunks t) pos) :
    AllAdd list c ⟨world.chunks, Function.update world.positions t pos⟩ := by
  have hmove := h.move ht
  rwa [Function.update_eq_self] at hmove

theorem AllAdd.step (h : AllAdd list c world) (hfits : n * c < 2 ^ 16) (hc : c ≤ listSize)
    (hstep : Step world t world') : AllAdd list c world' := by
  have hbound := chunk_fits t hfits
  have ht := h t
  cases hstep with
  | enter hpos hlist =>
    rw [hpos] at ht
    exact h.moveOnly ht.enter
  | add hpos hlt hlist hadd =>
    rw [hpos] at ht
    obtain ⟨chunk', hok, hadds⟩ := ht.add hbound hc hlt
    cases ht.list_eq.symm.trans hlist
    cases hok.symm.trans hadd
    exact h.move hadds
  | leave hpos hge =>
    rw [hpos] at ht
    exact h.moveOnly (ht.leave hbound hge)

variable {proc : Processing listSize n}

theorem allAdd (hthreads : ∀ t : Fin n, proc.threads t = chunkAt list c t) (hfits : n * c < 2 ^ 16)
    (hc : c ≤ listSize) (hrun : Run (system proc) trace world) : AllAdd list c world := by
  refine Run.invariant (I := fun _ => AllAdd list c) ?_
    (fun _ _ _ _ h hstep => h.step hfits hc hstep) hrun
  rintro _ rfl t
  simpa [hthreads] using adds_chunkAt list c t

/-! ### The end of the threads -/

/-- A bound for the steps that a thread still takes. -/
def Position.rank (c : ℕ) : Position → ℕ
  | .ready => c + 2
  | .loop _ count => c - count.toNat + 1
  | .returned => 0

/-- A bound for the steps of all threads. -/
def World.rank (c : ℕ) (world : World listSize n) : ℕ :=
  tally (fun _ pos => Position.rank c pos) world.positions

theorem rank_move (hpos : world.positions t = pos) (chunks : Block n (Chunk listSize))
    {pos' : Position} (hlt : pos'.rank c < pos.rank c) :
    World.rank c ⟨chunks, Function.update world.positions t pos'⟩ < world.rank c := by
  have hmove := tally_move (fun _ pos => Position.rank c pos) hpos pos'
  simp only [World.rank]
  omega

/-- Some thread can take a step as long as they have not all returned. -/
theorem AllAdd.progress (h : AllAdd list c world) (hfits : n * c < 2 ^ 16) (hc : c ≤ listSize) :
    world.Joined ∨ ∃ t world', world'.rank c < world.rank c ∧ Step world t world' := by
  by_cases hjoined : world.Joined
  · exact Or.inl hjoined
  · unfold World.Joined at hjoined
    push Not at hjoined
    obtain ⟨t, hne⟩ := hjoined
    have hbound := chunk_fits t hfits
    have ht := h t
    have hlist := ht.list_eq
    refine Or.inr ⟨t, ?_⟩
    cases hpos : world.positions t with
    | returned => exact absurd hpos hne
    | ready => exact ⟨_, rank_move hpos _ (by simp [Position.rank]), .enter hpos hlist⟩
    | loop i count =>
      rw [hpos] at ht
      by_cases hlt : i < (world.chunks t).endIdx
      · obtain ⟨chunk', hok, -⟩ := ht.add hbound hc hlt
        obtain ⟨k, -, -, -, hcount, -, hiff⟩ := ht.lt_endIdx_iff hbound
        have hk := hiff.mp hlt
        have hck : c < 2 ^ 16 := (Nat.le_mul_of_pos_left c (Nat.succ_pos t)).trans_lt hbound
        refine ⟨_, rank_move hpos _ ?_, .add hpos hlt hlist hok⟩
        simp only [Position.rank, UInt16.toNat_add, hcount, UInt16.toNat_one]
        omega
      · exact ⟨_, rank_move hpos _ (by simp [Position.rank]), .leave hpos hlt⟩

/-- Every run can be prolonged until all threads are joined. -/
theorem exists_joined (hthreads : ∀ t : Fin n, proc.threads t = chunkAt list c t)
    (hfits : n * c < 2 ^ 16) (hc : c ≤ listSize) (hrun : Run (system proc) trace world) :
    ∃ rest world', Run (system proc) (trace ++ rest) world' ∧ world'.Joined := by
  refine hrun.reach (P := fun m world => m = world.rank c ∧ AllAdd list c world)
    (fun m world hP => ?_) ⟨rfl, allAdd hthreads hfits hc hrun⟩
  obtain ⟨rfl, h⟩ := hP
  rcases h.progress hfits hc with hjoined | ⟨t, world', hlt, hstep⟩
  · exact Or.inl hjoined
  · exact Or.inr ⟨_, t, world', hlt, hstep, rfl, h.step hfits hc hstep⟩

/-! ### The total -/

/-- Values that are all `m`, up to overflow, are added to `a`. -/
theorem toNat_foldl_add {ι : Type*} (ts : List ι) {f : ι → UInt16} {m : ℕ}
    (hf : ∀ t, (f t).toNat = m % 2 ^ 16) (a : UInt16) :
    (ts.foldl (fun total t => total + f t) a).toNat = (a.toNat + ts.length * m) % 2 ^ 16 := by
  induction ts generalizing a with
  | nil => simp [Nat.mod_eq_of_lt a.toNat_lt]
  | cons t ts ih =>
    rw [List.foldl_cons, ih, UInt16.toNat_add, hf, Nat.add_mod_mod, Nat.mod_add_mod,
      List.length_cons, Nat.succ_mul, Nat.add_assoc, Nat.add_comm m]

/-- All threads have added up the first chunk. -/
theorem total_eq (h : AllAdd list c world) (hjoined : world.Joined) :
    (total world).toNat = n * front list c % 2 ^ 16 := by
  have hsum : ∀ t, (world.chunks t).partialSum.toNat = front list c % 2 ^ 16 := by
    intro t
    obtain ⟨k, -, hk, hsum⟩ := (h t).sum_eq
    rw [hjoined t] at hk
    exact hk ▸ hsum
  rw [total, toNat_foldl_add _ hsum]
  simp

theorem total_of_front {m : ℕ} (h : AllAdd list c world) (hjoined : world.Joined)
    (hfront : front list c = m) : (total world).toNat = n * m % 2 ^ 16 := by
  rw [total_eq h hjoined, hfront]

/-- Behind the first chunk the list adds up to the sum of the first chunk, once for every
further thread, up to overflow. -/
def Balanced (list : Block listSize UInt16) (numThreads : UInt8) : Prop :=
  (numThreads.toNat - 1) * front list (listSize / numThreads.toNat) ≡
    rear list (listSize / numThreads.toNat) [MOD 2 ^ 16]

/-- **When the total is right.** For a thread count that divides the length of the list, the
threads come to an end in every order, and then the total is the sum of the list, up to
overflow, exactly when the elements behind the first chunk add up to what the first chunk
would. -/
theorem total_iff (list : Block listSize UInt16) (numThreads : UInt8) (hpos : numThreads ≠ 0)
    (hdvd : numThreads.toNat ∣ listSize) (hsize : listSize < 2 ^ 16) :
    ∃ proc, initProcessing numThreads (generateList list) = .ok proc ∧
      (∀ trace world, Run (system proc) trace world →
        ∃ rest world', Run (system proc) (trace ++ rest) world' ∧ world'.Joined) ∧
      ∀ trace world, Run (system proc) trace world → world.Joined →
        ((total world).toNat = (∑ i, (list i).toNat) % 2 ^ 16 ↔ Balanced list numThreads) := by
  have hfits : numThreads.toNat * (listSize / numThreads.toNat) < 2 ^ 16 := by
    rwa [Nat.mul_div_cancel' hdvd]
  have hc : listSize / numThreads.toNat ≤ listSize := Nat.div_le_self ..
  have hthreads : 0 < numThreads.toNat := by
    rw [Nat.pos_iff_ne_zero]
    exact fun h => hpos (UInt8.toNat_inj.mp h)
  refine ⟨_, initProcessing_eq list hpos,
    fun trace world hrun => exists_joined (fun _ => rfl) hfits hc hrun,
    fun trace world hrun hjoined => ?_⟩
  have hsplit : numThreads.toNat * front list (listSize / numThreads.toNat) =
      front list (listSize / numThreads.toNat) +
        (numThreads.toNat - 1) * front list (listSize / numThreads.toNat) := by
    rw [Nat.sub_one_mul]
    exact (Nat.add_sub_cancel' (Nat.le_mul_of_pos_left _ hthreads)).symm
  rw [total_eq (allAdd (fun _ => rfl) hfits hc hrun) hjoined, hsplit,
    ← front_add_rear list (listSize / numThreads.toNat)]
  exact ⟨Nat.ModEq.add_left_cancel' _, Nat.ModEq.add_left _⟩

theorem front_const (value : UInt16) (hk : k ≤ listSize) :
    front (fun _ : Fin listSize => value) k = k * value.toNat := by
  induction k with
  | zero => simp
  | succ k ih => rw [front_succ _ hk, ih (by omega), Nat.succ_mul]

/-- In the generated list all elements are equal. -/
theorem balanced_const {numThreads : UInt8} (hdvd : numThreads.toNat ∣ listSize) (value : UInt16) :
    Balanced (fun _ : Fin listSize => value) numThreads := by
  have hle : listSize / numThreads.toNat ≤ listSize := Nat.div_le_self ..
  have hfront := front_const value hle
  have hall := front_add_rear (fun _ : Fin listSize => value) (listSize / numThreads.toNat)
  rw [Finset.sum_const, Finset.card_univ, Fintype.card_fin, smul_eq_mul, hfront] at hall
  have hlist : numThreads.toNat * (listSize / numThreads.toNat * value.toNat) =
      listSize * value.toNat := by
    rw [← Nat.mul_assoc, Nat.mul_div_cancel' hdvd]
  have hbalanced : (numThreads.toNat - 1) * (listSize / numThreads.toNat * value.toNat) =
      rear (fun _ : Fin listSize => value) (listSize / numThreads.toNat) := by
    rw [Nat.sub_one_mul]
    omega
  rw [Balanced, hfront, hbalanced]

/-- The four threads of `main`, with the generated list of 10000 elements. -/
theorem total_iff_main :
    ∃ proc : Processing 10000 4, initProcessing 4 generate = .ok proc ∧
      ∃ trace world, Run (system proc) trace world ∧ world.Joined ∧
        (total world).toNat = 10000 := by
  -- the list stays a variable, so that its sum is never computed element by element
  obtain ⟨list, hlist⟩ : ∃ list : Block 10000 UInt16, list = fun _ => 1 := ⟨_, rfl⟩
  have hgenerate : (generate : UInt8 → Outcome (Data 10000)) = generateList list := by
    rw [hlist]
    rfl
  have hbalanced : Balanced list 4 := by
    rw [hlist]
    exact balanced_const (by decide) 1
  have hsum : ∑ i, (list i).toNat = 10000 := by
    rw [hlist, Fin.sum_const]
    rfl
  obtain ⟨proc, hproc, hend, hiff⟩ := total_iff list 4 (by decide) (by decide) (by decide)
  obtain ⟨trace, world, hrun, hjoined⟩ := hend _ _ (.start rfl)
  refine ⟨proc, hgenerate ▸ hproc, _, _, hrun, hjoined, ?_⟩
  rw [(hiff _ _ hrun hjoined).mpr hbalanced, hsum]
  rfl

/-- A list that is zero behind its first element. -/
def onlyFirst (k : ℕ) : Block (k + 1) UInt16 := Fin.cons 1 fun _ => 0

theorem front_onlyFirst {m : ℕ} (hm : m ≤ k) : front (onlyFirst k) (m + 1) = 1 := by
  induction m with
  | zero =>
    rw [front_succ _ (Nat.succ_pos k), front_zero]
    rfl
  | succ m ih =>
    rw [front_succ _ (Nat.succ_lt_succ hm), ih (by omega)]
    rfl

theorem sum_onlyFirst (k : ℕ) : ∑ i, (onlyFirst k i).toNat = 1 := by
  rw [Fin.sum_univ_succ]
  simp [onlyFirst]

/-- The four threads of `main` count a single one four times. -/
theorem total_onlyFirst :
    ∃ proc : Processing 10000 4, initProcessing 4 (generateList (onlyFirst 9999)) = .ok proc ∧
      ∃ trace world, Run (system proc) trace world ∧ world.Joined ∧
        (total world).toNat = 4 ∧ (∑ i, (onlyFirst 9999 i).toNat) % 2 ^ 16 = 1 := by
  have hfits : 4 * 2500 < 2 ^ 16 := by decide
  have hc : 2500 ≤ 10000 := by decide
  let proc : Processing 10000 4 := ⟨2500, onlyFirst 9999, fun t => chunkAt (onlyFirst 9999) 2500 t⟩
  have hthreads : ∀ t : Fin 4, proc.threads t = chunkAt (onlyFirst 9999) 2500 t := fun _ => rfl
  obtain ⟨trace, world, hrun, hjoined⟩ := exists_joined hthreads hfits hc (.start rfl)
  refine ⟨proc, initProcessing_eq (onlyFirst 9999) (by decide), _, world, hrun, hjoined, ?_, ?_⟩
  · rw [total_of_front (allAdd hthreads hfits hc hrun) hjoined (front_onlyFirst (by decide))]
    simp
  · exact congrArg (· % 2 ^ 16) (sum_onlyFirst 9999)

end BareMetal.ConcurrentSum
