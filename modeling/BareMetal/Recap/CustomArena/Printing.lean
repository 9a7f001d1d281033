import BareMetal.Recap.CustomArena

/-!
# The print loop on arenas of any size

The index of `print_buffer` is an 8-bit number and the size of an arena is a `size_t`. When 256
or more values are stored the index wraps around before it reaches the size, and the loop
prints the first 256 of them again and again.

## Main results

* `exists_addAll` — what any number of values leaves in an arena
* `Stored.printBuffer_forever` — an arena of 256 values or more
* `prints_iff` — the arenas whose values are printed, each once
-/

namespace BareMetal.CustomArena

open CS

variable {capacity : ℕ} {arena : Arena capacity} {values : List UInt8}

/-- Calls of `add`, one after the other. -/
def addAll (arena : Arena capacity) (vals : List UInt8) : Outcome (Arena capacity) :=
  vals.foldlM (fun arena val => do
    let (arena, _) ← add arena val
    .ok arena) arena

/-- `print_buffer` ends. It has printed the values that are stored, each at its index, and no
other index. -/
def Prints (arena : Arena capacity) (values : List UInt8) : Prop :=
  ∃ arena' lines, Returns (fun fuel => printBuffer fuel arena) (arena', lines) ∧
    lines.map (fun line => line.1.toNat) = List.range arena.size ∧ lines.map Prod.snd = values

/-- An arena takes as many values as it has room for. -/
theorem exists_addAll (capacity : ℕ) (vals : List UInt8) :
    ∃ arena, addAll (alloc capacity) vals = .ok arena ∧ Stored arena (vals.take capacity) := by
  induction vals using List.reverseRecOn with
  | nil =>
    refine ⟨alloc capacity, rfl, ?_⟩
    rw [List.take_nil]
    exact stored_alloc capacity
  | append_singleton vals val ih =>
    obtain ⟨arena, hok, hstored⟩ := ih
    have hadd : addAll (alloc capacity) (vals ++ [val]) = (do
        let (arena, _) ← add arena val
        .ok arena) := by
      rw [addAll, List.foldlM_append, ← addAll, hok, Outcome.ok_bind]
      exact bind_pure _
    rw [hadd]
    rcases Nat.lt_or_ge vals.length capacity with hroom | hfull
    · rw [List.take_of_length_le hroom.le] at hstored
      obtain ⟨arena', hok', hstored', -⟩ := hstored.add hroom val
      have hlength : (vals ++ [val]).length ≤ capacity := List.length_append.trans_le hroom
      refine ⟨arena', ?_, ?_⟩
      · rw [hok', Outcome.ok_bind]
      · rw [List.take_of_length_le hlength]
        exact hstored'
    · -- the value is dropped, and only the flag changes
      have hlength : capacity ≤ (vals.take capacity).length := (List.length_take_of_le hfull).ge
      refine ⟨{ arena with isFull := true }, ?_, ?_⟩
      · rw [hstored.addFull hlength val, Outcome.ok_bind]
      · rw [List.take_append_of_le_length hfull]
        exact hstored.withFull

/-- The indices of the lines, as long as they fit in 8 bits. -/
theorem map_linesOf (hsize : values.length ≤ 256) :
    (linesOf values).map (fun line => line.1.toNat) = List.range values.length := by
  induction values using List.reverseRecOn with
  | nil => rfl
  | append_singleton values val ih =>
    have hlength : (values ++ [val]).length = values.length + 1 := List.length_append
    rw [hlength] at hsize ⊢
    have hindex : (UInt8.ofNat values.length).toNat = values.length :=
      UInt8.toNat_ofNat_of_lt' (show values.length < 2 ^ 8 by omega)
    rw [linesOf_concat, List.map_append, ih (by omega), List.range_succ, List.map_singleton, hindex]

theorem map_snd_linesOf (values : List UInt8) : (linesOf values).map Prod.snd = values := by
  induction values using List.reverseRecOn with
  | nil => rfl
  | append_singleton values val ih =>
    rw [linesOf_concat, List.map_append, ih]
    rfl

/-- No index of 8 bits reaches the size, so the loop does not leave. -/
theorem Stored.printBuffer_forever (h : Stored arena values) (hsize : 256 ≤ values.length)
    (fuel : ℕ) : CustomArena.printBuffer fuel arena = .error .outOfFuel := by
  have hloop : loop (CustomArena.printPass arena) fuel (0, []) = .error .outOfFuel := by
    refine loop_forever (I := fun _ => True) (fun s _ => ?_) trivial fuel
    obtain ⟨i, lines⟩ := s
    have hi : i.toNat < values.length := i.toNat_lt.trans_le hsize
    obtain ⟨val, -, hagain⟩ := h.printPass hi lines
    exact ⟨_, hagain, trivial⟩
  rw [CustomArena.printBuffer, hloop, Outcome.error_bind]

theorem Stored.prints_iff_lt (h : Stored arena values) :
    Prints arena values ↔ values.length < 256 := by
  constructor
  · rintro ⟨arena', lines, hreturns, -⟩
    by_contra hsize
    obtain ⟨fuel, hok⟩ := hreturns.exists_ok
    cases (h.printBuffer_forever (Nat.le_of_not_lt hsize) fuel).symm.trans hok
  · intro hsize
    refine ⟨_, _, h.printBuffer hsize, ?_, map_snd_linesOf values⟩
    rw [h.size_eq]
    exact map_linesOf hsize.le

/-- **Printing ends.** For every capacity and all values that are added: the stored values are
printed, each once, exactly when fewer than 256 of them are stored. -/
theorem prints_iff (capacity : ℕ) (vals : List UInt8) :
    ∃ arena, addAll (alloc capacity) vals = .ok arena ∧ arena.size = min capacity vals.length ∧
      (Prints arena (vals.take capacity) ↔ min capacity vals.length < 256) := by
  obtain ⟨arena, hok, hstored⟩ := exists_addAll capacity vals
  have hlength : (vals.take capacity).length = min capacity vals.length := List.length_take
  rw [← hlength]
  exact ⟨arena, hok, hstored.size_eq, hstored.prints_iff_lt⟩

/-- The arena of 256 bytes that is full is printed for ever. -/
theorem full_arena_never_ends :
    ∃ arena : Arena 256, addAll (alloc 256) (List.replicate 256 2) = .ok arena ∧
      (∀ fuel, printBuffer fuel arena = .error .outOfFuel) ∧
      ¬ Prints arena (List.replicate 256 2) := by
  -- the values stay a variable, so that the list is never computed
  obtain ⟨vals, hvals, hlength⟩ : ∃ vals : List UInt8,
      vals = List.replicate 256 2 ∧ vals.length = 256 := ⟨_, rfl, List.length_replicate⟩
  rw [← hvals]
  obtain ⟨arena, hok, hstored⟩ := exists_addAll 256 vals
  rw [List.take_of_length_le hlength.le] at hstored
  refine ⟨arena, hok, hstored.printBuffer_forever hlength.ge, fun hprints => ?_⟩
  exact absurd (hstored.prints_iff_lt.mp hprints) (hlength ▸ Nat.lt_irrefl 256)

end BareMetal.CustomArena
