import BareMetal.CS.Block

/-!
# Queues at the front of an array

A queue in an array of pointers: the first slots hold the elements in order and the
others are null. The next element goes into the first null slot; when the first one
leaves, a loop moves the others one slot down and the last of their slots is cleared.

## Main results

* `store_slots` — storing behind the queue appends to it
* `moveDown_slots` — the loop and the cleared slot remove the first element
-/

namespace CS.SlotQueue

variable {n : ℕ} {α : Type} {xs : List α} {x : α}

/-- The elements in order, and nulls. -/
def slots (n : ℕ) (xs : List α) : Block n (Option α) := fun i => xs[(i : ℕ)]?

/-- One pass of `for(i = 0; i < size; i++) queue[i] = queue[i + 1]`. -/
def movePass {β : Type} (queue : Block n β) (i : ℕ) : Outcome (Block n β) := do
  let next ← queue.load (i + 1 : ℕ)
  queue.store i next

/-- The whole loop. -/
def moveDown {β : Type} (queue : Block n β) (size : ℕ) : Outcome (Block n β) :=
  (List.range size).foldlM movePass queue

theorem store_slots (h : xs.length < n) (x : α) :
    (slots n xs).store xs.length (some x) = .ok (slots n (xs ++ [x])) := by
  have hstore := Block.store_natCast (slots n xs) ⟨xs.length, h⟩ (some x)
  refine hstore.trans (congrArg _ ?_)
  funext i
  rcases Nat.lt_trichotomy (i : ℕ) xs.length with hlt | heq | hgt
  · have hne : i ≠ ⟨xs.length, h⟩ := Fin.ne_of_lt hlt
    rw [Function.update_of_ne hne, slots, slots, List.getElem?_append_left hlt]
  · obtain rfl : i = ⟨xs.length, h⟩ := Fin.ext heq
    rw [Function.update_self, slots, List.getElem?_concat_length]
  · have hne : i ≠ ⟨xs.length, h⟩ := Fin.ne_of_gt hgt
    rw [Function.update_of_ne hne, slots, slots, List.getElem?_eq_none (by omega),
      List.getElem?_eq_none (by rw [List.length_append, List.length_singleton]; omega)]

/-- After `k` passes the first `k` slots hold what was in the slots behind them. -/
theorem moveDown_eq {β : Type} (queue : Block n β) {k : ℕ} (hk : k < n) :
    moveDown queue k =
      .ok fun i => if h : (i : ℕ) < k then queue ⟨i + 1, by omega⟩ else queue i := by
  induction k with
  | zero =>
    have hnone : moveDown queue 0 = .ok queue := rfl
    rw [hnone]
    refine congrArg Except.ok (funext fun i => ?_)
    rw [dif_neg (Nat.not_lt_zero _)]
  | succ k ih =>
    have hpass := ih (by omega)
    unfold moveDown at hpass ⊢
    rw [List.range_succ, List.foldlM_append, hpass, Outcome.ok_bind]
    have hlt : k < n := by omega
    -- the last pass reads a slot that no pass has written
    have hload := Block.load_natCast
      (fun i : Fin n => if h : (i : ℕ) < k then queue ⟨i + 1, by omega⟩ else queue i) ⟨k + 1, hk⟩
    rw [dif_neg (by simp)] at hload
    have hstore := Block.store_natCast
      (fun i : Fin n => if h : (i : ℕ) < k then queue ⟨i + 1, by omega⟩ else queue i)
      ⟨k, hlt⟩ (queue ⟨k + 1, hk⟩)
    simp only [List.foldlM_cons, List.foldlM_nil, movePass]
    rw [hload, Outcome.ok_bind, hstore]
    refine congrArg Except.ok ?_
    funext i
    rcases Nat.lt_trichotomy i k with hless | heq | hgt
    · rw [Function.update_of_ne (Fin.ne_of_lt hless), dif_pos hless, dif_pos (by omega)]
    · obtain rfl : i = ⟨k, hlt⟩ := Fin.ext heq
      rw [Function.update_self, dif_pos (Nat.lt_succ_self k)]
    · rw [Function.update_of_ne (Fin.ne_of_gt hgt), dif_neg (by omega), dif_neg (by omega)]

/-- The first element leaves. -/
theorem moveDown_slots (h : xs.length < n) (x : α) :
    (moveDown (slots n (x :: xs)) xs.length >>= fun queue => queue.store xs.length none) =
      .ok (slots n xs) := by
  rw [moveDown_eq _ h, Outcome.ok_bind]
  refine (Block.store_natCast _ ⟨xs.length, h⟩ none).trans (congrArg _ ?_)
  funext i
  rcases Nat.lt_trichotomy (i : ℕ) xs.length with hlt | heq | hgt
  · have hne : i ≠ ⟨xs.length, h⟩ := Fin.ne_of_lt hlt
    rw [Function.update_of_ne hne, dif_pos hlt]
    rfl
  · obtain rfl : i = ⟨xs.length, h⟩ := Fin.ext heq
    rw [Function.update_self, slots, List.getElem?_eq_none (Nat.le_refl _)]
  · have hne : i ≠ ⟨xs.length, h⟩ := Fin.ne_of_gt hgt
    rw [Function.update_of_ne hne, dif_neg (by omega), slots, slots,
      List.getElem?_eq_none (by rw [List.length_cons]; omega), List.getElem?_eq_none (by omega)]

end CS.SlotQueue
