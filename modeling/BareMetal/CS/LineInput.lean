import BareMetal.CS.StringCopy
import Mathlib.Data.List.TakeWhile
import Mathlib.Data.Seq.Defs

/-!
# Lines of input

An input stream is a finite or infinite sequence of characters. `fgets` reads a line into a
buffer, or as much of it as fits, and returns a null pointer at the end of the input.
`strcspn` measures a string up to the first character of a given kind.

## Main results

* `fgets_nil`, `exists_fgets` — a call at the end of the input, and before it
* `strcspn_eq`, `exists_store_cut` — a line is cut at the first such character
-/

namespace CS

namespace LineInput

open StringCopy

/-- What is still to be read. -/
abbrev Input := Stream'.Seq Int8

/-- At most `n` characters, up to the end of the line, and what is left of the input. -/
def readLine : ℕ → Input → CString × Input
  | 0, input => ([], input)
  | n + 1, input =>
    match input.destruct with
    | none => ([], input)
    | some (c, rest) =>
      if c = 10 then ([c], rest)
      else
        let (line, rest) := readLine n rest
        (c :: line, rest)

/-- `fgets(buffer, n, input)` for `n > 1`, with the buffer after it and what is left of the
input. -/
def fgets (buffer : CString) (n : ℕ) (input : Input) : Outcome (Option (CString × Input)) :=
  match readLine (n - 1) input with
  | ([], _) => .ok none
  | (line, rest) => do
    let buffer ← write buffer 0 (line ++ [0])
    .ok (some (buffer, rest))

/-- `strcspn`. -/
def strcspn (reject : CString) : CString → Outcome ℕ
  | [] => .error (.outOfBounds 0)
  | c :: rest =>
    if c = 0 ∨ c ∈ reject then .ok 0
    else do
      let length ← strcspn reject rest
      .ok (length + 1)

variable {buffer : CString} {input : Input} {n : ℕ}

/-! ### Reading -/

theorem length_readLine_le (n : ℕ) (input : Input) : (readLine n input).1.length ≤ n := by
  induction n generalizing input with
  | zero => exact Nat.le_refl 0
  | succ n ih =>
    rw [readLine]
    split
    · exact Nat.zero_le _
    · split_ifs
      · exact Nat.succ_le_succ (Nat.zero_le n)
      · exact Nat.succ_le_succ (ih _)

theorem readLine_ne_nil (hn : 0 < n) (hinput : input ≠ .nil) : (readLine n input).1 ≠ [] := by
  obtain ⟨m, rfl⟩ := Nat.exists_eq_succ_of_ne_zero (Nat.ne_of_gt hn)
  induction input using Stream'.Seq.recOn with
  | nil => exact absurd rfl hinput
  | cons c rest =>
    rw [readLine, Stream'.Seq.destruct_cons]
    dsimp only
    split_ifs
    · exact List.cons_ne_nil _ _
    · exact List.cons_ne_nil _ _

/-- At the end of the input there is no line. -/
theorem fgets_nil (buffer : CString) (n : ℕ) : fgets buffer n .nil = .ok none := by
  have hnone : readLine (n - 1) .nil = ([], .nil) := by
    cases n - 1 with
    | zero => rfl
    | succ n => rw [readLine, Stream'.Seq.destruct_nil]
  rw [fgets, hnone]

/-- Before the end of the input, the line goes to the start of the buffer. -/
theorem exists_fgets (hbuffer : n ≤ buffer.length) (hn : 1 < n) (hinput : input ≠ .nil) :
    ∃ post, fgets buffer n input = .ok (some
      ((readLine (n - 1) input).1 ++ 0 :: post, (readLine (n - 1) input).2)) := by
  have hle := length_readLine_le (n - 1) input
  have hne := readLine_ne_nil (Nat.sub_pos_of_lt hn) hinput
  obtain ⟨line, rest, hread⟩ : ∃ line rest, readLine (n - 1) input = (line, rest) := ⟨_, _, rfl⟩
  rw [hread] at hle hne ⊢
  -- the line and its terminator replace the first cells
  have hlength : (buffer.take (line.length + 1)).length = (line ++ [0]).length := by
    rw [List.length_take_of_le (by dsimp only at hle; omega), List.length_append,
      List.length_singleton]
  have hwrite := write_eq [] (buffer.drop (line.length + 1)) hlength
  have hstart : (([] : CString).length : ℤ) = 0 := rfl
  rw [List.nil_append, List.take_append_drop, List.nil_append, hstart] at hwrite
  obtain ⟨c, line, rfl⟩ := List.exists_cons_of_ne_nil hne
  refine ⟨buffer.drop (line.length + 2), ?_⟩
  rw [fgets, hread]
  dsimp only
  rw [hwrite, Outcome.ok_bind, List.append_assoc, List.singleton_append]
  rfl

/-! ### The end of a line -/

/-- The characters of a line before the first one in `reject`, or before a 0. -/
def cut (reject line : CString) : CString := line.takeWhile fun c => ¬ (c = 0 ∨ c ∈ reject)

theorem zero_notMem_cut (reject line : CString) : 0 ∉ cut reject line := by
  intro hmem
  have hkept : ¬ ((0 : Int8) = 0 ∨ 0 ∈ reject) :=
    of_decide_eq_true (List.mem_takeWhile_imp (p := fun c => ¬ (c = 0 ∨ c ∈ reject)) hmem)
  exact hkept (Or.inl rfl)

theorem strcspn_eq (reject line post : CString) :
    strcspn reject (line ++ 0 :: post) = .ok (cut reject line).length := by
  induction line with
  | nil => exact if_pos (Or.inl rfl)
  | cons c line ih =>
    rw [List.cons_append, strcspn, cut, List.takeWhile_cons]
    by_cases hc : c = 0 ∨ c ∈ reject
    · rw [if_pos hc, if_neg (Bool.eq_false_iff.mp (decide_eq_false (not_not.mpr hc)))]
      rfl
    · rw [if_neg hc, if_pos (decide_eq_true hc), ih]
      rfl

/-- A terminator at the end of the line. -/
theorem exists_store_cut (reject line post : CString) :
    ∃ post', Cells.store (line ++ 0 :: post) (cut reject line).length 0 =
      .ok (cut reject line ++ 0 :: post') := by
  have hstore := Cells.store_behind (cut reject line)
    (line.dropWhile fun c => ¬ (c = 0 ∨ c ∈ reject)) post 0 0
  rw [cut, List.takeWhile_append_dropWhile] at hstore
  exact ⟨_, hstore⟩

end LineInput

end CS
