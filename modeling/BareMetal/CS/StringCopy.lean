import BareMetal.CS.TextBuffer

/-!
# Copies of strings

`strncpy(dest, source, n)` writes `n` characters in any case: those of the string at `source`
up to its end, then zeros. The string need not end within the first `n` characters, and then
the copy has no end either.

## Main results

* `write_eq` — characters written over others of the same number
* `getElem?_of_strncpy` — a copy leaves all other cells alone
* `strncpy_eq`, `strncpy_first` — the copy of a string over `n` characters, or up to its end
* `text_set_padded` — a terminator in the last place cuts the string there
-/

namespace CS

namespace StringCopy

variable {cells pre old new post t : CString} {c : Int8} {n : ℕ}

/-- Write the characters one after the other, from the distance `i` on. -/
def write (cells : CString) (i : ℤ) : CString → Outcome CString
  | [] => .ok cells
  | c :: rest => do
    let cells ← Cells.store cells i c
    write cells (i + 1) rest

/-- The `n` characters that `strncpy` writes. It does not read behind the end of the string
in the memory from `source` on. -/
def paddedCopy (source : CString) : ℕ → Outcome CString
  | 0 => .ok []
  | n + 1 =>
    match source with
    | [] => .error (.outOfBounds 0)
    | c :: rest =>
      if c = 0 then .ok (List.replicate (n + 1) 0)
      else do
        let copy ← paddedCopy rest n
        .ok (c :: copy)

/-- `strncpy(cells + i, source, n)`. -/
def strncpy (cells : CString) (i : ℤ) (source : CString) (n : ℕ) : Outcome CString := do
  let copy ← paddedCopy source n
  write cells i copy

/-- `strlen`. -/
def strlen : CString → Outcome ℕ
  | [] => .error (.outOfBounds 0)
  | c :: rest =>
    if c = 0 then .ok 0
    else do
      let length ← strlen rest
      .ok (length + 1)

/-- The string in the memory from a pointer on. -/
def text (cells : CString) : CString := cells.takeWhile fun c => c ≠ 0

/-! ### Writing -/

theorem write_eq (pre post : CString) (h : old.length = new.length) :
    write (pre ++ old ++ post) pre.length new = .ok (pre ++ new ++ post) := by
  induction new generalizing pre old with
  | nil =>
    obtain rfl : old = [] := List.length_eq_zero_iff.mp h
    rfl
  | cons c new ih =>
    cases old with
    | nil => cases h
    | cons d old =>
      have hrest := ih (pre ++ [c]) (Nat.succ.inj h)
      have hnext : ((pre ++ [c]).length : ℤ) = (pre.length : ℤ) + 1 := by simp
      rw [hnext, List.append_assoc, List.append_assoc, List.append_assoc, List.append_assoc]
        at hrest
      rw [write, List.append_assoc, List.cons_append, Cells.store_append_cons, Outcome.ok_bind,
        List.append_assoc]
      exact hrest

/-- A write changes no cells but those that it writes to. -/
theorem getElem?_of_write {cells' : CString} {i : ℤ} (h : write cells i new = .ok cells') {k : ℕ}
    (hk : (k : ℤ) < i ∨ i + new.length ≤ k) : cells'[k]? = cells[k]? := by
  induction new generalizing cells i with
  | nil => rw [Except.ok.inj h]
  | cons c new ih =>
    obtain ⟨cells₁, hstore, hrest⟩ := Outcome.bind_eq_ok.mp h
    rw [List.length_cons] at hk
    rw [ih hrest (by omega)]
    apply Cells.getElem?_of_store hstore
    omega

theorem length_of_paddedCopy {source copy : CString} (h : paddedCopy source n = .ok copy) :
    copy.length = n := by
  induction n generalizing source copy with
  | zero =>
    rw [paddedCopy] at h
    cases h
    rfl
  | succ n ih =>
    cases source with
    | nil => cases h
    | cons c rest =>
      rw [paddedCopy] at h
      split_ifs at h
      · cases h
        exact List.length_replicate
      · obtain ⟨tail, htail, h⟩ := Outcome.bind_eq_ok.mp h
        cases h
        rw [List.length_cons, ih htail]

/-- `strncpy` changes only the cells of the `n` characters. -/
theorem getElem?_of_strncpy {source cells' : CString} {i : ℤ}
    (h : strncpy cells i source n = .ok cells') {k : ℕ} (hk : (k : ℤ) < i ∨ i + n ≤ k) :
    cells'[k]? = cells[k]? := by
  obtain ⟨copy, hcopy, hwrite⟩ := Outcome.bind_eq_ok.mp h
  apply getElem?_of_write hwrite
  rwa [length_of_paddedCopy hcopy]

/-! ### Strings in memory -/

theorem strlen_append (hchars : 0 ∉ t) (post : CString) :
    strlen (t ++ 0 :: post) = .ok t.length := by
  induction t with
  | nil => rfl
  | cons c t ih =>
    obtain ⟨hc, ht⟩ := List.ne_and_not_mem_of_not_mem_cons hchars
    rw [List.cons_append, strlen, if_neg (Ne.symm hc), ih ht]
    rfl

theorem text_append (hchars : 0 ∉ t) (post : CString) : text (t ++ 0 :: post) = t :=
  TextBuffer.takeWhile_cells ⟨t, post, hchars⟩

/-- A string as `n` characters. -/
def padded (t : CString) (n : ℕ) : CString := t.take n ++ List.replicate (n - t.length) 0

@[simp] theorem length_padded (t : CString) (n : ℕ) : (padded t n).length = n := by
  simp [padded]
  omega

theorem padded_of_lt (h : t.length < n) :
    padded t n = t ++ 0 :: List.replicate (n - t.length - 1) 0 := by
  rw [padded, List.take_of_length_le (Nat.le_of_lt h), ← List.replicate_succ]
  congr 2
  omega

/-- A string with its terminator. -/
theorem padded_length_succ (t : CString) : padded t (t.length + 1) = t ++ [0] := by
  have hnone : t.length + 1 - t.length - 1 = 0 := by omega
  rw [padded_of_lt (Nat.lt_succ_self _), hnone, List.replicate_zero]

theorem paddedCopy_append (hchars : 0 ∉ t) (post : CString) (n : ℕ) :
    paddedCopy (t ++ 0 :: post) n = .ok (padded t n) := by
  induction t generalizing n with
  | nil => cases n <;> rfl
  | cons c t ih =>
    cases n with
    | zero => simp [paddedCopy, padded]
    | succ n =>
      obtain ⟨hc, ht⟩ := List.ne_and_not_mem_of_not_mem_cons hchars
      rw [List.cons_append, paddedCopy, if_neg (Ne.symm hc), ih ht]
      simp [padded]

/-- A copy over as many characters as are written. -/
theorem strncpy_eq (pre post : CString) (hchars : 0 ∉ t) (hold : old.length = n)
    (rest : CString) :
    strncpy (pre ++ old ++ post) pre.length (t ++ 0 :: rest) n =
      .ok (pre ++ padded t n ++ post) := by
  rw [strncpy, paddedCopy_append hchars, Outcome.ok_bind]
  exact write_eq pre post (by rw [hold, length_padded])

/-- A copy with the terminator, over the first of the cells `old`. -/
theorem strncpy_first (pre : CString) (hchars : 0 ∉ t) (hold : t.length < old.length)
    (rest : CString) :
    strncpy (pre ++ old) pre.length (t ++ 0 :: rest) (t.length + 1) =
      .ok (pre ++ (t ++ 0 :: old.drop (t.length + 1))) := by
  have hlength : (old.take (t.length + 1)).length = t.length + 1 :=
    List.length_take_of_le hold
  have heq := strncpy_eq pre (old.drop (t.length + 1)) hchars hlength rest
  rwa [List.append_assoc, List.take_append_drop, padded_length_succ, List.append_assoc,
    List.append_assoc, List.singleton_append] at heq

/-- A copy over all of the cells. -/
theorem strncpy_all (hchars : 0 ∉ t) (hold : old.length = n) (rest : CString) :
    strncpy old 0 (t ++ 0 :: rest) n = .ok (padded t n) := by
  have heq := strncpy_eq [] [] hchars hold rest
  rwa [List.append_nil, List.append_nil] at heq

/-- A terminator in the last place. -/
theorem set_padded (t : CString) (n : ℕ) :
    (padded t (n + 1)).set n 0 = t.take n ++ 0 :: List.replicate (n - t.length) 0 := by
  have htake : (padded t (n + 1)).take n = t.take n ++ List.replicate (n - t.length) 0 := by
    rw [padded, List.take_append, List.take_take, List.take_replicate, List.length_take]
    congr 2 <;> omega
  rw [List.set_eq_take_append_cons_drop, if_pos (by simp), htake,
    List.drop_of_length_le (by simp), List.append_assoc, ← List.replicate_succ',
    List.replicate_succ]

theorem text_set_padded (hchars : 0 ∉ t) (n : ℕ) :
    text ((padded t (n + 1)).set n 0) = t.take n := by
  rw [set_padded]
  exact text_append (fun hmem => hchars (List.mem_of_mem_take hmem)) _

end StringCopy

end CS
