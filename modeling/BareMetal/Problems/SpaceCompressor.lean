import BareMetal.CS.Calls
import BareMetal.CS.TextBuffer

/-!
# The compressor of `problems/space_compressor.c`

`compress_spaces` replaces every run of spaces by one space. It reads and writes the same memory
through two pointers. The model keeps a log of all accesses, so that it can be said that no
position is written before it is read.

## Main results

* `squeeze_spaces`, `squeeze_idem` — the text without runs of spaces
* `exists_compress` — what the loop leaves
* `compresses` — every string is compressed, in place and once
-/

namespace BareMetal.SpaceCompressor

open CS

/-- An access to the memory of the string. -/
inductive Access
  | load (i : ℤ)
  | store (i : ℤ)
  deriving DecidableEq, Repr

/-- The memory, the two pointers and all accesses so far. -/
structure Cursor where
  str : CString
  read : ℤ
  write : ℤ
  log : List Access
  deriving DecidableEq, Repr

/-- A read has been noted. -/
def Cursor.seen (s : Cursor) : Cursor := { s with log := s.log ++ [.load s.read] }

/-- `*read`. -/
def Cursor.load (s : Cursor) : Outcome (Int8 × Cursor) := do
  let c ← Cells.load s.str s.read
  .ok (c, s.seen)

/-- `*write = c`. -/
def Cursor.store (s : Cursor) (c : Int8) : Outcome Cursor := do
  let str ← Cells.store s.str s.write c
  .ok { s with str := str, log := s.log ++ [.store s.write] }

/-- `read++`. -/
def Cursor.skip (s : Cursor) : Cursor := { s with read := s.read + 1 }

/-- `write++; read++`. -/
def Cursor.next (s : Cursor) : Cursor := { s with read := s.read + 1, write := s.write + 1 }

/-- One pass of `while(*read == ' ') read++`. -/
def skipPass (s : Cursor) : Outcome (Pass Cursor Cursor) := do
  let (c, s) ← s.load
  if c = 32 then .ok (.again s.skip) else .ok (.leave s)

/-- One pass of the loop of `compress_spaces`. -/
def compressPass (fuel : ℕ) (s : Cursor) : Outcome (Pass Cursor Cursor) := do
  let (c, s) ← s.load
  if c ≠ 0 then do
    let (c, s) ← s.load
    if c = 32 then do
      let (c, s) ← s.load
      let s ← s.store c
      let s ← loop skipPass fuel s.next
      .ok (.again s)
    else do
      let (c, s) ← s.load
      let s ← s.store c
      .ok (.again s.next)
  else .ok (.leave s)

/-- `compress_spaces`, with the memory after it and all accesses. -/
def compressSpaces (str : Option CString) (fuel : ℕ) :
    Outcome (Option CString × List Access) :=
  match str with
  | none => .ok (none, [])
  | some str => do
    let s : Cursor := ⟨str, 0, 0, []⟩
    let (c, s) ← s.load
    if c = 0 then .ok (some s.str, s.log)
    else do
      let s ← loop (compressPass fuel) fuel s
      let s ← s.store 0
      .ok (some s.str, s.log)

/-! ### The text without runs of spaces -/

/-- A space in front of another space is left out. -/
def squeeze : CString → CString
  | [] => []
  | c :: rest => if c = 32 ∧ rest.head? = some 32 then squeeze rest else c :: squeeze rest

/-- A position that is written is among those that have been read. -/
def Access.Ready (pre : List Access) : Access → Prop
  | .load _ => True
  | .store i => .load i ∈ pre

/-- The string is compressed, every access is ready, and a second call changes nothing. -/
def Compresses (b : TextBuffer) : Prop :=
  ∃ (b' : TextBuffer) (log : List Access),
    Returns (compressSpaces (some b.cells)) (some b'.cells, log) ∧
      b'.chars = squeeze b.chars ∧ AllCalls Access.Ready log ∧
      ∃ log', Returns (compressSpaces (some b'.cells)) (some b'.cells, log')

variable {b : TextBuffer} {done gap todo rest post : CString} {c d : Int8} {s : Cursor}
  {log : List Access} {n : ℕ}

theorem squeeze_of_ne (h : c ≠ 32) (rest : CString) : squeeze (c :: rest) = c :: squeeze rest :=
  if_neg fun hspace => h hspace.1

/-- The spaces at the start of a text are one space. -/
theorem squeeze_spaces (rest : CString) :
    squeeze (32 :: rest) = 32 :: squeeze (rest.dropWhile (· = 32)) := by
  induction rest with
  | nil => rfl
  | cons c rest ih =>
    by_cases hspace : c = 32
    · subst hspace
      rw [squeeze, if_pos ⟨rfl, rfl⟩, ih, List.dropWhile_cons_of_pos (by decide)]
    · have hfirst : ¬ ((32 : Int8) = 32 ∧ (c :: rest).head? = some 32) :=
        fun h => hspace (Option.some.inj h.2)
      rw [squeeze, if_neg hfirst, List.dropWhile_cons_of_neg (by simpa using hspace)]

theorem squeeze_subset (text : CString) : squeeze text ⊆ text := by
  induction text with
  | nil => exact List.Subset.refl _
  | cons c rest ih =>
    rw [squeeze]
    split_ifs
    · exact List.subset_cons_of_subset _ ih
    · exact List.cons_subset_cons _ ih

theorem head?_squeeze (text : CString) : (squeeze text).head? = text.head? := by
  induction text with
  | nil => rfl
  | cons c rest ih =>
    rw [squeeze]
    split_ifs with hspaces
    · rw [ih, hspaces.2, hspaces.1]
      rfl
    · rfl

theorem squeeze_idem (text : CString) : squeeze (squeeze text) = squeeze text := by
  induction text with
  | nil => rfl
  | cons c rest ih =>
    rw [squeeze]
    split_ifs with hspaces
    · exact ih
    · rw [squeeze, head?_squeeze, if_neg hspaces, ih]

/-! ### One pass -/

/-- The cells before `write` are done, those from `read` on are still to be read, and between the
two pointers there is a gap. The string had `n` characters. -/
structure At (n : ℕ) (done gap todo rest : CString) (s : Cursor) : Prop where
  length_eq : done.length + gap.length + todo.length = n
  str_eq : s.str = done ++ gap ++ todo ++ 0 :: rest
  read_eq : s.read = (done ++ gap).length
  write_eq : s.write = done.length
  ready : AllCalls Access.Ready s.log
  seen : ∀ j : ℕ, j < (done ++ gap).length → .load j ∈ s.log

namespace At

theorem load (h : At n done gap todo rest s) (hcell : todo ++ 0 :: rest = c :: post) :
    s.load = .ok (c, s.seen) := by
  rw [Cursor.load, h.str_eq, h.read_eq, List.append_assoc, hcell, Cells.load_append_cons]
  rfl

theorem note (h : At n done gap todo rest s) : At n done gap todo rest s.seen where
  length_eq := h.length_eq
  str_eq := h.str_eq
  read_eq := h.read_eq
  write_eq := h.write_eq
  ready := allCalls_concat.mpr ⟨h.ready, trivial⟩
  seen j hj := List.mem_append_left _ (h.seen j hj)

theorem mem_log (s : Cursor) : .load s.read ∈ s.seen.log :=
  List.mem_append_right _ (List.mem_singleton_self _)

/-- The position that `write` points to has been read. -/
theorem load_write_mem (h : At n done gap todo rest s) (hread : .load s.read ∈ s.log) :
    .load s.write ∈ s.log := by
  rw [h.write_eq]
  cases gap with
  | nil =>
    rw [h.read_eq, List.append_nil] at hread
    exact hread
  | cons g gap =>
    -- it is in the gap, which has been read
    exact h.seen _ (by simp)

/-- The character that was read is written to the first cell of the gap. -/
theorem store (h : At n done gap (c :: todo) rest s) (hread : .load s.read ∈ s.log) :
    ∃ s' gap', s.store c = .ok s' ∧ At n (done ++ [c]) gap' todo rest s'.next := by
  obtain ⟨gap', hlength, hstore⟩ := Cells.exists_store_gap done gap (todo ++ 0 :: rest) c
  rw [← List.cons_append, ← List.append_assoc, ← List.append_assoc, ← h.str_eq, ← h.write_eq]
    at hstore
  have hnext : (done ++ [c] ++ gap').length = (done ++ gap).length + 1 := by
    simp only [List.length_append, List.length_singleton, hlength]
    omega
  refine ⟨⟨done ++ [c] ++ gap' ++ todo ++ 0 :: rest, s.read, s.write, s.log ++ [.store s.write]⟩,
    gap', ?_, ?_, rfl, ?_, ?_, ?_, fun j hj => List.mem_append_left _ ?_⟩
  · rw [Cursor.store, hstore]
    rfl
  · have htotal := h.length_eq
    rw [List.length_cons] at htotal
    rw [List.length_append, List.length_singleton, hlength]
    omega
  · rw [hnext, Nat.cast_succ, ← h.read_eq]
    rfl
  · rw [List.length_append, List.length_singleton, Nat.cast_succ, ← h.write_eq]
    rfl
  · exact allCalls_concat.mpr ⟨h.ready, h.load_write_mem hread⟩
  · rcases Nat.lt_succ_iff_lt_or_eq.mp (hnext ▸ hj) with hlt | rfl
    · exact h.seen j hlt
    · rw [← h.read_eq]
      exact hread

/-- The spaces that follow are skipped. -/
theorem skip (h : At n done gap todo rest s) :
    ∃ s' gap', Returns (fun fuel => loop skipPass fuel s) s' ∧
      At n done gap' (todo.dropWhile (· = 32)) rest s' := by
  induction todo generalizing gap s with
  | nil =>
    refine ⟨s.seen, gap, .loop_leave ?_, h.note⟩
    rw [skipPass, h.load rfl]
    rfl
  | cons c todo ih =>
    by_cases hspace : c = 32
    · have hskipped : At n done (gap ++ [c]) todo rest s.seen.skip := by
        have hnext : (done ++ (gap ++ [c])).length = (done ++ gap).length + 1 := by
          rw [← List.append_assoc, List.length_append, List.length_singleton]
        refine ⟨?_, ?_, ?_, h.write_eq, h.note.ready, fun j hj => ?_⟩
        · have htotal := h.length_eq
          rw [List.length_cons] at htotal
          rw [List.length_append, List.length_singleton]
          omega
        · rw [← List.append_assoc, List.append_assoc _ [c]]
          exact h.str_eq
        · rw [hnext, Nat.cast_succ, ← h.read_eq]
          rfl
        · rcases Nat.lt_succ_iff_lt_or_eq.mp (hnext ▸ hj) with hlt | rfl
          · exact h.note.seen j hlt
          · rw [← h.read_eq]
            exact mem_log s
      obtain ⟨s', gap', hloop, h'⟩ := ih hskipped
      refine ⟨s', gap', .loop_again ?_ hloop, ?_⟩
      · rw [skipPass, h.load rfl, Outcome.ok_bind]
        exact if_pos hspace
      · rw [List.dropWhile_cons_of_pos (by simpa using hspace)]
        exact h'
    · refine ⟨s.seen, gap, .loop_leave ?_, ?_⟩
      · rw [skipPass, h.load rfl, Outcome.ok_bind]
        exact if_neg hspace
      · rw [List.dropWhile_cons_of_neg (by simpa using hspace)]
        exact h.note

/-- At the end of the string the loop leaves. -/
theorem leave (h : At n done gap [] rest s) (fuel : ℕ) :
    compressPass fuel s = .ok (.leave s.seen) := by
  rw [compressPass, h.load rfl, Outcome.ok_bind]
  exact if_neg fun hne => hne rfl

/-- One character is copied, and the spaces behind a space are skipped. -/
theorem again (h : At n done gap (c :: todo) rest s) (hc : c ≠ 0) :
    ∃ s' gap', Returns (fun fuel => compressPass fuel s) (.again s') ∧
      At n (done ++ [c]) gap' (if c = 32 then todo.dropWhile (· = 32) else todo) rest s' := by
  -- the character is read three times
  have hseen := h.note.note.note
  obtain ⟨s₁, gap₁, hstore, h₁⟩ := hseen.store (mem_log s.seen.seen)
  split_ifs with hspace
  · obtain ⟨s', gap', hloop, h'⟩ := h₁.skip
    refine ⟨s', gap', ?_, h'⟩
    refine (hloop.map Pass.again).congr fun fuel => ?_
    rw [compressPass, h.load rfl, Outcome.ok_bind]
    dsimp only
    rw [if_pos hc, h.note.load rfl, Outcome.ok_bind]
    dsimp only
    rw [if_pos hspace, h.note.note.load rfl, Outcome.ok_bind]
    dsimp only
    rw [hstore]
    rfl
  · refine ⟨s₁.next, gap₁, .of_eq fun fuel => ?_, h₁⟩
    rw [compressPass, h.load rfl, Outcome.ok_bind]
    dsimp only
    rw [if_pos hc, h.note.load rfl, Outcome.ok_bind]
    dsimp only
    rw [if_neg hspace, h.note.note.load rfl, Outcome.ok_bind]
    dsimp only
    rw [hstore]
    rfl

end At

/-! ### The whole string -/

/-- The loop from any point on. -/
theorem exists_compress (h : At n done gap todo rest s) (hnul : 0 ∉ todo) :
    ∃ s' gap', Returns.Leaves compressPass s (Cursor.seen s') ∧
      At n (done ++ squeeze todo) gap' [] rest s' := by
  -- a pass takes one character away, or a space with all that follow it
  induction hm : todo.length using Nat.strongRecOn generalizing done gap todo s with
  | ind m ih =>
    cases todo with
    | nil =>
      refine ⟨s, gap, .leave (.of_eq fun fuel => h.leave fuel), ?_⟩
      rw [squeeze, List.append_nil]
      exact h
    | cons c todo =>
      obtain ⟨hc, hnul⟩ := not_or.mp (mt List.mem_cons.mpr hnul)
      obtain ⟨s₁, gap₁, hagain, h₁⟩ := h.again (Ne.symm hc)
      rw [List.length_cons] at hm
      split_ifs at h₁ with hspace
      · have hsuffix : todo.dropWhile (· = 32) <:+ todo := List.dropWhile_suffix _
        have hle := hsuffix.length_le
        obtain ⟨s', gap', hrest, h'⟩ :=
          ih _ (by omega) h₁ (fun hmem => hnul (hsuffix.subset hmem)) rfl
        refine ⟨s', gap', .again hagain hrest, ?_⟩
        subst hspace
        rw [squeeze_spaces, List.append_cons]
        exact h'
      · obtain ⟨s', gap', hrest, h'⟩ := ih _ (by omega) h₁ hnul rfl
        refine ⟨s', gap', .again hagain hrest, ?_⟩
        rw [squeeze_of_ne hspace, List.append_cons]
        exact h'

/-- One call. A string without runs of spaces stays as it is. -/
theorem exists_compressSpaces (b : TextBuffer) :
    ∃ (b' : TextBuffer) (log : List Access),
      Returns (compressSpaces (some b.cells)) (some b'.cells, log) ∧
        b'.chars = squeeze b.chars ∧ AllCalls Access.Ready log ∧
        (squeeze b.chars = b.chars → b'.cells = b.cells) := by
  have hstart : At b.chars.length [] [] b.chars b.rest ⟨b.cells, 0, 0, []⟩ :=
    ⟨by simp, rfl, rfl, rfl, allCalls_nil _, fun j hj => absurd hj (Nat.not_lt_zero j)⟩
  by_cases hnil : b.chars = []
  · refine ⟨b, _, .of_eq fun fuel => ?_, by rw [hnil]; rfl, hstart.note.ready, fun _ => rfl⟩
    rw [compressSpaces]
    dsimp only
    rw [hstart.load (by rw [hnil]; rfl), Outcome.ok_bind]
    rfl
  · obtain ⟨c, text, hcons⟩ := List.exists_cons_of_ne_nil hnil
    have hcells : b.chars ++ 0 :: b.rest = c :: (text ++ 0 :: b.rest) := by
      rw [hcons]
      rfl
    have hload := hstart.load hcells
    have hc : c ≠ 0 := TextBuffer.first_ne_zero hcons
    obtain ⟨s', gap', hleaves, hend⟩ := exists_compress hstart.note b.nul_notMem
    rw [List.nil_append] at hend
    have hnul : 0 ∉ squeeze b.chars := fun hmem => b.nul_notMem (squeeze_subset _ hmem)
    have hstore : s'.seen.store 0 = .ok
        { s'.seen with
          str := squeeze b.chars ++ 0 :: (gap' ++ 0 :: b.rest).tail
          log := s'.seen.log ++ [.store s'.seen.write] } := by
      have hcells : Cells.store s'.seen.str s'.seen.write 0 =
          .ok (squeeze b.chars ++ 0 :: (gap' ++ 0 :: b.rest).tail) := by
        rw [hend.note.str_eq, hend.note.write_eq, List.append_nil, Cells.store_behind]
      rw [Cursor.store, hcells]
      rfl
    have hwritten : Access.Ready s'.seen.log (.store s'.seen.write) :=
      hend.note.load_write_mem (At.mem_log s')
    refine ⟨⟨squeeze b.chars, (gap' ++ 0 :: b.rest).tail, hnul⟩,
      s'.seen.log ++ [.store s'.seen.write], ?_, rfl,
      allCalls_concat.mpr ⟨hend.note.ready, hwritten⟩, fun hsame => ?_⟩
    · refine ((Returns.nested hleaves).bind (g := fun s _ => do
        let s ← s.store 0
        .ok (some s.str, s.log)) (.of_eq fun _ => ?_)).congr fun fuel => ?_
      · rw [hstore]
        rfl
      · rw [compressSpaces]
        dsimp only
        rw [hload, Outcome.ok_bind]
        exact if_neg hc
    · -- nothing was left out, so there is no gap
      have htotal := hend.length_eq
      rw [hsame, List.length_nil] at htotal
      obtain rfl : gap' = [] := List.length_eq_zero_iff.mp (by omega)
      exact congrArg (fun chars : CString => chars ++ 0 :: b.rest) hsame

/-- **Exact compression.** Every string becomes the one without runs of spaces; no position is
written that has not been read; and a second call changes nothing. -/
theorem compresses (b : TextBuffer) : Compresses b := by
  obtain ⟨b', log, hreturns, hchars, hready, -⟩ := exists_compressSpaces b
  obtain ⟨b'', log', hagain, -, -, hsame⟩ := exists_compressSpaces b'
  have hsqueezed : squeeze b'.chars = b'.chars := by rw [hchars, squeeze_idem]
  rw [hsame hsqueezed] at hagain
  exact ⟨b', log, hreturns, hchars, hready, log', hagain⟩

end BareMetal.SpaceCompressor
