import BareMetal.CS.Cells
import BareMetal.CS.Loop
import BareMetal.CS.Text

/-!
# Strings in memory

In memory a string is its characters, a 0 behind them, and then whatever else there is.
Two kinds of loops run along it: `scan` counts its steps in an `int`, and `skip` moves a
pointer.

## Main results

* `TextBuffer.exists_scan` — a scan reaches the end and returns what its steps leave
* `TextBuffer.scan_ne_ok` — unless the counter cannot hold the length
* `returns_skip`, `TextBuffer.returns_end` — a pointer stops at the first cell that is not skipped
-/

namespace CS

/-- A string in memory. -/
structure TextBuffer where
  chars : CString
  rest : CString
  nul_notMem : 0 ∉ chars

namespace TextBuffer

variable {b : TextBuffer} {pre post : CString} {c d : Int8}

/-- The memory from the first character on. -/
def cells (b : TextBuffer) : CString := b.chars ++ 0 :: b.rest

theorem cells_eq (h : b.chars = pre ++ c :: post) :
    b.cells = pre ++ c :: (post ++ 0 :: b.rest) := by
  simp [cells, h]

theorem load_cells (h : b.chars = pre ++ c :: post) :
    Cells.load b.cells pre.length = .ok c := by
  rw [cells_eq h, Cells.load_append_cons]

@[simp] theorem load_cells_length (b : TextBuffer) :
    Cells.load b.cells b.chars.length = .ok 0 :=
  Cells.load_append_cons b.chars b.rest 0

/-- Behind the last character there is a 0. -/
theorem load_cells_end (h : b.chars = pre) : Cells.load b.cells pre.length = .ok 0 := by
  rw [← h, load_cells_length]

theorem ne_zero (h : b.chars = pre ++ c :: post) : c ≠ 0 := by
  rintro rfl
  exact b.nul_notMem (by simp [h])

/-! #### The first characters -/

theorem load_cells_nil (h : b.chars = []) : Cells.load b.cells 0 = .ok 0 := load_cells_end h

theorem load_cells_first (h : b.chars = c :: post) : Cells.load b.cells 0 = .ok c := by
  rw [← List.nil_append (c :: post)] at h
  exact load_cells h

theorem load_cells_second (h : b.chars = d :: c :: post) : Cells.load b.cells 1 = .ok c := by
  rw [← List.singleton_append] at h
  exact load_cells h

theorem first_ne_zero (h : b.chars = c :: post) : c ≠ 0 := by
  rw [← List.nil_append (c :: post)] at h
  exact ne_zero h

/-- The first 0 in memory is where the string ends. -/
theorem takeWhile_cells (b : TextBuffer) : b.cells.takeWhile (fun c => c ≠ 0) = b.chars := by
  have hchars : ∀ c ∈ b.chars, decide (c ≠ 0) = true :=
    fun c hc => decide_eq_true fun heq => b.nul_notMem (heq ▸ hc)
  rw [cells, List.takeWhile_append_of_pos hchars]
  simp

theorem chars_eq_of_cells_eq {b b' : TextBuffer} (h : b.cells = b'.cells) : b.chars = b'.chars := by
  rw [← takeWhile_cells, h, takeWhile_cells]

/-! ### Long texts -/

/-- The letter `a`, as often as one likes. -/
def ofLength (n : ℕ) : TextBuffer where
  chars := List.replicate n 97
  rest := []
  nul_notMem h := absurd (List.eq_of_mem_replicate h) (by decide)

@[simp] theorem length_ofLength (n : ℕ) : (ofLength n).chars.length = n := List.length_replicate

/-! ### Loops with a counter -/

section Scan

variable {σ : Type} {step : σ → ℤ → Int8 → Outcome σ} {acc acc' : σ}

/-- One pass of `while(text[counter] != '\0') { step; counter++; }`. -/
def scanPass (step : σ → ℤ → Int8 → Outcome σ) (cells : CString) (s : ℤ × σ) :
    Outcome (Pass (ℤ × σ) (ℤ × σ)) := do
  let c ← Cells.load cells s.1
  if c ≠ 0 then do
    let acc ← step s.2 s.1 c
    let counter ← addInt s.1 1
    .ok (.again (counter, acc))
  else .ok (.leave s)

/-- The loop, with the counter at its end. -/
def scan (step : σ → ℤ → Int8 → Outcome σ) (cells : CString) (acc : σ) (fuel : ℕ) :
    Outcome (ℤ × σ) :=
  loop (scanPass step cells) fuel (0, acc)

theorem scanPass_append_cons (h : b.chars = pre ++ c :: post) (hlen : (pre.length : ℤ) < intMax)
    (hstep : step acc pre.length c = .ok acc') :
    scanPass step b.cells (pre.length, acc) = .ok (.again (((pre ++ [c]).length : ℕ), acc')) := by
  simp only [scanPass, load_cells h, Outcome.ok_bind, if_pos (ne_zero h), hstep,
    Cells.addInt_length pre c hlen]

theorem scanPass_length (step : σ → ℤ → Int8 → Outcome σ) (b : TextBuffer) (acc : σ) :
    scanPass step b.cells (b.chars.length, acc) = .ok (.leave (b.chars.length, acc)) := by
  simp [scanPass]

/-- A scan of a string whose length is an `int`. `P` says what the steps over the first
characters leave. -/
theorem exists_scan (b : TextBuffer) (hlen : (b.chars.length : ℤ) ≤ intMax)
    {P : CString → σ → Prop}
    (hstep : ∀ pre c post acc, b.chars = pre ++ c :: post → P pre acc →
      ∃ acc', step acc pre.length c = .ok acc' ∧ P (pre ++ [c]) acc') (h : P [] acc) :
    ∃ acc', Returns (scan step b.cells acc) (b.chars.length, acc') ∧ P b.chars acc' := by
  -- each pass leaves one character fewer
  have hpass : ∀ m s, (∃ pre post : CString, b.chars = pre ++ post ∧ m = post.length ∧
        s.1 = (pre.length : ℤ) ∧ P pre s.2) →
      (∃ k s', k < m ∧ scanPass step b.cells s = .ok (.again s') ∧ ∃ pre post : CString,
        b.chars = pre ++ post ∧ k = post.length ∧ s'.1 = (pre.length : ℤ) ∧ P pre s'.2) ∨
      ∃ s', scanPass step b.cells s = .ok (.leave s') ∧
        s'.1 = (b.chars.length : ℤ) ∧ P b.chars s'.2 := by
    rintro m ⟨counter, acc⟩ ⟨pre, post, hsplit, rfl, hcounter, h⟩
    dsimp only at hcounter h
    subst hcounter
    cases post with
    | nil =>
      obtain rfl : b.chars = pre := by simpa using hsplit
      exact Or.inr ⟨_, scanPass_length step b acc, rfl, h⟩
    | cons c post =>
      obtain ⟨acc', hacc, h'⟩ := hstep pre c post acc hsplit h
      have hlt : (pre.length : ℤ) < intMax := by
        have hsum := congrArg List.length hsplit
        simp only [List.length_append, List.length_cons] at hsum
        omega
      refine Or.inl ⟨post.length, _, Nat.lt_succ_self _, scanPass_append_cons hsplit hlt hacc,
        pre ++ [c], post, ?_, rfl, rfl, h'⟩
      rw [hsplit, List.append_assoc, List.singleton_append]
  obtain ⟨⟨counter, acc'⟩, hreturns, hcounter, h'⟩ :=
    Returns.exists_loop (s := (0, acc)) hpass ⟨[], b.chars, rfl, rfl, rfl, h⟩
  dsimp only at hcounter
  subst hcounter
  exact ⟨acc', hreturns, h'⟩

/-- The counter of a longer string overflows. -/
theorem scan_ne_ok (b : TextBuffer) (hlen : intMax < (b.chars.length : ℤ)) (fuel : ℕ)
    (out : ℤ × σ) : scan step b.cells acc fuel ≠ .ok out := by
  intro hrun
  refine loop_invariant (I := fun s => 0 ≤ s.1 ∧ s.1 ≤ intMax) (Q := fun _ => False) ?_ ?_
    (by simp [intMax]) hrun
  · rintro ⟨counter, acc⟩ s' ⟨hnonneg, -⟩ hpass
    obtain ⟨c, -, hpass⟩ := Outcome.bind_eq_ok.mp hpass
    split_ifs at hpass
    · obtain ⟨acc', -, hpass⟩ := Outcome.bind_eq_ok.mp hpass
      obtain ⟨counter', hadd, hpass⟩ := Outcome.bind_eq_ok.mp hpass
      cases hpass
      obtain ⟨rfl, hmax⟩ := of_addInt_eq_ok hadd
      dsimp only at hnonneg hmax ⊢
      omega
    · cases hpass
  · -- the 0 is behind all of the characters
    rintro ⟨counter, acc⟩ s' ⟨hnonneg, hmax⟩ hpass
    obtain ⟨c, hload, hpass⟩ := Outcome.bind_eq_ok.mp hpass
    split_ifs at hpass with hc
    · obtain ⟨acc', -, hpass⟩ := Outcome.bind_eq_ok.mp hpass
      obtain ⟨counter', -, hpass⟩ := Outcome.bind_eq_ok.mp hpass
      cases hpass
    · obtain rfl : c = 0 := of_not_not hc
      have hcell := (Cells.exists_of_load hload).2
      dsimp only at hnonneg hmax hcell
      rw [cells, List.getElem?_append_left (by omega)] at hcell
      exact b.nul_notMem (List.mem_of_getElem? hcell)

end Scan

end TextBuffer

/-! ### Loops with a pointer -/

section Skip

variable {α : Type} {p : α → Bool} {cells pre seg post : List α} {c : α}

/-- One pass of `while(p(*q)) q++`. -/
def skipPass (p : α → Bool) (cells : List α) (q : ℤ) : Outcome (Pass ℤ ℤ) := do
  let c ← Cells.load cells q
  if p c then .ok (.again (q + 1)) else .ok (.leave q)

/-- `while(p(*q)) q++`, with the pointer at its end. -/
def skip (p : α → Bool) (cells : List α) (q : ℤ) (fuel : ℕ) : Outcome ℤ :=
  loop (skipPass p cells) fuel q

theorem returns_skip (pre post : List α) (hseg : ∀ d ∈ seg, p d) (hc : ¬ p c) :
    Returns (skip p (pre ++ (seg ++ c :: post)) pre.length) ((pre.length : ℤ) + seg.length) := by
  -- the induction is on the cells that are skipped
  have hleaves : LeavesAfter (skipPass p (pre ++ (seg ++ c :: post))) seg.length pre.length
      ((pre.length : ℤ) + seg.length) := by
    induction seg generalizing pre with
    | nil =>
      apply LeavesAfter.leave
      simp [skipPass, hc]
    | cons d seg ih =>
      obtain ⟨hd, hseg⟩ := List.forall_mem_cons.mp hseg
      have hrest := ih (pre ++ [d]) hseg
      have hlen : ((pre ++ [d]).length : ℤ) = pre.length + 1 := by simp
      rw [List.append_assoc, List.singleton_append, hlen] at hrest
      have hsum : (pre.length : ℤ) + (d :: seg).length = pre.length + 1 + seg.length := by
        rw [List.length_cons, Nat.cast_add, Nat.cast_one]
        omega
      rw [hsum]
      refine .again ?_ hrest
      simp [skipPass, hd]
  exact .loop hleaves

/-- A pointer to the end of a string. -/
theorem TextBuffer.returns_end (b : TextBuffer) :
    Returns (skip (fun c => c ≠ 0) b.cells 0) b.chars.length := by
  have hchars : ∀ c ∈ b.chars, decide (c ≠ 0) = true :=
    fun c hc => decide_eq_true fun heq => b.nul_notMem (heq ▸ hc)
  have hskip := returns_skip [] b.rest hchars (c := 0) (by decide)
  simpa [TextBuffer.cells] using hskip

end Skip

end CS
