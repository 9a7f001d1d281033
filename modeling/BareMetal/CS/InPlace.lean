import BareMetal.CS.TextBuffer

/-!
# Loops that change an array in place

Two cells change places, or what is kept is moved to the front over what is not. Both kinds of
loop read and write the same array; in proofs it is cut where they stand. The loops that run
along a string to its end are `TextBuffer.scan` with the memory in the state.

## Main results

* `le_of_foldlM_range`, `foldlM_front` — a loop over the first cells, and what it writes
* `Cells.exchange_ends`, `Cells.exchange_eq` — two cells change places
* `Cells.foldlM_note` — a loop that prints an array
* `Cells.exists_compactStep` — one cell is kept or left behind
* `TextBuffer.exists_edit` — a loop along a string that changes it, up to its end
* `TextBuffer.edit_ne_ok` — unless the counter cannot hold the length
-/

namespace CS

/-! ### Loops over the first cells -/

section Front

variable {α σ : Type} {step : σ → ℕ → Outcome σ} {s s' : σ} {n : ℕ}

/-- A loop whose passes need a cell each, of which there are always as many. -/
theorem le_of_foldlM_range (length : σ → ℕ)
    (hpass : ∀ i < n, ∀ s s', step s i = .ok s' → i < length s ∧ length s' = length s)
    (hrun : (List.range n).foldlM step s = .ok s') : n ≤ length s ∧ length s' = length s := by
  induction n generalizing s' with
  | zero =>
    cases hrun
    exact ⟨Nat.zero_le _, rfl⟩
  | succ n ih =>
    rw [List.range_succ, List.foldlM_append] at hrun
    obtain ⟨t, hfirst, hlast⟩ := Outcome.bind_eq_ok.mp hrun
    obtain ⟨t', hstep, hend⟩ := Outcome.bind_eq_ok.mp hlast
    cases hend
    obtain ⟨hle, hlength⟩ := ih (fun i hi => hpass i (by omega)) hfirst
    obtain ⟨hlt, hlength'⟩ := hpass n (Nat.lt_succ_self n) t s' hstep
    exact ⟨by omega, hlength'.trans hlength⟩

/-- A loop that writes a value into each of the first cells. -/
theorem foldlM_front (state : List α → ℕ → σ) (value : ℕ → α) (cells : List α)
    (hpass : ∀ pre c post, pre.length < n → step (state (pre ++ c :: post) pre.length) pre.length =
      .ok (state (pre ++ value pre.length :: post) (pre.length + 1)))
    (hn : n ≤ cells.length) :
    (List.range n).foldlM step (state cells 0) =
      .ok (state ((List.range n).map value ++ cells.drop n) n) := by
  induction n with
  | zero => rfl
  | succ n ih =>
    have hlen : ((List.range n).map value).length = n := by
      rw [List.length_map, List.length_range]
    have hdrop : cells.drop n = cells[n] :: cells.drop (n + 1) :=
      List.drop_eq_getElem_cons (by omega)
    have hlast := hpass ((List.range n).map value) cells[n] (cells.drop (n + 1)) (by omega)
    rw [hlen] at hlast
    rw [List.range_succ, List.foldlM_append,
      ih (fun pre c post hlt => hpass pre c post (by omega)) (by omega), Outcome.ok_bind, hdrop,
      List.foldlM_cons, hlast, List.map_append, List.append_assoc]
    rfl

end Front

namespace Cells

variable {α : Type} {cells cells' kept gap post : List α} {c : α}

/-- A write that returns was to a cell. -/
theorem lt_of_store {i : ℤ} (h : store cells i c = .ok cells') : 0 ≤ i ∧ i < cells.length := by
  unfold store at h
  split_ifs at h with hin
  exact hin

/-! ### Two cells change places -/

/-- `temp = a[i]; a[i] = a[j]; a[j] = temp`. -/
def exchange (cells : List α) (i j : ℤ) : Outcome (List α) := do
  let temp ← load cells i
  let cells ← store cells i (← load cells j)
  store cells j temp

/-- The cells at two cuts. -/
theorem exchange_ends (pre mid post : List α) (a z : α) :
    exchange (pre ++ a :: (mid ++ z :: post)) pre.length (pre ++ a :: mid).length =
      .ok (pre ++ z :: (mid ++ a :: post)) := by
  have hlen : (pre ++ z :: mid).length = (pre ++ a :: mid).length := by simp
  -- the last cell is already in front when the first one is stored
  have hstore := store_append_cons_append pre mid post z z a
  rw [hlen] at hstore
  rw [exchange, load_append_cons, Outcome.ok_bind, load_append_cons_append, Outcome.ok_bind,
    store_append_cons, Outcome.ok_bind, hstore]

/-- The cells at two distances. -/
theorem exchange_eq {i j : ℕ} (hi : i < cells.length) (hj : j < cells.length) :
    exchange cells i j = .ok ((cells.set i cells[j]).set j cells[i]) := by
  have hset : j < (cells.set i cells[j]).length := by rwa [List.length_set]
  rw [exchange, load_of_getElem? (List.getElem?_eq_getElem hi), Outcome.ok_bind,
    load_of_getElem? (List.getElem?_eq_getElem hj), Outcome.ok_bind, store_of_lt hi,
    Outcome.ok_bind, store_of_lt hset]

/-- A loop over the first cells that notes what it reads. -/
theorem foldlM_note (pre post : List α) :
    (List.range pre.length).foldlM (fun noted (i : ℕ) => do
        let c ← load (pre ++ post) i
        .ok (noted ++ [c])) [] = .ok pre := by
  have hnote : ∀ noted : List α, pre.foldlM (fun (noted : List α) c =>
      (.ok (noted ++ [c]) : Outcome (List α))) noted = .ok (noted ++ pre) := by
    induction pre with
    | nil =>
      intro noted
      rw [List.append_nil]
      rfl
    | cons c pre ih =>
      intro noted
      rw [List.foldlM_cons, Outcome.ok_bind, ih, List.append_assoc, List.singleton_append]
  exact (foldlM_load_append (fun noted c => .ok (noted ++ [c])) pre post []).trans (hnote [])

/-! ### What is kept is moved to the front -/

/-- `if(keep(a[r])) { a[w] = a[r]; w++; }`, where `c` is what `a[r]` holds. -/
def compactStep (keep : α → Bool) (cells : List α) (w : ℤ) (c : α) : Outcome (List α × ℤ) :=
  if keep c then do
    let cells ← store cells w c
    let w ← addInt w 1
    .ok (cells, w)
  else .ok (cells, w)

/-- The gap between what is kept and what is still to be read. -/
theorem exists_compactStep (keep : α → Bool) (kept gap post : List α) (c : α)
    (hmax : (kept.length : ℤ) < intMax) :
    ∃ gap' : List α, gap'.length + (kept ++ [c].filter keep).length = gap.length + kept.length + 1 ∧
      compactStep keep (kept ++ gap ++ c :: post) kept.length c =
        .ok (kept ++ [c].filter keep ++ gap' ++ post, ((kept ++ [c].filter keep).length : ℕ)) := by
  unfold compactStep
  by_cases hkeep : keep c
  · obtain ⟨gap', hlen, hstore⟩ := exists_store_gap kept gap post c
    have hfilter : [c].filter keep = [c] := List.filter_cons_of_pos hkeep
    refine ⟨gap', ?_, ?_⟩
    · rw [hfilter, List.length_append, List.length_singleton]
      omega
    · rw [if_pos hkeep, hstore, Outcome.ok_bind, hfilter, addInt_length kept c hmax,
        Outcome.ok_bind]
  · have hfilter : [c].filter keep = [] := List.filter_cons_of_neg hkeep
    refine ⟨gap ++ [c], ?_, ?_⟩
    · rw [hfilter, List.append_nil, List.length_append, List.length_singleton]
      omega
    · rw [if_neg hkeep, hfilter, List.append_nil]
      simp

end Cells

/-! ### Along a string to its end -/

namespace TextBuffer

/-- The memory of a string, a counter, and what else a loop keeps. -/
structure Edit (σ : Type) where
  str : CString
  count : ℤ
  acc : σ

variable {σ : Type} {step : σ → CString → ℤ → Int8 → Outcome (CString × σ)} {b : TextBuffer}
  {acc : σ} {P : CString → CString → σ → Prop} {s : Edit σ}

/-- One pass of `while(str[count] != '\0') { step; count++; }`. -/
def editPass (step : σ → CString → ℤ → Int8 → Outcome (CString × σ)) (s : Edit σ) :
    Outcome (Pass (Edit σ) (Edit σ)) := do
  let c ← Cells.load s.str s.count
  if c ≠ 0 then do
    let edited ← step s.acc s.str s.count c
    let count ← addInt s.count 1
    .ok (.again ⟨edited.1, count, edited.2⟩)
  else .ok (.leave s)

/-- The loop. -/
def edit (step : σ → CString → ℤ → Int8 → Outcome (CString × σ)) (str : CString) (acc : σ)
    (fuel : ℕ) : Outcome (Edit σ) :=
  loop (editPass step) fuel ⟨str, 0, acc⟩

/-- What a step over the character `c` does: `P` says what those over the first characters have
made of them. -/
def Edits (step : σ → CString → ℤ → Int8 → Outcome (CString × σ)) (b : TextBuffer)
    (P : CString → CString → σ → Prop) : Prop :=
  ∀ pre c post done acc, b.chars = pre ++ c :: post → done.length = pre.length →
    (pre.length : ℤ) < intMax → P pre done acc →
    ∃ done' acc', step acc (done ++ c :: (post ++ 0 :: b.rest)) pre.length c =
        .ok (done' ++ (post ++ 0 :: b.rest), acc') ∧
      done'.length = (pre ++ [c]).length ∧ P (pre ++ [c]) done' acc'

/-- The loop stands behind the characters `pre`. -/
structure Edit.Behind (b : TextBuffer) (P : CString → CString → σ → Prop) (pre : CString)
    (s : Edit σ) : Prop where
  exists_str : ∃ post done, b.chars = pre ++ post ∧ done.length = pre.length ∧
    s.str = done ++ (post ++ 0 :: b.rest) ∧ P pre done s.acc
  count_eq : s.count = pre.length

theorem Edit.Behind.start (h : P [] [] acc) : Edit.Behind b P [] ⟨b.cells, 0, acc⟩ :=
  ⟨⟨b.chars, [], rfl, rfl, rfl, h⟩, rfl⟩

/-- One pass, over the next character or at the end. -/
theorem Edit.Behind.pass (hstep : Edits step b P) {pre : CString} (h : s.Behind b P pre) :
    (b.chars = pre ∧ editPass step s = .ok (.leave s)) ∨
      ((pre.length : ℤ) < b.chars.length ∧ intMax ≤ pre.length ∧
        ∀ p, editPass step s ≠ .ok p) ∨
      ∃ c s', editPass step s = .ok (.again s') ∧ s'.Behind b P (pre ++ [c]) := by
  obtain ⟨⟨post, done, hsplit, hlen, hstr, hP⟩, hcount⟩ := h
  have hload : ∀ c tail, post ++ 0 :: b.rest = c :: tail → Cells.load s.str s.count = .ok c := by
    intro c tail htail
    rw [hstr, hcount, ← hlen, htail, Cells.load_append_cons]
  cases post with
  | nil =>
    refine Or.inl ⟨by rw [hsplit, List.append_nil], ?_⟩
    rw [editPass, hload 0 b.rest rfl, Outcome.ok_bind, if_neg (not_not_intro rfl)]
  | cons c post =>
    have hc : c ≠ 0 := ne_zero hsplit
    have hlt : (pre.length : ℤ) < b.chars.length := by
      rw [hsplit, List.length_append, List.length_cons]
      omega
    refine Or.inr ?_
    by_cases hmax : (pre.length : ℤ) < intMax
    · obtain ⟨done', acc', hrun, hlen', hP'⟩ := hstep pre c post done s.acc hsplit hlen hmax hP
      refine Or.inr ⟨c, ⟨_, _, acc'⟩, ?_, ⟨post, done', ?_, hlen', rfl, hP'⟩, rfl⟩
      · rw [editPass, hload c _ rfl, Outcome.ok_bind, if_pos hc, hstr, hcount, List.cons_append,
          hrun, Outcome.ok_bind, Cells.addInt_length pre c hmax, Outcome.ok_bind]
      · rw [hsplit, List.append_assoc, List.singleton_append]
    · refine Or.inl ⟨hlt, not_lt.mp hmax, fun p hpass => ?_⟩
      rw [editPass, hload c _ rfl, Outcome.ok_bind, if_pos hc] at hpass
      obtain ⟨x, -, hpass⟩ := Outcome.bind_eq_ok.mp hpass
      obtain ⟨count, hadd, -⟩ := Outcome.bind_eq_ok.mp hpass
      have hle := (of_addInt_eq_ok hadd).2
      rw [hcount] at hle
      omega

/-- **A string whose length is an `int`.** `P` says what the steps have made of it. -/
theorem exists_edit (hstep : Edits step b P) (hlen : (b.chars.length : ℤ) ≤ intMax)
    (h : P [] [] acc) :
    ∃ done acc', Returns (edit step b.cells acc) ⟨done ++ 0 :: b.rest, b.chars.length, acc'⟩ ∧
      done.length = b.chars.length ∧ P b.chars done acc' := by
  -- each pass leaves one character fewer
  have hpass : ∀ m (s : Edit σ), (∃ pre, s.Behind b P pre ∧ m = b.chars.length - pre.length) →
      (∃ k s', k < m ∧ editPass step s = .ok (.again s') ∧
        ∃ pre, s'.Behind b P pre ∧ k = b.chars.length - pre.length) ∨
      ∃ s', editPass step s = .ok (.leave s') ∧ s'.Behind b P b.chars := by
    rintro m s ⟨pre, hs, rfl⟩
    rcases hs.pass hstep with ⟨heq, hleave⟩ | ⟨hlt, hmax, -⟩ | ⟨c, s', hagain, hs'⟩
    · exact Or.inr ⟨s, hleave, heq ▸ hs⟩
    · omega
    · refine Or.inl ⟨_, s', ?_, hagain, _, hs', rfl⟩
      obtain ⟨post, -, hsplit, -⟩ := hs'.exists_str
      have hcount := congrArg List.length hsplit
      simp only [List.length_append, List.length_singleton] at hcount ⊢
      omega
  obtain ⟨s, hreturns, hs⟩ := Returns.exists_loop hpass ⟨[], .start h, rfl⟩
  obtain ⟨post, done, hsplit, hlen', hstr, hP⟩ := hs.exists_str
  obtain rfl : post = [] := by simpa using hsplit
  refine ⟨done, s.acc, ?_, hlen', hP⟩
  have hend : s = ⟨done ++ 0 :: b.rest, b.chars.length, s.acc⟩ := by
    rw [← hs.count_eq, ← List.nil_append (0 :: b.rest), ← hstr]
  rwa [← hend]

/-- The counter of a longer string overflows. -/
theorem edit_ne_ok (hstep : Edits step b P) (hlen : intMax < (b.chars.length : ℤ))
    (h : P [] [] acc) (fuel : ℕ) (out : Edit σ) : edit step b.cells acc fuel ≠ .ok out := by
  intro hrun
  unfold edit at hrun
  refine loop_invariant (I := fun s : Edit σ => ∃ pre, s.Behind b P pre ∧ (pre.length : ℤ) ≤ intMax)
    (Q := fun _ => False) ?_ ?_ ⟨[], .start h, by simp [intMax]⟩ hrun
  · rintro s s' ⟨pre, hs, hmax⟩ hpass
    rcases hs.pass hstep with ⟨-, hleave⟩ | ⟨-, -, hstops⟩ | ⟨c, t, hagain, ht⟩
    · cases hleave.symm.trans hpass
    · exact absurd hpass (hstops _)
    · cases hagain.symm.trans hpass
      refine ⟨_, ht, ?_⟩
      -- the counter has gone up, so it could
      by_contra hover
      obtain ⟨x, -, hpass⟩ := Outcome.bind_eq_ok.mp hpass
      split_ifs at hpass
      · obtain ⟨y, -, hpass⟩ := Outcome.bind_eq_ok.mp hpass
        obtain ⟨count, hadd, hpass⟩ := Outcome.bind_eq_ok.mp hpass
        cases hpass
        obtain ⟨hcount, hle⟩ := of_addInt_eq_ok hadd
        have heq := ht.count_eq
        dsimp only at heq
        omega
      · cases hpass
  · rintro s r ⟨pre, hs, hmax⟩ hpass
    rcases hs.pass hstep with ⟨rfl, -⟩ | ⟨-, -, hstops⟩ | ⟨c, t, hagain, -⟩
    · omega
    · exact hstops _ hpass
    · cases hagain.symm.trans hpass

end TextBuffer

end CS
