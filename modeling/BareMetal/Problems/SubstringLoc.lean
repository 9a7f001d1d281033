import BareMetal.CS.TextBuffer
import Mathlib.Data.Nat.Find
import Mathlib.Order.Bounds.Basic

/-!
# The search of `problems/substring_loc.c`

`find_substring` compares the needle with the haystack at every position, from left to
right. It reads memory through pointers only, so that every read could pass the end of a
string.

## Main results

* `exists_scout` — two scouts tell whether the needle starts here
* `findSubstring_first` — the first position is found, if there is one, and no read passes
  the end of a string
-/

namespace BareMetal.SubstringLoc

open CS

/-- The pointers `h_scout` and `n_scout`. -/
structure Scouts where
  hScout : ℤ
  nScout : ℤ
  deriving DecidableEq, Repr

/-- One pass of the inner loop. -/
def scoutPass (haystack needle : CString) (s : Scouts) : Outcome (Pass Scouts Scouts) := do
  let c ← Cells.load haystack s.hScout
  if c ≠ 0 then do
    let d ← Cells.load needle s.nScout
    if d ≠ 0 ∧ c = d then .ok (.again ⟨s.hScout + 1, s.nScout + 1⟩) else .ok (.leave s)
  else .ok (.leave s)

/-- One pass of the outer loop. -/
def findPass (haystack needle : CString) (fuel : ℕ) (h : ℤ) : Outcome (Pass ℤ (Option ℤ)) := do
  let c ← Cells.load haystack h
  if c ≠ 0 then do
    let s ← loop (scoutPass haystack needle) fuel ⟨h, 0⟩
    let d ← Cells.load needle s.nScout
    if d = 0 then .ok (.leave (some h)) else .ok (.again (h + 1))
  else .ok (.leave none)

/-- `find_substring`. The pointer that it returns is the distance from `haystack`. -/
def findSubstring (haystack needle : CString) (fuel : ℕ) : Outcome (Option ℤ) := do
  let d ← Cells.load needle 0
  if d = 0 then .ok (some 0)
  else do
    let c ← Cells.load haystack 0
    if c = 0 then .ok none else loop (findPass haystack needle fuel) fuel 0

variable {h n : TextBuffer} {haystack needle pre text npre ntext : CString} {k : ℕ}
  {r r' : Option ℤ}

/-! ### Positions -/

/-- The needle stands in the haystack behind `k` characters. -/
def OccursAt (haystack needle : CString) (k : ℕ) : Prop :=
  ∃ pre post, haystack = pre ++ needle ++ post ∧ pre.length = k

/-- A search finds the first position of the needle, if it has one. -/
structure Finds (haystack needle : CString) (r : Option ℤ) : Prop where
  some_iff : ∀ k : ℕ, r = some (k : ℤ) ↔ IsLeast {k | OccursAt haystack needle k} k
  none_iff : r = none ↔ ∀ k, ¬ OccursAt haystack needle k
  eq_of_nil : needle = [] → r = some 0

theorem occursAt_length_iff (pre text needle : CString) :
    OccursAt (pre ++ text) needle pre.length ↔ needle <+: text := by
  constructor
  · rintro ⟨pre', post, hsplit, hlen⟩
    rw [List.append_assoc] at hsplit
    exact ⟨post, (List.append_inj_right hsplit hlen.symm).symm⟩
  · rintro ⟨post, rfl⟩
    exact ⟨pre, post, (List.append_assoc ..).symm, rfl⟩

theorem OccursAt.lt_length (h : OccursAt haystack needle k) (hne : needle ≠ []) :
    k < haystack.length := by
  obtain ⟨pre, post, rfl, rfl⟩ := h
  have hpos := List.length_pos_iff.mpr hne
  simp only [List.length_append]
  omega

/-- There is one answer. -/
theorem Finds.unique (h : Finds haystack needle r) (h' : Finds haystack needle r') : r = r' := by
  by_cases hnone : ∀ k, ¬ OccursAt haystack needle k
  · rw [h.none_iff.mpr hnone, h'.none_iff.mpr hnone]
  · obtain ⟨k, hk⟩ : ∃ k, OccursAt haystack needle k := by simpa using hnone
    obtain ⟨m, hm⟩ : ∃ m, IsLeast {k | OccursAt haystack needle k} m := by
      classical
      exact ⟨Nat.find ⟨k, hk⟩, Nat.find_spec ⟨k, hk⟩, fun j hj => Nat.find_min' ⟨k, hk⟩ hj⟩
    rw [(h.some_iff m).mpr hm, (h'.some_iff m).mpr hm]

/-- The needle starts where the search has come to. -/
theorem finds_some (hbefore : ∀ k < pre.length, ¬ OccursAt (pre ++ text) needle k)
    (hstarts : needle <+: text) : Finds (pre ++ text) needle (some (pre.length : ℤ)) := by
  have hleast : IsLeast {k | OccursAt (pre ++ text) needle k} pre.length :=
    ⟨(occursAt_length_iff pre text needle).mpr hstarts,
      fun k hk => not_lt.mp fun hlt => hbefore k hlt hk⟩
  refine ⟨fun k => ?_, ?_, ?_⟩
  · constructor
    · intro heq
      have hcast : (pre.length : ℤ) = k := Option.some.inj heq
      rwa [← Int.natCast_inj.mp hcast]
    · intro hk
      rw [hk.unique hleast]
  · exact iff_of_false nofun fun hnone => hnone _ hleast.1
  · rintro rfl
    -- an empty needle stands in front of everything
    have hzero : pre.length ≤ 0 := hleast.2 ⟨[], pre ++ text, rfl, rfl⟩
    rw [Nat.le_zero.mp hzero]
    rfl

/-- The search has come to the end. -/
theorem finds_none (hne : needle ≠ [])
    (hbefore : ∀ k < haystack.length, ¬ OccursAt haystack needle k) :
    Finds haystack needle none := by
  have hnone : ∀ k, ¬ OccursAt haystack needle k :=
    fun k hk => hbefore k (hk.lt_length hne) hk
  exact ⟨fun k => iff_of_false nofun fun hk => hnone k hk.1, iff_of_true rfl hnone,
    fun hnil => absurd hnil hne⟩

/-! ### The search -/

/-- The scouts compare what is left of the needle with what is left of the haystack. -/
theorem exists_scout (npre ntext pre text : CString) (hh : h.chars = pre ++ text)
    (hn : n.chars = npre ++ ntext) :
    ∃ s d, Returns (fun fuel => loop (scoutPass h.cells n.cells) fuel ⟨pre.length, npre.length⟩) s ∧
      Cells.load n.cells s.nScout = .ok d ∧ (d = 0 ↔ ntext <+: text) := by
  induction ntext generalizing npre pre text with
  | nil =>
    have hend : Cells.load n.cells npre.length = .ok 0 :=
      TextBuffer.load_cells_end (by simpa using hn)
    refine ⟨⟨pre.length, npre.length⟩, 0, .loop_leave ?_, hend, iff_of_true rfl List.nil_prefix⟩
    -- the scouts stop at the end of the needle, or of both strings
    cases text with
    | nil =>
      have hload : Cells.load h.cells pre.length = .ok 0 :=
        TextBuffer.load_cells_end (by simpa using hh)
      simp [scoutPass, hload]
    | cons c text =>
      simp [scoutPass, TextBuffer.load_cells hh, hend]
  | cons d ntext ih =>
    have hd : d ≠ 0 := TextBuffer.ne_zero hn
    have hneedle : Cells.load n.cells npre.length = .ok d := TextBuffer.load_cells hn
    cases text with
    | nil =>
      have hload : Cells.load h.cells pre.length = .ok 0 :=
        TextBuffer.load_cells_end (by simpa using hh)
      refine ⟨⟨pre.length, npre.length⟩, d, .loop_leave ?_, hneedle, iff_of_false hd (by simp)⟩
      simp [scoutPass, hload]
    | cons c text =>
      have hc : c ≠ 0 := TextBuffer.ne_zero hh
      have hload : Cells.load h.cells pre.length = .ok c := TextBuffer.load_cells hh
      by_cases heq : c = d
      · subst heq
        obtain ⟨s, e, hreturns, hload', hiff⟩ :=
          ih (npre ++ [c]) (pre ++ [c]) text (by simp [hh]) (by simp [hn])
        refine ⟨s, e, .loop_again ?_ hreturns, hload', ?_⟩
        · simp [scoutPass, hload, hc, hneedle]
        · rw [hiff, List.cons_prefix_cons, and_iff_right rfl]
      · refine ⟨⟨pre.length, npre.length⟩, d, .loop_leave ?_, hneedle, ?_⟩
        · simp [scoutPass, hload, hc, hneedle, heq]
        · rw [List.cons_prefix_cons]
          exact iff_of_false hd fun hstarts => heq hstarts.1.symm

/-- One pass of the search, where there are characters left. -/
theorem returns_findPass {c : Int8} (hh : h.chars = pre ++ c :: text) (n : TextBuffer) :
    Returns (fun fuel => findPass h.cells n.cells fuel pre.length)
      (if n.chars <+: c :: text then .leave (some (pre.length : ℤ))
        else .again ((pre ++ [c]).length : ℕ)) := by
  obtain ⟨s, d, hscout, hload, hiff⟩ := exists_scout [] n.chars pre (c :: text) hh rfl
  have hdecide : (if d = 0 then Except.ok (Pass.leave (some (pre.length : ℤ)))
      else .ok (.again ((pre.length : ℤ) + 1)) : Outcome (Pass ℤ (Option ℤ))) =
      .ok (if n.chars <+: c :: text then .leave (some (pre.length : ℤ))
        else .again ((pre ++ [c]).length : ℕ)) := by
    simp only [hiff, List.length_append, List.length_singleton, Nat.cast_add, Nat.cast_one]
    split_ifs <;> rfl
  have hpass := hscout.bind (g := fun s _ => Cells.load n.cells s.nScout >>= fun d =>
    if d = 0 then Except.ok (Pass.leave (some (pre.length : ℤ)))
      else .ok (.again ((pre.length : ℤ) + 1)))
    (.of_eq fun _ => by rw [hload, Outcome.ok_bind, hdecide])
  refine hpass.congr fun fuel => ?_
  rw [findPass, TextBuffer.load_cells hh, Outcome.ok_bind, if_pos (TextBuffer.ne_zero hh)]
  rfl

theorem exists_findSubstring (h n : TextBuffer) :
    ∃ r, Returns (findSubstring h.cells n.cells) r ∧ Finds h.chars n.chars r := by
  cases hn : n.chars with
  | nil =>
    have hload : Cells.load n.cells 0 = .ok 0 := TextBuffer.load_cells_nil hn
    have hfinds : Finds ([] ++ h.chars) [] (some 0) := finds_some (by simp) List.nil_prefix
    refine ⟨some 0, .of_eq fun fuel => ?_, hfinds⟩
    rw [findSubstring, hload, Outcome.ok_bind, if_pos rfl]
  | cons d needle =>
    have hneedle : Cells.load n.cells 0 = .ok d := TextBuffer.load_cells_first hn
    have hd : d ≠ 0 := TextBuffer.first_ne_zero hn
    -- each pass leaves one position fewer
    have hpass : ∀ m q, (∃ pre text : CString, h.chars = pre ++ text ∧ q = (pre.length : ℤ) ∧
          m = text.length ∧ ∀ k < pre.length, ¬ OccursAt h.chars (d :: needle) k) →
        (∃ m' q', m' < m ∧ Returns (fun fuel => findPass h.cells n.cells fuel q) (.again q') ∧
          ∃ pre text : CString, h.chars = pre ++ text ∧ q' = (pre.length : ℤ) ∧
            m' = text.length ∧ ∀ k < pre.length, ¬ OccursAt h.chars (d :: needle) k) ∨
        ∃ r, Returns (fun fuel => findPass h.cells n.cells fuel q) (.leave r) ∧
          Finds h.chars (d :: needle) r := by
      rintro m q ⟨pre, text, hh, rfl, rfl, hbefore⟩
      cases text with
      | nil =>
        rw [List.append_nil] at hh
        refine Or.inr ⟨none, .of_eq fun fuel => ?_, finds_none (by simp) (by rwa [← hh] at hbefore)⟩
        simp [findPass, ← hh]
      | cons c text =>
        have hreturns := returns_findPass hh n
        rw [hn] at hreturns
        by_cases hstarts : d :: needle <+: c :: text
        · rw [if_pos hstarts] at hreturns
          refine Or.inr ⟨_, hreturns, ?_⟩
          rw [hh] at hbefore ⊢
          exact finds_some hbefore hstarts
        · rw [if_neg hstarts] at hreturns
          refine Or.inl ⟨text.length, _, Nat.lt_succ_self _, hreturns, pre ++ [c], text,
            by simp [hh], rfl, rfl, fun k hk => ?_⟩
          -- the needle starts neither before this position nor at it
          rw [List.length_append, List.length_singleton, Nat.lt_succ_iff_lt_or_eq] at hk
          rcases hk with hlt | rfl
          · exact hbefore k hlt
          · rw [hh, occursAt_length_iff]
            exact hstarts
    obtain ⟨r, hleaves, hfinds⟩ := Returns.exists_leaves (s := 0) hpass
      ⟨[], h.chars, rfl, rfl, rfl, fun k hk => absurd hk (Nat.not_lt_zero k)⟩
    have hloop := Returns.nested hleaves
    cases hh : h.chars with
    | nil =>
      have hload : Cells.load h.cells 0 = .ok 0 := TextBuffer.load_cells_nil hh
      refine ⟨none, .of_eq fun fuel => ?_, finds_none (by simp) (by simp)⟩
      rw [findSubstring, hneedle, Outcome.ok_bind, if_neg hd, hload, Outcome.ok_bind, if_pos rfl]
    | cons c text =>
      have hload : Cells.load h.cells 0 = .ok c := TextBuffer.load_cells_first hh
      have hc : c ≠ 0 := TextBuffer.first_ne_zero hh
      refine ⟨r, hloop.congr fun fuel => ?_, hh ▸ hfinds⟩
      rw [findSubstring, hneedle, Outcome.ok_bind, if_neg hd, hload, Outcome.ok_bind, if_neg hc]

/-- **The first position is found**, the haystack itself for an empty needle, and no position
if there is none. The search is the same when the memory ends with the strings. -/
theorem findSubstring_first (h n : TextBuffer) :
    ∃ r, Returns (findSubstring h.cells n.cells) r ∧
      Returns (findSubstring (h.chars ++ [0]) (n.chars ++ [0])) r ∧ Finds h.chars n.chars r := by
  obtain ⟨r, hreturns, hfinds⟩ := exists_findSubstring h n
  obtain ⟨r', hreturns', hfinds'⟩ :=
    exists_findSubstring ⟨h.chars, [], h.nul_notMem⟩ ⟨n.chars, [], n.nul_notMem⟩
  rw [← hfinds.unique hfinds'] at hreturns'
  exact ⟨r, hreturns, hreturns', hfinds⟩

end BareMetal.SubstringLoc
