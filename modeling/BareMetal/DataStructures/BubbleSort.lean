import BareMetal.CS.Cells
import BareMetal.CS.LinkedList
import BareMetal.CS.Loop
import BareMetal.CS.Text
import BareMetal.Math.StableSort

/-!
# The bubble sort of `data-structures/bubble_sort.c`

`bubble_sort_cards` copies the cards of a list to an array and sweeps over it, swapping
neighbours in the wrong order, until a sweep swaps none. Every sweep but the last one
lowers the number of inversions. The cards are counted in an `int` while they are copied.

## Main results

* `returns_copy`, `copy_ne_ok` — the cards are copied if an `int` can count them
* `exists_sweep` — a sweep lowers the number of inversions or finds none
* `sorts_iff` — the sort ends and is stable, for every list whose length is an `int`
-/

namespace BareMetal.BubbleSort

open CS LinkedList Math

/-- `struct LegendsCard` without the pointer to the next card. -/
structure Card where
  name : CString
  magickaCost : ℤ
  deriving DecidableEq, Repr

/-- The state of the loop that copies the list. -/
structure Copying where
  current : Option ℕ
  counter : ℤ
  cards : List (Node Card)
  deriving DecidableEq, Repr

/-- The array, and whether a sweep has swapped cards. -/
structure Sweep where
  cards : List (Node Card)
  swapped : ℤ
  deriving DecidableEq, Repr

/-- One pass of the loop that copies the list. -/
def copyPass (heap : Heap Card) (s : Copying) : Outcome (Pass Copying (List (Node Card))) :=
  match s.current with
  | none => .ok (.leave s.cards)
  | some a => do
    let card ← heap.load (some a)
    let cards ← Cells.store s.cards s.counter card
    let counter ← addInt s.counter 1
    .ok (.again ⟨card.next, counter, cards⟩)

/-- One step of a sweep. -/
def sweepStep (s : Sweep) (i : ℕ) : Outcome Sweep := do
  let card ← Cells.load s.cards i
  let next ← Cells.load s.cards (i + 1 : ℕ)
  if card.value.magickaCost > next.value.magickaCost then do
    let temp ← Cells.load s.cards i
    let cards ← Cells.store s.cards i (← Cells.load s.cards (i + 1 : ℕ))
    let cards ← Cells.store cards (i + 1 : ℕ) temp
    .ok ⟨cards, 1⟩
  else .ok s

/-- One pass of the `do` loop. -/
def sweepPass (numCards : UInt32) (cards : List (Node Card)) :
    Outcome (Pass (List (Node Card)) (List (Node Card))) := do
  let s ← (List.range (numCards - 1).toNat).foldlM sweepStep ⟨cards, 0⟩
  if s.swapped = 1 then .ok (.again s.cards) else .ok (.leave s.cards)

/-- `bubble_sort_cards`, with the array that it prints. What the array holds at first is
`junk`. -/
def bubbleSortCards (heap : Heap Card) (list : Option ℕ) (numCards : UInt32)
    (junk : ℕ → Node Card) (fuel : ℕ) : Outcome (List (Node Card)) := do
  let cards ← Cells.declare junk numCards.toNat
  let cards ← loop (copyPass heap) fuel ⟨list, 0, cards⟩
  loop (sweepPass numCards) fuel cards

variable {heap : Heap Card} {nodes rest : List (ℕ × Card)} {cards pre post : List (Node Card)}
  {a b : Node Card} {s : Sweep} {i : ℕ}

/-! ### The copy -/

/-- The cards of a list as they are in memory. -/
def structs : List (ℕ × Card) → List (Node Card)
  | [] => []
  | (_, card) :: rest => ⟨card, first rest⟩ :: structs rest

@[simp] theorem length_structs (nodes : List (ℕ × Card)) :
    (structs nodes).length = nodes.length := by
  induction nodes with
  | nil => rfl
  | cons node rest ih => rw [structs, List.length_cons, List.length_cons, ih]

/-- The rest of the list is copied behind the cards that are done. -/
theorem returns_copy (hchain : Chain heap nodes) (done junk : List (Node Card))
    (hjunk : junk.length = nodes.length) (hmax : (done.length + nodes.length : ℤ) ≤ intMax) :
    Returns (fun fuel => loop (copyPass heap) fuel ⟨first nodes, done.length, done ++ junk⟩)
      (done ++ structs nodes) := by
  induction nodes generalizing done junk with
  | nil =>
    apply Returns.loop_leave
    rw [List.eq_nil_of_length_eq_zero hjunk]
    rfl
  | cons node rest ih =>
    obtain ⟨a, card⟩ := node
    obtain ⟨hcell, hrest⟩ := hchain
    -- the cell behind the cards that are done takes the next one
    obtain ⟨c, junk, rfl⟩ := List.exists_cons_of_length_eq_add_one hjunk
    let node : Node Card := ⟨card, first rest⟩
    have hcounter := Cells.addInt_length done node (by rw [List.length_cons] at hmax; omega)
    have hreturns := ih hrest (done ++ [node]) junk (by simpa using hjunk)
      (by simp only [List.length_append, List.length_cons, List.length_nil] at hmax ⊢; omega)
    rw [← List.append_cons, ← List.append_cons] at hreturns
    refine .loop_again ?_ hreturns
    have hfirst : first ((a, card) :: rest) = some a := rfl
    simp only [copyPass, hfirst, Heap.load_some hcell, Cells.store_append_cons, hcounter,
      Outcome.ok_bind, node]

/-- With more cards the counter overflows. -/
theorem copy_ne_ok (hchain : Chain heap nodes) (hmax : intMax < (nodes.length : ℤ))
    (junk cards : List (Node Card)) (fuel : ℕ) :
    loop (copyPass heap) fuel ⟨first nodes, 0, junk⟩ ≠ .ok cards := by
  intro hrun
  refine loop_invariant (I := fun s => ∃ pre post : List (ℕ × Card), nodes = pre ++ post ∧
    s.current = first post ∧ s.counter = (pre.length : ℤ) ∧ (pre.length : ℤ) ≤ intMax)
    (Q := fun _ => False) ?_ ?_ ⟨[], nodes, rfl, rfl, rfl, by simp [intMax]⟩ hrun
  · rintro ⟨current, counter, cards⟩ s' ⟨pre, post, rfl, hcurrent, hcounter, hpre⟩ hpass
    dsimp only at hcurrent hcounter
    subst hcurrent hcounter
    cases post with
    | nil => cases hpass
    | cons node rest =>
      obtain ⟨a, card⟩ := node
      obtain ⟨node, hload, hpass⟩ := Outcome.bind_eq_ok.mp hpass
      obtain ⟨cards', -, hpass⟩ := Outcome.bind_eq_ok.mp hpass
      obtain ⟨counter, hadd, hpass⟩ := Outcome.bind_eq_ok.mp hpass
      cases hpass
      rw [Heap.load_some hchain.get] at hload
      cases hload
      obtain ⟨rfl, hmax'⟩ := of_addInt_eq_ok hadd
      refine ⟨pre ++ [(a, card)], rest, by simp, rfl, by simp, ?_⟩
      rw [List.length_append, List.length_singleton]
      exact hmax'
  · -- at the end of the list all cards have been counted
    rintro ⟨current, counter, cards⟩ r ⟨pre, post, rfl, hcurrent, hcounter, hpre⟩ hpass
    dsimp only at hcurrent hcounter
    subst hcurrent hcounter
    cases post with
    | nil =>
      rw [List.append_nil] at hmax
      omega
    | cons node rest =>
      obtain ⟨node', -, hpass⟩ := Outcome.bind_eq_ok.mp hpass
      obtain ⟨cards', -, hpass⟩ := Outcome.bind_eq_ok.mp hpass
      obtain ⟨counter, -, hpass⟩ := Outcome.bind_eq_ok.mp hpass
      cases hpass

/-! ### Sweeps -/

/-- What the cards are sorted by. -/
def cost (card : Node Card) : ℤ := card.value.magickaCost

/-- One step compares two neighbours. -/
theorem sweepStep_eq (pre post : List (Node Card)) (a b : Node Card) (swapped : ℤ) :
    sweepStep ⟨pre ++ a :: b :: post, swapped⟩ pre.length =
      .ok (if cost b < cost a then ⟨pre ++ b :: a :: post, 1⟩
        else ⟨pre ++ a :: b :: post, swapped⟩) := by
  have hnext : pre.length + 1 = (pre ++ [a]).length := by simp
  have hload : Cells.load (pre ++ a :: b :: post) (pre ++ [a]).length = .ok b :=
    Cells.load_append_cons_append pre [] post a b
  have hstore : Cells.store (pre ++ b :: b :: post) (pre ++ [a]).length a =
      .ok (pre ++ b :: a :: post) := by
    have hlen : (pre ++ [a]).length = (pre ++ [b]).length := by simp
    rw [hlen]
    exact Cells.store_append_cons_append pre [] post b b a
  simp only [sweepStep, hnext, Cells.load_append_cons, hload, Cells.store_append_cons, hstore,
    Outcome.ok_bind]
  by_cases h : cost b < cost a
  · rw [if_pos h]
    exact if_pos h
  · rw [if_neg h]
    exact if_neg h

/-- After the first steps of a sweep: cards were swapped, or those that were compared are in
order. -/
structure Swept (cards : List (Node Card)) (i : ℕ) (s : Sweep) : Prop where
  keeps : KeepsOrder cost cards s.cards
  progress : s.swapped = 1 ∧ inversions cost s.cards < inversions cost cards ∨
    s.swapped = 0 ∧ s.cards = cards ∧
      ∀ pre a b post, cards = pre ++ a :: b :: post → pre.length < i → cost a ≤ cost b

theorem exists_neighbours (hi : i + 1 < cards.length) :
    ∃ pre a b post, cards = pre ++ a :: b :: post ∧ pre.length = i := by
  refine ⟨cards.take i, cards[i], cards[i + 1], cards.drop (i + 2), ?_, ?_⟩
  · rw [← List.drop_eq_getElem_cons hi, ← List.drop_eq_getElem_cons (Nat.lt_of_succ_lt hi),
      List.take_append_drop]
  · exact List.length_take_of_le (by omega)

theorem Swept.step (h : Swept cards i s) (hi : i + 1 < cards.length) :
    ∃ s', sweepStep s i = .ok s' ∧ Swept cards (i + 1) s' := by
  obtain ⟨array, swapped⟩ := s
  have hlen : array.length = cards.length := h.keeps.perm.length_eq
  obtain ⟨pre, a, b, post, rfl, rfl⟩ := exists_neighbours (hlen ▸ hi)
  refine ⟨_, sweepStep_eq pre post a b swapped, ?_⟩
  by_cases hlt : cost b < cost a
  · -- the two cards are swapped
    rw [if_pos hlt]
    refine ⟨h.keeps.trans (.swap pre post hlt.ne'), Or.inl ⟨rfl, ?_⟩⟩
    have hfewer := inversions_swap pre post hlt
    rcases h.progress with ⟨-, hless⟩ | ⟨-, heq, -⟩
    · exact hfewer.trans hless
    · exact heq ▸ hfewer
  · rw [if_neg hlt]
    refine ⟨h.keeps, h.progress.imp_right ?_⟩
    rintro ⟨hzero, rfl, hordered⟩
    refine ⟨hzero, rfl, fun pre' a' b' post' hsplit hpre' => ?_⟩
    -- the pair was compared in an earlier step or in this one
    rcases Nat.lt_succ_iff_lt_or_eq.mp hpre' with hbefore | heq
    · exact hordered pre' a' b' post' hsplit hbefore
    · obtain ⟨-, htail⟩ := List.append_inj hsplit heq.symm
      cases htail
      exact not_lt.mp hlt

theorem exists_sweep (cards : List (Node Card)) (numCards : UInt32)
    (hlen : numCards.toNat = cards.length) (hne : cards ≠ []) :
    ∃ s, (List.range (numCards - 1).toNat).foldlM sweepStep ⟨cards, 0⟩ = .ok s ∧
      Swept cards (cards.length - 1) s := by
  have hpos := List.length_pos_iff.mpr hne
  have hcount : (numCards - 1).toNat = cards.length - 1 := by
    rw [UInt32.toNat_sub_of_le, hlen]
    · rfl
    · rw [UInt32.le_iff_toNat_le, hlen]
      exact hpos
  have hstart : Swept cards 0 ⟨cards, 0⟩ :=
    ⟨.refl cost cards, Or.inr ⟨rfl, rfl, fun _ _ _ _ _ h => absurd h (Nat.not_lt_zero _)⟩⟩
  have hpass : ∀ i < cards.length - 1, ∀ s, Swept cards i s →
      ∃ s', Returns (fun _ => sweepStep s i) s' ∧ Swept cards (i + 1) s' := by
    intro i hi s h
    obtain ⟨s', hstep, h'⟩ := h.step (by omega : i + 1 < cards.length)
    exact ⟨s', .of_eq fun _ => hstep, h'⟩
  obtain ⟨s, hreturns, hswept⟩ := Returns.foldlM_range hpass hstart
  obtain ⟨fuel, hrun⟩ := hreturns.exists_ok
  exact ⟨s, hcount ▸ hrun, hswept⟩

/-- The sweeps end, because the inversions do. -/
theorem exists_sweeps (cards : List (Node Card)) (numCards : UInt32)
    (hlen : numCards.toNat = cards.length) (hne : cards ≠ []) :
    ∃ sorted, Returns (fun fuel => loop (sweepPass numCards) fuel cards) sorted ∧
      IsStableSort cost cards sorted := by
  have hpass : ∀ m c, (m = inversions cost c ∧ KeepsOrder cost cards c) →
      (∃ k c', k < m ∧ sweepPass numCards c = .ok (.again c') ∧ k = inversions cost c' ∧
        KeepsOrder cost cards c') ∨
      ∃ sorted, sweepPass numCards c = .ok (.leave sorted) ∧ IsStableSort cost cards sorted := by
    rintro m c ⟨rfl, hkeeps⟩
    have hlenc : c.length = cards.length := hkeeps.perm.length_eq
    obtain ⟨s, hsweep, hswept⟩ := exists_sweep c numCards (hlen.trans hlenc.symm) fun hnil =>
      hne (List.eq_nil_of_length_eq_zero (hlenc ▸ hnil ▸ rfl))
    have hkeeps' := hkeeps.trans hswept.keeps
    rcases hswept.progress with ⟨hone, hless⟩ | ⟨hzero, heq, hordered⟩
    · -- something was swapped, and there are fewer inversions than before
      refine Or.inl ⟨_, s.cards, hless, ?_, rfl, hkeeps'⟩
      rw [sweepPass, hsweep, Outcome.ok_bind, if_pos hone]
    · refine Or.inr ⟨s.cards, ?_, hkeeps', ?_⟩
      · rw [sweepPass, hsweep, Outcome.ok_bind, if_neg (by rw [hzero]; decide)]
      · rw [heq]
        refine pairwise_of_adjacent fun pre a b post hsplit => hordered pre a b post hsplit ?_
        rw [hsplit, List.length_append, List.length_cons, List.length_cons]
        omega
  exact Returns.exists_loop hpass ⟨rfl, .refl cost cards⟩

/-! ### The sort -/

/-- A list of cards, and how many there are. -/
structure Deck where
  heap : Heap Card
  nodes : List (ℕ × Card)
  numCards : UInt32
  chain : Chain heap nodes
  ne_nil : nodes ≠ []
  numCards_eq : numCards.toNat = nodes.length

/-- The sort ends with the cards in order. -/
def Sorts (deck : Deck) (junk : ℕ → Node Card) : Prop :=
  ∃ cards, Returns (bubbleSortCards deck.heap (first deck.nodes) deck.numCards junk) cards ∧
    IsStableSort cost (structs deck.nodes) cards

theorem not_sorts (deck : Deck) (junk : ℕ → Node Card)
    (hmax : intMax < (deck.nodes.length : ℤ)) : ¬ Sorts deck junk := by
  rintro ⟨cards, hreturns, -⟩
  obtain ⟨fuel, hrun⟩ := hreturns.exists_ok
  obtain ⟨declared, -, hrun⟩ := Outcome.bind_eq_ok.mp hrun
  obtain ⟨array, hcopy, -⟩ := Outcome.bind_eq_ok.mp hrun
  exact copy_ne_ok deck.chain hmax _ array fuel hcopy

/-- **The sort ends and is stable**, unless there are more cards than an `int` can count. -/
theorem sorts_iff (deck : Deck) (junk : ℕ → Node Card) :
    Sorts deck junk ↔ (deck.nodes.length : ℤ) ≤ intMax := by
  constructor
  · intro h
    by_contra hmax
    exact not_sorts deck junk (not_le.mp hmax) h
  · intro hmax
    have hcopy := returns_copy deck.chain [] (Cells.fresh junk deck.numCards.toNat)
      (by rw [Cells.length_fresh, deck.numCards_eq]) (by simpa using hmax)
    obtain ⟨cards, hsweeps, hsorted⟩ := exists_sweeps (structs deck.nodes) deck.numCards
      (by rw [length_structs, deck.numCards_eq]) (fun hnil => deck.ne_nil
        (List.eq_nil_of_length_eq_zero (by rw [← length_structs, hnil, List.length_nil])))
    have hpos : 0 < deck.numCards.toNat := by
      rw [deck.numCards_eq]
      exact List.length_pos_iff.mpr deck.ne_nil
    have hrun := hcopy.bind (g := fun cards fuel => loop (sweepPass deck.numCards) fuel cards)
      hsweeps
    refine ⟨cards, hrun.congr fun fuel => ?_, hsorted⟩
    rw [bubbleSortCards, Cells.declare_of_pos junk hpos, Outcome.ok_bind]
    rfl

/-! ### A long list -/

/-- The same card `n` times, in the cells from 0 on. -/
def uniformHeap (n : ℕ) (card : Card) : Heap Card := fun a =>
  if a < n then some ⟨card, if a + 1 < n then some (a + 1) else none⟩ else none

/-- The cells from `a` on. -/
theorem chain_uniformHeap (card : Card) (k a : ℕ) :
    Chain (uniformHeap (a + k) card) ((List.range' a k).map fun b => (b, card)) := by
  induction k generalizing a with
  | zero => trivial
  | succ k ih =>
    have hrest := ih (a + 1)
    rw [Nat.add_right_comm, Nat.add_assoc] at hrest
    refine ⟨?_, hrest⟩
    cases k <;> simp [uniformHeap, first, List.range'_succ]

/-- `n` cards in a row. -/
def uniformDeck (n : ℕ) (card : Card) (hpos : 0 < n) (hlt : n < 2 ^ 32) : Deck where
  heap := uniformHeap n card
  nodes := (List.range' 0 n).map fun a => (a, card)
  numCards := UInt32.ofNat n
  chain := by simpa using chain_uniformHeap card n 0
  ne_nil := List.ne_nil_of_length_pos (by simpa using hpos)
  numCards_eq := by rw [UInt32.toNat_ofNat_of_lt' hlt, List.length_map, List.length_range']

theorem not_sorts_uniformDeck :
    ¬ Sorts (uniformDeck (2 ^ 31) ⟨CString.ofString "Vivec", 5⟩ (by decide) (by decide))
      fun _ => ⟨⟨[], 0⟩, none⟩ := by
  apply not_sorts
  rw [uniformDeck, List.length_map, List.length_range']
  decide

end BareMetal.BubbleSort
