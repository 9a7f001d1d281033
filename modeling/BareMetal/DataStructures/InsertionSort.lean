import BareMetal.CS.DoublyLinked
import BareMetal.CS.Loop
import BareMetal.CS.Text
import BareMetal.Math.StableSort
import Mathlib.Logic.Embedding.Basic

/-!
# The deck of `data-structures/insertion_sort.c`

`add_card` inserts a card in a doubly linked list, before the first one that costs more.
Where the card goes decides how many pointers change: at the head of the deck, between two
cards, or at its tail.

## Main results

* `exists_walk` — where the walk along the deck stops
* `exists_wire` — the three ways to wire the new card
* `addCards_sorted` — after any calls the deck is a doubly linked list with all cards in order
-/

namespace BareMetal.InsertionSort

open CS DoublyLinked Math
open LinkedList (addresses)

/-- `struct Deck` without the pointers. -/
structure Card where
  name : CString
  cost : UInt16
  deriving DecidableEq, Repr

/-- The memory, the pointer to the head of the deck, and how many cards `calloc` has
returned. -/
structure State where
  heap : Heap Card
  deck : Option ℕ
  allocated : ℕ

/-- The pointers of the walk along the deck. -/
structure Walk where
  current : Option ℕ
  prevNode : Option ℕ
  deriving DecidableEq, Repr

def maxLength : ℤ := 24

/-- The card of a new deck. -/
def defaultCard : Card := ⟨CString.ofString "Almalexia", 10⟩

/-- `init_deck`. -/
def initDeck (calloc : ℕ ↪ ℕ) : State where
  heap := Heap.alloc (fun _ => none) (calloc 0) defaultCard
  deck := some (calloc 0)
  allocated := 1

/-- The copy of a name: `malloc`, `strncpy` and the terminator. -/
def copyName (name : CString) (strLength : ℤ) : Outcome CString :=
  if 0 < strLength then .ok (name.take (strLength - 1).toNat)
  else .error (.outOfBounds (strLength - 1))

/-- One pass of the walk. -/
def walkPass (heap : Heap Card) (cost : UInt16) (s : Walk) : Outcome (Pass Walk Walk) :=
  match s.current with
  | none => .ok (.leave s)
  | some a => do
    let node ← heap.load (some a)
    if node.value.cost > cost then .ok (.leave s) else .ok (.again ⟨node.next, some a⟩)

/-- The wiring of a new card, with the new head of the deck. -/
def wire (heap : Heap Card) (deck : Option ℕ) (newCard : ℕ) (s : Walk) :
    Outcome (Heap Card × Option ℕ) :=
  if s.prevNode = none then do
    let heap ← heap.setNext (some newCard) deck
    let heap ← if deck ≠ none then heap.setPrev deck (some newCard) else .ok heap
    .ok (heap, some newCard)
  else if s.current ≠ none then do
    let heap ← heap.setNext (some newCard) s.current
    let heap ← heap.setPrev (some newCard) s.prevNode
    let heap ← heap.setNext s.prevNode (some newCard)
    let heap ← heap.setPrev s.current (some newCard)
    .ok (heap, deck)
  else do
    let heap ← heap.setPrev (some newCard) s.prevNode
    let heap ← heap.setNext s.prevNode (some newCard)
    .ok (heap, deck)

/-- `add_card`. -/
def addCard (calloc : ℕ ↪ ℕ) (s : State) (name : CString) (cost : UInt16) (fuel : ℕ) :
    Outcome State :=
  if name.size > maxLength then
    .error (.exit 1 "Card's name must be at most 24 chars length\n")
  else do
    let newCard := calloc s.allocated
    let name ← copyName name name.size
    let heap := s.heap.alloc newCard ⟨name, cost⟩
    let walk ← loop (walkPass heap cost) fuel ⟨s.deck, none⟩
    let (heap, deck) ← wire heap s.deck newCard walk
    .ok ⟨heap, deck, s.allocated + 1⟩

variable {heap heap' : Heap Card} {nodes pre post xs ys : List (ℕ × Card)} {p : Option ℕ}
  {a c l : ℕ} {v u w : Card} {cost : UInt16}

/-! ### The walk -/

/-- The walk stops before the first card that costs more. -/
theorem exists_walk (h : Linked heap p nodes none) (cost : UInt16) :
    ∃ pre post, nodes = pre ++ post ∧ (∀ x ∈ pre, x.2.cost ≤ cost) ∧
      (∀ x ∈ post.head?, cost < x.2.cost) ∧
      Returns (fun fuel => loop (walkPass heap cost) fuel ⟨firstOr nodes none, p⟩)
        ⟨firstOr post none, lastOr p pre⟩ := by
  induction nodes generalizing p with
  | nil => exact ⟨[], [], rfl, nofun, nofun, .loop_leave rfl⟩
  | cons x rest ih =>
    obtain ⟨a, v⟩ := x
    obtain ⟨hcell, hrest⟩ := h
    have hfirst : firstOr ((a, v) :: rest) none = some a := rfl
    by_cases hmore : v.cost > cost
    · refine ⟨[], (a, v) :: rest, rfl, nofun, ?_, .loop_leave ?_⟩
      · rintro x ⟨⟩
        exact hmore
      · simp only [walkPass, hfirst, Heap.load_some hcell, Outcome.ok_bind, if_pos hmore, lastOr]
    · obtain ⟨pre, post, rfl, hpre, hpost, hreturns⟩ := ih hrest
      refine ⟨(a, v) :: pre, post, rfl, ?_, hpost, .loop_again ?_ hreturns⟩
      · exact List.forall_mem_cons.mpr ⟨UInt16.not_lt.mp hmore, hpre⟩
      · simp only [walkPass, hfirst, Heap.load_some hcell, Outcome.ok_bind, if_neg hmore]

/-! ### The wiring -/

/-- The new card becomes the head of an empty deck. -/
theorem exists_wire_first (heap : Heap Card) (a : ℕ) (v : Card) :
    ∃ heap', wire (heap.alloc a v) none a ⟨none, none⟩ = .ok (heap', some a) ∧
      Linked heap' none [(a, v)] none ∧ ∀ b, b ≠ a → heap' b = heap b := by
  obtain ⟨heap₁, h₁, hself, hframe⟩ := Heap.exists_setNext (heap.alloc_self a v) none
  refine ⟨heap₁, ?_, ⟨hself, trivial⟩, fun b hb => ?_⟩
  · rw [wire, if_pos rfl, h₁]
    rfl
  · rw [hframe b hb, heap.alloc_of_ne v hb]

/-- The new card goes before the head. -/
theorem exists_wire_head (h : Linked heap none ((c, u) :: ys) none)
    (hnodup : (addresses ((c, u) :: ys)).Nodup) (ha : heap a = none) (v : Card) :
    ∃ heap', wire (heap.alloc a v) (some c) a ⟨some c, none⟩ = .ok (heap', some a) ∧
      Linked heap' none ((a, v) :: (c, u) :: ys) none ∧
      ∀ b, b ∉ addresses ((c, u) :: ys) → b ≠ a → heap' b = heap b := by
  have hac : a ≠ c := fun heq => h.fresh ha (heq ▸ List.mem_cons_self)
  obtain ⟨hcys, -⟩ := List.nodup_cons.mp hnodup
  obtain ⟨heap₁, h₁, hself₁, hframe₁⟩ := Heap.exists_setNext (heap.alloc_self a v) (some c)
  have hc : heap₁ c = some ⟨u, firstOr ys none, none⟩ := by
    rw [hframe₁ c hac.symm, heap.alloc_of_ne v hac.symm, h.1]
  obtain ⟨heap₂, h₂, hself₂, hframe₂⟩ := Heap.exists_setPrev hc (some a)
  have hother : ∀ b, b ≠ c → b ≠ a → heap₂ b = heap b := fun b hbc hba => by
    rw [hframe₂ b hbc, hframe₁ b hba, heap.alloc_of_ne v hba]
  refine ⟨heap₂, ?_, ⟨?_, h.setPrev hself₂ fun b hb => hother b ?_ ?_⟩, fun b hb hba => ?_⟩
  · rw [wire, if_pos rfl, h₁, Outcome.ok_bind, if_pos (by simp), h₂]
    rfl
  · rw [hframe₂ a hac, hself₁]
    rfl
  · rintro rfl
    exact hcys hb
  · rintro rfl
    exact h.fresh ha (List.mem_cons_of_mem _ hb)
  · refine hother b ?_ hba
    rintro rfl
    exact hb List.mem_cons_self

/-- The new card goes between two others. -/
theorem exists_wire_middle (h : Linked heap none (xs ++ (l, w) :: (c, u) :: ys) none)
    (hnodup : (addresses (xs ++ (l, w) :: (c, u) :: ys)).Nodup) (ha : heap a = none) (v : Card)
    (deck : Option ℕ) :
    ∃ heap', wire (heap.alloc a v) deck a ⟨some c, some l⟩ = .ok (heap', deck) ∧
      Linked heap' none (xs ++ (l, w) :: (a, v) :: (c, u) :: ys) none ∧
      ∀ b, b ∉ addresses (xs ++ (l, w) :: (c, u) :: ys) → b ≠ a → heap' b = heap b := by
  have hfresh := h.fresh ha
  have hl : heap l = some ⟨w, some c, lastOr none xs⟩ := h.get
  have hpart := h
  rw [List.append_cons] at hpart
  obtain ⟨hpre, hpost⟩ := linked_append.mp hpart
  -- no address occurs twice
  simp only [LinkedList.addresses_append, LinkedList.addresses_cons] at hnodup hfresh ⊢
  obtain ⟨hlother, hnodup⟩ := List.nodup_cons.mp (List.nodup_middle.mp hnodup)
  obtain ⟨hcother, -⟩ := List.nodup_cons.mp (List.nodup_middle.mp hnodup)
  simp only [List.mem_append, List.mem_cons, not_or] at hfresh hlother hcother ⊢
  obtain ⟨hax, hal, hac, hay⟩ := hfresh
  obtain ⟨hlx, hlc, hly⟩ := hlother
  obtain ⟨hcx, hcy⟩ := hcother
  -- the four pointers, one after the other
  obtain ⟨heap₁, h₁, hself₁, hframe₁⟩ := Heap.exists_setNext (heap.alloc_self a v) (some c)
  obtain ⟨heap₂, h₂, hself₂, hframe₂⟩ := Heap.exists_setPrev hself₁ (some l)
  have hl₂ : heap₂ l = some ⟨w, some c, lastOr none xs⟩ := by
    rw [hframe₂ l (Ne.symm hal), hframe₁ l (Ne.symm hal), heap.alloc_of_ne v (Ne.symm hal), hl]
  obtain ⟨heap₃, h₃, hself₃, hframe₃⟩ := Heap.exists_setNext hl₂ (some a)
  have hc₃ : heap₃ c = some ⟨u, firstOr ys none, some l⟩ := by
    rw [hframe₃ c (Ne.symm hlc), hframe₂ c (Ne.symm hac), hframe₁ c (Ne.symm hac),
      heap.alloc_of_ne v (Ne.symm hac), hpost.1, lastOr_concat]
  obtain ⟨heap₄, h₄, hself₄, hframe₄⟩ := Heap.exists_setPrev hc₃ (some a)
  have hother : ∀ b, b ≠ a → b ≠ l → b ≠ c → heap₄ b = heap b := fun b hba hbl hbc => by
    rw [hframe₄ b hbc, hframe₃ b hbl, hframe₂ b hba, hframe₁ b hba, heap.alloc_of_ne v hba]
  refine ⟨heap₄, ?_, ?_, fun b hb hba => hother b hba hb.2.1 hb.2.2.1⟩
  · rw [wire, if_neg (by simp), if_pos (by simp), h₁, Outcome.ok_bind, h₂, Outcome.ok_bind, h₃,
      Outcome.ok_bind, h₄, Outcome.ok_bind]
  · rw [List.append_cons]
    refine Linked.insert (hpre.setNext ?_ fun b hb => hother b ?_ ?_ ?_)
      (hpost.setPrev hself₄ fun b hb => hother b ?_ ?_ ?_) ?_
    · rw [hframe₄ l hlc, hself₃]
    · rintro rfl
      exact hax hb
    · rintro rfl
      exact hlx hb
    · rintro rfl
      exact hcx hb
    · rintro rfl
      exact hay hb
    · rintro rfl
      exact hly hb
    · rintro rfl
      exact hcy hb
    · rw [hframe₄ a hac, hframe₃ a hal, hself₂, lastOr_concat]
      rfl

/-- The new card goes to the tail. -/
theorem exists_wire_tail (h : Linked heap none (xs ++ [(l, w)]) none)
    (hnodup : (addresses (xs ++ [(l, w)])).Nodup) (ha : heap a = none) (v : Card)
    (deck : Option ℕ) :
    ∃ heap', wire (heap.alloc a v) deck a ⟨none, some l⟩ = .ok (heap', deck) ∧
      Linked heap' none (xs ++ [(l, w), (a, v)]) none ∧
      ∀ b, b ∉ addresses (xs ++ [(l, w)]) → b ≠ a → heap' b = heap b := by
  obtain ⟨heap₁, heap₂, h₁, h₂, hlinked, hframe⟩ := h.exists_linkLast hnodup ha v
  refine ⟨heap₂, ?_, hlinked, hframe⟩
  rw [wire, if_neg (by simp), if_neg (by simp), h₁, Outcome.ok_bind, h₂, Outcome.ok_bind]

/-- Wherever the walk has stopped, the new card goes there. -/
theorem exists_wire (h : Linked heap none (pre ++ post) none)
    (hnodup : (addresses (pre ++ post)).Nodup) (ha : heap a = none) (v : Card) :
    ∃ heap', wire (heap.alloc a v) (firstOr (pre ++ post) none) a
        ⟨firstOr post none, lastOr none pre⟩ =
        .ok (heap', firstOr (pre ++ (a, v) :: post) none) ∧
      Linked heap' none (pre ++ (a, v) :: post) none ∧
      ∀ b, b ∉ addresses (pre ++ post) → b ≠ a → heap' b = heap b := by
  rcases List.eq_nil_or_concat pre with rfl | ⟨xs, ⟨l, w⟩, rfl⟩
  · cases post with
    | nil =>
      obtain ⟨heap', hwire, hlinked, hframe⟩ := exists_wire_first heap a v
      exact ⟨heap', hwire, hlinked, fun b _ => hframe b⟩
    | cons x ys => exact exists_wire_head h hnodup ha v
  · rw [List.concat_eq_append] at h hnodup ⊢
    have hhead : firstOr (xs ++ [(l, w)] ++ (a, v) :: post) none =
        firstOr (xs ++ [(l, w)] ++ post) none := by
      rw [firstOr_append, firstOr_append, firstOr_append, firstOr_append]
      rfl
    rw [lastOr_concat, hhead]
    simp only [List.append_assoc, List.singleton_append] at h hnodup ⊢
    cases post with
    | nil => exact exists_wire_tail h hnodup ha v _
    | cons x ys => exact exists_wire_middle h hnodup ha v _

/-! ### The deck -/

/-- A call of `add_card` with a name that is short enough. -/
structure Call where
  name : CString
  cost : UInt16
  short : name.length ≤ 23

/-- The card that a call adds. -/
def Call.card (call : Call) : Card := ⟨call.name, call.cost⟩

/-- Where a sequence of calls starts. -/
inductive Start
  | initDeck
  | empty
  deriving DecidableEq, Repr

def Start.state (calloc : ℕ ↪ ℕ) : Start → State
  | .initDeck => InsertionSort.initDeck calloc
  | .empty => ⟨fun _ => none, none, 0⟩

/-- The cards that are in the deck from the start. -/
def Start.cards : Start → List Card
  | .initDeck => [defaultCard]
  | .empty => []

/-- A sequence of calls. -/
def addCards (calloc : ℕ ↪ ℕ) (s : State) (calls : List Call) (fuel : ℕ) : Outcome State :=
  calls.foldlM (fun s call => addCard calloc s call.name call.cost fuel) s

/-- What the cards are sorted by. -/
def key (card : Card) : ℕ := card.cost.toNat

/-- The deck has the given cells, which hold the cards that were added, and `calloc` has cells
left. -/
structure Represents (calloc : ℕ ↪ ℕ) (s : State) (cards : List Card)
    (nodes : List (ℕ × Card)) : Prop where
  deck_eq : s.deck = firstOr nodes none
  linked : Linked s.heap none nodes none
  nodup : (addresses nodes).Nodup
  sorted : IsStableSort key cards (nodes.map Prod.snd)
  fresh : ∀ k, s.allocated ≤ k → s.heap (calloc k) = none

variable {calloc : ℕ ↪ ℕ} {s : State} {cards : List Card}

theorem Call.size_eq (call : Call) : call.name.size = call.name.length + 1 :=
  CString.size_eq (Nat.lt_of_le_of_lt call.short (by decide))

theorem copyName_eq (call : Call) : copyName call.name call.name.size = .ok call.name := by
  rw [call.size_eq, copyName, if_pos (by omega), Int.add_sub_cancel, Int.toNat_natCast,
    List.take_length]

/-- One call returns, and the new card is in its place. -/
theorem Represents.addCard (h : Represents calloc s cards nodes) (call : Call) :
    ∃ s' nodes', Returns (addCard calloc s call.name call.cost) s' ∧
      Represents calloc s' (cards ++ [call.card]) nodes' := by
  obtain ⟨heap, deck, allocated⟩ := s
  obtain ⟨hdeck, hlinked, hnodup, hsorted, hfree⟩ := h
  dsimp only at hdeck hlinked hfree
  subst hdeck
  -- the new card has a cell of its own, so the walk does not see it
  have hnew : heap (calloc allocated) = none := hfree allocated (Nat.le_refl _)
  have hfresh := hlinked.fresh hnew
  have hwalked : Linked (heap.alloc (calloc allocated) call.card) none nodes none :=
    hlinked.frame fun b hb => heap.alloc_of_ne call.card fun heq => hfresh (heq ▸ hb)
  obtain ⟨pre, post, rfl, hpre, hpost, hwalk⟩ := exists_walk hwalked call.cost
  obtain ⟨heap', hwire, hlinked', hframe⟩ := exists_wire hlinked hnodup hnew call.card
  refine ⟨⟨heap', firstOr (pre ++ (calloc allocated, call.card) :: post) none, allocated + 1⟩,
    pre ++ (calloc allocated, call.card) :: post, ?_, rfl, hlinked', ?_, ?_,
    fun k (hk : allocated + 1 ≤ k) => ?_⟩
  · have hshort : ¬ call.name.size > maxLength := by
      have hlength := call.short
      rw [call.size_eq, maxLength]
      omega
    -- what follows the walk has no loop
    let place (walk : Walk) (_ : ℕ) : Outcome State := do
      let (heap, deck) ← wire (heap.alloc (calloc allocated) call.card)
        (firstOr (pre ++ post) none) (calloc allocated) walk
      .ok ⟨heap, deck, allocated + 1⟩
    refine (hwalk.bind (g := place) (.of_eq fun _ => ?_)).congr fun fuel => ?_
    · simp only [place, hwire, Outcome.ok_bind]
    · rw [InsertionSort.addCard, if_neg hshort, copyName_eq]
      rfl
  · simp only [LinkedList.addresses_append, LinkedList.addresses_cons] at hnodup hfresh ⊢
    exact List.nodup_middle.mpr (List.nodup_cons.mpr ⟨hfresh, hnodup⟩)
  · rw [List.map_append] at hsorted ⊢
    refine hsorted.insert (fun c hc => ?_) fun c hc => ?_
    · obtain ⟨x, hx, rfl⟩ := List.mem_map.mp hc
      exact UInt16.le_iff_toNat_le.mp (hpre x hx)
    · rw [List.head?_map] at hc
      obtain ⟨x, hx, rfl⟩ := Option.mem_map.mp hc
      exact UInt16.lt_iff_toNat_lt.mp (hpost x hx)
  · have hother : calloc k ≠ calloc allocated := fun heq => by
      have := calloc.injective heq
      omega
    have hnone := hfree k (Nat.le_of_succ_le hk)
    exact (hframe _ (hlinked.fresh hnone) hother).trans hnone

theorem Start.represents (calloc : ℕ ↪ ℕ) (start : Start) :
    ∃ nodes, Represents calloc (start.state calloc) start.cards nodes := by
  cases start with
  | initDeck =>
    refine ⟨[(calloc 0, defaultCard)], rfl, ⟨Heap.alloc_self (fun _ => none) _ _, trivial⟩,
      List.nodup_singleton _, isStableSort_singleton key defaultCard, fun k (hk : 1 ≤ k) => ?_⟩
    have hother : calloc k ≠ calloc 0 := fun heq => by
      have := calloc.injective heq
      omega
    exact Heap.alloc_of_ne (fun _ => none) defaultCard hother
  | empty => exact ⟨[], rfl, trivial, .nil, isStableSort_nil key, fun _ _ => rfl⟩

/-- **The deck is a sorted doubly linked list** after any calls. -/
theorem addCards_sorted (calloc : ℕ ↪ ℕ) (start : Start) (calls : List Call) :
    ∃ s nodes, Returns (addCards calloc (start.state calloc) calls) s ∧
      IsList s.heap s.deck nodes ∧
      IsStableSort key (start.cards ++ calls.map Call.card) (nodes.map Prod.snd) := by
  have hstart := start.represents calloc
  rw [← List.append_nil start.cards] at hstart
  have hstep : ∀ (pre : List Call) (call : Call) (post : List Call) (s : State),
      pre ++ call :: post = calls →
      (∃ nodes, Represents calloc s (start.cards ++ pre.map Call.card) nodes) →
      ∃ s', Returns (addCard calloc s call.name call.cost) s' ∧
        ∃ nodes, Represents calloc s' (start.cards ++ (pre ++ [call]).map Call.card) nodes := by
    rintro pre call post s - ⟨nodes, h⟩
    obtain ⟨s', nodes', hreturns, h'⟩ := h.addCard call
    refine ⟨s', hreturns, nodes', ?_⟩
    rwa [List.map_append, ← List.append_assoc]
  obtain ⟨s, hreturns, nodes, h⟩ := Returns.foldlM (P := fun pre s =>
    ∃ nodes, Represents calloc s (start.cards ++ pre.map Call.card) nodes) hstep hstart
  refine ⟨s, nodes, hreturns, ?_, h.sorted⟩
  rw [h.deck_eq]
  exact h.linked.isList h.nodup

end BareMetal.InsertionSort
