import BareMetal.CS.Chains
import BareMetal.CS.Text

/-!
# The merge of `pointer_problems/alternate.c`

`merge_alternating` puts the nodes of the second list between those of the first one. Each
round links the next node of the second list in front of the rest of the first list. When the
first list ends earlier, the last round links its node of the second list to nothing, and the
nodes behind it are on neither list.

## Main results

* `exists_mergeAlternating` — the list that the call leaves
* `mergeAlternating_keeps_iff` — no node is lost exactly when the second list is not the longer
* `mergeAlternating_drops` — a list of one node and a list of two
-/

namespace BareMetal.Alternate

open CS LinkedList

/-- The memory during the loop, and the next nodes of both lists. -/
structure Merge where
  nodes : Heap Int8
  c1 : Option ℕ
  c2 : Option ℕ

/-- One pass of the loop. -/
def mergePass (s : Merge) : Outcome (Pass Merge (Heap Int8)) :=
  match s.c1, s.c2 with
  | some c1, some c2 => do
    let node1 ← s.nodes.load (some c1)
    let node2 ← s.nodes.load (some c2)
    let nodes ← CellHeap.modify s.nodes (some c1) fun node => { node with next := some c2 }
    let nodes ← CellHeap.modify nodes (some c2) fun node => { node with next := node1.next }
    .ok (.again ⟨nodes, node1.next, node2.next⟩)
  | _, _ => .ok (.leave s.nodes)

/-- `merge_alternating`. -/
def mergeAlternating (m : HeaderMemory Int8) (list1 list2 : Option ℕ) (fuel : ℕ) :
    Outcome (HeaderMemory Int8) := do
  let c1 ← m.loadHead list1
  if c1 = none then .ok m
  else do
    let c2 ← m.loadHead list2
    if c2 = none then .ok m
    else do
      let nodes ← loop mergePass fuel ⟨m.nodes, c1, c2⟩
      .ok { m with nodes := nodes }

/-! ### Merged lists -/

section Lists

variable {β : Type*}

/-- One of each list in turn, and then what is left of the longer one. -/
def alternate : List β → List β → List β
  | [], ys => ys
  | x :: xs, [] => x :: xs
  | x :: xs, y :: ys => x :: y :: alternate xs ys

/-- One of each list in turn, up to the end of the first one. -/
def merged : List β → List β → List β
  | [], _ => []
  | x :: xs, [] => x :: xs
  | x :: xs, y :: ys => x :: y :: merged xs ys

theorem alternate_perm (xs ys : List β) : (alternate xs ys).Perm (xs ++ ys) := by
  induction xs, ys using alternate.induct with
  | case1 ys => exact .refl _
  | case2 x xs => simp [alternate]
  | case3 x xs y ys ih => exact ((ih.cons y).trans List.perm_middle.symm).cons x

/-- Nothing is lost at the end of the second list. -/
theorem merged_eq_alternate_iff (xs ys : List β) :
    merged xs ys = alternate xs ys ↔ ys.length ≤ xs.length := by
  induction xs, ys using merged.induct with
  | case1 ys => simp [merged, alternate, eq_comm]
  | case2 x xs => simp [merged, alternate]
  | case3 x xs y ys ih => simp [merged, alternate, ih]

end Lists

/-! ### The loop -/

variable {heap heap' : Heap Int8} {xs ys : List (ℕ × Int8)} {m m' : HeaderMemory Int8}
  {list1 list2 : ℕ}

/-- The merged list begins where the first list does. -/
theorem first_merged (xs ys : List (ℕ × Int8)) : first (merged xs ys) = first xs := by
  cases xs with
  | nil => rfl
  | cons x xs => cases ys <;> rfl

/-- The loop links one node of each list in each pass. The induction is on the lists that are
left. -/
theorem exists_loop_mergePass (hxs : Chain heap xs) (hys : Chain heap ys)
    (hnodup : (addresses (xs ++ ys)).Nodup) :
    ∃ heap', Returns (fun fuel => loop mergePass fuel ⟨heap, first xs, first ys⟩) heap' ∧
      Chain heap' (merged xs ys) ∧ ∀ b, b ∉ addresses (xs ++ ys) → heap' b = heap b := by
  induction xs, ys using merged.induct generalizing heap with
  | case1 ys =>
    refine ⟨heap, .loop_leave ?_, trivial, fun _ _ => rfl⟩
    simp only [mergePass, first_nil]
  | case2 x xs => exact ⟨heap, .loop_leave rfl, hxs, fun _ _ => rfl⟩
  | case3 x xs y ys ih =>
    obtain ⟨a, v⟩ := x
    obtain ⟨b, w⟩ := y
    obtain ⟨hacell, hxs⟩ := hxs
    obtain ⟨hbcell, hys⟩ := hys
    -- no address occurs twice
    rw [addresses_append, addresses_cons, addresses_cons, List.cons_append, List.nodup_cons,
      List.nodup_middle, List.nodup_cons, List.mem_append, List.mem_cons, List.mem_append, not_or,
      not_or, not_or, ← addresses_append] at hnodup
    obtain ⟨⟨hax, hab, hay⟩, ⟨hbx, hby⟩, hnodup⟩ := hnodup
    let heap₁ : Heap Int8 := Function.update heap a (some ⟨v, some b⟩)
    let heap₂ : Heap Int8 := Function.update heap₁ b (some ⟨w, first xs⟩)
    have hbcell₁ : heap₁ b = some ⟨w, first ys⟩ :=
      (Function.update_of_ne (Ne.symm hab) ..).trans hbcell
    have hother : ∀ c, c ≠ a → c ≠ b → heap₂ c = heap c := fun c hca hcb =>
      (Function.update_of_ne hcb ..).trans (Function.update_of_ne hca ..)
    have hxs' : Chain heap₂ xs := hxs.frame fun c hc => hother c
      (fun heq => hax (heq ▸ hc)) fun heq => hbx (heq ▸ hc)
    have hys' : Chain heap₂ ys := hys.frame fun c hc => hother c
      (fun heq => hay (heq ▸ hc)) fun heq => hby (heq ▸ hc)
    obtain ⟨heap', hreturns, hchain, hframe⟩ := ih hxs' hys' hnodup
    have hnot : ∀ c, c ∉ addresses xs → c ∉ addresses ys → heap' c = heap₂ c := fun c hcx hcy =>
      hframe c (by rw [addresses_append, List.mem_append, not_or]; exact ⟨hcx, hcy⟩)
    refine ⟨heap', .loop_again ?_ hreturns, ⟨?_, ?_, hchain⟩, fun c hc => ?_⟩
    · simp only [mergePass, first_cons, Heap.load_some hacell, Heap.load_some hbcell,
        Outcome.ok_bind, CellHeap.modify_some hacell]
      rw [CellHeap.modify_some hbcell₁]
      rfl
    · rw [hnot a hax hay]
      exact (Function.update_of_ne hab ..).trans (Function.update_self ..)
    · rw [hnot b hbx hby, first_merged]
      exact Function.update_self ..
    · simp only [addresses_append, addresses_cons, List.cons_append, List.mem_cons,
        List.mem_append, not_or] at hc
      rw [hnot c hc.2.1 hc.2.2.2]
      exact hother c hc.1 hc.2.2.1

/-! ### The call -/

/-- Two lists without a common node, each behind its struct. -/
structure TwoLists (m : HeaderMemory Int8) (list1 list2 : ℕ) (xs ys : List (ℕ × Int8)) : Prop where
  head1 : m.lists list1 = some ⟨first xs⟩
  head2 : m.lists list2 = some ⟨first ys⟩
  chain1 : Chain m.nodes xs
  chain2 : Chain m.nodes ys
  nodup : (addresses (xs ++ ys)).Nodup
  ne_nil1 : xs ≠ []
  ne_nil2 : ys ≠ []

/-- The first list has the nodes of both, one of each in turn and then the rest of the longer
list. -/
def KeepsAll (m' : HeaderMemory Int8) (list1 : ℕ) (xs ys : List (ℕ × Int8)) : Prop :=
  ∃ nodes, m'.lists list1 = some ⟨first nodes⟩ ∧ Chain m'.nodes nodes ∧
    nodes = alternate xs ys ∧ nodes.Perm (xs ++ ys)

theorem exists_first (h : xs ≠ []) : ∃ a, first xs = some a := by
  cases xs with
  | nil => exact absurd rfl h
  | cons x xs => exact ⟨x.1, rfl⟩

/-- What a call leaves. -/
theorem TwoLists.exists_mergeAlternating (h : TwoLists m list1 list2 xs ys) :
    ∃ m', Returns (mergeAlternating m (some list1) (some list2)) m' ∧
      m'.lists list1 = some ⟨first (merged xs ys)⟩ ∧ Chain m'.nodes (merged xs ys) := by
  obtain ⟨heap', hloop, hchain, -⟩ := exists_loop_mergePass h.chain1 h.chain2 h.nodup
  obtain ⟨a, ha⟩ := exists_first h.ne_nil1
  obtain ⟨b, hb⟩ := exists_first h.ne_nil2
  refine ⟨{ m with nodes := heap' }, ?_, ?_, hchain⟩
  · refine (hloop.map fun nodes => { m with nodes := nodes }).congr fun fuel => ?_
    rw [mergeAlternating, HeaderMemory.loadHead_some h.head1, Outcome.ok_bind, ha,
      if_neg (Option.some_ne_none a), HeaderMemory.loadHead_some h.head2, Outcome.ok_bind, hb,
      if_neg (Option.some_ne_none b)]
  · rw [first_merged]
    exact h.head1

/-- **Alternating merge keeps every node** exactly when the second list is not longer than the
first one. -/
theorem mergeAlternating_keeps_iff (h : TwoLists m list1 list2 xs ys) :
    (∃ m', Returns (mergeAlternating m (some list1) (some list2)) m' ∧
      KeepsAll m' list1 xs ys) ↔ ys.length ≤ xs.length := by
  obtain ⟨m₁, hreturns₁, hhead₁, hchain₁⟩ := h.exists_mergeAlternating
  rw [← merged_eq_alternate_iff]
  constructor
  · rintro ⟨m', hreturns, nodes, hhead, hchain, rfl, -⟩
    obtain rfl := hreturns.unique hreturns₁
    have hfirst : first (merged xs ys) = first (alternate xs ys) :=
      congrArg Header.head (Option.some.inj (hhead₁.symm.trans hhead))
    exact hchain₁.unique hchain hfirst
  · intro heq
    refine ⟨m₁, hreturns₁, alternate xs ys, ?_, ?_, rfl, alternate_perm xs ys⟩
    · rw [hhead₁, heq]
    · rw [← heq]
      exact hchain₁

/-- Two lists at the addresses from 1 on, behind the structs 1 and 2. -/
def twoLists (xs ys : List (ℕ × Int8)) (nodes : Heap Int8) : HeaderMemory Int8 where
  nodes := nodes
  lists list := if list = 1 then some ⟨first xs⟩ else if list = 2 then some ⟨first ys⟩ else none

/-- One node each. -/
def onePair : HeaderMemory Int8 :=
  twoLists [(1, 49)] [(2, 65)] fun a =>
    if a = 1 then some ⟨49, none⟩ else if a = 2 then some ⟨65, none⟩ else none

theorem twoLists_onePair : TwoLists onePair 1 2 [(1, 49)] [(2, 65)] :=
  ⟨rfl, rfl, ⟨rfl, trivial⟩, ⟨rfl, trivial⟩, by decide, by simp, by simp⟩

theorem mergeAlternating_keeps_onePair :
    ∃ m', Returns (mergeAlternating onePair (some 1) (some 2)) m' ∧
      KeepsAll m' 1 [(1, 49)] [(2, 65)] :=
  (mergeAlternating_keeps_iff twoLists_onePair).mpr (Nat.le_refl 1)

/-- One node and two. -/
def longerSecond : HeaderMemory Int8 :=
  twoLists [(1, 49)] [(2, 65), (3, 66)] fun a =>
    if a = 1 then some ⟨49, none⟩ else if a = 2 then some ⟨65, some 3⟩
    else if a = 3 then some ⟨66, none⟩ else none

theorem twoLists_longerSecond : TwoLists longerSecond 1 2 [(1, 49)] [(2, 65), (3, 66)] :=
  ⟨rfl, rfl, ⟨rfl, trivial⟩, ⟨rfl, rfl, trivial⟩, by decide, by simp, by simp⟩

/-- The node at the address 3 is dropped. -/
theorem mergeAlternating_drops :
    TwoLists longerSecond 1 2 [(1, 49)] [(2, 65), (3, 66)] ∧
      (∃ m', Returns (mergeAlternating longerSecond (some 1) (some 2)) m' ∧
        m'.lists 1 = some ⟨some 1⟩ ∧ Chain m'.nodes [(1, 49), (2, 65)]) ∧
      ¬ ∃ m', Returns (mergeAlternating longerSecond (some 1) (some 2)) m' ∧
        KeepsAll m' 1 [(1, 49)] [(2, 65), (3, 66)] := by
  obtain ⟨m₁, hreturns₁, hhead₁, hchain₁⟩ := twoLists_longerSecond.exists_mergeAlternating
  refine ⟨twoLists_longerSecond, ⟨m₁, hreturns₁, hhead₁, hchain₁⟩, ?_⟩
  rintro ⟨m', hreturns, nodes, hhead, hchain, rfl, -⟩
  obtain rfl := hreturns.unique hreturns₁
  cases hchain₁.unique hchain rfl

end BareMetal.Alternate
