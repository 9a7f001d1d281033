import BareMetal.CS.Block
import BareMetal.CS.Chains
import BareMetal.CS.LinkedTree
import Mathlib.Data.Set.Insert

/-!
# Freeing what was built

A program that ends well frees every cell, and none of them twice. `Frees` says which
addresses have been freed between two heaps. The cells of a list may own further blocks, such as
the text of a name; a cell is then freed after its block.

## Main results

* `Frees.trans`, `Frees.all` — what several loops free together, and when that is everything
* `Chain.frees`, `Chains.freeSlots` — one list, and the lists of an array
* `Chain.freeOwning`, `Chains.freeOwningSlots` — the same with the blocks that the cells own
* `Linked.freeTree` — a binary tree
-/

namespace CS

/-! ### What has been freed -/

/-- What was at the addresses in `S` is freed, and the rest is as before. -/
structure Frees {β : Type*} (heap heap' : ℕ → Option β) (S : Set ℕ) : Prop where
  freed : ∀ a ∈ S, heap' a = none
  kept : ∀ a, a ∉ S → heap' a = heap a

namespace Frees

variable {β : Type*} {heap heap' heap'' : ℕ → Option β} {S T : Set ℕ} {a : ℕ} {cell : β}

theorem refl (heap : ℕ → Option β) : Frees heap heap ∅ :=
  ⟨fun _ ha => absurd ha (Set.notMem_empty _), fun _ _ => rfl⟩

theorem update (heap : ℕ → Option β) (a : ℕ) : Frees heap (Function.update heap a none) {a} := by
  refine ⟨fun b hb => ?_, fun b hb => Function.update_of_ne hb ..⟩
  rw [Set.mem_singleton_iff.mp hb, Function.update_self]

theorem trans (h : Frees heap heap' S) (h' : Frees heap' heap'' T) : Frees heap heap'' (S ∪ T) := by
  refine ⟨fun a ha => ?_, fun a ha => ?_⟩
  · by_cases hT : a ∈ T
    · exact h'.freed a hT
    · rw [h'.kept a hT]
      exact h.freed a (ha.resolve_right hT)
  · obtain ⟨hS, hT⟩ := not_or.mp ha
    rw [h'.kept a hT, h.kept a hS]

theorem congr (h : Frees heap heap' S) (heq : S = T) : Frees heap heap' T := heq ▸ h

/-- Nothing is left when everything was in `S`. -/
theorem all (h : Frees heap heap' S) (hcovers : ∀ a, heap a ≠ none → a ∈ S) :
    ∀ a, heap' a = none := by
  intro a
  by_cases ha : a ∈ S
  · exact h.freed a ha
  · rw [h.kept a ha]
    by_contra hne
    exact ha (hcovers a hne)

end Frees

namespace LinkedList

variable {α β : Type} {heap heap' : Heap α} {nodes : List (ℕ × α)} {n k : ℕ}
  {heads : Block n (Option ℕ)} {lists : Fin n → List (ℕ × α)}

/-! ### Lists -/

/-- Every cell of a list is freed, and nothing else. -/
theorem Chain.frees (h : Chain heap nodes) (hnodup : (addresses nodes).Nodup) :
    ∃ heap', Returns (LinkedList.freeAll heap (first nodes)) heap' ∧
      Frees heap heap' {a | a ∈ addresses nodes} := by
  obtain ⟨heap', hreturns, hfreed, hkept⟩ := h.freeAll hnodup
  exact ⟨heap', hreturns, hfreed, hkept⟩

/-- The cells of the lists in the first `k` slots. -/
def cellsBelow (lists : Fin n → List (ℕ × α)) (k : ℕ) : Set ℕ :=
  {a | ∃ i : Fin n, (i : ℕ) < k ∧ a ∈ addresses (lists i)}

theorem cellsBelow_zero (lists : Fin n → List (ℕ × α)) : cellsBelow lists 0 = ∅ :=
  Set.eq_empty_of_forall_notMem fun _ ⟨_, hlt, _⟩ => absurd hlt (Nat.not_lt_zero _)

theorem cellsBelow_succ (lists : Fin n → List (ℕ × α)) (hk : k < n) :
    cellsBelow lists (k + 1) = cellsBelow lists k ∪ {a | a ∈ addresses (lists ⟨k, hk⟩)} := by
  ext a
  constructor
  · rintro ⟨i, hlt, ha⟩
    rcases Nat.lt_succ_iff_lt_or_eq.mp hlt with hbelow | heq
    · exact Or.inl ⟨i, hbelow, ha⟩
    · obtain rfl : i = ⟨k, hk⟩ := Fin.ext heq
      exact Or.inr ha
  · rintro (⟨i, hlt, ha⟩ | ha)
    · exact ⟨i, Nat.lt_succ_of_lt hlt, ha⟩
    · exact ⟨⟨k, hk⟩, Nat.lt_succ_self k, ha⟩

/-- The cells of a list are not among those of the slots before. -/
theorem Chains.notMem_cellsBelow (h : Chains heap heads lists) (hk : k < n) {a : ℕ}
    (ha : a ∈ addresses (lists ⟨k, hk⟩)) : a ∉ cellsBelow lists k := by
  rintro ⟨i, hlt, hi⟩
  cases h.eq_of_mem hi ha
  exact Nat.lt_irrefl k hlt

/-- Free the lists in the first `count` slots. -/
def freeSlots (heads : Block n (Option ℕ)) (count : ℕ) (heap : Heap α) (fuel : ℕ) :
    Outcome (Heap α) :=
  (List.range count).foldlM (fun heap (i : ℕ) => do
    let current ← heads.load i
    freeAll heap current fuel) heap

theorem Chains.freeSlots (h : Chains heap heads lists) (hk : k ≤ n) :
    ∃ heap', Returns (LinkedList.freeSlots heads k heap) heap' ∧
      Frees heap heap' (cellsBelow lists k) := by
  have hpass : ∀ i < k, ∀ heap', Frees heap heap' (cellsBelow lists i) →
      ∃ heap'', Returns (fun fuel => do
          let current ← heads.load i
          freeAll heap' current fuel) heap'' ∧ Frees heap heap'' (cellsBelow lists (i + 1)) := by
    intro i hi heap' hfrees
    have hin : i < n := hi.trans_le hk
    have hholds := h.holds ⟨i, hin⟩
    have hchain : Chain heap' (lists ⟨i, hin⟩) := hholds.chain.frame fun b hb =>
      hfrees.kept b (h.notMem_cellsBelow hin hb)
    obtain ⟨heap'', hreturns, hfrees'⟩ := hchain.frees hholds.nodup
    refine ⟨heap'', ?_, cellsBelow_succ lists hin ▸ hfrees.trans hfrees'⟩
    rw [← h.head_eq] at hreturns
    refine hreturns.congr fun fuel => ?_
    rw [Block.load_natCast heads ⟨i, hin⟩, Outcome.ok_bind]
  exact Returns.foldlM_range hpass ((Frees.refl heap).congr (cellsBelow_zero lists).symm)

/-! ### Cells that own blocks -/

/-- The cells in memory and the blocks that they point to. -/
structure Owning (α β : Type) where
  cells : Heap α
  blocks : ℕ → Option β

/-- One pass of a loop that frees the cells of a list, each after the block that it owns. -/
def freeOwningPass (owned : α → Option ℕ) (s : Owning α β × Option ℕ) :
    Outcome (Pass (Owning α β × Option ℕ) (Owning α β)) :=
  match s.2 with
  | none => .ok (.leave s.1)
  | some current => do
    let node ← s.1.cells.load (some current)
    let blocks ← CellHeap.free s.1.blocks (owned node.value)
    let cells ← CellHeap.free s.1.cells (some current)
    .ok (.again (⟨cells, blocks⟩, node.next))

/-- Free the cells from `head` on, and their blocks. -/
def freeOwning (owned : α → Option ℕ) (m : Owning α β) (head : Option ℕ) (fuel : ℕ) :
    Outcome (Owning α β) :=
  loop (freeOwningPass owned) fuel (m, head)

/-- The blocks of cells. -/
def blocksOf (owned : α → Option ℕ) (cells : Set (ℕ × α)) : Set ℕ :=
  {b | ∃ cell ∈ cells, owned cell.2 = some b}

/-- The cells own blocks that are allocated, and no two own the same. -/
structure Owns (owned : α → Option ℕ) (blocks : ℕ → Option β) (cells : Set (ℕ × α)) : Prop where
  allocated : ∀ cell ∈ cells, ∀ b, owned cell.2 = some b → blocks b ≠ none
  once : ∀ x ∈ cells, ∀ y ∈ cells, ∀ b, owned x.2 = some b → owned y.2 = some b → x.1 = y.1

variable {owned : α → Option ℕ} {m m' : Owning α β} {blocks blocks' : ℕ → Option β}
  {cells cells' : Set (ℕ × α)}

/-- Freeing the block of a cell leaves those of other cells. -/
theorem Owns.keep (h : Owns owned blocks cells) (hsub : cells' ⊆ cells)
    (hkept : ∀ cell ∈ cells', ∀ b, owned cell.2 = some b → blocks' b = blocks b) :
    Owns owned blocks' cells' where
  allocated cell hcell b hb := by
    rw [hkept cell hcell b hb]
    exact h.allocated cell (hsub hcell) b hb
  once x hx y hy := h.once x (hsub hx) y (hsub hy)

theorem blocksOf_union (owned : α → Option ℕ) (cells cells' : Set (ℕ × α)) :
    blocksOf owned (cells ∪ cells') = blocksOf owned cells ∪ blocksOf owned cells' := by
  ext b
  constructor
  · rintro ⟨cell, hleft | hright, hb⟩
    · exact Or.inl ⟨cell, hleft, hb⟩
    · exact Or.inr ⟨cell, hright, hb⟩
  · rintro (⟨cell, hcell, hb⟩ | ⟨cell, hcell, hb⟩)
    · exact ⟨cell, Or.inl hcell, hb⟩
    · exact ⟨cell, Or.inr hcell, hb⟩

/-- The block of one cell is freed. -/
theorem exists_free_owned (a : ℕ) (v : α)
    (hblock : ∀ b, owned v = some b → blocks b ≠ none) :
    ∃ blocks', CellHeap.free blocks (owned v) = .ok blocks' ∧
      Frees blocks blocks' (blocksOf owned {(a, v)}) := by
  cases howned : owned v with
  | none =>
    refine ⟨blocks, rfl, (Frees.refl blocks).congr (Set.eq_empty_of_forall_notMem ?_).symm⟩
    rintro b ⟨cell, hcell, hb⟩
    cases hcell
    cases howned.symm.trans hb
  | some b =>
    obtain ⟨block, hsome⟩ := Option.ne_none_iff_exists'.mp (hblock b howned)
    refine ⟨_, CellHeap.free_some hsome, (Frees.update blocks b).congr ?_⟩
    ext c
    constructor
    · rintro rfl
      exact ⟨(a, v), rfl, howned⟩
    · rintro ⟨cell, hcell, hc⟩
      cases hcell
      exact Option.some.inj (hc.symm.trans howned)

/-- Every cell of a list is freed together with its block, and nothing else. The induction is on
the list; a block freed early is none of a later cell, because no two cells own the same. -/
theorem Chain.freeOwning (h : Chain m.cells nodes) (hnodup : (addresses nodes).Nodup)
    (howns : Owns owned m.blocks {x | x ∈ nodes}) :
    ∃ m', Returns (LinkedList.freeOwning owned m (first nodes)) m' ∧
      Frees m.cells m'.cells {a | a ∈ addresses nodes} ∧
      Frees m.blocks m'.blocks (blocksOf owned {x | x ∈ nodes}) := by
  induction nodes generalizing m with
  | nil =>
    refine ⟨m, .loop_leave rfl, (Frees.refl _).congr (Set.eq_empty_of_forall_notMem ?_).symm,
      (Frees.refl _).congr (Set.eq_empty_of_forall_notMem ?_).symm⟩
    · exact fun _ => List.not_mem_nil
    · rintro b ⟨cell, hcell, -⟩
      exact List.not_mem_nil hcell
  | cons x rest ih =>
    obtain ⟨a, v⟩ := x
    obtain ⟨hfresh, hnodup⟩ := List.nodup_cons.mp hnodup
    have hhead : (a, v) ∈ {x | x ∈ (a, v) :: rest} := List.mem_cons_self
    obtain ⟨blocks, hfree, hblocks⟩ := exists_free_owned a v (howns.allocated (a, v) hhead)
    have hchain : Chain (Function.update m.cells a none) rest :=
      h.2.frame fun b hb => Function.update_of_ne (ne_of_mem_of_not_mem hb hfresh) ..
    have hrest : Owns owned blocks {x | x ∈ rest} := by
      refine howns.keep (fun x hx => List.mem_cons_of_mem _ hx) fun cell hcell b hb => ?_
      refine hblocks.kept b ?_
      rintro ⟨first, hfirst, hb'⟩
      cases hfirst
      have heq := howns.once cell (List.mem_cons_of_mem _ hcell) (a, v) hhead b hb hb'
      exact hfresh (heq ▸ List.mem_map_of_mem hcell)
    obtain ⟨m', hloop, hcells', hblocks'⟩ := ih (m := ⟨_, blocks⟩) hchain hnodup hrest
    refine ⟨m', .loop_again ?_ hloop, ((Frees.update m.cells a).trans hcells').congr ?_,
      (hblocks.trans hblocks').congr ?_⟩
    · rw [freeOwningPass, first_cons]
      dsimp only
      rw [Heap.load_some h.1, Outcome.ok_bind, hfree, Outcome.ok_bind, CellHeap.free_some h.1]
      rfl
    · ext b
      exact List.mem_cons.symm
    · rw [← blocksOf_union]
      congr 1
      ext cell
      exact List.mem_cons.symm

/-- The nodes of the lists in the first `k` slots. -/
def nodesBelow (lists : Fin n → List (ℕ × α)) (k : ℕ) : Set (ℕ × α) :=
  {x | ∃ i : Fin n, (i : ℕ) < k ∧ x ∈ lists i}

theorem nodesBelow_succ (lists : Fin n → List (ℕ × α)) (hk : k < n) :
    nodesBelow lists (k + 1) = nodesBelow lists k ∪ {x | x ∈ lists ⟨k, hk⟩} := by
  ext x
  constructor
  · rintro ⟨i, hlt, hx⟩
    rcases Nat.lt_succ_iff_lt_or_eq.mp hlt with hbelow | heq
    · exact Or.inl ⟨i, hbelow, hx⟩
    · obtain rfl : i = ⟨k, hk⟩ := Fin.ext heq
      exact Or.inr hx
  · rintro (⟨i, hlt, hx⟩ | hx)
    · exact ⟨i, Nat.lt_succ_of_lt hlt, hx⟩
    · exact ⟨⟨k, hk⟩, Nat.lt_succ_self k, hx⟩

/-- Free the lists in the first `count` slots, with the blocks of their cells. -/
def freeOwningSlots (owned : α → Option ℕ) (heads : Block n (Option ℕ)) (count : ℕ)
    (m : Owning α β) (fuel : ℕ) : Outcome (Owning α β) :=
  (List.range count).foldlM (fun m (i : ℕ) => do
    let current ← heads.load i
    freeOwning owned m current fuel) m

theorem Chains.freeOwningSlots (h : Chains m.cells heads lists)
    (howns : Owns owned m.blocks {x | ∃ i, x ∈ lists i}) (hk : k ≤ n) :
    ∃ m', Returns (LinkedList.freeOwningSlots owned heads k m) m' ∧
      Frees m.cells m'.cells (cellsBelow lists k) ∧
      Frees m.blocks m'.blocks (blocksOf owned (nodesBelow lists k)) := by
  have hpass : ∀ i < k, ∀ m₁ : Owning α β, Frees m.cells m₁.cells (cellsBelow lists i) ∧
        Frees m.blocks m₁.blocks (blocksOf owned (nodesBelow lists i)) →
      ∃ m₂, Returns (fun fuel => do
          let current ← heads.load i
          freeOwning owned m₁ current fuel) m₂ ∧
        Frees m.cells m₂.cells (cellsBelow lists (i + 1)) ∧
        Frees m.blocks m₂.blocks (blocksOf owned (nodesBelow lists (i + 1))) := by
    rintro i hi m₁ ⟨hcells, hblocks⟩
    have hin : i < n := hi.trans_le hk
    have hholds := h.holds ⟨i, hin⟩
    have hchain : Chain m₁.cells (lists ⟨i, hin⟩) := hholds.chain.frame fun b hb =>
      hcells.kept b (h.notMem_cellsBelow hin hb)
    have hrest : Owns owned m₁.blocks {x | x ∈ lists ⟨i, hin⟩} := by
      refine howns.keep (fun x hx => ⟨_, hx⟩) fun cell hcell b hb => hblocks.kept b ?_
      rintro ⟨other, ⟨j, hlt, hother⟩, hb'⟩
      have heq := howns.once cell ⟨_, hcell⟩ other ⟨j, hother⟩ b hb hb'
      have hmem : cell.1 ∈ addresses (lists j) := heq ▸ List.mem_map_of_mem hother
      exact h.notMem_cellsBelow hin (List.mem_map_of_mem hcell) ⟨j, hlt, hmem⟩
    obtain ⟨m₂, hreturns, hcells', hblocks'⟩ := hchain.freeOwning hholds.nodup hrest
    refine ⟨m₂, ?_, cellsBelow_succ lists hin ▸ hcells.trans hcells', ?_⟩
    · rw [← h.head_eq] at hreturns
      refine hreturns.congr fun fuel => ?_
      rw [Block.load_natCast heads ⟨i, hin⟩, Outcome.ok_bind]
    · rw [nodesBelow_succ lists hin, blocksOf_union]
      exact hblocks.trans hblocks'
  refine Returns.foldlM_range hpass ⟨(Frees.refl _).congr (cellsBelow_zero lists).symm,
    (Frees.refl _).congr (Set.eq_empty_of_forall_notMem ?_).symm⟩
  rintro b ⟨_, ⟨_, hlt, _⟩, _⟩
  exact Nat.not_lt_zero _ hlt

end LinkedList

/-! ### Trees -/

namespace LinkedTree

open Math.SearchTree

variable {α : Type} {heap : Heap α} {t : BinaryTree (ℕ × α)}

/-- Free a tree to a bounded depth: what is below a cell, then the cell. -/
def freeTree : ℕ → Heap α → Option ℕ → Outcome (Heap α)
  | 0, _, _ => .error .outOfFuel
  | _ + 1, heap, none => .ok heap
  | fuel + 1, heap, some a => do
    let node ← CellHeap.load heap (some a)
    let heap ← freeTree fuel heap node.left
    -- the cell is read again for its other pointer
    let node ← CellHeap.load heap (some a)
    let heap ← freeTree fuel heap node.right
    CellHeap.free heap (some a)

/-- Every cell of a tree is freed, and nothing else. The two parts of a tree share no cell, and
neither contains the cell on top, so each is as it was when it is freed. -/
theorem Linked.freeTree (h : Linked heap t) (hnodup : (addresses t).Nodup) :
    ∃ heap', Returns (fun fuel => LinkedTree.freeTree fuel heap (root t)) heap' ∧
      Frees heap heap' {a | a ∈ addresses t} := by
  induction t generalizing heap with
  | nil =>
    refine ⟨heap, ?_, (Frees.refl heap).congr (Set.eq_empty_of_forall_notMem ?_).symm⟩
    · exact (Returns.of_eq (f := fun _ => .ok heap) fun _ => rfl).succ rfl fun _ => rfl
    · exact fun _ => List.not_mem_nil
  | node x l r ihl ihr =>
    obtain ⟨a, v⟩ := x
    obtain ⟨hcell, hl, hr⟩ := h
    obtain ⟨hal, har, hnodupl, hnodupr, hdisjoint⟩ := nodup_node.mp hnodup
    obtain ⟨heap₁, hleft, hfrees₁⟩ := ihl hl hnodupl
    have hcell₁ : heap₁ a = some ⟨v, root l, root r⟩ := (hfrees₁.kept a hal).trans hcell
    have hr₁ : Linked heap₁ r :=
      hr.frame fun b hb => hfrees₁.kept b fun hmem => hdisjoint b hmem hb
    obtain ⟨heap₂, hright, hfrees₂⟩ := ihr hr₁ hnodupr
    have hcell₂ : heap₂ a = some ⟨v, root l, root r⟩ := (hfrees₂.kept a har).trans hcell₁
    have hrest := hright.bind (g := fun heap _ => CellHeap.free heap (some a))
      (.of_eq fun _ => CellHeap.free_some hcell₂)
    have hbody := hleft.bind (g := fun heap fuel => do
        let node ← CellHeap.load heap (some a)
        let heap ← LinkedTree.freeTree fuel heap node.right
        CellHeap.free heap (some a)) (hrest.congr fun fuel => by
      rw [CellHeap.load_some hcell₁, Outcome.ok_bind])
    refine ⟨_, hbody.succ rfl fun fuel => ?_,
      ((hfrees₁.trans hfrees₂).trans (Frees.update heap₂ a)).congr ?_⟩
    · rw [root, LinkedTree.freeTree, CellHeap.load_some hcell, Outcome.ok_bind]
    · ext b
      rw [Set.mem_ofPred_eq, addresses_node, List.mem_append, List.mem_cons]
      constructor
      · rintro ((hb | hb) | rfl)
        · exact Or.inl hb
        · exact Or.inr (Or.inr hb)
        · exact Or.inr (Or.inl rfl)
      · rintro (hb | rfl | hb)
        · exact Or.inl (Or.inl hb)
        · exact Or.inr rfl
        · exact Or.inl (Or.inr hb)

end LinkedTree

end CS
