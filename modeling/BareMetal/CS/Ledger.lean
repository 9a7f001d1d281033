import BareMetal.CS.Teardown

/-!
# Blocks, their owners and what is lost

Cells may own a block each, which has to be freed with them. A `Ledger` keeps the owners and, in
the order in which they were lost, the blocks that nobody owns any more. These are never freed:
what a program that frees all of its cells leaves allocated is exactly what it has lost.

## Main results

* `Ledger.take`, `Ledger.lose`, `Ledger.abandon` — a new owner, a block without one, an owner
  that goes without its block
* `Ledger.releaseAll` — owners that go with their blocks
* `Ledger.allocated_iff` — what is left when all owners are gone
* `exists_freeOwningSlots` — loops that free the lists of an array lose nothing
-/

namespace CS

variable {β : Type*}

/-- Every allocated block has one owner or is lost. -/
structure Ledger (owns : ℕ → Option ℕ) (blocks : ℕ → Option β) (lost : List ℕ) : Prop where
  allocated : ∀ a b, owns a = some b → blocks b ≠ none
  once : ∀ a a' b, owns a = some b → owns a' = some b → a = a'
  lost_allocated : ∀ b ∈ lost, blocks b ≠ none
  apart : ∀ a b, owns a = some b → b ∉ lost
  covered : ∀ b, blocks b ≠ none → b ∈ lost ∨ ∃ a, owns a = some b
  nodup : lost.Nodup

namespace Ledger

variable {owns owns' : ℕ → Option ℕ} {blocks blocks' : ℕ → Option β} {lost : List ℕ} {a b : ℕ}
  {S : Set ℕ}

theorem start : Ledger (fun _ => none) (fun _ => none : ℕ → Option β) [] where
  allocated _ b h := absurd h.symm (Option.some_ne_none b)
  once _ _ b h := absurd h.symm (Option.some_ne_none b)
  lost_allocated _ h := absurd h List.not_mem_nil
  apart _ b h := absurd h.symm (Option.some_ne_none b)
  covered _ h := absurd rfl h
  nodup := List.nodup_nil

/-- A block that is free has no owner. -/
theorem ne_of_free (h : Ledger owns blocks lost) (hb : blocks b = none) {c : ℕ}
    (ha : owns a = some c) : c ≠ b := by
  rintro rfl
  exact h.allocated a c ha hb

/-- A block that is free is not lost. -/
theorem notMem_of_free (h : Ledger owns blocks lost) (hb : blocks b = none) : b ∉ lost :=
  fun hmem => h.lost_allocated b hmem hb

/-- A block is allocated that no cell will own. -/
theorem lose (h : Ledger owns blocks lost) (hb : blocks b = none) (v : β) :
    Ledger owns (Function.update blocks b (some v)) (lost ++ [b]) where
  allocated a c ha := by
    rw [Function.update_of_ne (h.ne_of_free hb ha)]
    exact h.allocated a c ha
  once := h.once
  lost_allocated c hc := by
    rcases List.mem_append.mp hc with hold | hnew
    · rw [Function.update_of_ne (ne_of_mem_of_not_mem hold (h.notMem_of_free hb))]
      exact h.lost_allocated c hold
    · rw [List.mem_singleton.mp hnew, Function.update_self]
      exact Option.some_ne_none v
  apart a c ha hc := by
    rcases List.mem_append.mp hc with hold | hnew
    · exact h.apart a c ha hold
    · exact h.ne_of_free hb ha (List.mem_singleton.mp hnew)
  covered c hc := by
    rcases eq_or_ne c b with rfl | hne
    · exact Or.inl (List.mem_append_right _ (List.mem_singleton_self c))
    · rw [Function.update_of_ne hne] at hc
      exact (h.covered c hc).imp_left (List.mem_append_left _)
  nodup := by
    rw [← List.concat_eq_append, List.nodup_concat]
    exact ⟨h.notMem_of_free hb, h.nodup⟩

/-- A block is allocated together with its owner. -/
theorem take (h : Ledger owns blocks lost) (ha : owns a = none) (hb : blocks b = none) (v : β) :
    Ledger (Function.update owns a (some b)) (Function.update blocks b (some v)) lost where
  allocated a' c hc := by
    rcases eq_or_ne a' a with rfl | hne
    · rw [Function.update_self] at hc
      cases hc
      rw [Function.update_self]
      exact Option.some_ne_none v
    · rw [Function.update_of_ne hne] at hc
      rw [Function.update_of_ne (h.ne_of_free hb hc)]
      exact h.allocated a' c hc
  once a' a'' c hc hc' := by
    rcases eq_or_ne a' a with rfl | hne
    · rcases eq_or_ne a'' a' with heq | hne'
      · exact heq.symm
      · rw [Function.update_self] at hc
        cases hc
        rw [Function.update_of_ne hne'] at hc'
        exact absurd rfl (h.ne_of_free hb hc')
    · rw [Function.update_of_ne hne] at hc
      rcases eq_or_ne a'' a with rfl | hne'
      · rw [Function.update_self] at hc'
        cases hc'
        exact absurd rfl (h.ne_of_free hb hc)
      · rw [Function.update_of_ne hne'] at hc'
        exact h.once a' a'' c hc hc'
  lost_allocated c hc := by
    rw [Function.update_of_ne (ne_of_mem_of_not_mem hc (h.notMem_of_free hb))]
    exact h.lost_allocated c hc
  apart a' c hc hmem := by
    rcases eq_or_ne a' a with rfl | hne
    · rw [Function.update_self] at hc
      cases hc
      exact h.notMem_of_free hb hmem
    · rw [Function.update_of_ne hne] at hc
      exact h.apart a' c hc hmem
  covered c hc := by
    rcases eq_or_ne c b with rfl | hne
    · exact Or.inr ⟨a, Function.update_self ..⟩
    · rw [Function.update_of_ne hne] at hc
      refine (h.covered c hc).imp_right ?_
      rintro ⟨a', ha'⟩
      refine ⟨a', ?_⟩
      rw [Function.update_of_ne, ha']
      rintro rfl
      cases ha.symm.trans ha'
  nodup := h.nodup

/-- Owners go, and their blocks with them. -/
theorem releaseAll (h : Ledger owns blocks lost) (howns : Frees owns owns' S)
    (hblocks : Frees blocks blocks' {b | ∃ a ∈ S, owns a = some b}) :
    Ledger owns' blocks' lost := by
  -- an owner that stays is not among those that go, and its block is kept
  have hstays : ∀ a b, owns' a = some b → a ∉ S ∧ owns a = some b := by
    intro a b ha
    have hnot : a ∉ S := fun hmem => by
      cases (howns.freed a hmem).symm.trans ha
    exact ⟨hnot, (howns.kept a hnot).symm.trans ha⟩
  have hkept : ∀ a b, owns' a = some b → blocks' b = blocks b := by
    intro a b ha
    obtain ⟨hnot, hold⟩ := hstays a b ha
    refine hblocks.kept b ?_
    rintro ⟨a', hmem, ha'⟩
    exact hnot (h.once a a' b hold ha' ▸ hmem)
  have hlost : ∀ b ∈ lost, blocks' b = blocks b := by
    intro b hb
    refine hblocks.kept b ?_
    rintro ⟨a, -, ha⟩
    exact h.apart a b ha hb
  refine ⟨fun a b ha => ?_, fun a a' b ha ha' => ?_, fun b hb => ?_, fun a b ha => ?_,
    fun b hb => ?_, h.nodup⟩
  · rw [hkept a b ha]
    exact h.allocated a b (hstays a b ha).2
  · exact h.once a a' b (hstays a b ha).2 (hstays a' b ha').2
  · rw [hlost b hb]
    exact h.lost_allocated b hb
  · exact h.apart a b (hstays a b ha).2
  · have hnot : ¬ ∃ a ∈ S, owns a = some b := fun hmem => hb (hblocks.freed b hmem)
    rw [hblocks.kept b hnot] at hb
    refine (h.covered b hb).imp_right ?_
    rintro ⟨a, ha⟩
    exact ⟨a, (howns.kept a fun hmem => hnot ⟨a, hmem, ha⟩).trans ha⟩

/-- One owner goes, and its block with it. -/
theorem release (h : Ledger owns blocks lost) (ha : owns a = some b) :
    Ledger (Function.update owns a none) (Function.update blocks b none) lost := by
  refine h.releaseAll (Frees.update owns a) ((Frees.update blocks b).congr ?_)
  ext c
  constructor
  · rintro rfl
    exact ⟨a, rfl, ha⟩
  · rintro ⟨_, rfl, hc⟩
    exact (Option.some.inj (ha.symm.trans hc)).symm

/-- One owner goes without its block. -/
theorem abandon (h : Ledger owns blocks lost) (ha : owns a = some b) :
    Ledger (Function.update owns a none) blocks (lost ++ [b]) := by
  have hstays : ∀ a' c, Function.update owns a none a' = some c → a' ≠ a ∧ owns a' = some c := by
    intro a' c hc
    have hne : a' ≠ a := by
      rintro rfl
      rw [Function.update_self] at hc
      cases hc
    rw [Function.update_of_ne hne] at hc
    exact ⟨hne, hc⟩
  refine ⟨fun a' c hc => h.allocated a' c (hstays a' c hc).2,
    fun a' a'' c hc hc' => h.once a' a'' c (hstays a' c hc).2 (hstays a'' c hc').2,
    fun c hc => ?_, fun a' c hc hmem => ?_, fun c hc => ?_, ?_⟩
  · rcases List.mem_append.mp hc with hold | hnew
    · exact h.lost_allocated c hold
    · rw [List.mem_singleton.mp hnew]
      exact h.allocated a b ha
  · obtain ⟨hne, hc⟩ := hstays a' c hc
    rcases List.mem_append.mp hmem with hold | hnew
    · exact h.apart a' c hc hold
    · rw [List.mem_singleton.mp hnew] at hc
      exact hne (h.once a' a b hc ha)
  · rcases h.covered c hc with hold | ⟨a', ha'⟩
    · exact Or.inl (List.mem_append_left _ hold)
    · rcases eq_or_ne a' a with rfl | hne
      · rw [Option.some.inj (ha'.symm.trans ha)]
        exact Or.inl (List.mem_append_right _ (List.mem_singleton_self b))
      · exact Or.inr ⟨a', by rw [Function.update_of_ne hne, ha']⟩
  · rw [← List.concat_eq_append, List.nodup_concat]
    exact ⟨h.apart a b ha, h.nodup⟩

/-- When all owners are gone, what is allocated is what was lost. -/
theorem allocated_iff (h : Ledger owns blocks lost) (hgone : ∀ a, owns a = none) :
    ∀ b, blocks b ≠ none ↔ b ∈ lost := by
  refine fun b => ⟨fun hb => (h.covered b hb).resolve_right ?_, h.lost_allocated b⟩
  rintro ⟨a, ha⟩
  cases (hgone a).symm.trans ha

end Ledger

/-! ### Cells of lists as owners -/

namespace LinkedList

variable {α β : Type} {owned : α → Option ℕ} {cells cells' : Heap α} {m : Owning α β} {n k : ℕ}
  {heads : Block n (Option ℕ)} {lists : Fin n → List (ℕ × α)} {lost : List ℕ} {a : ℕ}
  {node : Node α} {S : Set ℕ}

/-- The block that the cell at an address owns. -/
def owners (owned : α → Option ℕ) (cells : Heap α) : ℕ → Option ℕ :=
  fun a => (cells a).bind fun node => owned node.value

theorem owners_some (h : cells a = some node) : owners owned cells a = owned node.value := by
  rw [owners, h, Option.bind_some]

theorem owners_none (h : cells a = none) : owners owned cells a = none := by
  rw [owners, h, Option.bind_none]

theorem owners_update (owned : α → Option ℕ) (cells : Heap α) (a : ℕ) (cell : Option (Node α)) :
    owners owned (Function.update cells a cell) =
      Function.update (owners owned cells) a (cell.bind fun node => owned node.value) := by
  funext b
  rcases eq_or_ne b a with rfl | hne
  · rw [owners, Function.update_self, Function.update_self]
  · rw [owners, Function.update_of_ne hne, Function.update_of_ne hne, owners]

/-- Cells that are linked in another way own what they owned. -/
theorem owners_congr (h : ∀ b, (cells' b).map Node.value = (cells b).map Node.value) :
    owners owned cells' = owners owned cells := by
  have hvalue : ∀ cells : Heap α, owners owned cells =
      fun a => ((cells a).map Node.value).bind owned := by
    intro cells
    funext a
    cases hcell : cells a with
    | none => rw [owners_none hcell, Option.map_none, Option.bind_none]
    | some node => rw [owners_some hcell, Option.map_some, Option.bind_some]
  rw [hvalue, hvalue]
  funext a
  rw [h a]

/-- Cells that are freed own nothing. -/
theorem frees_owners (h : Frees cells cells' S) :
    Frees (owners owned cells) (owners owned cells') S where
  freed a ha := owners_none (h.freed a ha)
  kept a ha := by rw [owners, h.kept a ha, owners]

/-- Every list of an array is freed with the blocks of its cells, and nothing is lost. -/
theorem exists_freeOwningSlots (h : Ledger (owners owned m.cells) m.blocks lost)
    (hchains : Chains m.cells heads lists) (hk : k ≤ n) :
    ∃ m', Returns (LinkedList.freeOwningSlots owned heads k m) m' ∧
      Frees m.cells m'.cells (cellsBelow lists k) ∧
      Ledger (owners owned m'.cells) m'.blocks lost := by
  have howner : ∀ i, ∀ x ∈ lists i, owners owned m.cells x.1 = owned x.2 := by
    intro i x hx
    obtain ⟨next, hcell⟩ := (hchains.holds i).chain.exists_next hx
    exact owners_some hcell
  have howns : Owns owned m.blocks {x | ∃ i, x ∈ lists i} := by
    constructor
    · rintro x ⟨i, hx⟩ b hb
      exact h.allocated x.1 b ((howner i x hx).trans hb)
    · rintro x ⟨i, hx⟩ y ⟨j, hy⟩ b hb hb'
      exact h.once x.1 y.1 b ((howner i x hx).trans hb) ((howner j y hy).trans hb')
  obtain ⟨m', hreturns, hcells, hblocks⟩ := hchains.freeOwningSlots howns hk
  refine ⟨m', hreturns, hcells, h.releaseAll (frees_owners hcells) (hblocks.congr ?_)⟩
  ext b
  constructor
  · rintro ⟨x, ⟨i, hlt, hx⟩, hb⟩
    exact ⟨x.1, ⟨i, hlt, List.mem_map_of_mem hx⟩, (howner i x hx).trans hb⟩
  · rintro ⟨_, ⟨i, hlt, ha⟩, hb⟩
    obtain ⟨x, hx, rfl⟩ := List.mem_map.mp ha
    exact ⟨x, ⟨i, hlt, hx⟩, (howner i x hx).symm.trans hb⟩

end LinkedList

end CS
