import Mathlib.Data.Multiset.Range
import Mathlib.Logic.Equiv.Basic
import Mathlib.Order.Basic

/-!
# The order of an implicit binary tree

Cells numbered from `0` form a binary tree in which the parent of cell `i` is
`(i - 1) / 2`. The first `size` cells are in heap order when no key is below
the key of its parent.

Restoring the order after one cell has changed moves a single misplaced key
along a path. `UpHole` and `DownHole` say what is in order while the key moves
towards the root or away from it; each has one lemma for a swap and one for
stopping.

## Main results

* `UpHole.swap`, `UpHole.ordered` — one swap of a sift towards the root, and
  its end
* `DownHole.swap`, `DownHole.ordered` — the same away from the root
* `Ordered.root_le` — the root of an ordered tree has a least key
* `contents_swapCells` — a swap inside the occupied cells loses nothing
-/

namespace Math.HeapOrder

variable {α κ : Type*}

/-! ### Cells and their contents -/

/-- Exchange the contents of cells `i` and `j`, writing `i` first. -/
def swapCells (cells : ℕ → α) (i j : ℕ) : ℕ → α :=
  Function.update (Function.update cells i (cells j)) j (cells i)

@[simp] theorem swapCells_right (cells : ℕ → α) (i j : ℕ) : swapCells cells i j j = cells i := by
  simp [swapCells]

@[simp] theorem swapCells_left (cells : ℕ → α) (i j : ℕ) : swapCells cells i j i = cells j := by
  by_cases hij : i = j
  · subst hij
    simp
  · simp [swapCells, Function.update_of_ne hij]

theorem swapCells_of_ne (cells : ℕ → α) {i j k : ℕ} (hi : k ≠ i) (hj : k ≠ j) :
    swapCells cells i j k = cells k := by
  rw [swapCells, Function.update_of_ne hj, Function.update_of_ne hi]

theorem swapCells_eq_comp (cells : ℕ → α) (i j : ℕ) :
    swapCells cells i j = cells ∘ Equiv.swap i j := by
  funext k
  by_cases hi : k = i
  · subst hi
    simp
  · by_cases hj : k = j
    · subst hj
      simp
    · rw [swapCells_of_ne cells hi hj, Function.comp_apply, Equiv.swap_apply_of_ne_of_ne hi hj]

/-- Swapping cells and reading a key of each commute. -/
theorem comp_swapCells (f : α → κ) (cells : ℕ → α) (i j : ℕ) :
    f ∘ swapCells cells i j = swapCells (f ∘ cells) i j := by
  rw [swapCells_eq_comp, swapCells_eq_comp, Function.comp_assoc]

/-- What the first `size` cells hold, counted with multiplicity. -/
def contents (cells : ℕ → α) (size : ℕ) : Multiset α := (Multiset.range size).map cells

@[simp] theorem contents_zero (cells : ℕ → α) : contents cells 0 = 0 := rfl

theorem contents_succ (cells : ℕ → α) (size : ℕ) :
    contents cells (size + 1) = cells size ::ₘ contents cells size := by
  simp [contents, Multiset.range_succ]

theorem mem_contents {cells : ℕ → α} {size : ℕ} {a : α} :
    a ∈ contents cells size ↔ ∃ i < size, cells i = a := by
  simp [contents]

/-- Contents only depend on the occupied cells. -/
theorem contents_congr {cells cells' : ℕ → α} {size : ℕ} (h : ∀ i < size, cells i = cells' i) :
    contents cells size = contents cells' size :=
  Multiset.map_congr rfl fun i hi => h i (Multiset.mem_range.mp hi)

theorem contents_swapCells (cells : ℕ → α) {size i j : ℕ} (hi : i < size) (hj : j < size) :
    contents (swapCells cells i j) size = contents cells size := by
  have hrange : (Multiset.range size).map (Equiv.swap i j) = Multiset.range size := by
    refine Multiset.Nodup.ext ((Multiset.nodup_range size).map (Equiv.swap i j).injective)
      (Multiset.nodup_range size) |>.mpr fun k => ?_
    have hlt : ∀ m < size, Equiv.swap i j m < size := by
      intro m hm
      rw [Equiv.swap_apply_def]
      split_ifs <;> assumption
    simp only [Multiset.mem_map, Multiset.mem_range]
    constructor
    · rintro ⟨m, hm, rfl⟩
      exact hlt m hm
    · intro hk
      exact ⟨Equiv.swap i j k, hlt k hk, Equiv.swap_apply_self i j k⟩
  rw [contents, swapCells_eq_comp, ← Multiset.map_map, hrange, contents]

/-- Moving the last cell over the root takes the root out. -/
theorem contents_pop_root (cells : ℕ → α) (size : ℕ) :
    contents cells (size + 2) =
      cells 0 ::ₘ contents (Function.update cells 0 (cells (size + 1))) (size + 1) := by
  have hrange : Multiset.range (size + 1) = 0 ::ₘ (Multiset.range size).map Nat.succ := by
    refine Multiset.Nodup.ext (Multiset.nodup_range _) ?_ |>.mpr fun k => ?_
    · rw [Multiset.nodup_cons]
      exact ⟨by simp, (Multiset.nodup_range size).map Nat.succ_injective⟩
    · cases k <;> simp <;> omega
  rw [contents_succ, contents, contents, hrange, Multiset.map_cons, Multiset.map_cons,
    Function.update_self, Multiset.cons_swap]
  congr 2
  refine Multiset.map_congr rfl fun k hk => ?_
  obtain ⟨j, -, rfl⟩ := Multiset.mem_map.mp hk
  exact (Function.update_of_ne (Nat.succ_ne_zero j) _ _).symm

/-! ### Heap order -/

/-- The parent of cell `i`; only meaningful for `0 < i`. -/
def parent (i : ℕ) : ℕ := (i - 1) / 2

theorem parent_lt {i : ℕ} (hi : 0 < i) : parent i < i := by
  unfold parent
  omega

/-- The two cells that have `i` as their parent. -/
theorem parent_eq_iff {c i : ℕ} (hc : 0 < c) :
    parent c = i ↔ c = 2 * i + 1 ∨ c = 2 * i + 2 := by
  unfold parent
  omega

variable [LinearOrder κ] {key : ℕ → κ} {size hole : ℕ}

/-- No key among the first `size` cells is below the key of its parent. -/
def Ordered (key : ℕ → κ) (size : ℕ) : Prop :=
  ∀ i, 0 < i → i < size → key (parent i) ≤ key i

/-- The order while a key moves towards the root: only the pair of `hole` and
its parent may be out of order, and the children of `hole` are at or above its
parent. -/
structure UpHole (key : ℕ → κ) (size hole : ℕ) : Prop where
  off : ∀ i, 0 < i → i < size → i ≠ hole → key (parent i) ≤ key i
  grand : 0 < hole → ∀ i, 0 < i → i < size → parent i = hole → key (parent hole) ≤ key i

/-- The order while a key moves away from the root: only the pairs of `hole`
and its children may be out of order, and those children are at or above the
parent of `hole`. -/
structure DownHole (key : ℕ → κ) (size hole : ℕ) : Prop where
  off : ∀ i, 0 < i → i < size → parent i ≠ hole → key (parent i) ≤ key i
  grand : 0 < hole → ∀ i, 0 < i → i < size → parent i = hole → key (parent hole) ≤ key i

theorem ordered_zero (key : ℕ → κ) : Ordered key 0 := fun _ _ h => absurd h (by omega)

/-- The root of an ordered tree has a least key. -/
theorem Ordered.root_le (h : Ordered key size) {i : ℕ} (hi : i < size) : key 0 ≤ key i := by
  induction i using Nat.strongRecOn with
  | ind i ih =>
    rcases Nat.eq_zero_or_pos i with rfl | hpos
    · exact le_rfl
    · have hlt := parent_lt hpos
      exact (ih (parent i) hlt (by omega)).trans (h i hpos hi)

/-! ### Towards the root -/

/-- Filling the first free cell leaves the order intact above it. -/
theorem Ordered.upHole_succ (h : Ordered key size) : UpHole key (size + 1) size where
  off i hpos hi hne := h i hpos (by omega)
  grand _ i hpos hi hparent := by
    have := parent_lt hpos
    omega

theorem UpHole.ordered (h : UpHole key size hole)
    (hstop : 0 < hole → key (parent hole) ≤ key hole) : Ordered key size := by
  intro i hpos hi
  by_cases hih : i = hole
  · subst hih
    exact hstop hpos
  · exact h.off i hpos hi hih

/-- A misplaced key below its parent is exchanged with it. -/
theorem UpHole.swap (h : UpHole key size hole) (hhole : 0 < hole) (hsize : hole < size)
    (hlt : key hole < key (parent hole)) :
    UpHole (swapCells key hole (parent hole)) size (parent hole) := by
  have hup := parent_lt hhole
  constructor
  · -- after the swap only the pair of the old parent and its own parent may be off
    intro i hpos hi hne
    by_cases hih : i = hole
    · subst hih
      simpa using hlt.le
    · rw [swapCells_of_ne key hih hne]
      by_cases hph : parent i = hole
      · rw [hph, swapCells_left]
        exact h.grand hhole i hpos hi hph
      · by_cases hpp : parent i = parent hole
        · -- the sibling now sits under the smaller key
          rw [hpp, swapCells_right]
          exact hlt.le.trans (hpp ▸ h.off i hpos hi hih)
        · rw [swapCells_of_ne key hph hpp]
          exact h.off i hpos hi hih
  · intro hpos i hipos hi hparent
    have habove := parent_lt hpos
    rw [swapCells_of_ne key (k := parent (parent hole)) (by omega) (by omega)]
    have hgrand := h.off (parent hole) hpos (by omega) (by omega)
    by_cases hih : i = hole
    · subst hih
      simpa using hgrand
    · have hip : i ≠ parent hole := by
        have := parent_lt hipos
        omega
      rw [swapCells_of_ne key hih hip]
      exact hgrand.trans (hparent ▸ h.off i hipos hi hih)

/-! ### Away from the root -/

/-- Replacing the root leaves the order intact below it. -/
theorem Ordered.downHole_root {key' : ℕ → κ} {size' : ℕ} (h : Ordered key size')
    (hsize : size ≤ size') (hkey : ∀ i, 0 < i → i < size → key' i = key i) :
    DownHole key' size 0 where
  off i hpos hi hparent := by
    have hlt := parent_lt hpos
    rw [hkey i hpos hi, hkey (parent i) (by omega) (by omega)]
    exact h i hpos (by omega)
  grand hpos := absurd hpos (by omega)

theorem DownHole.ordered (h : DownHole key size hole)
    (hstop : ∀ i, 0 < i → i < size → parent i = hole → key hole ≤ key i) : Ordered key size := by
  intro i hpos hi
  by_cases hparent : parent i = hole
  · rw [hparent]
    exact hstop i hpos hi hparent
  · exact h.off i hpos hi hparent

/-- A misplaced key above its least child is exchanged with it. -/
theorem DownHole.swap {child : ℕ} (h : DownHole key size hole) (hpos : 0 < child)
    (hchild : parent child = hole) (hsize : child < size) (hlt : key child < key hole)
    (hleast : ∀ i, 0 < i → i < size → parent i = hole → key child ≤ key i) :
    DownHole (swapCells key hole child) size child := by
  have hdown := parent_lt hpos
  constructor
  · intro i hipos hi hparent
    have hup := parent_lt hipos
    by_cases hih : i = hole
    · -- the least child moved up, and is at or above the parent of the hole
      subst hih
      rw [swapCells_left, swapCells_of_ne key (k := parent i) (by omega) (by omega)]
      exact h.grand hipos child hpos hsize hchild
    · by_cases hph : parent i = hole
      · rw [hph, swapCells_left]
        by_cases hic : i = child
        · subst hic
          simpa using hlt.le
        · rw [swapCells_of_ne key hih hic]
          exact hleast i hipos hi hph
      · have hic : i ≠ child := fun hic => hph (hic ▸ hchild)
        rw [swapCells_of_ne key hih hic, swapCells_of_ne key hph hparent]
        exact h.off i hipos hi hph
  · intro _ i hipos hi hparent
    have hup := parent_lt hipos
    rw [hchild, swapCells_left, swapCells_of_ne key (k := i) (by omega) (by omega), ← hparent]
    exact h.off i hipos hi (by omega)

end Math.HeapOrder
