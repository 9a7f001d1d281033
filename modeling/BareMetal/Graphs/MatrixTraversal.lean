import BareMetal.CS.Block
import BareMetal.CS.Loop
import BareMetal.Math.Region
import Mathlib.Combinatorics.SimpleGraph.Connectivity.Connected
import Mathlib.Data.Fin.VecNotation
import Mathlib.Data.Set.Card

/-!
# The islands of `matrix_traversal.c`

`numIslands` goes through a map of water (`0`) and land (`1`). Where it finds land it counts
an island, and `dfs_probe` floods it: the cells that have been visited are those that have
become water. The height and the width of the map are parameters, and so is the depth of the
recursion. Indices and the number of islands are `int`s: a map can be so large that there are more
islands than an `int` can count.

## Main results

* `dfsProbe_floods` — a probe floods the region of its cell
* `Counted.land` — on the map that is left this is an island
* `numIslands_exact` — the number of islands, when an `int` can hold it
* `checkerboard_overflows` — a map with more islands than that
-/

namespace BareMetal.MatrixTraversal

open CS Math Relation

variable {height width : ℕ}

/-- `int matrix[MATRIX_H][MATRIX_W]`. -/
abbrev Grid (height width : ℕ) := Block height (Block width ℤ)

/-- `matrix[h][w]`. -/
def Grid.cell (matrix : Grid height width) (h w : ℤ) : Outcome ℤ := do
  let row ← matrix.load h
  row.load w

/-- `matrix[h][w] = value`. -/
def Grid.setCell (matrix : Grid height width) (h w value : ℤ) : Outcome (Grid height width) := do
  let row ← matrix.load h
  let row ← row.store w value
  matrix.store h row

/-- `dfs_probe`, to a recursion depth of at most `fuel`. -/
def dfsProbe : ℕ → Grid height width → ℤ → ℤ → Outcome (Grid height width)
  | 0, _, _, _ => .error .outOfFuel
  | fuel + 1, matrix, h, w =>
    if h < 0 ∨ h ≥ height ∨ w < 0 ∨ w ≥ width then .ok matrix
    else do
      let value ← matrix.cell h w
      if value = 0 then .ok matrix
      else do
        let matrix ← matrix.setCell h w 0
        let up ← subInt h 1
        let matrix ← dfsProbe fuel matrix up w
        let down ← addInt h 1
        let matrix ← dfsProbe fuel matrix down w
        let left ← subInt w 1
        let matrix ← dfsProbe fuel matrix h left
        let right ← addInt w 1
        dfsProbe fuel matrix h right

/-- The body of the loops of `numIslands`: the map and `islands`. -/
def visitCell (h : ℕ) (state : Grid height width × ℤ) (w fuel : ℕ) :
    Outcome (Grid height width × ℤ) := do
  let value ← state.1.cell h w
  if value = 1 then do
    let islands ← addInt state.2 1
    let matrix ← dfsProbe fuel state.1 h w
    .ok (matrix, islands)
  else .ok state

/-- The inner loop of `numIslands`. After every pass its counter goes on. -/
def visitRow (state : Grid height width × ℤ) (h fuel : ℕ) : Outcome (Grid height width × ℤ) :=
  (List.range width).foldlM (fun state (w : ℕ) => do
    let state ← visitCell h state w fuel
    let _ ← addInt w 1
    .ok state) state

/-- `numIslands`: the map that is left, and the number of islands. -/
def numIslands (matrix : Grid height width) (fuel : ℕ) : Outcome (Grid height width × ℤ) :=
  (List.range height).foldlM (fun state (h : ℕ) => do
    let state ← visitRow state h fuel
    let _ ← addInt h 1
    .ok state) (matrix, 0)

/-! ### The map -/

/-- A cell of the map. -/
abbrev Cell (height width : ℕ) := Fin height × Fin width

/-- Up, down, left or right of each other. -/
def Adjacent (c d : Cell height width) : Prop :=
  ((c.1 : ℕ) + 1 = d.1 ∨ (d.1 : ℕ) + 1 = c.1) ∧ c.2 = d.2 ∨
    c.1 = d.1 ∧ ((c.2 : ℕ) + 1 = d.2 ∨ (d.2 : ℕ) + 1 = c.2)

theorem Adjacent.symm {c d : Cell height width} (h : Adjacent c d) : Adjacent d c := by
  rcases h with ⟨hrow, hcol⟩ | ⟨hrow, hcol⟩
  · exact Or.inl ⟨hrow.symm, hcol.symm⟩
  · exact Or.inr ⟨hrow.symm, hcol.symm⟩

theorem not_adjacent_self (c : Cell height width) : ¬ Adjacent c c := by
  unfold Adjacent
  omega

/-- The land and its adjacencies. -/
def landGraph (matrix : Grid height width) :
    SimpleGraph {c : Cell height width // matrix c.1 c.2 = 1} where
  Adj c d := Adjacent c.1 d.1
  symm := ⟨fun _ _ h => h.symm⟩
  loopless := ⟨fun c => not_adjacent_self c.1⟩

variable {matrix : Grid height width} {c d : Cell height width} {R S T V : Set (Cell height width)}
  {f g : ℕ → Grid height width → Outcome (Grid height width)} {h w : ℤ}

/-- The cells that a probe does not enter. -/
def water (matrix : Grid height width) : Set (Cell height width) := {c | matrix c.1 c.2 = 0}

open Classical in
/-- The map after the cells of `R` have been flooded. -/
noncomputable def clear (matrix : Grid height width) (R : Set (Cell height width)) :
    Grid height width := fun h w => if (h, w) ∈ R then 0 else matrix h w

/-- The cell with the given indices, if there is one. -/
def cellAt (h w : ℤ) : Set (Cell height width) := {c | ((c.1 : ℕ) : ℤ) = h ∧ ((c.2 : ℕ) : ℤ) = w}

@[simp] theorem clear_none (matrix : Grid height width) : clear matrix ∅ = matrix := by
  ext h w
  simp [clear]

@[simp] theorem clear_clear (matrix : Grid height width) (R S : Set (Cell height width)) :
    clear (clear matrix R) S = clear matrix (R ∪ S) := by
  ext h w
  by_cases hR : (h, w) ∈ R <;> by_cases hS : (h, w) ∈ S <;> simp [clear, hR, hS]

@[simp] theorem water_clear (matrix : Grid height width) (R : Set (Cell height width)) :
    water (clear matrix R) = water matrix ∪ R := by
  ext c
  by_cases hR : c ∈ R <;> simp [water, clear, hR]

@[simp] theorem cell_natCast (matrix : Grid height width) (c : Cell height width) :
    matrix.cell (c.1 : ℕ) (c.2 : ℕ) = .ok (matrix c.1 c.2) := by
  simp [Grid.cell]

@[simp] theorem setCell_natCast (matrix : Grid height width) (c : Cell height width) :
    matrix.setCell (c.1 : ℕ) (c.2 : ℕ) 0 = .ok (clear matrix {c}) := by
  have hclear : Function.update matrix c.1 (Function.update (matrix c.1) c.2 0) =
      clear matrix {c} := by
    ext h w
    rcases eq_or_ne h c.1 with rfl | hne
    · simp [clear, Function.update_apply, Prod.ext_iff]
    · simp [clear, hne, Prod.ext_iff]
  simp [Grid.setCell, hclear]

theorem cellAt_natCast (c : Cell height width) : cellAt (c.1 : ℕ) (c.2 : ℕ) = {c} := by
  ext d
  simp [cellAt, Prod.ext_iff, Fin.ext_iff]

/-- The four cells around a cell, as far as they are on the map. -/
theorem cellAt_around (c : Cell height width) :
    cellAt ((c.1 : ℕ) - 1) (c.2 : ℕ) ∪ (cellAt ((c.1 : ℕ) + 1) (c.2 : ℕ) ∪
        (cellAt (c.1 : ℕ) ((c.2 : ℕ) - 1) ∪ cellAt (c.1 : ℕ) ((c.2 : ℕ) + 1))) =
      {d | Adjacent c d} := by
  ext d
  simp only [cellAt, Adjacent, Set.mem_union, Set.mem_ofPred_eq, Fin.ext_iff]
  omega

/-! ### One probe -/

/-- On every map on which the cells of `V` are water, `f` floods what can be reached from `S`
over land. -/
def Floods (f : ℕ → Grid height width → Outcome (Grid height width))
    (S V : Set (Cell height width)) : Prop :=
  ∀ matrix, V ⊆ water matrix →
    Returns (fun fuel => f fuel matrix) (clear matrix (region Adjacent (water matrix) S))

/-- Two parts of a flood, the second on the map that the first has left. -/
theorem Floods.bind (hf : Floods f S V) (hg : Floods g T V) :
    Floods (fun fuel matrix => f fuel matrix >>= g fuel) (S ∪ T) V := by
  intro matrix hV
  have hV' : V ⊆ water (clear matrix (region Adjacent (water matrix) S)) := by
    rw [water_clear]
    exact hV.trans Set.subset_union_left
  have hrest := hg _ hV'
  rw [water_clear, clear_clear, union_region_union] at hrest
  exact (hf matrix hV).bind (g := fun matrix fuel => g fuel matrix) hrest

/-- The indices of the four neighbours of a cell are `int`s. -/
theorem around_fits (hheight : (height : ℤ) ≤ intMax) (hwidth : (width : ℤ) ≤ intMax)
    (c : Cell height width) :
    subInt ((c.1 : ℕ) : ℤ) 1 = .ok ((c.1 : ℕ) - 1) ∧
      addInt ((c.1 : ℕ) : ℤ) 1 = .ok ((c.1 : ℕ) + 1) ∧
      subInt ((c.2 : ℕ) : ℤ) 1 = .ok ((c.2 : ℕ) - 1) ∧
      addInt ((c.2 : ℕ) : ℤ) 1 = .ok ((c.2 : ℕ) + 1) := by
  have hrow := c.1.isLt
  have hcol := c.2.isLt
  exact ⟨subInt_one (by omega), addInt_one (by omega), subInt_one (by omega),
    addInt_one (by omega)⟩

/-- **A probe floods the region of its cell.** Every level of the recursion turns a cell into
water, so the induction is on the number of cells that may be land. -/
theorem dfsProbe_floods (hheight : (height : ℤ) ≤ intMax) (hwidth : (width : ℤ) ≤ intMax)
    (V : Set (Cell height width)) (h w : ℤ) :
    Floods (fun fuel matrix => dfsProbe fuel matrix h w) (cellAt h w) V := by
  induction hm : Set.ncard Vᶜ using Nat.strongRecOn generalizing V h w with
  | ind m ih =>
    intro matrix hV
    -- nothing happens outside the map and on water
    have hskip (hwater : cellAt h w ⊆ water matrix)
        (hpass : ∀ fuel, dfsProbe (fuel + 1) matrix h w = .ok matrix) :
        Returns (fun fuel => dfsProbe fuel matrix h w)
          (clear matrix (region Adjacent (water matrix) (cellAt h w))) := by
      have hok : Returns (fun _ => .ok matrix) matrix := .of_eq fun _ => rfl
      rw [region_eq_empty hwater, clear_none]
      exact hok.succ rfl hpass
    by_cases hout : h < 0 ∨ h ≥ height ∨ w < 0 ∨ w ≥ width
    · refine hskip (fun c hc => ?_) fun _ => by rw [dfsProbe, if_pos hout]
      obtain ⟨hrow, hcol⟩ := hc
      omega
    · obtain ⟨c, rfl, rfl⟩ : ∃ c : Cell height width, h = (c.1 : ℕ) ∧ w = (c.2 : ℕ) := by
        obtain ⟨i, hi⟩ : ∃ i : Fin height, h = (i : ℕ) := Block.exists_index (by omega) (by omega)
        obtain ⟨j, hj⟩ : ∃ j : Fin width, w = (j : ℕ) := Block.exists_index (by omega) (by omega)
        exact ⟨(i, j), hi, hj⟩
      by_cases hwater : c ∈ water matrix
      · refine hskip (by simpa [cellAt_natCast] using hwater) fun _ => ?_
        have hzero : matrix c.1 c.2 = 0 := hwater
        rw [dfsProbe, if_neg hout]
        simp [hzero]
      · have hzero : matrix c.1 c.2 ≠ 0 := hwater
        -- the calls find a map on which the cell has become water
        have hlt : Set.ncard (water matrix ∪ {c})ᶜ < m :=
          hm ▸ ncard_compl_lt (hV.trans Set.subset_union_left) (fun h => hwater (hV h)) (Or.inr rfl)
        have hcall (h w : ℤ) := ih _ hlt (water matrix ∪ {c}) h w rfl
        have hup := hcall ((c.1 : ℕ) - 1) (c.2 : ℕ)
        have hdown := hcall ((c.1 : ℕ) + 1) (c.2 : ℕ)
        have hleft := hcall (c.1 : ℕ) ((c.2 : ℕ) - 1)
        have hright := hcall (c.1 : ℕ) ((c.2 : ℕ) + 1)
        have hflood := hup.bind (hdown.bind (hleft.bind hright))
          (clear matrix {c}) (by rw [water_clear])
        rw [cellAt_around, water_clear, clear_clear, ← region_singleton hwater] at hflood
        rw [cellAt_natCast]
        obtain ⟨hsubRow, haddRow, hsubCol, haddCol⟩ := around_fits hheight hwidth c
        refine hflood.succ rfl fun fuel => ?_
        dsimp only
        rw [dfsProbe, if_neg hout]
        simp [hzero, hsubRow, haddRow, hsubCol, haddCol]

/-! ### The islands -/

variable {islands : Set (landGraph matrix).ConnectedComponent} {state : Grid height width × ℤ}
  {scanned : Set (Cell height width)}

instance : Finite (landGraph matrix).ConnectedComponent := Quot.finite _

/-- The island of a cell. -/
def island (matrix : Grid height width) (c : Cell height width) (hc : matrix c.1 c.2 = 1) :
    (landGraph matrix).ConnectedComponent :=
  (landGraph matrix).connectedComponentMk ⟨c, hc⟩

/-- The cells of some islands. -/
def cellsOf (islands : Set (landGraph matrix).ConnectedComponent) : Set (Cell height width) :=
  {c | ∃ hc : matrix c.1 c.2 = 1, island matrix c hc ∈ islands}

theorem island_eq_of_adjacent {hc : matrix c.1 c.2 = 1} {hd : matrix d.1 d.2 = 1}
    (h : Adjacent c d) : island matrix c hc = island matrix d hd := by
  apply SimpleGraph.ConnectedComponent.sound
  exact SimpleGraph.Adj.reachable (G := landGraph matrix) h

/-- On a map on which other islands have become water a probe floods the island of its cell. -/
theorem region_eq_island (hvalues : ∀ h w, matrix h w = 0 ∨ matrix h w = 1)
    (hc : matrix c.1 c.2 = 1) (hnew : island matrix c hc ∉ islands) :
    region Adjacent (water (clear matrix (cellsOf islands))) {c} =
      cellsOf {island matrix c hc} := by
  rw [water_clear]
  apply Set.Subset.antisymm
  · refine region_subset (fun b hb _ => ?_) fun b hb d hbd hd => ?_
    · rw [Set.mem_singleton_iff.mp hb]
      exact ⟨hc, rfl⟩
    · -- land beside a cell of the island belongs to it
      obtain ⟨hb, hisland⟩ := hb
      have hland : matrix d.1 d.2 = 1 :=
        (hvalues d.1 d.2).resolve_left fun hzero => hd (Or.inl hzero)
      exact ⟨hland, (island_eq_of_adjacent hbd).symm.trans hisland⟩
  · -- a cell of the island is reached over cells of the island, which are still land
    have hdry : ∀ d (hd : matrix d.1 d.2 = 1), island matrix d hd = island matrix c hc →
        d ∉ water matrix ∪ cellsOf islands := by
      rintro d hd heq (hwater | ⟨_, hmem⟩)
      · exact absurd (hwater.symm.trans hd) zero_ne_one
      · exact hnew (heq ▸ hmem)
    have hfound : ∀ d : {c : Cell height width // matrix c.1 c.2 = 1},
        ReflTransGen (landGraph matrix).Adj ⟨c, hc⟩ d →
          d.1 ∈ region Adjacent (water matrix ∪ cellsOf islands) {c} := by
      intro d hreach
      induction hreach with
      | refl => exact mem_region_of_mem rfl (hdry c hc rfl)
      | @tail b d hcb hbd ih =>
        have hreach := (SimpleGraph.reachable_iff_reflTransGen _ _).mpr (hcb.tail hbd)
        have hisland := SimpleGraph.ConnectedComponent.sound hreach.symm
        exact mem_region_of_step ih hbd (hdry d.1 d.2 hisland)
    rintro d ⟨hd, hisland⟩
    have hreach := (SimpleGraph.ConnectedComponent.exact (Set.mem_singleton_iff.mp hisland)).symm
    exact hfound ⟨d, hd⟩ ((SimpleGraph.reachable_iff_reflTransGen _ _).mp hreach)

/-- Some islands have been counted and have become water, and so have all cells that have been
looked at. -/
structure Counted (matrix : Grid height width) (state : Grid height width × ℤ)
    (islands : Set (landGraph matrix).ConnectedComponent) (scanned : Set (Cell height width)) :
    Prop where
  map_eq : state.1 = clear matrix (cellsOf islands)
  count_eq : state.2 = islands.ncard
  scanned_water : scanned ⊆ water state.1

/-- Every island has a cell, so there are no more islands than cells. -/
theorem card_islands_le (matrix : Grid height width) :
    Nat.card (landGraph matrix).ConnectedComponent ≤ height * width := by
  have hcells : Nat.card {c : Cell height width // matrix c.1 c.2 = 1} ≤
      Nat.card (Cell height width) := Nat.card_le_card_of_injective _ Subtype.val_injective
  have hislands := Nat.card_le_card_of_surjective (landGraph matrix).connectedComponentMk
    Quot.mk_surjective
  rw [Nat.card_prod, Nat.card_fin, Nat.card_fin] at hcells
  exact hislands.trans hcells

/-- There is one more island to count. -/
theorem Counted.room (h : Counted matrix state islands scanned)
    (hfits : (Nat.card (landGraph matrix).ConnectedComponent : ℤ) ≤ intMax)
    {hland : matrix c.1 c.2 = 1} (hnew : island matrix c hland ∉ islands) :
    addInt state.2 1 = .ok (state.2 + 1) := by
  have hlt : islands.ncard < Nat.card (landGraph matrix).ConnectedComponent :=
    Set.ncard_lt_card fun hall => hnew (hall ▸ Set.mem_univ _)
  rw [h.count_eq]
  exact addInt_one (by omega)

theorem counted_init (matrix : Grid height width) : Counted matrix (matrix, 0) ∅ ∅ where
  map_eq := by simp [cellsOf]
  count_eq := by simp
  scanned_water := Set.empty_subset _

theorem cellsOf_union (islands islands' : Set (landGraph matrix).ConnectedComponent) :
    cellsOf (islands ∪ islands') = cellsOf islands ∪ cellsOf islands' := by
  ext c
  simp [cellsOf, exists_or]

/-- Land that is left belongs to an island that has not been counted. -/
theorem Counted.land (h : Counted matrix state islands scanned) (hc : state.1 c.1 c.2 = 1) :
    ∃ hland : matrix c.1 c.2 = 1, island matrix c hland ∉ islands := by
  rw [h.map_eq] at hc
  by_cases hmem : c ∈ cellsOf islands
  · simp [clear, hmem] at hc
  · have hland : matrix c.1 c.2 = 1 := by simpa [clear, hmem] using hc
    exact ⟨hland, fun hisland => hmem ⟨hland, hisland⟩⟩

/-- What is not land has become water. -/
theorem Counted.mem_water (h : Counted matrix state islands scanned)
    (hvalues : ∀ h w, matrix h w = 0 ∨ matrix h w = 1) (hc : state.1 c.1 c.2 ≠ 1) :
    c ∈ water state.1 := by
  rw [h.map_eq] at hc ⊢
  rw [water_clear]
  by_cases hmem : c ∈ cellsOf islands
  · exact Or.inr hmem
  · exact Or.inl ((hvalues c.1 c.2).resolve_right fun hland => hc (by simp [clear, hmem, hland]))

/-- A new island is counted, and a probe turns it into water. -/
theorem Counted.found (h : Counted matrix state islands scanned)
    (hland : matrix c.1 c.2 = 1) (hnew : island matrix c hland ∉ islands) :
    Counted matrix (clear matrix (cellsOf (islands ∪ {island matrix c hland})), state.2 + 1)
      (islands ∪ {island matrix c hland}) (scanned ∪ {c}) where
  map_eq := rfl
  count_eq := by
    rw [Set.union_singleton, Set.ncard_insert_of_notMem hnew (Set.toFinite _), h.count_eq]
    push_cast
    rfl
  scanned_water := by
    have hold := h.scanned_water
    rw [h.map_eq, water_clear] at hold
    rw [water_clear, cellsOf_union, ← Set.union_assoc]
    exact Set.union_subset_union hold (Set.singleton_subset_iff.mpr ⟨hland, rfl⟩)

/-- A loop with an `int` counter over the indices below `n`, where every pass returns. -/
theorem returns_loop {n : ℕ} (hn : (n : ℤ) ≤ intMax)
    {pass : Grid height width × ℤ → ℕ → ℕ → Outcome (Grid height width × ℤ)}
    {P : ℕ → Grid height width × ℤ → Prop}
    (hpass : ∀ i < n, ∀ state, P i state → ∃ state', Returns (pass state i) state' ∧
      P (i + 1) state') (h : P 0 state) :
    ∃ state', Returns (fun fuel => (List.range n).foldlM (fun state (i : ℕ) => do
      let state ← pass state i fuel
      let _ ← addInt i 1
      .ok state) state) state' ∧ P n state' := by
  refine Returns.foldlM_range (fun i hi state hstate => ?_) h
  obtain ⟨state', hreturns, hnext⟩ := hpass i hi state hstate
  refine ⟨state', hreturns.bind (.of_eq fun _ => ?_), hnext⟩
  -- the counter never exceeds `n`
  rw [addInt_one (by omega), Outcome.ok_bind]

/-- A loop whose passes leave a number that an `int` can hold leaves such a number. -/
theorem count_le_of_loop {n : ℕ} {state' : Grid height width × ℤ}
    {pass : Grid height width × ℤ → ℕ → Outcome (Grid height width × ℤ)}
    (hpass : ∀ i state state', state.2 ≤ intMax → pass state i = .ok state' → state'.2 ≤ intMax)
    (hle : state.2 ≤ intMax)
    (hok : (List.range n).foldlM (fun state (i : ℕ) => do
      let state ← pass state i
      let _ ← addInt i 1
      .ok state) state = .ok state') : state'.2 ≤ intMax := by
  refine foldlM_invariant (P := fun _ (state : Grid height width × ℤ) => state.2 ≤ intMax)
    (fun pre i state state' hle hok => ?_) hle hok
  obtain ⟨state'', hstep, hok⟩ := Outcome.bind_eq_ok.mp hok
  obtain ⟨next, -, hok⟩ := Outcome.bind_eq_ok.mp hok
  cases hok
  exact hpass i _ _ hle hstep

section Scan

variable (hheight : (height : ℤ) ≤ intMax) (hwidth : (width : ℤ) ≤ intMax)
  (hfits : (Nat.card (landGraph matrix).ConnectedComponent : ℤ) ≤ intMax)

include hheight hwidth hfits

/-- One cell is looked at. -/
theorem Counted.visitCell (h : Counted matrix state islands scanned)
    (hvalues : ∀ h w, matrix h w = 0 ∨ matrix h w = 1) (c : Cell height width) :
    ∃ state' islands', Returns (visitCell (c.1 : ℕ) state (c.2 : ℕ)) state' ∧
      Counted matrix state' islands' (scanned ∪ {c}) := by
  by_cases hone : state.1 c.1 c.2 = 1
  · obtain ⟨hland, hnew⟩ := h.land hone
    -- the probe floods just this island
    have hflood := dfsProbe_floods hheight hwidth ∅ (c.1 : ℕ) (c.2 : ℕ) state.1
      (Set.empty_subset _)
    have hcleared : clear state.1 (region Adjacent (water state.1) (cellAt (c.1 : ℕ) (c.2 : ℕ))) =
        clear matrix (cellsOf (islands ∪ {island matrix c hland})) := by
      rw [cellAt_natCast, h.map_eq, region_eq_island hvalues hland hnew, clear_clear, cellsOf_union]
    rw [hcleared] at hflood
    have hreturns := hflood.map fun matrix => (matrix, state.2 + 1)
    refine ⟨_, _, hreturns.congr fun _ => ?_, h.found hland hnew⟩
    simp [MatrixTraversal.visitCell, hone, h.room hfits hnew]
  · refine ⟨state, islands, .of_eq fun _ => ?_, h.map_eq, h.count_eq, ?_⟩
    · simp [MatrixTraversal.visitCell, hone]
    · exact Set.union_subset h.scanned_water
        (Set.singleton_subset_iff.mpr (h.mem_water hvalues hone))

/-- One row is looked at. -/
theorem Counted.visitRow (h : Counted matrix state islands scanned)
    (hvalues : ∀ h w, matrix h w = 0 ∨ matrix h w = 1) (row : Fin height) :
    ∃ state' islands', Returns (visitRow state (row : ℕ)) state' ∧
      Counted matrix state' islands' (scanned ∪ {c | c.1 = row}) := by
  -- what holds when the columns below `w` have been looked at
  let P (w : ℕ) (state : Grid height width × ℤ) : Prop := ∃ islands,
    Counted matrix state islands (scanned ∪ {c | c.1 = row ∧ (c.2 : ℕ) < w})
  have hpass : ∀ w < width, ∀ state, P w state →
      ∃ state', Returns (MatrixTraversal.visitCell (row : ℕ) state w) state' ∧
        P (w + 1) state' := by
    rintro w hw state ⟨islands, h⟩
    obtain ⟨state', islands', hreturns, h'⟩ :=
      h.visitCell hheight hwidth hfits hvalues (row, ⟨w, hw⟩)
    have hset : scanned ∪ {c : Cell height width | c.1 = row ∧ (c.2 : ℕ) < w + 1} =
        scanned ∪ {c | c.1 = row ∧ (c.2 : ℕ) < w} ∪ {(row, ⟨w, hw⟩)} := by
      ext c
      simp only [Set.mem_union, Set.mem_ofPred_eq, Set.mem_singleton_iff, Nat.lt_succ_iff_lt_or_eq,
        Prod.ext_iff, Fin.ext_iff]
      tauto
    exact ⟨state', hreturns, islands', hset ▸ h'⟩
  have hstart : P 0 state := ⟨islands, by simpa using h⟩
  obtain ⟨state', hreturns, islands', h'⟩ := returns_loop hwidth hpass hstart
  exact ⟨state', islands', hreturns, by simpa using h'⟩

omit hheight hwidth hfits in
/-- When all cells have been looked at, all islands have been counted. -/
theorem Counted.complete (h : Counted matrix state islands Set.univ) :
    state = (fun _ _ => 0, (Nat.card (landGraph matrix).ConnectedComponent : ℤ)) := by
  have hwater := h.scanned_water
  rw [h.map_eq, water_clear] at hwater
  -- a cell of an island that was not counted would still be land
  have hall : islands = Set.univ := by
    refine Set.eq_univ_of_forall fun k => ?_
    induction k using SimpleGraph.ConnectedComponent.ind with
    | h c =>
      rcases hwater (Set.mem_univ c.1) with hzero | ⟨_, hmem⟩
      · exact absurd (hzero.symm.trans c.2) zero_ne_one
      · exact hmem
  have hmap : state.1 = fun _ _ => 0 := by
    ext row col
    exact h.scanned_water (Set.mem_univ (row, col))
  refine Prod.ext hmap ?_
  rw [h.count_eq, hall, Set.ncard_univ]

/-- The islands are counted when an `int` can hold their number. -/
theorem returns_numIslands (hvalues : ∀ h w, matrix h w = 0 ∨ matrix h w = 1) :
    Returns (numIslands matrix)
      (fun _ _ => 0, (Nat.card (landGraph matrix).ConnectedComponent : ℤ)) := by
  -- what holds when the rows below `h` have been looked at
  let P (h : ℕ) (state : Grid height width × ℤ) : Prop := ∃ islands,
    Counted matrix state islands {c | (c.1 : ℕ) < h}
  have hpass : ∀ h < height, ∀ state, P h state →
      ∃ state', Returns (visitRow state h) state' ∧ P (h + 1) state' := by
    rintro row hrow state ⟨islands, h⟩
    obtain ⟨state', islands', hreturns, h'⟩ :=
      h.visitRow hheight hwidth hfits hvalues ⟨row, hrow⟩
    have hset : {c : Cell height width | (c.1 : ℕ) < row + 1} =
        {c | (c.1 : ℕ) < row} ∪ {c | c.1 = ⟨row, hrow⟩} := by
      ext c
      simp only [Set.mem_union, Set.mem_ofPred_eq, Fin.ext_iff, Nat.lt_succ_iff_lt_or_eq]
    exact ⟨state', hreturns, islands', hset ▸ h'⟩
  have hstart : P 0 (matrix, 0) := ⟨∅, by simpa using counted_init matrix⟩
  obtain ⟨state, hreturns, islands, h⟩ := returns_loop hheight hpass hstart
  have hall : {c : Cell height width | (c.1 : ℕ) < height} = Set.univ := by
    ext c
    simp
  rw [hall] at h
  rwa [h.complete] at hreturns

end Scan

/-! ### More islands than an `int` can count -/

/-- A pass leaves a number that an `int` can hold. -/
theorem count_le_of_visitCell {i j fuel : ℕ} {state' : Grid height width × ℤ}
    (hle : state.2 ≤ intMax) (hok : visitCell i state j fuel = .ok state') : state'.2 ≤ intMax := by
  obtain ⟨value, -, hok⟩ := Outcome.bind_eq_ok.mp hok
  split_ifs at hok
  · obtain ⟨islands, hadd, hok⟩ := Outcome.bind_eq_ok.mp hok
    obtain ⟨matrix, -, hok⟩ := Outcome.bind_eq_ok.mp hok
    cases hok
    obtain ⟨rfl, hmax⟩ := of_addInt_eq_ok hadd
    exact hmax
  · cases hok
    exact hle

theorem count_le_of_visitRow {i fuel : ℕ} {state' : Grid height width × ℤ}
    (hle : state.2 ≤ intMax) (hok : visitRow state i fuel = .ok state') : state'.2 ≤ intMax :=
  count_le_of_loop (fun _ _ _ => count_le_of_visitCell) hle hok

/-- What `numIslands` returns is an `int`. -/
theorem count_le_of_numIslands {fuel : ℕ} (hok : numIslands matrix fuel = .ok state) :
    state.2 ≤ intMax :=
  count_le_of_loop (fun _ _ _ => count_le_of_visitRow) (by decide : (0 : ℤ) ≤ intMax) hok

theorem card_le_of_returns {zeros : Grid height width}
    (hreturns : Returns (numIslands matrix)
      (zeros, (Nat.card (landGraph matrix).ConnectedComponent : ℤ))) :
    (Nat.card (landGraph matrix).ConnectedComponent : ℤ) ≤ intMax := by
  obtain ⟨fuel, hok⟩ := hreturns.exists_ok
  exact count_le_of_numIslands hok

/-- **The number of islands is exact.** On every map of zeros and ones, of any height and width
that an index can have, `numIslands` terminates, returns the number of connected components of the
ones and leaves zeros only, exactly when an `int` can hold that number. It can when it can hold
the number of the cells. -/
theorem numIslands_exact (hheight : (height : ℤ) ≤ intMax) (hwidth : (width : ℤ) ≤ intMax)
    (matrix : Grid height width) (hvalues : ∀ h w, matrix h w = 0 ∨ matrix h w = 1) :
    (Returns (numIslands matrix)
        (fun _ _ => 0, (Nat.card (landGraph matrix).ConnectedComponent : ℤ)) ↔
      (Nat.card (landGraph matrix).ConnectedComponent : ℤ) ≤ intMax) ∧
    (((height * width : ℕ) : ℤ) ≤ intMax →
      (Nat.card (landGraph matrix).ConnectedComponent : ℤ) ≤ intMax) := by
  refine ⟨⟨card_le_of_returns, fun hfits => returns_numIslands hheight hwidth hfits hvalues⟩,
    fun hcells => ?_⟩
  have hislands := card_islands_le matrix
  omega

/-- The map of `main`. -/
def mainMatrix : Grid 4 5 := ![
  ![1, 1, 0, 0, 0],
  ![1, 1, 0, 0, 0],
  ![0, 0, 1, 0, 0],
  ![0, 0, 0, 1, 1]]

/-- The map of `main` has three islands. -/
theorem numIslands_exact_main : Returns (numIslands mainMatrix) (fun _ _ => 0, 3) := by
  obtain ⟨hexact, hfits⟩ := numIslands_exact (by decide) (by decide) mainMatrix (by decide)
  have hreturns := hexact.mpr (hfits (by decide))
  have hrun : (numIslands mainMatrix 5).toOption.map Prod.snd = some 3 := by decide
  cases hok : numIslands mainMatrix 5 with
  | error e =>
    rw [hok] at hrun
    cases hrun
  | ok state =>
    rw [hok, hreturns.eq_of_ok hok] at hrun
    have hthree : (Nat.card (landGraph mainMatrix).ConnectedComponent : ℤ) = 3 :=
      Option.some.inj hrun
    rwa [hthree] at hreturns

/-- A map on which no two cells of land are adjacent. -/
def checkerboard : Grid 131072 131072 := fun h w => if ((h : ℕ) + w) % 2 = 0 then 1 else 0

/-- A cell of land in the row `p.1`. -/
def whiteCell (p : Fin 131072 × Fin 65536) : Cell 131072 131072 :=
  (p.1, ⟨2 * p.2 + (p.1 : ℕ) % 2, by omega⟩)

theorem checkerboard_whiteCell (p : Fin 131072 × Fin 65536) :
    checkerboard (whiteCell p).1 (whiteCell p).2 = 1 := by
  unfold checkerboard whiteCell
  exact if_pos (by dsimp only; omega)

/-- Every cell of land is an island. -/
theorem not_adj_checkerboard (c d : {c : Cell 131072 131072 // checkerboard c.1 c.2 = 1}) :
    ¬ (landGraph checkerboard).Adj c d := by
  have heven : ∀ c : {c : Cell 131072 131072 // checkerboard c.1 c.2 = 1},
      ((c.1.1 : ℕ) + c.1.2) % 2 = 0 := by
    intro c
    by_contra hodd
    have hland := c.2
    rw [checkerboard, if_neg hodd] at hland
    cases hland
  have hc := heven c
  have hd := heven d
  intro hadj
  have hadj' : Adjacent c.1 d.1 := hadj
  unfold Adjacent at hadj'
  omega

/-- The map has `2 ^ 33` islands, and `islands` leaves the range of an `int`. -/
theorem checkerboard_overflows :
    (∀ h w, checkerboard h w = 0 ∨ checkerboard h w = 1) ∧
      ¬ Returns (numIslands checkerboard)
        (fun _ _ => 0, (Nat.card (landGraph checkerboard).ConnectedComponent : ℤ)) := by
  refine ⟨fun h w => ?_, fun hreturns => ?_⟩
  · unfold checkerboard
    split_ifs
    · exact Or.inr rfl
    · exact Or.inl rfl
  -- half of the cells are islands of one cell each
  · have hinjective : Function.Injective fun p => island checkerboard (whiteCell p)
        (checkerboard_whiteCell p) := by
      intro p q heq
      have hreach := (SimpleGraph.reachable_iff_reflTransGen _ _).mp
        (SimpleGraph.ConnectedComponent.exact heq)
      rcases hreach.cases_head with hsame | ⟨d, hadj, -⟩
      · have hcell : whiteCell p = whiteCell q := congrArg Subtype.val hsame
        simp only [whiteCell, Prod.mk.injEq, Fin.mk.injEq] at hcell
        obtain ⟨hrow, hcol⟩ := hcell
        rw [hrow] at hcol
        exact Prod.ext hrow (Fin.ext (by omega))
      · exact absurd hadj (not_adj_checkerboard _ _)
    have hmany := Nat.card_le_card_of_injective _ hinjective
    rw [Nat.card_prod, Nat.card_fin, Nat.card_fin] at hmany
    have hmax := card_le_of_returns hreturns
    unfold intMax at hmax
    omega

end BareMetal.MatrixTraversal
