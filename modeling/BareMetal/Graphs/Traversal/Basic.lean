import BareMetal.CS.Block
import Mathlib.Data.Fin.VecNotation
import Mathlib.Data.Int.Cast.Basic
import Mathlib.Data.List.Nodup
import Mathlib.Logic.Relation

/-!
# The adjacency matrix of `BFS_and_DFS.c`

Both traversals go through the neighbours `1`, …, `matrix_size - 1` of a vertex. A start
vertex may lie outside this range, so that it is no neighbour of any vertex. The matrix has
`n` rows and columns for the seven of the source.
-/

namespace BareMetal.Traversal

open CS

variable {n : ℕ}

/-- `int matrix[7][7]`. -/
abbrev Adjacency (n : ℕ) := Block n (Block n ℤ)

/-- `matrix[i][j]`. -/
def Adjacency.entry (matrix : Adjacency n) (i j : ℤ) : Outcome ℤ := do
  let row ← matrix.load i
  row.load j

/-- The values of `j` in `for(int j = 1; j < matrix_size; j++)`. -/
def neighbours (matrixSize : ℤ) : List ℤ :=
  (List.range (matrixSize.toNat - 1)).map fun k : ℕ => (k : ℤ) + 1

/-- A traversal can go from `i` to `j`. -/
def Edge (matrix : Adjacency n) (matrixSize : ℤ) (i j : Fin n) : Prop :=
  matrix i j = 1 ∧ 1 ≤ (j : ℕ) ∧ ((j : ℕ) : ℤ) < matrixSize

instance (matrix : Adjacency n) (matrixSize : ℤ) (i j : Fin n) :
    Decidable (Edge matrix matrixSize i j) :=
  inferInstanceAs (Decidable (_ ∧ _))

/-- The vertices as they are printed. -/
def labels (order : List (Fin n)) : List ℤ := order.map fun v : Fin n => ((v : ℕ) : ℤ)

/-- The graph of `main`. -/
def mainMatrix : Adjacency 7 := ![
  ![0, 0, 0, 0, 0, 0, 0],
  ![0, 0, 1, 1, 0, 0, 0],
  ![0, 1, 0, 0, 1, 0, 0],
  ![0, 1, 0, 0, 1, 0, 0],
  ![0, 0, 1, 1, 0, 1, 1],
  ![0, 0, 0, 0, 1, 0, 0],
  ![0, 0, 0, 0, 1, 0, 0]]

variable {matrix : Adjacency n} {matrixSize j : ℤ} {order : List (Fin n)} {v w : Fin n}

theorem mem_neighbours : j ∈ neighbours matrixSize ↔ 1 ≤ j ∧ j < matrixSize := by
  simp only [neighbours, List.mem_map, List.mem_range]
  constructor
  · rintro ⟨k, hk, rfl⟩
    omega
  · intro hj
    exact ⟨j.toNat - 1, by omega, by omega⟩

/-- With a matrix that is large enough a neighbour is a vertex. -/
theorem exists_vertex (hsize : matrixSize ≤ n) (hj : j ∈ neighbours matrixSize) :
    ∃ v : Fin n, j = (v : ℕ) := by
  obtain ⟨hpos, hlt⟩ := mem_neighbours.mp hj
  exact Block.exists_index (by omega) (by omega)

theorem edge_iff : Edge matrix matrixSize v w ↔
    matrix v w = 1 ∧ ((w : ℕ) : ℤ) ∈ neighbours matrixSize := by
  rw [mem_neighbours]
  exact and_congr_right fun _ => and_congr_left fun _ => ⟨fun h => by omega, fun h => by omega⟩

@[simp] theorem entry_natCast (matrix : Adjacency n) (v w : Fin n) :
    matrix.entry (v : ℕ) (w : ℕ) = .ok (matrix v w) := by
  simp [Adjacency.entry]

@[simp] theorem labels_append (xs ys : List (Fin n)) :
    labels (xs ++ ys) = labels xs ++ labels ys := List.map_append

@[simp] theorem mem_labels : ((v : ℕ) : ℤ) ∈ labels order ↔ v ∈ order := by
  simp only [labels, List.mem_map, Int.natCast_inj, Fin.val_inj, exists_eq_right]

theorem label_injective : Function.Injective fun v : Fin n => ((v : ℕ) : ℤ) :=
  fun _ _ heq => Fin.ext (Int.natCast_inj.mp heq)

theorem labels_injective : Function.Injective (labels (n := n)) :=
  List.map_injective_iff.mpr label_injective

theorem nodup_labels (h : order.Nodup) : (labels order).Nodup :=
  List.Nodup.map label_injective h

/-- Two orders with the same vertices print the same. -/
theorem mem_labels_congr_iff {order' : List (Fin n)} :
    (∀ j, j ∈ labels order ↔ j ∈ labels order') ↔ ∀ v, v ∈ order ↔ v ∈ order' := by
  constructor
  · intro h v
    simpa using h ((v : ℕ) : ℤ)
  · intro h j
    simp only [labels, List.mem_map, h]

end BareMetal.Traversal
