import BareMetal.CS.Chains

/-!
# Lists whose values are read through a map

The cells of a heap may hold pointers where a model of the same program has what they point to.
`Heap.mapValues f` is the heap of such a model: every value is read by `f`, and the cells are
linked as they were.

## Main results

* `linkLast_mapValues` — a walk to the end does the same on both heaps
* `Chains.of_mapValues` — the lists of the model are lists of the heap itself
-/

namespace CS.LinkedList

variable {ι : Type*} {α γ : Type} {f g : α → γ} {heap heap' : Heap α} {node : Node α} {a : ℕ}
  {p : Option ℕ}

/-- The cell with another value. -/
def Node.mapValue (f : α → γ) (node : Node α) : Node γ := ⟨f node.value, node.next⟩

/-- Every value is read by `f`. -/
def Heap.mapValues (f : α → γ) (heap : Heap α) : Heap γ := fun a => (heap a).map (Node.mapValue f)

theorem mapValues_some (f : α → γ) (h : heap a = some node) :
    heap.mapValues f a = some (node.mapValue f) := by
  rw [Heap.mapValues, h, Option.map_some]

theorem mapValues_none (f : α → γ) (h : heap a = none) : heap.mapValues f a = none := by
  rw [Heap.mapValues, h, Option.map_none]

theorem exists_of_mapValues {node' : Node γ} (h : heap.mapValues f a = some node') :
    ∃ node, heap a = some node ∧ node.mapValue f = node' :=
  Option.map_eq_some_iff.mp h

theorem mapValues_update (f : α → γ) (heap : Heap α) (a : ℕ) (cell : Option (Node α)) :
    Heap.mapValues f (Function.update heap a cell) =
      Function.update (heap.mapValues f) a (cell.map (Node.mapValue f)) := by
  funext b
  rcases eq_or_ne b a with rfl | hne
  · rw [Heap.mapValues, Function.update_self, Function.update_self]
  · rw [Heap.mapValues, Function.update_of_ne hne, Function.update_of_ne hne, Heap.mapValues]

theorem mapValues_alloc (f : α → γ) (heap : Heap α) (a : ℕ) (v : α) :
    (heap.alloc a v).mapValues f = (heap.mapValues f).alloc a (f v) :=
  mapValues_update f heap a _

/-- Maps that agree on the values that are there. -/
theorem mapValues_congr (h : ∀ a node, heap a = some node → f node.value = g node.value) :
    heap.mapValues f = heap.mapValues g := by
  funext a
  cases hcell : heap a with
  | none => rw [mapValues_none f hcell, mapValues_none g hcell]
  | some node =>
    rw [mapValues_some f hcell, mapValues_some g hcell, Node.mapValue, Node.mapValue,
      h a node hcell]

/-! ### Walks -/

/-- A walk to the end does not look at the values. -/
theorem lastPass_mapValues (f : α → γ) (heap : Heap α) :
    lastPass (heap.mapValues f) = lastPass heap := by
  funext current
  cases hcell : heap current with
  | none =>
    have hmapped := mapValues_none f hcell
    simp only [lastPass, Heap.load, hcell, hmapped, Outcome.error_bind]
  | some node =>
    rw [lastPass, lastPass, Heap.load_some hcell, Heap.load_some (mapValues_some f hcell)]
    rfl

/-- What links a cell behind the last one does so in the model. -/
theorem linkLast_mapValues (f : α → γ) {head : Option ℕ} {fuel : ℕ}
    (hok : linkLast heap head a fuel = .ok (heap', p)) :
    linkLast (heap.mapValues f) head a fuel = .ok (heap'.mapValues f, p) := by
  cases head with
  | none =>
    cases hok
    rfl
  | some current =>
    obtain ⟨last, hlast, hok⟩ := Outcome.bind_eq_ok.mp hok
    obtain ⟨node, hload, hok⟩ := Outcome.bind_eq_ok.mp hok
    obtain ⟨_, heq, hcell⟩ := Heap.exists_of_load hload
    cases heq
    rw [Heap.store_some hcell, Outcome.ok_bind] at hok
    cases hok
    have hmapped := mapValues_some f hcell
    rw [linkLast, lastPass_mapValues, hlast, Outcome.ok_bind, Heap.load_some hmapped,
      Outcome.ok_bind, Heap.store_some hmapped, mapValues_update]
    rfl

/-- Linking changes no value. -/
theorem values_linkLast {head : Option ℕ} {fuel : ℕ}
    (hok : linkLast heap head a fuel = .ok (heap', p)) (b : ℕ) :
    (heap' b).map Node.value = (heap b).map Node.value := by
  cases head with
  | none =>
    cases hok
    rfl
  | some current =>
    obtain ⟨last, -, hok⟩ := Outcome.bind_eq_ok.mp hok
    obtain ⟨node, hload, hok⟩ := Outcome.bind_eq_ok.mp hok
    obtain ⟨_, heq, hcell⟩ := Heap.exists_of_load hload
    cases heq
    rw [Heap.store_some hcell, Outcome.ok_bind] at hok
    cases hok
    rcases eq_or_ne b last with rfl | hne
    · rw [Function.update_self, hcell]
      rfl
    · rw [Function.update_of_ne hne]

/-! ### Lists -/

/-- The cells of a list, with their values read by `f`. -/
def mapNodes (f : α → γ) (nodes : List (ℕ × α)) : List (ℕ × γ) :=
  nodes.map fun node => (node.1, f node.2)

@[simp] theorem addresses_mapNodes (f : α → γ) (nodes : List (ℕ × α)) :
    addresses (mapNodes f nodes) = addresses nodes := by
  rw [addresses, mapNodes, List.map_map]
  rfl

/-- A list of the model is a list of the heap. -/
theorem Chain.of_mapValues {nodes : List (ℕ × γ)} (h : Chain (heap.mapValues f) nodes) :
    ∃ cells, mapNodes f cells = nodes ∧ Chain heap cells := by
  induction nodes with
  | nil => exact ⟨[], rfl, trivial⟩
  | cons x rest ih =>
    obtain ⟨a, v⟩ := x
    obtain ⟨cells, rfl, hcells⟩ := ih h.2
    obtain ⟨⟨value, next⟩, hcell, hvalue⟩ := exists_of_mapValues h.1
    obtain ⟨hv, hnext⟩ := Node.mk.inj hvalue
    refine ⟨(a, value) :: cells, ?_, ?_, hcells⟩
    · rw [← hv]
      rfl
    · rw [hcell]
      dsimp only at hnext
      rw [hnext, first, addresses_mapNodes]
      rfl

theorem Chains.of_mapValues {heads : ι → Option ℕ} {lists : ι → List (ℕ × γ)}
    (h : Chains (heap.mapValues f) heads lists) :
    ∃ cells, (∀ i, mapNodes f (cells i) = lists i) ∧ Chains heap heads cells := by
  choose cells hcells hchain using fun i => (h.holds i).chain.of_mapValues
  have haddresses (i : ι) : addresses (lists i) = addresses (cells i) := by
    rw [← hcells i, addresses_mapNodes]
  refine ⟨cells, hcells, fun i => ⟨?_, rfl, hchain i, ?_⟩, fun i j hij => ?_⟩
  · exact (h.head_eq i).trans (by rw [first, first, haddresses])
  · exact haddresses i ▸ (h.holds i).nodup
  · have hdisjoint := h.disjoint i j hij
    rwa [haddresses, haddresses] at hdisjoint

end CS.LinkedList
