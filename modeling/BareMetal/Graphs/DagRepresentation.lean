import BareMetal.CS.Block
import BareMetal.CS.Calls
import BareMetal.CS.Chains
import Mathlib.Data.List.Perm.Subperm
import Mathlib.Data.List.Range

/-!
# The adjacency lists of `graphs/DAG_representation.c`

`add_vertex` puts a vertex into the slot that its caller names and counts it. `add_edge` puts a
cell at the end of the list in a slot. `DFS` and `free_dag` go through as many slots as there are
vertices, from the first slot on.

## Main results

* `Holds.dfs`, `Holds.freeDag` — what is printed and what is freed
* `covered_iff` — all of the graph is printed and freed exactly when the vertices are in the
  first slots
-/

namespace BareMetal.DagRepresentation

open CS LinkedList

/-- `DEFAULT_CAPACITY`. -/
abbrev defaultCapacity : ℕ := 4

/-- `DAG_TYPE`. -/
def dagType : ℤ := 0

/-- `VERTEX_TYPE`. -/
def vertexType : ℤ := 1

/-- The cells in memory and `struct DAG`, and the number of calls of `malloc` for cells. -/
structure Dag where
  heap : Heap ℤ
  vertex : Block defaultCapacity (Option ℕ)
  count : ℤ
  allocated : ℕ

/-- `handle_error`. -/
def handleError (type : ℤ) : Stop :=
  .exit 1 (if type = dagType then "DAG could not be allocated\n"
    else if type = vertexType then "Vertex could not be allocated\n" else "Unsupported type\n")

/-- `check_alloc`. -/
def checkAlloc (p : Option ℕ) (type : ℤ) : Outcome Unit :=
  if type = dagType ∨ type = vertexType then
    if p = none then .error (handleError type) else .ok ()
  else .error (handleError (-1))

/-- `init_dag`. -/
def initDag : Dag := ⟨fun _ => none, fun _ => none, 0, 0⟩

/-- `add_vertex`, with the pointer that `malloc` returns. -/
def addVertex (dag : Dag) (vertex : Option ℕ) (vertexIdx value : ℤ) : Outcome Dag :=
  if dag.count + 1 > defaultCapacity then .error (.exit 1 "Max capacity reached\n")
  else do
    checkAlloc vertex vertexType
    match vertex with
    | none => .error (.outOfBounds 0)
    | some a => do
      let next ← dag.vertex.load vertexIdx
      let slots ← dag.vertex.store vertexIdx (some a)
      .ok
        { heap := Function.update dag.heap a (some ⟨value, next⟩)
          vertex := slots
          count := dag.count + 1
          allocated := dag.allocated + 1 }

/-- `add_edge`, with the pointer that `malloc` returns. It reads through the pointer in the slot
without a test. -/
def addEdge (dag : Dag) (newEdge : Option ℕ) (sourceVertex destinationVertex : ℤ) (fuel : ℕ) :
    Outcome Dag :=
  if sourceVertex ≥ defaultCapacity ∨ sourceVertex < 0 then
    .error (.exit 1 "Vertex index out of bound, max idx allowed is 3\n")
  else
    match newEdge with
    | none => .error (.outOfBounds 0)
    | some a => do
      let head ← dag.vertex.load sourceVertex
      match head with
      | none => .error (.outOfBounds 0)
      | some head => do
        let (heap, _) ← linkLast (dag.heap.alloc a destinationVertex) (some head) a fuel
        .ok { dag with heap := heap, allocated := dag.allocated + 1 }

/-- `DFS`, with the numbers on each line that it prints. An arrow follows every number. -/
def dfs (dag : Dag) (fuel : ℕ) : Outcome (List (List ℤ)) :=
  (List.range dag.count.toNat).foldlM (fun lines (i : ℕ) => do
    let current ← dag.vertex.load i
    let line ← values dag.heap current fuel
    .ok (lines ++ [line])) []

/-- `free_dag`, with the cells that it leaves. -/
def freeDag (dag : Dag) (fuel : ℕ) : Outcome (Heap ℤ) :=
  (List.range dag.count.toNat).foldlM (fun heap (i : ℕ) => do
    let current ← dag.vertex.load i
    freeAll heap current fuel) dag.heap

/-! ### Sequences of calls -/

/-- A call with its arguments. -/
inductive Call
  | addVertex (vertexIdx value : ℤ)
  | addEdge (sourceVertex destinationVertex : ℤ)
  deriving DecidableEq, Repr

/-- One call. The pointers that `malloc` returns are all different. -/
def perform (malloc : ℕ ↪ ℕ) (dag : Dag) (call : Call) (fuel : ℕ) : Outcome Dag :=
  match call with
  | .addVertex vertexIdx value =>
    DagRepresentation.addVertex dag (some (malloc dag.allocated)) vertexIdx value
  | .addEdge sourceVertex destinationVertex =>
    DagRepresentation.addEdge dag (some (malloc dag.allocated)) sourceVertex destinationVertex fuel

/-- All calls, on a new graph. -/
def run (malloc : ℕ ↪ ℕ) (calls : List Call) (fuel : ℕ) : Outcome Dag :=
  calls.foldlM (fun dag call => perform malloc dag call fuel) initDag

/-- The index of a vertex that is added. -/
def Call.vertexIdx? : Call → Option ℤ
  | .addVertex vertexIdx _ => some vertexIdx
  | .addEdge .. => none

/-- What a call puts into the list of a vertex. -/
def Call.entry? (i : ℤ) : Call → Option ℤ
  | .addVertex vertexIdx value => if vertexIdx = i then some value else none
  | .addEdge sourceVertex destinationVertex =>
    if sourceVertex = i then some destinationVertex else none

/-- The vertices in the order of the calls. -/
def vertices (calls : List Call) : List ℤ := calls.filterMap Call.vertexIdx?

/-- A vertex and its edges in the order of the calls. -/
def row (calls : List Call) (i : ℤ) : List ℤ := calls.filterMap (Call.entry? i)

/-- A vertex is added once and has a slot, and an edge begins at a vertex that has been added. -/
def WellFormed (pre : List Call) : Call → Prop
  | .addVertex vertexIdx _ =>
    0 ≤ vertexIdx ∧ vertexIdx < defaultCapacity ∧ vertexIdx ∉ vertices pre
  | .addEdge sourceVertex _ => sourceVertex ∈ vertices pre

/-- `DFS` prints every vertex, followed by its edges, on one line. -/
def PrintsAll (calls : List Call) (dag : Dag) : Prop :=
  ∃ lines, Returns (dfs dag) lines ∧
    (lines.filter (· ≠ [])).Perm ((vertices calls).map (row calls))

/-- `free_dag` leaves no cell. That no cell is freed twice is a part of returning. -/
def FreesAll (dag : Dag) : Prop := ∃ heap, Returns (freeDag dag) heap ∧ ∀ a, heap a = none

variable {malloc : ℕ ↪ ℕ} {dag : Dag} {calls : List Call} {call : Call} {i : ℤ}

/-! ### The vertices -/

theorem vertices_concat (calls : List Call) (call : Call) :
    vertices (calls ++ [call]) = vertices calls ++ call.vertexIdx?.toList := by
  rw [vertices, List.filterMap_append]
  cases call <;> rfl

theorem row_concat (calls : List Call) (call : Call) (i : ℤ) :
    row (calls ++ [call]) i = row calls i ++ (call.entry? i).toList := by
  rw [row, List.filterMap_append, List.filterMap_cons]
  cases call.entry? i <;> rfl

/-- What holds of the vertices of well-formed calls. -/
structure Listed (calls : List Call) : Prop where
  nodup : (vertices calls).Nodup
  inRange : ∀ i ∈ vertices calls, 0 ≤ i ∧ i < defaultCapacity
  row_eq_nil_iff : ∀ i, row calls i = [] ↔ i ∉ vertices calls

theorem listed (h : AllCalls WellFormed calls) : Listed calls := by
  induction calls using List.reverseRecOn with
  | nil =>
    exact ⟨List.nodup_nil, fun _ hi => absurd hi List.not_mem_nil,
      fun _ => iff_of_true rfl List.not_mem_nil⟩
  | append_singleton calls call ih =>
    obtain ⟨hcalls, hcall⟩ := allCalls_concat.mp h
    obtain ⟨hnodup, hrange, hrow⟩ := ih hcalls
    cases call with
    | addVertex vertexIdx value =>
      obtain ⟨hpos, hlt, hnew⟩ := hcall
      have hvertices : vertices (calls ++ [.addVertex vertexIdx value]) =
          vertices calls ++ [vertexIdx] := vertices_concat ..
      refine ⟨?_, fun i hi => ?_, fun i => ?_⟩
      · rw [hvertices, ← List.concat_eq_append]
        exact hnodup.concat hnew
      · rw [hvertices] at hi
        rcases List.mem_append.mp hi with hold | hlast
        · exact hrange i hold
        · exact List.mem_singleton.mp hlast ▸ ⟨hpos, hlt⟩
      · rw [hvertices, row_concat, List.append_eq_nil_iff, hrow, List.mem_append, not_or,
          List.mem_singleton, Call.entry?]
        refine and_congr_right fun _ => ?_
        split_ifs with heq
        · exact iff_of_false (List.cons_ne_nil _ _) (not_not.mpr heq.symm)
        · exact iff_of_true rfl (Ne.symm heq)
    | addEdge sourceVertex destinationVertex =>
      have hvertices : vertices (calls ++ [.addEdge sourceVertex destinationVertex]) =
          vertices calls := (vertices_concat ..).trans (List.append_nil _)
      refine ⟨hvertices ▸ hnodup, hvertices ▸ hrange, fun i => ?_⟩
      rw [hvertices, row_concat, List.append_eq_nil_iff, hrow, Call.entry?]
      split_ifs with heq
      · -- the source has been added, so its row is not empty before
        exact iff_of_false (fun hnil => absurd hnil.2 (List.cons_ne_nil _ _))
          (not_not.mpr (heq ▸ hcall))
      · exact and_iff_left rfl

/-- The indices of the first slots. -/
def slots (n : ℕ) : List ℤ := (List.range n).map Nat.cast

theorem mem_slots {n : ℕ} : i ∈ slots n ↔ 0 ≤ i ∧ i < n := by
  rw [slots, List.mem_map]
  constructor
  · rintro ⟨k, hk, rfl⟩
    exact ⟨Int.natCast_nonneg k, Int.ofNat_lt.mpr (List.mem_range.mp hk)⟩
  · rintro ⟨hpos, hlt⟩
    exact ⟨i.toNat, List.mem_range.mpr (by omega), Int.toNat_of_nonneg hpos⟩

theorem length_slots (n : ℕ) : (slots n).length = n := by
  rw [slots, List.length_map, List.length_range]

theorem slots_succ (n : ℕ) : slots (n + 1) = slots n ++ [(n : ℤ)] := by
  rw [slots, List.range_succ, List.map_append]
  rfl

theorem nodup_slots (n : ℕ) : (slots n).Nodup :=
  List.nodup_range.map fun _ _ heq => Int.ofNat.inj heq

namespace Listed

theorem length_le (h : Listed calls) : (vertices calls).length ≤ defaultCapacity := by
  have hsubperm : (vertices calls).Subperm (slots defaultCapacity) :=
    h.nodup.subperm fun i hi => mem_slots.mpr (h.inRange i hi)
  exact hsubperm.length_le.trans_eq (length_slots _)

theorem row_ne_nil (h : Listed calls) (hi : i ∈ vertices calls) : row calls i ≠ [] :=
  fun hnil => (h.row_eq_nil_iff i).mp hnil hi

/-- Vertices in the first slots fill them. -/
theorem perm_slots (h : Listed calls)
    (hfirst : ∀ i ∈ vertices calls, i < (vertices calls).length) :
    (vertices calls).Perm (slots (vertices calls).length) := by
  have hsubperm : (vertices calls).Subperm (slots (vertices calls).length) :=
    h.nodup.subperm fun i hi => mem_slots.mpr ⟨(h.inRange i hi).1, hfirst i hi⟩
  exact hsubperm.perm_of_length_le (length_slots _).le

/-- All rows are among those of the first slots when the vertices are. -/
theorem perm_rows_iff (h : Listed calls) :
    (((slots (vertices calls).length).map (row calls)).filter (· ≠ [])).Perm
        ((vertices calls).map (row calls)) ↔
      ∀ i ∈ vertices calls, i < (vertices calls).length := by
  constructor
  · intro hperm
    -- as many lines as there are slots are not empty, so none is
    have hlength : ((slots (vertices calls).length).map (row calls)).length =
        ((vertices calls).map (row calls)).length := by
      rw [List.length_map, List.length_map, length_slots]
    have hnonempty := List.length_filter_eq_length_iff.mp (hperm.length_eq.trans hlength.symm)
    have hsubset : slots (vertices calls).length ⊆ vertices calls := by
      intro i hi
      by_contra hnot
      have hline := hnonempty _ (List.mem_map_of_mem hi)
      rw [(h.row_eq_nil_iff i).mpr hnot] at hline
      exact absurd hline (by decide)
    have hsubperm := (nodup_slots (vertices calls).length).subperm hsubset
    have hsame := hsubperm.perm_of_length_le (length_slots _).ge
    exact fun i hi => (mem_slots.mp (hsame.mem_iff.mpr hi)).2
  · intro hfirst
    have hperm := h.perm_slots hfirst
    have hfilter : ((slots (vertices calls).length).map (row calls)).filter (· ≠ []) =
        (slots (vertices calls).length).map (row calls) := by
      refine List.filter_eq_self.mpr fun line hline => ?_
      obtain ⟨i, hi, rfl⟩ := List.mem_map.mp hline
      exact decide_eq_true (h.row_ne_nil (hperm.mem_iff.mpr hi))
    rw [hfilter]
    exact hperm.symm.map _

end Listed

/-! ### One call -/

/-- Every slot holds its row, and there are no other cells. -/
structure Rows (calls : List Call) (dag : Dag) (lists : Fin defaultCapacity → List (ℕ × ℤ)) :
    Prop where
  chains : Chains dag.heap dag.vertex lists
  values_eq : ∀ k, (lists k).map Prod.snd = row calls (k : ℕ)
  covers : ∀ a, dag.heap a ≠ none → ∃ k, a ∈ addresses (lists k)

/-- What the calls so far leave. -/
structure Holds (malloc : ℕ ↪ ℕ) (calls : List Call) (dag : Dag) : Prop where
  wellFormed : AllCalls WellFormed calls
  count_eq : dag.count = ((vertices calls).length : ℕ)
  fresh : Fresh malloc dag.heap dag.allocated
  rows : ∃ lists, Rows calls dag lists

theorem holds_initDag (malloc : ℕ ↪ ℕ) : Holds malloc [] initDag where
  wellFormed := allCalls_nil _
  count_eq := rfl
  fresh _ _ := rfl
  rows := ⟨fun _ => [], chains_nil _, fun _ => rfl, fun _ hne => absurd rfl hne⟩

theorem slot_eq_iff {k j : Fin defaultCapacity} : ((k : ℕ) : ℤ) = (j : ℕ) ↔ k = j :=
  Int.ofNat_inj.trans Fin.ext_iff.symm

/-- One more cell at the end of the row of the slot `k`. -/
theorem Rows.grow {lists : Fin defaultCapacity → List (ℕ × ℤ)} {dag' : Dag} {a : ℕ} {v : ℤ}
    {k : Fin defaultCapacity} (h : Rows calls dag lists)
    (hchains : Chains dag'.heap dag'.vertex (Function.update lists k (lists k ++ [(a, v)])))
    (hentry : ∀ j : Fin defaultCapacity, call.entry? (j : ℕ) = if k = j then some v else none)
    (hframe : ∀ b, b ∉ addresses (lists k) → b ≠ a → dag'.heap b = dag.heap b) :
    Rows (calls ++ [call]) dag' (Function.update lists k (lists k ++ [(a, v)])) := by
  refine ⟨hchains, fun j => ?_, fun b hb => ?_⟩
  · rw [row_concat, hentry, ← h.values_eq]
    rcases eq_or_ne k j with rfl | hne
    · rw [Function.update_self, if_pos rfl, List.map_append]
      rfl
    · rw [Function.update_of_ne hne.symm, if_neg hne]
      exact (List.append_nil _).symm
  · by_cases hnew : b ∈ addresses (lists k ++ [(a, v)])
    · exact ⟨k, by rwa [Function.update_self]⟩
    · have hout : b ∉ addresses (lists k) ∧ b ≠ a := by
        rwa [mem_addresses_concat, not_or] at hnew
      rw [hframe b hout.1 hout.2] at hb
      obtain ⟨j, hj⟩ := h.covers b hb
      have hne : j ≠ k := fun heq => hout.1 (heq ▸ hj)
      exact ⟨j, by rwa [Function.update_of_ne hne]⟩

namespace Rows

variable {lists : Fin defaultCapacity → List (ℕ × ℤ)} {k : Fin defaultCapacity}

/-- The pointer that a loop over the slots reads. -/
theorem load {n : ℕ} (h : Rows calls dag lists) (hn : n < defaultCapacity) :
    dag.vertex.load n = .ok (first (lists ⟨n, hn⟩)) := by
  rw [← h.chains.head_eq]
  exact Block.load_natCast dag.vertex ⟨n, hn⟩

/-- The first cell of a row. -/
theorem exists_cons (h : Rows calls dag lists) (hrow : row calls (k : ℕ) ≠ []) :
    ∃ a v rest, lists k = (a, v) :: rest := by
  obtain ⟨⟨a, v⟩, rest, hcons⟩ : ∃ node rest, lists k = node :: rest := by
    refine List.exists_cons_of_ne_nil fun hnil => hrow ?_
    rw [← h.values_eq, hnil]
    rfl
  exact ⟨a, v, rest, hcons⟩

end Rows

theorem addVertex_eq (hroom : dag.count + 1 ≤ defaultCapacity) (a : ℕ)
    (k : Fin defaultCapacity) (value : ℤ) :
    addVertex dag (some a) (k : ℕ) value = .ok
      ⟨Function.update dag.heap a (some ⟨value, dag.vertex k⟩),
        Function.update dag.vertex k (some a), dag.count + 1, dag.allocated + 1⟩ := by
  have hcheck : checkAlloc (some a) vertexType = .ok () := rfl
  rw [addVertex, if_neg (Int.not_lt.mpr hroom), hcheck, Outcome.ok_bind]
  rw [Block.load_natCast, Outcome.ok_bind, Block.store_natCast, Outcome.ok_bind]

/-- A new vertex goes into its slot, which is empty. -/
theorem Holds.addVertex {vertexIdx value : ℤ} (h : Holds malloc calls dag)
    (hcall : WellFormed calls (.addVertex vertexIdx value)) :
    ∃ dag', addVertex dag (some (malloc dag.allocated)) vertexIdx value = .ok dag' ∧
      Holds malloc (calls ++ [.addVertex vertexIdx value]) dag' := by
  have hwellFormed : AllCalls WellFormed (calls ++ [.addVertex vertexIdx value]) :=
    allCalls_concat.mpr ⟨h.wellFormed, hcall⟩
  have hvertices : vertices (calls ++ [.addVertex vertexIdx value]) =
      vertices calls ++ [vertexIdx] := vertices_concat ..
  obtain ⟨hpos, hlt, hnew⟩ := hcall
  obtain ⟨k, rfl⟩ := Block.exists_index hpos hlt
  obtain ⟨lists, hrows⟩ := h.rows
  have hempty : lists k = [] := by
    refine List.map_eq_nil_iff.mp ((hrows.values_eq k).trans ?_)
    exact ((listed h.wellFormed).row_eq_nil_iff _).mpr hnew
  have hcount : dag.count + 1 = ((vertices (calls ++ [.addVertex (k : ℕ) value])).length : ℕ) := by
    rw [h.count_eq, hvertices, List.length_append, List.length_singleton]
    rfl
  have hroom : dag.count + 1 ≤ defaultCapacity := by
    rw [hcount]
    exact Int.ofNat_le.mpr (listed hwellFormed).length_le
  have hchains := hrows.chains.insertFirst k (h.fresh _ (Nat.le_refl _)) value
  have happend : (malloc dag.allocated, value) :: lists k =
      lists k ++ [(malloc dag.allocated, value)] := by
    rw [hempty]
    rfl
  rw [happend] at hchains
  refine ⟨_, addVertex_eq hroom _ k value, hwellFormed, hcount, ?_, _,
    hrows.grow hchains (fun j => if_congr slot_eq_iff rfl rfl) fun b _ hb => ?_⟩
  · exact h.fresh.succ fun b hb hbefore => (Function.update_of_ne hb ..).trans hbefore
  · exact Function.update_of_ne hb ..

/-- A new edge goes to the end of the row of its source. -/
theorem Holds.addEdge {sourceVertex destinationVertex : ℤ} (h : Holds malloc calls dag)
    (hcall : WellFormed calls (.addEdge sourceVertex destinationVertex)) :
    ∃ dag', Returns (addEdge dag (some (malloc dag.allocated)) sourceVertex destinationVertex)
        dag' ∧ Holds malloc (calls ++ [.addEdge sourceVertex destinationVertex]) dag' := by
  have hvertices : vertices (calls ++ [.addEdge sourceVertex destinationVertex]) =
      vertices calls := (vertices_concat ..).trans (List.append_nil _)
  obtain ⟨hpos, hlt⟩ := (listed h.wellFormed).inRange _ hcall
  have hrange : ¬ (sourceVertex ≥ defaultCapacity ∨ sourceVertex < 0) := by omega
  have hrow := (listed h.wellFormed).row_ne_nil hcall
  have hwellFormed := allCalls_concat.mpr ⟨h.wellFormed, hcall⟩
  obtain ⟨k, rfl⟩ := Block.exists_index hpos hlt
  obtain ⟨lists, hrows⟩ := h.rows
  obtain ⟨c, v, rest, hcons⟩ := hrows.exists_cons hrow
  have hhead : dag.vertex k = some c := by
    rw [hrows.chains.head_eq k, hcons]
    rfl
  obtain ⟨heap, head, hlink, hchains, hframe⟩ :=
    hrows.chains.insertLast k (h.fresh _ (Nat.le_refl _)) destinationVertex
  -- the slot points to the same cell as before
  have hsame : Function.update dag.vertex k head = dag.vertex := by
    have hfirst := hchains.head_eq k
    rw [Function.update_self, Function.update_self, hcons] at hfirst
    have hkeep : head = dag.vertex k := hfirst.trans hhead.symm
    rw [hkeep, Function.update_eq_self]
  rw [hsame] at hchains
  rw [hhead] at hlink
  refine ⟨{ dag with heap := heap, allocated := dag.allocated + 1 }, ?_, hwellFormed, ?_, ?_, _,
    hrows.grow hchains (fun j => if_congr slot_eq_iff rfl rfl) hframe⟩
  · refine (hlink.map fun linked =>
      ({ dag with heap := linked.1, allocated := dag.allocated + 1 } : Dag)).congr fun fuel => ?_
    rw [DagRepresentation.addEdge, if_neg hrange]
    dsimp only
    rw [Block.load_natCast, Outcome.ok_bind, hhead]
  · rw [hvertices]
    exact h.count_eq
  · exact h.fresh.succ fun b hb hbefore =>
      (hframe b (hrows.chains.fresh hbefore k) hb).trans hbefore

theorem callRule (malloc : ℕ ↪ ℕ) :
    CallRule (perform malloc) WellFormed (fun _ _ => True) (Holds malloc) where
  returns pre call dag hcall h _ := by
    cases call with
    | addVertex vertexIdx value =>
      obtain ⟨dag', hok, h'⟩ := h.addVertex hcall
      exact ⟨dag', .of_eq fun _ => hok, h'⟩
    | addEdge sourceVertex destinationVertex => exact h.addEdge hcall
  of_ok _ _ _ _ _ _ _ _ := trivial

/-! ### All of the graph -/

namespace Holds

theorem toNat_count (h : Holds malloc calls dag) : dag.count.toNat = (vertices calls).length := by
  rw [h.count_eq, Int.toNat_natCast]

/-- The lines are the rows of the first slots. -/
theorem dfs (h : Holds malloc calls dag) :
    Returns (dfs dag) ((slots (vertices calls).length).map (row calls)) := by
  obtain ⟨lists, hrows⟩ := h.rows
  have hle := (listed h.wellFormed).length_le
  have hstep : ∀ i < (vertices calls).length, ∀ lines, lines = (slots i).map (row calls) →
      ∃ lines', Returns (fun fuel => do
        let current ← dag.vertex.load i
        let line ← values dag.heap current fuel
        .ok (lines ++ [line])) lines' ∧ lines' = (slots (i + 1)).map (row calls) := by
    rintro i hi _ rfl
    have hline := (hrows.chains.holds ⟨i, by omega⟩).chain.values
    rw [hrows.values_eq] at hline
    refine ⟨(slots i).map (row calls) ++ [row calls i], ?_, ?_⟩
    · refine (hline.map fun line => (slots i).map (row calls) ++ [line]).congr fun fuel => ?_
      rw [hrows.load (by omega), Outcome.ok_bind]
    · rw [slots_succ, List.map_append]
      rfl
  obtain ⟨lines, hreturns, rfl⟩ := Returns.foldlM_range hstep (a := []) rfl
  rw [← h.toNat_count] at hreturns ⊢
  exact hreturns

/-- The cells of the first slots are freed, and no other ones. -/
theorem freeDag {lists : Fin defaultCapacity → List (ℕ × ℤ)} (h : Holds malloc calls dag)
    (hrows : Rows calls dag lists) :
    ∃ heap, Returns (freeDag dag) heap ∧
      (∀ k a, a ∈ addresses (lists k) → (k : ℕ) < (vertices calls).length → heap a = none) ∧
      ∀ a, (∀ k, a ∈ addresses (lists k) → (vertices calls).length ≤ k) →
        heap a = dag.heap a := by
  have hle := (listed h.wellFormed).length_le
  have hstep : ∀ i < (vertices calls).length, ∀ heap : Heap ℤ,
      ((∀ k a, a ∈ addresses (lists k) → (k : ℕ) < i → heap a = none) ∧
        ∀ a, (∀ k, a ∈ addresses (lists k) → i ≤ k) → heap a = dag.heap a) →
      ∃ heap', Returns (fun fuel => do
        let current ← dag.vertex.load i
        freeAll heap current fuel) heap' ∧
        (∀ k a, a ∈ addresses (lists k) → (k : ℕ) < i + 1 → heap' a = none) ∧
        ∀ a, (∀ k, a ∈ addresses (lists k) → i + 1 ≤ k) → heap' a = dag.heap a := by
    rintro i hi heap ⟨hfreed, hkept⟩
    have hslot := hrows.chains.holds ⟨i, by omega⟩
    -- the row of the slot has not been touched
    have hchain : Chain heap (lists ⟨i, by omega⟩) := by
      refine hslot.chain.frame fun a ha => hkept a fun k hk => ?_
      rw [hrows.chains.eq_of_mem hk ha]
    obtain ⟨heap', hfree, hfreed', hkept'⟩ := hchain.freeAll hslot.nodup
    refine ⟨heap', hfree.congr fun fuel => ?_, fun k a ha hk => ?_, fun a ha => ?_⟩
    · rw [hrows.load (by omega), Outcome.ok_bind]
    · by_cases hmem : a ∈ addresses (lists ⟨i, by omega⟩)
      · exact hfreed' a hmem
      · have hne : (k : ℕ) ≠ i := by
          rintro rfl
          exact hmem ha
        rw [hkept' a hmem]
        exact hfreed k a ha (by omega)
    · have hout : a ∉ addresses (lists ⟨i, by omega⟩) := fun hmem =>
        absurd (ha _ hmem) (Nat.not_succ_le_self i)
      rw [hkept' a hout]
      exact hkept a fun k hk => Nat.le_of_succ_le (ha k hk)
  obtain ⟨heap, hreturns, hheap⟩ := Returns.foldlM_range hstep
    (a := dag.heap) ⟨fun _ _ _ hlt => absurd hlt (Nat.not_lt_zero _), fun _ _ => rfl⟩
  refine ⟨heap, ?_, hheap⟩
  rw [← h.toNat_count] at hreturns
  exact hreturns

theorem printsAll_iff (h : Holds malloc calls dag) :
    PrintsAll calls dag ↔ ∀ i ∈ vertices calls, i < (vertices calls).length := by
  rw [← (listed h.wellFormed).perm_rows_iff]
  constructor
  · rintro ⟨lines, hlines, hperm⟩
    rwa [h.dfs.unique hlines]
  · intro hperm
    exact ⟨_, h.dfs, hperm⟩

theorem freesAll_iff (h : Holds malloc calls dag) :
    FreesAll dag ↔ ∀ i ∈ vertices calls, i < (vertices calls).length := by
  have hlisted := listed h.wellFormed
  obtain ⟨lists, hrows⟩ := h.rows
  obtain ⟨heap, hfree, hfreed, hkept⟩ := h.freeDag hrows
  constructor
  · rintro ⟨heap', hfree', hall⟩ i hi
    obtain rfl := hfree.unique hfree'
    obtain ⟨k, rfl⟩ := Block.exists_index (hlisted.inRange i hi).1 (hlisted.inRange i hi).2
    by_contra hhigh
    -- the first cell of the row is still there
    obtain ⟨a, v, rest, hcons⟩ := hrows.exists_cons (hlisted.row_ne_nil hi)
    have hmem : a ∈ addresses (lists k) := by
      rw [hcons]
      exact List.mem_cons_self
    have hheap := hkept a fun j hj => by
      rw [hrows.chains.eq_of_mem hj hmem]
      omega
    obtain ⟨node, hnode⟩ := (hrows.chains.holds k).chain.allocated hmem
    rw [hall a, hnode] at hheap
    cases hheap
  · intro hfirst
    refine ⟨heap, hfree, fun a => ?_⟩
    by_cases hcovered : ∃ k, a ∈ addresses (lists k)
    · obtain ⟨k, hk⟩ := hcovered
      have hvertex : ((k : ℕ) : ℤ) ∈ vertices calls := by
        by_contra hnot
        have hnil := (hlisted.row_eq_nil_iff _).mpr hnot
        rw [← hrows.values_eq] at hnil
        rw [List.map_eq_nil_iff.mp hnil] at hk
        exact absurd hk List.not_mem_nil
      exact hfreed k a hk (Int.ofNat_lt.mp (hfirst _ hvertex))
    · rw [hkept a fun k hk => absurd ⟨k, hk⟩ hcovered]
      by_contra hne
      exact hcovered (hrows.covers a hne)

end Holds

theorem exists_run (malloc : ℕ ↪ ℕ) (hcalls : AllCalls WellFormed calls) :
    ∃ dag, Returns (run malloc calls) dag ∧ Holds malloc calls dag :=
  (callRule malloc).exists_returns hcalls (fun _ _ _ _ => trivial) (holds_initDag malloc)

/-- **The whole graph.** After any well-formed calls on a new graph, `DFS` prints every vertex with
its edges, and likewise `free_dag` frees every cell, exactly when every vertex has an index below
the number of vertices. -/
theorem covered_iff (malloc : ℕ ↪ ℕ) (hcalls : AllCalls WellFormed calls) :
    ∃ dag, Returns (run malloc calls) dag ∧
      (PrintsAll calls dag ↔ ∀ i ∈ vertices calls, i < (vertices calls).length) ∧
      (FreesAll dag ↔ ∀ i ∈ vertices calls, i < (vertices calls).length) := by
  obtain ⟨dag, hreturns, h⟩ := exists_run malloc hcalls
  exact ⟨dag, hreturns, h.printsAll_iff, h.freesAll_iff⟩

/-- A vertex with an edge to itself. -/
theorem covered_loop :
    ∃ dag, Returns (run (Function.Embedding.refl ℕ) [.addVertex 0 1, .addEdge 0 0]) dag ∧
      (PrintsAll [.addVertex 0 1, .addEdge 0 0] dag ↔
        ∀ i ∈ vertices [.addVertex 0 1, .addEdge 0 0], i < (1 : ℕ)) ∧
      (FreesAll dag ↔ ∀ i ∈ vertices [.addVertex 0 1, .addEdge 0 0], i < (1 : ℕ)) := by
  have hfirst : AllCalls WellFormed ([] ++ [.addVertex 0 1]) :=
    allCalls_concat.mpr ⟨allCalls_nil _, by decide, by decide, List.not_mem_nil⟩
  exact covered_iff _ (allCalls_concat.mpr ⟨hfirst, List.mem_singleton_self 0⟩)

/-- A vertex in the last slot and no other one: an empty line is printed, and nothing is freed. -/
theorem last_slot_missed :
    AllCalls WellFormed [.addVertex 3 4] ∧
      ∃ dag, Returns (run (Function.Embedding.refl ℕ) [.addVertex 3 4]) dag ∧
        Returns (dfs dag) [[]] ∧ ¬ PrintsAll [.addVertex 3 4] dag ∧ ¬ FreesAll dag := by
  have hcalls : AllCalls WellFormed ([] ++ [.addVertex 3 4]) :=
    allCalls_concat.mpr ⟨allCalls_nil _, by decide, by decide, List.not_mem_nil⟩
  have hhigh : ¬ ∀ i ∈ vertices [.addVertex 3 4], i < (vertices [.addVertex 3 4]).length := by
    decide
  obtain ⟨dag, hreturns, h⟩ := exists_run (Function.Embedding.refl ℕ) hcalls
  exact ⟨hcalls, dag, hreturns, h.dfs, mt h.printsAll_iff.mp hhigh, mt h.freesAll_iff.mp hhigh⟩

end BareMetal.DagRepresentation
