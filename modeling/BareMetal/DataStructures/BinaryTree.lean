import BareMetal.CS.FormattedIO
import BareMetal.CS.LinkedTree
import BareMetal.CS.Loop
import Mathlib.Data.Int.Order.Basic

/-!
# The search tree of `data-structures/binary-tree.c`

`tree_insert` goes down the tree by comparing values, hangs a new node below the last one
it meets, and writes the pointers on its way back again. Nothing is freed until the end, so
`malloc`, which is taken to succeed, never returns the address of a node again.

## Main results

* `exists_treeInsert` — a call inserts in the tree, or it changes nothing
* `returns_treePrintInorder` — the values are printed from left to right
* `treeInserts_isSearchTree` — the tree after any calls
-/

namespace BareMetal.BinaryTree

open CS CellHeap FormattedIO LinkedTree Math Math.SearchTree

/-- The memory, and how many nodes have been allocated. -/
structure State where
  heap : LinkedTree.Heap ℤ
  allocated : ℕ

/-- `tree_create_node`. -/
def treeCreateNode (malloc : ℕ ↪ ℕ) (s : State) (value : ℤ) : State × Option ℕ :=
  (⟨Function.update s.heap (malloc s.allocated) (some ⟨value, none, none⟩), s.allocated + 1⟩,
    some (malloc s.allocated))

/-- `tree_insert`, to a bounded depth. -/
def treeInsert (malloc : ℕ ↪ ℕ) : ℕ → State → Option ℕ → ℤ → Outcome (State × Option ℕ)
  | 0, _, _, _ => .error .outOfFuel
  | _ + 1, s, none, value => .ok (treeCreateNode malloc s value)
  | fuel + 1, s, some root, value => do
    let node ← load s.heap (some root)
    if value > node.value then do
      let (s, right) ← treeInsert malloc fuel s node.right value
      let heap ← modify s.heap (some root) fun node => { node with right := right }
      .ok ({ s with heap := heap }, some root)
    else if value < node.value then do
      let (s, left) ← treeInsert malloc fuel s node.left value
      let heap ← modify s.heap (some root) fun node => { node with left := left }
      .ok ({ s with heap := heap }, some root)
    else .ok (s, some root)

/-- The tree with which a program starts. -/
def newTree (malloc : ℕ ↪ ℕ) (value : ℤ) : State × Option ℕ :=
  treeCreateNode malloc ⟨fun _ => none, 0⟩ value

/-- `printf("%d ", value)`. -/
def printed (value : ℤ) : List Char := decimal value ++ [' ']

/-- `tree_print_inorder`, to a bounded depth, with what it prints. -/
def treePrintInorder (heap : LinkedTree.Heap ℤ) : ℕ → Option ℕ → Outcome (List Char)
  | 0, _ => .error .outOfFuel
  | _ + 1, none => .ok []
  | fuel + 1, some root => do
    let node ← load heap (some root)
    let before ← treePrintInorder heap fuel node.left
    let after ← treePrintInorder heap fuel node.right
    .ok (before ++ printed node.value ++ after)

/-- Calls of `tree_insert`, each with the root that the one before has returned. -/
def treeInserts (malloc : ℕ ↪ ℕ) (tree : State × Option ℕ) (values : List ℤ) (fuel : ℕ) :
    Outcome (State × Option ℕ) :=
  values.foldlM (fun (s, root) value => treeInsert malloc fuel s root value) tree

/-! ### One call of `tree_insert` -/

variable {malloc : ℕ ↪ ℕ} {s s' : State} {t l r : BinaryTree (ℕ × ℤ)} {a : ℕ} {v x : ℤ}
  {p left right : Option ℕ}

/-- The call for an empty place. -/
theorem returns_treeInsert_none (malloc : ℕ ↪ ℕ) (s : State) (x : ℤ) :
    Returns (fun fuel => treeInsert malloc fuel s none x) (treeCreateNode malloc s x) :=
  (Returns.of_eq (f := fun _ => .ok (treeCreateNode malloc s x)) fun _ => rfl).succ rfl
    fun _ => rfl

/-- The call for a node with a smaller value. -/
theorem returns_treeInsert_right (hcell : s.heap a = some ⟨v, left, right⟩) (hlt : v < x)
    (hrest : Returns (fun fuel => treeInsert malloc fuel s right x) (s', p))
    (hcell' : s'.heap a = some ⟨v, left, right⟩) :
    Returns (fun fuel => treeInsert malloc fuel s (some a) x)
      ({ s' with heap := Function.update s'.heap a (some ⟨v, left, p⟩) }, some a) := by
  let wire (below : State × Option ℕ) (_ : ℕ) : Outcome (State × Option ℕ) := do
    let heap ← modify below.1.heap (some a) fun node => { node with right := below.2 }
    .ok ({ below.1 with heap := heap }, some a)
  refine (hrest.bind (g := wire) (.of_eq fun _ => ?_)).succ rfl fun fuel => ?_
  · simp only [wire, modify_some hcell', Outcome.ok_bind]
  · rw [treeInsert, load_some hcell, Outcome.ok_bind, if_pos hlt]

/-- The call for a node with a larger value. -/
theorem returns_treeInsert_left (hcell : s.heap a = some ⟨v, left, right⟩) (hlt : x < v)
    (hrest : Returns (fun fuel => treeInsert malloc fuel s left x) (s', p))
    (hcell' : s'.heap a = some ⟨v, left, right⟩) :
    Returns (fun fuel => treeInsert malloc fuel s (some a) x)
      ({ s' with heap := Function.update s'.heap a (some ⟨v, p, right⟩) }, some a) := by
  let wire (below : State × Option ℕ) (_ : ℕ) : Outcome (State × Option ℕ) := do
    let heap ← modify below.1.heap (some a) fun node => { node with left := below.2 }
    .ok ({ below.1 with heap := heap }, some a)
  refine (hrest.bind (g := wire) (.of_eq fun _ => ?_)).succ rfl fun fuel => ?_
  · simp only [wire, modify_some hcell', Outcome.ok_bind]
  · rw [treeInsert, load_some hcell, Outcome.ok_bind, if_neg (Int.not_lt.mpr (Int.le_of_lt hlt)),
      if_pos hlt]

/-- The call for a node with the value itself. -/
theorem returns_treeInsert_self (hcell : s.heap a = some ⟨x, left, right⟩) :
    Returns (fun fuel => treeInsert malloc fuel s (some a) x) (s, some a) := by
  refine (Returns.of_eq (f := fun _ => .ok (s, some a)) fun _ => rfl).succ rfl fun fuel => ?_
  rw [treeInsert, load_some hcell, Outcome.ok_bind, if_neg (Int.lt_irrefl x),
    if_neg (Int.lt_irrefl x)]

/-- The tree with the new node, whose value decides where it goes. -/
def inserted (malloc : ℕ ↪ ℕ) (s : State) (x : ℤ) (t : BinaryTree (ℕ × ℤ)) :
    BinaryTree (ℕ × ℤ) :=
  SearchTree.insert Prod.snd (malloc s.allocated, x) t

/-- The new node is linked, and the nodes outside the tree are left alone. -/
structure Grown (malloc : ℕ ↪ ℕ) (s : State) (x : ℤ) (t : BinaryTree (ℕ × ℤ)) (s' : State) :
    Prop where
  linked : Linked s'.heap (inserted malloc s x t)
  allocated_eq : s'.allocated = s.allocated + 1
  new_mem : malloc s.allocated ∈ addresses (inserted malloc s x t)
  frame : ∀ b, b ∉ addresses t → b ≠ malloc s.allocated → s'.heap b = s.heap b

theorem mem_addresses_inserted {b : ℕ} (h : b ∈ addresses (inserted malloc s x t)) :
    b = malloc s.allocated ∨ b ∈ addresses t := by
  obtain ⟨node, hnode, rfl⟩ := List.mem_map.mp h
  rcases mem_of_mem_inorder_insert hnode with rfl | hold
  · exact Or.inl rfl
  · exact Or.inr (List.mem_map_of_mem hold)

/-- No node of a tree is at a new address. -/
theorem ne_of_mem_addresses (h : Linked s.heap t) (hnew : s.heap a = none) {b : ℕ}
    (hb : b ∈ addresses t) : b ≠ a := by
  rintro rfl
  exact h.allocated hb hnew

/-- The left part has grown, and the cell at `a` gets the pointer to it. -/
theorem Grown.onLeft (h : Grown malloc s x l s') (hnode : Linked s.heap (.node (a, v) l r))
    (hnodup : (addresses (.node (a, v) l r)).Nodup) (hnew : s.heap (malloc s.allocated) = none)
    (hlt : x < v) :
    s'.heap a = some ⟨v, root l, root r⟩ ∧ Grown malloc s x (.node (a, v) l r) { s' with
      heap := Function.update s'.heap a (some ⟨v, root (inserted malloc s x l), root r⟩) } := by
  have hne : a ≠ malloc s.allocated := ne_of_mem_addresses hnode hnew (by simp)
  obtain ⟨hcell, -, hr⟩ := hnode
  obtain ⟨hal, har, -, -, hdisjoint⟩ := nodup_node.mp hnodup
  have hinserted : inserted malloc s x (.node (a, v) l r) =
      .node (a, v) (inserted malloc s x l) r := insert_left hlt
  have hr' : Linked s'.heap r := hr.frame fun b hb =>
    h.frame b (fun hmem => hdisjoint b hmem hb) (ne_of_mem_addresses hr hnew hb)
  have hal' : a ∉ addresses (inserted malloc s x l) := fun hmem =>
    (mem_addresses_inserted hmem).elim hne hal
  refine ⟨(h.frame a hal hne).trans hcell, ?_, h.allocated_eq, ?_, fun b hb hbnew => ?_⟩
  · rw [hinserted]
    exact h.linked.node hr' hal' har v
  · rw [hinserted, addresses_node]
    exact List.mem_append_left _ h.new_mem
  · rw [addresses_node, List.mem_append, List.mem_cons, not_or, not_or] at hb
    exact (Function.update_of_ne hb.2.1 ..).trans (h.frame b hb.1 hbnew)

/-- The right part has grown, and the cell at `a` gets the pointer to it. -/
theorem Grown.onRight (h : Grown malloc s x r s') (hnode : Linked s.heap (.node (a, v) l r))
    (hnodup : (addresses (.node (a, v) l r)).Nodup) (hnew : s.heap (malloc s.allocated) = none)
    (hlt : v < x) :
    s'.heap a = some ⟨v, root l, root r⟩ ∧ Grown malloc s x (.node (a, v) l r) { s' with
      heap := Function.update s'.heap a (some ⟨v, root l, root (inserted malloc s x r)⟩) } := by
  have hne : a ≠ malloc s.allocated := ne_of_mem_addresses hnode hnew (by simp)
  obtain ⟨hcell, hl, -⟩ := hnode
  obtain ⟨hal, har, -, -, hdisjoint⟩ := nodup_node.mp hnodup
  have hinserted : inserted malloc s x (.node (a, v) l r) =
      .node (a, v) l (inserted malloc s x r) := insert_right hlt
  have hl' : Linked s'.heap l := hl.frame fun b hb =>
    h.frame b (hdisjoint b hb) (ne_of_mem_addresses hl hnew hb)
  have har' : a ∉ addresses (inserted malloc s x r) := fun hmem =>
    (mem_addresses_inserted hmem).elim hne har
  refine ⟨(h.frame a har hne).trans hcell, ?_, h.allocated_eq, ?_, fun b hb hbnew => ?_⟩
  · rw [hinserted]
    exact hl'.node h.linked hal har' v
  · rw [hinserted, addresses_node]
    exact List.mem_append_right _ (List.mem_cons_of_mem _ h.new_mem)
  · rw [addresses_node, List.mem_append, List.mem_cons, not_or, not_or] at hb
    exact (Function.update_of_ne hb.2.1 ..).trans (h.frame b hb.2.2 hbnew)

/-- **One call** inserts in the tree, or it changes nothing at all. -/
theorem exists_treeInsert (h : Linked s.heap t) (hnodup : (addresses t).Nodup)
    (hnew : s.heap (malloc s.allocated) = none) (x : ℤ) :
    ∃ s', Returns (fun fuel => treeInsert malloc fuel s (root t) x)
        (s', root (inserted malloc s x t)) ∧
      ((inserted malloc s x t = t ∧ s' = s) ∨ Grown malloc s x t s') := by
  induction t with
  | nil =>
    refine ⟨_, returns_treeInsert_none malloc s x, Or.inr ⟨?_, rfl, ?_, fun b _ hb => ?_⟩⟩
    · exact ⟨Function.update_self .., trivial, trivial⟩
    · exact List.mem_singleton_self _
    · exact Function.update_of_ne hb ..
  | node y l r ihl ihr =>
    obtain ⟨a, v⟩ := y
    have hnode := h
    obtain ⟨hcell, hl, hr⟩ := h
    obtain ⟨-, -, hnodupl, hnodupr, -⟩ := nodup_node.mp hnodup
    rcases lt_trichotomy x v with hlt | rfl | hgt
    · -- the node goes to the left, and the cell at `a` gets the pointer that comes back
      obtain ⟨s', hreturns, hcases⟩ := ihl hl hnodupl
      have hinserted : inserted malloc s x (.node (a, v) l r) =
          .node (a, v) (inserted malloc s x l) r := insert_left hlt
      rw [hinserted]
      rcases hcases with ⟨heq, rfl⟩ | hgrown
      · -- the pointer that comes back is the one that is there
        have hsame := returns_treeInsert_left hcell hlt hreturns hcell
        rw [heq, ← hcell, Function.update_eq_self] at hsame
        exact ⟨s', hsame, Or.inl ⟨by rw [heq], rfl⟩⟩
      · obtain ⟨hcell', hgrown'⟩ := hgrown.onLeft hnode hnodup hnew hlt
        exact ⟨_, returns_treeInsert_left hcell hlt hreturns hcell', Or.inr hgrown'⟩
    · have hinserted : inserted malloc s x (.node (a, x) l r) = .node (a, x) l r :=
        insert_eq rfl
      rw [hinserted]
      exact ⟨s, returns_treeInsert_self hcell, Or.inl ⟨rfl, rfl⟩⟩
    · obtain ⟨s', hreturns, hcases⟩ := ihr hr hnodupr
      have hinserted : inserted malloc s x (.node (a, v) l r) =
          .node (a, v) l (inserted malloc s x r) := insert_right hgt
      rw [hinserted]
      rcases hcases with ⟨heq, rfl⟩ | hgrown
      · have hsame := returns_treeInsert_right hcell hgt hreturns hcell
        rw [heq, ← hcell, Function.update_eq_self] at hsame
        exact ⟨s', hsame, Or.inl ⟨by rw [heq], rfl⟩⟩
      · obtain ⟨hcell', hgrown'⟩ := hgrown.onRight hnode hnodup hnew hgt
        exact ⟨_, returns_treeInsert_right hcell hgt hreturns hcell', Or.inr hgrown'⟩

/-! ### The output -/

/-- The values are printed from left to right. -/
theorem returns_treePrintInorder {heap : LinkedTree.Heap ℤ} (h : Linked heap t) :
    Returns (fun fuel => treePrintInorder heap fuel (root t))
      ((inorder t).map fun node => printed node.2).flatten := by
  induction t with
  | nil => exact (Returns.of_eq (f := fun _ => .ok []) fun _ => rfl).succ rfl fun _ => rfl
  | node y l r ihl ihr =>
    obtain ⟨a, v⟩ := y
    obtain ⟨hcell, hl, hr⟩ := h
    have hbody := (ihl hl).bind (g := fun before fuel => do
        let after ← treePrintInorder heap fuel (root r)
        .ok (before ++ printed v ++ after))
      ((ihr hr).map fun after =>
        ((inorder l).map fun node => printed node.2).flatten ++ printed v ++ after)
    have hsucc := hbody.succ (g := fun fuel => treePrintInorder heap fuel (some a)) rfl
      fun fuel => by rw [treePrintInorder, load_some hcell, Outcome.ok_bind]
    rw [inorder_node, List.map_append, List.map_cons, List.flatten_append, List.flatten_cons,
      ← List.append_assoc]
    exact hsucc

/-! ### Any number of calls -/

/-- The pointer `root` leads to the nodes of the tree `t`, and `malloc` has addresses left. -/
structure Represents (malloc : ℕ ↪ ℕ) (s : State) (root : Option ℕ)
    (t : BinaryTree (ℕ × ℤ)) : Prop where
  root_eq : root = LinkedTree.root t
  linked : Linked s.heap t
  nodup : (addresses t).Nodup
  fresh : Fresh malloc s.heap s.allocated

/-- A call returns. Where the value is in the tree already, nothing changes. -/
theorem Represents.treeInsert (h : Represents malloc s p t) (x : ℤ) :
    ∃ s' p', Returns (fun fuel => treeInsert malloc fuel s p x) (s', p') ∧
      Represents malloc s' p' (inserted malloc s x t) ∧
      (inserted malloc s x t = t → s' = s ∧ p' = p) := by
  obtain ⟨rfl, hlinked, hnodup, hfresh⟩ := h
  have hnew : s.heap (malloc s.allocated) = none := hfresh _ (Nat.le_refl _)
  have hnotMem : malloc s.allocated ∉ addresses t := fun hmem => hlinked.allocated hmem hnew
  obtain ⟨s', hreturns, hcases⟩ := exists_treeInsert hlinked hnodup hnew x
  refine ⟨s', _, hreturns, ?_, fun heq => ?_⟩
  · rcases hcases with ⟨heq, rfl⟩ | hgrown
    · rw [heq]
      exact ⟨rfl, hlinked, hnodup, hfresh⟩
    · refine ⟨rfl, hgrown.linked, ?_, ?_⟩
      · rcases insert_cases Prod.snd (malloc s.allocated, x) t with ⟨-, heq⟩ | hperm
        · rwa [inserted, heq]
        · exact (hperm.map Prod.fst).nodup_iff.mpr (List.nodup_cons.mpr ⟨hnotMem, hnodup⟩)
      · rw [hgrown.allocated_eq]
        refine hfresh.succ fun b hb hnone => ?_
        rw [hgrown.frame b (fun hmem => hlinked.allocated hmem hnone) hb, hnone]
  · rcases hcases with ⟨-, rfl⟩ | hgrown
    · rw [heq]
      exact ⟨rfl, rfl⟩
    · -- a new node would be in the tree
      have hmem := hgrown.new_mem
      rw [heq] at hmem
      exact absurd hmem hnotMem

theorem represents_newTree (malloc : ℕ ↪ ℕ) (value : ℤ) :
    Represents malloc (newTree malloc value).1 (newTree malloc value).2
      (.node (malloc 0, value) .nil .nil) where
  root_eq := rfl
  linked := ⟨Function.update_self .., trivial, trivial⟩
  nodup := List.nodup_singleton _
  fresh := by
    have hempty : Fresh malloc (fun _ => none : LinkedTree.Heap ℤ) 0 := fun _ _ => rfl
    exact hempty.succ fun b hb _ => Function.update_of_ne hb ..

/-- The tree after some calls, as a search tree of the values so far. -/
structure IsSearchTree (malloc : ℕ ↪ ℕ) (s : State) (root : Option ℕ) (values : List ℤ)
    (t : BinaryTree (ℕ × ℤ)) : Prop where
  represents : Represents malloc s root t
  ordered : Ordered Prod.snd t
  mem_iff : ∀ x, (∃ node ∈ inorder t, node.2 = x) ↔ x ∈ values

variable {values : List ℤ}

theorem IsSearchTree.treeInsert (h : IsSearchTree malloc s p values t) (x : ℤ) :
    ∃ s' p', Returns (fun fuel => treeInsert malloc fuel s p x) (s', p') ∧
      IsSearchTree malloc s' p' (values ++ [x]) (inserted malloc s x t) ∧
      (x ∈ values → s' = s ∧ p' = p) := by
  obtain ⟨hrepresents, hordered, hmem⟩ := h
  obtain ⟨s', p', hreturns, hrepresents', hsame⟩ := hrepresents.treeInsert x
  refine ⟨s', p', hreturns, ⟨hrepresents', hordered.insert _, fun y => ?_⟩, fun hx => ?_⟩
  · refine exists_mem_inorder_insert_iff.trans ?_
    rw [hmem y, List.mem_append, List.mem_singleton, or_comm]
  · exact hsame (hordered.insert_eq_self ((hmem x).mpr hx))

/-- **The tree is a search tree of the inserted set** after any calls: the order holds below
every node, the values are printed once each and in increasing order, and a value that is
present can be inserted again without a change. -/
theorem treeInserts_isSearchTree (malloc : ℕ ↪ ℕ) (value : ℤ) (values : List ℤ) :
    ∃ s root t, Returns (treeInserts malloc (newTree malloc value) values) (s, root) ∧
      Represents malloc s root t ∧ Ordered Prod.snd t ∧
      (∃ xs : List ℤ, Returns (fun fuel => treePrintInorder s.heap fuel root)
          (xs.map printed).flatten ∧ xs.Pairwise (· < ·) ∧ ∀ x, x ∈ xs ↔ x ∈ value :: values) ∧
      ∀ x ∈ value :: values, Returns (fun fuel => treeInsert malloc fuel s root x) (s, root) := by
  have hstart : IsSearchTree malloc (newTree malloc value).1 (newTree malloc value).2 [value]
      (.node (malloc 0, value) .nil .nil) :=
    ⟨represents_newTree malloc value, ⟨nofun, nofun, trivial, trivial⟩,
      fun x => by simp [eq_comm]⟩
  have hstep : ∀ (pre : List ℤ) (x : ℤ) (post : List ℤ) (tree : State × Option ℕ),
      pre ++ x :: post = values →
      (∃ t, IsSearchTree malloc tree.1 tree.2 (value :: pre) t) →
      ∃ tree', Returns (fun fuel => treeInsert malloc fuel tree.1 tree.2 x) tree' ∧
        ∃ t, IsSearchTree malloc tree'.1 tree'.2 (value :: (pre ++ [x])) t := by
    intro pre x post tree _ ⟨t, ht⟩
    obtain ⟨s', p', hreturns, ht', -⟩ := ht.treeInsert x
    exact ⟨(s', p'), hreturns, _, ht'⟩
  obtain ⟨⟨s, root⟩, hreturns, t, ht⟩ := Returns.foldlM (P := fun pre (tree : State × Option ℕ) =>
    ∃ t, IsSearchTree malloc tree.1 tree.2 (value :: pre) t) hstep ⟨_, hstart⟩
  refine ⟨s, root, t, hreturns, ht.represents, ht.ordered, ?_, fun x hx => ?_⟩
  · refine ⟨(inorder t).map Prod.snd, ?_, ?_, fun x => ?_⟩
    · have hprint := returns_treePrintInorder ht.represents.linked
      rw [← ht.represents.root_eq] at hprint
      rwa [List.map_map]
    · exact List.pairwise_map.mpr ht.ordered.inorder_lt
    · rw [List.mem_map]
      exact ht.mem_iff x
  · obtain ⟨s', p', hreturns', -, hsame⟩ := ht.treeInsert x
    obtain ⟨rfl, rfl⟩ := hsame hx
    exact hreturns'

end BareMetal.BinaryTree
