import BareMetal.Graphs.Traversal.BreadthFirst
import BareMetal.Math.Region

/-!
# Depth-first search in `BFS_and_DFS.c`

The array `visited` of `DFS` is static: the recursive calls share it, and it keeps its values
when a traversal is over. The first traversal of a process prints what `BFS` prints, in
another order. A later one is cut off at every vertex that an earlier one has marked.

## Main results

* `dfs_spec` — a call prints the region of its start, cut off at the marked vertices
* `dfs_prints_bfs` — the first traversal prints the vertices that `BFS` prints
* `dfs_independent_iff` — when a traversal does not depend on earlier ones
-/

namespace BareMetal.Traversal

open CS LinkedList Math Relation

variable {n : ℕ}

/-- The static array `visited`, and what is printed. -/
@[ext] structure Process (n : ℕ) where
  visited : Block n ℤ
  printed : List ℤ

/-- The body of the loop of `DFS`, with `call` for the recursive call. -/
def descend (matrix : Adjacency n) (call : Process n → ℤ → Outcome (Process n))
    (startVertex : ℤ) (process : Process n) (i : ℤ) : Outcome (Process n) := do
  let entry ← matrix.entry startVertex i
  if entry = 1 then do
    let seen ← process.visited.load i
    if seen = 0 then call process i else .ok process
  else .ok process

/-- `DFS`, to a recursion depth of at most `fuel`. -/
def dfs (matrix : Adjacency n) (matrixSize : ℤ) :
    ℕ → Process n → ℤ → Outcome (Process n)
  | 0, _, _ => .error .outOfFuel
  | fuel + 1, process, startVertex => do
    let seen ← process.visited.load startVertex
    if seen = 0 then do
      let visited ← process.visited.store startVertex 1
      (neighbours matrixSize).foldlM (descend matrix (dfs matrix matrixSize fuel) startVertex)
        ⟨visited, process.printed ++ [startVertex]⟩
    else .ok process

/-- A call of `DFS` from outside. The size fits the matrix. -/
structure Call (n : ℕ) where
  matrix : Adjacency n
  matrixSize : ℤ
  start : Fin n
  size_le : matrixSize ≤ n

/-- What the call prints and marks, on the array that earlier calls have left. -/
def Call.run (call : Call n) (fuel : ℕ) (visited : Block n ℤ) : Outcome (Process n) :=
  dfs call.matrix call.matrixSize fuel ⟨visited, []⟩ (call.start : ℕ)

/-- The array after the calls of a process, which starts with zeros. -/
def runCalls (fuel : ℕ) (calls : List (Call n)) : Outcome (Block n ℤ) :=
  calls.foldlM (fun visited call => do
    let process ← call.run fuel visited
    .ok process.visited) fun _ => 0

/-! ### What a call marks -/

variable {matrix : Adjacency n} {matrixSize j : ℤ} {process : Process n}
  {xs ys order : List (Fin n)} {r : Fin n → Fin n → Prop} {u v w : Fin n} {W S T : Set (Fin n)}
  {f g : ℕ → Process n → Outcome (Process n)}

/-- The vertices are marked and printed, one after the other. -/
def Process.visit (process : Process n) (order : List (Fin n)) : Process n where
  visited v := if v ∈ order then 1 else process.visited v
  printed := process.printed ++ labels order

@[simp] theorem visit_nil (process : Process n) : process.visit [] = process := by
  simp [Process.visit, labels]

@[simp] theorem visit_visit (process : Process n) (xs ys : List (Fin n)) :
    (process.visit xs).visit ys = process.visit (xs ++ ys) := by
  ext1
  · ext v
    by_cases hv : v ∈ ys <;> simp [Process.visit, hv]
  · simp [Process.visit]

theorem visit_singleton (process : Process n) (v : Fin n) :
    process.visit [v] =
      ⟨Function.update process.visited v 1, process.printed ++ [((v : ℕ) : ℤ)]⟩ := by
  ext1
  · ext u
    simp [Process.visit, Function.update_apply]
  · simp [Process.visit, labels]

/-- Among the vertices that can be reached from `v`, those of `W` are marked. -/
def Process.Marks (process : Process n) (r : Fin n → Fin n → Prop) (v : Fin n)
    (W : Set (Fin n)) : Prop :=
  ∀ u, ReflTransGen r v u → (process.visited u = 0 ↔ u ∉ W)

theorem Process.Marks.of_step (h : process.Marks r v W) (hstep : r v w) : process.Marks r w W :=
  fun u hu => h u (.head hstep hu)

theorem Process.Marks.visit (h : process.Marks r v W) (hmem : ∀ u, u ∈ order ↔ u ∈ S) :
    (process.visit order).Marks r v (W ∪ S) := by
  intro u hu
  by_cases hu' : u ∈ order
  · simp [Process.visit, hu', (hmem u).mp hu']
  · have hS : u ∉ S := fun hS => hu' ((hmem u).mpr hS)
    simp [Process.visit, hu', hS, h u hu]

/-- Where the vertices of `W` are marked, `f` marks and prints the region of `S` in the given
order. The marks that cannot be reached from `v` do not matter. -/
structure Explores (f : ℕ → Process n → Outcome (Process n)) (r : Fin n → Fin n → Prop) (v : Fin n)
    (W S : Set (Fin n)) (order : List (Fin n)) : Prop where
  nodup : order.Nodup
  mem_iff : ∀ u, u ∈ order ↔ u ∈ region r W S
  run : ∀ process, process.Marks r v W →
    Returns (fun fuel => f fuel process) (process.visit order)

theorem Explores.skip (hS : S ⊆ W)
    (hrun : ∀ process, process.Marks r v W → Returns (fun fuel => f fuel process) process) :
    Explores f r v W S [] where
  nodup := List.nodup_nil
  mem_iff u := by simp [region_eq_empty hS]
  run process hmarks := by simpa using hrun process hmarks

/-- The second part of an exploration goes on with the marks of the first. -/
theorem Explores.bind (h : Explores f r v W S xs)
    (h' : Explores g r v (W ∪ region r W S) T ys) :
    Explores (fun fuel process => f fuel process >>= g fuel) r v W (S ∪ T) (xs ++ ys) where
  nodup := by
    refine List.nodup_append.mpr ⟨h.nodup, h'.nodup, fun u hu u' hu' heq => ?_⟩
    subst heq
    exact notMem_of_mem_region ((h'.mem_iff u).mp hu') (Or.inr ((h.mem_iff u).mp hu))
  mem_iff u := by
    rw [List.mem_append, h.mem_iff, h'.mem_iff, ← union_region_union, Set.mem_union]
  run process hmarks := by
    have hrest := h'.run _ (hmarks.visit h.mem_iff)
    rw [visit_visit] at hrest
    exact (h.run process hmarks).bind (g := fun process fuel => g fuel process) hrest

/-- One pass of the loop: a neighbour that is not marked is explored. -/
theorem descend_explores (hw : ((w : ℕ) : ℤ) ∈ neighbours matrixSize)
    {call : ℕ → Process n → ℤ → Outcome (Process n)}
    (hcall : ∃ order, Explores (fun fuel process => call fuel process (w : ℕ))
      (Edge matrix matrixSize) w W {w} order) :
    ∃ order, Explores (fun fuel process => descend matrix (call fuel) (v : ℕ) process (w : ℕ))
      (Edge matrix matrixSize) v W {u | u = w ∧ matrix v w = 1} order := by
  by_cases hedge : matrix v w = 1
  · have hstep : Edge matrix matrixSize v w := edge_iff.mpr ⟨hedge, hw⟩
    have hset : {u | u = w ∧ matrix v w = 1} = {w} := by
      ext u
      simp [hedge]
    rw [hset]
    by_cases hW : w ∈ W
    · refine ⟨[], .skip (Set.singleton_subset_iff.mpr hW) fun process hmarks => .of_eq fun _ => ?_⟩
      have hseen : process.visited w ≠ 0 := fun hzero =>
        (hmarks w (.single hstep)).mp hzero hW
      simp [descend, hedge, hseen]
    · obtain ⟨order, h⟩ := hcall
      refine ⟨order, h.nodup, h.mem_iff, fun process hmarks => ?_⟩
      have hseen : process.visited w = 0 := (hmarks w (.single hstep)).mpr hW
      refine (h.run process (hmarks.of_step hstep)).congr fun _ => ?_
      simp [descend, hedge, hseen]
  · refine ⟨[], .skip (fun u hu => absurd hu.2 hedge) fun process _ => .of_eq fun _ => ?_⟩
    simp [descend, hedge]

/-- The loop explores the neighbours one after the other. The induction is on the neighbours
that are left, with more and more vertices marked. -/
theorem foldlM_descend_explores {js : List ℤ} (hsize : matrixSize ≤ n)
    (hjs : ∀ j ∈ js, j ∈ neighbours matrixSize)
    {call : ℕ → Process n → ℤ → Outcome (Process n)}
    (hcall : ∀ W', W ⊆ W' → ∀ w : Fin n, ∃ order,
      Explores (fun fuel process => call fuel process (w : ℕ)) (Edge matrix matrixSize)
        w W' {w} order) :
    ∃ order, Explores (fun fuel process => js.foldlM (descend matrix (call fuel) (v : ℕ)) process)
      (Edge matrix matrixSize) v W {u : Fin n | ((u : ℕ) : ℤ) ∈ js ∧ matrix v u = 1} order := by
  induction js generalizing W with
  | nil =>
    exact ⟨[], .skip (fun u hu => absurd hu.1 List.not_mem_nil) fun _ _ => .of_eq fun _ => rfl⟩
  | cons j js ih =>
    have hj := hjs j (List.mem_cons_self ..)
    obtain ⟨w, rfl⟩ := exists_vertex hsize hj
    obtain ⟨xs, hfirst⟩ := descend_explores (v := v) hj (hcall W Set.Subset.rfl w)
    obtain ⟨ys, hrest⟩ := ih (fun j hj => hjs j (List.mem_cons_of_mem _ hj))
      fun W' hW' => hcall W' (Set.subset_union_left.trans hW')
    have hset : {u : Fin n | ((u : ℕ) : ℤ) ∈ ((w : ℕ) : ℤ) :: js ∧ matrix v u = 1} =
        {u | u = w ∧ matrix v w = 1} ∪ {u : Fin n | ((u : ℕ) : ℤ) ∈ js ∧ matrix v u = 1} := by
      ext u
      simp only [List.mem_cons, Int.natCast_inj, Fin.val_inj, Set.mem_ofPred_eq, Set.mem_union,
        or_and_right]
      refine or_congr_left (and_congr_right fun heq => ?_)
      rw [heq]
    rw [hset]
    exact ⟨xs ++ ys, hfirst.bind hrest⟩

/-- **A depth-first search explores a region.** Every level of the recursion marks a vertex,
so the induction is on the number of unmarked vertices. -/
theorem dfs_spec (matrix : Adjacency n) (hsize : matrixSize ≤ n) (W : Set (Fin n)) (v : Fin n) :
    ∃ order, Explores (fun fuel process => dfs matrix matrixSize fuel process (v : ℕ))
      (Edge matrix matrixSize) v W {v} order := by
  induction hm : Set.ncard Wᶜ using Nat.strongRecOn generalizing W v with
  | ind m ih =>
    by_cases hv : v ∈ W
    · refine ⟨[], .skip (Set.singleton_subset_iff.mpr hv) fun process hmarks => ?_⟩
      have hseen : process.visited v ≠ 0 := fun hzero => (hmarks v .refl).mp hzero hv
      have hok : Returns (fun _ => .ok process) process := .of_eq fun _ => rfl
      exact hok.succ rfl fun _ => by simp [dfs, hseen]
    · have hcall : ∀ W', W ∪ {v} ⊆ W' → ∀ w : Fin n, ∃ order,
          Explores (fun fuel process => dfs matrix matrixSize fuel process (w : ℕ))
            (Edge matrix matrixSize) w W' {w} order := by
        intro W' hW' w
        have hlt := ncard_compl_lt (Set.subset_union_left.trans hW') hv (hW' (Or.inr rfl))
        exact ih _ (hm ▸ hlt) W' w rfl
      obtain ⟨order, h⟩ := foldlM_descend_explores (v := v) hsize (fun j hj => hj) hcall
      have hset : {u : Fin n | ((u : ℕ) : ℤ) ∈ neighbours matrixSize ∧ matrix v u = 1} =
          {u | Edge matrix matrixSize v u} := by
        ext u
        rw [Set.mem_ofPred_eq, Set.mem_ofPred_eq, edge_iff, and_comm]
      rw [hset] at h
      have hself : ∀ u, u ∈ [v] ↔ u ∈ ({v} : Set (Fin n)) := by simp
      refine ⟨[v] ++ order, List.nodup_cons.mpr ⟨fun hmem => ?_, h.nodup⟩, fun u => ?_,
        fun process hmarks => ?_⟩
      · exact notMem_of_mem_region ((h.mem_iff v).mp hmem) (Or.inr rfl)
      · rw [region_singleton hv, List.mem_append, hself, h.mem_iff, Set.mem_union]
      · have hseen : process.visited v = 0 := (hmarks v .refl).mpr hv
        have hrun := h.run (process.visit [v]) (hmarks.visit hself)
        rw [visit_visit, visit_singleton] at hrun
        exact hrun.succ rfl fun _ => by simp [dfs, hseen]

/-- **The first traversal prints what breadth-first search prints.** While no vertex is
marked, `DFS` terminates, prints no vertex twice, and prints a vertex exactly when `BFS`
does. -/
theorem dfs_prints_bfs (allocator : Allocator ℤ) (matrix : Adjacency n) (matrixSize : ℤ)
    (hsize : matrixSize ≤ n) (start : Fin n) (memory : Memory) (hempty : memory.queue = none)
    (hheap : memory.heap.Bounded) :
    ∃ process s,
      Returns (fun fuel => dfs matrix matrixSize fuel ⟨fun _ => 0, []⟩ (start : ℕ)) process ∧
        Returns (bfs allocator matrix matrixSize (start : ℕ) memory) s ∧
        process.printed.Nodup ∧ ∀ j, j ∈ process.printed ↔ j ∈ s.printed := by
  obtain ⟨order, h⟩ := dfs_spec matrix hsize ∅ start
  obtain ⟨s, found, hbfs, -, hsearching⟩ :=
    bfs_searching allocator matrix hsize start hempty hheap
  refine ⟨_, s, h.run ⟨fun _ => 0, []⟩ fun u _ => by simp, hbfs, ?_, ?_⟩
  · simpa [Process.visit] using nodup_labels h.nodup
  · have hmem : ∀ v, v ∈ order ↔ v ∈ found := by
      intro v
      rw [h.mem_iff, region_empty, hsearching.frontier.mem_iff, Set.mem_ofPred_eq]
    simpa [Process.visit, hsearching.printed_eq] using mem_labels_congr_iff.mpr hmem

/-- The traversals of `main`. -/
theorem dfs_prints_bfs_main :
    ∃ (process : Process 7) (s : Search 7),
      Returns (fun fuel => dfs mainMatrix 7 fuel ⟨fun _ => 0, []⟩ 1) process ∧
        Returns (bfs (.firstFit ℤ) mainMatrix 7 1 ⟨fun _ => none, none, 0⟩) s ∧
        process.printed.Nodup ∧ ∀ j, j ∈ process.printed ↔ j ∈ s.printed :=
  dfs_prints_bfs (.firstFit ℤ) mainMatrix 7 (by decide) 1 ⟨fun _ => none, none, 0⟩ rfl
    ⟨0, fun _ _ => rfl⟩

/-! ### Earlier traversals -/

theorem exists_runCalls (calls : List (Call n)) :
    ∃ visited, Returns (fun fuel => runCalls fuel calls) visited := by
  have hstep : ∀ before call after visited, before ++ call :: after = calls → True →
      ∃ visited' : Block n ℤ, Returns (fun fuel => do
        let process ← call.run fuel visited
        .ok process.visited) visited' ∧ True := by
    intro _ call _ visited _ _
    obtain ⟨order, h⟩ := dfs_spec call.matrix call.size_le {u | visited u ≠ 0} call.start
    have hrun : Returns (fun fuel => call.run fuel visited) _ :=
      h.run ⟨visited, []⟩ fun u _ => by simp
    exact ⟨_, hrun.map Process.visited, trivial⟩
  obtain ⟨visited, hreturns, -⟩ := Returns.foldlM (P := fun _ _ => True) hstep trivial
  exact ⟨visited, hreturns⟩

/-- No vertex that the call can reach is marked. -/
def Call.Clear (call : Call n) (visited : Block n ℤ) : Prop :=
  ∀ v, ReflTransGen (Edge call.matrix call.matrixSize) call.start v → visited v = 0

/-- **When a traversal does not depend on earlier ones.** After any calls of `DFS` a further
call prints the vertices that it prints as the first call exactly when no vertex that it can
reach is marked, and then it prints them in the same order. -/
theorem dfs_independent_iff (calls : List (Call n)) (call : Call n) :
    ∃ visited after alone, Returns (fun fuel => runCalls fuel calls) visited ∧
      Returns (fun fuel => call.run fuel visited) after ∧
      Returns (fun fuel => call.run fuel fun _ => 0) alone ∧
      ((∀ j, j ∈ after.printed ↔ j ∈ alone.printed) ↔ call.Clear visited) ∧
      (call.Clear visited → after.printed = alone.printed) := by
  obtain ⟨visited, hcalls⟩ := exists_runCalls calls
  obtain ⟨xs, hafter⟩ := dfs_spec call.matrix call.size_le {u | visited u ≠ 0} call.start
  obtain ⟨ys, halone⟩ := dfs_spec call.matrix call.size_le ∅ call.start
  have hrun := hafter.run ⟨visited, []⟩ fun u _ => by simp
  -- a call that meets no mark runs like the first one
  have hsame (hclear : call.Clear visited) : xs = ys := by
    have hrun' := halone.run ⟨visited, []⟩ fun u hu => by simp [hclear u hu]
    have hprinted := congrArg Process.printed (hrun.unique hrun')
    simpa [Process.visit] using labels_injective (List.append_cancel_left hprinted)
  have hiff : (∀ v, v ∈ xs ↔ v ∈ ys) ↔ call.Clear visited := by
    have hregion := region_eq_reachable_iff (r := Edge call.matrix call.matrixSize)
      (W := {u | visited u ≠ 0}) (a := call.start)
    rw [Set.ext_iff] at hregion
    simpa [hafter.mem_iff, halone.mem_iff, region_empty, Call.Clear] using hregion
  refine ⟨visited, _, _, hcalls, hrun, halone.run ⟨fun _ => 0, []⟩ fun u _ => by simp, ?_, ?_⟩
  · simpa [Process.visit, mem_labels_congr_iff] using hiff
  · intro hclear
    simp [Process.visit, hsame hclear]

/-- The traversal of `main`. -/
def mainCall : Call 7 := ⟨mainMatrix, 7, 1, by decide⟩

/-- The first traversal of a process prints six vertices, and the same call once more prints
nothing. -/
theorem second_traversal_prints_nothing :
    (mainCall.run 7 fun _ => 0).toOption.map Process.printed = some [1, 2, 4, 3, 5, 6] ∧
      (runCalls 7 [mainCall] >>= mainCall.run 7).toOption.map Process.printed = some [] := by
  decide

end BareMetal.Traversal
