import BareMetal.CS.Block
import BareMetal.CS.Chains
import BareMetal.CS.Tally

/-!
# The course graph of `problems/course_manager.c`

`setup_dag` makes every course the head of its own list and appends the prerequisites of
the course to that list. But a course has a single `next` pointer, and it is the same
course object that heads its own list and is appended to the lists of others: what is
appended to one list is appended to every list that ends in the same course.

The number of courses is a parameter. A table gives each course up to two prerequisites;
an entry `none` stands for `-1`.

## Main results

* `addEdge_linked` — one appended prerequisite
* `lists_iff` — every list is the course with its own prerequisites exactly when no course
  has two prerequisites and no prerequisite has one itself
-/

namespace BareMetal.CourseManager

open CS LinkedList

/-- `PREREQUISITE`. -/
abbrev prerequisite : ℕ := 2

/-- `Course`, without the pointer to the next one and what only `print` reads. -/
structure Course where
  prerequisite : Block prerequisite ℤ

variable {n : ℕ}

/-- `get_dependency`. -/
def getDependency (courses : Block n ℕ) (heap : Heap Course) (courseIdx : Fin n)
    (dependencyIdx : Fin prerequisite) (depId : ℤ) : Outcome (Option ℕ) := do
  let course ← heap.load (some (courses courseIdx))
  if course.value.prerequisite dependencyIdx = depId then do
    let depCourse ← courses.load depId
    .ok (some depCourse)
  else .ok none

/-- The end of one pass of the inner loop of `setup_dag`, where `current` is the last
course of the list. -/
def linkDependency (courses : Block n ℕ) (i : Fin n) (j : Fin prerequisite) (heap : Heap Course)
    (current : ℕ) : Outcome (Heap Course) := do
  let course ← heap.load (some (courses i))
  let depCourse ← getDependency courses heap i j (course.value.prerequisite j)
  let node ← heap.load (some current)
  heap.store (some current) { node with next := depCourse }

/-- One pass of the inner loop of `setup_dag`. -/
def addEdge (courses courseDag : Block n ℕ) (i : Fin n) (heap : Heap Course)
    (j : Fin prerequisite) (fuel : ℕ) : Outcome (Heap Course) := do
  let head ← heap.load (some (courseDag i))
  if head.value.prerequisite j = -1 then .ok heap
  else do
    let current ← loop (lastPass heap) fuel (courseDag i)
    linkDependency courses i j heap current

/-- One pass of the second loop of `setup_dag`. -/
def setupCourse (courses courseDag : Block n ℕ) (heap : Heap Course) (i : Fin n) (fuel : ℕ) :
    Outcome (Heap Course) := do
  let course ← heap.load (some (courses i))
  let first ← course.value.prerequisite.load 0
  let second ← course.value.prerequisite.load 1
  if first = -1 ∧ second = -1 then .ok heap
  else
    (List.finRange prerequisite).foldlM
      (fun heap j => addEdge courses courseDag i heap j fuel) heap

/-- `setup_dag`, with the heads of the lists. -/
def setupDag (courses : Block n ℕ) (heap : Heap Course) (fuel : ℕ) :
    Outcome (Heap Course × Block n ℕ) := do
  -- the first loop replaces the courses it allocates by those it is given
  let courseDag := courses
  let heap ← (List.finRange n).foldlM
    (fun heap i => setupCourse courses courseDag heap i fuel) heap
  .ok (heap, courseDag)

/-! ### Tables of prerequisites -/

/-- The prerequisites of each course. -/
abbrev Table (n : ℕ) := Fin n → Fin prerequisite → Option (Fin n)

/-- An entry as it is in the course. -/
def entry : Option (Fin n) → ℤ
  | none => -1
  | some k => (k : ℕ)

/-- The prerequisites of a course in the order of the table. -/
def own (table : Table n) (i : Fin n) : List (Fin n) :=
  (List.finRange prerequisite).filterMap (table i)

/-- No course has two prerequisites, and no prerequisite has one itself. -/
def Flat (table : Table n) : Prop :=
  ∀ i, (own table i).length ≤ 1 ∧ ∀ k ∈ own table i, own table k = []

instance (table : Table n) : Decidable (Flat table) :=
  inferInstanceAs (Decidable (∀ i, _ ∧ ∀ k ∈ own table i, _))

/-- The courses are at their addresses, with their prerequisites and the successors
`next`. -/
def Linked (courses : Fin n ↪ ℕ) (table : Table n) (next : Fin n → Option (Fin n))
    (heap : Heap Course) : Prop :=
  ∀ i, heap (courses i) = some ⟨⟨fun j => entry (table i j)⟩, (next i).map courses⟩

/-- The list of course `i` is the course, followed by its own prerequisites. -/
def Lists (courses : Fin n ↪ ℕ) (table : Table n) (heap : Heap Course) (courseDag : Block n ℕ)
    (i : Fin n) : Prop :=
  ∃ nodes, Chain heap nodes ∧ first nodes = some (courseDag i) ∧
    addresses nodes = (i :: own table i).map courses

variable {courses : Fin n ↪ ℕ} {table : Table n} {next : Fin n → Option (Fin n)}
  {heap heap' : Heap Course} {i k l d : Fin n} {j : Fin prerequisite} {a fuel : ℕ}

theorem entry_ne_neg_one (k : Fin n) : entry (some k) ≠ -1 := by
  simp only [entry]
  omega

theorem entry_eq_neg_one_iff {e : Option (Fin n)} : entry e = -1 ↔ e = none := by
  cases e with
  | none => simp [entry]
  | some k => simp [entry_ne_neg_one]

/-! ### One prerequisite -/

/-- What a course holds. -/
theorem Linked.load (h : Linked courses table next heap) (i : Fin n) :
    heap.load (some (courses i)) =
      .ok ⟨⟨fun j => entry (table i j)⟩, (next i).map courses⟩ :=
  Heap.load_some (h i)

/-- The dependency goes behind `current`, whichever course that is. -/
theorem Linked.link (h : Linked courses table next heap) (hj : table i j = some d)
    (l : Fin n) :
    ∃ heap', linkDependency courses i j heap (courses l) = .ok heap' ∧
      Linked courses table (Function.update next l (some d)) heap' := by
  have hdep : getDependency courses heap i j (entry (table i j)) = .ok (some (courses d)) := by
    rw [getDependency, h.load, Outcome.ok_bind, if_pos rfl, hj, entry, Block.load_natCast,
      Outcome.ok_bind]
  refine ⟨Function.update heap (courses l)
    (some ⟨⟨fun j => entry (table l j)⟩, some (courses d)⟩), ?_, fun k => ?_⟩
  · rw [linkDependency, h.load, Outcome.ok_bind, hdep, Outcome.ok_bind, h.load,
      Outcome.ok_bind, Heap.store_some (h l)]
  · rcases eq_or_ne k l with rfl | hne
    · simp
    · rw [Function.update_of_ne hne, Function.update_of_ne (courses.injective.ne hne)]
      exact h k

/-- A walk ends at a course without successor. -/
theorem Linked.exists_last (h : Linked courses table next heap) {m : ℕ}
    (hwalk : LeavesAfter (lastPass heap) m (courses i) a) : ∃ l, a = courses l ∧ next l = none := by
  induction m generalizing i with
  | zero =>
    cases hwalk with
    | leave hpass =>
      rw [lastPass, h.load, Outcome.ok_bind] at hpass
      cases hnext : next i with
      | none =>
        simp only [hnext] at hpass
        cases hpass
        exact ⟨i, rfl, hnext⟩
      | some k =>
        simp only [hnext] at hpass
        cases hpass
  | succ m ih =>
    cases hwalk with
    | again hpass hrest =>
      rw [lastPass, h.load, Outcome.ok_bind] at hpass
      cases hnext : next i with
      | none =>
        simp only [hnext] at hpass
        cases hpass
      | some k =>
        simp only [hnext] at hpass
        cases hpass
        exact ih hrest

/-- Without an entry nothing is appended. -/
theorem Linked.addEdge_none (h : Linked courses table next heap) (hj : table i j = none)
    (fuel : ℕ) : addEdge courses courses i heap j fuel = .ok heap := by
  rw [addEdge, h.load, Outcome.ok_bind]
  exact if_pos (congrArg entry hj)

/-- With an entry it is appended behind the course where the walk ends. -/
theorem Linked.addEdge_some (h : Linked courses table next heap) (hj : table i j = some d)
    (fuel : ℕ) :
    addEdge courses courses i heap j fuel =
      loop (lastPass heap) fuel (courses i) >>= linkDependency courses i j heap := by
  rw [addEdge, h.load, Outcome.ok_bind]
  refine if_neg ?_
  dsimp only
  rw [hj]
  exact entry_ne_neg_one d

/-- **One appended prerequisite.** It becomes the successor of some course that had none. -/
theorem addEdge_linked (h : Linked courses table next heap) (hj : table i j = some d)
    (hrun : addEdge courses courses i heap j fuel = .ok heap') :
    ∃ l, next l = none ∧ Linked courses table (Function.update next l (some d)) heap' := by
  rw [h.addEdge_some hj] at hrun
  obtain ⟨current, hwalk, hlink⟩ := Outcome.bind_eq_ok.mp hrun
  obtain ⟨m, -, hleaves⟩ := loop_eq_ok_iff.mp hwalk
  obtain ⟨l, rfl, hlast⟩ := h.exists_last hleaves
  obtain ⟨heap₁, hok, hlinked⟩ := h.link hj l
  cases hok.symm.trans hlink
  exact ⟨l, hlast, hlinked⟩

/-- A course that heads a list of one gets the prerequisite itself. -/
theorem Linked.addEdge_head (h : Linked courses table next heap) (hj : table i j = some d)
    (hhead : next i = none) :
    ∃ heap', Returns (addEdge courses courses i heap j) heap' ∧
      Linked courses table (Function.update next i (some d)) heap' := by
  obtain ⟨heap', hlink, hlinked⟩ := h.link hj i
  have hpass : lastPass heap (courses i) = .ok (.leave (courses i)) := by
    rw [lastPass, h.load, Outcome.ok_bind, hhead]
    rfl
  have hwalk : Returns (fun fuel => loop (lastPass heap) fuel (courses i)) (courses i) :=
    .loop (.leave hpass)
  have hreturns := hwalk.bind (g := fun current _ => linkDependency courses i j heap current)
    (.of_eq fun _ => hlink)
  exact ⟨heap', hreturns.congr (h.addEdge_some hj), hlinked⟩

/-! ### All prerequisites of a course -/

theorem load_first (prerequisites : Block prerequisite ℤ) :
    prerequisites.load 0 = .ok (prerequisites 0) := Block.load_natCast prerequisites 0

theorem load_second (prerequisites : Block prerequisite ℤ) :
    prerequisites.load 1 = .ok (prerequisites 1) := Block.load_natCast prerequisites 1

/-- A course whose entries are both `-1` is skipped. -/
theorem Linked.setupCourse_skip (h : Linked courses table next heap) (hown : own table i = [])
    (fuel : ℕ) : setupCourse courses courses heap i fuel = .ok heap := by
  have hnone : ∀ j, table i j = none := by
    intro j
    exact List.filterMap_eq_nil_iff.mp hown j (List.mem_finRange j)
  rw [setupCourse, h.load, Outcome.ok_bind, load_first, Outcome.ok_bind, load_second,
    Outcome.ok_bind]
  exact if_pos ⟨congrArg entry (hnone 0), congrArg entry (hnone 1)⟩

/-- The other courses take the inner loop. -/
theorem Linked.setupCourse_loop (h : Linked courses table next heap) (hown : own table i ≠ [])
    (fuel : ℕ) :
    setupCourse courses courses heap i fuel =
      (List.finRange prerequisite).foldlM
        (fun heap j => addEdge courses courses i heap j fuel) heap := by
  rw [setupCourse, h.load, Outcome.ok_bind, load_first, Outcome.ok_bind, load_second,
    Outcome.ok_bind]
  refine if_neg fun hboth => hown ?_
  have hzero := entry_eq_neg_one_iff.mp hboth.1
  have hone := entry_eq_neg_one_iff.mp hboth.2
  have hnone : ∀ j, table i j = none := Fin.forall_fin_two.mpr ⟨hzero, hone⟩
  exact List.filterMap_eq_nil_iff.mpr fun j _ => hnone j

/-- The number of courses that have a successor. -/
def linked (next : Fin n → Option (Fin n)) : ℕ :=
  tally (fun _ k => if k = none then 0 else 1) next

/-- A new successor of a course that had none. -/
theorem linked_update (hl : next l = none) (d : Fin n) :
    linked (Function.update next l (some d)) = linked next + 1 := by
  have hmove := tally_move (fun _ k => if k = none then 0 else 1) hl (some d)
  simpa [linked] using hmove

/-- Every prerequisite that is appended links one more course. -/
theorem setupCourse_linked (h : Linked courses table next heap)
    (hrun : setupCourse courses courses heap i fuel = .ok heap') :
    ∃ next', Linked courses table next' heap' ∧
      linked next' = linked next + (own table i).length := by
  by_cases hown : own table i = []
  · rw [h.setupCourse_skip hown] at hrun
    cases hrun
    exact ⟨next, h, by simp [hown]⟩
  · rw [h.setupCourse_loop hown] at hrun
    refine foldlM_invariant (P := fun js heap => ∃ next', Linked courses table next' heap ∧
      linked next' = linked next + (js.filterMap (table i)).length) ?_
      ⟨next, h, by simp⟩ hrun
    rintro pre j heap₁ heap₂ ⟨next₁, h₁, hlinked⟩ hedge
    cases hj : table i j with
    | none =>
      rw [h₁.addEdge_none hj] at hedge
      cases hedge
      exact ⟨next₁, h₁, by simp [hj, hlinked]⟩
    | some d =>
      obtain ⟨l, hl, h₂⟩ := addEdge_linked h₁ hj hedge
      refine ⟨_, h₂, ?_⟩
      rw [linked_update hl, hlinked]
      simp [hj, Nat.add_assoc]

/-- A course with at most one prerequisite and no successor gets that prerequisite as its
successor. -/
theorem Linked.setup (h : Linked courses table next heap)
    (hown : (own table i).length ≤ 1) (hhead : next i = none) :
    ∃ heap', Returns (setupCourse courses courses heap i) heap' ∧
      Linked courses table (Function.update next i (own table i).head?) heap' := by
  by_cases hnil : own table i = []
  · refine ⟨heap, .of_eq fun fuel => h.setupCourse_skip hnil fuel, ?_⟩
    rwa [hnil, List.head?_nil, ← hhead, Function.update_eq_self]
  · rw [funext fun fuel => h.setupCourse_loop hnil fuel]
    refine Returns.foldlM (P := fun js heap => Linked courses table
      (Function.update next i (js.filterMap (table i)).head?) heap) ?_ ?_
    · intro pre j post heap₁ hsplit h₁
      cases hj : table i j with
      | none =>
        exact ⟨heap₁, .of_eq fun fuel => h₁.addEdge_none hj fuel, by simpa [hj] using h₁⟩
      | some d =>
        -- this is the only prerequisite, so the course has no successor yet
        have hpre : pre.filterMap (table i) = [] := by
          rw [own, ← hsplit] at hown
          simp only [List.filterMap_append, List.filterMap_cons, hj, List.length_append,
            List.length_cons] at hown
          exact List.length_eq_zero_iff.mp (by omega)
        rw [hpre] at h₁
        obtain ⟨heap₂, hreturns, h₂⟩ := h₁.addEdge_head hj (by simp)
        refine ⟨heap₂, hreturns, ?_⟩
        simpa [hpre, hj] using h₂
    · simpa [← hhead] using h

/-! ### The whole table -/

/-- In a run that returns, every prerequisite in the table has linked one more course. -/
theorem setupDag_linked {courseDag : Block n ℕ} (h : Linked courses table (fun _ => none) heap)
    (hrun : setupDag courses heap fuel = .ok (heap', courseDag)) :
    ∃ next, Linked courses table next heap' ∧ linked next = ∑ i, (own table i).length := by
  obtain ⟨heap₁, hloop, hok⟩ := Outcome.bind_eq_ok.mp hrun
  cases hok
  rw [Fin.sum_univ_def]
  refine foldlM_invariant (P := fun is heap => ∃ next, Linked courses table next heap ∧
    linked next = (is.map fun i => (own table i).length).sum) ?_ ⟨_, h, by simp [linked, tally]⟩
    hloop
  rintro pre i heap₁ heap₂ ⟨next, h₁, hlinked⟩ hcourse
  obtain ⟨next', h₂, hlinked'⟩ := setupCourse_linked h₁ hcourse
  exact ⟨next', h₂, by simp [hlinked', hlinked]⟩

/-- On a flat table every course gets its prerequisite as its successor. -/
theorem setupDag_flat (hflat : Flat table) (h : Linked courses table (fun _ => none) heap) :
    ∃ heap', Returns (setupDag courses heap) (heap', courses) ∧
      Linked courses table (fun i => (own table i).head?) heap' := by
  have hpass : ∀ pre i post heap₁, pre ++ i :: post = List.finRange n →
      Linked courses table (fun k => if k ∈ pre then (own table k).head? else none) heap₁ →
      ∃ heap₂, Returns (setupCourse courses courses heap₁ i) heap₂ ∧
        Linked courses table (fun k => if k ∈ pre ++ [i] then (own table k).head? else none)
          heap₂ := by
    intro pre i post heap₁ hsplit h₁
    -- no course comes twice
    have hfresh : i ∉ pre := by
      have hnodup := List.nodup_finRange n
      rw [← hsplit] at hnodup
      exact fun hmem => List.disjoint_of_nodup_append hnodup hmem (List.mem_cons_self ..)
    obtain ⟨heap₂, hreturns, h₂⟩ := h₁.setup (hflat i).1 (if_neg hfresh)
    refine ⟨heap₂, hreturns, ?_⟩
    convert h₂ using 1
    ext k : 1
    rcases eq_or_ne k i with rfl | hne
    · simp
    · simp [hne]
  obtain ⟨heap', hreturns, hlinked⟩ := Returns.foldlM (P := fun is heap => Linked courses table
    (fun k => if k ∈ is then (own table k).head? else none) heap) hpass (by simpa using h)
  refine ⟨heap', hreturns.map fun heap => (heap, (courses : Block n ℕ)), ?_⟩
  simpa using hlinked

/-- The successor of a course that heads a chain, and the rest of the chain. -/
theorem Linked.next_eq (h : Linked courses table next heap) {is : List (Fin n)}
    {nodes : List (ℕ × Course)} (hchain : Chain heap nodes)
    (haddresses : addresses nodes = (i :: is).map courses) :
    next i = is.head? ∧ ∃ rest, Chain heap rest ∧ addresses rest = is.map courses := by
  cases nodes with
  | nil => cases haddresses
  | cons node rest =>
    obtain ⟨a, v⟩ := node
    obtain ⟨rfl, hrest⟩ : a = courses i ∧ addresses rest = is.map courses :=
      List.cons.inj haddresses
    refine ⟨Option.map_injective courses.injective ?_, rest, hchain.2, hrest⟩
    have hfirst := (Node.mk.inj (Option.some.inj ((h i).symm.trans hchain.1))).2
    rw [hfirst, first, hrest, List.head?_map]

/-- A course whose successor is its only prerequisite, which has none. -/
theorem Linked.lists (h : Linked courses table (fun i => (own table i).head?) heap)
    (hflat : Flat table) (i : Fin n) : Lists courses table heap courses i := by
  have hcell := h i
  dsimp only at hcell
  cases hown : own table i with
  | nil =>
    rw [hown] at hcell
    exact ⟨[(courses i, _)], ⟨hcell, trivial⟩, rfl, by simp [hown]⟩
  | cons k rest =>
    -- there is no second prerequisite, and the first one ends the list
    have hrest : rest = [] := by
      have hle := (hflat i).1
      rw [hown, List.length_cons] at hle
      exact List.length_eq_zero_iff.mp (by omega)
    have hk : own table k = [] := (hflat i).2 k (by simp [hown])
    have hlast := h k
    dsimp only at hlast
    rw [hk] at hlast
    rw [hown] at hcell
    exact ⟨[(courses i, _), (courses k, _)], ⟨hcell, hlast, trivial⟩, rfl, by simp [hown, hrest]⟩

/-- **Lists of prerequisites.** Whatever the number of courses and the table, `setup_dag`
returns and leaves for every course the finite list of the course and its own prerequisites
in the order of the table exactly when no course has two prerequisites and no prerequisite
has one itself. -/
theorem lists_iff (courses : Fin n ↪ ℕ) (table : Table n) (heap : Heap Course)
    (hloaded : Linked courses table (fun _ => none) heap) :
    (∃ heap' courseDag, Returns (setupDag courses heap) (heap', courseDag) ∧
        ∀ i, Lists courses table heap' courseDag i) ↔ Flat table := by
  constructor
  · rintro ⟨heap', courseDag, hreturns, hlists⟩
    obtain ⟨fuel, hrun⟩ := hreturns.exists_ok
    obtain ⟨next, hlinked, hcount⟩ := setupDag_linked hloaded hrun
    have hnext : ∀ i, next i = (own table i).head? := by
      intro i
      obtain ⟨nodes, hchain, -, haddresses⟩ := hlists i
      exact (hlinked.next_eq hchain haddresses).1
    -- as many courses have a successor as there are prerequisites
    have hle : ∀ i ∈ Finset.univ, (if next i = none then 0 else 1) ≤ (own table i).length := by
      intro i _
      rw [hnext i]
      cases own table i <;> simp
    have hone := (Finset.sum_eq_sum_iff_of_le hle).mp hcount
    refine fun i => ⟨?_, fun k hk => ?_⟩
    · rw [← hone i (Finset.mem_univ i)]
      split_ifs <;> simp
    · -- the only prerequisite of a course ends the list of the course
      have hlength := hone i (Finset.mem_univ i)
      obtain ⟨nodes, hchain, -, haddresses⟩ := hlists i
      obtain ⟨-, rest, hrest, haddr⟩ := hlinked.next_eq hchain haddresses
      have hown : own table i = [k] := by
        cases hlist : own table i with
        | nil => simp [hlist] at hk
        | cons k' ks =>
          have hks : ks = [] := by
            rw [hlist, List.length_cons] at hlength
            split_ifs at hlength
            exact List.length_eq_zero_iff.mp (by omega)
          rw [hlist, hks, List.mem_singleton] at hk
          rw [hk, hks]
      rw [hown] at haddr
      have hlast := (hlinked.next_eq hrest haddr).1
      rw [hnext k] at hlast
      simpa using hlast
  · intro hflat
    obtain ⟨heap', hreturns, hlinked⟩ := setupDag_flat hflat hloaded
    exact ⟨heap', courses, hreturns, hlinked.lists hflat⟩

/-! ### The table of `main` -/

/-- Courses at the addresses `0, 1, …`. -/
def loaded (table : Table n) : Heap Course := fun a =>
  if h : a < n then some ⟨⟨fun j => entry (table ⟨a, h⟩ j)⟩, none⟩ else none

theorem linked_loaded (table : Table n) :
    Linked Fin.valEmbedding table (fun _ => none) (loaded table) := by
  intro i
  simp [loaded]

/-- One course with one prerequisite. -/
theorem lists_iff_two :
    ∃ heap' courseDag,
      Returns (setupDag Fin.valEmbedding (loaded ![![none, none], ![some (0 : Fin 2), none]]))
        (heap', courseDag) ∧
      ∀ i, Lists Fin.valEmbedding ![![none, none], ![some 0, none]] heap' courseDag i :=
  (lists_iff _ _ _ (linked_loaded _)).mpr (by decide)

/-- `load_prerequisite`. -/
def loadPrerequisite : Table 4 :=
  ![![none, none], ![some 0, none], ![some 1, none], ![some 2, none]]

/-- With the table of `main`, in which every course comes after its prerequisites, the list
of Calculus goes on from Trigonometry to Algebra. -/
theorem main_calculus_lists_algebra :
    (∀ i, ∀ k ∈ own loadPrerequisite i, k < i) ∧
      ¬ ∃ heap' courseDag,
        Returns (setupDag Fin.valEmbedding (loaded loadPrerequisite)) (heap', courseDag) ∧
          ∀ i, Lists Fin.valEmbedding loadPrerequisite heap' courseDag i := by
  refine ⟨by decide, ?_⟩
  rintro ⟨heap', courseDag, hreturns, hlists⟩
  -- Trigonometry points to Algebra
  have hsuccessor : ((setupDag (Fin.valEmbedding : Fin 4 ↪ ℕ) (loaded loadPrerequisite)
      4).toOption.map fun r => (r.1 1).bind Node.next) = some (some 0) := by decide
  cases hrun : setupDag (Fin.valEmbedding : Fin 4 ↪ ℕ) (loaded loadPrerequisite) 4 with
  | error e =>
    rw [hrun] at hsuccessor
    cases hsuccessor
  | ok r =>
    rw [hrun, hreturns.eq_of_ok hrun] at hsuccessor
    have halgebra : (heap' 1).bind Node.next = some 0 := Option.some.inj hsuccessor
    -- in the list of Calculus it would be the last course
    obtain ⟨next, hlinked, -⟩ :=
      setupDag_linked (linked_loaded loadPrerequisite) (hreturns.eq_of_ok hrun ▸ hrun)
    obtain ⟨nodes, hchain, -, haddresses⟩ := hlists 2
    have hown : own loadPrerequisite 2 = [1] := by decide
    rw [hown] at haddresses
    obtain ⟨-, rest, hrest, htrigonometry⟩ := hlinked.next_eq hchain haddresses
    have hlast : next 1 = none := (hlinked.next_eq hrest htrigonometry).1
    have hcell := hlinked 1
    rw [hlast] at hcell
    rw [show (1 : ℕ) = Fin.valEmbedding (1 : Fin 4) from rfl, hcell] at halgebra
    cases halgebra

end BareMetal.CourseManager
