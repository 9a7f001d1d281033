import BareMetal.CS.Reversal

/-!
# The reversal of `pointer_problems/inplace_mutation.c`

The function takes a pointer to the struct that holds the head, and it returns this pointer.
It leaves an empty list alone, where the walk would find nothing to turn.

## Main results

* `exists_reverseList` — a call reverses the list of the struct, and a second call restores it
-/

namespace BareMetal.InplaceMutation

open CS LinkedList

/-- `reverse_list`. -/
def reverseList (m : HeaderMemory ℤ) (list : Option ℕ) (fuel : ℕ) :
    Outcome (HeaderMemory ℤ × Option ℕ) := do
  let head ← m.loadHead list
  if head = none then .ok (m, list)
  else do
    let (nodes, prev) ← reverseLinks m.nodes head fuel
    let m ← HeaderMemory.storeHead { m with nodes := nodes } list prev
    .ok (m, list)

variable {m : HeaderMemory ℤ} {list : ℕ} {nodes : List (ℕ × ℤ)} {head head' : Option ℕ}
  {heap : Heap ℤ}

/-- A call does what the walk does. -/
theorem returns_reverseList (hlist : m.lists list = some ⟨head⟩)
    (hwalk : Returns (reverseLinks m.nodes head) (heap, head')) :
    Returns (reverseList m (some list))
      (⟨heap, Function.update m.lists list (some ⟨head'⟩)⟩, some list) := by
  cases head with
  | none =>
    -- the walk along an empty list leaves everything as it is
    obtain ⟨rfl, rfl⟩ : heap = m.nodes ∧ head' = none :=
      Prod.mk.inj (hwalk.unique (.loop_leave rfl))
    have hsame : Function.update m.lists list (some ⟨none⟩) = m.lists := by
      rw [← hlist, Function.update_eq_self]
    rw [hsame]
    refine .of_eq fun fuel => ?_
    rw [reverseList, HeaderMemory.loadHead_some hlist, Outcome.ok_bind, if_pos rfl]
  | some a =>
    let finish (walk : Heap ℤ × Option ℕ) (_ : ℕ) : Outcome (HeaderMemory ℤ × Option ℕ) := do
      let m ← HeaderMemory.storeHead { m with nodes := walk.1 } (some list) walk.2
      .ok (m, some list)
    refine (hwalk.bind (g := finish) (.of_eq fun _ => ?_)).congr fun fuel => ?_
    · have hlist' : (⟨heap, m.lists⟩ : HeaderMemory ℤ).lists list = some ⟨some a⟩ := hlist
      simp only [finish, HeaderMemory.storeHead_some hlist', Outcome.ok_bind]
    · rw [reverseList, HeaderMemory.loadHead_some hlist, Outcome.ok_bind, if_neg (by simp)]

/-- **Reversal in place**, for the list of a struct. -/
theorem exists_reverseList (hlist : m.lists list = some ⟨first nodes⟩)
    (h : Chain m.nodes nodes) (hnodup : (addresses nodes).Nodup) :
    ∃ m', Returns (reverseList m (some list)) (m', some list) ∧
      m'.lists list = some ⟨first nodes.reverse⟩ ∧ Chain m'.nodes nodes.reverse ∧
      (∀ b, b ∉ addresses nodes → m'.nodes b = m.nodes b) ∧
      (∀ c, c ≠ list → m'.lists c = m.lists c) ∧
      Returns (reverseList m' (some list)) (m, some list) := by
  obtain ⟨heap, hwalk, hchain, hframe, hback⟩ := isReversal_reverseLinks m.nodes nodes h hnodup
  refine ⟨_, returns_reverseList hlist hwalk, Function.update_self .., hchain, hframe,
    fun c hc => Function.update_of_ne hc .., ?_⟩
  have hreturns := returns_reverseList
    (m := ⟨heap, Function.update m.lists list (some ⟨first nodes.reverse⟩)⟩)
    (Function.update_self ..) hback
  rwa [Function.update_idem, ← hlist, Function.update_eq_self] at hreturns

end BareMetal.InplaceMutation
