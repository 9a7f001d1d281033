import Mathlib.Data.List.Nodup
import Mathlib.Logic.Relation
import Mathlib.Order.Lattice.Nat

/-!
# Breadth-first search

A breadth-first search has expanded the elements of `done` and keeps those that it has found
but not expanded in a queue. `Frontier` is its invariant: the elements are found in the order
of their distance from the start, and the queue spans no more than two distances.

## Main results

* `Frontier.push` — an element is found behind the head of the queue
* `Frontier.pop` — the head is expanded, and the next element becomes the head
* `Frontier.mem_iff` — with an empty queue, everything that can be reached is found
-/

namespace Math

open Relation

variable {α : Type*} {r : α → α → Prop} {start a b c v w : α} {k : ℕ}

/-! ### Distances -/

/-- There is a path of `k` steps. -/
inductive Hops (r : α → α → Prop) (a : α) : ℕ → α → Prop
  | zero : Hops r a 0 a
  | succ {k : ℕ} {b c : α} : Hops r a k b → r b c → Hops r a (k + 1) c

theorem exists_hops_iff : (∃ k, Hops r a k b) ↔ ReflTransGen r a b := by
  constructor
  · rintro ⟨k, h⟩
    induction h with
    | zero => exact .refl
    | succ _ hbc ih => exact ih.tail hbc
  · intro h
    induction h with
    | refl => exact ⟨0, .zero⟩
    | tail _ hbc ih =>
      obtain ⟨k, hk⟩ := ih
      exact ⟨k + 1, hk.succ hbc⟩

/-- The number of steps of a shortest path. -/
noncomputable def distance (r : α → α → Prop) (a b : α) : ℕ := sInf {k | Hops r a k b}

theorem distance_le (h : Hops r a k b) : distance r a b ≤ k := Nat.sInf_le h

theorem hops_distance (h : ReflTransGen r a b) : Hops r a (distance r a b) b :=
  Nat.sInf_mem (exists_hops_iff.mpr h)

@[simp] theorem distance_self (r : α → α → Prop) (a : α) : distance r a a = 0 :=
  Nat.le_zero.mp (distance_le .zero)

theorem distance_step_le (hab : ReflTransGen r a b) (hbc : r b c) :
    distance r a c ≤ distance r a b + 1 :=
  distance_le ((hops_distance hab).succ hbc)

/-- An element at a positive distance has a predecessor on a shortest path. -/
theorem exists_predecessor (hac : ReflTransGen r a c) (hne : c ≠ a) :
    ∃ b, ReflTransGen r a b ∧ r b c ∧ distance r a b + 1 = distance r a c := by
  have hops := hops_distance hac
  generalize hk : distance r a c = k at hops
  cases hops with
  | zero => exact absurd rfl hne
  | @succ k b _ hb hbc =>
    have hab : ReflTransGen r a b := exists_hops_iff.mp ⟨k, hb⟩
    have hle := distance_le hb
    have hstep := distance_step_le hab hbc
    exact ⟨b, hab, hbc, by omega⟩

/-! ### The queue -/

variable {done queue : List α}

/-- The elements of `done` are expanded, those of `queue` are found. -/
structure Frontier (r : α → α → Prop) (start : α) (done queue : List α) : Prop where
  nodup : (done ++ queue).Nodup
  start_mem : start ∈ done ++ queue
  reachable : ∀ v ∈ done ++ queue, ReflTransGen r start v
  closed : ∀ v ∈ done, ∀ w, r v w → w ∈ done ++ queue
  sorted : (done ++ queue).Pairwise fun v w => distance r start v ≤ distance r start w
  near : ∀ v ∈ queue.head?, ∀ w ∈ queue, distance r start w ≤ distance r start v + 1

namespace Frontier

theorem init (r : α → α → Prop) (start : α) : Frontier r start [] [start] where
  nodup := List.nodup_singleton start
  start_mem := List.mem_singleton_self start
  reachable v hv := by
    rw [List.nil_append, List.mem_singleton] at hv
    exact hv ▸ .refl
  closed v hv := absurd hv List.not_mem_nil
  sorted := List.pairwise_singleton _ _
  near v hv w hw := by
    rw [List.mem_singleton] at hw
    simp [hw]

/-- What is closer to the start than the head of the queue is expanded. The induction is on
the distance: the predecessor on a shortest path is expanded, so the element is found, and
it is not in the queue. -/
theorem mem_done (h : Frontier r start done (a :: queue)) (hv : ReflTransGen r start v)
    (hlt : distance r start v < distance r start a) : v ∈ done := by
  -- what is found and closer than the head is not in the queue
  have hfound : ∀ w ∈ done ++ a :: queue, distance r start w < distance r start a → w ∈ done := by
    intro w hw hlt
    rcases List.mem_append.mp hw with hdone | hw
    · exact hdone
    · rcases List.mem_cons.mp hw with rfl | hw
      · exact absurd hlt (Nat.lt_irrefl _)
      · have hle := List.rel_of_pairwise_cons (List.pairwise_append.mp h.sorted).2.1 hw
        exact absurd hlt (Nat.not_lt.mpr hle)
  induction hd : distance r start v using Nat.strongRecOn generalizing v with
  | ind d ih =>
    by_cases hstart : v = start
    · exact hfound v (hstart ▸ h.start_mem) hlt
    · obtain ⟨u, hu, huv, hnext⟩ := exists_predecessor hv hstart
      have hudone : u ∈ done := ih (distance r start u) (by omega) hu (by omega) rfl
      exact hfound v (h.closed u hudone v huv) hlt

/-- A successor of the head that has not been found is one step further away. -/
theorem distance_eq (h : Frontier r start done (a :: queue)) (hab : r a b)
    (hnew : b ∉ done ++ a :: queue) : distance r start b = distance r start a + 1 := by
  have ha : ReflTransGen r start a := h.reachable a (by simp)
  have hle := distance_step_le ha hab
  by_contra hne
  have hstart : b ≠ start := fun heq => hnew (heq ▸ h.start_mem)
  obtain ⟨u, hu, hub, hnext⟩ := exists_predecessor (ha.tail hab) hstart
  -- the predecessor is expanded, so `b` has been found
  exact hnew (h.closed u (h.mem_done hu (by omega)) b hub)

theorem push (h : Frontier r start done (a :: queue)) (hab : r a b)
    (hnew : b ∉ done ++ a :: queue) : Frontier r start done (a :: (queue ++ [b])) := by
  have ha : ReflTransGen r start a := h.reachable a (by simp)
  have hd := h.distance_eq hab hnew
  have hlist : done ++ a :: (queue ++ [b]) = (done ++ a :: queue) ++ [b] := by simp
  have hnear : ∀ w ∈ a :: queue, distance r start w ≤ distance r start b := by
    intro w hw
    rw [hd]
    exact h.near a rfl w hw
  constructor
  · rw [hlist, ← List.concat_eq_append]
    exact h.nodup.concat hnew
  · rw [hlist]
    exact List.mem_append_left _ h.start_mem
  · intro v hv
    rw [hlist, List.mem_append, List.mem_singleton] at hv
    rcases hv with hv | rfl
    · exact h.reachable v hv
    · exact ha.tail hab
  · intro v hv w hvw
    rw [hlist]
    exact List.mem_append_left _ (h.closed v hv w hvw)
  · rw [hlist, List.pairwise_append]
    refine ⟨h.sorted, List.pairwise_singleton _ _, fun v hv w hw => ?_⟩
    rw [List.mem_singleton.mp hw]
    rcases List.mem_append.mp hv with hdone | hv
    · have hle := (List.pairwise_append.mp h.sorted).2.2 v hdone a (by simp)
      omega
    · exact hnear v hv
  · intro v hv w hw
    obtain rfl : a = v := Option.some.inj hv
    rw [← List.cons_append, List.mem_append, List.mem_singleton] at hw
    rcases hw with hw | rfl
    · exact h.near a rfl w hw
    · exact hd.le

/-- The head is expanded when all its successors are found. -/
theorem pop (h : Frontier r start done (a :: queue))
    (hclosed : ∀ b, r a b → b ∈ done ++ a :: queue) : Frontier r start (done ++ [a]) queue := by
  have hlist : (done ++ [a]) ++ queue = done ++ a :: queue := by simp
  constructor
  · exact hlist ▸ h.nodup
  · exact hlist ▸ h.start_mem
  · exact hlist ▸ h.reachable
  · intro v hv w hvw
    rw [hlist]
    rcases List.mem_append.mp hv with hv | hv
    · exact h.closed v hv w hvw
    · rw [List.mem_singleton.mp hv] at hvw
      exact hclosed w hvw
  · exact hlist ▸ h.sorted
  · intro v hv w hw
    have hav : distance r start a ≤ distance r start v :=
      List.rel_of_pairwise_cons (List.pairwise_append.mp h.sorted).2.1 (List.mem_of_mem_head? hv)
    have hwa := h.near a rfl w (List.mem_cons_of_mem a hw)
    omega

/-- When the queue is empty, everything has been found. -/
theorem mem_iff (h : Frontier r start done []) : v ∈ done ↔ ReflTransGen r start v := by
  have hlist : done ++ [] = done := List.append_nil done
  constructor
  · intro hv
    exact h.reachable v (hlist.symm ▸ hv)
  · intro hv
    induction hv with
    | refl => exact hlist ▸ h.start_mem
    | tail _ hbc ih => exact hlist ▸ h.closed _ ih _ hbc

end Frontier

end Math
