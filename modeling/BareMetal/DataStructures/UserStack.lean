import BareMetal.CS.Block
import BareMetal.CS.CellHeap
import BareMetal.CS.StringCopy
import BareMetal.CS.Transition
import Mathlib.Algebra.Order.Ring.Int
import Mathlib.Data.List.Nodup

/-!
# The stack of users of `data-structures/stack.c`

The pointers to the users lie in the first slots of an array, the top in the last of them, and
a slot keeps its pointer when its user is popped. `pop` copies the user to a new block and frees
the old one. `push` compares the size that it would bring about with the capacity, and refuses
the user that would take the last slot.

## Main results

* `Holds.push`, `Holds.pop` — one call each
* `Holds.agrees_push_iff`, `Holds.agrees_pop` — whether it is that of a stack for five users
* `lifo_iff` — a run agrees with a stack for five users exactly when no call of `push` meets four
* `push_fifth` — the fifth user is refused
-/

namespace BareMetal.UserStack

open CS StringCopy Transition

/-- `USER_LENGTH`. -/
def userLength : ℕ := 10

/-- `STACK_CAPACITY`. -/
def stackCapacity : ℕ := 5

/-- `struct User`. -/
structure User where
  name : CString
  age : ℤ
  deriving DecidableEq, Repr

/-- A user in memory from `calloc`. -/
def User.zero : User := ⟨List.replicate userLength 0, 0⟩

/-- The users in memory, the stack, and the pointers that `pop` has returned. -/
structure State where
  heap : ℕ → Option User
  users : Block stackCapacity (Option ℕ)
  size : ℤ
  returned : List ℕ

/-- `init_stack`. -/
def initStack : State := ⟨fun _ => none, fun _ => none, 0, []⟩

/-- `push`, with the pointer that `calloc` returns. -/
def push (s : State) (name : TextBuffer) (nameLength age : ℤ) (user : Option ℕ) :
    Outcome State := do
  let next ← addInt s.size 1
  if next ≥ stackCapacity then
    .error (.exit 1 "Stack max capacity (5) reached, please pop before pushing new item\n")
  else if nameLength ≥ userLength then
    .error (.exit 1 "The name of the user is too long, max length allowed = 10\n")
  else
    match user with
    | none => .error (.exit 1 "")
    | some a => do
      let heap := Function.update s.heap a (some { User.zero with age := age })
      let users ← s.users.store s.size (some a)
      let top ← users.load s.size
      let user ← CellHeap.load heap top
      -- a negative length becomes a large `size_t`
      let copy ← strncpy user.name 0 name.cells (nameLength % 2 ^ 64).toNat
      let heap ← CellHeap.modify heap top fun user => { user with name := copy }
      .ok { s with heap := heap, users := users, size := next }

/-- `pop`, with the pointer that `calloc` returns. -/
def pop (s : State) (root : Option ℕ) : Outcome State :=
  if s.size = 0 then .error (.exit 1 "Cannot pop an empty stack\n")
  else
    match root with
    | none => .error (.exit 1 "")
    | some a => do
      let last ← subInt s.size 1
      let top ← s.users.load last
      let user ← CellHeap.load (Function.update s.heap a (some User.zero)) top
      let heap ← CellHeap.free (Function.update s.heap a (some user)) top
      .ok { s with heap := heap, size := last, returned := s.returned ++ [a] }

/-! ### Sequences of calls -/

/-- The calls of a program, with the pointers that `calloc` returns in them. -/
inductive Call
  | push (name : TextBuffer) (age : ℤ) (user : ℕ)
  | pop (root : ℕ)

/-- The name is short enough, and `calloc` returns the address of nothing that is allocated. -/
def Call.Fits (s : State) : Call → Prop
  | .push name _ user => name.chars.length < userLength ∧ s.heap user = none
  | .pop root => s.heap root = none

/-- One call, `push` with the length of the name. -/
def perform (s : State) : Call → Outcome State
  | .push name age user => push s name name.chars.length age (some user)
  | .pop root => pop s (some root)

/-- Programs that work with a stack from `init_stack`. The run ends with a call that does not
return. -/
def system : System (Outcome State) Call where
  start out := out = .ok initStack
  step out call out' := ∃ s, out = .ok s ∧ call.Fits s ∧ out' = perform s call

/-- The user of a call of `push`, with zeros behind the name. -/
def User.new (name : TextBuffer) (age : ℤ) : User := ⟨padded name.chars userLength, age⟩

/-- What a call does to a stack for five users and to the users that were popped. -/
def Call.act (stored popped : List User) : Call → Option (List User × List User)
  | .push name age _ =>
    if stored.length < stackCapacity then some (User.new name age :: stored, popped) else none
  | .pop _ =>
    match stored with
    | [] => none
    | user :: stored => some (stored, popped ++ [user])

/-- A stack for five users after the calls, and the users that were popped. -/
def lifo (calls : List Call) : Option (List User × List User) :=
  calls.foldlM (fun s call => call.act s.1 s.2) ([], [])

@[simp] theorem lifo_nil : lifo [] = some ([], []) := rfl

theorem lifo_concat (calls : List Call) (call : Call) :
    lifo (calls ++ [call]) = (lifo calls).bind fun s => call.act s.1 s.2 := by
  simp [lifo, Option.bind_eq_bind]

/-! ### Slots and users -/

/-- The pointers `ptrs` from the top down. -/
def Stacked (users : Block stackCapacity (Option ℕ)) : List ℕ → Prop
  | [] => True
  | a :: ptrs => users.load ptrs.length = .ok (some a) ∧ Stacked users ptrs

/-- The slots have the users `stored`, the top first, and the users `popped` have been returned
in memory of their own. -/
structure Holds (s : State) (ptrs : List ℕ) (stored popped : List User) : Prop where
  stacked : Stacked s.users ptrs
  size_eq : s.size = ptrs.length
  stored_eq : ptrs.map s.heap = stored.map some
  popped_eq : s.returned.map s.heap = popped.map some
  nodup : (ptrs ++ s.returned).Nodup

/-- What is to hold after the calls: the stack agrees with a stack for five users, or both have
refused a call. -/
def Agrees (calls : List Call) : Outcome State → Prop
  | .ok s => ∃ ptrs stored popped, lifo calls = some (stored, popped) ∧ Holds s ptrs stored popped
  | .error stop => lifo calls = none ∧ ∃ code message, stop = .exit code message

variable {s s' : State} {ptrs : List ℕ} {stored popped : List User} {name : TextBuffer}
  {age : ℤ} {a : ℕ} {users : Block stackCapacity (Option ℕ)}

theorem Holds.init : Holds initStack [] [] [] := ⟨trivial, rfl, rfl, rfl, List.nodup_nil⟩

theorem Holds.length_eq (h : Holds s ptrs stored popped) : ptrs.length = stored.length := by
  simpa using congrArg List.length h.stored_eq

/-- A slot above the stack. -/
theorem Stacked.update (h : Stacked users ptrs) {k : Fin stackCapacity} (hk : ptrs.length ≤ k)
    (p : Option ℕ) : Stacked (Function.update users k p) ptrs := by
  induction ptrs with
  | nil => trivial
  | cons b ptrs ih =>
    obtain ⟨hload, hrest⟩ := h
    rw [List.length_cons] at hk
    refine ⟨?_, ih hrest (by omega)⟩
    obtain ⟨j, hj, hvalue⟩ := Block.exists_of_load hload
    have hne : j ≠ k := by
      rintro rfl
      omega
    rw [hj, Block.load_natCast, Function.update_of_ne hne, ← hvalue]

/-- Nothing that is stored or returned is at an address that is free. -/
theorem Holds.not_mem (h : Holds s ptrs stored popped) (ha : s.heap a = none) :
    a ∉ ptrs ++ s.returned := by
  intro hmem
  -- everywhere in these memory blocks there is a user
  have hvalues : (ptrs ++ s.returned).map s.heap = (stored ++ popped).map some := by
    rw [List.map_append, List.map_append, h.stored_eq, h.popped_eq]
  have hnone : none ∈ (stored ++ popped).map some := by
    rw [← hvalues, ← ha]
    exact List.mem_map_of_mem hmem
  obtain ⟨user, -, hsome⟩ := List.mem_map.mp hnone
  cases hsome

/-- A change at other addresses. -/
theorem map_update {xs : List ℕ} (heap : ℕ → Option User) (c : Option User) (ha : a ∉ xs) :
    xs.map (Function.update heap a c) = xs.map heap :=
  List.map_congr_left fun _ hb => Function.update_of_ne (ne_of_mem_of_not_mem hb ha) ..

/-- A pointer in the first slot above the stack. -/
theorem Stacked.store (h : Stacked users ptrs) (hlt : ptrs.length < stackCapacity) (a : ℕ) :
    ∃ users', users.store ptrs.length (some a) = .ok users' ∧
      users'.load ptrs.length = .ok (some a) ∧ Stacked users' (a :: ptrs) := by
  have hload := Block.load_natCast
    (Function.update users ⟨ptrs.length, hlt⟩ (some a)) ⟨ptrs.length, hlt⟩
  rw [Function.update_self] at hload
  exact ⟨_, Block.store_natCast users ⟨ptrs.length, hlt⟩ (some a), hload, hload,
    h.update (Nat.le_refl _) _⟩

theorem Stacked.length_le (h : Stacked users ptrs) : ptrs.length ≤ stackCapacity := by
  cases ptrs with
  | nil => exact Nat.zero_le _
  | cons a ptrs =>
    obtain ⟨k, hk, -⟩ := Block.exists_of_load h.1
    rw [List.length_cons]
    omega

/-! ### `push` -/

/-- `strncpy` of a short name, without its terminator, into a name of zeros. -/
theorem strncpy_name (h : name.chars.length < userLength) :
    strncpy User.zero.name 0 name.cells ((name.chars.length : ℤ) % 2 ^ 64).toNat =
      .ok (padded name.chars userLength) := by
  have hlength : ((name.chars.length : ℤ) % 2 ^ 64).toNat = name.chars.length := by
    rw [userLength] at h
    omega
  have hold : (List.replicate name.chars.length (0 : Int8)).length = name.chars.length :=
    List.length_replicate
  have hcopy : strncpy ([] ++ List.replicate name.chars.length 0 ++
      List.replicate (userLength - name.chars.length) 0) ([] : CString).length name.cells
        name.chars.length = .ok ([] ++ padded name.chars name.chars.length ++
          List.replicate (userLength - name.chars.length) 0) :=
    strncpy_eq _ _ name.nul_notMem hold name.rest
  -- the characters are written over the first zeros, and the others stay
  have hzero : User.zero.name = List.replicate name.chars.length 0 ++
      List.replicate (userLength - name.chars.length) 0 := by
    rw [← List.replicate_add, Nat.add_sub_cancel' (Nat.le_of_lt h)]
    rfl
  have hpadded : padded name.chars name.chars.length = name.chars := by
    simp [padded]
  rw [List.nil_append, List.nil_append, hpadded, ← hzero] at hcopy
  rw [hlength, padded, List.take_of_length_le (Nat.le_of_lt h)]
  exact hcopy

theorem addInt_size (h : Holds s ptrs stored popped) : addInt s.size 1 = .ok (s.size + 1) := by
  have hle := h.stacked.length_le
  rw [stackCapacity] at hle
  rw [h.size_eq]
  apply addInt_one
  rw [intMax]
  omega

/-- A user that would take the last slot is refused. -/
theorem Holds.push_full (h : Holds s ptrs stored popped) (hfull : stackCapacity ≤ s.size + 1) :
    perform s (.push name age a) = .error
      (.exit 1 "Stack max capacity (5) reached, please pop before pushing new item\n") := by
  rw [perform, UserStack.push, addInt_size h, Outcome.ok_bind, if_pos hfull]

/-- **`push`** puts a user on top of the others, in a slot that is not the last one. -/
theorem Holds.push (h : Holds s ptrs stored popped) (hroom : s.size + 1 < stackCapacity)
    (hfits : Call.Fits s (.push name age a)) :
    ∃ s', perform s (.push name age a) = .ok s' ∧
      Holds s' (a :: ptrs) (User.new name age :: stored) popped ∧
      ∀ b, b ≠ a → s'.heap b = s.heap b := by
  obtain ⟨hname, hfree⟩ := hfits
  have hlt : ptrs.length < stackCapacity := by
    have hsize := h.size_eq
    omega
  have hnext := addInt_size h
  have hnew := h.not_mem hfree
  obtain ⟨hfresh, hfreshReturned⟩ := not_or.mp (mt List.mem_append.mpr hnew)
  obtain ⟨users', hstore, htop, hstacked⟩ := h.stacked.store hlt a
  rw [← h.size_eq] at hstore htop
  refine ⟨⟨Function.update s.heap a (some (User.new name age)), users', s.size + 1, s.returned⟩,
    ?_, ?_, fun b hb => Function.update_of_ne hb ..⟩
  · -- the top slot leads to the user that `calloc` has returned
    have hcell : Function.update s.heap a (some { User.zero with age := age }) a =
        some { User.zero with age := age } := Function.update_self ..
    rw [perform, UserStack.push, hnext, Outcome.ok_bind, if_neg (by omega), if_neg (by omega)]
    dsimp only
    rw [hstore, Outcome.ok_bind, htop, Outcome.ok_bind, CellHeap.load_some hcell, Outcome.ok_bind,
      strncpy_name hname, Outcome.ok_bind, CellHeap.modify_some hcell, Outcome.ok_bind,
      Function.update_idem]
    rfl
  · refine ⟨hstacked, ?_, ?_, ?_, List.nodup_cons.mpr ⟨hnew, h.nodup⟩⟩
    · rw [h.size_eq, List.length_cons]
      rfl
    · dsimp only
      rw [List.map_cons, List.map_cons, Function.update_self, map_update _ _ hfresh, h.stored_eq]
    · rw [map_update _ _ hfreshReturned, h.popped_eq]

/-! ### `pop` -/

theorem Holds.pop_nil (h : Holds s [] stored popped) (root : ℕ) :
    perform s (.pop root) = .error (.exit 1 "Cannot pop an empty stack\n") := by
  have hsize : s.size = 0 := h.size_eq
  rw [perform, UserStack.pop, if_pos hsize]

/-- **`pop`** returns a copy of the user on top and frees it. -/
theorem Holds.pop {user : User} {root : ℕ} (h : Holds s (a :: ptrs) (user :: stored) popped)
    (hfits : Call.Fits s (.pop root)) :
    ∃ s', perform s (.pop root) = .ok s' ∧ Holds s' ptrs stored (popped ++ [user]) := by
  have hnew := h.not_mem hfits
  obtain ⟨hfresh, hfreshReturned⟩ := not_or.mp (mt List.mem_append.mpr hnew)
  obtain ⟨hne, hfreshRest⟩ := List.ne_and_not_mem_of_not_mem_cons hfresh
  obtain ⟨huser, hstored⟩ := List.cons.inj h.stored_eq
  obtain ⟨hold, hnodup⟩ := List.nodup_cons.mp h.nodup
  obtain ⟨holdRest, holdReturned⟩ := not_or.mp (mt List.mem_append.mpr hold)
  have hsize : s.size = ptrs.length + 1 := by
    rw [h.size_eq, List.length_cons]
    rfl
  have hlast : subInt s.size 1 = .ok (ptrs.length : ℤ) := by
    have hle := h.stacked.length_le
    have hdiff : ((a :: ptrs).length : ℤ) - 1 = ptrs.length := by
      rw [List.length_cons]
      omega
    rw [h.size_eq, subInt_one, hdiff]
    rw [stackCapacity] at hle
    rw [intMax]
    omega
  refine ⟨⟨Function.update (Function.update s.heap root (some user)) a none, s.users,
    ptrs.length, s.returned ++ [root]⟩, ?_, ?_⟩
  · -- the block for the copy is not the user that is copied
    have hcell : Function.update s.heap root (some User.zero) a = some user := by
      rw [Function.update_of_ne hne.symm, huser]
    have hcopied : Function.update s.heap root (some user) a = some user := by
      rw [Function.update_of_ne hne.symm, huser]
    rw [perform, UserStack.pop, if_neg (by omega)]
    rw [hlast, Outcome.ok_bind, h.stacked.1, Outcome.ok_bind, CellHeap.load_some hcell,
      Outcome.ok_bind, CellHeap.free_some hcopied, Outcome.ok_bind]
  · refine ⟨h.stacked.2, rfl, ?_, ?_, ?_⟩
    · rw [map_update _ _ holdRest, map_update _ _ hfreshRest, hstored]
    · rw [List.map_append, List.map_append, map_update _ _ holdReturned,
        map_update _ _ hfreshReturned, h.popped_eq]
      simp [Function.update_of_ne hne]
    · rw [← List.append_assoc, ← List.concat_eq_append]
      apply hnodup.concat
      exact fun hmem => hnew (List.mem_cons_of_mem _ hmem)

/-! ### Runs -/

/-- A call of `push` agrees unless there are four users. -/
theorem Holds.agrees_push_iff {calls : List Call} (h : Holds s ptrs stored popped)
    (hlifo : lifo calls = some (stored, popped)) (hfits : Call.Fits s (.push name age a)) :
    Agrees (calls ++ [.push name age a]) (perform s (.push name age a)) ↔ s.size ≠ 4 := by
  have hsize := h.size_eq
  rw [h.length_eq] at hsize
  have hnext := lifo_concat calls (.push name age a)
  rw [hlifo, Option.bind_some, Call.act] at hnext
  dsimp only at hnext
  rcases Int.lt_or_le (s.size + 1) stackCapacity with hroom | hfull
  · obtain ⟨s', heq, hholds, -⟩ := h.push hroom hfits
    rw [if_pos (by omega)] at hnext
    rw [heq]
    refine iff_of_true ⟨_, _, _, hnext, hholds⟩ ?_
    rw [stackCapacity] at hroom
    omega
  · rw [h.push_full hfull]
    by_cases hfour : s.size = 4
    · -- there is room for one more, and the call is refused
      have hlt : stored.length < stackCapacity := by
        rw [stackCapacity]
        omega
      rw [if_pos hlt] at hnext
      refine iff_of_false (fun hagrees => ?_) (not_not.mpr hfour)
      cases hnext.symm.trans hagrees.1
    · have hge : ¬ stored.length < stackCapacity := by
        rw [stackCapacity] at hfull ⊢
        omega
      rw [if_neg hge] at hnext
      exact iff_of_true ⟨hnext, _, _, rfl⟩ hfour

/-- A call of `pop` always agrees. -/
theorem Holds.agrees_pop {calls : List Call} {root : ℕ} (h : Holds s ptrs stored popped)
    (hlifo : lifo calls = some (stored, popped)) (hfits : Call.Fits s (.pop root)) :
    Agrees (calls ++ [.pop root]) (perform s (.pop root)) := by
  have hlength := h.length_eq
  have hnext := lifo_concat calls (.pop root)
  rw [hlifo, Option.bind_some] at hnext
  rcases stored with _ | ⟨user, stored⟩
  · obtain rfl := List.eq_nil_of_length_eq_zero hlength
    rw [h.pop_nil]
    exact ⟨hnext, _, _, rfl⟩
  · rcases ptrs with _ | ⟨a, ptrs⟩
    · cases hlength
    obtain ⟨s', heq, hholds⟩ := h.pop hfits
    rw [heq]
    exact ⟨_, _, _, hnext, hholds⟩

/-- **Last in, first out.** At every stage of a run the code agrees with a stack for five users,
if and only if no call of `push` meets a stack with exactly four. -/
theorem lifo_iff {trace : Trace (Outcome State) Call} {out : Outcome State}
    (hrun : Run system trace out) :
    (∀ pre v, Stage trace out pre v → Agrees (events pre) v) ↔
      ∀ v call, (v, call) ∈ trace →
        ∀ s name age user, v = .ok s → call = .push name age user → s.size ≠ 4 := by
  refine hrun.stages_iff (P := fun pre v => Agrees (events pre) v)
    (C := fun v call => ∀ s name age user, v = .ok s → call = .push name age user → s.size ≠ 4)
    (fun v hv => ?_) ?_
  · cases hv
    exact ⟨[], [], [], rfl, Holds.init⟩
  · intro trace v call v' _ hstages hstep
    obtain ⟨s, rfl, hfits, rfl⟩ := hstep
    obtain ⟨ptrs, stored, popped, hlifo, hholds⟩ := hstages trace _ (Stage.last _ _)
    rw [events_concat]
    cases call with
    | push name age user =>
      refine (hholds.agrees_push_iff hlifo hfits).trans ⟨fun hsize t _ _ _ ht _ => ?_, fun hC => ?_⟩
      · cases ht
        exact hsize
      · exact hC s name age user rfl rfl
    | pop root =>
      exact iff_of_true (hholds.agrees_pop hlifo hfits) fun t _ _ _ _ hcall => nomatch hcall

/-- A user with a name of three letters, at the address `i`. -/
def pushUser (i : ℕ) : Call := .push (TextBuffer.ofLength 3) 47 i

/-- The run of one `push`. -/
theorem lifo_iff_onePush : ∃ s, ∀ pre v,
    Stage [(.ok initStack, pushUser 0)] (.ok s) pre v → Agrees (events pre) v := by
  have hfits : Call.Fits initStack (pushUser 0) := ⟨by decide, rfl⟩
  obtain ⟨s, heq, -, -⟩ := Holds.init.push (by decide) hfits
  have hstep : system.step (.ok initStack) (pushUser 0) (.ok s) :=
    ⟨initStack, rfl, hfits, heq.symm⟩
  refine ⟨s, (lifo_iff (Run.step (.start rfl) hstep)).mpr ?_⟩
  intro v call hmem t _ _ _ ht _
  cases List.mem_singleton.mp hmem
  cases ht
  decide

/-- The first users, at the addresses from 0 on. -/
theorem run_pushUser {k : ℕ} (hk : k ≤ 4) :
    ∃ trace s ptrs stored, Run system trace (.ok s) ∧
      events trace = (List.range k).map pushUser ∧ Holds s ptrs stored [] ∧ s.size = k ∧
      lifo (events trace) = some (stored, []) ∧ ∀ b, k ≤ b → s.heap b = none := by
  induction k with
  | zero => exact ⟨[], initStack, [], [], .start rfl, rfl, Holds.init, rfl, rfl, fun _ _ => rfl⟩
  | succ k ih =>
    obtain ⟨trace, s, ptrs, stored, hrun, hevents, hholds, hsize, hlifo, hfree⟩ := ih (by omega)
    have hfits : Call.Fits s (pushUser k) := ⟨by decide, hfree k (Nat.le_refl k)⟩
    have hroom : s.size + 1 < stackCapacity := by
      rw [stackCapacity]
      omega
    obtain ⟨s', heq, hholds', hframe⟩ := hholds.push hroom hfits
    have hstep : system.step (.ok s) (pushUser k) (.ok s') := ⟨s, rfl, hfits, heq.symm⟩
    refine ⟨_, s', _, _, hrun.step hstep, ?_, hholds', ?_, ?_, fun b hb => ?_⟩
    · rw [events_concat, hevents, List.range_succ, List.map_append, List.map_singleton]
    · have hlength := hholds.size_eq
      rw [hholds'.size_eq, List.length_cons]
      omega
    · have hlt : stored.length < stackCapacity := by
        have hlength := hholds.size_eq
        rw [hholds.length_eq] at hlength
        omega
      rw [events_concat, lifo_concat, hlifo, Option.bind_some, pushUser, Call.act, if_pos hlt]
    · rw [hframe b (by omega), hfree b (by omega)]

/-- The fifth user is refused, although a stack for five users has room for it. -/
theorem push_fifth :
    ∃ trace stored, Run system trace (.error (.exit 1
        "Stack max capacity (5) reached, please pop before pushing new item\n")) ∧
      events trace = (List.range 5).map pushUser ∧ lifo (events trace) = some (stored, []) := by
  obtain ⟨trace, s, ptrs, stored, hrun, hevents, hholds, hsize, hlifo, hfree⟩ :=
    run_pushUser (Nat.le_refl 4)
  have hfits : Call.Fits s (pushUser 4) := ⟨by decide, hfree 4 (Nat.le_refl 4)⟩
  have hfull : (stackCapacity : ℤ) ≤ s.size + 1 := by
    rw [stackCapacity, hsize]
    decide
  have hstep := hrun.step ⟨s, rfl, hfits, (hholds.push_full hfull).symm⟩
  refine ⟨_, User.new (TextBuffer.ofLength 3) 47 :: stored, hstep, ?_, ?_⟩
  · rw [events_concat, hevents]
    rfl
  · have hlt : stored.length < stackCapacity := by
      have hlength := hholds.size_eq
      rw [hholds.length_eq, hsize] at hlength
      rw [stackCapacity]
      omega
    rw [events_concat, lifo_concat, hlifo, Option.bind_some]
    exact if_pos hlt

end BareMetal.UserStack
