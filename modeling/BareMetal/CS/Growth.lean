import BareMetal.CS.Calls
import BareMetal.CS.Cells
import Mathlib.Algebra.Order.Ring.Nat

/-!
# Arrays that double

An array that is full asks `realloc` for twice its cells before it takes another value. How
sizes are counted is a parameter: `Sizes` holds the arithmetic of the type of the capacity, and
`Sizes.Limit` says up to which capacity it is exact and what a capacity above that comes to.

## Main results

* `growth_iff` — every push writes inside the array, and the array holds what was pushed,
  exactly when the first capacity is not zero and no capacity passes the limit
-/

namespace CS

namespace Growth

variable {α : Type}

/-- `realloc` with memory to spare. A block for no cells may be the null pointer. -/
structure Realloc (α : Type) where
  resize : List α → ℕ → Option (List α)
  length : ∀ {old n new}, resize old n = some new → new.length = n
  grow : ∀ old n, 0 < n → old.length ≤ n → ∃ new, resize old n = some new ∧ old <+: new

/-- A `realloc` that copies what fits and fills the rest up. -/
def Realloc.copying (fill : α) : Realloc α where
  resize old n := some (old.take n ++ List.replicate (n - old.length) fill)
  length := by
    intro old n new h
    cases h
    rw [List.length_append, List.length_take, List.length_replicate]
    omega
  grow := by
    intro old n _ hle
    refine ⟨_, rfl, ?_⟩
    rw [List.take_of_length_le hle]
    exact List.prefix_append ..

/-- The same with the null pointer for a block without cells. -/
def Realloc.orNull (realloc : Realloc α) : Realloc α where
  resize old n := if n = 0 then none else realloc.resize old n
  length := by
    intro old n new h
    split_ifs at h
    exact realloc.length h
  grow := by
    intro old n hpos hle
    rw [if_neg (Nat.pos_iff_ne_zero.mp hpos)]
    exact realloc.grow old n hpos hle

/-- `calloc(count, width)`: a null pointer, with no cells behind it, where the bytes are not a
`size_t`. -/
def calloc (zero : α) (width : ℕ) (count : ℤ) : List α :=
  let n := (count % 2 ^ 64).toNat
  if n * width < 2 ^ 64 then List.replicate n zero else []

/-- The arithmetic of the type in which an array counts its cells. -/
structure Sizes where
  /-- `capacity * 2`. -/
  double : ℤ → Outcome ℤ
  /-- `size + 1`. -/
  next : ℤ → Outcome ℤ
  /-- The cells that have room in `capacity * sizeof(…)` bytes. -/
  cells : ℤ → ℕ

/-- Capacities up to the limit are exact. One above it leaves no more cells than there were. -/
structure Sizes.Limit (sizes : Sizes) (limit : ℕ) : Prop where
  double_eq : ∀ n : ℕ, 2 * n ≤ limit → sizes.double n = .ok ((2 * n : ℕ) : ℤ)
  next_eq : ∀ n : ℕ, n < limit → sizes.next n = .ok ((n + 1 : ℕ) : ℤ)
  cells_eq : ∀ n : ℕ, n ≤ limit → sizes.cells n = n
  cells_le : ∀ (n : ℕ) (m : ℤ), n ≤ limit → limit < 2 * n → sizes.double n = .ok m →
    sizes.cells m ≤ n

/-- An array with room for more than it holds. -/
structure Growable (α : Type) where
  data : List α
  size : ℤ
  capacity : ℤ
  deriving DecidableEq, Repr

/-- Make room where there is none. -/
def resize (sizes : Sizes) (realloc : Realloc α) (message : String) (v : Growable α) :
    Outcome (Growable α) :=
  if v.size = v.capacity then do
    let capacity ← sizes.double v.capacity
    match realloc.resize v.data (sizes.cells capacity) with
    | none => .error (.exit 1 message)
    | some data => .ok { v with data := data, capacity := capacity }
  else .ok v

/-- One more value. -/
def push (sizes : Sizes) (realloc : Realloc α) (message : String) (v : Growable α) (value : α) :
    Outcome (Growable α) := do
  let v ← resize sizes realloc message v
  let data ← Cells.store v.data v.size value
  let size ← sizes.next v.size
  .ok { v with data := data, size := size }

/-- The first cells are the values. -/
def Stores (v : Growable α) (values : List α) : Prop :=
  v.size = values.length ∧ values <+: v.data

/-- Every push returns, writes below the capacity, and leaves an array with all values that were
pushed. -/
def InBounds (push : Growable α → α → Outcome (Growable α)) (v : Growable α) (values : List α) :
    Prop :=
  AllCalls (fun pre value => ∃ v₁ v₂, pre.foldlM push v = .ok v₁ ∧ push v₁ value = .ok v₂ ∧
    v₁.size < v₂.capacity ∧ Stores v₂ (pre ++ [value])) values

/-- A new array of `c` cells, with no cell at all where their bytes are too many. -/
structure IsNew (limit c : ℕ) (v : Growable α) : Prop where
  size_eq : v.size = 0
  capacity_eq : v.capacity = c
  length_eq : v.data.length = if c ≤ limit then c else 0

/-- The first capacity can be doubled, and a push that may find the array full can double it. -/
def Roomy (limit c n : ℕ) : Prop :=
  (0 < n → 0 < c ∧ c ≤ limit) ∧ ∀ k, c * 2 ^ k < n → c * 2 ^ (k + 1) ≤ limit

/-- It is enough when the first capacity and twice the number of values are within the limit. -/
theorem Roomy.of_le {limit c n : ℕ} (hpos : 0 < c) (hc : c ≤ limit) (hn : 2 * n ≤ limit) :
    Roomy limit c n := by
  refine ⟨fun _ => ⟨hpos, hc⟩, fun k hk => ?_⟩
  rw [pow_succ, ← Nat.mul_assoc]
  omega

/-- An array on its way: the capacity is the first one, doubled some times. -/
structure Doubled (limit c : ℕ) (values : List α) (v : Growable α) : Prop where
  stores : Stores v values
  capacity_eq : v.capacity = v.data.length
  length_le : v.data.length ≤ limit
  doubled : ∃ j, v.data.length = c * 2 ^ j

variable {sizes : Sizes} {limit c : ℕ} {realloc : Realloc α} {message : String}
  {start v v' : Growable α} {values : List α} {value : α}

theorem length_calloc (zero : α) {width n : ℕ} (hn : n < 2 ^ 64) :
    (calloc zero width n).length = if n * width < 2 ^ 64 then n else 0 := by
  have hmod : ((n : ℤ) % 2 ^ 64).toNat = n := by omega
  rw [calloc, hmod]
  split_ifs
  · exact List.length_replicate
  · rfl

/-! ### One push -/

/-- A push behind the values. -/
theorem push_of_resize (hsizes : sizes.Limit limit)
    (hresize : resize sizes realloc message v = .ok v') (hstores : Stores v' values)
    (hlt : values.length < v'.data.length) (hle : v'.data.length ≤ limit) (value : α) :
    ∃ data, push sizes realloc message v value =
        .ok ⟨data, (values.length + 1 : ℕ), v'.capacity⟩ ∧
      data.length = v'.data.length ∧ values ++ [value] <+: data := by
  obtain ⟨hsize, rest, hdata⟩ := hstores
  -- there is a cell behind the values
  obtain ⟨d, rest, rfl⟩ : ∃ d rest', rest = d :: rest' := by
    cases rest with
    | nil =>
      rw [List.append_nil] at hdata
      rw [hdata] at hlt
      exact absurd hlt (Nat.lt_irrefl _)
    | cons d rest => exact ⟨d, rest, rfl⟩
  refine ⟨values ++ value :: rest, ?_, ?_, rest, by simp⟩
  · rw [push, hresize, Outcome.ok_bind, ← hdata, hsize, Cells.store_append_cons, Outcome.ok_bind,
      hsizes.next_eq _ (Nat.lt_of_lt_of_le hlt hle)]
    rfl
  · rw [← hdata]
    simp

/-- An array that is not full stays where it is. -/
theorem resize_of_lt (h : Stores v values) (hcapacity : v.capacity = v.data.length)
    (hlt : values.length < v.data.length) : resize sizes realloc message v = .ok v := by
  refine if_neg fun hfull => ?_
  rw [h.1, hcapacity] at hfull
  omega

/-- A full array moves to twice its cells. -/
theorem resize_of_full (hsizes : sizes.Limit limit) (h : Stores v values)
    (hcapacity : v.capacity = v.data.length) (hfull : values.length = v.data.length)
    (hpos : 0 < v.data.length) (hle : 2 * v.data.length ≤ limit) (realloc : Realloc α)
    (message : String) :
    ∃ data, resize sizes realloc message v = .ok ⟨data, v.size, (2 * v.data.length : ℕ)⟩ ∧
      data.length = 2 * v.data.length ∧ values <+: data := by
  obtain ⟨data, hrealloc, hprefix⟩ :=
    realloc.grow v.data (2 * v.data.length) (by omega) (by omega)
  refine ⟨data, ?_, realloc.length hrealloc, h.2.trans hprefix⟩
  have heq : v.size = v.capacity := by rw [h.1, hcapacity, hfull]
  rw [resize, if_pos heq, hcapacity, hsizes.double_eq _ hle, Outcome.ok_bind,
    hsizes.cells_eq _ hle, hrealloc]

/-- A full array that cannot be doubled takes no value. -/
theorem push_ne_ok_of_full (hsize : v.size = v.capacity) {n : ℕ} (hcapacity : v.capacity = n)
    (hcells : ∀ m, sizes.double n = .ok m → sizes.cells m ≤ n) :
    push sizes realloc message v value ≠ .ok v' := by
  intro hok
  obtain ⟨v₁, hresize, hok⟩ := Outcome.bind_eq_ok.mp hok
  obtain ⟨data, hstore, -⟩ := Outcome.bind_eq_ok.mp hok
  rw [resize, if_pos hsize, hcapacity] at hresize
  obtain ⟨m, hdouble, hresize⟩ := Outcome.bind_eq_ok.mp hresize
  have hle := hcells m hdouble
  cases hrealloc : realloc.resize v.data (sizes.cells m) with
  | none =>
    rw [hrealloc] at hresize
    cases hresize
  | some new =>
    rw [hrealloc] at hresize
    cases hresize
    -- the new block has no cell at the old capacity
    have hlength := realloc.length hrealloc
    unfold Cells.store at hstore
    split_ifs at hstore with hin
    dsimp only at hin
    rw [hsize, hcapacity] at hin
    omega

/-- A push keeps the array on its way. -/
theorem Doubled.push (h : Doubled limit c values v) (hsizes : sizes.Limit limit) (hpos : 0 < c)
    (hroom : ∀ k, c * 2 ^ k = values.length → c * 2 ^ (k + 1) ≤ limit) (realloc : Realloc α)
    (message : String) (value : α) :
    ∃ v', Growth.push sizes realloc message v value = .ok v' ∧ v.size < v'.capacity ∧
      Doubled limit c (values ++ [value]) v' := by
  obtain ⟨hstores, hcapacity, hle, j, hj⟩ := h
  -- the array after `resize` has a cell behind the values
  obtain ⟨v₁, hresize, hstores₁, hlt, hcapacity₁, hle₁, hdoubled₁⟩ :
      ∃ v₁, resize sizes realloc message v = .ok v₁ ∧ Stores v₁ values ∧
        values.length < v₁.data.length ∧ v₁.capacity = v₁.data.length ∧ v₁.data.length ≤ limit ∧
        ∃ j, v₁.data.length = c * 2 ^ j := by
    rcases hstores.2.length_le.lt_or_eq with hlt | hfull
    · exact ⟨v, resize_of_lt hstores hcapacity hlt, hstores, hlt, hcapacity, hle, j, hj⟩
    · have hpos' : 0 < v.data.length := by
        rw [hj]
        exact Nat.mul_pos hpos (Nat.two_pow_pos j)
      have htwice : 2 * v.data.length = c * 2 ^ (j + 1) := by
        rw [hj, Nat.pow_succ', Nat.mul_left_comm]
      have hle' : 2 * v.data.length ≤ limit := by
        rw [htwice]
        exact hroom j (hj.symm.trans hfull.symm)
      obtain ⟨data, hresize, hlength, hprefix⟩ :=
        resize_of_full hsizes hstores hcapacity hfull hpos' hle' realloc message
      refine ⟨_, hresize, ⟨hstores.1, hprefix⟩, ?_, ?_, ?_, j + 1, hlength.trans htwice⟩
      · dsimp only
        omega
      · dsimp only
        rw [hlength]
      · dsimp only
        omega
  obtain ⟨data, hpush, hlength, hprefix⟩ :=
    push_of_resize hsizes hresize hstores₁ hlt hle₁ value
  refine ⟨_, hpush, ?_, ?_⟩
  · dsimp only
    rw [hstores.1, hcapacity₁]
    omega
  · exact
      { stores := ⟨by simp, hprefix⟩
        capacity_eq := by
          dsimp only
          rw [hlength, hcapacity₁]
        length_le := hlength.trans_le hle₁
        doubled := hdoubled₁.imp fun _ hk => hlength.trans hk }

/-- A push that returns had room for what it doubled. -/
theorem Doubled.room_of_push (h : Doubled limit c values v) (hsizes : sizes.Limit limit)
    (hok : Growth.push sizes realloc message v value = .ok v') {k : ℕ}
    (hk : c * 2 ^ k = values.length) : c * 2 ^ (k + 1) ≤ limit := by
  obtain ⟨hstores, hcapacity, hle, j, hj⟩ := h
  rcases hstores.2.length_le.lt_or_eq with hlt | hfull
  · -- the capacity is a later one
    rw [← hk, hj] at hlt
    have hkj : k < j := (Nat.pow_lt_pow_iff_right (by decide)).mp (Nat.lt_of_mul_lt_mul_left hlt)
    calc c * 2 ^ (k + 1) ≤ c * 2 ^ j := Nat.mul_le_mul_left c (Nat.pow_le_pow_right (by decide) hkj)
      _ = v.data.length := hj.symm
      _ ≤ limit := hle
  · -- the array was full, and twice its cells are too many
    by_contra hover
    have hsize : v.size = v.capacity := by rw [hstores.1, hcapacity, hfull]
    refine push_ne_ok_of_full hsize hcapacity (fun m hdouble => ?_) hok
    refine hsizes.cells_le _ m hle ?_ hdouble
    rw [← hfull, ← hk]
    rw [Nat.pow_succ, ← Nat.mul_assoc] at hover
    omega

/-! ### Sequences of pushes -/

/-- A new array that cannot be doubled takes no value. -/
theorem IsNew.push_ne_ok (h : IsNew limit c start) (hsizes : sizes.Limit limit)
    (hbad : ¬ (0 < c ∧ c ≤ limit)) :
    Growth.push sizes realloc message start value ≠ .ok v' := by
  rcases Nat.eq_zero_or_pos c with rfl | hpos
  · -- twice nothing is nothing
    refine push_ne_ok_of_full (h.size_eq.trans h.capacity_eq.symm) h.capacity_eq ?_
    intro m hdouble
    rw [hsizes.double_eq 0 (Nat.zero_le _)] at hdouble
    cases hdouble
    exact (hsizes.cells_eq 0 (Nat.zero_le _)).le
  · intro hok
    have hover : ¬ c ≤ limit := fun hle => hbad ⟨hpos, hle⟩
    have hlength := h.length_eq
    rw [if_neg hover] at hlength
    obtain ⟨v₁, hresize, hok⟩ := Outcome.bind_eq_ok.mp hok
    obtain ⟨data, hstore, -⟩ := Outcome.bind_eq_ok.mp hok
    -- the array counts cells that it has not got, so it does not look full
    have hsame : resize sizes realloc message start = .ok start := by
      refine if_neg fun hfull => ?_
      rw [h.size_eq, h.capacity_eq] at hfull
      omega
    cases hsame.symm.trans hresize
    unfold Cells.store at hstore
    split_ifs at hstore
    omega

theorem IsNew.doubled (h : IsNew limit c start) (hle : c ≤ limit) : Doubled limit c [] start := by
  have hlength := h.length_eq
  rw [if_pos hle] at hlength
  exact
    { stores := ⟨h.size_eq, List.nil_prefix⟩
      capacity_eq := by rw [h.capacity_eq, hlength]
      length_le := hlength.trans_le hle
      doubled := ⟨0, by rw [hlength, Nat.pow_zero, Nat.mul_one]⟩ }

/-- The condition on one push. -/
def RoomFor (limit c n : ℕ) : Prop :=
  (0 < c ∧ c ≤ limit) ∧ ∀ k, c * 2 ^ k = n → c * 2 ^ (k + 1) ≤ limit

/-- While there is room the array is on its way. The induction is on the pushes so far. -/
theorem IsNew.exists_doubled (h : IsNew limit c start) (hsizes : sizes.Limit limit)
    (hgood : 0 < c ∧ c ≤ limit)
    (hroom : AllCalls (fun pre _ => RoomFor limit c pre.length) values) (realloc : Realloc α)
    (message : String) :
    ∃ v, values.foldlM (Growth.push sizes realloc message) start = .ok v ∧
      Doubled limit c values v := by
  induction values using List.reverseRecOn with
  | nil => exact ⟨start, rfl, h.doubled hgood.2⟩
  | append_singleton values value ih =>
    obtain ⟨hbefore, hlast⟩ := allCalls_concat.mp hroom
    obtain ⟨v, hok, hdoubled⟩ := ih hbefore
    obtain ⟨v', hpush, -, hdoubled'⟩ := hdoubled.push hsizes hgood.1 hlast.2 realloc message
      value
    refine ⟨v', ?_, hdoubled'⟩
    rw [List.foldlM_append, hok, Outcome.ok_bind, List.foldlM_cons, hpush]
    rfl

/-- One push is in bounds exactly when there is room for it. -/
theorem IsNew.inBounds_iff_roomFor (h : IsNew limit c start) (hsizes : sizes.Limit limit)
    (hbefore : AllCalls (fun pre _ => RoomFor limit c pre.length) values) (value : α) :
    (∃ v₁ v₂, values.foldlM (Growth.push sizes realloc message) start = .ok v₁ ∧
      Growth.push sizes realloc message v₁ value = .ok v₂ ∧ v₁.size < v₂.capacity ∧
      Stores v₂ (values ++ [value])) ↔ RoomFor limit c values.length := by
  by_cases hgood : 0 < c ∧ c ≤ limit
  · obtain ⟨v, hok, hdoubled⟩ := h.exists_doubled hsizes hgood hbefore realloc message
    constructor
    · rintro ⟨v₁, v₂, hok₁, hpush, -, -⟩
      cases hok.symm.trans hok₁
      exact ⟨hgood, fun k hk => hdoubled.room_of_push hsizes hpush hk⟩
    · intro hroom
      obtain ⟨v', hpush, hlt, hdoubled'⟩ :=
        hdoubled.push hsizes hgood.1 hroom.2 realloc message value
      exact ⟨v, v', hok, hpush, hlt, hdoubled'.stores⟩
  · -- nothing was pushed before
    have hnil : values = [] := by
      cases values with
      | nil => rfl
      | cons first rest => exact absurd (hbefore [] first rest rfl).1 hgood
    subst hnil
    refine iff_of_false ?_ fun hroom => hgood hroom.1
    rintro ⟨v₁, v₂, hok, hpush, -, -⟩
    cases hok
    exact h.push_ne_ok hsizes hgood hpush

theorem allCalls_roomFor_iff :
    AllCalls (fun pre _ => RoomFor limit c pre.length) values ↔ Roomy limit c values.length := by
  constructor
  · intro h
    have hroom : ∀ n, n < values.length → RoomFor limit c n := by
      intro n hn
      have hcall : RoomFor limit c (values.take n).length :=
        h (values.take n) values[n] (values.drop (n + 1)) (by simp)
      rwa [List.length_take_of_le (Nat.le_of_lt hn)] at hcall
    exact ⟨fun hpos => (hroom 0 hpos).1, fun k hk => (hroom _ hk).2 k rfl⟩
  · rintro ⟨hgood, hdouble⟩ pre value post rfl
    have hlt : pre.length < (pre ++ value :: post).length := by simp
    exact ⟨hgood (Nat.zero_lt_of_lt hlt), fun k hk => hdouble k (hk ▸ hlt)⟩

/-- Every sequence of pushes stays in the array exactly when the first capacity can be doubled
and no doubled capacity passes the limit. -/
theorem growth_iff (h : IsNew limit c start) (hsizes : sizes.Limit limit)
    (realloc : Realloc α) (message : String) (values : List α) :
    InBounds (push sizes realloc message) start values ↔ Roomy limit c values.length := by
  rw [← allCalls_roomFor_iff]
  exact allCalls_congr fun pre value hbefore => h.inBounds_iff_roomFor hsizes hbefore value

end Growth

end CS
