import BareMetal.CS.InPlace

/-!
# The swap of `recap/swap.c`

`swap_memory` exchanges two regions of memory byte by byte, with one callback that exchanges two
bytes and another one that prints the regions afterwards. Nothing keeps the regions apart, and
where they overlap the later exchanges move bytes that were moved before.

## Main results

* `getElem?_of_swapFirst` — where each byte comes from
* `swaps_memory` — no byte is lost; regions apart from each other are exchanged, and a second
  call undoes the first
-/

namespace BareMetal.Swap

open CS

variable {mem mem' : List UInt8} {va k n x : ℕ}

/-- `swap`. -/
def swap (mem : List UInt8) (a b : ℤ) : Outcome (List UInt8) := Cells.exchange mem a b

/-- `check_swap`, with the values it prints. -/
def checkSwap (mem : List UInt8) (values : ℤ) (size : ℕ) : Outcome (List UInt8) :=
  (List.range size).foldlM (fun (printed : List UInt8) (i : ℕ) => do
    let value ← Cells.load mem (values + i)
    .ok (printed ++ [value])) []

/-- The loop of `swap_memory`, over the first bytes. -/
def swapFirst (mem : List UInt8) (va vb : ℤ) (size : ℕ)
    (onChange : Option (List UInt8 → ℤ → ℤ → Outcome (List UInt8))) : Outcome (List UInt8) :=
  (List.range size).foldlM (fun mem (i : ℕ) =>
    match onChange with
    | some onChange => onChange mem (va + i) (vb + i)
    | none => .ok mem) mem

/-- `swap_memory`, with the values that are printed at the end. -/
def swapMemory (mem : List UInt8) (a b : Option ℤ) (size : ℕ)
    (onChange : Option (List UInt8 → ℤ → ℤ → Outcome (List UInt8)))
    (onCompl : Option (List UInt8 → ℤ → ℕ → Outcome (List UInt8))) :
    Outcome (List UInt8 × List UInt8) :=
  match a, b with
  | some va, some vb => do
    let mem ← swapFirst mem va vb size onChange
    match onCompl with
    | some onCompl => do
      let first ← onCompl mem va size
      let second ← onCompl mem vb size
      .ok (mem, first ++ second)
    | none => .ok (mem, [])
  | _, _ => .ok (mem, [])

/-! ### The exchanges -/

/-- What is at the distance `x` after `n` exchanges at `va` and `k` bytes behind it: bytes that
have come forward, the first `k` bytes, which are carried along, and all others. -/
def after (mem : List UInt8) (va k n x : ℕ) : Option UInt8 :=
  if x < va ∨ va + n + k ≤ x then mem[x]?
  else if x < va + n then mem[x + k]?
  else mem[va + (x - va) % k]?

theorem after_zero (mem : List UInt8) (va k x : ℕ) : after mem va k 0 x = mem[x]? := by
  unfold after
  split_ifs with hout hlt
  · rfl
  · omega
  · have hmod : (x - va) % k = x - va := Nat.mod_eq_of_lt (by omega)
    rw [hmod, Nat.add_sub_cancel' (by omega)]

/-- One exchange more. -/
theorem after_succ (mem : List UInt8) (va k n x : ℕ) :
    after mem va k (n + 1) x =
      if x = va + n + k then after mem va k n (va + n)
      else if x = va + n then after mem va k n (va + n + k) else after mem va k n x := by
  rcases Nat.eq_zero_or_pos k with rfl | hk
  · -- every byte is exchanged with itself
    have hsame : ∀ n x, after mem va 0 n x = mem[x]? := by
      intro n x
      unfold after
      split_ifs with hout hlt
      · rfl
      · rfl
      · omega
    simp only [hsame, Nat.add_zero]
    split_ifs with heq
    · rw [heq]
    · rfl
  · have hmod : (va + n + k - va) % k = (va + n - va) % k := by
      have hcast : va + n + k - va = va + n - va + k := by omega
      rw [hcast, Nat.add_mod_right]
    unfold after
    -- the byte that was carried to `va + n` is carried on
    split_ifs <;> first | rfl | omega | (subst_vars; rw [hmod]) | (subst_vars; rfl)

/-- One exchange. -/
theorem swap_eq (hin : va + n + k < mem.length) :
    ∃ mem', swap mem ((va : ℤ) + n) ((va + k : ℕ) + n) = .ok mem' ∧ mem'.Perm mem ∧
      ∀ x, mem'[x]? = if x = va + n + k then mem[va + n]? else if x = va + n then mem[va + n + k]?
        else mem[x]? := by
  have hi : va + n < mem.length := by omega
  have hj : va + n + k < mem.length := hin
  have hfirst : (va : ℤ) + n = ((va + n : ℕ) : ℤ) := by omega
  have hsecond : ((va + k : ℕ) : ℤ) + n = ((va + n + k : ℕ) : ℤ) := by omega
  refine ⟨_, ?_, List.set_set_perm hi hj, fun x => ?_⟩
  · rw [swap, hfirst, hsecond, Cells.exchange_eq hi hj]
  · by_cases hlast : x = va + n + k
    · subst hlast
      rw [if_pos rfl, List.getElem?_set_self (by rwa [List.length_set]),
        List.getElem?_eq_getElem hi]
    · rw [if_neg hlast, List.getElem?_set_ne (Ne.symm hlast)]
      by_cases hsame : x = va + n
      · subst hsame
        rw [if_pos rfl, List.getElem?_set_self hi, List.getElem?_eq_getElem hj]
      · rw [if_neg hsame, List.getElem?_set_ne (Ne.symm hsame)]

/-- One pass more. -/
theorem swapFirst_succ (mem : List UInt8) (va vb : ℤ) (n : ℕ) :
    swapFirst mem va vb (n + 1) (some swap) =
      (swapFirst mem va vb n (some swap) >>= fun mem => swap mem (va + n) (vb + n)) := by
  simp [swapFirst, List.range_succ]

/-- The loop, as far as it stays in the memory. -/
theorem exists_swapFirst (hin : n = 0 ∨ va + k + n ≤ mem.length) :
    ∃ mem', swapFirst mem va (va + k : ℕ) n (some swap) = .ok mem' ∧ mem'.Perm mem ∧
      ∀ x, mem'[x]? = after mem va k n x := by
  induction n with
  | zero => exact ⟨mem, rfl, List.Perm.refl mem, fun x => (after_zero mem va k x).symm⟩
  | succ n ih =>
    obtain ⟨mem₁, hloop, hperm, hcells⟩ := ih (Or.inr (by omega))
    have hlen := hperm.length_eq
    have hin₁ : va + n + k < mem₁.length := by omega
    obtain ⟨mem', hswap, hperm', hcells'⟩ := swap_eq hin₁
    refine ⟨mem', ?_, hperm'.trans hperm, fun x => ?_⟩
    · rw [swapFirst_succ, hloop, Outcome.ok_bind, hswap]
    · rw [hcells', after_succ, hcells, hcells, hcells]

/-- An exchange that returns was of two bytes of the memory, and keeps their number. -/
theorem of_swap {a b : ℤ} (h : swap mem a b = .ok mem') :
    (0 ≤ a ∧ a < mem.length) ∧ (0 ≤ b ∧ b < mem.length) ∧ mem'.length = mem.length := by
  obtain ⟨temp, hfirst, h⟩ := Outcome.bind_eq_ok.mp h
  obtain ⟨last, hsecond, h⟩ := Outcome.bind_eq_ok.mp h
  obtain ⟨mem₁, hstore, h⟩ := Outcome.bind_eq_ok.mp h
  obtain ⟨hnonneg, hcell⟩ := Cells.exists_of_load hfirst
  obtain ⟨hnonneg', hcell'⟩ := Cells.exists_of_load hsecond
  obtain ⟨hlt, -⟩ := List.getElem?_eq_some_iff.mp hcell
  obtain ⟨hlt', -⟩ := List.getElem?_eq_some_iff.mp hcell'
  exact ⟨⟨hnonneg, by omega⟩, ⟨hnonneg', by omega⟩,
    (Cells.length_of_store h).trans (Cells.length_of_store hstore)⟩

/-- A loop that returns has stayed in the memory. -/
theorem le_of_swapFirst (h : swapFirst mem va (va + k : ℕ) n (some swap) = .ok mem') :
    n = 0 ∨ va + k + n ≤ mem.length := by
  have hle := (le_of_foldlM_range (fun m : List UInt8 => m.length - (va + k))
    (fun i _ m m' hpass => ?_) h).1
  · omega
  · obtain ⟨-, hin, hlen⟩ := of_swap hpass
    omega

/-! ### The whole call -/

/-- What is printed of a region. -/
theorem checkSwap_eq (h : n = 0 ∨ va + n ≤ mem.length) :
    checkSwap mem va n = .ok ((mem.drop va).take n) := by
  induction n with
  | zero => rfl
  | succ n ih =>
    have hlt : va + n < mem.length := by omega
    have hcast : (va : ℤ) + n = ((va + n : ℕ) : ℤ) := by omega
    have hcell : (mem.drop va)[n]? = some mem[va + n] := by
      rw [List.getElem?_drop, List.getElem?_eq_getElem hlt]
    rw [checkSwap, List.range_succ, List.foldlM_append, ← checkSwap, ih (Or.inr (by omega)),
      Outcome.ok_bind, List.foldlM_cons, hcast,
      Cells.load_of_getElem? (List.getElem?_eq_getElem hlt), List.take_add_one, hcell]
    rfl

/-- Two regions apart from each other are exchanged back. -/
theorem after_after (hmem : ∀ x, mem'[x]? = after mem va k n x) (hapart : n ≤ k) (x : ℕ) :
    after mem' va k n x = mem[x]? := by
  unfold after
  simp only [hmem]
  split_ifs with hout hlt
  · rw [after, if_pos hout]
  · -- the byte has gone `k` back, and comes forward again
    have hmod : (x + k - va) % k = x - va := by
      have hcast : x + k - va = x - va + k := by omega
      rw [hcast, Nat.add_mod_right, Nat.mod_eq_of_lt (by omega)]
    rw [after, if_neg (by omega), if_neg (by omega), hmod, Nat.add_sub_cancel' (by omega)]
  · rcases Nat.lt_or_ge (x - va) k with hfirst | hsecond
    · have hmod : (x - va) % k = x - va := Nat.mod_eq_of_lt hfirst
      rw [hmod, Nat.add_sub_cancel' (by omega), after, if_neg hout, if_neg hlt, hmod,
        Nat.add_sub_cancel' (by omega)]
    · have hmod : (x - va) % k = x - va - k := by
        rw [Nat.mod_eq_sub_mod hsecond, Nat.mod_eq_of_lt (by omega)]
      have hback : va + (x - va - k) + k = x := by omega
      rw [hmod, after, if_neg (by omega), if_pos (by omega), hback]

/-- **What `swap_memory` does.** It returns exactly when the regions are in the memory. No byte is
lost, whether they overlap or not, and `after` says where each one is then; what is printed is
what the regions hold. Regions apart from each other are exchanged, and a second call brings
everything back. -/
theorem swaps_memory (mem : List UInt8) (va k n : ℕ) :
    ((∃ out,
        swapMemory mem (some va) (some (va + k : ℕ)) n (some swap) (some checkSwap) = .ok out) ↔
        n = 0 ∨ va + k + n ≤ mem.length) ∧
      ∀ out, swapMemory mem (some va) (some (va + k : ℕ)) n (some swap) (some checkSwap) = .ok out →
        out.1.Perm mem ∧ (∀ x, out.1[x]? = after mem va k n x) ∧
          out.2 = (out.1.drop va).take n ++ (out.1.drop (va + k)).take n ∧
          (n ≤ k → (out.1.drop va).take n = (mem.drop (va + k)).take n ∧
            (out.1.drop (va + k)).take n = (mem.drop va).take n ∧
            ∃ printed, swapMemory out.1 (some va) (some (va + k : ℕ)) n (some swap)
              (some checkSwap) = .ok (mem, printed)) := by
  have hrun : ∀ m : List UInt8, n = 0 ∨ va + k + n ≤ m.length → ∃ m',
      swapMemory m (some va) (some (va + k : ℕ)) n (some swap) (some checkSwap) =
        .ok (m', (m'.drop va).take n ++ (m'.drop (va + k)).take n) ∧
      m'.Perm m ∧ ∀ x, m'[x]? = after m va k n x := by
    intro m hin
    obtain ⟨m', hloop, hperm, hcells⟩ := exists_swapFirst hin
    have hlen := hperm.length_eq
    refine ⟨m', ?_, hperm, hcells⟩
    rw [swapMemory, hloop, Outcome.ok_bind]
    dsimp only
    rw [checkSwap_eq (by omega), Outcome.ok_bind, checkSwap_eq (by omega), Outcome.ok_bind]
  have hconverse : ∀ out, swapMemory mem (some va) (some (va + k : ℕ)) n (some swap)
      (some checkSwap) = .ok out → n = 0 ∨ va + k + n ≤ mem.length := by
    intro out h
    obtain ⟨m, hloop, -⟩ := Outcome.bind_eq_ok.mp h
    exact le_of_swapFirst hloop
  refine ⟨⟨?_, fun hin => ?_⟩, fun out h => ?_⟩
  · rintro ⟨out, h⟩
    exact hconverse out h
  · obtain ⟨m, h, -⟩ := hrun mem hin
    exact ⟨_, h⟩
  · have hin := hconverse out h
    obtain ⟨m, hm, hperm, hcells⟩ := hrun mem hin
    cases hm.symm.trans h
    have hlen := hperm.length_eq
    refine ⟨hperm, hcells, rfl, fun hapart => ⟨?_, ?_, ?_⟩⟩
    · apply List.ext_getElem?
      intro i
      rw [List.getElem?_take, List.getElem?_take]
      split_ifs with hi
      · rw [List.getElem?_drop, List.getElem?_drop, hcells, after, if_neg (by omega),
          if_pos (by omega)]
        congr 1
        omega
      · rfl
    · apply List.ext_getElem?
      intro i
      rw [List.getElem?_take, List.getElem?_take]
      split_ifs with hi
      · have hmod : (va + k + i - va) % k = i := by
          have hcast : va + k + i - va = i + k := by omega
          rw [hcast, Nat.add_mod_right, Nat.mod_eq_of_lt (by omega)]
        rw [List.getElem?_drop, List.getElem?_drop, hcells, after, if_neg (by omega),
          if_neg (by omega), hmod]
      · rfl
    · obtain ⟨m', hm', -, hcells'⟩ := hrun m (by omega)
      have hback : m' = mem := by
        apply List.ext_getElem?
        intro x
        rw [hcells', after_after hcells hapart]
      exact ⟨_, hback ▸ hm'⟩

end BareMetal.Swap
