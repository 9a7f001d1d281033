import BareMetal.CS.Loop
import Mathlib.Order.Basic
import Mathlib.Tactic.Common

/-!
# Loops with an index of one byte

`for(uint8_t i = 0; i < size; i++)` with a wider `size` is a loop over the indices below `size`
only if the last of them is followed by another byte. For a larger size the index wraps around,
and the loop never leaves.

## Main results

* `byteFor_eq` — a small size
* `byteFor_returns_iff` — which loops return, and what they leave
-/

namespace CS

variable {σ : Type*} {step : σ → UInt8 → Outcome σ} {size : ℕ} {s r : σ}

/-- One pass of `for(uint8_t i = 0; i < size; i++)`. -/
def byteForPass (step : σ → UInt8 → Outcome σ) (size : ℕ) (s : σ × UInt8) :
    Outcome (Pass (σ × UInt8) σ) :=
  if s.2.toNat < size then do
    let t ← step s.1 s.2
    .ok (.again (t, s.2 + 1))
  else .ok (.leave s.1)

/-- The loop. -/
def byteFor (step : σ → UInt8 → Outcome σ) (size : ℕ) (s : σ) (fuel : ℕ) : Outcome σ :=
  loop (byteForPass step size) fuel (s, 0)

/-- The passes from the index `k` on, and whatever fuel is left. The induction is on the number
of these passes. -/
theorem loop_byteForPass (hsize : size < 256) (k m spare : ℕ) (hk : k + m = size) (s : σ) :
    loop (byteForPass step size) (m + 1 + spare) (s, UInt8.ofNat k) =
      (List.range' k m).foldlM (fun s i => step s (UInt8.ofNat i)) s := by
  induction m generalizing k s with
  | zero =>
    have hindex : (UInt8.ofNat k).toNat = k := UInt8.toNat_ofNat_of_lt' (by omega : k < 2 ^ 8)
    have hleave : byteForPass step size (s, UInt8.ofNat k) = .ok (.leave s) := by
      rw [byteForPass, if_neg (by rw [hindex]; omega)]
    have hfuel : 0 + 1 + spare = spare + 1 := by omega
    rw [hfuel, loop_succ_leave hleave]
    rfl
  | succ m ih =>
    have hindex : (UInt8.ofNat k).toNat = k := UInt8.toNat_ofNat_of_lt' (by omega : k < 2 ^ 8)
    have hnext : UInt8.ofNat k + 1 = UInt8.ofNat (k + 1) := (UInt8.ofNat_add k 1).symm
    have hfuel : m + 1 + 1 + spare = m + 1 + spare + 1 := by omega
    have hin : (UInt8.ofNat k).toNat < size := by omega
    rw [List.range'_succ, List.foldlM_cons, hfuel]
    cases hstep : step s (UInt8.ofNat k) with
    | error e =>
      have hstop : byteForPass step size (s, UInt8.ofNat k) = .error e := by
        rw [byteForPass, if_pos hin, hstep]
        rfl
      rw [loop_succ_stop hstop]
      rfl
    | ok t =>
      have hagain : byteForPass step size (s, UInt8.ofNat k) =
          .ok (.again (t, UInt8.ofNat (k + 1))) := by
        rw [byteForPass, if_pos hin, hstep, ← hnext]
        rfl
      rw [loop_succ_again hagain]
      exact ih (k + 1) (by omega) t

/-- A small size: the loop is one over the indices, and it stops as that one does. -/
theorem byteFor_eq (hsize : size < 256) (s : σ) (spare : ℕ) :
    byteFor step size s (size + 1 + spare) =
      (List.range size).foldlM (fun s i => step s (UInt8.ofNat i)) s := by
  have hloop : byteFor step size s (size + 1 + spare) =
      (List.range' 0 size).foldlM (fun s i => step s (UInt8.ofNat i)) s :=
    loop_byteForPass hsize 0 size spare (Nat.zero_add size) s
  rwa [← List.range_eq_range'] at hloop

/-- A size that no byte reaches. -/
theorem byteFor_ne_ok (hsize : 256 ≤ size) (s : σ) (fuel : ℕ) (r : σ) :
    byteFor step size s fuel ≠ .ok r := by
  intro hrun
  refine loop_invariant (I := fun _ : σ × UInt8 => True) (Q := fun _ => False)
    (fun _ _ _ _ => trivial) ?_ trivial hrun
  rintro s r - hpass
  have hlt : s.2.toNat < size := Nat.lt_of_lt_of_le s.2.toNat_lt hsize
  rw [byteForPass, if_pos hlt] at hpass
  cases hstep : step s.1 s.2 with
  | error e =>
    rw [hstep] at hpass
    cases hpass
  | ok t =>
    rw [hstep] at hpass
    cases hpass

/-- **Which loops return.** -/
theorem byteFor_returns_iff :
    Returns (byteFor step size s) r ↔
      size < 256 ∧ (List.range size).foldlM (fun s i => step s (UInt8.ofNat i)) s = .ok r := by
  constructor
  · intro hreturns
    obtain ⟨bound, hbound⟩ := hreturns.enough
    have hsize : size < 256 :=
      Nat.not_le.mp fun hge => byteFor_ne_ok hge s bound r (hbound bound (Nat.le_refl _))
    refine ⟨hsize, ?_⟩
    rw [← byteFor_eq hsize s bound]
    exact hbound _ (by omega)
  · rintro ⟨hsize, hrun⟩
    have henough : ∀ fuel, size + 1 ≤ fuel → byteFor step size s fuel = .ok r := by
      intro fuel hfuel
      obtain ⟨spare, rfl⟩ := Nat.exists_eq_add_of_le hfuel
      rw [byteFor_eq hsize, hrun]
    refine ⟨⟨size + 1, henough⟩, fun {fuel r'} hok => ?_⟩
    -- two bounds that are both large enough give one result
    exact loop_unique hok (henough (size + 1) (Nat.le_refl _))

end CS
