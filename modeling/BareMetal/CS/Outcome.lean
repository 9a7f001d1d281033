import Mathlib.Data.Int.Notation
import Mathlib.Tactic.Common

/-!
# Outcomes of C functions

A C function either returns a value or stops its caller: it ends the process
with `exit`, or it does something the language gives no meaning to. `Outcome`
keeps these apart, so that "the function returns" is a statement about the
model and not an assumption of it.

`outOfFuel` is the outcome of a loop or a recursion that is still running when
its step budget is spent. A result that the code terminates is a result that
this outcome does not occur.
-/

namespace CS

universe u

/-- Why a C function did not return to its caller. -/
inductive Stop
  /-- `exit(code)`, after the given line was written to `stderr`. -/
  | exit (code : ℤ) (message : String)
  /-- An access outside the object it names. -/
  | outOfBounds (index : ℤ)
  /-- The declaration of an array whose bound is not positive. -/
  | arrayBound (bound : ℤ)
  /-- Signed arithmetic that leaves the range of `int`. -/
  | overflow
  /-- A remainder or a quotient by zero. -/
  | divByZero
  /-- A loop or a recursion still running when its fuel ran out. -/
  | outOfFuel
  deriving DecidableEq, Repr

/-- The result of running a C function. -/
abbrev Outcome := Except Stop

namespace Outcome

variable {α β : Type u}

@[simp] theorem ok_bind (a : α) (f : α → Outcome β) : (Except.ok a >>= f) = f a := rfl

@[simp] theorem error_bind (e : Stop) (f : α → Outcome β) :
    ((Except.error e : Outcome α) >>= f) = Except.error e := rfl

/-- A sequence of two calls returns exactly when both calls return. -/
theorem bind_eq_ok {x : Outcome α} {f : α → Outcome β} {b : β} :
    (x >>= f) = .ok b ↔ ∃ a, x = .ok a ∧ f a = .ok b := by
  cases x with
  | error e => simp
  | ok a => simp

end Outcome

/-! ### Machine arithmetic -/

/-- The least value of a 32-bit `int`. -/
def intMin : ℤ := -2147483648

/-- The greatest value of a 32-bit `int`. -/
def intMax : ℤ := 2147483647

theorem intMin_le {a : ℤ} (h : -1 ≤ a) : intMin ≤ a := Int.le_trans (by decide) h

/-- Addition of two `int`s: a sum outside the range of `int` is undefined. -/
def addInt (a b : ℤ) : Outcome ℤ :=
  if intMin ≤ a + b ∧ a + b ≤ intMax then .ok (a + b) else .error .overflow

theorem addInt_of_range {a b : ℤ} (hmin : intMin ≤ a + b) (hmax : a + b ≤ intMax) :
    addInt a b = .ok (a + b) :=
  if_pos ⟨hmin, hmax⟩

theorem of_addInt_eq_ok {a b c : ℤ} (h : addInt a b = .ok c) : c = a + b ∧ a + b ≤ intMax := by
  unfold addInt at h
  split_ifs at h with hrange
  exact ⟨(Except.ok.inj h).symm, hrange.2⟩

/-- A sum that is too large stops the program. -/
theorem addInt_overflow {a b : ℤ} (hmax : intMax < a + b) : addInt a b = .error .overflow :=
  if_neg fun hrange => absurd hrange.2 (Int.not_le.mpr hmax)

/-- A counter goes up. -/
theorem addInt_one {n : ℕ} (hmax : (n : ℤ) < intMax) : addInt n 1 = .ok ((n : ℤ) + 1) :=
  addInt_of_range (intMin_le (by omega)) (by omega)

/-- Subtraction of two `int`s. -/
def subInt (a b : ℤ) : Outcome ℤ :=
  if intMin ≤ a - b ∧ a - b ≤ intMax then .ok (a - b) else .error .overflow

theorem subInt_of_range {a b : ℤ} (hmin : intMin ≤ a - b) (hmax : a - b ≤ intMax) :
    subInt a b = .ok (a - b) :=
  if_pos ⟨hmin, hmax⟩

/-- A counter goes down. -/
theorem subInt_one {n : ℕ} (hmax : (n : ℤ) ≤ intMax) : subInt n 1 = .ok ((n : ℤ) - 1) :=
  subInt_of_range (intMin_le (by omega)) (by omega)

/-- Multiplication of two `int`s. -/
def mulInt (a b : ℤ) : Outcome ℤ :=
  if intMin ≤ a * b ∧ a * b ≤ intMax then .ok (a * b) else .error .overflow

theorem mulInt_of_range {a b : ℤ} (hmin : intMin ≤ a * b) (hmax : a * b ≤ intMax) :
    mulInt a b = .ok (a * b) :=
  if_pos ⟨hmin, hmax⟩

/-- A product that is too large stops the program. -/
theorem mulInt_overflow {a b : ℤ} (hmax : intMax < a * b) : mulInt a b = .error .overflow :=
  if_neg fun hrange => absurd hrange.2 (Int.not_le.mpr hmax)

/-- `a % b` on unsigned operands: undefined when `b` is zero. -/
def modU (a b : ℕ) : Outcome ℕ :=
  if b = 0 then .error .divByZero else .ok (a % b)

theorem modU_of_pos {a b : ℕ} (hb : 0 < b) : modU a b = .ok (a % b) :=
  if_neg (by omega)

end CS
