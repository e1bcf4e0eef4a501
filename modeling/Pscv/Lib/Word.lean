import Mathlib.Algebra.Group.Nat.Defs
import Mathlib.Tactic.Common

/-!
# Machine words

Unsigned words of `w` bits, whose arithmetic wraps around, and the bound of `int`, beyond which
arithmetic has no result.
-/

namespace Pscv.Lib

/-- The largest `int`. -/
def intMax : ℕ := 2 ^ 31 - 1

/-- A number as an `int`; an overflow has no result. -/
def asInt (n : ℕ) : Option ℕ := if n ≤ intMax then some n else none

/-- Addition of words. -/
def wordAdd (w a b : ℕ) : ℕ := (a + b) % 2 ^ w

/-- Subtraction of words. -/
def wordSub (w a b : ℕ) : ℕ := (a + (2 ^ w - b)) % 2 ^ w

variable {w a b : ℕ}

theorem asInt_of_le {n : ℕ} (h : n ≤ intMax) : asInt n = some n := if_pos h

theorem wordAdd_of_lt (h : a + b < 2 ^ w) : wordAdd w a b = a + b := Nat.mod_eq_of_lt h

theorem wordSub_of_le (h : b ≤ a) (ha : a < 2 ^ w) : wordSub w a b = a - b := by
  have hsum : a + (2 ^ w - b) = a - b + 2 ^ w := by omega
  rw [wordSub, hsum, Nat.add_mod_right, Nat.mod_eq_of_lt (by omega)]

/-- Adding something else than zero changes a word. -/
theorem wordAdd_ne (ha : 0 < a) (haw : a < 2 ^ w) (hb : b < 2 ^ w) : wordAdd w a b ≠ b := by
  rw [wordAdd]
  by_cases h : a + b < 2 ^ w
  · rw [Nat.mod_eq_of_lt h]
    omega
  · rw [Nat.mod_eq_sub_mod (by omega), Nat.mod_eq_of_lt (by omega)]
    omega

end Pscv.Lib
