import Mathlib.Algebra.Group.Int.Defs
import Mathlib.Algebra.Group.Nat.Defs

/-!
# The type `int`

Two's complement numbers of 32 bits. Where a count could pass the largest of them, the step that
counts is a fault.
-/

namespace BaseCode.Foundation

/-- `-v`; the least `int` is its own negative. -/
def negInt (v : Int) : Int := (-v).bmod (2 ^ 32)

theorem negInt_eq {v : Int} (hlow : -2 ^ 31 < v) (hhigh : v < 2 ^ 31) : negInt v = -v :=
  Int.bmod_eq_of_le (by omega) (by omega)

/-- `++n`; an overflow is a fault. -/
def countUp (n : Int) : Option Int := if n < 2 ^ 31 - 1 then some (n + 1) else none

theorem countUp_eq {n : Int} (h : n < 2 ^ 31 - 1) : countUp n = some (n + 1) := if_pos h

theorem eq_of_countUp {n m : Int} (h : countUp n = some m) : m = n + 1 := by
  rw [countUp] at h
  split at h
  · exact (Option.some.inj h).symm
  · cases h

end BaseCode.Foundation
