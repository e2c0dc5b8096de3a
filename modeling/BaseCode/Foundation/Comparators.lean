import Mathlib.Order.Defs.PartialOrder
import Mathlib.Data.List.Pairwise
import BaseCode.Foundation.Ints

/-!
# Comparison functions

A C comparison function returns a number below, at or above zero. A comparator is one that
orders its arguments: swapping them swaps the sign, and "at most" is transitive. Two different
values may compare equal. A function that need not order its arguments still goes by some order,
if only by the one in which all values are equal.
-/

namespace BaseCode.Foundation

structure Comparator (α : Type) where
  compare : α → α → Int
  swap : ∀ a b, compare a b < 0 ↔ 0 < compare b a
  trans : ∀ a b c, compare a b ≤ 0 → compare b c ≤ 0 → compare a c ≤ 0

namespace Comparator

variable {α : Type} (c : Comparator α) {a b d : α}

/-- The first value comes before the second, or the two compare equal. -/
def Le (a b : α) : Prop := c.compare a b ≤ 0

instance : Decidable (c.Le a b) := inferInstanceAs (Decidable (_ ≤ _))

variable {c}

theorem compare_self (a : α) : c.compare a a = 0 := by
  have h := c.swap a a
  omega

theorem le_refl (a : α) : c.Le a a := Int.le_of_eq (compare_self a)

theorem le_trans (h : c.Le a b) (h' : c.Le b d) : c.Le a d := c.trans a b d h h'

theorem not_lt_iff : ¬ c.compare a b < 0 ↔ c.Le b a := by
  have h := c.swap a b
  simp only [Le]
  omega

theorem le_of_lt (h : c.compare a b < 0) : c.Le a b := Int.le_of_lt h

theorem le_of_pos (h : 0 < c.compare a b) : c.Le b a := le_of_lt ((c.swap b a).mpr h)

theorem lt_of_lt_of_le (h : c.compare a b < 0) (h' : c.Le b d) : c.compare a d < 0 := by
  by_contra hn
  -- otherwise `b` is at most `a`, through `d`
  have hba := le_trans h' (not_lt_iff.mp hn)
  exact absurd h (not_lt_iff.mpr hba)

theorem lt_of_le_of_lt (h : c.Le a b) (h' : c.compare b d < 0) : c.compare a d < 0 := by
  by_contra hn
  have hdb := le_trans (not_lt_iff.mp hn) h
  exact absurd h' (not_lt_iff.mpr hdb)

variable (c) in
/-- The order the other way round. -/
def neg : Comparator α where
  compare a b := -c.compare a b
  swap a b := by
    have h := c.swap b a
    omega
  trans a b d h h' := by
    have hab : c.Le b a := by
      have := c.swap a b
      simp only [Le]
      omega
    have hbd : c.Le d b := by
      have := c.swap b d
      simp only [Le]
      omega
    have had := le_trans hbd hab
    have hs := c.swap a d
    simp only [Le] at had
    omega

variable (c) in
/-- The results are `int`s, and none is the least `int`, which has no negative. -/
def Negatable : Prop := ∀ a b, -2 ^ 31 < c.compare a b ∧ c.compare a b < 2 ^ 31

/-- The three-way comparison of integers. -/
def ints : Comparator Int where
  compare a b := if a < b then -1 else if b < a then 1 else 0
  swap a b := by
    split
    · rw [if_neg (by omega)]
      simp [*]
    · split <;> omega
  trans a b d h h' := by
    have hab : a ≤ b := by
      by_contra hn
      rw [if_neg (by omega), if_pos (by omega)] at h
      omega
    have hbd : b ≤ d := by
      by_contra hn
      rw [if_neg (by omega), if_pos (by omega)] at h'
      omega
    split
    · omega
    · have hda : ¬ d < a := by omega
      simp [hda]

theorem negatable_ints : ints.Negatable := by
  intro a b
  simp only [ints]
  split
  · decide
  · split <;> decide

end Comparator

theorem Comparator.Negatable.negInt_compare {α : Type} {c : Comparator α} (h : c.Negatable)
    (a b : α) : negInt (c.compare a b) = c.neg.compare a b :=
  negInt_eq (h a b).1 (h a b).2

/-- The comparison function goes by the order `le`: a value that is not found above another is at
most the other. -/
structure Decides {α : Type} (cmp : α → α → Int) (le : α → α → Prop) : Prop where
  refl : ∀ a, le a a
  trans : ∀ {a b d}, le a b → le b d → le a d
  of_nonpos : ∀ {a b}, cmp a b ≤ 0 → le a b
  of_nonneg : ∀ {a b}, 0 ≤ cmp a b → le b a

theorem Comparator.decides {α : Type} (c : Comparator α) : Decides c.compare c.Le where
  refl := le_refl
  trans := le_trans
  of_nonpos h := h
  of_nonneg h := not_lt_iff.mp (Int.not_lt.mpr h)

/-- Every function goes by the order in which all values are equal. -/
theorem decides_true {α : Type} (cmp : α → α → Int) : Decides cmp fun _ _ => True where
  refl _ := trivial
  trans _ _ := trivial
  of_nonpos _ := trivial
  of_nonneg _ := trivial

end BaseCode.Foundation
