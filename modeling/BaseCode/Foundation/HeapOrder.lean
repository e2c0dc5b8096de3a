import Mathlib.Data.Multiset.Range
import Mathlib.Logic.Equiv.Basic
import BaseCode.Foundation.Comparators

/-!
# Heaps in an array

A function on positions is a tree: the parent of position `i > 0` is `(i - 1) / 2`. A value that
is out of place is exchanged with its parent, or with the first of its children, until the
order holds again. The order is one of edges, so an exchange concerns only the edges at the two
positions.
-/

namespace BaseCode.Foundation

variable {α : Type}

/-- The parent of a position; position 0 has none. -/
def parent (i : Nat) : Nat := (i - 1) / 2

theorem parent_lt {i : Nat} (h : 0 < i) : parent i < i := by
  rw [parent]
  omega

/-- No value of the first `n` comes before its parent. -/
def HeapOrdered (c : Comparator α) (w : Nat → α) (n : Nat) : Prop :=
  ∀ i, 0 < i → i < n → c.Le (w (parent i)) (w i)

/-- The first `n` values. -/
def content (w : Nat → α) (n : Nat) : Multiset α := (Multiset.range n).map w

/-- The values at two positions exchanged. -/
def exchange (w : Nat → α) (i j : Nat) : Nat → α := w ∘ Equiv.swap i j

section Content

variable {w w' : Nat → α} {n i j k : Nat}

theorem exchange_left : exchange w i j i = w j := by
  rw [exchange, Function.comp_apply, Equiv.swap_apply_left]

theorem exchange_right : exchange w i j j = w i := by
  rw [exchange, Function.comp_apply, Equiv.swap_apply_right]

theorem exchange_of_ne (hi : k ≠ i) (hj : k ≠ j) : exchange w i j k = w k := by
  rw [exchange, Function.comp_apply, Equiv.swap_apply_of_ne_of_ne hi hj]

theorem content_succ : content w (n + 1) = w n ::ₘ content w n := by
  rw [content, Multiset.range_succ, Multiset.map_cons]
  rfl

theorem content_congr (h : ∀ i < n, w i = w' i) : content w n = content w' n :=
  Multiset.map_congr rfl fun i hi => h i (Multiset.mem_range.mp hi)

theorem card_content : (content w n).card = n := by
  rw [content, Multiset.card_map, Multiset.card_range]

theorem mem_content {x : α} : x ∈ content w n ↔ ∃ i < n, w i = x := by
  rw [content, Multiset.mem_map]
  simp only [Multiset.mem_range]

theorem content_exchange (hi : i < n) (hj : j < n) : content (exchange w i j) n = content w n := by
  have hrange : (Multiset.range n).map (Equiv.swap i j) = Multiset.range n := by
    have hnodup : ((Multiset.range n).map (Equiv.swap i j)).Nodup :=
      (Multiset.nodup_range n).map (Equiv.injective _)
    refine (Multiset.Nodup.ext hnodup (Multiset.nodup_range n)).mpr fun k => ?_
    rw [Multiset.mem_map]
    have hlt : ∀ k, k < n → Equiv.swap i j k < n := by
      intro k hk
      rw [Equiv.swap_apply_def]
      split
      · exact hj
      · split
        · exact hi
        · exact hk
    constructor
    · rintro ⟨m, hm, rfl⟩
      exact Multiset.mem_range.mpr (hlt m (Multiset.mem_range.mp hm))
    · intro hk
      refine ⟨Equiv.swap i j k, ?_, Equiv.swap_apply_self ..⟩
      exact Multiset.mem_range.mpr (hlt k (Multiset.mem_range.mp hk))
  rw [content, exchange, ← Multiset.map_map, hrange]
  rfl

end Content

section Order

variable {c : Comparator α} {w : Nat → α} {n hole next : Nat}

/-- The first value comes before all others. -/
theorem HeapOrdered.least (h : HeapOrdered c w n) {i : Nat} (hi : i < n) : c.Le (w 0) (w i) := by
  induction i using Nat.strongRecOn with
  | ind i ih =>
    rcases Nat.eq_zero_or_pos i with rfl | hpos
    · exact Comparator.le_refl _
    · have hlt := parent_lt hpos
      exact Comparator.le_trans (ih (parent i) hlt (by omega)) (h i hpos hi)

/-- Only the edge above `hole` may be out of order. -/
structure UpTo (c : Comparator α) (w : Nat → α) (n hole : Nat) : Prop where
  rest : ∀ i, 0 < i → i < n → i ≠ hole → c.Le (w (parent i)) (w i)
  grand : 0 < hole → ∀ i, 0 < i → i < n → parent i = hole → c.Le (w (parent hole)) (w i)

/-- Only the edges below `hole` may be out of order. -/
structure DownFrom (c : Comparator α) (w : Nat → α) (n hole : Nat) : Prop where
  rest : ∀ i, 0 < i → i < n → parent i ≠ hole → c.Le (w (parent i)) (w i)
  grand : 0 < hole → ∀ i, 0 < i → i < n → parent i = hole → c.Le (w (parent hole)) (w i)

theorem UpTo.done (h : UpTo c w n hole) (hle : 0 < hole → c.Le (w (parent hole)) (w hole)) :
    HeapOrdered c w n := by
  intro i hpos hi
  by_cases hhole : i = hole
  · subst hhole
    exact hle hpos
  · exact h.rest i hpos hi hhole

theorem DownFrom.done (h : DownFrom c w n hole)
    (hle : ∀ i, 0 < i → i < n → parent i = hole → c.Le (w hole) (w i)) : HeapOrdered c w n := by
  intro i hpos hi
  by_cases hhole : parent i = hole
  · rw [hhole]
    exact hle i hpos hi hhole
  · exact h.rest i hpos hi hhole

/-- A value that comes before its parent goes up. -/
theorem UpTo.up (h : UpTo c w n hole) (hpos : 0 < hole) (hlt : hole < n)
    (hle : c.Le (w hole) (w (parent hole))) :
    UpTo c (exchange w hole (parent hole)) n (parent hole) := by
  have hp := parent_lt hpos
  constructor
  · intro i hi hin hne
    by_cases hih : i = hole
    · subst hih
      rw [exchange_left, exchange_right]
      exact hle
    · rw [exchange_of_ne hih hne]
      by_cases hph : parent i = hole
      · rw [hph, exchange_left]
        exact h.grand hpos i hi hin hph
      · by_cases hpp : parent i = parent hole
        · -- a sibling: the new parent is the value that went up
          have hold := h.rest i hi hin hih
          rw [hpp] at hold
          rw [hpp, exchange_right]
          exact Comparator.le_trans hle hold
        · rw [exchange_of_ne hph hpp]
          exact h.rest i hi hin hih
  · intro hpos' i hi hin hpi
    have hpp := parent_lt hpos'
    have hup := h.rest (parent hole) hpos' (by omega) (by omega)
    rw [exchange_of_ne (by omega) (by omega)]
    by_cases hih : i = hole
    · subst hih
      rw [exchange_left]
      exact hup
    · have hold := h.rest i hi hin hih
      rw [hpi] at hold
      have hlt' := parent_lt hi
      rw [exchange_of_ne hih (by omega)]
      exact Comparator.le_trans hup hold

/-- A value that comes after a first child goes down to its place. -/
theorem DownFrom.down (h : DownFrom c w n hole) (hpos : 0 < next) (hlt : next < n)
    (hnext : parent next = hole) (hle : c.Le (w next) (w hole))
    (hfirst : ∀ i, 0 < i → i < n → parent i = hole → c.Le (w next) (w i)) :
    DownFrom c (exchange w hole next) n next := by
  have hp := parent_lt hpos
  rw [hnext] at hp
  constructor
  · intro i hi hin hne
    have hpi := parent_lt hi
    by_cases hph : parent i = hole
    · rw [hph, exchange_left]
      by_cases hin' : i = next
      · subst hin'
        rw [exchange_right]
        exact hle
      · rw [exchange_of_ne (by omega) hin']
        exact hfirst i hi hin hph
    · have hin' : i ≠ next := fun heq => hph (by rw [heq, hnext])
      rw [exchange_of_ne hph hne]
      by_cases hih : i = hole
      · subst hih
        rw [exchange_left]
        exact h.grand hi next hpos hlt hnext
      · rw [exchange_of_ne hih hin']
        exact h.rest i hi hin hph
  · intro _ i hi hin hpi
    have hlt' := parent_lt hi
    rw [hnext, exchange_left, exchange_of_ne (by omega) (by omega), ← hpi]
    exact h.rest i hi hin (by omega)

end Order

end BaseCode.Foundation
