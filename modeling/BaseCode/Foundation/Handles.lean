import Mathlib.Init

/-!
# Handles

A program that makes objects and gives them up again is seen through the numbers of its
objects: a slot is empty once its object is gone, and a number that was never given out is like
an empty slot. Two such lists of slots agree if each object stands for what is in the other
list at its place.
-/

namespace BaseCode.Foundation

universe u v

variable {σ : Type u} {τ : Type v} {R : σ → τ → Prop}

def SlotHolds (R : σ → τ → Prop) : Option σ → Option τ → Prop
  | some s, some t => R s t
  | none, none => True
  | _, _ => False

structure Slots (R : σ → τ → Prop) (ss : List (Option σ)) (ts : List (Option τ)) : Prop where
  length : ss.length = ts.length
  slot : ∀ i : Nat, SlotHolds R ss[i]?.join ts[i]?.join

namespace Slots

variable {ss : List (Option σ)} {ts : List (Option τ)} {i : Nat} {s : σ} {t : τ}

theorem empty : Slots R [] [] := ⟨rfl, fun _ => trivial⟩

/-- A handle leads to two objects that agree, or to none. -/
theorem cases (h : Slots R ss ts) (i : Nat) :
    (ss[i]?.join = none ∧ ts[i]?.join = none) ∨
      ∃ s t, ss[i]?.join = some s ∧ ts[i]?.join = some t ∧ R s t := by
  have hslot := h.slot i
  cases hs : ss[i]?.join with
  | none =>
    cases ht : ts[i]?.join with
    | none => exact .inl ⟨rfl, rfl⟩
    | some t =>
      rw [hs, ht] at hslot
      exact hslot.elim
  | some s =>
    cases ht : ts[i]?.join with
    | none =>
      rw [hs, ht] at hslot
      exact hslot.elim
    | some t =>
      rw [hs, ht] at hslot
      exact .inr ⟨s, t, rfl, rfl, hslot⟩

theorem put (h : Slots R ss ts) {s : Option σ} {t : Option τ} (hst : SlotHolds R s t) :
    Slots R (ss.set i s) (ts.set i t) where
  length := by rw [List.length_set, List.length_set, h.length]
  slot j := by
    rw [List.getElem?_set, List.getElem?_set, h.length]
    by_cases hij : i = j
    · rw [if_pos hij, if_pos hij]
      split
      · exact hst
      · trivial
    · rw [if_neg hij, if_neg hij]
      exact h.slot j

/-- Another object that stands for the same. -/
theorem exchange (h : Slots R ss ts) (ht : ts[i]?.join = some t) (hst : R s t) :
    Slots R (ss.set i (some s)) ts := by
  have hts : ts.set i (some t) = ts := by
    obtain ⟨hlt, hget⟩ := List.getElem?_eq_some_iff.mp (Option.join_eq_some_iff.mp ht)
    rw [← hget, List.set_getElem_self hlt]
  rw [← hts]
  exact h.put hst

theorem push (h : Slots R ss ts) (hst : R s t) : Slots R (ss ++ [some s]) (ts ++ [some t]) where
  length := by rw [List.length_append, List.length_append, h.length]; rfl
  slot i := by
    rcases Nat.lt_trichotomy i ss.length with hi | rfl | hi
    · rw [List.getElem?_append_left hi, List.getElem?_append_left (h.length ▸ hi)]
      exact h.slot i
    · rw [List.getElem?_concat_length, h.length, List.getElem?_concat_length]
      exact hst
    · have hss : (ss ++ [some s]).length ≤ i := by
        rw [List.length_append, List.length_singleton]
        omega
      have hts : (ts ++ [some t]).length ≤ i := by
        rw [List.length_append, List.length_singleton, ← h.length]
        omega
      rw [List.getElem?_eq_none hss, List.getElem?_eq_none hts]
      trivial

end Slots

end BaseCode.Foundation
