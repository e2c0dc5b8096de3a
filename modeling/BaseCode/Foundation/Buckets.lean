import Mathlib.Data.List.Perm.Basic
import Mathlib.Data.List.Range
import Mathlib.Logic.Function.Basic

/-!
# Arrays of lists

A finite array of lists, the first element of a list that passes a test, and what it does
to the elements of the whole array to change one list of it.
-/

namespace BaseCode.Foundation

variable {α : Type*}

/-- The elements of the first `n` lists, in order. -/
def flatten (n : Nat) (b : Nat → List α) : List α := (List.range n).flatMap b

theorem mem_flatten {n : Nat} {b : Nat → List α} {x : α} :
    x ∈ flatten n b ↔ ∃ i, i < n ∧ x ∈ b i := by
  simp [flatten]

theorem flatten_succ (n : Nat) (b : Nat → List α) :
    flatten (n + 1) b = flatten n b ++ b n := by
  simp [flatten, List.range_succ]

theorem flatten_congr {n : Nat} {b b' : Nat → List α} (h : ∀ i, i < n → b i = b' i) :
    flatten n b = flatten n b' := by
  induction n with
  | zero => rfl
  | succ n ih =>
    rw [flatten_succ, flatten_succ, h n (Nat.lt_succ_self n),
      ih (fun i hi => h i (Nat.lt_succ_of_lt hi))]

/-- Exchanging one list exchanges its elements and no others. -/
theorem flatten_update_perm {n i : Nat} (hi : i < n) (b : Nat → List α) (c : List α) :
    (flatten n (Function.update b i c) ++ b i).Perm (flatten n b ++ c) := by
  induction n with
  | zero => exact absurd hi (Nat.not_lt_zero i)
  | succ n ih =>
    rw [flatten_succ, flatten_succ]
    by_cases hin : i = n
    · -- the exchanged list is the last one
      subst hin
      have hsame : flatten i (Function.update b i c) = flatten i b :=
        flatten_congr fun j hj => Function.update_of_ne (Nat.ne_of_lt hj) ..
      rw [hsame, Function.update_self, List.append_assoc, List.append_assoc]
      exact List.Perm.append_left _ List.perm_append_comm
    · have hlt : i < n := by omega
      rw [Function.update_of_ne (Ne.symm hin)]
      calc (flatten n (Function.update b i c) ++ b n ++ b i).Perm
            (flatten n (Function.update b i c) ++ b i ++ b n) := by
              simpa only [List.append_assoc] using
                List.Perm.append_left _ List.perm_append_comm
        _ |>.Perm (flatten n b ++ c ++ b n) := (ih hlt).append_right _
        _ |>.Perm (flatten n b ++ b n ++ c) := by
              simpa only [List.append_assoc] using
                List.Perm.append_left _ List.perm_append_comm

/-- A list cut at the first element that passes the test. -/
def splitFirst (p : α → Bool) : List α → Option (List α × α × List α)
  | [] => none
  | x :: xs => if p x then some ([], x, xs) else (splitFirst p xs).map fun r => (x :: r.1, r.2)

theorem splitFirst_eq_some {p : α → Bool} {l a b : List α} {x : α}
    (h : splitFirst p l = some (a, x, b)) :
    l = a ++ x :: b ∧ p x = true ∧ ∀ y ∈ a, p y = false := by
  induction l generalizing a with
  | nil => cases h
  | cons y ys ih =>
    simp only [splitFirst] at h
    split at h
    · next hy =>
      cases h
      exact ⟨rfl, hy, by simp⟩
    · next hy =>
      rw [Option.map_eq_some_iff] at h
      obtain ⟨⟨a', x', b'⟩, hr, heq⟩ := h
      cases heq
      obtain ⟨hl, hx, ha⟩ := ih hr
      refine ⟨by rw [hl]; rfl, hx, ?_⟩
      intro z hz
      rcases List.mem_cons.mp hz with rfl | hz
      · exact Bool.eq_false_iff.mpr hy
      · exact ha z hz

theorem splitFirst_eq_none {p : α → Bool} {l : List α} :
    splitFirst p l = none ↔ ∀ y ∈ l, p y = false := by
  induction l with
  | nil => simp [splitFirst]
  | cons y ys ih =>
    simp only [splitFirst]
    split
    · next hy => simp [hy]
    · next hy =>
      rw [Option.map_eq_none_iff, ih]
      simp [hy]

theorem find?_eq_splitFirst (p : α → Bool) (l : List α) :
    l.find? p = (splitFirst p l).map fun r => r.2.1 := by
  induction l with
  | nil => rfl
  | cons y ys ih =>
    simp only [splitFirst]
    by_cases hy : p y = true
    · simp [hy]
    · rw [if_neg hy, List.find?_cons_of_neg hy, ih, Option.map_map]
      rfl

/-- The element found is the one that `eraseP` takes out. -/
theorem eraseP_of_find? {p : α → Bool} {l : List α} {x : α} (h : l.find? p = some x) :
    ∃ a b, l = a ++ x :: b ∧ l.eraseP p = a ++ b := by
  obtain ⟨hx, a, b, rfl, ha⟩ := List.find?_eq_some_iff_append.mp h
  refine ⟨a, b, rfl, ?_⟩
  have hnot : ∀ y ∈ a, ¬ p y = true := by simpa using ha
  rw [List.eraseP_append_right _ hnot, List.eraseP_cons_of_pos hx]

theorem perm_eraseP_of_find? {p : α → Bool} {l : List α} {x : α} (h : l.find? p = some x) :
    l.Perm (x :: l.eraseP p) := by
  obtain ⟨a, b, hl, he⟩ := eraseP_of_find? h
  rw [he, hl]
  exact List.perm_middle

end BaseCode.Foundation
