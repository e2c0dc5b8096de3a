import Mathlib.Algebra.Group.Nat.Defs
import Mathlib.Data.List.GetD
import Mathlib.Data.List.TakeDrop
import Mathlib.Data.List.TakeWhile

/-!
# C strings and character arrays

A character array is the memory from its first byte on, together with the writes made since:
what lies behind the array belongs to the memory too, since a copy may run past the end and a
string that is not terminated is read on. The characters are of any type with a zero, the
terminator.
-/

namespace BaseCode.Foundation

section Strchr

variable {α : Type} [DecidableEq α]

/-- The string from the first `c` on, `none` for `NULL`. -/
def strchr (s : List α) (c : α) : Option (List α) :=
  match s.dropWhile (· ≠ c) with
  | [] => none
  | p => some p

variable {s pre : List α} {c : α}

theorem forall_ne_of_notMem (h : c ∉ s) : ∀ a ∈ s, decide (a ≠ c) = true := by
  intro a ha
  refine decide_eq_true ?_
  rintro rfl
  exact h ha

theorem strchr_append (hpre : c ∉ pre) (rest : List α) :
    strchr (pre ++ c :: rest) c = some (c :: rest) := by
  have hdrop : (pre ++ c :: rest).dropWhile (· ≠ c) = c :: rest := by
    rw [List.dropWhile_append_of_pos (forall_ne_of_notMem hpre)]
    simp
  simp only [strchr, hdrop]

theorem strchr_of_notMem (h : c ∉ s) : strchr s c = none := by
  have hdrop : s.dropWhile (· ≠ c) = [] :=
    List.dropWhile_eq_nil_iff.mpr (forall_ne_of_notMem h)
  simp only [strchr, hdrop]

end Strchr

variable {α : Type} [Zero α]

/-- A NUL-terminated string, by its characters. Like any object it is smaller than the address
space. -/
structure CString (α : Type) [Zero α] where
  chars : List α
  noNul : 0 ∉ chars
  fits : chars.length < 2 ^ 64

/-- Below its length a string has no terminator, from there on there are only terminators. -/
theorem CString.getD_eq_zero_iff (s : CString α) (i : Nat) :
    s.chars.getD i 0 = 0 ↔ s.chars.length ≤ i := by
  constructor
  · intro h
    by_contra hlt
    rw [Nat.not_le] at hlt
    rw [List.getD_eq_getElem _ _ hlt] at h
    exact s.noNul (h ▸ List.getElem_mem hlt)
  · exact List.getD_eq_default _ _

/-- Subtraction of `size_t`. -/
def sizeSub (a b : Nat) : Nat := (a + (2 ^ 64 - b)) % 2 ^ 64

theorem sizeSub_of_le {a b : Nat} (h : b ≤ a) (ha : a < 2 ^ 64) : sizeSub a b = a - b := by
  simp only [sizeSub]
  omega

theorem sizeSub_of_lt {a b : Nat} (h : a < b) (hb : b ≤ 2 ^ 64) :
    sizeSub a b = 2 ^ 64 - (b - a) := by
  simp only [sizeSub]
  omega

/-- A write of `len` bytes from byte `off` on. -/
structure Span where
  off : Nat
  len : Nat
  deriving DecidableEq, Repr

/-- The memory from an array's first byte on, zero beyond the list, and the writes made through
the array. -/
structure Region (α : Type) where
  mem : List α
  writes : List Span

namespace Region

/-- A cleared array of `size` bytes before other memory. -/
def cleared (size : Nat) (behind : List α) : Region α := ⟨List.replicate size 0 ++ behind, []⟩

def byte (r : Region α) (i : Nat) : α := r.mem.getD i 0

def store (r : Region α) (off : Nat) (bytes : List α) : Region α where
  mem := r.mem.takeD off 0 ++ bytes ++ r.mem.drop (off + bytes.length)
  writes := r.writes ++ [⟨off, bytes.length⟩]

/-- `strncpy(&r[off], src, n)`: always `n` bytes, filled up with terminators. -/
def strncpy (r : Region α) (off : Nat) (src : List α) (n : Nat) : Region α :=
  r.store off (src.takeD n 0)

/-- The string that starts at the array, read on past its end where need be. -/
def cstr [DecidableEq α] (r : Region α) : List α := r.mem.takeWhile (· ≠ 0)

/-- Every write stayed inside an array of `size` bytes. -/
def Within (r : Region α) (size : Nat) : Prop := ∀ w ∈ r.writes, w.off + w.len ≤ size

variable {r : Region α} {off i n size : Nat} {bytes src behind : List α}

theorem getD_takeD (l : List α) (n i : Nat) :
    (l.takeD n 0).getD i 0 = if i < n then l.getD i 0 else 0 := by
  induction n generalizing l i with
  | zero => simp
  | succ n ih =>
    cases i with
    | zero => cases l <;> simp
    | succ i =>
      simp only [List.takeD_succ, List.getD_cons_succ, ih, Nat.add_lt_add_iff_right]
      cases l <;> simp

theorem byte_store :
    (r.store off bytes).byte i =
      if off ≤ i ∧ i < off + bytes.length then bytes.getD (i - off) 0 else r.byte i := by
  have hlen : (r.mem.takeD off 0).length = off := List.takeD_length ..
  simp only [byte, store, List.append_assoc]
  by_cases h1 : i < off
  · rw [List.getD_append _ _ _ _ (by omega), getD_takeD, if_pos h1, if_neg (by omega)]
  · rw [List.getD_append_right _ _ _ _ (by omega), hlen]
    by_cases h2 : i - off < bytes.length
    · rw [List.getD_append _ _ _ _ h2, if_pos (by omega)]
    · rw [List.getD_append_right _ _ _ _ (by omega), if_neg (by omega)]
      simp only [List.getD_eq_getElem?_getD, List.getElem?_drop]
      congr 2
      omega

theorem byte_strncpy :
    (r.strncpy off src n).byte i =
      if off ≤ i ∧ i < off + n then src.getD (i - off) 0 else r.byte i := by
  rw [strncpy, byte_store, List.takeD_length, getD_takeD]
  by_cases h : off ≤ i ∧ i < off + n
  · rw [if_pos h, if_pos h, if_pos (by omega)]
  · rw [if_neg h, if_neg h]

theorem byte_cleared_of_lt (h : i < size) : (cleared size behind).byte i = 0 := by
  simp only [byte, cleared]
  rw [List.getD_append _ _ _ _ (by simpa using h)]
  simp

theorem byte_cleared_of_le (h : size ≤ i) :
    (cleared size behind).byte i = behind.getD (i - size) 0 := by
  simp only [byte, cleared]
  rw [List.getD_append_right _ _ _ _ (by simpa using h), List.length_replicate]

@[simp] theorem within_cleared : (cleared size behind).Within n := by
  simp [Within, cleared]

theorem within_store :
    (r.store off bytes).Within size ↔ r.Within size ∧ off + bytes.length ≤ size := by
  simp [Within, store, or_imp, forall_and]

theorem within_strncpy :
    (r.strncpy off src n).Within size ↔ r.Within size ∧ off + n ≤ size := by
  rw [strncpy, within_store, List.takeD_length]

section Strings

variable [DecidableEq α] {s : List α}

theorem zero_notMem_cstr : (0 : α) ∉ r.cstr := by
  intro h
  have := List.mem_takeWhile_imp h
  simp at this

/-- The string is `s` if the array starts with the characters of `s` and a terminator. -/
theorem cstr_eq (h0 : 0 ∉ s) (hs : ∀ i < s.length, r.byte i = s.getD i 0)
    (hend : r.byte s.length = 0) : r.cstr = s := by
  simp only [byte, cstr] at *
  -- along `s`, which the memory starts with
  generalize r.mem = l at *
  induction s generalizing l with
  | nil =>
    cases l with
    | nil => rfl
    | cons a l =>
      have ha : a = 0 := by simpa using hend
      simp [ha]
  | cons c s ih =>
    obtain ⟨hc, hs0⟩ := not_or.mp (List.mem_cons.not.mp h0)
    have hfirst := hs 0 (Nat.zero_lt_succ _)
    cases l with
    | nil => exact absurd (by simpa using hfirst) hc
    | cons a l =>
      obtain rfl : a = c := by simpa using hfirst
      have hrest : l.takeWhile (· ≠ 0) = s := by
        refine ih hs0 l (fun i hi => ?_) (by simpa using hend)
        simpa using hs (i + 1) (Nat.succ_lt_succ hi)
      rw [List.takeWhile_cons_of_pos (by simpa using Ne.symm hc), hrest]

/-- A string is at least as long as the array has characters at its start. -/
theorem le_length_cstr (h : ∀ i < n, r.byte i ≠ 0) : n ≤ r.cstr.length := by
  simp only [byte, cstr] at *
  generalize r.mem = l at *
  induction n generalizing l with
  | zero => exact Nat.zero_le _
  | succ n ih =>
    have hfirst := h 0 (Nat.zero_lt_succ _)
    cases l with
    | nil => exact absurd (by simp) hfirst
    | cons a l =>
      have hrest := ih l fun i hi => by simpa using h (i + 1) (Nat.succ_lt_succ hi)
      rw [List.takeWhile_cons_of_pos (by simpa using hfirst)]
      exact Nat.succ_le_succ hrest

/-- The part of a string that is copied to a cleared array with room left is terminated there. -/
theorem cstr_strncpy_cleared (h0 : 0 ∉ src) (hn : n ≤ src.length) (hsize : n < size) :
    ((cleared size behind).strncpy 0 src n).cstr = src.take n := by
  have hlen : (src.take n).length = n := by
    rw [List.length_take]
    omega
  apply cstr_eq (fun h => h0 (List.mem_of_mem_take h))
  · intro i hi
    rw [byte_strncpy, if_pos (by omega)]
    simp only [Nat.sub_zero, List.getD_eq_getElem?_getD]
    rw [List.getElem?_take_of_lt (by omega)]
  · rw [hlen, byte_strncpy, if_neg (by omega), byte_cleared_of_lt hsize]

/-- A string that fills the array is read on into what lies behind it. -/
theorem length_cstr_full {c : α} (hc : c ≠ 0) (m : Nat) (h0 : 0 ∉ src) (hn : n ≤ src.length)
    (hsize : size ≤ n) :
    size + m ≤ ((cleared size (List.replicate m c)).strncpy 0 src n).cstr.length := by
  apply le_length_cstr
  intro i hi
  rw [byte_strncpy]
  by_cases h : i < n
  · rw [if_pos (by omega), Nat.sub_zero, List.getD_eq_getElem _ _ (by omega)]
    exact fun hz => h0 (hz ▸ List.getElem_mem _)
  · rw [if_neg (by omega), byte_cleared_of_le (by omega),
      List.getD_eq_getElem _ _ (by simp; omega), List.getElem_replicate]
    exact hc

end Strings

end Region

end BaseCode.Foundation
