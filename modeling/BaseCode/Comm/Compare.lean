import Mathlib.Algebra.Group.Nat.Defs
import BaseCode.Comm.HashTableRuns
import BaseCode.Foundation.Comparators

/-!
# The key functions that come with the library

`compare-int.c`, `compare-pointer.c`, `compare-string.c`, `hash-int.c`, `hash-pointer.c` and
`hash-string.c`: each hash function goes with an equality, and each equality with an order.
-/

namespace BaseCode.Comm
open Foundation

/-- `*location1 < *location2` and so on, for `int` and for pointers. -/
def threeWay (location1 location2 : Int) : Int :=
  if location1 < location2 then -1 else if location2 < location1 then 1 else 0

def intCompare (value1 value2 : Int) : Int := threeWay value1 value2

def pointerCompare (location1 location2 : Nat) : Int := threeWay location1 location2

/-- `pointer_hash` and `pointer_equal`, on addresses of 64 bits. -/
def pointerKeys : KeyFuncs Nat := ⟨fun location => location % 2 ^ 64, fun a b => a == b⟩

/-- The characters of a string, before its terminator. -/
def Text := { s : List UInt8 // ∀ c ∈ s, 0 < c }

/-- A string that the functions without case may be called on: they hand plain `char`s to
`tolower`, which is not defined on negative ones. -/
def AsciiText := { s : List UInt8 // ∀ c ∈ s, 0 < c ∧ c < 128 }

/-- `strcmp`: the difference of the first characters that differ. -/
def strcmp : List UInt8 → List UInt8 → Int
  | [], [] => 0
  | [], b :: _ => -(b.toNat : Int)
  | a :: _, [] => a.toNat
  | a :: as, b :: bs => if a = b then strcmp as bs else (a.toNat : Int) - b.toNat

def stringCompare (string1 string2 : Text) : Int :=
  let result := strcmp string1.1 string2.1
  if result < 0 then -1 else if result > 0 then 1 else 0

def stringEqual (string1 string2 : Text) : Bool := strcmp string1.1 string2.1 == 0

/-- `tolower` of a 7-bit character. -/
def tolower (c : UInt8) : UInt8 := if 65 ≤ c ∧ c ≤ 90 then c + 32 else c

/-- The loop of `string_nocase_compare`; the terminator is character 0. -/
def nocaseCompare : List UInt8 → List UInt8 → Int
  | [], [] => 0
  | [], b :: _ => threeWay 0 (tolower b).toNat
  | a :: _, [] => threeWay (tolower a).toNat 0
  | a :: as, b :: bs =>
    if tolower a ≠ tolower b then threeWay (tolower a).toNat (tolower b).toNat
    else nocaseCompare as bs

def stringNocaseCompare (string1 string2 : AsciiText) : Int := nocaseCompare string1.1 string2.1

def stringNocaseEqual (string1 string2 : AsciiText) : Bool :=
  stringNocaseCompare string1 string2 == 0

/-- One round of the hash functions, on an `unsigned long`. -/
def hashStep (result : UInt64) (c : UInt8) : UInt64 := ((result <<< 5) ^^^ result) ^^^ c.toUInt64

def stringHash (string : Text) : UInt64 := string.1.foldl hashStep 5381

def stringNocaseHash (string : AsciiText) : UInt64 :=
  string.1.foldl (fun result c => hashStep result (tolower c)) 5381

def stringKeys : KeyFuncs Text := ⟨fun s => (stringHash s).toNat, stringEqual⟩

def stringNocaseKeys : KeyFuncs AsciiText :=
  ⟨fun s => (stringNocaseHash s).toNat, stringNocaseEqual⟩

/-- Lists of characters in the order of the dictionary, by a three-way comparison of what a
character stands for. -/
def lexicographic (g : UInt8 → UInt8) : List UInt8 → List UInt8 → Int
  | [], [] => 0
  | [], _ :: _ => -1
  | _ :: _, [] => 1
  | a :: as, b :: bs =>
    if g a = g b then lexicographic g as bs else threeWay (g a).toNat (g b).toNat

section Lexicographic

variable {g : UInt8 → UInt8}

theorem threeWay_swap (a b : Int) : threeWay a b = -threeWay b a := by
  simp only [threeWay]
  split
  · rw [if_neg (by omega)]
  · split <;> simp

theorem lexicographic_swap (as bs : List UInt8) :
    lexicographic g as bs = -lexicographic g bs as := by
  induction as generalizing bs with
  | nil => cases bs <;> rfl
  | cons a as ih =>
    cases bs with
    | nil => rfl
    | cons b bs =>
      simp only [lexicographic]
      by_cases hab : g a = g b
      · rw [if_pos hab, if_pos hab.symm]
        exact ih bs
      · rw [if_neg hab, if_neg (Ne.symm hab)]
        exact threeWay_swap ..

theorem lexicographic_eq_zero {as bs : List UInt8} :
    lexicographic g as bs = 0 ↔ as.map g = bs.map g := by
  induction as generalizing bs with
  | nil => cases bs <;> simp [lexicographic]
  | cons a as ih =>
    cases bs with
    | nil => simp [lexicographic]
    | cons b bs =>
      simp only [lexicographic, List.map_cons, List.cons.injEq]
      by_cases hab : g a = g b
      · rw [if_pos hab, ih]
        simp [hab]
      · rw [if_neg hab]
        have hne : (g a).toNat ≠ (g b).toNat := fun h => hab (UInt8.toNat_inj.mp h)
        simp only [hab, false_and, iff_false, threeWay]
        split
        · omega
        · rw [if_pos (by omega)]
          omega

theorem threeWay_le {a b : Int} : threeWay a b ≤ 0 ↔ a ≤ b := by
  simp only [threeWay]
  split
  · omega
  · split <;> omega

theorem lexicographic_trans {as bs cs : List UInt8} (h : lexicographic g as bs ≤ 0)
    (h' : lexicographic g bs cs ≤ 0) : lexicographic g as cs ≤ 0 := by
  induction as generalizing bs cs with
  | nil => cases cs <;> simp [lexicographic]
  | cons a as ih =>
    cases bs with
    | nil => simp [lexicographic] at h
    | cons b bs =>
      cases cs with
      | nil => simp [lexicographic] at h'
      | cons c cs =>
        simp only [lexicographic] at h h' ⊢
        by_cases hab : g a = g b <;> by_cases hbc : g b = g c
        · rw [if_pos hab] at h
          rw [if_pos hbc] at h'
          rw [if_pos (hab.trans hbc)]
          exact ih h h'
        · rw [if_neg hbc] at h'
          rw [hab, if_neg hbc]
          exact h'
        · rw [if_neg hab] at h
          rw [← hbc, if_neg hab]
          exact h
        · rw [if_neg hab, threeWay_le] at h
          rw [if_neg hbc, threeWay_le] at h'
          have hne : (g a).toNat ≠ (g b).toNat := fun h => hab (UInt8.toNat_inj.mp h)
          have hac : g a ≠ g c := by
            intro hac
            rw [hac] at h hne
            omega
          rw [if_neg hac, threeWay_le]
          omega

/-- A comparison in the order of the dictionary orders its arguments. -/
def lexOrder {τ : Type} (chars : τ → List UInt8) (g : UInt8 → UInt8) : Comparator τ where
  compare s s' := lexicographic g (chars s) (chars s')
  swap s s' := by
    rw [lexicographic_swap]
    omega
  trans _ _ _ := lexicographic_trans

end Lexicographic

theorem threeWay_of_lt {a b : Int} (h : a < b) : threeWay a b = -1 := if_pos h

theorem threeWay_of_gt {a b : Int} (h : b < a) : threeWay a b = 1 := by
  rw [threeWay, if_neg (by omega), if_pos h]

theorem threeWay_sub (a b : Int) : threeWay (a - b) 0 = threeWay a b := by
  rcases Int.lt_trichotomy a b with h | rfl | h
  · rw [threeWay_of_lt h, threeWay_of_lt (by omega)]
  · rw [Int.sub_self]
    simp [threeWay]
  · rw [threeWay_of_gt h, threeWay_of_gt (by omega)]

/-- The sign of `strcmp`. -/
theorem strcmp_sign {as bs : List UInt8} (ha : ∀ c ∈ as, 0 < c) (hb : ∀ c ∈ bs, 0 < c) :
    threeWay (strcmp as bs) 0 = lexicographic id as bs := by
  induction as generalizing bs with
  | nil =>
    cases bs with
    | nil => rfl
    | cons b bs =>
      have hpos := UInt8.lt_iff_toNat_lt.mp (hb b List.mem_cons_self)
      rw [UInt8.toNat_zero] at hpos
      exact threeWay_of_lt (by rw [strcmp]; omega)
  | cons a as ih =>
    cases bs with
    | nil =>
      have hpos := UInt8.lt_iff_toNat_lt.mp (ha a List.mem_cons_self)
      rw [UInt8.toNat_zero] at hpos
      exact threeWay_of_gt (by rw [strcmp]; omega)
    | cons b bs =>
      by_cases hab : a = b
      · rw [strcmp, lexicographic, if_pos hab, if_pos (congrArg id hab)]
        exact ih (fun c hc => ha c (List.mem_cons_of_mem a hc))
          (fun c hc => hb c (List.mem_cons_of_mem b hc))
      · rw [strcmp, lexicographic, if_neg hab, if_neg (by exact hab)]
        exact threeWay_sub ..

theorem tolower_pos {c : UInt8} (hpos : 0 < c) : 0 < (tolower c).toNat := by
  rw [UInt8.lt_iff_toNat_lt, UInt8.toNat_zero] at hpos
  rw [tolower]
  split
  · next h =>
    obtain ⟨-, hle⟩ := h
    rw [UInt8.le_iff_toNat_le] at hle
    rw [UInt8.toNat_add]
    have h90 : (90 : UInt8).toNat = 90 := rfl
    have h32 : (32 : UInt8).toNat = 32 := rfl
    omega
  · exact hpos

theorem nocaseCompare_eq {as bs : List UInt8} (ha : ∀ c ∈ as, 0 < c) (hb : ∀ c ∈ bs, 0 < c) :
    nocaseCompare as bs = lexicographic tolower as bs := by
  induction as generalizing bs with
  | nil =>
    cases bs with
    | nil => rfl
    | cons b bs =>
      have hpos := tolower_pos (hb b List.mem_cons_self)
      exact threeWay_of_lt (by omega)
  | cons a as ih =>
    cases bs with
    | nil =>
      have hpos := tolower_pos (ha a List.mem_cons_self)
      exact threeWay_of_gt (by omega)
    | cons b bs =>
      simp only [nocaseCompare, lexicographic]
      by_cases hab : tolower a = tolower b
      · rw [if_neg (not_not.mpr hab), if_pos hab]
        exact ih (fun c hc => ha c (List.mem_cons_of_mem a hc))
          (fun c hc => hb c (List.mem_cons_of_mem b hc))
      · rw [if_pos hab, if_neg hab]

theorem AsciiText.pos (s : AsciiText) : ∀ c ∈ s.1, 0 < c := fun c hc => (s.2 c hc).1

theorem stringCompare_eq :
    stringCompare = (lexOrder (fun s : Text => s.1) id).compare := by
  funext s s'
  exact strcmp_sign s.2 s'.2

theorem stringNocaseCompare_eq :
    stringNocaseCompare = (lexOrder (fun s : AsciiText => s.1) tolower).compare := by
  funext s s'
  exact nocaseCompare_eq s.pos s'.pos

theorem stringEqual_iff (s s' : Text) : stringEqual s s' = true ↔ s.1.map id = s'.1.map id := by
  have hsign := strcmp_sign s.2 s'.2
  have hzero : strcmp s.1 s'.1 = 0 ↔ lexicographic id s.1 s'.1 = 0 := by
    rw [← hsign]
    rcases Int.lt_trichotomy (strcmp s.1 s'.1) 0 with h | h | h
    · rw [threeWay_of_lt h]
      omega
    · rw [h]
      simp [threeWay]
    · rw [threeWay_of_gt h]
      omega
  rw [stringEqual, beq_iff_eq, hzero, lexicographic_eq_zero]

theorem stringNocaseEqual_iff (s s' : AsciiText) :
    stringNocaseEqual s s' = true ↔ s.1.map tolower = s'.1.map tolower := by
  rw [stringNocaseEqual, beq_iff_eq, stringNocaseCompare, nocaseCompare_eq s.pos s'.pos,
    lexicographic_eq_zero]

theorem foldl_tolower (as : List UInt8) (result : UInt64) :
    as.foldl (fun result c => hashStep result (tolower c)) result =
      (as.map tolower).foldl hashStep result := by
  rw [List.foldl_map]

theorem lawful_stringKeys : stringKeys.Lawful := by
  refine lawful_of_view _ stringEqual_iff fun s s' h => ?_
  rw [List.map_id, List.map_id] at h
  show (stringHash s).toNat = (stringHash s').toNat
  rw [stringHash, stringHash, h]

theorem lawful_stringNocaseKeys : stringNocaseKeys.Lawful := by
  refine lawful_of_view _ stringNocaseEqual_iff fun s s' h => ?_
  show (stringNocaseHash s).toNat = (stringNocaseHash s').toNat
  rw [stringNocaseHash, stringNocaseHash, foldl_tolower, foldl_tolower, h]

/-- `int_hash` and `int_equal` are about what the cells hold at the time. -/
theorem lawful_cellKeys (mem : Nat → Int) : (cellKeys mem).Lawful := by
  refine lawful_of_view mem (fun a b => beq_iff_eq) fun a b h => ?_
  show intHash (mem a) = intHash (mem b)
  rw [h]

theorem lawful_pointerKeys : pointerKeys.Lawful :=
  lawful_of_view id (fun _ _ => beq_iff_eq) fun _ _ h => congrArg pointerKeys.hash h

/-- A hash, an equality and an order of one kind of keys that fit together. -/
structure Consistent {τ : Type} (f : KeyFuncs τ) (compare : τ → τ → Int) : Prop where
  lawful : f.Lawful
  order : ∃ c : Comparator τ, c.compare = compare
  zero : ∀ a b, compare a b = 0 ↔ f.equal a b = true

theorem threeWay_eq_zero {a b : Int} : threeWay a b = 0 ↔ a = b := by
  rcases Int.lt_trichotomy a b with h | h | h
  · rw [threeWay_of_lt h]
    omega
  · rw [h]
    simp [threeWay]
  · rw [threeWay_of_gt h]
    omega

/-- Values of a kind in the order of the integers they are. -/
def viewOrder {τ : Type} (view : τ → Int) : Comparator τ where
  compare a b := threeWay (view a) (view b)
  swap a b := by
    rw [threeWay_swap]
    omega
  trans _ _ _ h h' := threeWay_le.mpr (Int.le_trans (threeWay_le.mp h) (threeWay_le.mp h'))

theorem consistent_cellKeys (mem : Nat → Int) :
    Consistent (cellKeys mem) fun a b => intCompare (mem a) (mem b) where
  lawful := lawful_cellKeys mem
  order := ⟨viewOrder mem, rfl⟩
  zero _ _ := threeWay_eq_zero.trans beq_iff_eq.symm

theorem consistent_pointerKeys : Consistent pointerKeys pointerCompare where
  lawful := lawful_pointerKeys
  order := ⟨viewOrder Nat.cast, rfl⟩
  zero a b := by
    show threeWay a b = 0 ↔ (a == b) = true
    rw [threeWay_eq_zero, beq_iff_eq]
    exact Int.natCast_inj

theorem consistent_stringKeys : Consistent stringKeys stringCompare where
  lawful := lawful_stringKeys
  order := ⟨_, stringCompare_eq.symm⟩
  zero s s' := by
    rw [stringCompare_eq]
    exact lexicographic_eq_zero.trans (stringEqual_iff s s').symm

theorem consistent_stringNocaseKeys : Consistent stringNocaseKeys stringNocaseCompare where
  lawful := lawful_stringNocaseKeys
  order := ⟨_, stringNocaseCompare_eq.symm⟩
  zero _ _ := beq_iff_eq.symm

/-- The functions the library ships may be given to its tables, trees, heaps and lists: hash,
equality and order fit together, for every contents of the cells that the keys point to. -/
theorem shipped_keys_consistent (mem : Nat → Int) :
    Consistent (cellKeys mem) (fun a b => intCompare (mem a) (mem b)) ∧
      Consistent pointerKeys pointerCompare ∧ Consistent stringKeys stringCompare ∧
      Consistent stringNocaseKeys stringNocaseCompare :=
  ⟨consistent_cellKeys mem, consistent_pointerKeys, consistent_stringKeys,
    consistent_stringNocaseKeys⟩

end BaseCode.Comm
