import Mathlib.Init

/-!
# Bits packed into bytes

A table of bits is stored eight to a byte, the first in the lowest place. Everything that reads
or writes the table is seen through `bitAt`; a bit behind the end of the table is not set.
-/

namespace BaseCode.Foundation

def bitOf (b : UInt8) (i : Nat) : Bool := b.toNat.testBit i

/-- The byte with one bit set. -/
def mask (i : Nat) : UInt8 := 1 <<< UInt8.ofNat i

/-- Bit `i` of a table. -/
def bitAt (table : List UInt8) (i : Nat) : Bool :=
  match table[i / 8]? with
  | some b => bitOf b (i % 8)
  | none => false

section Bytes

variable {b b' : UInt8} {i j : Nat}

theorem bitOf_mask (hi : i < 8) : bitOf (mask i) j = decide (i = j) := by
  have hshift : (mask i).toNat = 2 ^ i := by
    have hpow : 2 ^ i < 2 ^ 8 := Nat.pow_lt_pow_right (by omega) hi
    have hplace : i % 2 ^ 8 % 8 = i := by omega
    rw [mask, UInt8.toNat_shiftLeft, UInt8.toNat_ofNat', hplace, UInt8.toNat_one,
      Nat.shiftLeft_eq, Nat.one_mul, Nat.mod_eq_of_lt hpow]
  rw [bitOf, hshift, Nat.testBit_two_pow]

theorem bitOf_or : bitOf (b ||| b') i = (bitOf b i || bitOf b' i) := by
  rw [bitOf, UInt8.toNat_or, Nat.testBit_or]
  rfl

theorem bitOf_and : bitOf (b &&& b') i = (bitOf b i && bitOf b' i) := by
  rw [bitOf, UInt8.toNat_and, Nat.testBit_and]
  rfl

theorem bitOf_zero : bitOf 0 i = false := by
  rw [bitOf, UInt8.toNat_zero, Nat.zero_testBit]

theorem eq_zero_of_bits (h : ∀ i < 8, bitOf b i = false) : b = 0 := by
  apply UInt8.toNat_inj.mp
  apply Nat.eq_of_testBit_eq
  intro i
  rw [UInt8.toNat_zero, Nat.zero_testBit]
  by_cases hi : i < 8
  · exact h i hi
  · have hlt : b.toNat < 2 ^ i :=
      Nat.lt_of_lt_of_le b.toNat_lt (Nat.pow_le_pow_right (by omega) (by omega))
    exact Nat.testBit_lt_two_pow hlt

/-- The test of one bit with a mask. -/
theorem and_mask_eq_zero (hi : i < 8) : b &&& mask i = 0 ↔ bitOf b i = false := by
  constructor
  · intro h
    have hbit : bitOf (b &&& mask i) i = false := by rw [h, bitOf_zero]
    rwa [bitOf_and, bitOf_mask hi, decide_eq_true rfl, Bool.and_true] at hbit
  · intro h
    apply eq_zero_of_bits
    intro j hj
    rw [bitOf_and, bitOf_mask hi]
    by_cases hij : i = j
    · rw [← hij, h, Bool.false_and]
    · rw [decide_eq_false hij, Bool.and_false]

end Bytes

section Tables

variable {table table' : List UInt8} {i j n : Nat} {b : UInt8}

theorem bitAt_of_getElem (h : table[i / 8]? = some b) : bitAt table i = bitOf b (i % 8) := by
  rw [bitAt, h]

/-- One bit is set, the others stay as they are. -/
theorem bitAt_set (h : table[i / 8]? = some b) :
    bitAt (table.set (i / 8) (b ||| mask (i % 8))) j = (bitAt table j || decide (i = j)) := by
  obtain ⟨hlt, -⟩ := List.getElem?_eq_some_iff.mp h
  by_cases hbyte : i / 8 = j / 8
  · have hget : (table.set (i / 8) (b ||| mask (i % 8)))[j / 8]? = some (b ||| mask (i % 8)) := by
      rw [← hbyte, List.getElem?_set_self hlt]
    rw [hbyte] at h
    rw [bitAt_of_getElem hget, bitAt_of_getElem h, bitOf_or,
      bitOf_mask (Nat.mod_lt _ (by omega))]
    have hiff : i % 8 = j % 8 ↔ i = j := by omega
    simp only [hiff]
  · have hne : i ≠ j := fun heq => hbyte (by rw [heq])
    rw [bitAt, List.getElem?_set_ne hbyte, decide_eq_false hne, Bool.or_false]
    rfl

theorem bitAt_replicate : bitAt (List.replicate n 0) i = false := by
  rw [bitAt, List.getElem?_replicate]
  split
  · next b hb =>
    split at hb
    · cases hb
      exact bitOf_zero
    · cases hb
  · rfl

/-- An operation on the bytes that is one on the bits. -/
theorem bitAt_zipWith {g : UInt8 → UInt8 → UInt8} {p : Bool → Bool → Bool}
    (hg : ∀ b b' i, bitOf (g b b') i = p (bitOf b i) (bitOf b' i)) (hp : p false false = false)
    (hlen : table.length = table'.length) :
    bitAt (List.zipWith g table table') i = p (bitAt table i) (bitAt table' i) := by
  by_cases hi : i / 8 < table.length
  · have hi' : i / 8 < table'.length := hlen ▸ hi
    obtain ⟨b, h⟩ : ∃ b, table[i / 8]? = some b := ⟨_, List.getElem?_eq_getElem hi⟩
    obtain ⟨b', h'⟩ : ∃ b, table'[i / 8]? = some b := ⟨_, List.getElem?_eq_getElem hi'⟩
    have hzip : (List.zipWith g table table')[i / 8]? = some (g b b') := by
      rw [List.getElem?_zipWith, h, h']
    rw [bitAt_of_getElem h, bitAt_of_getElem h', bitAt_of_getElem hzip, hg]
  · have h := List.getElem?_eq_none (Nat.not_lt.mp hi)
    have h' := List.getElem?_eq_none (Nat.not_lt.mp (hlen ▸ hi))
    have hzip : (List.zipWith g table table')[i / 8]? = none := by
      rw [List.getElem?_zipWith, h]
    rw [bitAt, bitAt, bitAt, h, h', hzip, hp]

end Tables

end BaseCode.Foundation
