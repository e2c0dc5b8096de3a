import Mathlib.Data.List.Perm.Basic
import BaseCode.Foundation.Arena

/-!
# Directories kept twice

The objects of an arena are listed in one place and found by a name in another. `Listed V B I`
says that the list `V` and the partial map `I` agree on them. While an update is under way they
may differ at one name: `ListedBut x V B I` is agreement at all other names, with nothing listed
for `x`.
-/

namespace BaseCode.Foundation

variable {ι α : Type} {x y : ι} {p : Nat} {V V' : List Nat} {B : Arena α} {I : ι → Option Nat}

/-- Every object listed is found under exactly one name, every object found is listed once, and
all of them are allocated. -/
structure Listed (V : List Nat) (B : Arena α) (I : ι → Option Nat) : Prop where
  nodup : V.Nodup
  mem : ∀ p, p ∈ V ↔ ∃ y, I y = some p
  inj : ∀ y z p, I y = some p → I z = some p → y = z
  live : ∀ p ∈ V, B.Live p
  live_lt : ∀ p, B.Live p → p < B.next

/-- The same at all names but one. -/
structure ListedBut (x : ι) (V : List Nat) (B : Arena α) (I : ι → Option Nat) : Prop where
  nodup : V.Nodup
  mem : ∀ p, p ∈ V ↔ ∃ y, y ≠ x ∧ I y = some p
  inj : ∀ y z p, y ≠ x → z ≠ x → I y = some p → I z = some p → y = z
  live : ∀ p ∈ V, B.Live p
  live_lt : ∀ p, B.Live p → p < B.next

theorem Listed.but (h : Listed V B I) (hx : I x = none) : ListedBut x V B I where
  nodup := h.nodup
  mem p := by
    rw [h.mem]
    constructor
    · rintro ⟨y, hy⟩
      refine ⟨y, ?_, hy⟩
      rintro rfl
      rw [hx] at hy
      cases hy
    · rintro ⟨y, -, hy⟩
      exact ⟨y, hy⟩
  inj y z p _ _ := h.inj y z p
  live := h.live
  live_lt := h.live_lt

/-- Taking an object out of the list and freeing it. -/
theorem Listed.remove (h : Listed V B I) (hx : I x = some p) (hV : V.Perm (p :: V')) :
    ListedBut x V' (B.free p) I := by
  have hnd := List.nodup_cons.mp (hV.nodup_iff.mp h.nodup)
  have hmem : ∀ q, q ∈ V' ↔ q ∈ V ∧ q ≠ p := by
    intro q
    rw [hV.mem_iff, List.mem_cons]
    constructor
    · intro hq
      exact ⟨.inr hq, fun heq => hnd.1 (heq ▸ hq)⟩
    · rintro ⟨heq | hq, hne⟩
      · exact absurd heq hne
      · exact hq
  refine ⟨hnd.2, ?_, ?_, ?_, ?_⟩
  · intro q
    rw [hmem, h.mem]
    constructor
    · rintro ⟨⟨y, hy⟩, hne⟩
      refine ⟨y, ?_, hy⟩
      rintro rfl
      rw [hx] at hy
      exact hne (Option.some.inj hy).symm
    · rintro ⟨y, hne, hy⟩
      refine ⟨⟨y, hy⟩, ?_⟩
      rintro rfl
      exact hne (h.inj y x _ hy hx)
  · intro y z q _ _
    exact h.inj y z q
  · intro q hq
    obtain ⟨hq, hne⟩ := (hmem q).mp hq
    exact Arena.live_free.mpr ⟨hne, h.live q hq⟩
  · intro q hq
    exact h.live_lt q (Arena.live_free.mp hq).2

theorem ListedBut.of_none (h : ListedBut x V B I) (hx : I x = none) : Listed V B I := by
  have hne : ∀ y p, I y = some p → y ≠ x := by
    rintro y p hy rfl
    rw [hx] at hy
    cases hy
  refine ⟨h.nodup, ?_, ?_, h.live, h.live_lt⟩
  · intro p
    rw [h.mem]
    constructor
    · rintro ⟨y, -, hy⟩
      exact ⟨y, hy⟩
    · rintro ⟨y, hy⟩
      exact ⟨y, hne y p hy, hy⟩
  · intro y z p hy hz
    exact h.inj y z p (hne y p hy) (hne z p hz) hy hz

/-- Only the other names matter. -/
theorem ListedBut.congr {I' : ι → Option Nat} (h : ListedBut x V B I)
    (hI : ∀ y, y ≠ x → I' y = I y) : ListedBut x V B I' where
  nodup := h.nodup
  mem p := by
    rw [h.mem]
    exact exists_congr fun y => and_congr_right fun hy => by rw [hI y hy]
  inj y z p hy hz := by
    rw [hI y hy, hI z hz]
    exact h.inj y z p hy hz
  live := h.live
  live_lt := h.live_lt

/-- A new object under the name that was left out. -/
theorem ListedBut.add {I' : ι → Option Nat} (h : ListedBut x V B I) (v : α)
    (hV : V'.Perm (B.next :: V)) (hx : I' x = some B.next) (hI : ∀ y, y ≠ x → I' y = I y) :
    Listed V' (B.alloc v) I' := by
  have hnew : B.next ∉ V := fun hm => Nat.lt_irrefl _ (h.live_lt _ (h.live _ hm))
  have hother : ∀ y, y ≠ x → I' y ≠ some B.next := by
    intro y hy heq
    rw [hI y hy] at heq
    exact hnew ((h.mem _).mpr ⟨y, hy, heq⟩)
  refine ⟨hV.nodup_iff.mpr (List.nodup_cons.mpr ⟨hnew, h.nodup⟩), ?_, ?_, ?_, ?_⟩
  · intro p
    rw [hV.mem_iff, List.mem_cons, h.mem]
    constructor
    · rintro (rfl | ⟨y, hy, hp⟩)
      · exact ⟨x, hx⟩
      · exact ⟨y, (hI y hy).trans hp⟩
    · rintro ⟨y, hp⟩
      by_cases hy : y = x
      · rw [hy, hx] at hp
        exact .inl (Option.some.inj hp).symm
      · exact .inr ⟨y, hy, (hI y hy).symm.trans hp⟩
  · intro y z p hp hq
    by_cases hy : y = x
    · by_cases hz : z = x
      · rw [hy, hz]
      · rw [hy, hx] at hp
        exact absurd (hq.trans hp.symm) (hother z hz)
    · by_cases hz : z = x
      · rw [hz, hx] at hq
        exact absurd (hp.trans hq.symm) (hother y hy)
      · rw [hI y hy] at hp
        rw [hI z hz] at hq
        exact h.inj y z p hy hz hp hq
  · intro p hp
    rcases List.mem_cons.mp (hV.mem_iff.mp hp) with rfl | hp
    · exact Arena.live_alloc.mpr (.inl rfl)
    · exact Arena.live_alloc.mpr (.inr (h.live p hp))
  · intro p hp
    rcases Arena.live_alloc.mp hp with rfl | hp
    · exact Nat.lt_succ_self _
    · exact Nat.lt_succ_of_lt (h.live_lt p hp)

/-- An object that is freed as soon as it is made. -/
theorem Listed.alloc_free (h : Listed V B I) (v : α) :
    Listed V ((B.alloc v).free B.next) I := by
  refine ⟨h.nodup, h.mem, h.inj, ?_, ?_⟩
  · intro p hp
    have hlt := h.live_lt p (h.live p hp)
    exact Arena.live_free.mpr ⟨by omega, Arena.live_alloc.mpr (.inr (h.live p hp))⟩
  · intro p hp
    obtain ⟨hne, hl⟩ := Arena.live_free.mp hp
    have hlt := h.live_lt p ((Arena.live_alloc.mp hl).resolve_left hne)
    exact Nat.lt_succ_of_lt hlt

end BaseCode.Foundation
