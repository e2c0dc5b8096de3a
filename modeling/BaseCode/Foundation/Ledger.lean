import Mathlib.Data.List.Perm.Basic
import BaseCode.Foundation.Arena

/-!
# Ledgers

`Holds A L` says that `L` lists the live objects of the arena `A`, each once, and that nothing
in it was freed twice. An owner keeps such a list: an allocation adds to it, a free takes from
it, and moving an object from one owner to another only permutes it.
-/

namespace BaseCode.Foundation

variable {α β : Type}

structure Holds (A : Arena α) (L : List Nat) : Prop where
  sound : A.Sound
  nodup : L.Nodup
  live : ∀ a, A.Live a ↔ a ∈ L

namespace Holds

variable {A : Arena α} {L L' : List Nat} {a : Nat}

theorem empty : Holds (Arena.empty : Arena α) [] :=
  ⟨Arena.sound_empty, List.nodup_nil, fun a => by simp [Arena.Live, Arena.empty]⟩

theorem perm (h : Holds A L) (hL : L.Perm L') : Holds A L' :=
  ⟨h.sound, hL.nodup_iff.mp h.nodup, fun a => (h.live a).trans hL.mem_iff⟩

/-- The values in the objects do not matter. -/
theorem of_live {A' : Arena β} (h : Holds A L) (hnext : A'.next = A.next)
    (hfrees : A'.frees = A.frees) (hlive : ∀ a, A'.Live a ↔ A.Live a) : Holds A' L where
  sound := h.sound.of_live hnext hfrees hlive
  nodup := h.nodup
  live a := (hlive a).trans (h.live a)

theorem lt_next (h : Holds A L) (ha : a ∈ L) : a < A.next := h.sound.live_lt a ((h.live a).mpr ha)

theorem next_notMem (h : Holds A L) : A.next ∉ L := fun ha => Nat.lt_irrefl _ (h.lt_next ha)

theorem alloc (h : Holds A L) (v : α) : Holds (A.alloc v) (A.next :: L) where
  sound := h.sound.alloc v
  nodup := List.nodup_cons.mpr ⟨h.next_notMem, h.nodup⟩
  live b := by rw [Arena.live_alloc, h.live, List.mem_cons]

theorem free (h : Holds A (a :: L)) : Holds (A.free a) L where
  sound := h.sound.free ((h.live a).mpr List.mem_cons_self)
  nodup := (List.nodup_cons.mp h.nodup).2
  live b := by
    rw [Arena.live_free, h.live, List.mem_cons]
    constructor
    · rintro ⟨hne, heq | hb⟩
      · exact absurd heq hne
      · exact hb
    · intro hb
      exact ⟨fun heq => (List.nodup_cons.mp h.nodup).1 (heq ▸ hb), .inr hb⟩

theorem freeOpt {o : Option Nat} (h : Holds A (o.toList ++ L)) : Holds (A.freeOpt o) L := by
  cases o with
  | none => exact h
  | some a => exact free h

theorem set (h : Holds A L) (ha : a ∈ L) (v : α) : Holds (A.set a v) L where
  sound := h.sound.set ((h.live a).mpr ha) v
  nodup := h.nodup
  live b := (Arena.live_set ((h.live a).mpr ha)).trans (h.live b)

/-- Something that is freed as soon as it is allocated. -/
theorem alloc_free (h : Holds A L) (v : α) : Holds ((A.alloc v).free A.next) L := (h.alloc v).free

end Holds

/-- What the parts of a list contribute, when one part is singled out and changed. -/
theorem flatMap_perm_of_congr {l rest : List α} {n : α} {g g' : α → List β}
    (hl : l.Perm (n :: rest)) (hg : ∀ m ∈ rest, g' m = g m) :
    (l.flatMap g').Perm (g' n ++ rest.flatMap g) := by
  have hrest : rest.flatMap g' = rest.flatMap g := List.flatMap_congr hg
  rw [← hrest]
  exact hl.flatMap_right g'

end BaseCode.Foundation
