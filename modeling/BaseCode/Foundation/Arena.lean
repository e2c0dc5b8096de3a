import Mathlib.Data.List.Nodup
import Mathlib.Data.List.Perm.Subperm
import Mathlib.Logic.Function.Basic

/-!
# Arenas

The objects of one kind that a program allocates and frees. Each allocation gets an address
of its own, and every free is recorded, so that a leak is a live object nobody reaches and
a double free is an address that is recorded twice.
-/

namespace BaseCode.Foundation

structure Arena (α : Type) where
  cells : Nat → Option α
  next : Nat
  frees : List Nat

namespace Arena

variable {α : Type} {A : Arena α} {a b : Nat}

def empty : Arena α := ⟨fun _ => none, 0, []⟩

/-- The address of an allocation is `A.next`. -/
def alloc (A : Arena α) (v : α) : Arena α :=
  { A with cells := Function.update A.cells A.next (some v), next := A.next + 1 }

def free (A : Arena α) (a : Nat) : Arena α :=
  { A with cells := Function.update A.cells a none, frees := a :: A.frees }

/-- Free the object at an address, if there is one. -/
def freeOpt (A : Arena α) : Option Nat → Arena α
  | some a => A.free a
  | none => A

/-- Store a new value in the object at `a`. -/
def set (A : Arena α) (a : Nat) (v : α) : Arena α :=
  { A with cells := Function.update A.cells a (some v) }

def Live (A : Arena α) (a : Nat) : Prop := (A.cells a).isSome = true

instance : Decidable (A.Live a) := inferInstanceAs (Decidable (_ = true))

/-- Addresses come in order, what is freed is not live, and nothing is freed twice. -/
structure Sound (A : Arena α) : Prop where
  live_lt : ∀ a, A.Live a → a < A.next
  freed_lt : ∀ a ∈ A.frees, a < A.next
  freed_dead : ∀ a ∈ A.frees, ¬ A.Live a
  once : A.frees.Nodup

theorem sound_empty : (empty : Arena α).Sound :=
  ⟨fun a h => by simp [Live, empty] at h, by simp [empty], by simp [empty], List.nodup_nil⟩

theorem live_alloc {v : α} : (A.alloc v).Live b ↔ b = A.next ∨ A.Live b := by
  simp only [Live, alloc]
  by_cases h : b = A.next
  · simp [h]
  · simp [h]

theorem live_free : (A.free a).Live b ↔ b ≠ a ∧ A.Live b := by
  simp only [Live, free]
  by_cases h : b = a
  · simp [h]
  · simp [h]

@[simp] theorem next_freeOpt {o : Option Nat} : (A.freeOpt o).next = A.next := by
  cases o <;> rfl

theorem live_freeOpt {o : Option Nat} : (A.freeOpt o).Live b ↔ o ≠ some b ∧ A.Live b := by
  cases o with
  | none => simp [freeOpt]
  | some a =>
    rw [freeOpt, live_free]
    simp [eq_comm]

theorem cells_freeOpt_of_ne {o : Option Nat} (h : o ≠ some b) :
    (A.freeOpt o).cells b = A.cells b := by
  cases o with
  | none => rfl
  | some a =>
    have hne : b ≠ a := fun heq => h (by rw [heq])
    simp [freeOpt, free, hne]

theorem cells_of_free {v : α} (h : (A.free a).cells b = some v) : A.cells b = some v := by
  simp only [free] at h
  by_cases hb : b = a
  · simp [hb] at h
  · simpa [hb] using h

theorem ne_of_cells_free {v : α} (h : (A.free a).cells b = some v) : b ≠ a := by
  rintro rfl
  simp [free] at h

/-- An object after a write is the one that was written, or what it was. -/
theorem cells_set_cases {v w : α} (h : (A.set a v).cells b = some w) :
    (b = a ∧ w = v) ∨ (b ≠ a ∧ A.cells b = some w) := by
  simp only [set] at h
  by_cases hb : b = a
  · rw [hb, Function.update_self] at h
    exact .inl ⟨hb, (Option.some.inj h).symm⟩
  · rw [Function.update_of_ne hb] at h
    exact .inr ⟨hb, h⟩

theorem cells_alloc_cases {v w : α} (h : (A.alloc v).cells b = some w) :
    (b = A.next ∧ w = v) ∨ (b ≠ A.next ∧ A.cells b = some w) := by
  simp only [alloc] at h
  by_cases hb : b = A.next
  · rw [hb, Function.update_self] at h
    exact .inl ⟨hb, (Option.some.inj h).symm⟩
  · rw [Function.update_of_ne hb] at h
    exact .inr ⟨hb, h⟩

theorem live_set {v : α} (ha : A.Live a) : (A.set a v).Live b ↔ A.Live b := by
  simp only [Live, set] at *
  by_cases h : b = a
  · subst h
    simpa using ha
  · simp [Function.update_of_ne h]

theorem Sound.alloc (h : A.Sound) (v : α) : (A.alloc v).Sound where
  live_lt b hb := by
    rcases live_alloc.mp hb with rfl | hb
    · exact Nat.lt_succ_self _
    · exact Nat.lt_succ_of_lt (h.live_lt b hb)
  freed_lt b hb := Nat.lt_succ_of_lt (h.freed_lt b hb)
  freed_dead b hb hl := by
    rcases live_alloc.mp hl with rfl | hl
    · exact absurd (h.freed_lt _ hb) (Nat.lt_irrefl _)
    · exact h.freed_dead b hb hl
  once := h.once

theorem Sound.free (h : A.Sound) (ha : A.Live a) : (A.free a).Sound where
  live_lt b hb := h.live_lt b (live_free.mp hb).2
  freed_lt b hb := by
    rcases List.mem_cons.mp hb with rfl | hb
    · exact h.live_lt _ ha
    · exact h.freed_lt b hb
  freed_dead b hb hl := by
    obtain ⟨hne, hl⟩ := live_free.mp hl
    rcases List.mem_cons.mp hb with rfl | hb
    · exact hne rfl
    · exact h.freed_dead b hb hl
  once := List.nodup_cons.mpr ⟨fun hm => h.freed_dead a hm ha, h.once⟩

theorem Sound.set (h : A.Sound) (ha : A.Live a) (v : α) : (A.set a v).Sound where
  live_lt b hb := h.live_lt b ((live_set ha).mp hb)
  freed_lt := h.freed_lt
  freed_dead b hb hl := h.freed_dead b hb ((live_set ha).mp hl)
  once := h.once

/-- As long as something is live, fewer objects were freed than allocated. -/
theorem Sound.length_frees_lt (h : A.Sound) (ha : A.Live a) : A.frees.length < A.next := by
  have hnodup : (a :: A.frees).Nodup := List.nodup_cons.mpr ⟨fun hm => h.freed_dead a hm ha, h.once⟩
  have hsub : a :: A.frees ⊆ List.range A.next := by
    intro b hb
    rw [List.mem_range]
    rcases List.mem_cons.mp hb with rfl | hb
    · exact h.live_lt _ ha
    · exact h.freed_lt b hb
  have hle := (List.subperm_of_subset hnodup hsub).length_le
  rwa [List.length_cons, List.length_range] at hle

/-- Soundness does not depend on the values in the objects. -/
theorem Sound.of_live {β : Type} {B : Arena β} (h : A.Sound) (hnext : B.next = A.next)
    (hfrees : B.frees = A.frees) (hlive : ∀ a, B.Live a ↔ A.Live a) : B.Sound where
  live_lt b hb := by
    rw [hnext]
    exact h.live_lt b ((hlive b).mp hb)
  freed_lt b hb := by
    rw [hnext]
    exact h.freed_lt b (hfrees ▸ hb)
  freed_dead b hb hl := h.freed_dead b (hfrees ▸ hb) ((hlive b).mp hl)
  once := by
    rw [hfrees]
    exact h.once

end Arena

end BaseCode.Foundation
