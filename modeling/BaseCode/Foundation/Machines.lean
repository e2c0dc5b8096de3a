import Mathlib.Init

/-!
# Machines with answers

A machine takes calls one after the other and answers each of them; `none` is a fault. What
the calls are for is a relation between abstract states, a call and its answer: a state may
allow several answers. A machine that keeps a representation of an abstract state from call to
call faults in no run, and gives only answers that the relation allows.
-/

namespace BaseCode.Foundation

universe u

variable {σ τ ℓ ρ : Type u}

/-- Takes the calls in order and collects the answers. -/
def answers (step : σ → ℓ → Option (ρ × σ)) : σ → List ℓ → Option (List ρ × σ)
  | s, [] => some ([], s)
  | s, l :: ls => do
    let (r, s) ← step s l
    let (rs, s) ← answers step s ls
    some (r :: rs, s)

/-- The calls with these answers lead from one abstract state to another. -/
inductive Allows (R : τ → ℓ → ρ → τ → Prop) : τ → List ℓ → List ρ → τ → Prop
  | nil (t : τ) : Allows R t [] [] t
  | cons {t t' t'' : τ} {l : ℓ} {r : ρ} {ls : List ℓ} {rs : List ρ} :
      R t l r t' → Allows R t' ls rs t'' → Allows R t (l :: ls) (r :: rs) t''

variable {step : σ → ℓ → Option (ρ × σ)} {R : τ → ℓ → ρ → τ → Prop} {Rep : σ → τ → Prop}

/-- The refinement rule: one call, then any number of them. -/
theorem exists_answers
    (hstep : ∀ s t l, Rep s t → ∃ r s' t', step s l = some (r, s') ∧ R t l r t' ∧ Rep s' t')
    {s : σ} {t : τ} (h : Rep s t) (ls : List ℓ) :
    ∃ rs s' t', answers step s ls = some (rs, s') ∧ Allows R t ls rs t' ∧ Rep s' t' := by
  induction ls generalizing s t with
  | nil => exact ⟨[], s, t, rfl, .nil t, h⟩
  | cons l ls ih =>
    obtain ⟨r, s1, t1, hs1, hR, h1⟩ := hstep s t l h
    obtain ⟨rs, s2, t2, hs2, hall, h2⟩ := ih h1
    refine ⟨r :: rs, s2, t2, ?_, .cons hR hall, h2⟩
    simp only [answers, hs1, hs2, Option.bind_eq_bind, Option.bind_some]

/-- Each call of a run is proper in the state that it finds. -/
def Keeps (proper : σ → ℓ → Prop) (step : σ → ℓ → Option (ρ × σ)) : σ → List ℓ → Prop
  | _, [] => True
  | s, l :: ls => proper s l ∧ ∀ r s', step s l = some (r, s') → Keeps proper step s' ls

theorem keeps_cons {proper : σ → ℓ → Prop} {s s' : σ} {l : ℓ} {r : ρ} {ls : List ℓ}
    (hl : proper s l) (hs : step s l = some (r, s')) (hls : Keeps proper step s' ls) :
    Keeps proper step s (l :: ls) := by
  refine ⟨hl, fun r1 s1 hs1 => ?_⟩
  cases hs.symm.trans hs1
  exact hls

theorem keeps_of_forall {proper : σ → ℓ → Prop} (h : ∀ s l, proper s l) (s : σ) (ls : List ℓ) :
    Keeps proper step s ls := by
  induction ls generalizing s with
  | nil => trivial
  | cons l ls ih => exact ⟨h s l, fun _ s' _ => ih s'⟩

/-- The same for proper calls and while there is room: a call adds at most one to the size of
the state. -/
theorem exists_answers_keeping {proper : σ → ℓ → Prop} {size : τ → Nat} {bound : Nat}
    (hstep : ∀ s t l, Rep s t → proper s l → size t < bound →
      ∃ r s' t', step s l = some (r, s') ∧ R t l r t' ∧ Rep s' t')
    (hsize : ∀ t l r t', R t l r t' → size t' ≤ size t + 1) {s : σ} {t : τ} (h : Rep s t)
    {ls : List ℓ} (hls : Keeps proper step s ls) (hlen : size t + ls.length ≤ bound) :
    ∃ rs s' t', answers step s ls = some (rs, s') ∧ Allows R t ls rs t' ∧ Rep s' t' := by
  induction ls generalizing s t with
  | nil => exact ⟨[], s, t, rfl, .nil t, h⟩
  | cons l ls ih =>
    rw [List.length_cons] at hlen
    obtain ⟨hl, hrest⟩ := hls
    obtain ⟨r, s1, t1, hs1, hR, h1⟩ := hstep s t l h hl (by omega)
    have hle := hsize t l r t1 hR
    obtain ⟨rs, s2, t2, hs2, hall, h2⟩ := ih h1 (hrest r s1 hs1) (by omega)
    refine ⟨r :: rs, s2, t2, ?_, .cons hR hall, h2⟩
    simp only [answers, hs1, hs2, Option.bind_eq_bind, Option.bind_some]

theorem exists_answers_within {size : τ → Nat} {bound : Nat}
    (hstep : ∀ s t l, Rep s t → size t < bound →
      ∃ r s' t', step s l = some (r, s') ∧ R t l r t' ∧ Rep s' t')
    (hsize : ∀ t l r t', R t l r t' → size t' ≤ size t + 1) {s : σ} {t : τ} (h : Rep s t)
    (ls : List ℓ) (hlen : size t + ls.length ≤ bound) :
    ∃ rs s' t', answers step s ls = some (rs, s') ∧ Allows R t ls rs t' ∧ Rep s' t' :=
  exists_answers_keeping (fun s t l hst _ => hstep s t l hst) hsize h
    (keeps_of_forall (fun _ _ => trivial) s ls) hlen

/-- A machine that may fault gives only answers that the relation allows in the runs that come
to their end. -/
theorem allows_of_answers
    (hstep : ∀ s t l r s', Rep s t → step s l = some (r, s') → ∃ t', R t l r t' ∧ Rep s' t')
    {s s' : σ} {t : τ} (h : Rep s t) {ls : List ℓ} {rs : List ρ}
    (hrun : answers step s ls = some (rs, s')) : ∃ t', Allows R t ls rs t' ∧ Rep s' t' := by
  induction ls generalizing s t rs with
  | nil =>
    cases hrun
    exact ⟨t, .nil t, h⟩
  | cons l ls ih =>
    simp only [answers, Option.bind_eq_bind, Option.bind_eq_some_iff] at hrun
    obtain ⟨⟨r, s1⟩, hs1, ⟨rs1, s2⟩, hs2, heq⟩ := hrun
    cases heq
    obtain ⟨t1, hR, h1⟩ := hstep s t l r s1 h hs1
    obtain ⟨t2, hall, h2⟩ := ih h1 hs2
    exact ⟨t2, .cons hR hall, h2⟩

end BaseCode.Foundation
