import Mathlib.Logic.Relation

/-!
# Runs of labelled transition systems

A system has initial states and labelled steps. `ReachableUnder ok` collects the
states of the runs in which every step `(s, l)` meets `ok s l`; the states of all
runs are the case in which nothing is asked of a step. An invariant is proved once
for one step and then holds of every state of every such run. A simulation is proved
for one step too, and then relates whole runs.
-/

namespace BaseCode.Foundation

universe u v

/-- A labelled transition system. -/
structure System (σ : Type u) (ℓ : Type v) where
  Init : σ → Prop
  Step : σ → ℓ → σ → Prop

namespace System

variable {σ : Type u} {ℓ : Type v}

/-- The states reached by the runs whose steps all meet `ok`, a condition on the
state before the step and on its label. -/
inductive ReachableUnder (S : System σ ℓ) (ok : σ → ℓ → Prop) : σ → Prop
  | init {s : σ} : S.Init s → ReachableUnder S ok s
  | step {s s' : σ} {l : ℓ} : ReachableUnder S ok s → ok s l → S.Step s l s' →
      ReachableUnder S ok s'

/-- The states of all runs. -/
def Reachable (S : System σ ℓ) : σ → Prop := S.ReachableUnder fun _ _ => True

variable {S : System σ ℓ} {ok : σ → ℓ → Prop}

/-- The invariant rule: what holds at the start and is kept by every step that meets
`ok` holds in every state reached. -/
theorem ReachableUnder.invariant {I : σ → Prop} (h0 : ∀ s, S.Init s → I s)
    (hstep : ∀ s l s', I s → ok s l → S.Step s l s' → I s') {s : σ}
    (h : S.ReachableUnder ok s) : I s := by
  induction h with
  | init hs => exact h0 _ hs
  | step _ hok hs ih => exact hstep _ _ _ ih hok hs

theorem Reachable.invariant {I : σ → Prop} (h0 : ∀ s, S.Init s → I s)
    (hstep : ∀ s l s', I s → S.Step s l s' → I s') {s : σ} (h : S.Reachable s) : I s :=
  ReachableUnder.invariant h0 (fun s l s' hi _ hs => hstep s l s' hi hs) h

/-- A list of labels taken one after the other meets `ok` when each label does in the
state it is taken in. -/
def Meets (ok : σ → ℓ → Prop) (next : σ → ℓ → σ) : σ → List ℓ → Prop
  | _, [] => True
  | s, l :: ls => ok s l ∧ Meets ok next (next s l) ls

instance Meets.decidable {next : σ → ℓ → σ} [hd : ∀ s l, Decidable (ok s l)] :
    (s : σ) → (ls : List ℓ) → Decidable (Meets ok next s ls)
  | _, [] => .isTrue trivial
  | s, l :: ls => @instDecidableAnd _ _ (hd s l) (Meets.decidable (next s l) ls)

/-- Where `next` chooses one step for each label, a list of labels is a run. -/
theorem ReachableUnder.run {next : σ → ℓ → σ} (hnext : ∀ s l, S.Step s l (next s l))
    {s : σ} (h : S.ReachableUnder ok s) (ls : List ℓ) (hm : Meets ok next s ls) :
    S.ReachableUnder ok (ls.foldl next s) := by
  induction ls generalizing s with
  | nil => exact h
  | cons l ls ih =>
    obtain ⟨hl, hls⟩ := hm
    exact ih (.step h hl (hnext s l)) hls

theorem Reachable.run {next : σ → ℓ → σ} (hnext : ∀ s l, S.Step s l (next s l))
    {s : σ} (h : S.Reachable s) (ls : List ℓ) : S.Reachable (ls.foldl next s) := by
  refine ReachableUnder.run hnext h ls ?_
  clear h
  induction ls generalizing s with
  | nil => trivial
  | cons l ls ih => exact ⟨trivial, ih⟩

/-- The step function that refuses the steps that do not meet `ok`. -/
def guarded (ok : σ → ℓ → Prop) [∀ s l, Decidable (ok s l)] (step : σ → ℓ → Option σ) (s : σ)
    (l : ℓ) : Option σ :=
  if ok s l then step s l else none

/-- A list of labels that a partial step function plays to its end, each of them meeting `ok`,
is a run. -/
theorem ReachableUnder.replay_get [∀ s l, Decidable (ok s l)] (step : σ → ℓ → Option σ)
    (hstep : ∀ s l s', step s l = some s' → S.Step s l s') {s : σ} (h : S.ReachableUnder ok s)
    (ls : List ℓ) (hls : (ls.foldlM (guarded ok step) s).isSome = true) :
    S.ReachableUnder ok ((ls.foldlM (guarded ok step) s).get hls) := by
  have hrun : ∀ s', ls.foldlM (guarded ok step) s = some s' → S.ReachableUnder ok s' := by
    clear hls
    induction ls generalizing s with
    | nil =>
      intro s' hs'
      simp only [List.foldlM_nil, Option.pure_def, Option.some.injEq] at hs'
      exact hs' ▸ h
    | cons l ls ih =>
      intro s' hs'
      simp only [List.foldlM_cons, Option.bind_eq_bind, Option.bind_eq_some_iff] at hs'
      obtain ⟨s1, h1, h2⟩ := hs'
      simp only [guarded] at h1
      split at h1
      · next hok => exact ih (.step h hok (hstep _ _ _ h1)) s' h2
      · cases h1
  exact hrun _ (Option.some_get hls).symm

/-- A list of labels that a partial step function plays to its end is a run. -/
theorem Reachable.replay (step : σ → ℓ → Option σ)
    (hstep : ∀ s l s', step s l = some s' → S.Step s l s') {s s' : σ} (h : S.Reachable s)
    (ls : List ℓ) (hls : ls.foldlM step s = some s') : S.Reachable s' := by
  induction ls generalizing s with
  | nil =>
    simp only [List.foldlM_nil, Option.pure_def, Option.some.injEq] at hls
    exact hls ▸ h
  | cons l ls ih =>
    simp only [List.foldlM_cons, Option.bind_eq_bind, Option.bind_eq_some_iff] at hls
    obtain ⟨s1, h1, h2⟩ := hls
    exact ih (.step h trivial (hstep _ _ _ h1)) h2

theorem Reachable.replay_get (step : σ → ℓ → Option σ)
    (hstep : ∀ s l s', step s l = some s' → S.Step s l s') {s : σ} (h : S.Reachable s)
    (ls : List ℓ) (hls : (ls.foldlM step s).isSome = true) :
    S.Reachable ((ls.foldlM step s).get hls) :=
  h.replay step hstep ls (Option.some_get hls).symm

end System

/-- The simulation rule: if a step can be taken wherever `R` holds, and `R` holds again after
it, then a list of labels can be played to its end. -/
theorem exists_foldlM_of_simulates {σ : Type u} {τ : Type u} {ℓ : Type v}
    {step : σ → ℓ → Option σ} {next : τ → ℓ → τ} {R : σ → τ → Prop}
    (hstep : ∀ s t l, R s t → ∃ s', step s l = some s' ∧ R s' (next t l)) {s : σ} {t : τ}
    (h : R s t) (ls : List ℓ) : ∃ s', ls.foldlM step s = some s' ∧ R s' (ls.foldl next t) := by
  induction ls generalizing s t with
  | nil => exact ⟨s, rfl, h⟩
  | cons l ls ih =>
    obtain ⟨s1, h1, hR⟩ := hstep s t l h
    obtain ⟨s2, h2, hR'⟩ := ih hR
    refine ⟨s2, ?_, hR'⟩
    rw [List.foldlM_cons, h1]
    exact h2

end BaseCode.Foundation
