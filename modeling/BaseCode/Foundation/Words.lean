import BaseCode.Foundation.Arena

/-!
# Trees located by words

A node has one pointer for each letter of an alphabet, so the nodes of a tree are named by
the words that lead to them from the root. `Located` says which word leads where; no two words
lead to one node, and every live node has its word. A pointer to a pointer is the slot of the
word it leads to. A node can be cut off while nodes below it are still there: their words then
name them although no pointer leads to them.
-/

namespace BaseCode.Foundation

structure Branch (α β : Type) where
  info : β
  next : α → Option Nat

structure WordTree (α β : Type) where
  nodes : Arena (Branch α β)
  root : Option Nat

/-- Where a pointer to a node is kept. -/
inductive Slot (α : Type) where
  | root
  | next (node : Nat) (letter : α)

variable {α β : Type}

def Slot.load (t : WordTree α β) : Slot α → Option (Option Nat)
  | root => some t.root
  | next a c => do
    let n ← t.nodes.cells a
    some (n.next c)

def Slot.store [DecidableEq α] (t : WordTree α β) (v : Option Nat) : Slot α → Option (WordTree α β)
  | root => some { t with root := v }
  | next a c => do
    let n ← t.nodes.cells a
    some { t with nodes := t.nodes.set a { n with next := Function.update n.next c v } }

/-- The slot of a word: the root, or a pointer in the node one letter above. -/
def SlotAt (loc : List α → Option Nat) (w : List α) : Slot α → Prop
  | .root => w = []
  | .next a c => ∃ u, w = u ++ [c] ∧ loc u = some a

structure Located (t : WordTree α β) (loc : List α → Option Nat) (info : List α → β) : Prop where
  root : t.root = loc []
  cell : ∀ w a, loc w = some a → t.nodes.cells a = some ⟨info w, fun c => loc (w ++ [c])⟩
  inj : ∀ w w' a, loc w = some a → loc w' = some a → w = w'
  live : ∀ a, t.nodes.Live a → ∃ w, loc w = some a
  sound : t.nodes.Sound

namespace Located

variable {t t' : WordTree α β} {loc : List α → Option Nat} {info : List α → β} {w u : List α}
  {a : Nat} {b : β} {slot : Slot α}

theorem empty (info : List α → β) : Located ⟨.empty, none⟩ (fun _ => none) info where
  root := rfl
  cell _ _ h := by cases h
  inj _ _ _ h := by cases h
  live a ha := by simp [Arena.Live, Arena.empty] at ha
  sound := Arena.sound_empty

theorem isLive (h : Located t loc info) (ha : loc w = some a) : t.nodes.Live a :=
  Option.isSome_iff_exists.mpr ⟨_, h.cell w a ha⟩

theorem load (h : Located t loc info) (hs : SlotAt loc w slot) : slot.load t = some (loc w) := by
  cases slot with
  | root =>
    obtain rfl : w = [] := hs
    rw [Slot.load, h.root]
  | next a c =>
    obtain ⟨u, rfl, hu⟩ := hs
    rw [Slot.load, h.cell u a hu]
    rfl

variable [DecidableEq α]

/-- What a node carries is replaced. -/
theorem setInfo (h : Located t loc info) (ha : loc w = some a) (b : β) :
    Located { t with nodes := t.nodes.set a ⟨b, fun c => loc (w ++ [c])⟩ } loc
      (Function.update info w b) where
  root := h.root
  cell u x hx := by
    by_cases hu : u = w
    · subst hu
      obtain rfl : a = x := Option.some.inj (ha.symm.trans hx)
      rw [Function.update_self]
      exact Function.update_self ..
    · have hxa : x ≠ a := by
        rintro rfl
        exact hu (h.inj u w x hx ha)
      rw [Function.update_of_ne hu]
      show Function.update t.nodes.cells a _ x = _
      rw [Function.update_of_ne hxa]
      exact h.cell u x hx
  inj := h.inj
  live x hx := h.live x ((Arena.live_set (h.isLive ha)).mp hx)
  sound := h.sound.set (h.isLive ha) _

/-- All cells but that of `w` are in order, for some place of `w` or none. -/
structure But (t : WordTree α β) (loc : List α → Option Nat) (info : List α → β) (w : List α)
    (y : Option Nat) : Prop where
  root : t.root = Function.update loc w y []
  cell : ∀ u a, u ≠ w → loc u = some a →
    t.nodes.cells a = some ⟨info u, fun c => Function.update loc w y (u ++ [c])⟩

theorem but_self (h : Located t loc info) (w : List α) : But t loc info w (loc w) := by
  have hsame : Function.update loc w (loc w) = loc := Function.update_eq_self w loc
  refine ⟨?_, fun u a _ ha => ?_⟩
  · rw [hsame]
    exact h.root
  · rw [hsame]
    exact h.cell u a ha

/-- Without a node above it, nothing in the tree leads to `w`. -/
theorem But.detached {y y' : Option Nat} (h : But t loc info w y) (hw : w ≠ [])
    (hup : ∀ u c, w = u ++ [c] → loc u = none) : But t loc info w y' where
  root := by
    rw [h.root, Function.update_of_ne (Ne.symm hw), Function.update_of_ne (Ne.symm hw)]
  cell u a hu ha := by
    have hne : ∀ c, u ++ [c] ≠ w := by
      rintro c rfl
      rw [hup u c rfl] at ha
      cases ha
    rw [h.cell u a hu ha]
    simp only [Function.update_of_ne (hne _)]

/-- Another pointer is stored in the slot of `w`. -/
theorem But.store {y : Option Nat} (h : But t loc info w y)
    (hinj : ∀ u u' a, loc u = some a → loc u' = some a → u = u') (hs : SlotAt loc w slot)
    (y' : Option Nat) :
    ∃ t', slot.store t y' = some t' ∧ But t' loc info w y' ∧
      t'.nodes.next = t.nodes.next ∧ t'.nodes.frees = t.nodes.frees ∧
      (∀ a, t'.nodes.Live a ↔ t.nodes.Live a) ∧
      ∀ a, (∀ u, u ≠ w → loc u ≠ some a) → t'.nodes.cells a = t.nodes.cells a := by
  cases slot with
  | root =>
    obtain rfl : w = [] := hs
    refine ⟨{ t with root := y' }, rfl, ⟨?_, fun u a hu ha => ?_⟩, rfl, rfl, fun _ => Iff.rfl,
      fun _ _ => rfl⟩
    · show y' = Function.update loc [] y' []
      rw [Function.update_self]
    · have hne : ∀ c, u ++ [c] ≠ [] := fun c => by simp
      show t.nodes.cells a = _
      rw [h.cell u a hu ha]
      simp only [Function.update_of_ne (hne _)]
  | next p c =>
    obtain ⟨v, rfl, hv⟩ := hs
    have hvw : v ≠ v ++ [c] := by simp
    have hcell := h.cell v p hvw hv
    refine ⟨{ t with nodes := t.nodes.set p ⟨info v, Function.update
      (fun c' => Function.update loc (v ++ [c]) y (v ++ [c'])) c y'⟩ }, ?_, ⟨?_, fun u a hu ha => ?_⟩,
      rfl, rfl, fun a => ?_, fun a hno => ?_⟩
    · simp only [Slot.store, hcell, Option.bind_eq_bind, Option.bind_some]
    · have hnil : [] ≠ v ++ [c] := by simp
      show t.root = _
      rw [h.root, Function.update_of_ne hnil, Function.update_of_ne hnil]
    · show Function.update t.nodes.cells p _ a = _
      by_cases huv : u = v
      · subst huv
        obtain rfl : p = a := Option.some.inj (hv.symm.trans ha)
        rw [Function.update_self]
        congr 2
        funext c'
        by_cases hc : c' = c
        · subst hc
          rw [Function.update_self, Function.update_self]
        · rw [Function.update_of_ne hc, Function.update_of_ne (by simpa using hc),
            Function.update_of_ne (by simpa using hc)]
      · have hap : a ≠ p := by
          rintro rfl
          exact huv (hinj u v a ha hv)
        have hne : ∀ c', u ++ [c'] ≠ v ++ [c] := fun c' heq => huv (List.append_inj_left' heq rfl)
        rw [Function.update_of_ne hap, h.cell u a hu ha]
        simp only [Function.update_of_ne (hne _)]
    · exact Arena.live_set (Option.isSome_iff_exists.mpr ⟨_, hcell⟩)
    · have hap : a ≠ p := by
        rintro rfl
        exact hno v hvw hv
      exact Function.update_of_ne hap ..

/-- A new leaf is hooked into an empty slot. -/
theorem grow (h : Located t loc info) (hs : SlotAt loc w slot) (hw : loc w = none)
    (hleaf : ∀ c, loc (w ++ [c]) = none) (b : β) :
    ∃ t', slot.store { t with nodes := t.nodes.alloc ⟨b, fun _ => none⟩ } (some t.nodes.next) =
        some t' ∧
      Located t' (Function.update loc w (some t.nodes.next)) (Function.update info w b) := by
  have hnew : ∀ u a, loc u = some a → a ≠ t.nodes.next := fun u a ha =>
    Nat.ne_of_lt (h.sound.live_lt a (h.isLive ha))
  have hbut : But { t with nodes := t.nodes.alloc ⟨b, fun _ => none⟩ } loc info w (loc w) := by
    refine ⟨(h.but_self w).root, fun u a hu ha => ?_⟩
    rw [← (h.but_self w).cell u a hu ha]
    exact Function.update_of_ne (hnew u a ha) ..
  obtain ⟨t', ht', hbut', hnext, hfrees, hlive, hframe⟩ :=
    hbut.store h.inj hs (some t.nodes.next)
  have hx : t'.nodes.cells t.nodes.next = some ⟨b, fun _ => none⟩ := by
    rw [hframe _ fun u _ hu => hnew u _ hu rfl]
    exact Function.update_self ..
  refine ⟨t', ht', hbut'.root, fun u a ha => ?_, fun u u' a ha ha' => ?_, fun a ha => ?_, ?_⟩
  · by_cases hu : u = w
    · subst hu
      rw [Function.update_self] at ha ⊢
      obtain rfl : t.nodes.next = a := Option.some.inj ha
      rw [hx]
      congr 2
      funext c
      rw [Function.update_of_ne (by simp), hleaf c]
    · rw [Function.update_of_ne hu] at ha ⊢
      exact hbut'.cell u a hu ha
  · by_cases hu : u = w <;> by_cases hu' : u' = w
    · rw [hu, hu']
    · subst hu
      rw [Function.update_self] at ha
      rw [Function.update_of_ne hu'] at ha'
      exact absurd (Option.some.inj ha).symm (hnew u' a ha')
    · subst hu'
      rw [Function.update_self] at ha'
      rw [Function.update_of_ne hu] at ha
      exact absurd (Option.some.inj ha').symm (hnew u a ha)
    · rw [Function.update_of_ne hu] at ha
      rw [Function.update_of_ne hu'] at ha'
      exact h.inj u u' a ha ha'
  · rcases Arena.live_alloc.mp ((hlive a).mp ha) with rfl | ha
    · exact ⟨w, Function.update_self ..⟩
    · obtain ⟨u, hu⟩ := h.live a ha
      refine ⟨u, ?_⟩
      rw [Function.update_of_ne]
      · exact hu
      · rintro rfl
        rw [hw] at hu
        cases hu
  · exact (h.sound.alloc _).of_live hnext hfrees hlive

/-- What is left when the node of `w` is freed and nothing leads to it. -/
theorem But.freed (hbut : But t' loc info w none) (h : Located t loc info) (ha : loc w = some a)
    (hnext : t'.nodes.next = t.nodes.next) (hfrees : t'.nodes.frees = a :: t.nodes.frees)
    (hlive : ∀ x, t'.nodes.Live x ↔ (t.nodes.free a).Live x) :
    Located t' (Function.update loc w none) info where
  root := hbut.root
  cell u x hx := by
    by_cases hu : u = w
    · rw [hu, Function.update_self] at hx
      cases hx
    · rw [Function.update_of_ne hu] at hx
      exact hbut.cell u x hu hx
  inj u u' x hx hx' := by
    by_cases hu : u = w
    · rw [hu, Function.update_self] at hx
      cases hx
    · by_cases hu' : u' = w
      · rw [hu', Function.update_self] at hx'
        cases hx'
      · rw [Function.update_of_ne hu] at hx
        rw [Function.update_of_ne hu'] at hx'
        exact h.inj u u' x hx hx'
  live x hx := by
    obtain ⟨hne, hx⟩ := Arena.live_free.mp ((hlive x).mp hx)
    obtain ⟨u, hu⟩ := h.live x hx
    refine ⟨u, ?_⟩
    rw [Function.update_of_ne]
    · exact hu
    · rintro rfl
      exact hne (Option.some.inj (hu.symm.trans ha))
  sound := (h.sound.free (h.isLive ha)).of_live hnext hfrees hlive

theorem But.free {y : Option Nat} (hbut : But t loc info w y) (h : Located t loc info)
    (ha : loc w = some a) : But { t with nodes := t.nodes.free a } loc info w y where
  root := hbut.root
  cell u x hu hx := by
    have hxa : x ≠ a := by
      rintro rfl
      exact hu (h.inj u w x hx ha)
    rw [← hbut.cell u x hu hx]
    exact Function.update_of_ne hxa ..

/-- A node is freed and its slot is cleared. -/
theorem cut (h : Located t loc info) (ha : loc w = some a) (hs : SlotAt loc w slot) :
    ∃ t', slot.store { t with nodes := t.nodes.free a } none = some t' ∧
      Located t' (Function.update loc w none) info := by
  obtain ⟨t', ht', hbut, hnext, hfrees, hlive, -⟩ :=
    ((h.but_self w).free h ha).store h.inj hs none
  exact ⟨t', ht', hbut.freed h ha hnext hfrees hlive⟩

/-- A node that nothing leads to any more is freed. -/
theorem drop (h : Located t loc info) (ha : loc w = some a) (hw : w ≠ [])
    (hup : ∀ u c, w = u ++ [c] → loc u = none) :
    Located { t with nodes := t.nodes.free a } (Function.update loc w none) info :=
  (((h.but_self w).free h ha).detached hw hup).freed h ha rfl rfl fun _ => Iff.rfl

end Located

/-- Subtrees at the words `ws`, with nothing above them and nothing outside them. -/
structure Forest (A : Arena (Branch α β)) (loc : List α → Option Nat) (info : List α → β)
    (ws : List (List α)) : Prop where
  cell : ∀ w a, loc w = some a → A.cells a = some ⟨info w, fun c => loc (w ++ [c])⟩
  inj : ∀ w w' a, loc w = some a → loc w' = some a → w = w'
  live : ∀ a, A.Live a → ∃ w, loc w = some a
  sound : A.Sound
  nodup : ws.Nodup
  roots : ∀ w ∈ ws, loc w ≠ none
  top : ∀ u c, u ++ [c] ∈ ws → loc u = none
  up : ∀ w, loc w ≠ none → w ∈ ws ∨ ∃ u c, w = u ++ [c] ∧ loc u ≠ none

namespace Forest

variable {A : Arena (Branch α β)} {t : WordTree α β} {loc : List α → Option Nat}
  {info : List α → β} {w : List α} {ws ws' : List (List α)} {a : Nat}

/-- A tree without gaps is the subtree at its root. -/
theorem of_located (h : Located t loc info)
    (hgap : ∀ u c, loc (u ++ [c]) ≠ none → loc u ≠ none) :
    Forest t.nodes loc info (if t.root = none then [] else [[]]) := by
  refine ⟨h.cell, h.inj, h.live, h.sound, ?_, ?_, ?_, fun w hw => ?_⟩
  · split <;> simp
  · rw [h.root]
    split <;> simp_all
  · split <;> simp
  · rcases List.eq_nil_or_concat' w with rfl | ⟨u, c, rfl⟩
    · rw [h.root, if_neg hw]
      exact .inl List.mem_cons_self
    · exact .inr ⟨u, c, rfl, hgap u c hw⟩

theorem not_live (h : Forest A loc info []) (a : Nat) : ¬ A.Live a := by
  have hnone : ∀ n w, w.length = n → loc w = none := by
    intro n
    induction n with
    | zero =>
      intro w hw
      by_contra hne
      rcases h.up w hne with hm | ⟨u, c, rfl, -⟩
      · cases hm
      · simp at hw
    | succ n ih =>
      intro w hw
      by_contra hne
      rcases h.up w hne with hm | ⟨u, c, rfl, hu⟩
      · cases hm
      · exact hu (ih u (by simpa using hw))
  intro ha
  obtain ⟨w, hw⟩ := h.live a ha
  rw [hnone _ w rfl] at hw
  cases hw

/-- The root of one subtree is freed, and its children become roots. -/
theorem free [DecidableEq α] (h : Forest A loc info (w :: ws)) (ha : loc w = some a)
    (hnodup : ws'.Nodup)
    (hmem : ∀ v, v ∈ ws' ↔ v ∈ ws ∨ ∃ c, v = w ++ [c] ∧ loc v ≠ none) :
    Forest (A.free a) (Function.update loc w none) info ws' := by
  have hlive : A.Live a := Option.isSome_iff_exists.mpr ⟨_, h.cell w a ha⟩
  have hw : w ∉ ws := (List.nodup_cons.mp h.nodup).1
  refine ⟨fun u x hx => ?_, fun u u' x hx hx' => ?_, fun x hx => ?_, h.sound.free hlive, hnodup,
    fun v hv => ?_, fun u c hv => ?_, fun v hv => ?_⟩
  · have hu : u ≠ w := by
      rintro rfl
      rw [Function.update_self] at hx
      cases hx
    rw [Function.update_of_ne hu] at hx
    have hxa : x ≠ a := by
      rintro rfl
      exact hu (h.inj u w x hx ha)
    -- The node above `w` is gone, so no other node pointed to it.
    have hne : ∀ c, u ++ [c] ≠ w := by
      rintro c rfl
      rw [h.top u c List.mem_cons_self] at hx
      cases hx
    simp only [Function.update_of_ne (hne _), Arena.free, Function.update_of_ne hxa]
    exact h.cell u x hx
  · have hu : u ≠ w := by
      rintro rfl
      rw [Function.update_self] at hx
      cases hx
    have hu' : u' ≠ w := by
      rintro rfl
      rw [Function.update_self] at hx'
      cases hx'
    rw [Function.update_of_ne hu] at hx
    rw [Function.update_of_ne hu'] at hx'
    exact h.inj u u' x hx hx'
  · obtain ⟨hne, hx⟩ := Arena.live_free.mp hx
    obtain ⟨u, hu⟩ := h.live x hx
    refine ⟨u, ?_⟩
    rw [Function.update_of_ne]
    · exact hu
    · rintro rfl
      exact hne (Option.some.inj (hu.symm.trans ha))
  · rcases (hmem v).mp hv with hv | ⟨c, rfl, hv⟩
    · have hvw : v ≠ w := by
        rintro rfl
        exact hw hv
      rw [Function.update_of_ne hvw]
      exact h.roots v (List.mem_cons_of_mem w hv)
    · rw [Function.update_of_ne (by simp)]
      exact hv
  · by_cases hu : u = w
    · rw [hu, Function.update_self]
    · rw [Function.update_of_ne hu]
      rcases (hmem _).mp hv with hv | ⟨c', heq, -⟩
      · exact h.top u c (List.mem_cons_of_mem w hv)
      · exact absurd (List.append_inj_left' heq rfl) hu
  · have hvw : v ≠ w := by
      rintro rfl
      exact hv (Function.update_self ..)
    rw [Function.update_of_ne hvw] at hv
    rcases h.up v hv with hm | ⟨u, c, rfl, hu⟩
    · rcases List.mem_cons.mp hm with rfl | hm
      · exact absurd rfl hvw
      · exact .inl ((hmem v).mpr (.inl hm))
    · by_cases huw : u = w
      · subst huw
        exact .inl ((hmem _).mpr (.inr ⟨c, rfl, hv⟩))
      · refine .inr ⟨u, c, rfl, ?_⟩
        rw [Function.update_of_ne huw]
        exact hu

end Forest

end BaseCode.Foundation
