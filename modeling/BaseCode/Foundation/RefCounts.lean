import Mathlib.Algebra.BigOperators.Group.Finset.Piecewise
import Mathlib.Algebra.BigOperators.Ring.Finset
import Mathlib.Algebra.Order.BigOperators.Group.Finset
import BaseCode.Foundation.Arena

/-!
# Reference counts

Objects that count the references to them and refer to older objects. An object is freed when
its last reference is released, and it then releases the objects it refers to. `Tally` is the
books of such a heap: every count is the number of references from outside, `ext`, and from the
objects, where `own b` is what `b` refers to as long as the books count it. An object that is
being made or freed is in the heap with count zero while the books count nothing for it.
-/

namespace BaseCode.Foundation

structure RefCell (β : Type) where
  info : β
  refs : Nat
  kids : List Nat

variable {β : Type}

/-- One more reference; a count that comes to `limit` is a fault. -/
def retain (limit : Nat) (A : Arena (RefCell β)) (a : Nat) : Option (Arena (RefCell β)) := do
  let c ← A.cells a
  if c.refs + 1 < limit then some (A.set a { c with refs := c.refs + 1 }) else none

/-- Gives back one reference, for at most `fuel` levels; a count below zero is a fault. -/
def release : Nat → Arena (RefCell β) → Nat → Option (Arena (RefCell β))
  | 0, _, _ => none
  | fuel + 1, A, a => do
    let c ← A.cells a
    match c.refs with
    | 0 => none
    | refs + 1 =>
      let A := A.set a { c with refs }
      if refs = 0 then
        let A ← c.kids.foldlM (release fuel) A
        some (A.free a)
      else some A

structure Tally (A : Arena (RefCell β)) (own : Nat → List Nat) (ext : List Nat) : Prop where
  refs : ∀ a c, A.cells a = some c →
    c.refs = ext.count a + ∑ b ∈ Finset.range A.next, (own b).count a
  full : ∀ a c, A.cells a = some c → own a = c.kids ∨ own a = [] ∧ c.refs = 0
  dead : ∀ a, ¬ A.Live a → own a = []
  older : ∀ a c, A.cells a = some c → ∀ k ∈ c.kids, k < a
  ext_live : ∀ a ∈ ext, A.Live a
  own_live : ∀ b, ∀ a ∈ own b, A.Live a
  sound : A.Sound

/-- What giving back references does to the rest of the heap: objects from `n` on stay, and the
objects that stay are what they were, but for their counts. -/
structure Released (A A' : Arena (RefCell β)) (own own' : Nat → List Nat) (n : Nat) : Prop where
  next : A'.next = A.next
  cell : ∀ b c', A'.cells b = some c' →
    ∃ c, A.cells b = some c ∧ c'.info = c.info ∧ c'.kids = c.kids ∧ (c'.refs = 0 → c.refs = 0)
  keep : ∀ b, n ≤ b → A.Live b → A'.Live b
  own : ∀ b, own' b = own b ∨ ¬ A'.Live b

namespace Released

variable {A A' A'' : Arena (RefCell β)} {own own' own'' : Nat → List Nat} {n m : Nat}

theorem refl (A : Arena (RefCell β)) (own : Nat → List Nat) (n : Nat) : Released A A own own n :=
  ⟨rfl, fun _ c hc => ⟨c, hc, rfl, rfl, id⟩, fun _ _ hb => hb, fun _ => .inl rfl⟩

theorem live (h : Released A A' own own' n) {b : Nat} (hb : A'.Live b) : A.Live b := by
  obtain ⟨c', hc'⟩ := Option.isSome_iff_exists.mp hb
  obtain ⟨c, hc, -⟩ := h.cell b c' hc'
  exact Option.isSome_iff_exists.mpr ⟨c, hc⟩

theorem trans (h : Released A A' own own' n) (h' : Released A' A'' own' own'' n) :
    Released A A'' own own'' n where
  next := h'.next.trans h.next
  cell b c'' hc'' := by
    obtain ⟨c', hc', hi', hk', hz'⟩ := h'.cell b c'' hc''
    obtain ⟨c, hc, hi, hk, hz⟩ := h.cell b c' hc'
    exact ⟨c, hc, hi'.trans hi, hk'.trans hk, fun h0 => hz (hz' h0)⟩
  keep b hn hb := h'.keep b hn (h.keep b hn hb)
  own b := by
    rcases h'.own b with heq | hdead
    · rcases h.own b with heq' | hdead
      · exact .inl (heq.trans heq')
      · exact .inr fun hb => hdead (h'.live hb)
    · exact .inr hdead

theorem mono (h : Released A A' own own' n) (hnm : n ≤ m) : Released A A' own own' m :=
  ⟨h.next, h.cell, fun b hb => h.keep b (Nat.le_trans hnm hb), h.own⟩

end Released

namespace Tally

variable {A A' : Arena (RefCell β)} {own own' : Nat → List Nat} {ext ext' : List Nat}
  {a limit : Nat}

theorem empty : Tally (Arena.empty : Arena (RefCell β)) (fun _ => []) [] where
  refs a c hc := by cases hc
  full a c hc := by cases hc
  dead _ _ := rfl
  older a c hc := by cases hc
  ext_live a ha := by cases ha
  own_live b a ha := by cases ha
  sound := Arena.sound_empty

theorem perm (h : Tally A own ext) (hp : ext.Perm ext') : Tally A own ext' :=
  ⟨fun a c hc => by rw [← hp.count_eq a]; exact h.refs a c hc, h.full, h.dead, h.older,
    fun a ha => h.ext_live a (hp.mem_iff.mpr ha), h.own_live, h.sound⟩

theorem exists_cell (h : Tally A own ext) (ha : a ∈ ext) : ∃ c, A.cells a = some c :=
  Option.isSome_iff_exists.mp (h.ext_live a ha)

/-- Another count in one object. -/
theorem setRefs {c : RefCell β} {n : Nat} (h : Tally A own ext) (hc : A.cells a = some c)
    (hn : n = ext'.count a + ∑ b ∈ Finset.range A.next, (own b).count a)
    (hother : ∀ b, b ≠ a → ext'.count b = ext.count b) (hlive : ∀ b ∈ ext', A.Live b)
    (hfull : own a = c.kids ∨ own a = [] ∧ n = 0) :
    Tally (A.set a { c with refs := n }) own ext' := by
  have hla : A.Live a := Option.isSome_iff_exists.mpr ⟨c, hc⟩
  refine ⟨fun b c' hc' => ?_, fun b c' hc' => ?_, fun b hb => h.dead b fun hl => hb ?_,
    fun b c' hc' => ?_, fun b hb => (Arena.live_set hla).mpr (hlive b hb),
    fun b x hx => (Arena.live_set hla).mpr (h.own_live b x hx), h.sound.set hla _⟩
  · rcases Arena.cells_set_cases hc' with ⟨rfl, rfl⟩ | ⟨hb, hc'⟩
    · exact hn
    · rw [hother b hb]
      exact h.refs b c' hc'
  · rcases Arena.cells_set_cases hc' with ⟨rfl, rfl⟩ | ⟨hb, hc'⟩
    · exact hfull
    · exact h.full b c' hc'
  · exact (Arena.live_set hla).mpr hl
  · rcases Arena.cells_set_cases hc' with ⟨rfl, rfl⟩ | ⟨hb, hc'⟩
    · exact h.older b c hc
    · exact h.older b c' hc'

/-- The count of an object changes, but not to zero. -/
theorem released_set {c : RefCell β} {n : Nat} (hc : A.cells a = some c) (hn : n ≠ 0)
    (own : Nat → List Nat) (m : Nat) :
    Released A (A.set a { c with refs := n }) own own m := by
  have hla : A.Live a := Option.isSome_iff_exists.mpr ⟨c, hc⟩
  refine ⟨rfl, fun b c' hc' => ?_, fun b _ hb => (Arena.live_set hla).mpr hb, fun _ => .inl rfl⟩
  rcases Arena.cells_set_cases hc' with ⟨rfl, rfl⟩ | ⟨-, hc'⟩
  · exact ⟨c, hc, rfl, rfl, fun h0 => absurd h0 hn⟩
  · exact ⟨c', hc', rfl, rfl, id⟩

/-- One more reference from outside. -/
theorem retain_spec (h : Tally A own ext) (ha : A.Live a)
    (hfull : ∀ c, A.cells a = some c → own a = c.kids)
    (hroom : ∀ c, A.cells a = some c → c.refs + 1 < limit) (n : Nat) :
    ∃ A', retain limit A a = some A' ∧ Tally A' own (a :: ext) ∧ Released A A' own own n := by
  obtain ⟨c, hc⟩ := Option.isSome_iff_exists.mp ha
  refine ⟨A.set a { c with refs := c.refs + 1 }, ?_, ?_, released_set hc (Nat.succ_ne_zero _) own n⟩
  · simp only [retain, hc, if_pos (hroom c hc), Option.bind_eq_bind, Option.bind_some]
  · refine h.setRefs hc ?_ (fun b hb => List.count_cons_of_ne (Ne.symm hb)) (fun b hb => ?_)
      (.inl (hfull c hc))
    · rw [List.count_cons_self, h.refs a c hc]
      omega
    · rcases List.mem_cons.mp hb with rfl | hb
      · exact ha
      · exact h.ext_live b hb

theorem owner_live (h : Tally A own ext) {b : Nat} (ha : a ∈ own b) : A.Live b := by
  by_contra hb
  rw [h.dead b hb] at ha
  cases ha

/-- An object that something refers to is not being made or freed. -/
theorem full_of_ref (h : Tally A own ext) (ha : a ∈ ext ∨ ∃ b, a ∈ own b) {c : RefCell β}
    (hc : A.cells a = some c) : own a = c.kids ∧ c.refs ≠ 0 := by
  have hrefs := h.refs a c hc
  have hpos : 0 < ext.count a + ∑ b ∈ Finset.range A.next, (own b).count a := by
    rcases ha with ha | ⟨b, ha⟩
    · exact Nat.add_pos_left (List.count_pos_iff.mpr ha) _
    · have hlt := Finset.mem_range.mpr (h.sound.live_lt b (h.owner_live ha))
      have hle := Finset.single_le_sum (f := fun b => (own b).count a)
        (fun _ _ => Nat.zero_le _) hlt
      have hcount : 0 < (own b).count a := List.count_pos_iff.mpr ha
      omega
  rcases h.full a c hc with heq | ⟨-, h0⟩
  · exact ⟨heq, by omega⟩
  · omega

theorem live_of_ref (h : Tally A own ext) (ha : a ∈ ext ∨ ∃ b, a ∈ own b) : A.Live a := by
  rcases ha with ha | ⟨b, ha⟩
  · exact h.ext_live a ha
  · exact h.own_live b a ha

/-- One more reference to each of some objects, if there is room for all of them in each count. -/
theorem foldlM_retain {ks : List Nat} (h : Tally A own ext)
    (hks : ∀ k ∈ ks, k ∈ ext ∨ ∃ b, k ∈ own b)
    (hroom : ∀ a c, A.cells a = some c → c.refs + ks.length < limit) (n : Nat) :
    ∃ A', ks.foldlM (retain limit) A = some A' ∧ Tally A' own (ks ++ ext) ∧
      Released A A' own own n := by
  induction ks generalizing A ext with
  | nil => exact ⟨A, rfl, h, .refl A own n⟩
  | cons k ks ih =>
    have hk := hks k List.mem_cons_self
    have hone : ∀ c, A.cells k = some c → c.refs + 1 < limit := by
      intro c hc
      have hlt := hroom k c hc
      rw [List.length_cons] at hlt
      omega
    obtain ⟨A₁, heq₁, h₁, hr₁⟩ := h.retain_spec (h.live_of_ref hk)
      (fun c hc => (h.full_of_ref hk hc).1) hone n
    have hroom₁ : ∀ a c, A₁.cells a = some c → c.refs + ks.length < limit := by
      intro a c₁ hc₁
      obtain ⟨c, hc, -⟩ := hr₁.cell a c₁ hc₁
      have hlt := hroom a c hc
      have hrefs := h.refs a c hc
      have hrefs₁ := h₁.refs a c₁ hc₁
      have hcount : (k :: ext).count a ≤ ext.count a + 1 := by
        rw [List.count_cons]
        split <;> omega
      rw [hr₁.next] at hrefs₁
      rw [List.length_cons] at hlt
      omega
    obtain ⟨A₂, heq₂, h₂, hr₂⟩ := ih h₁ (fun j hj =>
      (hks j (List.mem_cons_of_mem k hj)).imp_left (List.mem_cons_of_mem k)) hroom₁
    refine ⟨A₂, ?_, h₂.perm List.perm_middle, hr₁.trans hr₂⟩
    rw [List.foldlM_cons, heq₁]
    exact heq₂

/-- An object that nobody refers to hands its references over. -/
theorem disown {c : RefCell β} (h : Tally A own ext) (hc : A.cells a = some c)
    (hown : own a = c.kids) (hz : c.refs = 0) :
    Tally A (Function.update own a []) (c.kids ++ ext) where
  refs b d hd := by
    have hlt : a ∈ Finset.range A.next :=
      Finset.mem_range.mpr (h.sound.live_lt a (Option.isSome_iff_exists.mpr ⟨c, hc⟩))
    have hsum := Finset.add_sum_erase (Finset.range A.next) (fun x => (own x).count b) hlt
    have hsum' := Finset.add_sum_erase (Finset.range A.next)
      (fun x => (Function.update own a [] x).count b) hlt
    have hrest : ∑ x ∈ (Finset.range A.next).erase a, (Function.update own a [] x).count b =
        ∑ x ∈ (Finset.range A.next).erase a, (own x).count b :=
      Finset.sum_congr rfl fun x hx => by rw [Function.update_of_ne (Finset.ne_of_mem_erase hx)]
    rw [Function.update_self, List.count_nil] at hsum'
    rw [hown] at hsum
    rw [h.refs b d hd, List.count_append]
    omega
  full b d hd := by
    by_cases hb : b = a
    · subst hb
      obtain rfl : c = d := Option.some.inj (hc.symm.trans hd)
      exact .inr ⟨Function.update_self .., hz⟩
    · rw [Function.update_of_ne hb]
      exact h.full b d hd
  dead b hb := by
    by_cases hba : b = a
    · rw [hba, Function.update_self]
    · rw [Function.update_of_ne hba]
      exact h.dead b hb
  older := h.older
  ext_live b hb := by
    rcases List.mem_append.mp hb with hb | hb
    · exact h.own_live a b (hown ▸ hb)
    · exact h.ext_live b hb
  own_live b x hx := by
    by_cases hb : b = a
    · rw [hb, Function.update_self] at hx
      cases hx
    · rw [Function.update_of_ne hb] at hx
      exact h.own_live b x hx
  sound := h.sound

/-- An object that nobody refers to yet takes references over. -/
theorem adopt {c : RefCell β} (h : Tally A own (c.kids ++ ext)) (hc : A.cells a = some c)
    (hown : own a = []) : Tally A (Function.update own a c.kids) ext where
  refs b d hd := by
    have hlt : a ∈ Finset.range A.next :=
      Finset.mem_range.mpr (h.sound.live_lt a (Option.isSome_iff_exists.mpr ⟨c, hc⟩))
    have hsum := Finset.add_sum_erase (Finset.range A.next) (fun x => (own x).count b) hlt
    have hsum' := Finset.add_sum_erase (Finset.range A.next)
      (fun x => (Function.update own a c.kids x).count b) hlt
    have hrest : ∑ x ∈ (Finset.range A.next).erase a, (Function.update own a c.kids x).count b =
        ∑ x ∈ (Finset.range A.next).erase a, (own x).count b :=
      Finset.sum_congr rfl fun x hx => by rw [Function.update_of_ne (Finset.ne_of_mem_erase hx)]
    rw [Function.update_self] at hsum'
    rw [hown, List.count_nil] at hsum
    rw [h.refs b d hd, List.count_append]
    omega
  full b d hd := by
    by_cases hb : b = a
    · subst hb
      obtain rfl : c = d := Option.some.inj (hc.symm.trans hd)
      exact .inl (Function.update_self ..)
    · rw [Function.update_of_ne hb]
      exact h.full b d hd
  dead b hb := by
    have hba : b ≠ a := by
      rintro rfl
      exact hb (Option.isSome_iff_exists.mpr ⟨c, hc⟩)
    rw [Function.update_of_ne hba]
    exact h.dead b hb
  older := h.older
  ext_live b hb := h.ext_live b (List.mem_append_right _ hb)
  own_live b x hx := by
    by_cases hb : b = a
    · rw [hb, Function.update_self] at hx
      exact h.ext_live x (List.mem_append_left _ hx)
    · rw [Function.update_of_ne hb] at hx
      exact h.own_live b x hx
  sound := h.sound

/-- An object that nobody refers to, and that refers to nothing any more, is freed. -/
theorem free (h : Tally A own ext) (ha : A.Live a) (hown : own a = []) (hext : a ∉ ext)
    (hno : ∀ b, a ∉ own b) : Tally (A.free a) own ext where
  refs b c hc := h.refs b c (Arena.cells_of_free hc)
  full b c hc := h.full b c (Arena.cells_of_free hc)
  dead b hb := by
    by_cases hba : b = a
    · rw [hba, hown]
    · exact h.dead b fun hl => hb (Arena.live_free.mpr ⟨hba, hl⟩)
  older b c hc := h.older b c (Arena.cells_of_free hc)
  ext_live b hb := Arena.live_free.mpr ⟨fun heq => hext (heq ▸ hb), h.ext_live b hb⟩
  own_live b x hx := Arena.live_free.mpr ⟨fun heq => hno b (heq ▸ hx), h.own_live b x hx⟩
  sound := h.sound.free ha

/-- References are given back one after the other, if each can be. -/
theorem foldlM_release {step : Arena (RefCell β) → Nat → Option (Arena (RefCell β))} {n : Nat}
    {ks : List Nat}
    (hstep : ∀ k ∈ ks, ∀ A own ext, Tally A own (k :: ext) →
      ∃ A' own', step A k = some A' ∧ Tally A' own' ext ∧ Released A A' own own' n)
    (h : Tally A own (ks ++ ext)) :
    ∃ A' own', ks.foldlM step A = some A' ∧ Tally A' own' ext ∧ Released A A' own own' n := by
  induction ks generalizing A own with
  | nil => exact ⟨A, own, rfl, h, .refl A own n⟩
  | cons k ks ih =>
    obtain ⟨A₁, own₁, heq₁, h₁, hr₁⟩ := hstep k List.mem_cons_self A own (ks ++ ext) h
    obtain ⟨A₂, own₂, heq₂, h₂, hr₂⟩ :=
      ih (fun k hk => hstep k (List.mem_cons_of_mem _ hk)) h₁
    refine ⟨A₂, own₂, ?_, h₂, hr₁.trans hr₂⟩
    rw [List.foldlM_cons, heq₁]
    exact heq₂

/-- One reference from outside is given back, with everything that is freed by that. -/
theorem release_spec {fuel : Nat} (h : Tally A own (a :: ext)) (hfuel : a < fuel) :
    ∃ A' own', release fuel A a = some A' ∧ Tally A' own' ext ∧
      Released A A' own own' (a + 1) := by
  induction fuel generalizing A own ext a with
  | zero => exact absurd hfuel (Nat.not_lt_zero a)
  | succ fuel ih =>
    obtain ⟨c, hc⟩ := h.exists_cell List.mem_cons_self
    obtain ⟨hown, hpos⟩ := h.full_of_ref (.inl List.mem_cons_self) hc
    obtain ⟨n, hn⟩ := Nat.exists_eq_succ_of_ne_zero hpos
    have hla : A.Live a := Option.isSome_iff_exists.mpr ⟨c, hc⟩
    have hcount : n = ext.count a + ∑ b ∈ Finset.range A.next, (own b).count a := by
      have hrefs := h.refs a c hc
      rw [List.count_cons_self] at hrefs
      omega
    have hset : Tally (A.set a { c with refs := n }) own ext :=
      h.setRefs hc hcount (fun b hb => (List.count_cons_of_ne (Ne.symm hb)).symm)
        (fun b hb => h.ext_live b (List.mem_cons_of_mem a hb)) (.inl hown)
    have hcell : (A.set a { c with refs := n }).cells a = some { c with refs := n } :=
      Function.update_self ..
    by_cases h0 : n = 0
    · -- The last reference: the object hands its own references over and gives them back.
      subst h0
      have hkids := hset.disown hcell hown rfl
      have hstep : ∀ k ∈ c.kids, ∀ (A : Arena (RefCell β)) own ext, Tally A own (k :: ext) →
          ∃ A' own', release fuel A k = some A' ∧ Tally A' own' ext ∧ Released A A' own own' a := by
        intro k hk A own ext hk'
        have hlt : k < a := h.older a c hc k hk
        obtain ⟨A', own', heq, h', hr⟩ := ih hk' (by omega)
        exact ⟨A', own', heq, h', hr.mono hlt⟩
      obtain ⟨A₁, own₁, heq₁, h₁, hr₁⟩ := hkids.foldlM_release hstep
      have hla₁ : A₁.Live a := hr₁.keep a (Nat.le_refl a) ((Arena.live_set hla).mpr hla)
      have hown₁ : ∀ b, own₁ b = Function.update own a [] b ∨ own₁ b = [] := by
        intro b
        rcases hr₁.own b with heq | hdead
        · exact .inl heq
        · exact .inr (h₁.dead b hdead)
      have hself : own₁ a = [] := by
        rcases hown₁ a with heq | heq
        · rw [heq, Function.update_self]
        · exact heq
      have hno : ∀ b, a ∉ own b := fun b hb => (hset.full_of_ref (.inr ⟨b, hb⟩) hcell).2 rfl
      have hext : a ∉ ext := fun ha => (hset.full_of_ref (.inl ha) hcell).2 rfl
      have hno₁ : ∀ b, a ∉ own₁ b := by
        intro b hb
        rcases hown₁ b with heq | heq
        · by_cases hba : b = a
          · rw [heq, hba, Function.update_self] at hb
            cases hb
          · rw [heq, Function.update_of_ne hba] at hb
            exact hno b hb
        · rw [heq] at hb
          cases hb
      refine ⟨A₁.free a, own₁, ?_, h₁.free hla₁ hself hext hno₁, hr₁.next, fun b c' hc' => ?_,
        fun b hb hlb => ?_, fun b => ?_⟩
      · simp only [release, hc, hn, Option.bind_eq_bind, Option.bind_some]
        rw [if_pos trivial, heq₁]
        rfl
      · have hba := Arena.ne_of_cells_free hc'
        obtain ⟨d, hd, hi, hk, hz⟩ := hr₁.cell b c' (Arena.cells_of_free hc')
        rcases Arena.cells_set_cases hd with ⟨heq, -⟩ | ⟨-, hd⟩
        · exact absurd heq hba
        · exact ⟨d, hd, hi, hk, hz⟩
      · refine Arena.live_free.mpr ⟨by omega, hr₁.keep b (by omega) ?_⟩
        exact (Arena.live_set hla).mpr hlb
      · by_cases hba : b = a
        · right
          rw [hba, Arena.live_free]
          exact fun hl => hl.1 rfl
        · rcases hr₁.own b with heq | hdead
          · rw [heq, Function.update_of_ne hba]
            exact .inl rfl
          · exact .inr fun hl => hdead (Arena.live_free.mp hl).2
    · refine ⟨A.set a { c with refs := n }, own, ?_, hset, released_set hc h0 own (a + 1)⟩
      simp only [release, hc, hn, Option.bind_eq_bind, Option.bind_some]
      rw [if_neg h0]

/-- A new object with references from outside, before it takes references of its own. -/
theorem alloc (h : Tally A own ext) (i : β) {n : Nat} {ks : List Nat} (hks : ∀ k ∈ ks, A.Live k)
    (hn : ks = [] ∨ n = 0) :
    Tally (A.alloc ⟨i, n, ks⟩) own (List.replicate n A.next ++ ext) := by
  have hnew : ¬ A.Live A.next := fun hl => Nat.lt_irrefl _ (h.sound.live_lt _ hl)
  refine ⟨fun b c hc => ?_, fun b c hc => ?_, fun b hb => h.dead b fun hl => hb ?_,
    fun b c hc => ?_, fun b hb => ?_, fun b x hx => ?_, h.sound.alloc _⟩
  · show c.refs = (List.replicate n A.next ++ ext).count b +
      ∑ x ∈ Finset.range (A.next + 1), (own x).count b
    rw [Finset.sum_range_succ, h.dead _ hnew, List.count_nil, Nat.add_zero, List.count_append]
    rcases Arena.cells_alloc_cases hc with ⟨rfl, rfl⟩ | ⟨hb, hc⟩
    · have hext : ext.count A.next = 0 :=
        List.count_eq_zero.mpr fun ha => hnew (h.ext_live _ ha)
      have hsum : ∑ x ∈ Finset.range A.next, (own x).count A.next = 0 :=
        Finset.sum_eq_zero fun x _ => List.count_eq_zero.mpr fun ha => hnew (h.own_live x _ ha)
      rw [List.count_replicate_self, hext, hsum]
      rfl
    · rw [List.count_replicate, if_neg (by simpa using Ne.symm hb), Nat.zero_add]
      exact h.refs b c hc
  · rcases Arena.cells_alloc_cases hc with ⟨rfl, rfl⟩ | ⟨-, hc⟩
    · rw [h.dead _ hnew]
      exact hn.imp Eq.symm fun h0 => ⟨rfl, h0⟩
    · exact h.full b c hc
  · exact Arena.live_alloc.mpr (.inr hl)
  · rcases Arena.cells_alloc_cases hc with ⟨rfl, rfl⟩ | ⟨-, hc⟩
    · exact fun k hk => h.sound.live_lt k (hks k hk)
    · exact h.older b c hc
  · rcases List.mem_append.mp hb with hb | hb
    · exact Arena.live_alloc.mpr (.inl (List.eq_of_mem_replicate hb))
    · exact Arena.live_alloc.mpr (.inr (h.ext_live b hb))
  · exact Arena.live_alloc.mpr (.inr (h.own_live b x hx))

/-- An object that nobody refers to has the count zero. -/
theorem refs_eq_zero (h : Tally A own ext) {c : RefCell β} (hc : A.cells a = some c)
    (hext : a ∉ ext) (hown : ∀ b, a ∉ own b) : c.refs = 0 := by
  have hsum : ∑ b ∈ Finset.range A.next, (own b).count a = 0 :=
    Finset.sum_eq_zero fun b _ => List.count_eq_zero.mpr (hown b)
  rw [h.refs a c hc, hsum, List.count_eq_zero.mpr hext]

/-- A new object takes a reference to each of some objects, and nobody refers to it yet. -/
theorem create (h : Tally A own ext) (i : β) {ks : List Nat}
    (hks : ∀ k ∈ ks, k ∈ ext ∨ ∃ b, k ∈ own b)
    (hroom : ∀ a c, (A.alloc ⟨i, 0, ks⟩).cells a = some c → c.refs + ks.length < limit) :
    ∃ A' c, ks.foldlM (retain limit) (A.alloc ⟨i, 0, ks⟩) = some A' ∧
      A'.cells A.next = some c ∧ c.kids = ks ∧
      Tally A' (Function.update own A.next ks) ext ∧
      (∀ b, A.next ∉ Function.update own A.next ks b) ∧
      Released (A.alloc ⟨i, 0, ks⟩) A' own own 0 := by
  have hnew : ¬ A.Live A.next := fun hl => Nat.lt_irrefl _ (h.sound.live_lt _ hl)
  have halloc := h.alloc i (n := 0) (fun k hk => h.live_of_ref (hks k hk)) (.inr rfl)
  obtain ⟨A', heq, hA', hr⟩ := halloc.foldlM_retain hks hroom 0
  have hlive : A'.Live A.next := hr.keep _ (Nat.zero_le _) (Arena.live_alloc.mpr (.inl rfl))
  obtain ⟨c, hc⟩ := Option.isSome_iff_exists.mp hlive
  have hkids : c.kids = ks := by
    obtain ⟨d, hd, -, hk, -⟩ := hr.cell _ _ hc
    rcases Arena.cells_alloc_cases hd with ⟨-, rfl⟩ | ⟨hne, -⟩
    · exact hk
    · exact absurd rfl hne
  subst hkids
  refine ⟨A', c, heq, hc, rfl, hA'.adopt hc (h.dead _ hnew), fun b hmem => ?_, hr⟩
  by_cases hb : b = A.next
  · rw [hb, Function.update_self] at hmem
    exact hnew (h.live_of_ref (hks _ hmem))
  · rw [Function.update_of_ne hb] at hmem
    exact hnew (h.own_live b _ hmem)

theorem sum_count_mul {l : List Nat} {n : Nat} (hl : ∀ a ∈ l, a < n) (f : Nat → Nat) :
    ∑ a ∈ Finset.range n, l.count a * f a = (l.map f).sum := by
  induction l with
  | nil => simp
  | cons x l ih =>
    have hx : x ∈ Finset.range n := Finset.mem_range.mpr (hl x List.mem_cons_self)
    have hcount : ∀ a, (x :: l).count a * f a = l.count a * f a + if x = a then f a else 0 := by
      intro a
      rw [List.count_cons]
      by_cases hxa : x = a
      · rw [if_pos (by simpa using hxa), if_pos hxa, Nat.add_mul, Nat.one_mul]
      · rw [if_neg (by simpa using hxa), if_neg hxa, Nat.add_zero, Nat.add_zero]
    simp only [hcount]
    rw [Finset.sum_add_distrib, ih fun a ha => hl a (List.mem_cons_of_mem x ha),
      Finset.sum_ite_eq, if_pos hx, List.map_cons, List.sum_cons, Nat.add_comm]

/-- Where an object weighs at least as much as all it refers to, the references to it weigh no
more than those from outside, and its own weight. -/
theorem refs_mul_le (h : Tally A own ext) (f : Nat → Nat)
    (hf : ∀ a c, A.cells a = some c → (c.kids.map f).sum ≤ f a)
    (hpos : ∀ a c, A.cells a = some c → c.refs ≠ 0) {c : RefCell β} (hc : A.cells a = some c) :
    c.refs * f a ≤ (ext.map f).sum + f a := by
  have hlt : ∀ {x}, A.Live x → x < A.next := fun hx => h.sound.live_lt _ hx
  -- what an object is referred to for, all together
  obtain ⟨R, hR⟩ : ∃ R : Nat → Nat, ∀ x,
      R x = ext.count x + ∑ b ∈ Finset.range A.next, (own b).count x := ⟨_, fun _ => rfl⟩
  have hsum : ∑ x ∈ Finset.range A.next, R x * f x =
      (ext.map f).sum + ∑ b ∈ Finset.range A.next, ((own b).map f).sum := by
    have hown : ∀ b, ((own b).map f).sum =
        ∑ x ∈ Finset.range A.next, (own b).count x * f x := fun b =>
      (sum_count_mul (fun x hx => hlt (h.own_live b x hx)) f).symm
    rw [← sum_count_mul (fun x hx => hlt (h.ext_live x hx)) f,
      Finset.sum_congr rfl fun b _ => hown b, Finset.sum_comm, ← Finset.sum_add_distrib]
    refine Finset.sum_congr rfl fun x _ => ?_
    rw [hR, Nat.add_mul, Finset.sum_mul]
  have hterm : ∀ b, ((own b).map f).sum ≤ R b * f b ∧ ((own b).map f).sum ≤ f b := by
    intro b
    by_cases hb : A.Live b
    · obtain ⟨d, hd⟩ := Option.isSome_iff_exists.mp hb
      rcases h.full b d hd with heq | ⟨heq, -⟩
      · have hone : 1 ≤ R b := by
          rw [hR, ← h.refs b d hd]
          exact Nat.pos_of_ne_zero (hpos b d hd)
        rw [heq]
        exact ⟨(hf b d hd).trans (Nat.le_mul_of_pos_left _ hone), hf b d hd⟩
      · rw [heq]
        exact ⟨Nat.zero_le _, Nat.zero_le _⟩
    · rw [h.dead b hb]
      exact ⟨Nat.zero_le _, Nat.zero_le _⟩
  have ha : a ∈ Finset.range A.next :=
    Finset.mem_range.mpr (hlt (Option.isSome_iff_exists.mpr ⟨c, hc⟩))
  have hleft := Finset.add_sum_erase (Finset.range A.next) (fun x => R x * f x) ha
  have hright := Finset.add_sum_erase (Finset.range A.next) (fun b => ((own b).map f).sum) ha
  have hrest : ∑ b ∈ (Finset.range A.next).erase a, ((own b).map f).sum ≤
      ∑ b ∈ (Finset.range A.next).erase a, R b * f b :=
    Finset.sum_le_sum fun b _ => (hterm b).1
  have hself := (hterm a).2
  rw [h.refs a c hc, ← hR]
  omega

/-- Without references from outside, and with no object of count zero, nothing is left. -/
theorem not_live (h : Tally A own []) (hpos : ∀ a c, A.cells a = some c → c.refs ≠ 0) (a : Nat) :
    ¬ A.Live a := by
  -- Each object is referred to by a younger one, and there is a youngest.
  have hdown : ∀ n a, A.next ≤ a + n → ¬ A.Live a := by
    intro n
    induction n with
    | zero => exact fun a ha hl => Nat.lt_irrefl _ (Nat.lt_of_lt_of_le (h.sound.live_lt a hl) ha)
    | succ n ih =>
      intro a ha hl
      obtain ⟨c, hc⟩ := Option.isSome_iff_exists.mp hl
      have hrefs := h.refs a c hc
      rw [List.count_nil, Nat.zero_add] at hrefs
      have hne : ∑ b ∈ Finset.range A.next, (own b).count a ≠ 0 := fun h0 =>
        hpos a c hc (hrefs.trans h0)
      obtain ⟨b, hb, hcount⟩ := Finset.exists_ne_zero_of_sum_ne_zero hne
      have hmem : a ∈ own b := List.count_pos_iff.mp (Nat.pos_of_ne_zero hcount)
      obtain ⟨d, hd⟩ := Option.isSome_iff_exists.mp (h.owner_live hmem)
      rcases h.full b d hd with heq | ⟨heq, -⟩
      · have hlt := h.older b d hd a (heq ▸ hmem)
        exact ih b (by omega) (h.owner_live hmem)
      · rw [heq] at hmem
        cases hmem
  exact hdown A.next a (Nat.le_add_left _ _)

end Tally

end BaseCode.Foundation
