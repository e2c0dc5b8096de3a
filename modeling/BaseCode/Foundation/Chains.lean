import Mathlib.Data.List.Nodup
import Mathlib.Logic.Function.Basic
import Mathlib.Logic.Relation

/-!
# Doubly linked chains

Cells at addresses of a heap, each with the addresses of its two neighbours. A segment is
followed along `next` and checked against `prev` on the way; it can be cut anywhere and put
together again, and changing the link at one of its ends moves that end. A chain is a segment
from nothing to nothing that visits no cell twice.
-/

namespace BaseCode.Foundation

structure Link (β : Type) where
  data : β
  prev : Option Nat
  next : Option Nat
  deriving DecidableEq, Repr

variable {β : Type} {heap heap' : Nat → Option (Link β)}
  {front front' first back back' mid head : Option Nat} {a b x z : Nat} {as bs : List Nat}
  {c : Link β}

/-- The cells `as`, the first of them at `first` with `front` before it, the last of them with
`back` behind it. -/
def Segment (heap : Nat → Option (Link β)) (front first : Option Nat) :
    List Nat → Option Nat → Prop
  | [], back => first = back
  | a :: as, back => first = some a ∧
      ∃ c, heap a = some c ∧ c.prev = front ∧ Segment heap (some a) c.next as back

/-- What lies before the cell that follows the cells `as`. -/
def lastOr (front : Option Nat) : List Nat → Option Nat
  | [] => front
  | a :: as => lastOr (some a) as

@[simp] theorem lastOr_append_singleton : lastOr front (as ++ [z]) = some z := by
  induction as generalizing front with
  | nil => rfl
  | cons a as ih => exact ih

theorem exists_of_lastOr (h : lastOr none as = some z) : ∃ as', as = as' ++ [z] := by
  rcases List.eq_nil_or_concat as with rfl | ⟨as', z', rfl⟩
  · cases h
  · rw [List.concat_eq_append] at h ⊢
    rw [lastOr_append_singleton] at h
    cases h
    exact ⟨as', rfl⟩

/-- The cell at `b`, if there is one, gets a new `next`. -/
def setNext (heap : Nat → Option (Link β)) (b back : Option Nat) (a : Nat) : Option (Link β) :=
  if b = some a then (heap a).map fun c => { c with next := back } else heap a

/-- The cell at `b`, if there is one, gets a new `prev`. -/
def setPrev (heap : Nat → Option (Link β)) (b front : Option Nat) (a : Nat) : Option (Link β) :=
  if b = some a then (heap a).map fun c => { c with prev := front } else heap a

theorem setNext_self (h : heap a = some c) :
    setNext heap (some a) back a = some { c with next := back } := by
  simp [setNext, h]

theorem setNext_of_ne (h : front ≠ some a) : setNext heap front back a = heap a := if_neg h

theorem setPrev_self (h : heap a = some c) :
    setPrev heap (some a) front a = some { c with prev := front } := by
  simp [setPrev, h]

theorem setPrev_of_ne (h : back ≠ some a) : setPrev heap back front a = heap a := if_neg h

@[simp] theorem setNext_none : setNext heap none back = heap :=
  funext fun _ => setNext_of_ne (by simp)

@[simp] theorem setPrev_none : setPrev heap none front = heap :=
  funext fun _ => setPrev_of_ne (by simp)

/-- Links apart, the cells stay as they are. -/
@[simp] theorem map_data_setNext :
    (setNext heap front back a).map Link.data = (heap a).map Link.data := by
  simp only [setNext]
  split <;> simp [Function.comp_def]

@[simp] theorem map_data_setPrev :
    (setPrev heap back front a).map Link.data = (heap a).map Link.data := by
  simp only [setPrev]
  split <;> simp [Function.comp_def]

namespace Segment

theorem congr (h : Segment heap front first as back) (hsame : ∀ a ∈ as, heap' a = heap a) :
    Segment heap' front first as back := by
  induction as generalizing front first with
  | nil => exact h
  | cons a as ih =>
    obtain ⟨hfirst, c, hc, hprev, hrest⟩ := h
    refine ⟨hfirst, c, ?_, hprev, ih hrest fun b hb => hsame b (List.mem_cons_of_mem _ hb)⟩
    rw [hsame a List.mem_cons_self]
    exact hc

/-- A segment is cut and put together. -/
theorem append_iff :
    Segment heap front first (as ++ bs) back ↔
      ∃ mid, Segment heap front first as mid ∧ Segment heap (lastOr front as) mid bs back := by
  induction as generalizing front first with
  | nil => simp [Segment, lastOr]
  | cons a as ih =>
    simp only [List.cons_append, Segment, lastOr, ih]
    constructor
    · rintro ⟨hfirst, c, hc, hprev, mid, h1, h2⟩
      exact ⟨mid, ⟨hfirst, c, hc, hprev, h1⟩, h2⟩
    · rintro ⟨mid, ⟨hfirst, c, hc, hprev, h1⟩, h2⟩
      exact ⟨hfirst, c, hc, hprev, mid, h1, h2⟩

/-- The cell in the middle, with what is on its two sides. -/
theorem split (h : Segment heap front first (as ++ x :: bs) back) :
    ∃ c, heap x = some c ∧ c.prev = lastOr front as ∧
      Segment heap front first as (some x) ∧ Segment heap (some x) c.next bs back := by
  obtain ⟨mid, h1, rfl, c, hc, hprev, h2⟩ := append_iff.mp h
  exact ⟨c, hc, hprev, h1, h2⟩

theorem exists_cell (h : Segment heap front first as back) (ha : a ∈ as) :
    ∃ c, heap a = some c := by
  obtain ⟨as, bs, rfl⟩ := List.append_of_mem ha
  obtain ⟨c, hc, -⟩ := h.split
  exact ⟨c, hc⟩

/-- The `next` of the last cell is set. -/
theorem setNext (h : Segment heap front first (as ++ [z]) back) (hz : z ∉ as) :
    Segment (Foundation.setNext heap (some z) back') front first (as ++ [z]) back' := by
  obtain ⟨c, hc, hprev, h1, -⟩ := h.split
  refine append_iff.mpr ⟨some z, ?_, rfl, _, setNext_self hc, hprev, rfl⟩
  refine h1.congr fun b hb => setNext_of_ne ?_
  rintro heq
  cases heq
  exact hz hb

/-- The `prev` of the first cell is set. -/
theorem setPrev (h : Segment heap front first (a :: as) back) (ha : a ∉ as) :
    Segment (Foundation.setPrev heap (some a) front') front' first (a :: as) back := by
  obtain ⟨hfirst, c, hc, -, hrest⟩ := h
  refine ⟨hfirst, _, setPrev_self hc, rfl, ?_⟩
  refine hrest.congr fun b hb => setPrev_of_ne ?_
  rintro heq
  cases heq
  exact ha hb

end Segment

/-- A doubly linked list that starts at `head`: nothing is before its first cell and behind its
last, and no cell is visited twice. -/
structure Chain (heap : Nat → Option (Link β)) (head : Option Nat) (nodes : List Nat) : Prop where
  segment : Segment heap none head nodes none
  nodup : nodes.Nodup

namespace Chain

variable {nodes : List Nat} {d : β}

/-- A new cell is hooked in behind the last one. -/
theorem append (h : Chain heap head nodes) (hx : x ∉ nodes)
    (hlast : lastOr none nodes = back) :
    Chain (setNext (Function.update heap x (some ⟨d, back, none⟩)) back (some x))
      (if back = none then some x else head) (nodes ++ [x]) := by
  have hcell : Function.update heap x (some ⟨d, back, none⟩) x = some ⟨d, back, none⟩ :=
    Function.update_self ..
  have hsame : Segment (Function.update heap x (some ⟨d, back, none⟩)) none head nodes none := by
    refine h.segment.congr fun a ha => Function.update_of_ne ?_ ..
    rintro rfl
    exact hx ha
  refine ⟨Segment.append_iff.mpr ⟨some x, ?_, rfl, ⟨d, back, none⟩, ?_, hlast.symm, rfl⟩, ?_⟩
  · rcases List.eq_nil_or_concat nodes with rfl | ⟨as, z, rfl⟩
    · obtain rfl : none = back := hlast
      exact if_pos rfl
    · rw [List.concat_eq_append] at *
      obtain rfl : some z = back := by rw [← hlast, lastOr_append_singleton]
      rw [if_neg (by simp)]
      exact hsame.setNext (List.nodup_append.mp h.nodup |>.2.2 z · z (List.mem_singleton_self z) rfl)
  · rw [setNext_of_ne, hcell]
    rintro rfl
    obtain ⟨as, rfl⟩ := exists_of_lastOr hlast
    exact hx (List.mem_append_right _ (List.mem_singleton_self x))
  · exact List.nodup_append.mpr ⟨h.nodup, List.nodup_singleton x, by
      rintro a ha b hb rfl
      rw [List.mem_singleton] at hb
      exact hx (hb ▸ ha)⟩

/-- The neighbours of a cell are linked to each other in its place. -/
theorem erase (h : Chain heap head (as ++ x :: bs)) (hc : heap x = some c) :
    Chain (setPrev (setNext heap c.prev c.next) c.next c.prev)
      (if c.prev = none then c.next else head) (as ++ bs) := by
  obtain ⟨c', hc', hprev, h1, h2⟩ := h.segment.split
  obtain rfl : c' = c := Option.some.inj (hc'.symm.trans hc)
  have hnodup : (as ++ bs).Nodup := h.nodup.sublist (by simp)
  obtain ⟨hnda, hndb, hdisj⟩ := List.nodup_append.mp hnodup
  -- the part before the cell ends where the part behind it starts
  have hleft : Segment (setNext heap c'.prev c'.next) none
      (if c'.prev = none then c'.next else head) as c'.next := by
    rcases List.eq_nil_or_concat as with rfl | ⟨as, p, rfl⟩
    · exact if_pos hprev
    · rw [List.concat_eq_append] at *
      rw [lastOr_append_singleton] at hprev
      rw [hprev, if_neg (by simp)]
      exact h1.setNext fun hp =>
        (List.nodup_append.mp hnda).2.2 p hp p (List.mem_singleton_self p) rfl
  have hright : Segment (setNext heap c'.prev c'.next) (some x) c'.next bs none := by
    refine h2.congr fun b hb => setNext_of_ne ?_
    intro heq
    obtain ⟨as', rfl⟩ := exists_of_lastOr (hprev.symm.trans heq)
    exact hdisj b (List.mem_append_right _ (List.mem_singleton_self b)) b hb rfl
  refine ⟨Segment.append_iff.mpr ⟨c'.next, ?_, ?_⟩, hnodup⟩
  · refine hleft.congr fun a ha => setPrev_of_ne ?_
    intro heq
    cases bs with
    | nil =>
      rw [show c'.next = none from h2] at heq
      cases heq
    | cons b bs =>
      obtain rfl : b = a := Option.some.inj (h2.1.symm.trans heq)
      exact hdisj b ha b List.mem_cons_self rfl
  · rw [← hprev]
    cases bs with
    | nil => exact h2
    | cons b bs =>
      have hfirst : c'.next = some b := h2.1
      rw [hfirst] at hright ⊢
      exact hright.setPrev (List.nodup_cons.mp hndb).1

theorem eq_nil (h : Chain heap none nodes) : nodes = [] := by
  cases nodes with
  | nil => rfl
  | cons a as => cases h.segment.1

theorem head_eq (h : Chain heap head nodes) : head = nodes.head? := by
  cases nodes with
  | nil => exact h.segment
  | cons a as => exact h.segment.1

theorem mem_of_head (h : Chain heap head nodes) (ha : head = some a) : a ∈ nodes :=
  List.mem_of_head? (h.head_eq.symm.trans ha)

/-- A cell is hooked in before the first one. -/
theorem prepend (h : Chain heap head nodes) (hx : x ∉ nodes) :
    Chain (setPrev (Function.update heap x (some ⟨d, none, head⟩)) head (some x)) (some x)
      (x :: nodes) := by
  have hhead : head ≠ some x := fun heq => hx (h.mem_of_head heq)
  have hsame : Segment (Function.update heap x (some ⟨d, none, head⟩)) none head nodes none := by
    refine h.segment.congr fun a ha => Function.update_of_ne ?_ ..
    rintro rfl
    exact hx ha
  refine ⟨⟨rfl, ⟨d, none, head⟩, ?_, rfl, ?_⟩, List.nodup_cons.mpr ⟨hx, h.nodup⟩⟩
  · rw [setPrev_of_ne hhead, Function.update_self]
  · cases nodes with
    | nil => exact h.segment
    | cons a as =>
      rw [h.segment.1] at hsame ⊢
      exact hsame.setPrev (List.nodup_cons.mp h.nodup).1

/-- Two chains are joined by a cell between them. -/
theorem glue {head' : Option Nat} (h : Chain heap head as) (h' : Chain heap head' bs)
    (hc : heap x = some c) (hdisj : (as ++ x :: bs).Nodup) :
    Chain (setPrev (setNext (setNext (setPrev heap (some x) (lastOr none as)) (lastOr none as)
        (some x)) (some x) head') head' (some x))
      (if as = [] then some x else head) (as ++ x :: bs) := by
  obtain ⟨hnda, hndb, hcross⟩ := List.nodup_append.mp hdisj
  obtain ⟨hxb, hndb⟩ := List.nodup_cons.mp hndb
  have hxa : x ∉ as := fun hxa => hcross x hxa x List.mem_cons_self rfl
  have hlast : ∀ b, b ∉ as → lastOr none as ≠ some b := by
    rintro b hb heq
    obtain ⟨as', rfl⟩ := exists_of_lastOr heq
    exact hb (List.mem_append_right _ (List.mem_singleton_self b))
  have hfirst : ∀ b, b ∉ bs → head' ≠ some b := fun b hb heq => hb (h'.mem_of_head heq)
  have hne : ∀ b, b ≠ x → some x ≠ some b := fun b hb heq => hb (Option.some.inj heq).symm
  refine ⟨Segment.append_iff.mpr ⟨some x, ?_, rfl, ⟨c.data, lastOr none as, head'⟩, ?_, rfl, ?_⟩,
    hdisj⟩
  · rcases List.eq_nil_or_concat as with rfl | ⟨as, z, rfl⟩
    · exact if_pos rfl
    · rw [List.concat_eq_append] at *
      rw [if_neg (by simp), lastOr_append_singleton]
      have hzas : z ∉ as := fun hz =>
        (List.nodup_append.mp hnda).2.2 z hz z (List.mem_singleton_self z) rfl
      refine (h.segment.setNext hzas).congr fun b hb => ?_
      have hbx : b ≠ x := fun heq => hxa (heq ▸ hb)
      have hbb : b ∉ bs := fun hmem => hcross b hb b (List.mem_cons_of_mem _ hmem) rfl
      rw [setPrev_of_ne (hfirst b hbb), setNext_of_ne (hne b hbx)]
      simp only [Foundation.setNext, setPrev_of_ne (hne b hbx)]
  · have hcell : setNext (setPrev heap (some x) (lastOr none as)) (lastOr none as) (some x) x =
        some { c with prev := lastOr none as } := by
      rw [setNext_of_ne (hlast x hxa), setPrev_self hc]
    rw [setPrev_of_ne (hfirst x hxb), setNext_self hcell]
  · have hsame : ∀ b ∈ bs, setPrev (setNext (setNext (setPrev heap (some x) (lastOr none as))
        (lastOr none as) (some x)) (some x) head') head' (some x) b =
        setPrev heap head' (some x) b := by
      intro b hb
      have hbx : b ≠ x := fun heq => hxb (heq ▸ hb)
      have hba : b ∉ as := fun hmem => hcross b hmem b (List.mem_cons_of_mem _ hb) rfl
      simp only [Foundation.setPrev, setNext_of_ne (hne b hbx), setNext_of_ne (hlast b hba),
        if_neg (hne b hbx)]
    refine Segment.congr ?_ hsame
    cases bs with
    | nil => exact h'.segment
    | cons b bs =>
      have hb : head' = some b := h'.segment.1
      have hseg := h'.segment
      rw [hb] at hseg ⊢
      exact hseg.setPrev (List.nodup_cons.mp hndb).1

theorem head_prev (h : Chain heap head nodes) (ha : head = some a) (hc : heap a = some c) :
    c.prev = none := by
  cases nodes with
  | nil => cases (h.segment : head = none).symm.trans ha
  | cons b bs =>
    obtain ⟨hfirst, c', hc', hprev, -⟩ := h.segment
    obtain rfl : b = a := Option.some.inj (hfirst.symm.trans ha)
    obtain rfl : c' = c := Option.some.inj (hc'.symm.trans hc)
    exact hprev

/-- What `next` leads to is in the chain, and leads back. -/
theorem prev_of_next (h : Chain heap head nodes) (ha : a ∈ nodes) (hc : heap a = some c)
    (hb : c.next = some b) : b ∈ nodes ∧ ∃ c', heap b = some c' ∧ c'.prev = some a := by
  obtain ⟨as, bs, rfl⟩ := List.append_of_mem ha
  obtain ⟨c', hc', -, -, h2⟩ := h.segment.split
  obtain rfl : c' = c := Option.some.inj (hc'.symm.trans hc)
  cases bs with
  | nil => cases (h2 : c'.next = none).symm.trans hb
  | cons b' bs =>
    obtain ⟨hfirst, d, hd, hprev, -⟩ := h2
    obtain rfl : b' = b := Option.some.inj (hfirst.symm.trans hb)
    exact ⟨by simp, d, hd, hprev⟩

/-- What `prev` leads to is in the chain, and leads back. -/
theorem next_of_prev (h : Chain heap head nodes) (ha : a ∈ nodes) (hc : heap a = some c)
    (hb : c.prev = some b) : b ∈ nodes ∧ ∃ c', heap b = some c' ∧ c'.next = some a := by
  obtain ⟨as, bs, rfl⟩ := List.append_of_mem ha
  obtain ⟨c', hc', hprev, h1, -⟩ := h.segment.split
  obtain rfl : c' = c := Option.some.inj (hc'.symm.trans hc)
  obtain ⟨as', rfl⟩ := exists_of_lastOr (hprev.symm.trans hb)
  obtain ⟨d, hd, -, -, hnext⟩ := h1.split
  exact ⟨by simp, d, hd, hnext⟩

/-- One step along a link, in either direction. -/
def Touches (heap : Nat → Option (Link β)) (a b : Nat) : Prop :=
  ∃ c, heap a = some c ∧ (c.next = some b ∨ c.prev = some b)

/-- No cell outside the chain can be reached from its head. -/
theorem mem_of_reaches (h : Chain heap head nodes) (ha : head = some a)
    (hr : Relation.ReflTransGen (Touches heap) a b) : b ∈ nodes := by
  induction hr with
  | refl => exact h.mem_of_head ha
  | tail _ hstep ih =>
    obtain ⟨c, hc, hnext | hprev⟩ := hstep
    · exact (h.prev_of_next ih hc hnext).1
    · exact (h.next_of_prev ih hc hprev).1

end Chain

/-- The cells met along `next`, at most `fuel` of them. -/
def follow (heap : Nat → Option (Link β)) : Nat → Option Nat → List Nat
  | fuel + 1, some a =>
    match heap a with
    | some c => a :: follow heap fuel c.next
    | none => []
  | _, _ => []

theorem Segment.follow_eq (h : Segment heap front first as none) {fuel : Nat}
    (hfuel : as.length ≤ fuel) : follow heap fuel first = as := by
  induction as generalizing front first fuel with
  | nil =>
    obtain rfl : first = none := h
    cases fuel <;> rfl
  | cons a as ih =>
    obtain ⟨rfl, c, hc, -, hrest⟩ := h
    cases fuel with
    | zero => exact absurd hfuel (Nat.not_succ_le_zero _)
    | succ fuel => simp only [follow, hc, ih hrest (Nat.le_of_succ_le_succ hfuel)]

end BaseCode.Foundation
