import BaseCode.Foundation.Comparators
import BaseCode.Comm.LinkedList

/-!
# Sorting the linked list

`list_sort_internal` of `src/comm/list.c`: the entries behind the first one are moved, one by
one, to the front of one of two lists, these are sorted, and the first entry is linked in
between. Only links change, so the result is read off the chains before and after.
-/

namespace BaseCode.Comm
open Foundation

variable {α : Type}

/-- `rover` becomes the first entry of a list. -/
def listPush (A : Arena (ListEntry α)) (rover : Nat) (list : Option Nat) :
    Option (Arena (ListEntry α)) := do
  let e ← A.cells rover
  setNextPrev (A.set rover { e with prev := none, next := list }) list (some rover)

/-- The loop over the entries behind the pivot; the two lists it makes. -/
def listSortSplit (compareFunc : α → α → Int) (pivot : Nat) :
    Nat → Arena (ListEntry α) → Option Nat → Option Nat → Option Nat →
      Option (Arena (ListEntry α) × Option Nat × Option Nat)
  | _, A, none, less, more => some (A, less, more)
  | 0, _, some _, _, _ => none
  | fuel + 1, A, some rover, less, more => do
    let e ← A.cells rover
    let p ← A.cells pivot
    if compareFunc e.data p.data < 0 then
      let A ← listPush A rover less
      listSortSplit compareFunc pivot fuel A e.next (some rover) more
    else
      let A ← listPush A rover more
      listSortSplit compareFunc pivot fuel A e.next less (some rover)

/-- The pivot goes behind the less list; the result is the start of the new list. -/
def listHookPivot (A : Arena (ListEntry α)) (pivot : Nat) (less lessEnd : Option Nat) :
    Option (Arena (ListEntry α) × Option Nat) := do
  let p ← A.cells pivot
  match less with
  | none => some (A.set pivot { p with prev := none }, some pivot)
  | some first =>
    let A := A.set pivot { p with prev := lessEnd }
    let last ← lessEnd
    let e ← A.cells last
    some (A.set last { e with next := some pivot }, some first)

/-- The entries, the start of the list and its last entry. The fuel bounds the recursion. -/
def listSortInternal (compareFunc : α → α → Int) :
    Nat → Arena (ListEntry α) → Option Nat →
      Option (Arena (ListEntry α) × Option Nat × Option Nat)
  | 0, _, _ => none
  | _ + 1, A, none => some (A, none, none)
  | fuel + 1, A, some pivot => do
    let p ← A.cells pivot
    match p.next with
    | none => some (A, some pivot, some pivot)
    | some _ =>
      let (A, less, more) ← listSortSplit compareFunc pivot A.next A p.next none none
      let (A, less, lessEnd) ← listSortInternal compareFunc fuel A less
      let (A, more, moreEnd) ← listSortInternal compareFunc fuel A more
      let (A, list) ← listHookPivot A pivot less lessEnd
      let p ← A.cells pivot
      let A ← setNextPrev (A.set pivot { p with next := more }) more (some pivot)
      some (A, list, if more = none then some pivot else moreEnd)

def listSort (compareFunc : α → α → Int) (l : ListHeap α) : Option (ListHeap α) := do
  let (A, list, _) ← listSortInternal compareFunc (l.entries.next + 1) l.entries l.list
  some ⟨A, list⟩

section Specs

variable {A A' B : Arena (ListEntry α)} {nodes as bs rs ls ms : List Nat} {x : Nat}
  {list front rover less more : Option Nat} {d : Nat → α}

/-- Only links of the entries `nodes` have changed. -/
structure Relinked (A A' : Arena (ListEntry α)) (nodes : List Nat) : Prop where
  next_eq : A'.next = A.next
  frees_eq : A'.frees = A.frees
  data_eq : dataAt A' = dataAt A
  frame : ∀ b, b ∉ nodes → A'.cells b = A.cells b

namespace Relinked

theorem refl (A : Arena (ListEntry α)) (nodes : List Nat) : Relinked A A nodes :=
  ⟨rfl, rfl, rfl, fun _ _ => rfl⟩

theorem trans (h : Relinked A A' nodes) (h' : Relinked A' B nodes) : Relinked A B nodes where
  next_eq := h'.next_eq.trans h.next_eq
  frees_eq := h'.frees_eq.trans h.frees_eq
  data_eq := h'.data_eq.trans h.data_eq
  frame b hb := (h'.frame b hb).trans (h.frame b hb)

theorem mono (h : Relinked A A' as) (hsub : as ⊆ bs) : Relinked A A' bs :=
  ⟨h.next_eq, h.frees_eq, h.data_eq, fun b hb => h.frame b fun hmem => hb (hsub hmem)⟩

/-- A chain away from the changes stays. -/
theorem chain (h : Relinked A A' nodes) (hc : Chain A.cells list as)
    (hdisj : ∀ a ∈ as, a ∉ nodes) : Chain A'.cells list as :=
  ⟨hc.segment.congr fun a ha => h.frame a (hdisj a ha), hc.nodup⟩

/-- New links for an entry. -/
theorem set {c : ListEntry α} (hc : A.cells x = some c) (prev next : Option Nat) :
    Relinked A (A.set x ⟨c.data, prev, next⟩) [x] where
  next_eq := rfl
  frees_eq := rfl
  data_eq := by
    funext b
    by_cases hb : b = x
    · subst hb
      simp [dataAt, Arena.set, hc]
    · simp [dataAt, Arena.set, Function.update_of_ne hb]
  frame b hb := by
    rw [List.mem_singleton] at hb
    exact Function.update_of_ne hb ..

end Relinked

theorem setNextPrev_relinked (h : ∀ n, list = some n → A.Live n) (nodes : List Nat)
    (front : Option Nat) (hmem : ∀ n, list = some n → n ∈ nodes) :
    ∃ A', setNextPrev A list front = some A' ∧ A'.cells = setPrev A.cells list front ∧
      Relinked A A' nodes := by
  cases list with
  | none => exact ⟨A, rfl, setPrev_none.symm, .refl A nodes⟩
  | some n =>
    obtain ⟨c, hc⟩ := Option.isSome_iff_exists.mp (h n rfl)
    refine ⟨A.set n { c with prev := front }, ?_, cells_set_prev hc, ?_⟩
    · simp only [setNextPrev, hc]
      rfl
    · refine (Relinked.set hc front c.next).mono ?_
      simpa using hmem n rfl

theorem live_head {A : Arena (ListEntry α)} (h : Chain A.cells list as) :
    ∀ n, list = some n → A.Live n := by
  intro n hn
  obtain ⟨c, hc⟩ := h.segment.exists_cell (h.mem_of_head hn)
  exact Option.isSome_iff_exists.mpr ⟨c, hc⟩

theorem listPush_spec {c : ListEntry α} (h : Chain A.cells list as) (hx : x ∉ as)
    (hc : A.cells x = some c) :
    ∃ A', listPush A x list = some A' ∧ Chain A'.cells (some x) (x :: as) ∧
      Relinked A A' (x :: as) := by
  have hset := Relinked.set hc none list
  have hchain := hset.chain h fun a ha hmem => hx (List.mem_singleton.mp hmem ▸ ha)
  obtain ⟨A', hA', hcells, hrel⟩ := setNextPrev_relinked (live_head hchain) (x :: as)
    (some x) fun n hn => List.mem_cons_of_mem _ (h.mem_of_head hn)
  refine ⟨A', ?_, ?_, (hset.mono (by simp)).trans hrel⟩
  · simp only [listPush, hc, Option.bind_eq_bind, Option.bind_some]
    exact hA'
  · rw [hcells]
    exact h.prepend hx

/-- The loop takes the entries `rs` over to the two lists, the last of them in front. -/
theorem listSortSplit_spec (compareFunc : α → α → Int) {pivot : Nat}
    (hd : ∀ a ∈ pivot :: rs, dataAt A a = some (d a))
    (hrs : Segment A.cells front rover rs none) (hls : Chain A.cells less ls)
    (hms : Chain A.cells more ms) (hnd : (pivot :: (rs ++ (ls ++ ms))).Nodup) {fuel : Nat}
    (hfuel : rs.length ≤ fuel) :
    ∃ A' less' more', listSortSplit compareFunc pivot fuel A rover less more =
        some (A', less', more') ∧
      Chain A'.cells less' ((rs.filter fun a => compareFunc (d a) (d pivot) < 0).reverse ++ ls) ∧
      Chain A'.cells more' ((rs.filter fun a => ¬ compareFunc (d a) (d pivot) < 0).reverse ++ ms) ∧
      Relinked A A' (rs ++ (ls ++ ms)) := by
  induction rs generalizing A front rover less more ls ms fuel with
  | nil =>
    obtain rfl : rover = none := hrs
    refine ⟨A, less, more, ?_, hls, hms, .refl A _⟩
    cases fuel <;> rfl
  | cons r rs ih =>
    obtain ⟨rfl, c, hc, -, hrest⟩ := hrs
    obtain ⟨fuel, rfl⟩ := Nat.exists_eq_succ_of_ne_zero (Nat.ne_of_gt (Nat.zero_lt_of_lt hfuel))
    have hfuel' : rs.length ≤ fuel := Nat.le_of_succ_le_succ hfuel
    obtain ⟨p, hp, hpd⟩ := Option.map_eq_some_iff.mp (hd pivot List.mem_cons_self)
    have hcd : c.data = d r := by
      simpa [dataAt, hc] using hd r (List.mem_cons_of_mem _ List.mem_cons_self)
    obtain ⟨hr, hnd'⟩ : r ∉ rs ++ (ls ++ ms) ∧ (rs ++ (ls ++ ms)).Nodup :=
      List.nodup_cons.mp (List.nodup_cons.mp hnd).2
    simp only [List.mem_append, not_or] at hr
    obtain ⟨hrrs, hrls, hrms⟩ := hr
    obtain ⟨-, hlm, hcross⟩ := List.nodup_append.mp hnd'
    -- what the push leaves of the rest, for either list
    have hkeep : ∀ (A₁ : Arena (ListEntry α)) (side : List Nat), side ⊆ ls ++ ms →
        Relinked A A₁ (r :: side) → (∀ a ∈ pivot :: rs, dataAt A₁ a = some (d a)) ∧
          Segment A₁.cells (some r) c.next rs none := by
      intro A₁ side hside hrel
      refine ⟨fun a ha => ?_, hrest.congr fun a ha => hrel.frame a fun hmem => ?_⟩
      · rw [hrel.data_eq]
        rcases List.mem_cons.mp ha with rfl | ha
        · exact hd _ List.mem_cons_self
        · exact hd a (List.mem_cons_of_mem _ (List.mem_cons_of_mem _ ha))
      · rcases List.mem_cons.mp hmem with rfl | hmem
        · exact hrrs ha
        · exact hcross a ha a (hside hmem) rfl
    by_cases hlt : compareFunc (d r) (d pivot) < 0
    · obtain ⟨A₁, hpush, hls₁, hrel⟩ := listPush_spec hls hrls hc
      have hms₁ : Chain A₁.cells more ms := hrel.chain hms fun a ha hmem => by
        rcases List.mem_cons.mp hmem with rfl | hmem
        · exact hrms ha
        · exact (List.nodup_append.mp hlm).2.2 a hmem a ha rfl
      obtain ⟨hd₁, hrs₁⟩ := hkeep A₁ ls (List.subset_append_left _ _) hrel
      have hperm : (pivot :: (rs ++ (r :: ls ++ ms))).Perm (pivot :: (r :: rs ++ (ls ++ ms))) :=
        List.Perm.cons _ List.perm_middle
      obtain ⟨A', less', more', heq, hl', hm', hrel'⟩ :=
        ih hd₁ hrs₁ hls₁ hms₁ (hperm.nodup_iff.mpr hnd) hfuel'
      refine ⟨A', less', more', ?_, ?_, ?_, ?_⟩
      · simp only [listSortSplit, hc, hp, hcd, hpd, hlt, hpush, heq, Option.bind_eq_bind,
          Option.bind_some, if_true]
      · simpa [hlt] using hl'
      · simpa [hlt] using hm'
      · refine (hrel.mono ?_).trans (hrel'.mono ?_)
        · intro a
          simp
          tauto
        · intro a
          simp
          tauto
    · obtain ⟨A₁, hpush, hms₁, hrel⟩ := listPush_spec hms hrms hc
      have hls₁ : Chain A₁.cells less ls := hrel.chain hls fun a ha hmem => by
        rcases List.mem_cons.mp hmem with rfl | hmem
        · exact hrls ha
        · exact (List.nodup_append.mp hlm).2.2 a ha a hmem rfl
      obtain ⟨hd₁, hrs₁⟩ := hkeep A₁ ms (List.subset_append_right _ _) hrel
      have hperm : (pivot :: (rs ++ (ls ++ r :: ms))).Perm (pivot :: (r :: rs ++ (ls ++ ms))) := by
        refine List.Perm.cons _ ?_
        rw [← List.append_assoc, List.cons_append, ← List.append_assoc]
        exact List.perm_middle
      obtain ⟨A', less', more', heq, hl', hm', hrel'⟩ :=
        ih hd₁ hrs₁ hls₁ hms₁ (hperm.nodup_iff.mpr hnd) hfuel'
      refine ⟨A', less', more', ?_, ?_, ?_, ?_⟩
      · simp only [listSortSplit, hc, hp, hcd, hpd, hlt, hpush, heq, Option.bind_eq_bind,
          Option.bind_some, if_false]
      · simpa [hlt] using hl'
      · simpa [Int.not_lt.mp hlt] using hm'
      · refine (hrel.mono ?_).trans (hrel'.mono ?_)
        · intro a
          simp
          tauto
        · intro a
          simp
          tauto

theorem listHookPivot_spec {pivot : Nat} {p : ListEntry α} (hls : Chain A.cells less ls)
    (hp : A.cells pivot = some p) (hpiv : pivot ∉ ls) :
    ∃ A', listHookPivot A pivot less (lastOr none ls) =
        some (A', if ls = [] then some pivot else less) ∧
      A'.cells = setNext (setPrev A.cells (some pivot) (lastOr none ls)) (lastOr none ls)
        (some pivot) ∧
      Relinked A A' (pivot :: ls) := by
  rcases List.eq_nil_or_concat ls with rfl | ⟨ls, z, rfl⟩
  · obtain rfl : less = none := hls.segment
    refine ⟨A.set pivot { p with prev := none }, ?_, ?_, (Relinked.set hp none p.next).mono ?_⟩
    · simp only [listHookPivot, hp, Option.bind_eq_bind, Option.bind_some, if_true]
    · rw [cells_set_prev hp]
      exact setNext_none.symm
    · simp
  · rw [List.concat_eq_append] at *
    obtain ⟨first, hfirst⟩ : ∃ first, less = some first := by
      cases hl : less with
      | none =>
        rw [hl] at hls
        exact absurd hls.eq_nil (by simp)
      | some first => exact ⟨first, rfl⟩
    have hzmem : z ∈ ls ++ [z] := List.mem_append_right _ (List.mem_singleton_self z)
    obtain ⟨e, he⟩ := hls.segment.exists_cell hzmem
    have hne : z ≠ pivot := fun heq => hpiv (heq ▸ hzmem)
    have hset := Relinked.set hp (some z) p.next
    have he' : (A.set pivot { p with prev := some z }).cells z = some e :=
      (hset.frame z (by simpa using hne)).trans he
    refine ⟨(A.set pivot { p with prev := some z }).set z { e with next := some pivot }, ?_, ?_, ?_⟩
    · simp only [listHookPivot, hp, hfirst, lastOr_append_singleton, he', Option.bind_eq_bind,
        Option.bind_some]
      simp
    · rw [cells_set_next he', cells_set_prev hp, lastOr_append_singleton]
    · refine (hset.mono (by simp)).trans ((Relinked.set he' e.prev (some pivot)).mono ?_)
      simp

/-- Both lists are linked to the pivot. -/
theorem listJoin_spec {pivot : Nat} {p : ListEntry α} (hls : Chain A.cells less ls)
    (hms : Chain A.cells more ms) (hp : A.cells pivot = some p)
    (hnd : (ls ++ pivot :: ms).Nodup) :
    ∃ B p' A', listHookPivot A pivot less (lastOr none ls) =
        some (B, if ls = [] then some pivot else less) ∧ B.cells pivot = some p' ∧
      setNextPrev (B.set pivot { p' with next := more }) more (some pivot) = some A' ∧
      Chain A'.cells (if ls = [] then some pivot else less) (ls ++ pivot :: ms) ∧
      Relinked A A' (ls ++ pivot :: ms) := by
  obtain ⟨-, hpm, hcross⟩ := List.nodup_append.mp hnd
  have hpls : pivot ∉ ls := fun hmem => hcross pivot hmem pivot List.mem_cons_self rfl
  obtain ⟨B, hB, hBcells, hBrel⟩ := listHookPivot_spec hls hp hpls
  have hdB : dataAt B pivot = some p.data := by
    rw [hBrel.data_eq, dataAt, hp]
    rfl
  obtain ⟨p', hp', hpd⟩ := Option.map_eq_some_iff.mp hdB
  have hset := Relinked.set hp' p'.prev more
  have hms' : Chain (B.set pivot { p' with next := more }).cells more ms := by
    refine hset.chain (hBrel.chain hms fun a ha hmem => ?_) fun a ha hmem => ?_
    · rcases List.mem_cons.mp hmem with rfl | hmem
      · exact (List.nodup_cons.mp hpm).1 ha
      · exact hcross a hmem a (List.mem_cons_of_mem _ ha) rfl
    · obtain rfl := List.mem_singleton.mp hmem
      exact (List.nodup_cons.mp hpm).1 ha
  obtain ⟨A', hA', hcells, hrel⟩ := setNextPrev_relinked (live_head hms') ms
    (some pivot) fun n hn => hms.mem_of_head hn
  refine ⟨B, p', A', hB, hp', hA', ?_, ?_⟩
  · rw [hcells, cells_set_next hp', hBcells]
    exact hls.glue hms hp hnd
  · refine ((hBrel.mono ?_).trans (hset.mono ?_)).trans (hrel.mono ?_)
    · simp
    · simp
    · intro a ha
      simp [ha]

theorem lastOr_append_cons {as bs : List Nat} {x : Nat} :
    lastOr front (as ++ x :: bs) = if bs = [] then some x else lastOr none bs := by
  rcases List.eq_nil_or_concat bs with rfl | ⟨bs, z, rfl⟩
  · exact lastOr_append_singleton
  · rw [List.concat_eq_append, if_neg (by simp), lastOr_append_singleton, ← List.cons_append,
      ← List.append_assoc, lastOr_append_singleton]

theorem pairwise_append_cons {c : Comparator α} {pivot : Nat}
    (hls : ls.Pairwise fun a b => c.Le (d a) (d b)) (hms : ms.Pairwise fun a b => c.Le (d a) (d b))
    (hlp : ∀ a ∈ ls, c.Le (d a) (d pivot)) (hpm : ∀ b ∈ ms, c.Le (d pivot) (d b)) :
    (ls ++ pivot :: ms).Pairwise fun a b => c.Le (d a) (d b) := by
  refine List.pairwise_append.mpr ⟨hls, List.pairwise_cons.mpr ⟨hpm, hms⟩, fun a ha b hb => ?_⟩
  rcases List.mem_cons.mp hb with rfl | hb
  · exact hlp a ha
  · exact Comparator.le_trans (hlp a ha) (hpm b hb)

/-- The entries of a chain are put in order. -/
theorem listSortInternal_spec (c : Comparator α) (hd : ∀ a ∈ nodes, dataAt A a = some (d a))
    (h : Chain A.cells list nodes) {fuel : Nat} (hfuel : nodes.length < fuel)
    (hnext : nodes.length ≤ A.next) :
    ∃ A' list' nodes', listSortInternal c.compare fuel A list =
        some (A', list', lastOr none nodes') ∧
      Chain A'.cells list' nodes' ∧ nodes'.Perm nodes ∧
      (nodes'.Pairwise fun a b => c.Le (d a) (d b)) ∧ Relinked A A' nodes := by
  induction fuel generalizing A list nodes with
  | zero => exact absurd hfuel (Nat.not_lt_zero _)
  | succ fuel ih =>
    cases nodes with
    | nil =>
      obtain rfl : list = none := h.segment
      exact ⟨A, none, [], rfl, h, .nil, .nil, .refl A _⟩
    | cons pivot rs =>
      obtain ⟨rfl, e, he, -, hrest⟩ := h.segment
      cases rs with
      | nil =>
        refine ⟨A, some pivot, [pivot], ?_, h, .refl _, List.pairwise_singleton _ _, .refl A _⟩
        have hn : e.next = none := hrest
        simp only [listSortInternal, he, hn, Option.bind_eq_bind, Option.bind_some]
        rfl
      | cons r rs =>
        have hn : e.next = some r := hrest.1
        obtain ⟨hpiv, hndr⟩ := List.nodup_cons.mp h.nodup
        have hlen : (r :: rs).length < fuel := Nat.lt_of_succ_lt_succ hfuel
        have hlen' : (r :: rs).length ≤ A.next := Nat.le_of_succ_le hnext
        have hnil : Chain A.cells none [] := ⟨rfl, List.nodup_nil⟩
        have hsplit :=
          listSortSplit_spec c.compare hd hrest hnil hnil (by simpa using h.nodup) hlen'
        simp only [List.append_nil] at hsplit
        obtain ⟨A₁, less, more, hA₁, hls, hms, hrel₁⟩ := hsplit
        obtain ⟨ls, hlsdef⟩ : ∃ ls, ls =
          ((r :: rs).filter fun a => c.compare (d a) (d pivot) < 0).reverse := ⟨_, rfl⟩
        obtain ⟨ms, hmsdef⟩ : ∃ ms, ms =
          ((r :: rs).filter fun a => ¬ c.compare (d a) (d pivot) < 0).reverse := ⟨_, rfl⟩
        rw [← hlsdef] at hls
        rw [← hmsdef] at hms
        have hperm : (ls ++ ms).Perm (r :: rs) := by
          rw [hlsdef, hmsdef]
          refine ((List.reverse_perm _).append (List.reverse_perm _)).trans ?_
          simp only [decide_not]
          exact List.filter_append_perm _ _
        have hlm := hperm.length_eq
        rw [List.length_append] at hlm
        obtain ⟨-, -, hdisj⟩ := List.nodup_append.mp (hperm.nodup_iff.mpr hndr)
        have hmem : ∀ a, a ∈ ls ∨ a ∈ ms → a ∈ r :: rs := fun a ha =>
          hperm.mem_iff.mp (List.mem_append.mpr ha)
        have hd₁ : ∀ a ∈ r :: rs, dataAt A₁ a = some (d a) := fun a ha => by
          rw [hrel₁.data_eq]
          exact hd a (List.mem_cons_of_mem _ ha)
        obtain ⟨A₂, less', ls', hA₂, hls', hpl, hsl, hrel₂⟩ :=
          ih (fun a ha => hd₁ a (hmem a (.inl ha))) hls (by omega) (by rw [hrel₁.next_eq]; omega)
        have hms₂ := hrel₂.chain hms fun a ha hmem => hdisj a hmem a ha rfl
        obtain ⟨A₃, more', ms', hA₃, hms', hpm, hsm, hrel₃⟩ :=
          ih (fun a ha => by rw [hrel₂.data_eq]; exact hd₁ a (hmem a (.inr ha))) hms₂ (by omega)
            (by rw [hrel₂.next_eq, hrel₁.next_eq]; omega)
        have hls₃ := hrel₃.chain hls' fun a ha hmem => hdisj a (hpl.mem_iff.mp ha) a hmem rfl
        -- the entries and the pivot's own cell after all that
        have hrel : Relinked A A₃ (r :: rs) :=
          (hrel₁.trans (hrel₂.mono fun a ha => hmem a (.inl ha))).trans
            (hrel₃.mono fun a ha => hmem a (.inr ha))
        have hp : A₃.cells pivot = some e := (hrel.frame pivot hpiv).trans he
        have hperm' : (ls' ++ pivot :: ms').Perm (pivot :: r :: rs) :=
          List.perm_middle.trans (.cons _ ((hpl.append hpm).trans hperm))
        obtain ⟨B, p', A', hB, hp', hA', hchain, hrel'⟩ :=
          listJoin_spec hls₃ hms' hp (hperm'.nodup_iff.mpr h.nodup)
        refine ⟨A', _, ls' ++ pivot :: ms', ?_, hchain, hperm', ?_, ?_⟩
        · have hm : more' = none ↔ ms' = [] := by
            rw [hms'.head_eq, List.head?_eq_none_iff]
          simp only [listSortInternal, he, hn, Option.bind_eq_bind, Option.bind_some]
          rw [← hn, hA₁]
          simp only [Option.bind_some, hA₂, hA₃, hB, hp', hA', lastOr_append_cons, hm]
        · refine pairwise_append_cons hsl hsm (fun a ha => ?_) fun b hb => ?_
          · have := hpl.mem_iff.mp ha
            rw [hlsdef, List.mem_reverse, List.mem_filter] at this
            exact Comparator.le_of_lt (of_decide_eq_true this.2)
          · have := hpm.mem_iff.mp hb
            rw [hmsdef, List.mem_reverse, List.mem_filter] at this
            exact Comparator.not_lt_iff.mp (of_decide_eq_true this.2)
        · refine (hrel.mono (List.subset_cons_self _ _)).trans (hrel'.mono ?_)
          exact hperm'.subset

theorem listSort_spec (c : Comparator α) {l : ListHeap α}
    (hd : ∀ a ∈ nodes, dataAt l.entries a = some (d a)) (h : Chain l.entries.cells l.list nodes)
    (hlt : ∀ a ∈ nodes, a < l.entries.next) :
    ∃ l' nodes', listSort c.compare l = some l' ∧ Chain l'.entries.cells l'.list nodes' ∧
      nodes'.Perm nodes ∧ (nodes'.Pairwise fun a b => c.Le (d a) (d b)) ∧
      Relinked l.entries l'.entries nodes := by
  have hlen := length_le_next h.nodup hlt
  obtain ⟨A', list', nodes', heq, hchain, hperm, hsort, hrel⟩ :=
    listSortInternal_spec c hd h (Nat.lt_succ_of_le hlen) hlen
  refine ⟨⟨A', list'⟩, nodes', ?_, hchain, hperm, hsort, hrel⟩
  simp only [listSort, heq, Option.bind_eq_bind, Option.bind_some]

end Specs

end BaseCode.Comm
