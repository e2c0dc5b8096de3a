import Mathlib.Data.List.Perm.Subperm
import BaseCode.Foundation.Arena
import BaseCode.Foundation.Chains

/-!
# The doubly linked list

`src/comm/list.c`, pointer by pointer: `list_append`, `list_find_data` and this repository's
`list_remove_entry`, which unlinks an entry and does not free it. An operation gives `none` if
it follows a pointer to no entry, or if its loop is still running after as many turns as there
are entries. On a chain neither happens, and the operations are those of a sequence.
-/

namespace BaseCode.Comm
open Foundation

/-- `data`, `prev` and `next`. -/
abbrev ListEntry (α : Type) := Link α

/-- The entries allocated so far and the pointer to the first entry of the list. -/
structure ListHeap (α : Type) where
  entries : Arena (ListEntry α)
  list : Option Nat

variable {α : Type}

def ListHeap.empty : ListHeap α := ⟨.empty, none⟩

/-- The loop that finds the end of the list. -/
def findEnd (A : Arena (ListEntry α)) : Nat → Nat → Option Nat
  | 0, _ => none
  | fuel + 1, rover => do
    let e ← A.cells rover
    match e.next with
    | none => some rover
    | some next => findEnd A fuel next

/-- The new entry, or `none` for `NULL`, and the list. `prev` of the new entry is set on both
ways through. -/
def listAppend (l : ListHeap α) (data : α) (mallocOk : Bool) :
    Option (Option Nat × ListHeap α) :=
  if mallocOk then
    let newentry := l.entries.next
    let A := l.entries.alloc ⟨data, none, none⟩
    match l.list with
    | none => some (some newentry, ⟨A, some newentry⟩)
    | some first => do
      let rover ← findEnd A A.next first
      let A := A.set newentry ⟨data, some rover, none⟩
      let e ← A.cells rover
      some (some newentry, ⟨A.set rover { e with next := some newentry }, some first⟩)
  else some (none, l)

/-- `entry->next->prev = prev`, if there is a next entry. -/
def setNextPrev (A : Arena (ListEntry α)) (next prev : Option Nat) :
    Option (Arena (ListEntry α)) :=
  match next with
  | none => some A
  | some n => do
    let e ← A.cells n
    some (A.set n { e with prev := prev })

def listRemoveEntry (l : ListHeap α) (entry : Option Nat) : Option (Int × ListHeap α) :=
  match l.list, entry with
  | some _, some entry => do
    let e ← l.entries.cells entry
    match e.prev with
    | none =>
      let A ← setNextPrev l.entries e.next none
      some (1, ⟨A, e.next⟩)
    | some p =>
      let pe ← l.entries.cells p
      let A := l.entries.set p { pe with next := e.next }
      -- the entry is read again, after the write to its predecessor
      let e ← A.cells entry
      let A ← setNextPrev A e.next e.prev
      some (1, ⟨A, l.list⟩)
  | _, _ => some (0, l)

/-- The loop of `list_find_data`; `none` inside stands for `NULL`. The callback may fail too. -/
def findData (A : Arena (ListEntry α)) (callback : α → Option Bool) :
    Nat → Option Nat → Option (Option Nat)
  | _, none => some none
  | 0, some _ => none
  | fuel + 1, some rover => do
    let e ← A.cells rover
    if ← callback e.data then some (some rover) else findData A callback fuel e.next

def listFindData (l : ListHeap α) (callback : α → Option Bool) : Option (Option Nat) :=
  findData l.entries callback l.entries.next l.list

/-- What the entry at an address carries. -/
def dataAt (A : Arena (ListEntry α)) (a : Nat) : Option α := (A.cells a).map Link.data

section Specs

variable {A : Arena (ListEntry α)} {l : ListHeap α} {nodes as bs : List Nat} {front : Option Nat}
  {a x z : Nat} {c : ListEntry α} {back : Option Nat}

theorem cells_set_next (h : A.cells a = some c) :
    (A.set a { c with next := back }).cells = setNext A.cells (some a) back := by
  funext b
  simp only [Arena.set]
  by_cases hb : b = a
  · subst hb
    rw [Function.update_self, setNext_self h]
  · rw [Function.update_of_ne hb, setNext_of_ne fun heq => hb (Option.some.inj heq).symm]

theorem cells_set_prev (h : A.cells a = some c) :
    (A.set a { c with prev := front }).cells = setPrev A.cells (some a) front := by
  funext b
  simp only [Arena.set]
  by_cases hb : b = a
  · subst hb
    rw [Function.update_self, setPrev_self h]
  · rw [Function.update_of_ne hb, setPrev_of_ne fun heq => hb (Option.some.inj heq).symm]

theorem setNextPrev_spec (h : ∀ n, back = some n → A.Live n) (front : Option Nat) :
    ∃ A', setNextPrev A back front = some A' ∧ A'.cells = setPrev A.cells back front ∧
      A'.next = A.next := by
  cases back with
  | none => exact ⟨A, rfl, setPrev_none.symm, rfl⟩
  | some n =>
    obtain ⟨c, hc⟩ := Option.isSome_iff_exists.mp (h n rfl)
    refine ⟨A.set n { c with prev := front }, ?_, cells_set_prev hc, rfl⟩
    simp only [setNextPrev, hc]
    rfl

theorem findEnd_eq {first : Option Nat} (h : Segment A.cells front first (as ++ [z]) none)
    (ha : first = some a) {fuel : Nat} (hfuel : as.length < fuel) : findEnd A fuel a = some z := by
  induction as generalizing front first a fuel with
  | nil =>
    obtain ⟨rfl, c, hc, -, hnext⟩ := h
    cases ha
    obtain ⟨fuel, rfl⟩ := Nat.exists_eq_succ_of_ne_zero (Nat.ne_of_gt hfuel)
    have hn : c.next = none := hnext
    simp [findEnd, hc, hn]
  | cons b as ih =>
    obtain ⟨rfl, c, hc, -, hrest⟩ := h
    cases ha
    obtain ⟨fuel, rfl⟩ := Nat.exists_eq_succ_of_ne_zero (Nat.ne_of_gt (Nat.zero_lt_of_lt hfuel))
    obtain ⟨n, hn⟩ : ∃ n, c.next = some n := by
      cases as with
      | nil => exact ⟨_, hrest.1⟩
      | cons b' as => exact ⟨_, hrest.1⟩
    simp only [findEnd, hc, hn, Option.bind_eq_bind, Option.bind_some]
    exact ih hrest hn (Nat.lt_of_succ_lt_succ hfuel)

/-- A chain has no more entries than were allocated. -/
theorem length_le_next (h : nodes.Nodup) (hlt : ∀ a ∈ nodes, a < A.next) :
    nodes.length ≤ A.next := by
  have hsub : nodes ⊆ List.range A.next := fun a ha => List.mem_range.mpr (hlt a ha)
  simpa using (List.subperm_of_subset h hsub).length_le

theorem dataAt_setNext {A' : Arena (ListEntry α)}
    (h : A'.cells = setNext (Function.update A.cells x (some c)) front back) :
    dataAt A' = Function.update (dataAt A) x (some c.data) := by
  funext b
  simp only [dataAt, h, map_data_setNext]
  by_cases hb : b = x
  · rw [hb, Function.update_self, Function.update_self]
    rfl
  · rw [Function.update_of_ne hb, Function.update_of_ne hb]
    rfl

/-- The new entry is not linked yet, so the loop runs over the old entries only. -/
theorem findEnd_alloc (h : Chain l.entries.cells l.list (as ++ [z]))
    (hlt : ∀ a ∈ as ++ [z], a < l.entries.next) (ha : l.list = some a) (d : α) :
    findEnd (l.entries.alloc ⟨d, none, none⟩) (l.entries.next + 1) a = some z := by
  have hseg : Segment (l.entries.alloc ⟨d, none, none⟩).cells none l.list (as ++ [z]) none :=
    h.segment.congr fun b hb => Function.update_of_ne (Nat.ne_of_lt (hlt b hb)) ..
  have hlen := length_le_next h.nodup hlt
  rw [List.length_append, List.length_singleton] at hlen
  exact findEnd_eq hseg ha (by omega)

/-- `list_append` with its memory puts a new entry at the end. -/
theorem listAppend_spec (h : Chain l.entries.cells l.list nodes)
    (hlt : ∀ a ∈ nodes, a < l.entries.next) (d : α) :
    ∃ l', listAppend l d true = some (some l.entries.next, l') ∧
      Chain l'.entries.cells l'.list (nodes ++ [l.entries.next]) ∧
      l'.entries.next = l.entries.next + 1 ∧
      dataAt l'.entries = Function.update (dataAt l.entries) l.entries.next (some d) := by
  have hnew : l.entries.next ∉ nodes := fun hmem => Nat.lt_irrefl _ (hlt _ hmem)
  cases hlist : l.list with
  | none =>
    rw [hlist] at h
    obtain rfl := h.eq_nil
    have hcells : (l.entries.alloc ⟨d, none, none⟩).cells =
        setNext (Function.update l.entries.cells l.entries.next (some ⟨d, none, none⟩)) none
          (some l.entries.next) := setNext_none.symm
    refine ⟨⟨l.entries.alloc ⟨d, none, none⟩, some l.entries.next⟩, ?_, ?_, rfl,
      dataAt_setNext hcells⟩
    · simp only [listAppend, hlist, if_true]
    · rw [hcells]
      exact h.append hnew rfl
  | some first =>
    obtain ⟨as, z, rfl⟩ : ∃ as z, nodes = as ++ [z] := by
      rcases List.eq_nil_or_concat nodes with rfl | ⟨as, z, rfl⟩
      · cases (h.segment : l.list = none).symm.trans hlist
      · exact ⟨as, z, by rw [List.concat_eq_append]⟩
    have hz : z ≠ l.entries.next := by
      rintro rfl
      exact hnew (List.mem_append_right _ (List.mem_singleton_self _))
    obtain ⟨c, hc⟩ := h.segment.exists_cell (List.mem_append_right _ (List.mem_singleton_self z))
    have hwalk := findEnd_alloc h hlt hlist d
    -- the arena once the new entry has its `prev`
    obtain ⟨B, hB⟩ : ∃ B, B = (l.entries.alloc ⟨d, none, none⟩).set l.entries.next
        ⟨d, some z, none⟩ := ⟨_, rfl⟩
    have hset : B.cells =
        Function.update l.entries.cells l.entries.next (some ⟨d, some z, none⟩) := by
      rw [hB]
      exact Function.update_idem ..
    have hlast : B.cells z = some c := by
      rw [hset, Function.update_of_ne hz]
      exact hc
    have hcells : (B.set z { c with next := some l.entries.next }).cells =
        setNext (Function.update l.entries.cells l.entries.next (some ⟨d, some z, none⟩)) (some z)
          (some l.entries.next) := by
      rw [cells_set_next hlast, hset]
    refine ⟨⟨B.set z { c with next := some l.entries.next }, some first⟩, ?_, ?_, ?_,
      dataAt_setNext hcells⟩
    · have hfuel : (l.entries.alloc ⟨d, none, none⟩).next = l.entries.next + 1 := rfl
      simp only [listAppend, hlist, if_true, hfuel, hwalk, Option.bind_eq_bind, Option.bind_some,
        ← hB, hlast]
    · have hchain := h.append (d := d) hnew lastOr_append_singleton
      rw [if_neg (by simp), hlist] at hchain
      rw [hcells]
      exact hchain
    · rw [hB]
      rfl

/-- `list_remove_entry` takes an entry of the list out of it. -/
theorem listRemoveEntry_spec (h : Chain l.entries.cells l.list (as ++ x :: bs)) :
    ∃ l', listRemoveEntry l (some x) = some (1, l') ∧
      Chain l'.entries.cells l'.list (as ++ bs) ∧ l'.entries.next = l.entries.next ∧
      dataAt l'.entries = dataAt l.entries := by
  obtain ⟨c, hc, hprev, -, -⟩ := h.segment.split
  have hx : x ∈ as ++ x :: bs := List.mem_append_right _ List.mem_cons_self
  have hchain := h.erase hc
  obtain ⟨first, hlist⟩ : ∃ first, l.list = some first := by
    cases hl : l.list with
    | none =>
      rw [hl] at h
      exact absurd h.eq_nil (by simp)
    | some first => exact ⟨first, rfl⟩
  have hlive : ∀ n, c.next = some n → l.entries.Live n := by
    intro n hn
    obtain ⟨-, c', hc', -⟩ := h.prev_of_next hx hc hn
    exact Option.isSome_iff_exists.mpr ⟨c', hc'⟩
  cases hp : c.prev with
  | none =>
    -- the first entry: the list starts behind it
    obtain ⟨A, hA, hcells, hnext⟩ := setNextPrev_spec hlive none
    refine ⟨⟨A, c.next⟩, ?_, ?_, hnext, ?_⟩
    · simp only [listRemoveEntry, hlist, hc, hp, hA, Option.bind_eq_bind, Option.bind_some]
    · rw [hp, setNext_none, if_pos rfl] at hchain
      rwa [hcells]
    · funext b
      simp only [dataAt, hcells, map_data_setPrev]
  | some p =>
    obtain ⟨-, pe, hpe, -⟩ := h.next_of_prev hx hc hp
    have hne : x ≠ p := by
      rintro rfl
      obtain ⟨as', rfl⟩ := exists_of_lastOr (hprev.symm.trans hp)
      have hdisj := (List.nodup_append.mp h.nodup).2.2
      exact hdisj x (List.mem_append_right _ (List.mem_singleton_self x)) x List.mem_cons_self rfl
    have hagain : (l.entries.set p { pe with next := c.next }).cells x = some c := by
      rw [cells_set_next hpe, setNext_of_ne fun heq => hne (Option.some.inj heq).symm]
      exact hc
    have hlive' : ∀ n, c.next = some n → (l.entries.set p { pe with next := c.next }).Live n := by
      intro n hn
      exact (Arena.live_set (Option.isSome_iff_exists.mpr ⟨pe, hpe⟩)).mpr (hlive n hn)
    obtain ⟨A, hA, hcells, hnext⟩ := setNextPrev_spec hlive' (some p)
    rw [cells_set_next hpe] at hcells
    refine ⟨⟨A, some first⟩, ?_, ?_, hnext, ?_⟩
    · simp only [listRemoveEntry, hlist, hc, hp, hpe, hagain, hA, Option.bind_eq_bind,
        Option.bind_some]
    · rw [hp, if_neg (by simp), hlist] at hchain
      rwa [hcells]
    · funext b
      simp only [dataAt, hcells, map_data_setPrev, map_data_setNext]

/-- `list_find_data` finds the first entry that the callback accepts; the entries are given as
the addresses of some items, and the callback as a test on these. -/
theorem findData_eq {ι : Type} {addr : ι → Nat} {q : ι → Bool} {items : List ι}
    {callback : α → Option Bool} {first : Option Nat}
    (h : Segment A.cells front first (items.map addr) none)
    (hq : ∀ i ∈ items, (dataAt A (addr i)).bind callback = some (q i)) {fuel : Nat}
    (hfuel : items.length ≤ fuel) :
    findData A callback fuel first = some ((items.find? q).map addr) := by
  induction items generalizing front first fuel with
  | nil =>
    obtain rfl : first = none := h
    cases fuel <;> rfl
  | cons i items ih =>
    obtain ⟨rfl, c, hc, -, hrest⟩ := h
    have hcall : callback c.data = some (q i) := by
      simpa [dataAt, hc] using hq i List.mem_cons_self
    cases fuel with
    | zero => exact absurd hfuel (Nat.not_succ_le_zero _)
    | succ fuel =>
      simp only [findData, hc, hcall, Option.bind_eq_bind, Option.bind_some]
      cases hqi : q i with
      | true => simp [hqi]
      | false =>
        have hfind := ih hrest (fun j hj => hq j (List.mem_cons_of_mem _ hj))
          (Nat.le_of_succ_le_succ hfuel)
        simp [hqi, hfind]

end Specs

end BaseCode.Comm
