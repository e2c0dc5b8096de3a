import Mathlib.Data.List.Nodup
import BaseCode.Comm.HashTable

/-!
# What the hash table keeps

First, for any key functions: a call adds, exchanges or removes one entry and keeps all
others. Then, for keys that are compared and hashed by value: the table is a finite map.
-/

namespace BaseCode.Comm
open Foundation

variable {κ ν : Type} {f : KeyFuncs κ} {t : HashTable κ ν}

section Entries

theorem newTableSize_pos {i n : Nat} (h : 0 < n) : 0 < newTableSize i n := by
  simp only [newTableSize]
  rw [List.getD_eq_getElem?_getD]
  cases hi : hashTablePrimes[i]? with
  | none => exact Nat.mul_pos h (by decide)
  | some p => exact (by decide : ∀ p ∈ hashTablePrimes, 0 < p) p (List.mem_of_getElem? hi)

theorem emptyTable_tableSize : (emptyTable : HashTable κ ν).tableSize = 193 := rfl

theorem emptyTable_toList : (emptyTable : HashTable κ ν).toList = [] := by
  simp [HashTable.toList, flatten, emptyTable, hashTableAllocateTable]

theorem flatten_link {size : Nat} (hs : 0 < size) (b : Nat → List (κ × ν)) (e : κ × ν) :
    (flatten size (link f size b e)).Perm (e :: flatten size b) := by
  have h := flatten_update_perm (Nat.mod_lt (f.hash e.1) hs) b (e :: b (f.hash e.1 % size))
  have h' : (flatten size (link f size b e) ++ b (f.hash e.1 % size)).Perm
      ((e :: flatten size b) ++ b (f.hash e.1 % size)) :=
    h.trans List.perm_middle
  exact (List.perm_append_right_iff _).mp h'

theorem flatten_foldl_link {size : Nat} (hs : 0 < size) (l : List (κ × ν))
    (b : Nat → List (κ × ν)) :
    (flatten size (l.foldl (link f size) b)).Perm (l ++ flatten size b) := by
  induction l generalizing b with
  | nil => exact List.Perm.refl _
  | cons e l ih =>
    calc (flatten size (l.foldl (link f size) (link f size b e))).Perm
          (l ++ flatten size (link f size b e)) := ih _
      _ |>.Perm (l ++ e :: flatten size b) := List.Perm.append_left _ (flatten_link hs b e)
      _ |>.Perm (e :: l ++ flatten size b) := List.perm_middle

/-- An enlarged table has the same entries. -/
theorem enlarge_perm {callocOk : Bool} {t' : HashTable κ ν} (hn : 0 < t.entries)
    (h : hashTableEnlarge f t callocOk = some t') :
    0 < t'.tableSize ∧ t'.toList.Perm t.toList := by
  simp only [hashTableEnlarge] at h
  split at h
  · cases h
    have hs : 0 < newTableSize (t.primeIndex + 1) t.entries := newTableSize_pos hn
    refine ⟨hs, ?_⟩
    have hp := flatten_foldl_link (f := f) hs t.toList fun _ => []
    have he : flatten (newTableSize (t.primeIndex + 1) t.entries)
        (fun _ => ([] : List (κ × ν))) = [] := by simp [flatten]
    rw [he, List.append_nil] at hp
    exact hp
  · cases h

theorem entries_pos_of_full (h : t.full = true) : 0 < t.entries := by
  simp only [HashTable.full] at h
  rcases Nat.eq_zero_or_pos t.entries with h0 | h0
  · simp [h0] at h
  · exact h0

/-- Cutting an entry out of its chain, or putting another in its place. -/
theorem toList_update_chain {i : Nat} (hi : i < t.tableSize) {a b c : List (κ × ν)} {e : κ × ν}
    (hc : t.table i = a ++ e :: b) :
    ∃ rest, t.toList.Perm (e :: rest) ∧
      (flatten t.tableSize (Function.update t.table i (a ++ c ++ b))).Perm (c ++ rest) := by
  have h0 := flatten_update_perm hi t.table (a ++ b)
  refine ⟨flatten t.tableSize (Function.update t.table i (a ++ b)), ?_, ?_⟩
  · rw [hc] at h0
    have h1 : ((e :: flatten t.tableSize (Function.update t.table i (a ++ b))) ++ (a ++ b)).Perm
        (flatten t.tableSize t.table ++ (a ++ b)) := by
      refine List.Perm.trans ?_ h0
      rw [List.cons_append]
      calc (e :: (flatten t.tableSize (Function.update t.table i (a ++ b)) ++ (a ++ b))).Perm
            (flatten t.tableSize (Function.update t.table i (a ++ b)) ++ e :: (a ++ b)) :=
              List.perm_middle.symm
        _ |>.Perm (flatten t.tableSize (Function.update t.table i (a ++ b)) ++ (a ++ e :: b)) :=
              List.Perm.append_left _ List.perm_middle.symm
    exact ((List.perm_append_right_iff _).mp h1).symm
  · have h2 := flatten_update_perm hi (Function.update t.table i (a ++ b)) (a ++ c ++ b)
    rw [Function.update_idem, Function.update_self] at h2
    refine (List.perm_append_right_iff (a ++ b)).mp (h2.trans ?_)
    calc (flatten t.tableSize (Function.update t.table i (a ++ b)) ++ (a ++ c ++ b)).Perm
          (flatten t.tableSize (Function.update t.table i (a ++ b)) ++ (c ++ (a ++ b))) :=
            List.Perm.append_left _ (by
              rw [← List.append_assoc]
              exact List.perm_append_comm.append_right b)
      _ |>.Perm (c ++ flatten t.tableSize (Function.update t.table i (a ++ b)) ++ (a ++ b)) := by
            rw [← List.append_assoc]
            exact List.perm_append_comm.append_right _

theorem remove_of_none {key : κ}
    (hc : splitFirst (fun e => f.equal key e.1) (t.table (f.hash key % t.tableSize)) = none) :
    hashTableRemove f t key = (none, t) := by
  simp only [hashTableRemove, hc]

theorem remove_of_some {key : κ} {a b : List (κ × ν)} {e : κ × ν}
    (hc : splitFirst (fun e => f.equal key e.1) (t.table (f.hash key % t.tableSize)) =
      some (a, e, b)) :
    hashTableRemove f t key = (some e.2, { t with
      table := Function.update t.table (f.hash key % t.tableSize) (a ++ b)
      entries := t.entries - 1 }) := by
  simp only [hashTableRemove, hc]

theorem insertEntry_of_none {key : κ} (value : ν)
    (hc : splitFirst (fun e => f.equal e.1 key) (t.table (f.hash key % t.tableSize)) = none) :
    insertEntry f t key value true = ⟨true, none, { t with
      table := link f t.tableSize t.table (key, value)
      entries := t.entries + 1 }⟩ ∧ insertEntry f t key value false = ⟨false, none, t⟩ := by
  simp [insertEntry, hc]

theorem insertEntry_of_some {key : κ} (value : ν) (mallocOk : Bool) {a b : List (κ × ν)}
    {e : κ × ν}
    (hc : splitFirst (fun e => f.equal e.1 key) (t.table (f.hash key % t.tableSize)) =
      some (a, e, b)) :
    insertEntry f t key value mallocOk = ⟨true, some e.2, { t with
      table := Function.update t.table (f.hash key % t.tableSize) (a ++ (key, value) :: b) }⟩ := by
  simp only [insertEntry, hc]

/-- What `hash_table_remove` does to the entries: nothing, or it takes out one whose key is
equal and frees its value. -/
theorem remove_cases (hs : 0 < t.tableSize) (key : κ) :
    hashTableRemove f t key = (none, t) ∨
    ∃ e t', hashTableRemove f t key = (some e.2, t') ∧ f.equal key e.1 = true ∧
      t.toList.Perm (e :: t'.toList) ∧ t'.tableSize = t.tableSize := by
  cases hc : splitFirst (fun e => f.equal key e.1) (t.table (f.hash key % t.tableSize)) with
  | none => exact .inl (remove_of_none hc)
  | some r =>
    obtain ⟨a, e, b⟩ := r
    obtain ⟨hl, he, -⟩ := splitFirst_eq_some hc
    refine .inr ⟨e, _, remove_of_some hc, he, ?_, rfl⟩
    obtain ⟨rest, h1, h2⟩ := toList_update_chain (Nat.mod_lt (f.hash key) hs) (c := []) hl
    rw [List.append_nil, List.nil_append] at h2
    exact h1.trans (h2.symm.cons e)

/-- The value freed by a removal is the one a lookup finds. -/
theorem remove_fst (key : κ) : (hashTableRemove f t key).1 = hashTableLookup f t key := by
  simp only [hashTableLookup]
  rw [find?_eq_splitFirst]
  cases hc : splitFirst (fun e => f.equal key e.1) (t.table (f.hash key % t.tableSize)) with
  | none => rw [remove_of_none hc]; rfl
  | some r => rw [remove_of_some hc]; rfl

/-- What the insertion into a table of fixed size does to the entries. -/
theorem insertEntry_cases (hs : 0 < t.tableSize) (key : κ) (value : ν) (mallocOk : Bool) :
    insertEntry f t key value mallocOk = ⟨false, none, t⟩ ∨
    (∃ t', insertEntry f t key value mallocOk = ⟨true, none, t'⟩ ∧ t'.tableSize = t.tableSize ∧
      t'.toList.Perm ((key, value) :: t.toList)) ∨
    ∃ e t' rest, insertEntry f t key value mallocOk = ⟨true, some e.2, t'⟩ ∧
      f.equal e.1 key = true ∧ t'.tableSize = t.tableSize ∧ t.toList.Perm (e :: rest) ∧
      t'.toList.Perm ((key, value) :: rest) := by
  cases hc : splitFirst (fun e => f.equal e.1 key) (t.table (f.hash key % t.tableSize)) with
  | none =>
    obtain ⟨h1, h0⟩ := insertEntry_of_none value hc
    cases mallocOk with
    | false => exact .inl h0
    | true => exact .inr (.inl ⟨_, h1, rfl, flatten_link hs t.table (key, value)⟩)
  | some r =>
    obtain ⟨a, e, b⟩ := r
    obtain ⟨hl, he, -⟩ := splitFirst_eq_some hc
    obtain ⟨rest, h1, h2⟩ :=
      toList_update_chain (Nat.mod_lt (f.hash key) hs) (c := [(key, value)]) hl
    rw [List.append_assoc, List.singleton_append, List.singleton_append] at h2
    exact .inr (.inr ⟨e, _, rest, insertEntry_of_some value mallocOk hc, he, rfl, h1, h2⟩)

/-- An insertion is one into the table itself or, where that is full, into the enlarged table;
without memory for the latter it fails. -/
theorem insert_eq (key : κ) (value : ν) (callocOk mallocOk : Bool) :
    (t.full = false ∧
      hashTableInsert f t key value callocOk mallocOk = insertEntry f t key value mallocOk) ∨
    (t.full = true ∧ ∃ t', hashTableEnlarge f t callocOk = some t' ∧
      hashTableInsert f t key value callocOk mallocOk = insertEntry f t' key value mallocOk) ∨
    (t.full = true ∧ callocOk = false ∧
      hashTableInsert f t key value callocOk mallocOk = ⟨false, none, t⟩) := by
  cases hf : t.full with
  | false => exact .inl ⟨rfl, by simp [hashTableInsert, hf]⟩
  | true =>
    cases callocOk with
    | false => exact .inr (.inr ⟨rfl, rfl, by simp [hashTableInsert, hf, hashTableEnlarge]⟩)
    | true =>
      refine .inr (.inl ⟨rfl, _, rfl, ?_⟩)
      simp [hashTableInsert, hf, hashTableEnlarge]

/-- The stored entries an insertion compares its key with: the chain, or all of them when the
table is enlarged first. -/
def HashTable.compared (f : KeyFuncs κ) (t : HashTable κ ν) (key : κ) : List (κ × ν) :=
  if t.full then t.toList else t.table (f.hash key % t.tableSize)

/-- With memory, and no stored key equal to the new one, an insertion adds an entry. -/
theorem insert_adds (hs : 0 < t.tableSize) (key : κ) (value : ν)
    (hno : ∀ e ∈ t.compared f key, f.equal e.1 key = false) :
    ∃ t', hashTableInsert f t key value true true = ⟨true, none, t'⟩ ∧ 0 < t'.tableSize ∧
      t'.toList.Perm ((key, value) :: t.toList) := by
  simp only [HashTable.compared] at hno
  obtain ⟨hf, he⟩ | ⟨hf, t', ht, he⟩ | ⟨-, hcalloc, -⟩ :=
    insert_eq (f := f) (t := t) key value true true
  · rw [hf] at hno
    have hc := splitFirst_eq_none.mpr hno
    rw [he, (insertEntry_of_none value hc).1]
    exact ⟨_, rfl, hs, flatten_link hs t.table (key, value)⟩
  · rw [hf] at hno
    obtain ⟨hs', hp⟩ := enlarge_perm (entries_pos_of_full hf) ht
    rw [he]
    obtain hi | ⟨t2, hi, hsz, hp2⟩ | ⟨e, t2, rest, hi, heq, -, hp2, -⟩ :=
      insertEntry_cases (f := f) hs' key value true
    · -- the entry's own allocation does not fail
      cases hc : splitFirst (fun e => f.equal e.1 key)
          (t'.table (f.hash key % t'.tableSize)) with
      | none =>
        rw [(insertEntry_of_none value hc).1] at hi
        cases hi
      | some r =>
        rw [insertEntry_of_some value true hc] at hi
        cases hi
    · exact ⟨t2, hi, hsz ▸ hs', hp2.trans (hp.cons _)⟩
    · have hmem : e ∈ t.toList := hp.mem_iff.mp (hp2.mem_iff.mpr List.mem_cons_self)
      rw [hno e hmem] at heq
      cases heq
  · cases hcalloc

end Entries

section Chains

variable {R R' : κ × ν → Nat → Prop} {size : Nat} {b : Nat → List (κ × ν)}

/-- Every entry is in the chain that its hash names; `R e k` says that `k` is the hash of `e`. -/
def Placed (R : κ × ν → Nat → Prop) (size : Nat) (b : Nat → List (κ × ν)) : Prop :=
  ∀ i, i < size → ∀ e ∈ b i, ∀ k, R e k → k % size = i

theorem Placed.mono (h : Placed R size b) (hR : ∀ e ∈ flatten size b, ∀ k, R' e k → R e k) :
    Placed R' size b := by
  intro i hi e he k hk
  exact h i hi e he k (hR e (mem_flatten.mpr ⟨i, hi, he⟩) k hk)

theorem Placed.update {i : Nat} {c : List (κ × ν)} (h : Placed R size b)
    (hc : ∀ e ∈ c, e ∈ b i ∨ ∀ k, R e k → k % size = i) :
    Placed R size (Function.update b i c) := by
  intro j hj e he
  by_cases hji : j = i
  · subst hji
    rw [Function.update_self] at he
    exact (hc e he).elim (h j hj e) id
  · rw [Function.update_of_ne hji] at he
    exact h j hj e he

/-- What is left of a chain after one entry is cut out. -/
theorem Placed.cut {i : Nat} {a c : List (κ × ν)} {e : κ × ν} (h : Placed R size b)
    (hb : b i = a ++ e :: c) : Placed R size (Function.update b i (a ++ c)) := by
  apply h.update
  intro d hd
  rw [hb]
  refine .inl ?_
  rcases List.mem_append.mp hd with hd | hd
  · exact List.mem_append_left _ hd
  · exact List.mem_append_right _ (List.mem_cons_of_mem _ hd)

theorem Placed.remove (h : Placed R t.tableSize t.table) (key : κ) :
    Placed R (hashTableRemove f t key).2.tableSize (hashTableRemove f t key).2.table := by
  cases hc : splitFirst (fun e => f.equal key e.1) (t.table (f.hash key % t.tableSize)) with
  | none =>
    rw [remove_of_none hc]
    exact h
  | some r =>
    obtain ⟨a, e, b⟩ := r
    rw [remove_of_some hc]
    exact h.cut (splitFirst_eq_some hc).1

theorem Placed.link (h : Placed R size b) {e : κ × ν} (he : ∀ k, R e k → k = f.hash e.1) :
    Placed R size (link f size b e) := by
  apply h.update
  intro d hd
  rcases List.mem_cons.mp hd with rfl | hm
  · exact .inr fun k hk => by rw [he k hk]
  · exact .inl hm

/-- A rehash puts every entry where its key hashes to. -/
theorem Placed.foldl_link (h : Placed R size b) (l : List (κ × ν))
    (hl : ∀ e ∈ l, ∀ k, R e k → k = f.hash e.1) :
    Placed R size (l.foldl (Comm.link f size) b) := by
  induction l generalizing b with
  | nil => exact h
  | cons e l ih =>
    refine ih (h.link (hl e List.mem_cons_self)) ?_
    intro d hd
    exact hl d (List.mem_cons_of_mem _ hd)

theorem Placed.enlarge {callocOk : Bool} {t' : HashTable κ ν}
    (hl : ∀ e ∈ t.toList, ∀ k, R e k → k = f.hash e.1)
    (he : hashTableEnlarge f t callocOk = some t') : Placed R t'.tableSize t'.table := by
  simp only [hashTableEnlarge] at he
  split at he
  · cases he
    refine Placed.foldl_link ?_ _ hl
    intro i _ e hm
    cases hm
  · cases he

theorem Placed.insertEntry (h : Placed R t.tableSize t.table) {key : κ} {value : ν}
    {t' : HashTable κ ν} (hnew : ∀ k, R (key, value) k → k = f.hash key)
    (hins : insertEntry f t key value true = ⟨true, none, t'⟩) :
    Placed R t'.tableSize t'.table := by
  cases hc : splitFirst (fun e => f.equal e.1 key) (t.table (f.hash key % t.tableSize)) with
  | none =>
    rw [(insertEntry_of_none value hc).1] at hins
    cases hins
    exact h.link hnew
  | some r =>
    rw [insertEntry_of_some value true hc] at hins
    cases hins

/-- The chains after an insertion that adds an entry: a rehash relies on what the stored keys
hash to at the time. -/
theorem Placed.insert (h : Placed R t.tableSize t.table) {key : κ} {value : ν}
    {t' : HashTable κ ν} (hnew : ∀ k, R (key, value) k → k = f.hash key)
    (hold : t.full = true → ∀ e ∈ t.toList, ∀ k, R e k → k = f.hash e.1)
    (hins : hashTableInsert f t key value true true = ⟨true, none, t'⟩) :
    Placed R t'.tableSize t'.table := by
  obtain ⟨-, he⟩ | ⟨hf, t₁, ht, he⟩ | ⟨-, hcalloc, -⟩ :=
    insert_eq (f := f) (t := t) key value true true
  · exact h.insertEntry hnew (he ▸ hins)
  · exact (Placed.enlarge (hold hf) ht).insertEntry hnew (he ▸ hins)
  · cases hcalloc

end Chains

section Map

variable {x y : Int} {p q : ν} {t t' : HashTable Int ν}

/-- A table whose keys are compared by value: every entry is in its own chain, and no key is
stored twice. -/
structure WellFormed (t : HashTable Int ν) : Prop where
  size_pos : 0 < t.tableSize
  placed : Placed (fun e k => k = intHash e.1) t.tableSize t.table
  nodup : (t.toList.map Prod.fst).Nodup

theorem wellFormed_emptyTable : WellFormed (emptyTable : HashTable Int ν) where
  size_pos := by rw [emptyTable_tableSize]; decide
  placed i _ e he := by simp [emptyTable, hashTableAllocateTable] at he
  nodup := by rw [emptyTable_toList]; exact List.nodup_nil

/-- The table read as a map. -/
def HashTable.get (t : HashTable Int ν) (x : Int) : Option ν := hashTableLookup intKeys t x

theorem get_eq_some_iff (h : WellFormed t) : t.get x = some p ↔ (x, p) ∈ t.toList := by
  have hpos := Nat.mod_lt (intHash x) h.size_pos
  simp only [HashTable.get, hashTableLookup, HashTable.toList]
  rw [Option.map_eq_some_iff]
  constructor
  · rintro ⟨⟨y, q⟩, hf, rfl⟩
    have hxy : x = y := by simpa [intKeys] using List.find?_some hf
    subst hxy
    exact mem_flatten.mpr ⟨_, hpos, List.mem_of_find?_eq_some hf⟩
  · intro hm
    obtain ⟨i, hi, hmi⟩ := mem_flatten.mp hm
    obtain rfl : intHash x % t.tableSize = i := h.placed i hi _ hmi _ rfl
    -- some entry of the chain passes the test, and only the key's own can
    cases hf : (t.table (intHash x % t.tableSize)).find? fun e => intKeys.equal x e.1 with
    | none =>
      have hn := List.find?_eq_none.mp hf (x, p) hmi
      exact absurd (by simp [intKeys]) hn
    | some e =>
      obtain ⟨y, q⟩ := e
      have hxy : x = y := by simpa [intKeys] using List.find?_some hf
      subst hxy
      have hme : (x, q) ∈ t.toList := mem_flatten.mpr ⟨_, hpos, List.mem_of_find?_eq_some hf⟩
      have heq := List.inj_on_of_nodup_map h.nodup hme hm rfl
      exact ⟨(x, q), hf, congrArg Prod.snd heq⟩

theorem get_eq_none_iff (h : WellFormed t) : t.get x = none ↔ ∀ p, (x, p) ∉ t.toList := by
  rw [Option.eq_none_iff_forall_ne_some]
  exact forall_congr' fun p => not_congr (get_eq_some_iff h)

theorem get_emptyTable : (emptyTable : HashTable Int ν).get x = none := by
  rw [get_eq_none_iff wellFormed_emptyTable]
  intro p
  rw [emptyTable_toList]
  exact List.not_mem_nil

theorem get_congr (h : WellFormed t) (h' : WellFormed t') (hp : t'.toList.Perm t.toList) :
    t'.get x = t.get x := by
  apply Option.ext
  intro p
  rw [get_eq_some_iff h', get_eq_some_iff h, hp.mem_iff]

/-- A table with one entry more. -/
theorem get_of_perm_cons (h : WellFormed t) (h' : WellFormed t')
    (hp : t'.toList.Perm ((x, p) :: t.toList)) :
    t.get x = none ∧ ∀ y, t'.get y = if y = x then some p else t.get y := by
  have hk := (hp.map Prod.fst).nodup_iff.mp h'.nodup
  have hx : ∀ q, (x, q) ∉ t.toList := fun q hm =>
    (List.nodup_cons.mp hk).1 (List.mem_map.mpr ⟨(x, q), hm, rfl⟩)
  refine ⟨(get_eq_none_iff h).mpr hx, fun y => ?_⟩
  apply Option.ext
  intro q
  rw [get_eq_some_iff h', hp.mem_iff, List.mem_cons]
  by_cases hy : y = x
  · subst hy
    simp [hx, eq_comm]
  · simp [hy, get_eq_some_iff h]

/-- A table with the entry of `x` exchanged. -/
theorem get_of_perm_exchange (h : WellFormed t) (h' : WellFormed t')
    {rest : List (Int × ν)} (hp : t.toList.Perm ((x, q) :: rest))
    (hp' : t'.toList.Perm ((x, p) :: rest)) :
    t.get x = some q ∧ ∀ y, t'.get y = if y = x then some p else t.get y := by
  have hk := (hp.map Prod.fst).nodup_iff.mp h.nodup
  have hx : ∀ q, (x, q) ∉ rest := fun q hm =>
    (List.nodup_cons.mp hk).1 (List.mem_map.mpr ⟨(x, q), hm, rfl⟩)
  refine ⟨(get_eq_some_iff h).mpr (hp.mem_iff.mpr List.mem_cons_self), fun y => ?_⟩
  apply Option.ext
  intro r
  rw [get_eq_some_iff h', hp'.mem_iff, List.mem_cons]
  by_cases hy : y = x
  · subst hy
    simp [hx, eq_comm]
  · simp [hy, get_eq_some_iff h, hp.mem_iff]

/-- `hash_table_remove` on a well-formed table. -/
theorem remove_spec (h : WellFormed t) (x : Int) :
    (t.get x = none ∧ hashTableRemove intKeys t x = (none, t)) ∨
    ∃ p t', t.get x = some p ∧ hashTableRemove intKeys t x = (some p, t') ∧ WellFormed t' ∧
      t.toList.Perm ((x, p) :: t'.toList) := by
  have hpos := Nat.mod_lt (intHash x) h.size_pos
  cases hc : splitFirst (fun e => intKeys.equal x e.1)
      (t.table (intKeys.hash x % t.tableSize)) with
  | none =>
    refine .inl ⟨?_, remove_of_none hc⟩
    simp only [HashTable.get, hashTableLookup]
    rw [find?_eq_splitFirst, hc]
    rfl
  | some r =>
    obtain ⟨a, ⟨y, p⟩, b⟩ := r
    obtain ⟨hl, he, -⟩ := splitFirst_eq_some hc
    obtain rfl : x = y := by simpa [intKeys] using he
    obtain ⟨rest, h1, h2⟩ := toList_update_chain hpos (c := []) hl
    rw [List.append_nil, List.nil_append] at h2
    have hperm := h1.trans (h2.symm.cons (x, p))
    refine .inr ⟨p, _, ?_, remove_of_some hc, ⟨h.size_pos, ?_, ?_⟩, hperm⟩
    · exact (get_eq_some_iff h).mpr (hperm.mem_iff.mpr List.mem_cons_self)
    · exact h.placed.cut hl
    · exact (List.nodup_cons.mp ((hperm.map Prod.fst).nodup_iff.mp h.nodup)).2

theorem get_remove (h : WellFormed t) (x y : Int) :
    (hashTableRemove intKeys t x).2.get y = if y = x then none else t.get y := by
  obtain ⟨hn, he⟩ | ⟨p, t', hg, he, hw, hp⟩ := remove_spec h x
  · rw [he]
    by_cases hy : y = x
    · simp [hy, hn]
    · simp [hy]
  · rw [he]
    obtain ⟨hx, hall⟩ := get_of_perm_cons hw h hp
    by_cases hy : y = x
    · simp [hy, hx]
    · simp [hy, hall]

theorem WellFormed.remove (h : WellFormed t) (x : Int) :
    WellFormed (hashTableRemove intKeys t x).2 := by
  obtain ⟨-, he⟩ | ⟨p, t', -, he, hw, -⟩ := remove_spec h x
  · rw [he]; exact h
  · rw [he]; exact hw

/-- What an insertion can come to: it fails and keeps the entries, adds one, or exchanges the
one that was stored for the key and frees its value. -/
inductive Inserts (t : HashTable Int ν) (x : Int) (v : ν) : InsertResult Int ν → Prop
  | fails {t' : HashTable Int ν} : WellFormed t' → t'.toList.Perm t.toList →
      Inserts t x v ⟨false, none, t'⟩
  | adds {t' : HashTable Int ν} : WellFormed t' → t.get x = none →
      t'.toList.Perm ((x, v) :: t.toList) → Inserts t x v ⟨true, none, t'⟩
  | exchanges {t' : HashTable Int ν} {p : ν} {rest : List (Int × ν)} : WellFormed t' →
      t.get x = some p → t.toList.Perm ((x, p) :: rest) → t'.toList.Perm ((x, v) :: rest) →
      Inserts t x v ⟨true, some p, t'⟩

theorem Inserts.of_perm {t₁ : HashTable Int ν} {v : ν} {r : InsertResult Int ν}
    (h : WellFormed t) (h₁ : WellFormed t₁) (hp : t₁.toList.Perm t.toList)
    (hr : Inserts t₁ x v r) : Inserts t x v r := by
  have hget : t₁.get x = t.get x := get_congr h h₁ hp
  cases hr with
  | fails hw hc => exact .fails hw (hc.trans hp)
  | adds hw hg hc => exact .adds hw (hget ▸ hg) (hc.trans (hp.cons _))
  | exchanges hw hg hc hd => exact .exchanges hw (hget ▸ hg) (hp.symm.trans hc) hd

theorem insertEntry_spec (h : WellFormed t) (x : Int) (v : ν) (mallocOk : Bool) :
    Inserts t x v (insertEntry intKeys t x v mallocOk) ∧
      ((insertEntry intKeys t x v mallocOk).ret = true ↔ (t.get x = none → mallocOk = true)) := by
  have hpos := Nat.mod_lt (intHash x) h.size_pos
  -- insertion and removal pass their keys to `equal_func` in different order
  have hsym : (fun e : Int × ν => intKeys.equal x e.1) = fun e => intKeys.equal e.1 x := by
    funext e
    simp [intKeys, eq_comm]
  cases hc : splitFirst (fun e => intKeys.equal e.1 x)
      (t.table (intKeys.hash x % t.tableSize)) with
  | none =>
    have hg : t.get x = none := by
      simp only [HashTable.get, hashTableLookup]
      rw [find?_eq_splitFirst, hsym, hc]
      rfl
    obtain ⟨h1, h0⟩ := insertEntry_of_none v hc
    cases mallocOk with
    | false =>
      rw [h0]
      exact ⟨.fails h (List.Perm.refl _), by simp [hg]⟩
    | true =>
      rw [h1]
      have hperm := flatten_link (f := intKeys) h.size_pos t.table (x, v)
      refine ⟨.adds ⟨h.size_pos, h.placed.link fun k hk => hk, ?_⟩ hg hperm, by simp⟩
      refine (hperm.map Prod.fst).nodup_iff.mpr (List.nodup_cons.mpr ⟨?_, h.nodup⟩)
      intro hm
      obtain ⟨⟨y, q⟩, hmem, rfl⟩ := List.mem_map.mp hm
      exact (get_eq_none_iff h).mp hg q hmem
  | some r =>
    obtain ⟨a, ⟨y, p⟩, b⟩ := r
    obtain ⟨hl, he, -⟩ := splitFirst_eq_some hc
    obtain rfl : y = x := by simpa [intKeys] using he
    obtain ⟨rest, h1, h2⟩ := toList_update_chain hpos (c := [(y, v)]) hl
    rw [List.append_assoc, List.singleton_append, List.singleton_append] at h2
    have hg : t.get y = some p := (get_eq_some_iff h).mpr (h1.mem_iff.mpr List.mem_cons_self)
    rw [insertEntry_of_some v mallocOk hc]
    refine ⟨.exchanges ⟨h.size_pos, ?_, ?_⟩ hg h1 h2, by simp [hg]⟩
    · apply h.placed.update
      intro e hm
      rw [hl]
      rcases List.mem_append.mp hm with hm | hm
      · exact .inl (List.mem_append_left _ hm)
      · rcases List.mem_cons.mp hm with rfl | hm
        · exact .inr fun k hk => by rw [hk]; rfl
        · exact .inl (List.mem_append_right _ (List.mem_cons_of_mem _ hm))
    · have hk := (h1.map Prod.fst).nodup_iff.mp h.nodup
      exact (h2.map Prod.fst).nodup_iff.mpr hk

theorem WellFormed.enlarge (h : WellFormed t) {callocOk : Bool} (hn : 0 < t.entries)
    (he : hashTableEnlarge intKeys t callocOk = some t') :
    WellFormed t' ∧ t'.toList.Perm t.toList := by
  obtain ⟨hs, hp⟩ := enlarge_perm hn he
  have hplaced := Placed.enlarge (R := fun e k => k = intHash e.1) (fun _ _ _ hk => hk) he
  exact ⟨⟨hs, hplaced, (hp.map Prod.fst).nodup_iff.mpr h.nodup⟩, hp⟩

/-- The memory that `hash_table_insert` needs: an array when the table is to be enlarged, an
entry when the key is new. -/
def InsertFits (t : HashTable Int ν) (x : Int) (callocOk mallocOk : Bool) : Prop :=
  (t.full = true → callocOk = true) ∧ (t.get x = none → mallocOk = true)

instance {callocOk mallocOk : Bool} : Decidable (InsertFits t x callocOk mallocOk) :=
  inferInstanceAs (Decidable ((_ → _) ∧ (_ → _)))

/-- `hash_table_insert` on a well-formed table; it fails exactly when it lacks memory. -/
theorem insert_spec (h : WellFormed t) (x : Int) (v : ν) (callocOk mallocOk : Bool) :
    Inserts t x v (hashTableInsert intKeys t x v callocOk mallocOk) ∧
      ((hashTableInsert intKeys t x v callocOk mallocOk).ret = true ↔
        InsertFits t x callocOk mallocOk) := by
  simp only [InsertFits]
  obtain ⟨hf, he⟩ | ⟨hf, t', ht, he⟩ | ⟨hf, hcalloc, he⟩ :=
    insert_eq (f := intKeys) (t := t) x v callocOk mallocOk
  · rw [he]
    obtain ⟨hi, hret⟩ := insertEntry_spec h x v mallocOk
    exact ⟨hi, by simp [hret, hf]⟩
  · rw [he]
    obtain ⟨hw, hp⟩ := h.enlarge (entries_pos_of_full hf) ht
    obtain ⟨hi, hret⟩ := insertEntry_spec hw x v mallocOk
    have hcalloc : callocOk = true := by
      cases callocOk with
      | false => simp [hashTableEnlarge] at ht
      | true => rfl
    exact ⟨hi.of_perm h hw hp, by simp [hret, hcalloc, get_congr h hw hp]⟩
  · rw [he]
    exact ⟨.fails h (List.Perm.refl _), by simp [hf, hcalloc]⟩

theorem Inserts.wellFormed {v : ν} {r : InsertResult Int ν} (hr : Inserts t x v r) :
    WellFormed r.table := by
  cases hr with
  | fails hw => exact hw
  | adds hw => exact hw
  | exchanges hw => exact hw

/-- A successful insertion seen in the map. -/
theorem Inserts.get {v : ν} {r : InsertResult Int ν} (h : WellFormed t) (hr : Inserts t x v r)
    (y : Int) : r.table.get y = if y = x ∧ r.ret = true then some v else t.get y := by
  cases hr with
  | fails hw hc => simpa using get_congr h hw hc
  | adds hw hg hc => simpa using (get_of_perm_cons h hw hc).2 y
  | exchanges hw hg hc hd => simpa using (get_of_perm_exchange h hw hc hd).2 y

theorem Inserts.freed {v : ν} {r : InsertResult Int ν} (hr : Inserts t x v r) :
    r.freed = if r.ret = true then t.get x else none := by
  cases hr with
  | fails => rfl
  | adds _ hg => simp [hg]
  | exchanges _ hg => simp [hg]

end Map

end BaseCode.Comm
