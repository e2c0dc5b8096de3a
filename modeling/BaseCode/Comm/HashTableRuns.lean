import BaseCode.Comm.HashTableSpec
import BaseCode.Foundation.Machines

/-!
# Runs of the hash table

Any key functions will do that compare by an equivalence and hash equal keys alike. The table
is then a finite map of the keys up to that equivalence, whichever allocations fail, and an
iteration comes to each entry once.
-/

namespace BaseCode.Comm
open Foundation

section Iteration

variable {ε : Type}

/-- `HashTableIterator` and `SetIterator`: the chain from `next_entry` on, empty for a null
pointer, and `next_chain`. -/
structure ChainIter (ε : Type) where
  nextEntry : List ε
  nextChain : Nat

/-- The search for the first chain that is not empty among `n` chains from `chain` on. -/
def findChain (table : Nat → List ε) : Nat → Nat → ChainIter ε
  | 0, chain => ⟨[], chain⟩
  | n + 1, chain =>
    if (table chain).isEmpty then findChain table n (chain + 1) else ⟨table chain, chain⟩

def ChainIter.hasMore (iterator : ChainIter ε) : Bool := !iterator.nextEntry.isEmpty

/-- The entry, and the iterator behind it. -/
def chainIterNext (table : Nat → List ε) (size : Nat) (iterator : ChainIter ε) :
    Option ε × ChainIter ε :=
  match iterator.nextEntry with
  | [] => (none, iterator)
  | [e] => (some e, findChain table (size - (iterator.nextChain + 1)) (iterator.nextChain + 1))
  | e :: es => (some e, { iterator with nextEntry := es })

/-- A loop body for each element in turn: it faults, ends the loop, or goes on to the next. -/
def runSteps {ρ σ : Type} (step : σ → ρ → Option (Option σ)) : List ρ → σ → Option (Option σ)
  | [], s => some (some s)
  | r :: rs, s => do
    match ← step s r with
    | some s => runSteps step rs s
    | none => some none

/-- `while (has_more) step(next())`, for `rounds` rounds at most; `step` may end the loop. -/
def forEach {ρ σ : Type} (next : ChainIter ε → Option ρ × ChainIter ε)
    (step : σ → ρ → Option (Option σ)) : Nat → ChainIter ε → σ → Option (Option σ)
  | 0, iterator, s => if iterator.hasMore then none else some (some s)
  | rounds + 1, iterator, s =>
    if iterator.hasMore then do
      let (r, iterator) := next iterator
      match ← step s (← r) with
      | some s => forEach next step rounds iterator s
      | none => some none
    else some (some s)

/-- What an iterator still has to come to. -/
def ChainIter.rest (table : Nat → List ε) (size : Nat) (iterator : ChainIter ε) : List ε :=
  if iterator.hasMore then
    iterator.nextEntry ++ ((List.range size).drop (iterator.nextChain + 1)).flatMap table
  else []

variable {table : Nat → List ε} {size : Nat}

theorem rest_findChain (table : Nat → List ε) (n chain : Nat) (hn : chain + n = size) :
    (findChain table n chain).rest table size = ((List.range size).drop chain).flatMap table := by
  induction n generalizing chain with
  | zero =>
    have hdrop : (List.range size).drop chain = [] := List.drop_of_length_le (by simp; omega)
    rw [hdrop]
    rfl
  | succ n ih =>
    have hcons : (List.range size).drop chain = chain :: (List.range size).drop (chain + 1) := by
      rw [List.drop_eq_getElem_cons (by simp; omega)]
      simp
    rw [hcons, List.flatMap_cons, findChain]
    split
    · next h =>
      rw [ih (chain + 1) (by omega), List.isEmpty_iff.mp h, List.nil_append]
    · next h => rw [ChainIter.rest, if_pos (by simpa [ChainIter.hasMore] using h)]

/-- An iterator that points to an entry has the number of its chain. -/
def ChainIter.Within (size : Nat) (iterator : ChainIter ε) : Prop :=
  iterator.hasMore = true → iterator.nextChain < size

theorem within_findChain (table : Nat → List ε) (n chain : Nat) (hn : chain + n = size) :
    (findChain table n chain).Within size := by
  induction n generalizing chain with
  | zero => exact fun h => by simp [findChain, ChainIter.hasMore] at h
  | succ n ih =>
    rw [findChain]
    split
    · exact ih (chain + 1) (by omega)
    · exact fun _ => by show chain < size; omega

/-- One step takes the first entry that is left. -/
theorem chainIterNext_eq (table : Nat → List ε) {iterator : ChainIter ε}
    (hmore : iterator.hasMore = true) (hin : iterator.Within size) :
    ∃ e iterator', chainIterNext table size iterator = (some e, iterator') ∧
      iterator.rest table size = e :: iterator'.rest table size ∧ iterator'.Within size := by
  have hlt := hin hmore
  obtain ⟨entry, chain⟩ := iterator
  rcases entry with _ | ⟨e, _ | ⟨e', es⟩⟩
  · cases hmore
  · have hn : chain + 1 + (size - (chain + 1)) = size := Nat.add_sub_cancel' hlt
    refine ⟨e, _, rfl, ?_, within_findChain _ _ _ hn⟩
    rw [rest_findChain _ _ _ hn]
    rfl
  · exact ⟨e, _, rfl, rfl, fun _ => hlt⟩

/-- A loop over an iterator comes to everything that it has to come to. -/
theorem forEach_eq {ρ σ : Type} {next : ChainIter ε → Option ρ × ChainIter ε} {g : ε → ρ}
    (hnext : ∀ iterator, next iterator = ((chainIterNext table size iterator).1.map g,
      (chainIterNext table size iterator).2)) {step : σ → ρ → Option (Option σ)} {rounds : Nat}
    {iterator : ChainIter ε} (hin : iterator.Within size)
    (hrounds : (iterator.rest table size).length ≤ rounds) (s : σ) :
    forEach next step rounds iterator s =
      runSteps step ((iterator.rest table size).map g) s := by
  induction rounds generalizing iterator s with
  | zero =>
    have hnil := List.eq_nil_of_length_eq_zero (Nat.eq_zero_of_le_zero hrounds)
    cases hmore : iterator.hasMore with
    | false =>
      rw [forEach, hmore, hnil]
      rfl
    | true =>
      obtain ⟨e, iterator', -, hrest, -⟩ := chainIterNext_eq table hmore hin
      rw [hnil] at hrest
      cases hrest
  | succ rounds ih =>
    cases hmore : iterator.hasMore with
    | false =>
      rw [forEach, hmore, ChainIter.rest, hmore]
      rfl
    | true =>
      obtain ⟨e, iterator', heq, hrest, hin'⟩ := chainIterNext_eq table hmore hin
      rw [hrest, List.length_cons] at hrounds
      rw [hrest, List.map_cons, runSteps, forEach, if_pos hmore, hnext, heq]
      simp only [Option.map_some, Option.bind_eq_bind, Option.bind_some]
      congr 1
      funext s'
      cases s' with
      | none => rfl
      | some s' => exact ih hin' (by omega) s'

end Iteration

variable {κ ν : Type}

/-- The keys are compared by an equivalence, and equal keys have one hash. -/
structure KeyFuncs.Lawful (f : KeyFuncs κ) : Prop where
  refl : ∀ a, f.equal a a = true
  symm : ∀ a b, f.equal a b = true → f.equal b a = true
  trans : ∀ a b c, f.equal a b = true → f.equal b c = true → f.equal a c = true
  hash : ∀ a b, f.equal a b = true → f.hash a = f.hash b

/-- Keys that are compared through what they stand for are lawful if the hash is one of it. -/
theorem lawful_of_view {τ β : Type} {f : KeyFuncs τ} (view : τ → β)
    (hequal : ∀ a b, f.equal a b = true ↔ view a = view b)
    (hhash : ∀ a b, view a = view b → f.hash a = f.hash b) : f.Lawful where
  refl a := (hequal a a).mpr rfl
  symm a b h := (hequal b a).mpr ((hequal a b).mp h).symm
  trans a b c h h' := (hequal a c).mpr (((hequal a b).mp h).trans ((hequal b c).mp h'))
  hash a b h := hhash a b ((hequal a b).mp h)

theorem lawful_intKeys : intKeys.Lawful :=
  lawful_of_view id (fun _ _ => beq_iff_eq) fun _ _ h => congrArg intKeys.hash h

/-- The iterator is not set to a chain if there is no entry: `next_chain` is then what it was. -/
def hashTableIterate (t : HashTable κ ν) (nextChain : Nat) : ChainIter (κ × ν) :=
  let found := findChain t.table t.tableSize 0
  if found.hasMore then found else { found with nextChain }

def hashTableIterNext (t : HashTable κ ν) (iterator : ChainIter (κ × ν)) :
    Option ν × ChainIter (κ × ν) :=
  ((chainIterNext t.table t.tableSize iterator).1.map Prod.snd,
    (chainIterNext t.table t.tableSize iterator).2)

/-- The values handed to the free function, chain by chain. -/
def hashTableFree (t : HashTable κ ν) : List ν := t.toList.map Prod.snd

/-- The table stores these entries, in some order. -/
structure TableHolds (f : KeyFuncs κ) (t : HashTable κ ν) (es : List (κ × ν)) : Prop where
  size_pos : 0 < t.tableSize
  placed : ∀ i < t.tableSize, ∀ e ∈ t.table i, f.hash e.1 % t.tableSize = i
  entries : t.toList.Perm es
  distinct : es.Pairwise fun e e' => f.equal e.1 e'.1 = false
  count : t.entries = es.length
  prime : hashTablePrimes[t.primeIndex]? = some t.tableSize

section Operations

variable {f : KeyFuncs κ} {t : HashTable κ ν} {es : List (κ × ν)} {key : κ} {value : ν}

theorem holds_emptyTable (f : KeyFuncs κ) : TableHolds f (emptyTable : HashTable κ ν) [] where
  size_pos := by rw [emptyTable_tableSize]; omega
  placed i _ e he := by cases he
  entries := by rw [emptyTable_toList]
  distinct := .nil
  count := rfl
  prime := rfl

theorem KeyFuncs.Lawful.distinct_perm (hf : f.Lawful) {es es' : List (κ × ν)}
    (hp : es.Perm es') (h : es.Pairwise fun e e' => f.equal e.1 e'.1 = false) :
    es'.Pairwise fun e e' => f.equal e.1 e'.1 = false := by
  refine hp.pairwise h fun {a b} hab => ?_
  by_contra hn
  rw [hf.symm _ _ (Bool.not_eq_false _ ▸ hn)] at hab
  cases hab

/-- The entry of a key is in the chain of the key. -/
theorem TableHolds.mem_chain (h : TableHolds f t es) (hf : f.Lawful) {e : κ × ν} (he : e ∈ es)
    (hkey : f.equal key e.1 = true) : e ∈ t.table (f.hash key % t.tableSize) := by
  obtain ⟨i, hi, hmem⟩ := mem_flatten.mp (h.entries.mem_iff.mpr he)
  rw [hf.hash key e.1 hkey, h.placed i hi e hmem]
  exact hmem

theorem TableHolds.mem_of_chain (h : TableHolds f t es) {e : κ × ν}
    (he : e ∈ t.table (f.hash key % t.tableSize)) : e ∈ es :=
  h.entries.mem_iff.mp (mem_flatten.mpr ⟨_, Nat.mod_lt _ h.size_pos, he⟩)

/-- No entry in the chain of a key has an equal key if no entry of the table has. -/
theorem TableHolds.chain_iff (h : TableHolds f t es) (hf : f.Lawful) :
    (∀ e ∈ t.table (f.hash key % t.tableSize), f.equal key e.1 = false) ↔
      ∀ e ∈ es, f.equal key e.1 = false := by
  refine ⟨fun hno e he => ?_, fun hno e he => hno e (h.mem_of_chain he)⟩
  by_contra hn
  have hkey : f.equal key e.1 = true := by simpa using hn
  rw [hno e (h.mem_chain hf he hkey)] at hkey
  cases hkey

/-- Other chains, with the right entries in the right chains. -/
theorem TableHolds.of_table (h : TableHolds f t es) {b : Nat → List (κ × ν)}
    {es' : List (κ × ν)} (n : Nat)
    (hb : ∀ i < t.tableSize, ∀ e ∈ b i, e ∈ t.table i ∨ f.hash e.1 % t.tableSize = i)
    (hperm : (flatten t.tableSize b).Perm es')
    (hdist : es'.Pairwise fun e e' => f.equal e.1 e'.1 = false) (hn : n = es'.length) :
    TableHolds f ⟨b, t.tableSize, n, t.primeIndex⟩ es' where
  size_pos := h.size_pos
  placed i hi e he := by
    rcases hb i hi e he with he | he
    · exact h.placed i hi e he
    · exact he
  entries := hperm
  distinct := hdist
  count := hn
  prime := h.prime

/-- A new entry in front of its chain. -/
theorem TableHolds.link (h : TableHolds f t es)
    (hno : ∀ e ∈ es, f.equal key e.1 = false) (value : ν) :
    TableHolds f { t with
      table := link f t.tableSize t.table (key, value)
      entries := t.entries + 1 } ((key, value) :: es) := by
  refine h.of_table _ (fun i hi e he => ?_)
    ((flatten_link h.size_pos t.table (key, value)).trans (h.entries.cons _))
    (List.pairwise_cons.mpr ⟨hno, h.distinct⟩) (by rw [h.count, List.length_cons])
  by_cases hik : i = f.hash key % t.tableSize
  · subst hik
    rw [Comm.link, Function.update_self] at he
    rcases List.mem_cons.mp he with rfl | he
    · exact .inr rfl
    · exact .inl he
  · rw [Comm.link, Function.update_of_ne hik] at he
    exact .inl he

/-- The entry of a key is cut out of its chain. -/
theorem TableHolds.cut (h : TableHolds f t es) (hf : f.Lawful) {a b : List (κ × ν)} {e : κ × ν}
    (hc : t.table (f.hash key % t.tableSize) = a ++ e :: b) :
    ∃ rest, es.Perm (e :: rest) ∧
      TableHolds f { t with
        table := Function.update t.table (f.hash key % t.tableSize) (a ++ b)
        entries := t.entries - 1 } rest := by
  obtain ⟨rest, hperm, hcut⟩ :=
    toList_update_chain (Nat.mod_lt (f.hash key) h.size_pos) (c := []) hc
  have hes : es.Perm (e :: rest) := h.entries.symm.trans hperm
  rw [List.append_nil, List.nil_append] at hcut
  refine ⟨rest, hes, h.of_table _ (fun i hi d hd => .inl ?_) hcut
    (List.pairwise_cons.mp (hf.distinct_perm hes h.distinct)).2 ?_⟩
  · by_cases hik : i = f.hash key % t.tableSize
    · subst hik
      rw [Function.update_self] at hd
      rw [hc]
      simp only [List.mem_append, List.mem_cons] at hd ⊢
      exact hd.imp_right .inr
    · rw [Function.update_of_ne hik] at hd
      exact hd
  · rw [h.count, hes.length_eq, List.length_cons, Nat.add_sub_cancel]

/-- The entry of a key is overwritten. -/
theorem TableHolds.exchange (h : TableHolds f t es) (hf : f.Lawful) {a b : List (κ × ν)}
    {e : κ × ν} (hc : t.table (f.hash key % t.tableSize) = a ++ e :: b)
    (he : f.equal e.1 key = true) (value : ν) :
    ∃ rest, es.Perm (e :: rest) ∧
      TableHolds f { t with
        table := Function.update t.table (f.hash key % t.tableSize) (a ++ (key, value) :: b) }
        ((key, value) :: rest) := by
  obtain ⟨rest, hperm, hcut⟩ :=
    toList_update_chain (Nat.mod_lt (f.hash key) h.size_pos) (c := [(key, value)]) hc
  have hes : es.Perm (e :: rest) := h.entries.symm.trans hperm
  obtain ⟨hfirst, hrest⟩ := List.pairwise_cons.mp (hf.distinct_perm hes h.distinct)
  rw [List.append_assoc, List.singleton_append, List.singleton_append] at hcut
  refine ⟨rest, hes, h.of_table _ (fun i hi d hd => ?_) hcut
    (List.pairwise_cons.mpr ⟨fun d hd => ?_, hrest⟩) ?_⟩
  · by_cases hik : i = f.hash key % t.tableSize
    · subst hik
      rw [Function.update_self] at hd
      rw [hc]
      simp only [List.mem_append, List.mem_cons] at hd ⊢
      rcases hd with hd | rfl | hd
      · exact .inl (.inl hd)
      · exact .inr rfl
      · exact .inl (.inr (.inr hd))
    · rw [Function.update_of_ne hik] at hd
      exact .inl hd
  · by_contra hn
    have hkd : f.equal key d.1 = true := by simpa using hn
    have hed := hfirst d hd
    rw [hf.trans _ _ _ he hkd] at hed
    cases hed
  · rw [h.count, hes.length_eq, List.length_cons, List.length_cons]

theorem placed_foldl_link (f : KeyFuncs κ) (size : Nat) (l : List (κ × ν))
    {b : Nat → List (κ × ν)} (hb : ∀ i, ∀ e ∈ b i, f.hash e.1 % size = i) :
    ∀ i, ∀ e ∈ l.foldl (link f size) b i, f.hash e.1 % size = i := by
  induction l generalizing b with
  | nil => exact hb
  | cons d l ih =>
    refine ih fun i e he => ?_
    by_cases hik : i = f.hash d.1 % size
    · subst hik
      rw [link, Function.update_self] at he
      rcases List.mem_cons.mp he with rfl | he
      · rfl
      · exact hb _ e he
    · rw [link, Function.update_of_ne hik] at he
      exact hb i e he

/-- Up to `2 ^ 29` entries, a table that is full has a next prime: a third of the last one is
more than that. -/
theorem TableHolds.next_prime (h : TableHolds f t es) (hfull : t.full = true)
    (hlen : es.length ≤ 2 ^ 29) : t.primeIndex + 1 < hashTablePrimes.length := by
  by_contra hn
  have hlt : t.primeIndex < hashTablePrimes.length := (List.getElem?_eq_some_iff.mp h.prime).1
  have hlast : t.primeIndex = 23 := by
    rw [show hashTablePrimes.length = 24 from rfl] at hn hlt
    omega
  have hsize : 1610612741 = t.tableSize := by
    have hprime := h.prime
    rw [hlast] at hprime
    exact Option.some.inj hprime
  have hthird : 0 < t.entries * 3 / t.tableSize := of_decide_eq_true hfull
  rw [← hsize, h.count] at hthird
  omega

/-- Up to `2 ^ 29` entries, nothing that an insertion computes overflows. -/
theorem TableHolds.intFits (h : TableHolds f t es) (hlen : es.length ≤ 2 ^ 29) : t.IntFits := by
  refine ⟨?_, fun hfull hlast => absurd (h.next_prime hfull hlen) (Nat.not_lt.mpr hlast)⟩
  rw [h.count]
  omega

/-- A bigger table holds the same entries. -/
theorem TableHolds.enlarge (h : TableHolds f t es) {t' : HashTable κ ν} (hfull : t.full = true)
    (hlen : es.length ≤ 2 ^ 29) (ht' : hashTableEnlarge f t true = some t') :
    TableHolds f t' es := by
  obtain ⟨hsize, hperm⟩ := enlarge_perm (entries_pos_of_full hfull) ht'
  have hnext := List.getElem?_eq_getElem (h.next_prime hfull hlen)
  cases ht'
  refine ⟨hsize, fun i _ e he => ?_, hperm.trans h.entries, h.distinct, h.count, ?_⟩
  · refine placed_foldl_link f _ t.toList (fun i e he => ?_) i e he
    cases he
  · show hashTablePrimes[t.primeIndex + 1]? = some (newTableSize (t.primeIndex + 1) t.entries)
    rw [newTableSize, List.getD_eq_getElem?_getD, hnext]
    rfl

/-- What a search in the chain of a key finds. -/
theorem TableHolds.search (h : TableHolds f t es) (hf : f.Lawful) (key : κ) :
    (splitFirst (fun e => f.equal key e.1) (t.table (f.hash key % t.tableSize)) = none ∧
      ∀ e ∈ es, f.equal key e.1 = false) ∨
    ∃ a e b, splitFirst (fun e => f.equal key e.1) (t.table (f.hash key % t.tableSize)) =
        some (a, e, b) ∧
      t.table (f.hash key % t.tableSize) = a ++ e :: b ∧ e ∈ es ∧ f.equal key e.1 = true := by
  cases hs : splitFirst (fun e => f.equal key e.1) (t.table (f.hash key % t.tableSize)) with
  | none => exact .inl ⟨rfl, (h.chain_iff hf).mp (splitFirst_eq_none.mp hs)⟩
  | some r =>
    obtain ⟨a, e, b⟩ := r
    obtain ⟨hc, he, -⟩ := splitFirst_eq_some hs
    have hmem : e ∈ t.table (f.hash key % t.tableSize) := by
      rw [hc]
      simp
    exact .inr ⟨a, e, b, rfl, hc, h.mem_of_chain hmem, he⟩

theorem rest_hashTableIterate (t : HashTable κ ν) (nextChain : Nat) :
    (hashTableIterate t nextChain).rest t.table t.tableSize = t.toList ∧
      (hashTableIterate t nextChain).Within t.tableSize := by
  have hrest := rest_findChain t.table t.tableSize 0 (Nat.zero_add _)
  have hin := within_findChain t.table t.tableSize 0 (Nat.zero_add _)
  rw [hashTableIterate]
  split
  · exact ⟨hrest, hin⟩
  · next hmore =>
    rw [ChainIter.rest, if_neg hmore] at hrest
    refine ⟨?_, fun h => absurd h hmore⟩
    exact (if_neg hmore).trans hrest

end Operations

inductive TableCall (κ ν : Type) where
  | insert (key : κ) (value : ν) (callocOk mallocOk : Bool)
  | lookup (key : κ)
  | remove (key : κ)
  | numEntries
  | iterate (nextChain : Nat)

/-- An insertion and a removal also answer with the value that was freed. -/
inductive TableAnswer (ν : Type) where
  | inserted (ret : Bool) (freed : Option ν)
  | found (value : Option ν)
  | removed (freed : Option ν)
  | entries (n : Nat)
  | values (vs : List ν)

/-- A call with the key functions `f`; `none` is an overflow of an `int`. An iteration takes the
values one after the other. -/
def hashTableCall (f : KeyFuncs κ) (t : HashTable κ ν) :
    TableCall κ ν → Option (TableAnswer ν × HashTable κ ν)
  | .insert key value callocOk mallocOk =>
    if t.IntFits then
      let r := hashTableInsert f t key value callocOk mallocOk
      some (.inserted r.ret r.freed, r.table)
    else none
  | .lookup key => some (.found (hashTableLookup f t key), t)
  | .remove key =>
    let r := hashTableRemove f t key
    some (.removed r.1, r.2)
  | .numEntries => some (.entries t.entries, t)
  | .iterate nextChain => do
    let vs ← forEach (hashTableIterNext t) (fun vs v => some (some (vs ++ [v]))) t.entries
      (hashTableIterate t nextChain) []
    some (.values (← vs), t)

/-- What a call answers on the entries `es`, and the entries after it, in any order. -/
inductive TableMeaning (f : KeyFuncs κ) :
    List (κ × ν) → TableCall κ ν → TableAnswer ν → List (κ × ν) → Prop
  | insert {es es' key value callocOk mallocOk} (hno : ∀ e ∈ es, f.equal key e.1 = false)
      (hes : es'.Perm ((key, value) :: es)) :
      TableMeaning f es (.insert key value callocOk mallocOk) (.inserted true none) es'
  | overwrite {es es' rest e key value callocOk mallocOk} (he : f.equal key e.1 = true)
      (hes : es.Perm (e :: rest)) (hes' : es'.Perm ((key, value) :: rest)) :
      TableMeaning f es (.insert key value callocOk mallocOk) (.inserted true (some e.2)) es'
  | insertFails {es es' key value callocOk mallocOk} (hfail : callocOk = false ∨ mallocOk = false)
      (hes : es'.Perm es) :
      TableMeaning f es (.insert key value callocOk mallocOk) (.inserted false none) es'
  | lookup {es key e} (hmem : e ∈ es) (he : f.equal key e.1 = true) :
      TableMeaning f es (.lookup key) (.found (some e.2)) es
  | lookupMisses {es key} (hno : ∀ e ∈ es, f.equal key e.1 = false) :
      TableMeaning f es (.lookup key) (.found none) es
  | remove {es rest key e} (he : f.equal key e.1 = true) (hes : es.Perm (e :: rest)) :
      TableMeaning f es (.remove key) (.removed (some e.2)) rest
  | removeMisses {es key} (hno : ∀ e ∈ es, f.equal key e.1 = false) :
      TableMeaning f es (.remove key) (.removed none) es
  | numEntries {es} : TableMeaning f es .numEntries (.entries es.length) es
  | iterate {es vs nextChain} (hvs : vs.Perm (es.map Prod.snd)) :
      TableMeaning f es (.iterate nextChain) (.values vs) es

section Calls

variable {f : KeyFuncs κ} {t : HashTable κ ν} {es : List (κ × ν)}

theorem runSteps_push {α : Type} (l acc : List α) :
    runSteps (fun vs v => some (some (vs ++ [v]))) l acc = some (some (acc ++ l)) := by
  induction l generalizing acc with
  | nil =>
    rw [List.append_nil]
    rfl
  | cons v l ih =>
    show runSteps (fun vs v => some (some (vs ++ [v]))) l (acc ++ [v]) = _
    rw [ih, List.append_assoc, List.singleton_append]

theorem KeyFuncs.Lawful.equal_comm (hf : f.Lawful) (a b : κ) : f.equal a b = f.equal b a := by
  cases hab : f.equal a b with
  | true => exact (hf.symm a b hab).symm
  | false =>
    cases hba : f.equal b a with
    | true =>
      rw [hf.symm b a hba] at hab
      cases hab
    | false => rfl

/-- An insertion into a table of the right size. -/
theorem insertEntry_meaning (h : TableHolds f t es) (hf : f.Lawful) (key : κ) (value : ν)
    (callocOk mallocOk : Bool) :
    ∃ es', TableMeaning f es (.insert key value callocOk mallocOk)
        (.inserted (insertEntry f t key value mallocOk).ret
          (insertEntry f t key value mallocOk).freed) es' ∧
      TableHolds f (insertEntry f t key value mallocOk).table es' := by
  have hcomm : (fun e : κ × ν => f.equal e.1 key) = fun e => f.equal key e.1 := by
    funext e
    exact hf.equal_comm e.1 key
  rcases h.search hf key with ⟨hs, hno⟩ | ⟨a, e, b, hs, hc, hmem, he⟩
  · rw [← hcomm] at hs
    obtain ⟨hok, hfail⟩ := insertEntry_of_none value hs
    cases mallocOk with
    | true =>
      rw [hok]
      exact ⟨_, .insert hno (List.Perm.refl _), h.link hno value⟩
    | false =>
      rw [hfail]
      exact ⟨es, .insertFails (.inr rfl) (List.Perm.refl _), h⟩
  · rw [← hcomm] at hs
    rw [insertEntry_of_some value mallocOk hs]
    obtain ⟨rest, hes, h'⟩ := h.exchange hf hc (hf.symm _ _ he) value
    exact ⟨_, .overwrite he hes (List.Perm.refl _), h'⟩

theorem hashTableInsert_meaning (h : TableHolds f t es) (hf : f.Lawful)
    (hlen : es.length ≤ 2 ^ 29) (key : κ) (value : ν) (callocOk mallocOk : Bool) :
    ∃ es', TableMeaning f es (.insert key value callocOk mallocOk)
        (.inserted (hashTableInsert f t key value callocOk mallocOk).ret
          (hashTableInsert f t key value callocOk mallocOk).freed) es' ∧
      TableHolds f (hashTableInsert f t key value callocOk mallocOk).table es' := by
  rcases insert_eq (f := f) (t := t) key value callocOk mallocOk with
    ⟨-, heq⟩ | ⟨hfull, t', ht', heq⟩ | ⟨-, hfail, heq⟩
  · rw [heq]
    exact insertEntry_meaning h hf key value callocOk mallocOk
  · rw [heq]
    cases callocOk with
    | true =>
      exact insertEntry_meaning (h.enlarge hfull hlen ht') hf key value true mallocOk
    | false => cases ht'
  · rw [heq]
    exact ⟨es, .insertFails (.inl hfail) (List.Perm.refl _), h⟩

/-- One call on a table that stores some entries, but not too many. -/
theorem hashTableCall_spec (hf : f.Lawful) (t : HashTable κ ν) (es : List (κ × ν))
    (call : TableCall κ ν) (h : TableHolds f t es) (hlen : es.length < 2 ^ 29) :
    ∃ r t' es', hashTableCall f t call = some (r, t') ∧ TableMeaning f es call r es' ∧
      TableHolds f t' es' := by
  cases call with
  | insert key value callocOk mallocOk =>
    obtain ⟨es', hm, h'⟩ := hashTableInsert_meaning h hf hlen.le key value callocOk mallocOk
    exact ⟨_, _, es', if_pos (h.intFits hlen.le), hm, h'⟩
  | lookup key =>
    refine ⟨_, t, es, rfl, ?_, h⟩
    rw [hashTableLookup, find?_eq_splitFirst]
    rcases h.search hf key with ⟨hs, hno⟩ | ⟨a, e, b, hs, -, hmem, he⟩
    · rw [hs]
      exact .lookupMisses hno
    · rw [hs]
      exact .lookup hmem he
  | remove key =>
    rcases h.search hf key with ⟨hs, hno⟩ | ⟨a, e, b, hs, hc, -, he⟩
    · refine ⟨.removed none, t, es, ?_, .removeMisses hno, h⟩
      rw [hashTableCall, remove_of_none hs]
    · obtain ⟨rest, hes, h'⟩ := h.cut hf hc
      refine ⟨.removed (some e.2), _, rest, ?_, .remove he hes, h'⟩
      rw [hashTableCall, remove_of_some hs]
  | numEntries =>
    refine ⟨.entries es.length, t, es, ?_, .numEntries, h⟩
    rw [hashTableCall, h.count]
  | iterate nextChain =>
    obtain ⟨hrest, hin⟩ := rest_hashTableIterate t nextChain
    refine ⟨.values (t.toList.map Prod.snd), t, es, ?_, .iterate (h.entries.map _), h⟩
    have hrounds :
        ((hashTableIterate t nextChain).rest t.table t.tableSize).length ≤ t.entries := by
      rw [hrest, h.count, h.entries.length_eq]
    have hloop : forEach (hashTableIterNext t) (fun vs v => some (some (vs ++ [v]))) t.entries
          (hashTableIterate t nextChain) [] =
        runSteps (fun vs v => some (some (vs ++ [v])))
          (((hashTableIterate t nextChain).rest t.table t.tableSize).map Prod.snd) [] :=
      forEach_eq (fun _ => rfl) hin hrounds []
    rw [hrest, runSteps_push, List.nil_append] at hloop
    simp only [hashTableCall, hloop, Option.bind_eq_bind, Option.bind_some]

end Calls

/-- A call adds one entry at most. -/
theorem TableMeaning.length_le {f : KeyFuncs κ} {es es' : List (κ × ν)} {call : TableCall κ ν}
    {r : TableAnswer ν} (h : TableMeaning f es call r es') : es'.length ≤ es.length + 1 := by
  cases h with
  | insert _ hes => rw [hes.length_eq, List.length_cons]
  | overwrite _ hes hes' =>
    rw [hes.length_eq, hes'.length_eq, List.length_cons, List.length_cons]
    omega
  | insertFails _ hes =>
    rw [hes.length_eq]
    omega
  | remove _ hes =>
    rw [hes.length_eq, List.length_cons]
    omega
  | lookup | lookupMisses | removeMisses | numEntries | iterate => omega

/-- The value that a call has put into the table. -/
def takenBy : TableCall κ ν × TableAnswer ν → List ν
  | (.insert _ value _ _, .inserted true _) => [value]
  | _ => []

/-- The value that a call has handed to the free function. -/
def freedBy : TableAnswer ν → List ν
  | .inserted _ freed => freed.toList
  | .removed freed => freed.toList
  | _ => []

/-- What is put in is in the table, or freed. -/
theorem TableMeaning.balance {f : KeyFuncs κ} {es es' : List (κ × ν)} {call : TableCall κ ν}
    {r : TableAnswer ν} (h : TableMeaning f es call r es') :
    (takenBy (call, r) ++ es.map Prod.snd).Perm (freedBy r ++ es'.map Prod.snd) := by
  cases h with
  | insert hno hes => exact (hes.map Prod.snd).symm
  | overwrite he hes hes' =>
    refine (List.Perm.cons _ (hes.map Prod.snd)).trans ?_
    refine (List.Perm.swap ..).trans (List.Perm.cons _ ?_)
    exact (hes'.map Prod.snd).symm
  | insertFails hfail hes => exact (hes.map Prod.snd).symm
  | remove he hes => exact hes.map Prod.snd
  | lookup | lookupMisses | removeMisses | numEntries | iterate => exact List.Perm.refl _

theorem balance_run {f : KeyFuncs κ} {es es' : List (κ × ν)} {calls : List (TableCall κ ν)}
    {rs : List (TableAnswer ν)} (h : Allows (TableMeaning f) es calls rs es') :
    ((calls.zip rs).flatMap takenBy ++ es.map Prod.snd).Perm
      (rs.flatMap freedBy ++ es'.map Prod.snd) := by
  induction h with
  | nil es => exact List.Perm.refl _
  | @cons es es₁ es₂ call r calls rs hstep _ ih =>
    have hbal := hstep.balance
    rw [List.zip_cons_cons, List.flatMap_cons, List.flatMap_cons, List.append_assoc,
      List.append_assoc]
    calc (takenBy (call, r) ++ ((calls.zip rs).flatMap takenBy ++ es.map Prod.snd)).Perm
          ((calls.zip rs).flatMap takenBy ++ (takenBy (call, r) ++ es.map Prod.snd)) :=
            List.perm_append_comm_assoc ..
      _ |>.Perm ((calls.zip rs).flatMap takenBy ++ (freedBy r ++ es₁.map Prod.snd)) :=
            hbal.append_left _
      _ |>.Perm (freedBy r ++ ((calls.zip rs).flatMap takenBy ++ es₁.map Prod.snd)) :=
            List.perm_append_comm_assoc ..
      _ |>.Perm (freedBy r ++ (rs.flatMap freedBy ++ es₂.map Prod.snd)) := ih.append_left _

theorem hashTable_run {f : KeyFuncs κ} (hf : f.Lawful) {calls : List (TableCall κ ν)}
    (hlen : calls.length ≤ 2 ^ 29) :
    ∃ rs t es, answers (hashTableCall f) emptyTable calls = some (rs, t) ∧
      Allows (TableMeaning f) [] calls rs es ∧ TableHolds f t es := by
  refine exists_answers_within (hashTableCall_spec hf) (fun _ _ _ _ => TableMeaning.length_le)
    (holds_emptyTable f) calls ?_
  rwa [List.length_nil, Nat.zero_add]

/-- With lawful key functions and up to `2 ^ 29` calls, whatever they are and whichever
allocations fail, no `int` overflows, every iteration ends, and each answer is right for the
entries that the calls before it have left. -/
theorem hashTable_answers_allowed {f : KeyFuncs κ} (hf : f.Lawful) (calls : List (TableCall κ ν))
    (hlen : calls.length ≤ 2 ^ 29) :
    ∃ rs t es, answers (hashTableCall f) emptyTable calls = some (rs, t) ∧
      Allows (TableMeaning f) [] calls rs es ∧ TableHolds f t es := hashTable_run hf hlen

theorem hashTable_answers_allowed_collision :
    intKeys.Lawful ∧ 6 ≤ 2 ^ 29 ∧ ∃ rs t es, answers (hashTableCall intKeys) emptyTable
        [.insert 1 10 true true, .insert 194 20 true true, .insert 1 30 true true, .remove 194,
          .lookup 1, .iterate 0] = some (rs, t) ∧
      Allows (TableMeaning intKeys) [] [.insert 1 10 true true, .insert 194 20 true true,
        .insert 1 30 true true, .remove 194, .lookup 1, .iterate 0] rs es ∧
      TableHolds intKeys t (es : List (Int × Nat)) :=
  ⟨lawful_intKeys, by decide, hashTable_answers_allowed lawful_intKeys _ (by decide)⟩

/-- Every value that was put into the table by up to `2 ^ 29` calls has been handed to the free
function once when the table is freed. -/
theorem hashTable_frees_once {f : KeyFuncs κ} (hf : f.Lawful) (calls : List (TableCall κ ν))
    (hlen : calls.length ≤ 2 ^ 29) :
    ∃ rs t, answers (hashTableCall f) emptyTable calls = some (rs, t) ∧
      ((calls.zip rs).flatMap takenBy).Perm (rs.flatMap freedBy ++ hashTableFree t) := by
  obtain ⟨rs, t, es, heq, hall, h⟩ := hashTable_run hf hlen
  refine ⟨rs, t, heq, ?_⟩
  have hbal := balance_run hall
  rw [List.map_nil, List.append_nil] at hbal
  exact hbal.trans ((h.entries.map Prod.snd).symm.append_left _)

theorem hashTable_frees_once_overwritten :
    intKeys.Lawful ∧ 3 ≤ 2 ^ 29 ∧ ∃ rs t, answers (hashTableCall intKeys) emptyTable
        [.insert 1 10 true true, .insert 194 20 true true, .insert 1 30 true true] = some (rs, t) ∧
      ((List.zip [TableCall.insert (1 : Int) 10 true true, .insert 194 20 true true,
        .insert 1 30 true true] rs).flatMap takenBy).Perm
          (rs.flatMap freedBy ++ hashTableFree (t : HashTable Int Nat)) :=
  ⟨lawful_intKeys, by decide, hashTable_frees_once lawful_intKeys _ (by decide)⟩

end BaseCode.Comm
