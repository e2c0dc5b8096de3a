import BaseCode.Comm.TrieSpec

/-!
# Runs of the trie

What the trie is for: a list of entries with distinct keys. An insertion of a new key needs one
node for each prefix that no key goes through yet, and leaves everything as it was if it does
not get them all.
-/

namespace BaseCode.Comm
open Foundation

/-- A string that a `char` can index with: no terminator inside, no byte with the sign bit. -/
def TrieKey := { key : List UInt8 // ∀ c ∈ key, 0 < c ∧ c < 128 }

inductive TrieCall (ν : Type) where
  | insert (key : TrieKey) (value : Option ν) (budget : Nat)
  | remove (key : TrieKey)
  | lookup (key : TrieKey)
  | numEntries

inductive TrieAnswer (ν : Type) where
  | inserted (r : Int)
  | removed (r : Int)
  | found (value : Option ν)
  | entries (n : Int)

variable {ν : Type}

def trieCall (trie : Trie ν) : TrieCall ν → Option (TrieAnswer ν × Trie ν)
  | .insert key value budget => do
    let (r, trie) ← trieInsert trie key.1 value budget
    some (.inserted r, trie)
  | .remove key => do
    let (r, trie) ← trieRemove trie key.1
    some (.removed r, trie)
  | .lookup key => do some (.found (← trieLookup trie key.1), trie)
  | .numEntries => do some (.entries (← trieNumEntries trie), trie)

/-- The number of keys that begin with `w`. -/
def under (es : List (List UInt8 × ν)) (w : List UInt8) : Nat := es.countP fun e => w <+: e.1

/-- The prefixes of `key` that no key begins with. -/
def newPrefixes (es : List (List UInt8 × ν)) (key : List UInt8) : Nat :=
  key.inits.countP fun w => under es w = 0

/-- What a call answers on the entries `es`, and the entries after it. -/
inductive TrieMeaning :
    List (List UInt8 × ν) → TrieCall ν → TrieAnswer ν → List (List UInt8 × ν) → Prop
  | insertNull {es key budget} : TrieMeaning es (.insert key none budget) (.inserted 0) es
  | replace {as bs key v value budget} :
      TrieMeaning (as ++ (key.1, v) :: bs) (.insert key (some value) budget) (.inserted 1)
        (as ++ (key.1, value) :: bs)
  | insert {es key value budget} (hnew : ∀ e ∈ es, e.1 ≠ key.1)
      (hroom : newPrefixes es key.1 ≤ budget) :
      TrieMeaning es (.insert key (some value) budget) (.inserted 1) ((key.1, value) :: es)
  | insertFails {es key value budget} (hnew : ∀ e ∈ es, e.1 ≠ key.1)
      (hroom : budget < newPrefixes es key.1) :
      TrieMeaning es (.insert key (some value) budget) (.inserted 0) es
  | remove {as bs key v} :
      TrieMeaning (as ++ (key.1, v) :: bs) (.remove key) (.removed 1) (as ++ bs)
  | removeMisses {es key} (hno : ∀ e ∈ es, e.1 ≠ key.1) :
      TrieMeaning es (.remove key) (.removed 0) es
  | lookup {es key v} (hmem : (key.1, v) ∈ es) : TrieMeaning es (.lookup key) (.found (some v)) es
  | lookupMisses {es key} (hno : ∀ e ∈ es, e.1 ≠ key.1) :
      TrieMeaning es (.lookup key) (.found none) es
  | numEntries {es} : TrieMeaning es .numEntries (.entries es.length) es

section Entries

variable {es as bs : List (List UInt8 × ν)} {key : List UInt8} {v : ν}

theorem under_middle :
    under (as ++ (key, v) :: bs) = window key 0 (key.length + 1) (under (as ++ bs)) := by
  funext w
  have hiff : w <+: key ↔ w <+: key ∧ 0 ≤ w.length ∧ w.length < key.length + 1 :=
    ⟨fun h => ⟨h, Nat.zero_le _, Nat.lt_succ_of_le h.length_le⟩, And.left⟩
  simp only [under, window, List.countP_append, List.countP_cons, decide_eq_true_eq, ← hiff]
  omega

theorem under_replace (value : ν) :
    under (as ++ (key, v) :: bs) = under (as ++ (key, value) :: bs) := by
  rw [under_middle, under_middle]

theorem under_lt (hlen : es.length + 1 < 2 ^ 32) (w : List UInt8) : under es w + 1 < 2 ^ 32 := by
  have hle : under es w ≤ es.length := List.countP_le_length
  omega

theorem lookup_eq_none (hno : ∀ e ∈ es, e.1 ≠ key) : es.lookup key = none := by
  rw [List.lookup_eq_none_iff]
  intro e he
  simpa using Ne.symm (hno e he)

/-- The value of the one entry with this key, and the others'. -/
theorem lookup_middle (hno : ∀ e ∈ as, e.1 ≠ key) :
    (fun w => (as ++ (key, v) :: bs).lookup w) =
      Function.update (fun w => (as ++ bs).lookup w) key (some v) := by
  funext w
  by_cases hw : w = key
  · subst hw
    rw [Function.update_self, List.lookup_append, lookup_eq_none hno]
    simp
  · have hne : (w == key) = false := by simpa using hw
    rw [Function.update_of_ne hw, List.lookup_append, List.lookup_append, List.lookup_cons, hne]

theorem atRest_entries (es : List (List UInt8 × ν)) : AtRest (fun w => es.lookup w) (under es) where
  shrinking u c := by
    refine List.countP_mono_left fun e _ h => ?_
    rw [decide_eq_true_eq] at h ⊢
    exact (List.prefix_append u [c]).trans h
  data_none w h0 := by
    refine lookup_eq_none fun e he heq => ?_
    rw [under, List.countP_eq_zero] at h0
    exact h0 e he (by simp [heq])

/-- The entry of a key, or that there is none. -/
theorem exists_middle (hnodup : (es.map Prod.fst).Nodup) (key : List UInt8) :
    (∀ e ∈ es, e.1 ≠ key) ∨
      ∃ as v bs, es = as ++ (key, v) :: bs ∧ (∀ e ∈ as, e.1 ≠ key) ∧ ∀ e ∈ bs, e.1 ≠ key := by
  by_cases hmem : ∃ e ∈ es, e.1 = key
  · obtain ⟨⟨k, v⟩, he, rfl⟩ := hmem
    obtain ⟨as, bs, rfl⟩ := List.append_of_mem he
    rw [List.map_append, List.map_cons, List.nodup_append, List.nodup_cons] at hnodup
    obtain ⟨-, ⟨hbs, -⟩, hdisj⟩ := hnodup
    refine .inr ⟨as, v, bs, rfl, fun e hmem heq => ?_, fun e hmem heq => ?_⟩
    · exact hdisj e.1 (List.mem_map_of_mem hmem) k List.mem_cons_self heq
    · rw [← heq] at hbs
      exact hbs (List.mem_map_of_mem hmem)
  · exact .inl fun e he heq => hmem ⟨e, he, heq⟩

end Entries

/-- The trie stores these entries. -/
structure TrieHolds (t : Trie ν) (es : List (List UInt8 × ν)) : Prop where
  nodup : (es.map Prod.fst).Nodup
  counted : ∃ loc, Counted t loc (fun w => es.lookup w) (under es)

section Operations

variable {t : Trie ν} {es : List (List UInt8 × ν)}

theorem TrieHolds.new : TrieHolds (trieNew : Trie ν) [] where
  nodup := List.nodup_nil
  counted := ⟨fun _ => none, Located.empty _, fun _ => by simp [under]⟩

theorem TrieKey.lt (key : TrieKey) : ∀ c ∈ key.1, c < 128 := fun c hc => (key.2 c hc).2

theorem trieLookup_eq (h : TrieHolds t es) (key : TrieKey) :
    trieLookup t key.1 = some (es.lookup key.1) := by
  obtain ⟨loc, hc⟩ := h.counted
  have hr := atRest_entries es
  rw [trieLookup, trieFindEnd_eq hc hr.shrinking key.lt]
  exact trieData_eq hc hr key.1

theorem trieNumEntries_eq (h : TrieHolds t es) (hlen : es.length < 2 ^ 31) :
    trieNumEntries t = some (es.length : Int) := by
  obtain ⟨loc, hc⟩ := h.counted
  have hint : (BitVec.ofNat 32 es.length).toInt = es.length := by
    have hnat : (BitVec.ofNat 32 es.length).toNat = es.length := by
      rw [BitVec.toNat_ofNat]
      exact Nat.mod_eq_of_lt (by omega)
    rw [BitVec.toInt_eq_toNat_of_lt (by omega), hnat]
  have hall : under es [] = es.length := by
    rw [under, List.countP_eq_length]
    intro e _
    simp
  rw [trieNumEntries, hc.located.root]
  cases hl : loc [] with
  | none =>
    rw [← hall, (hc.none_iff []).mp hl]
    rfl
  | some a => simp only [hc.cell hl, hall, hint, Option.bind_eq_bind, Option.bind_some]

/-- A new key goes in if all the nodes it needs can be made. -/
theorem trieInsert_new (h : TrieHolds t es) (hlen : es.length + 1 < 2 ^ 32) (key : TrieKey)
    (hno : ∀ e ∈ es, e.1 ≠ key.1) (value : ν) (budget : Nat) :
    (newPrefixes es key.1 ≤ budget ∧ ∃ t', trieInsert t key.1 (some value) budget = some (1, t') ∧
      TrieHolds t' ((key.1, value) :: es)) ∨
    (budget < newPrefixes es key.1 ∧ ∃ t', trieInsert t key.1 (some value) budget = some (0, t') ∧
      TrieHolds t' es) := by
  obtain ⟨loc, hc⟩ := h.counted
  have hr := atRest_entries es
  have hdata := trieData_eq hc hr key.1
  rw [lookup_eq_none hno] at hdata
  have hstart : trieInsert t key.1 (some value) budget = trieInsertNew t key.1 value budget := by
    rw [trieInsert, trieFindEnd_eq hc hr.shrinking key.lt]
    simp only [hdata, Option.bind_eq_bind, Option.bind_some]
    cases loc key.1 <;> rfl
  rw [hstart]
  have hwin : Counted t loc (fun w => es.lookup w) (window key.1 0 0 (under es)) := by
    rw [window_self]
    exact hc
  rcases insertFrom_spec hr (under_lt hlen) value (List.nil_append key.1) key.lt
      (show SlotAt loc [] .root from rfl) hwin budget with
    ⟨hle, t', loc', heq, h'⟩ | ⟨hlt, t', loc', k, heq, hk, h0, h'⟩
  · refine .inl ⟨hle, t', ?_, ?_, loc', ?_⟩
    · simp only [trieInsertNew, heq, Option.bind_eq_bind, Option.bind_some, if_true]
    · rw [List.map_cons, List.nodup_cons]
      refine ⟨fun hmem => ?_, h.nodup⟩
      obtain ⟨e, he, heq⟩ := List.mem_map.mp hmem
      exact hno e he heq
    · rw [← List.nil_append ((key.1, value) :: es), under_middle, lookup_middle (by simp)]
      exact h'
  · obtain ⟨t'', loc'', heq', h''⟩ := insertRollback_spec hk h0 (List.nil_append key.1) key.lt
      (Nat.zero_le k) (show PrevPtr loc' [] (some .root) from rfl) h'
    refine .inr ⟨hlt, t'', ?_, h.nodup, loc'', h''⟩
    rw [← h'.located.root] at heq'
    simp only [trieInsertNew, heq, heq', Option.bind_eq_bind, Option.bind_some,
      if_neg Bool.false_ne_true]

/-- The node at the key of an entry. -/
theorem exists_node {as bs : List (List UInt8 × ν)} {key : List UInt8} {v : ν}
    {loc : List UInt8 → Option Nat} {dat : List UInt8 → Option ν}
    (hc : Counted t loc dat (under (as ++ (key, v) :: bs))) : ∃ a, loc key = some a := by
  apply hc.exists_loc
  rw [under_middle, window_at (List.prefix_refl key) (Nat.lt_succ_self _) (Nat.zero_le _)]
  exact Nat.succ_pos _

/-- The value of a key that is there is replaced. -/
theorem trieInsert_replace {as bs : List (List UInt8 × ν)} {key : TrieKey} {v : ν}
    (h : TrieHolds t (as ++ (key.1, v) :: bs)) (has : ∀ e ∈ as, e.1 ≠ key.1) (value : ν)
    (budget : Nat) :
    ∃ t', trieInsert t key.1 (some value) budget = some (1, t') ∧
      TrieHolds t' (as ++ (key.1, value) :: bs) := by
  obtain ⟨loc, hc⟩ := h.counted
  have hr := atRest_entries (as ++ (key.1, v) :: bs)
  obtain ⟨a, ha⟩ := exists_node hc
  have hdata := trieData_eq hc hr key.1
  rw [congrFun (lookup_middle has) key.1, Function.update_self, ha] at hdata
  obtain ⟨t', ht', h', -⟩ := setData hc ha (some value)
  refine ⟨t', ?_, ?_, loc, ?_⟩
  · rw [trieInsert, trieFindEnd_eq hc hr.shrinking key.lt]
    simp only [ha, hdata, ht', Option.bind_eq_bind, Option.bind_some]
  · have hnodup := h.nodup
    rw [List.map_append, List.map_cons] at hnodup ⊢
    exact hnodup
  · rw [lookup_middle has, Function.update_idem, under_replace value] at h'
    rw [lookup_middle has]
    exact h'

/-- A key that is there is removed, with the nodes that only it needed. -/
theorem trieRemove_spec {as bs : List (List UInt8 × ν)} {key : TrieKey} {v : ν}
    (h : TrieHolds t (as ++ (key.1, v) :: bs)) (has : ∀ e ∈ as, e.1 ≠ key.1)
    (hbs : ∀ e ∈ bs, e.1 ≠ key.1) :
    ∃ t', trieRemove t key.1 = some (1, t') ∧ TrieHolds t' (as ++ bs) := by
  obtain ⟨loc, hc⟩ := h.counted
  have hr := atRest_entries (as ++ (key.1, v) :: bs)
  obtain ⟨a, ha⟩ := exists_node hc
  have hdata := trieData_eq hc hr key.1
  rw [congrFun (lookup_middle has) key.1, Function.update_self, ha] at hdata
  obtain ⟨t₁, ht₁, h₁, -⟩ := setData hc ha none
  have hgone : Function.update (fun w => (as ++ bs).lookup w) key.1 none =
      fun w => (as ++ bs).lookup w := by
    refine Function.update_eq_self_iff.mpr (lookup_eq_none fun e he => ?_).symm
    rcases List.mem_append.mp he with he | he
    · exact has e he
    · exact hbs e he
  rw [lookup_middle has, Function.update_idem, hgone, under_middle] at h₁
  obtain ⟨t', loc', ht', h'⟩ := removeFrom_spec (atRest_entries (as ++ bs)).shrinking
    (List.nil_append key.1) key.lt (fun h => by cases h)
    (show PrevPtr loc [] (some .root) from rfl) h₁
  refine ⟨t', ?_, ?_, loc', h'⟩
  · rw [← h₁.located.root] at ht'
    rw [trieRemove, trieFindEnd_eq hc hr.shrinking key.lt]
    simp only [ha, hdata, ht₁, ht', Option.bind_eq_bind, Option.bind_some]
  · have hsub : List.Sublist (as ++ bs) (as ++ (key.1, v) :: bs) :=
      (List.sublist_cons_self _ _).append_left as
    exact h.nodup.sublist (hsub.map Prod.fst)

theorem trieRemove_misses (h : TrieHolds t es) (key : TrieKey) (hno : ∀ e ∈ es, e.1 ≠ key.1) :
    trieRemove t key.1 = some (0, t) := by
  obtain ⟨loc, hc⟩ := h.counted
  have hr := atRest_entries es
  have hdata := trieData_eq hc hr key.1
  rw [lookup_eq_none hno] at hdata
  rw [trieRemove, trieFindEnd_eq hc hr.shrinking key.lt]
  simp only [hdata, Option.bind_eq_bind, Option.bind_some]
  cases loc key.1 <;> rfl

/-- One call on a trie that stores some entries. -/
theorem trieCall_spec (t : Trie ν) (es : List (List UInt8 × ν)) (call : TrieCall ν)
    (h : TrieHolds t es) (hlen : es.length < 2 ^ 31 - 1) :
    ∃ r t' es', trieCall t call = some (r, t') ∧ TrieMeaning es call r es' ∧ TrieHolds t' es' := by
  cases call with
  | insert key value budget =>
    cases value with
    | none => exact ⟨.inserted 0, t, es, rfl, .insertNull, h⟩
    | some value =>
      rcases exists_middle h.nodup key.1 with hno | ⟨as, v, bs, rfl, has, -⟩
      · rcases trieInsert_new h (by omega) key hno value budget with
          ⟨hroom, t', heq, h'⟩ | ⟨hroom, t', heq, h'⟩
        · refine ⟨.inserted 1, t', _, ?_, .insert hno hroom, h'⟩
          simp only [trieCall, heq, Option.bind_eq_bind, Option.bind_some]
        · refine ⟨.inserted 0, t', _, ?_, .insertFails hno hroom, h'⟩
          simp only [trieCall, heq, Option.bind_eq_bind, Option.bind_some]
      · obtain ⟨t', heq, h'⟩ := trieInsert_replace h has value budget
        refine ⟨.inserted 1, t', _, ?_, .replace, h'⟩
        simp only [trieCall, heq, Option.bind_eq_bind, Option.bind_some]
  | remove key =>
    rcases exists_middle h.nodup key.1 with hno | ⟨as, v, bs, rfl, has, hbs⟩
    · refine ⟨.removed 0, t, es, ?_, .removeMisses hno, h⟩
      simp only [trieCall, trieRemove_misses h key hno, Option.bind_eq_bind, Option.bind_some]
    · obtain ⟨t', heq, h'⟩ := trieRemove_spec h has hbs
      refine ⟨.removed 1, t', _, ?_, .remove, h'⟩
      simp only [trieCall, heq, Option.bind_eq_bind, Option.bind_some]
  | lookup key =>
    refine ⟨.found (es.lookup key.1), t, es, ?_, ?_, h⟩
    · simp only [trieCall, trieLookup_eq h key, Option.bind_eq_bind, Option.bind_some]
    · rcases exists_middle h.nodup key.1 with hno | ⟨as, v, bs, rfl, has, -⟩
      · rw [lookup_eq_none hno]
        exact .lookupMisses hno
      · rw [congrFun (lookup_middle has) key.1, Function.update_self]
        exact .lookup (by simp)
  | numEntries =>
    refine ⟨.entries es.length, t, es, ?_, .numEntries, h⟩
    simp only [trieCall, trieNumEntries_eq h (by omega), Option.bind_eq_bind, Option.bind_some]

end Operations

section Free

variable {nodes : Arena (TrieNode ν)} {loc : List UInt8 → Option Nat}
  {info : List UInt8 → TrieInfo ν} {w : List UInt8}

/-- The children of a node are put before the other roots on the free list. -/
theorem freePush_spec {n : TrieNode ν} (hn : n.next = fun c => loc (w ++ [c]))
    (hlive : ∀ v a, loc v = some a → ∃ m, nodes.cells a = some m) {is : List Nat} (his : is.Nodup)
    (hlt : ∀ i ∈ is, i < 256) {ws : List (List UInt8)} (hws : ws.Nodup)
    (hout : ∀ i ∈ is, w ++ [UInt8.ofNat i] ∉ ws) {freeList : List Nat}
    (hlist : ws.map loc = freeList.map some) :
    ∃ (freeList' : List Nat) (ws' : List (List UInt8)),
      is.foldlM (trieFreePush nodes n) freeList = some freeList' ∧ ws'.Nodup ∧
      ws'.map loc = freeList'.map some ∧
      ∀ v, v ∈ ws' ↔ v ∈ ws ∨ ∃ i ∈ is, v = w ++ [UInt8.ofNat i] ∧ loc v ≠ none := by
  induction is generalizing ws freeList with
  | nil => exact ⟨freeList, ws, rfl, hws, hlist, fun v => by simp⟩
  | cons i is ih =>
    obtain ⟨hi, his⟩ := List.nodup_cons.mp his
    have hlt' : ∀ j ∈ is, j < 256 := fun j hj => hlt j (List.mem_cons_of_mem i hj)
    have hnext : n.next (UInt8.ofNat i) = loc (w ++ [UInt8.ofNat i]) := by rw [hn]
    cases hl : loc (w ++ [UInt8.ofNat i]) with
    | none =>
      rw [hl] at hnext
      obtain ⟨l', ws', heq, hnodup, hmap, hmem⟩ := ih his hlt' hws
        (fun j hj => hout j (List.mem_cons_of_mem i hj)) hlist
      refine ⟨l', ws', ?_, hnodup, hmap, fun v => ?_⟩
      · rw [List.foldlM_cons, trieFreePush, hnext]
        exact heq
      · rw [hmem v, List.exists_mem_cons_iff]
        refine or_congr_right ⟨.inr, ?_⟩
        rintro (⟨rfl, hne⟩ | h)
        · exact absurd hl hne
        · exact h
    | some a =>
      rw [hl] at hnext
      obtain ⟨m, hm⟩ := hlive _ a hl
      have hnew : w ++ [UInt8.ofNat i] ∉ ws := hout i List.mem_cons_self
      have hne : ∀ j ∈ is, w ++ [UInt8.ofNat j] ∉ (w ++ [UInt8.ofNat i]) :: ws := by
        intro j hj hmem
        rcases List.mem_cons.mp hmem with heq | hmem
        · have hij : UInt8.ofNat j = UInt8.ofNat i := by simpa using heq
          have hji : j = i := by
            have h1 := congrArg UInt8.toNat hij
            have h2 := hlt' j hj
            have h3 := hlt i List.mem_cons_self
            rw [UInt8.toNat_ofNat', UInt8.toNat_ofNat'] at h1
            omega
          exact hi (hji ▸ hj)
        · exact hout j (List.mem_cons_of_mem i hj) hmem
      have hlist' : ((w ++ [UInt8.ofNat i]) :: ws).map loc = (a :: freeList).map some := by
        rw [List.map_cons, List.map_cons, hl, hlist]
      obtain ⟨l', ws', heq, hnodup, hmap, hmem⟩ := ih his hlt'
        (List.nodup_cons.mpr ⟨hnew, hws⟩) hne hlist'
      refine ⟨l', ws', ?_, hnodup, hmap, fun v => ?_⟩
      · rw [List.foldlM_cons, trieFreePush, hnext]
        simp only [hm, Option.bind_eq_bind, Option.bind_some]
        exact heq
      · rw [hmem v, List.exists_mem_cons_iff, List.mem_cons]
        refine ⟨?_, ?_⟩
        · rintro ((rfl | h) | h)
          · exact .inr (.inl ⟨rfl, by rw [hl]; exact Option.some_ne_none a⟩)
          · exact .inl h
          · exact .inr (.inr h)
        · rintro (h | ⟨rfl, -⟩ | h)
          · exact .inl (.inr h)
          · exact .inl (.inl rfl)
          · exact .inr h

/-- What is on the free list is freed, with everything below. -/
theorem freeFrom_spec {fuel : Nat} {ws : List (List UInt8)} {freeList : List Nat}
    (h : Forest nodes loc info ws) (hlist : ws.map loc = freeList.map some)
    (hfuel : nodes.next ≤ nodes.frees.length + fuel) :
    ∃ nodes', trieFreeFrom fuel nodes freeList = some nodes' ∧ (∀ a, ¬ nodes'.Live a) ∧
      nodes'.Sound := by
  induction fuel generalizing nodes loc ws freeList with
  | zero =>
    cases ws with
    | nil =>
      obtain rfl : freeList = [] := by simpa using hlist.symm
      exact ⟨nodes, rfl, h.not_live, h.sound⟩
    | cons w ws =>
      obtain ⟨a, ha⟩ := Option.ne_none_iff_exists'.mp (h.roots w List.mem_cons_self)
      have hlt := h.sound.length_frees_lt (Option.isSome_iff_exists.mpr ⟨_, h.cell w a ha⟩)
      omega
  | succ fuel ih =>
    cases ws with
    | nil =>
      obtain rfl : freeList = [] := by simpa using hlist.symm
      exact ⟨nodes, rfl, h.not_live, h.sound⟩
    | cons w ws =>
      cases freeList with
      | nil => cases hlist
      | cons a freeList =>
        obtain ⟨ha, hlist⟩ := List.cons.inj hlist
        have hcell := h.cell w a ha
        have hlive : ∀ v a, loc v = some a → ∃ m, nodes.cells a = some m := fun v a hv =>
          ⟨_, h.cell v a hv⟩
        have hout : ∀ i ∈ List.range 256, w ++ [UInt8.ofNat i] ∉ ws := by
          intro i _ hi
          have hnone := h.top w _ (List.mem_cons_of_mem w hi)
          rw [ha] at hnone
          cases hnone
        obtain ⟨freeList', ws', heq, hnodup, hmap, hmem⟩ := freePush_spec
          (n := ⟨info w, fun c => loc (w ++ [c])⟩) rfl hlive List.nodup_range
          (fun i hi => List.mem_range.mp hi) (List.nodup_cons.mp h.nodup).2 hout hlist
        have hkids : ∀ v, v ∈ ws' ↔ v ∈ ws ∨ ∃ c, v = w ++ [c] ∧ loc v ≠ none := by
          intro v
          rw [hmem v]
          refine or_congr_right ⟨?_, ?_⟩
          · rintro ⟨i, -, hv⟩
            exact ⟨_, hv⟩
          · rintro ⟨c, hv⟩
            refine ⟨c.toNat, List.mem_range.mpr c.toNat_lt, ?_⟩
            rw [UInt8.ofNat_toNat]
            exact hv
        have h' := h.free ha hnodup hkids
        have hne : ∀ v ∈ ws', Function.update loc w none v = loc v := by
          intro v hv
          refine Function.update_of_ne ?_ ..
          rintro rfl
          exact h'.roots v hv (Function.update_self ..)
        obtain ⟨nodes', heq', hres⟩ := ih h' ((List.map_congr_left hne).trans hmap) (by
          show nodes.next ≤ (a :: nodes.frees).length + fuel
          rw [List.length_cons]
          omega)
        refine ⟨nodes', ?_, hres⟩
        simp only [trieFreeFrom, hcell, heq, heq', Option.bind_eq_bind, Option.bind_some]

theorem trieFree_spec {t : Trie ν} {es : List (List UInt8 × ν)} (h : TrieHolds t es) {fuel : Nat}
    (hfuel : t.nodes.next ≤ fuel) :
    ∃ nodes, trieFree fuel t = some nodes ∧ (∀ a, ¬ nodes.Live a) ∧ nodes.Sound := by
  obtain ⟨loc, hc⟩ := h.counted
  have hgap : ∀ u c, loc (u ++ [c]) ≠ none → loc u ≠ none := by
    intro u c hne hu
    have hle := (atRest_entries es).shrinking u c
    rw [(hc.none_iff u).mp hu] at hle
    exact hne ((hc.none_iff _).mpr (Nat.eq_zero_of_le_zero hle))
  refine freeFrom_spec (Forest.of_located hc.located hgap) ?_ (by omega)
  have hroot := hc.located.root
  cases hr : t.root with
  | none => simp
  | some a =>
    rw [hr] at hroot
    simp [← hroot]

end Free

theorem TrieMeaning.length_le {es es' : List (List UInt8 × ν)} {call : TrieCall ν}
    {r : TrieAnswer ν} (h : TrieMeaning es call r es') : es'.length ≤ es.length + 1 := by
  cases h with
  | remove => simp; omega
  | _ => simp

/-- Whatever calls are made, fewer than an `int` can count, and whichever allocations fail,
no call follows a null or freed pointer, and each answer is right for the entries that the calls
before it have left. -/
theorem trie_answers_allowed (calls : List (TrieCall ν)) (hlen : calls.length < 2 ^ 31) :
    ∃ rs t es, answers trieCall trieNew calls = some (rs, t) ∧
      Allows TrieMeaning [] calls rs es ∧ TrieHolds t es :=
  exists_answers_within trieCall_spec (fun _ _ _ _ h => h.length_le) TrieHolds.new calls
    (by rw [List.length_nil]; omega)

/-- The first insertion gets one node of the two it needs. -/
theorem trie_answers_allowed_short :
    ∃ rs t es, answers trieCall trieNew
        [.insert ⟨[97], by simp⟩ (some 5) 1, .insert ⟨[97], by simp⟩ (some 5) 2,
          .lookup ⟨[97], by simp⟩, .remove ⟨[97], by simp⟩] = some (rs, t) ∧
      Allows TrieMeaning [] [.insert ⟨[97], by simp⟩ (some 5) 1,
        .insert ⟨[97], by simp⟩ (some 5) 2, .lookup ⟨[97], by simp⟩,
        .remove ⟨[97], by simp⟩] rs es ∧ TrieHolds t es :=
  trie_answers_allowed _ (by simp)

/-- After any such calls, `trie_free` ends, and every node that was allocated has been freed
once. -/
theorem trie_free_frees_all (calls : List (TrieCall ν)) (hlen : calls.length < 2 ^ 31) :
    ∃ rs t, answers trieCall trieNew calls = some (rs, t) ∧
      ∀ fuel, t.nodes.next ≤ fuel → ∃ nodes, trieFree fuel t = some nodes ∧
        (∀ a, ¬ nodes.Live a) ∧ nodes.frees.Nodup := by
  have hnew : TrieHolds (trieNew : Trie ν) [] := TrieHolds.new
  obtain ⟨rs, t, es, heq, -, h⟩ := exists_answers_within trieCall_spec
    (fun _ _ _ _ h => h.length_le) hnew calls (by rw [List.length_nil]; omega)
  refine ⟨rs, t, heq, fun fuel hfuel => ?_⟩
  obtain ⟨nodes, hn, hdead, hsound⟩ := trieFree_spec h hfuel
  exact ⟨nodes, hn, hdead, hsound.once⟩

theorem trie_free_frees_all_short :
    ∃ rs t, answers trieCall trieNew
        [.insert ⟨[97], by simp⟩ (some 5) 2, .insert ⟨[97, 98], by simp⟩ (some 6) 1] =
          some (rs, t) ∧
      ∀ fuel, t.nodes.next ≤ fuel → ∃ nodes, trieFree fuel t = some nodes ∧
        (∀ a, ¬ nodes.Live a) ∧ nodes.frees.Nodup :=
  trie_free_frees_all _ (by simp)

end BaseCode.Comm
