import Mathlib.Data.Finset.Card
import BaseCode.Foundation.Handles
import BaseCode.Comm.HashTableRuns

/-!
# The set

`src/comm/set.c`. Its array of chains has the primes and the growth of the hash table, and
chains of data without values. A set keeps the functions it was created with; a union or an
intersection is a new set that shares the data of its operands and has no free function. All
allocations of one call draw on one budget: the first that fails ends the call.
-/

namespace BaseCode.Comm
open Foundation

variable {α : Type}

/-- `struct _Set`; the free function is registered or not. -/
structure SetTable (α : Type) where
  table : HashTable α Unit
  funcs : KeyFuncs α
  freeFunc : Bool

/-- The set and the rest of the budget. -/
def setNew (funcs : KeyFuncs α) (budget : Nat) : Option (SetTable α × Nat) :=
  (hashTableNew (decide (0 < budget)) (decide (1 < budget))).map fun table =>
    (⟨table, funcs, false⟩, budget - 2)

/-- The data handed to the free function, chain by chain. -/
def setFree (set : SetTable α) : List α :=
  if set.freeFunc then set.table.toList.map Prod.fst else []

def setRegisterFreeFunction (set : SetTable α) (freeFunc : Bool) : SetTable α :=
  { set with freeFunc }

def setEnlarge (set : SetTable α) (callocOk : Bool) : Option (SetTable α) :=
  (hashTableEnlarge set.funcs set.table callocOk).map fun table => { set with table }

/-- The chain that some data belongs to. -/
def SetTable.chain (set : SetTable α) (data : α) : List (α × Unit) :=
  set.table.table (set.funcs.hash data % set.table.tableSize)

def setQuery (set : SetTable α) (data : α) : Bool :=
  (set.chain data).any fun entry => set.funcs.equal data entry.1

/-- The part of `set_insert` after the table has its size. -/
def setInsertEntry (set : SetTable α) (data : α) (budget : Nat) : Bool × SetTable α × Nat :=
  if (set.chain data).any fun entry => set.funcs.equal data entry.1 then (false, set, budget)
  else if 0 < budget then
    (true, { set with table := { set.table with
      table := link set.funcs set.table.tableSize set.table.table (data, ())
      entries := set.table.entries + 1 } }, budget - 1)
  else (false, set, budget)

/-- The result, the set and the rest of the budget; `none` is an overflow of an `int`. -/
def setInsert (set : SetTable α) (data : α) (budget : Nat) : Option (Bool × SetTable α × Nat) :=
  if set.table.IntFits then
    if set.table.full then
      match setEnlarge set (decide (0 < budget)) with
      | some set' => some (setInsertEntry set' data (budget - 1))
      | none => some (false, set, budget)
    else some (setInsertEntry set data budget)
  else none

/-- The result, the data handed to the free function, and the set. -/
def setRemove (set : SetTable α) (data : α) : Bool × List α × SetTable α :=
  match splitFirst (fun entry => set.funcs.equal data entry.1) (set.chain data) with
  | some (a, entry, b) => (true, if set.freeFunc then [entry.1] else [],
      { set with table := { set.table with
        table :=
          Function.update set.table.table (set.funcs.hash data % set.table.tableSize) (a ++ b)
        entries := set.table.entries - 1 } })
  | none => (false, [], set)

def setNumEntries (set : SetTable α) : Nat := set.table.entries

/-- The data chain by chain, into an array with room for `entries` of them; `none` is a write
behind the array. -/
def setToArray (set : SetTable α) (mallocOk : Bool) : Option (Option (List α)) :=
  if mallocOk then do
    let array ← set.table.toList.foldlM (fun array entry =>
      if array.length < set.table.entries then some (array ++ [entry.1]) else none) []
    some (some array)
  else some none

def setIterate (set : SetTable α) : ChainIter (α × Unit) :=
  findChain set.table.table set.table.tableSize 0

def setIterNext (set : SetTable α) (iterator : ChainIter (α × Unit)) :
    Option α × ChainIter (α × Unit) :=
  ((chainIterNext set.table.table set.table.tableSize iterator).1.map Prod.fst,
    (chainIterNext set.table.table set.table.tableSize iterator).2)

/-- One round of the loops below: the value goes into the new set if `wanted` says so. A value
that cannot be inserted ends the loop. -/
def copyValue (wanted : SetTable α → α → Bool) (new : SetTable α × Nat) (value : α) :
    Option (Option (SetTable α × Nat)) :=
  if wanted new.1 value then do
    let r ← setInsert new.1 value new.2
    some (if r.1 then some r.2 else none)
  else some (some new)

/-- The loop over all values of a set. -/
def copyValues (wanted : SetTable α → α → Bool) (set : SetTable α) (new : SetTable α × Nat) :
    Option (Option (SetTable α × Nat)) :=
  forEach (setIterNext set) (copyValue wanted) set.table.entries (setIterate set) new

/-- The outer `none` is a loop that does not end or an overflow, the inner one a null pointer: the
new set is then freed, and its data stays with the operands. -/
def setUnion (set1 set2 : SetTable α) (budget : Nat) : Option (Option (SetTable α)) :=
  match setNew set1.funcs budget with
  | none => some none
  | some new => do
    match ← copyValues (fun _ _ => true) set1 new with
    | none => some none
    | some new => do
      let new ← copyValues (fun new value => !setQuery new value) set2 new
      some (new.map Prod.fst)

def setIntersection (set1 set2 : SetTable α) (budget : Nat) : Option (Option (SetTable α)) :=
  match setNew ⟨set1.funcs.hash, set2.funcs.equal⟩ budget with
  | none => some none
  | some new => do
    let new ← copyValues (fun _ value => setQuery set2 value) set1 new
    some (new.map Prod.fst)

/-- A set holds these data, in some order. -/
structure SetHolds (f : KeyFuncs α) (set : SetTable α) (freeFunc : Bool) (vs : List α) : Prop where
  funcs : set.funcs = f
  free : set.freeFunc = freeFunc
  table : TableHolds f set.table (vs.map fun v => (v, ()))

/-- Entries are data and nothing else. -/
theorem map_fst_unit (vs : List α) : (vs.map fun v => (v, ())).map Prod.fst = vs := by
  rw [List.map_map]
  exact List.map_id vs

theorem exists_map_unit (es : List (α × Unit)) : ∃ vs : List α, es = vs.map fun v => (v, ()) := by
  refine ⟨es.map Prod.fst, ?_⟩
  rw [List.map_map]
  exact (List.map_id es).symm

section Operations

variable {f : KeyFuncs α} {set : SetTable α} {freeFunc : Bool} {vs : List α} {data : α}

theorem SetHolds.count (h : SetHolds f set freeFunc vs) : set.table.entries = vs.length := by
  rw [h.table.count, List.length_map]

theorem SetHolds.withTable (h : SetHolds f set freeFunc vs) {table : HashTable α Unit}
    {vs' : List α} (ht : TableHolds f table (vs'.map fun v => (v, ()))) :
    SetHolds f { set with table } freeFunc vs' := ⟨h.funcs, h.free, ht⟩

theorem SetHolds.distinct (h : SetHolds f set freeFunc vs) :
    vs.Pairwise fun v v' => f.equal v v' = false := List.pairwise_map.mp h.table.distinct

theorem SetHolds.toList_perm (h : SetHolds f set freeFunc vs) :
    (set.table.toList.map Prod.fst).Perm vs := by
  have hperm := h.table.entries.map Prod.fst
  rwa [map_fst_unit] at hperm

theorem setQuery_eq (h : SetHolds f set freeFunc vs) (hf : f.Lawful) (data : α) :
    setQuery set data = vs.any fun v => f.equal data v := by
  rw [Bool.eq_iff_iff, setQuery, SetTable.chain, h.funcs]
  simp only [List.any_eq_true]
  constructor
  · rintro ⟨entry, hentry, hequal⟩
    obtain ⟨v, hv, rfl⟩ := List.mem_map.mp (h.table.mem_of_chain hentry)
    exact ⟨v, hv, hequal⟩
  · rintro ⟨v, hv, hequal⟩
    exact ⟨(v, ()), h.table.mem_chain hf (List.mem_map_of_mem hv) hequal, hequal⟩

/-- A set that was made with enough memory is empty. -/
theorem setNew_spec (f : KeyFuncs α) (budget : Nat) :
    (setNew f budget = none ∧ budget < 2) ∨
      ∃ new, setNew f budget = some (new, budget - 2) ∧ 2 ≤ budget ∧ SetHolds f new false [] := by
  rcases Nat.lt_or_ge budget 2 with hlt | hge
  · refine .inl ⟨?_, hlt⟩
    have h1 : decide (1 < budget) = false := decide_eq_false (by omega)
    rw [setNew, h1, hashTableNew]
    split <;> rfl
  · refine .inr ⟨⟨emptyTable, f, false⟩, ?_, hge, rfl, rfl, holds_emptyTable f⟩
    rw [setNew, decide_eq_true (by omega), decide_eq_true (by omega)]
    rfl

/-- The insertion of data that the set does not have. -/
theorem setInsertEntry_new (h : SetHolds f set freeFunc vs) (hf : f.Lawful)
    (hno : ∀ v ∈ vs, f.equal data v = false) (budget : Nat) :
    (setInsertEntry set data budget = (false, set, budget) ∧ budget = 0) ∨
      ∃ set', setInsertEntry set data budget = (true, set', budget - 1) ∧ 0 < budget ∧
        SetHolds f set' freeFunc (data :: vs) := by
  have hquery : setQuery set data = false := by
    rw [setQuery_eq h hf, List.any_eq_false]
    exact fun v hv => by rw [hno v hv]; exact Bool.false_ne_true
  rw [setQuery] at hquery
  rw [setInsertEntry, hquery, if_neg Bool.false_ne_true]
  split
  · next hpos =>
    have hmap : ∀ e ∈ vs.map fun v => (v, ()), f.equal data e.1 = false := by
      intro e he
      obtain ⟨v, hv, rfl⟩ := List.mem_map.mp he
      exact hno v hv
    refine .inr ⟨_, rfl, hpos, h.withTable ?_⟩
    rw [h.funcs]
    exact h.table.link hmap ()
  · next hpos => exact .inl ⟨rfl, by omega⟩

theorem setInsertEntry_present (h : SetHolds f set freeFunc vs) (hf : f.Lawful)
    (hyes : ∃ v ∈ vs, f.equal data v = true) (budget : Nat) :
    setInsertEntry set data budget = (false, set, budget) := by
  have hquery : setQuery set data = true := by
    rw [setQuery_eq h hf, List.any_eq_true]
    exact hyes
  rw [setQuery] at hquery
  rw [setInsertEntry, hquery, if_pos rfl]

/-- The table is big enough, or is enlarged, or that fails. -/
theorem setInsert_eq (h : SetHolds f set freeFunc vs) (hlen : vs.length ≤ 2 ^ 29) (data : α)
    (budget : Nat) :
    (setInsert set data budget = some (false, set, budget) ∧ budget = 0) ∨
      ∃ set' budget', setInsert set data budget = some (setInsertEntry set' data budget') ∧
        budget ≤ budget' + 1 ∧ budget' ≤ budget ∧ SetHolds f set' freeFunc vs := by
  have hroom : (vs.map fun v => (v, ())).length ≤ 2 ^ 29 := by rwa [List.length_map]
  rw [setInsert, if_pos (h.table.intFits hroom)]
  split
  · next hfull =>
    rcases Nat.eq_zero_or_pos budget with rfl | hpos
    · exact .inl ⟨rfl, rfl⟩
    · obtain ⟨table, ht⟩ : ∃ table, hashTableEnlarge f set.table true = some table := ⟨_, rfl⟩
      refine .inr ⟨{ set with table }, budget - 1, ?_, by omega, by omega,
        h.withTable (h.table.enlarge hfull hroom ht)⟩
      rw [setEnlarge, decide_eq_true hpos, h.funcs, ht]
      rfl
  · exact .inr ⟨set, budget, rfl, by omega, by omega, h⟩

theorem setRemove_spec (h : SetHolds f set freeFunc vs) (hf : f.Lawful) (data : α) :
    (setRemove set data = (false, [], set) ∧ ∀ v ∈ vs, f.equal data v = false) ∨
      ∃ v set' rest, setRemove set data = (true, if freeFunc then [v] else [], set') ∧
        f.equal data v = true ∧ vs.Perm (v :: rest) ∧ SetHolds f set' freeFunc rest := by
  rcases h.table.search hf data with ⟨hs, hno⟩ | ⟨a, e, b, hs, hc, -, he⟩
  · refine .inl ⟨?_, fun v hv => hno _ (List.mem_map_of_mem hv)⟩
    rw [setRemove, SetTable.chain, h.funcs, hs]
  · obtain ⟨rest, hes, h'⟩ := h.table.cut hf hc
    obtain ⟨rest, rfl⟩ := exists_map_unit rest
    refine .inr ⟨e.1, _, rest, ?_, he, ?_, h.withTable h'⟩
    · rw [setRemove, SetTable.chain, h.funcs, hs, h.free]
    · have hperm := hes.map Prod.fst
      rwa [List.map_cons, map_fst_unit, map_fst_unit] at hperm

/-- An insertion of new data takes two allocations at most. -/
theorem setInsert_new (h : SetHolds f set freeFunc vs) (hf : f.Lawful)
    (hlen : vs.length ≤ 2 ^ 29) (hno : ∀ v ∈ vs, f.equal data v = false) (budget : Nat) :
    (∃ set' budget', setInsert set data budget = some (false, set', budget') ∧ budget < 2 ∧
        SetHolds f set' freeFunc vs) ∨
      ∃ set' budget', setInsert set data budget = some (true, set', budget') ∧
        budget ≤ budget' + 2 ∧ SetHolds f set' freeFunc (data :: vs) := by
  rcases setInsert_eq h hlen data budget with ⟨heq, h0⟩ | ⟨set', budget', heq, hle, -, h'⟩
  · exact .inl ⟨set, budget, heq, by omega, h⟩
  · rcases setInsertEntry_new h' hf hno budget' with ⟨heq', h0⟩ | ⟨set'', heq', hpos, h''⟩
    · exact .inl ⟨set', budget', heq.trans (congrArg some heq'), by omega, h'⟩
    · exact .inr ⟨set'', budget' - 1, heq.trans (congrArg some heq'), by omega, h''⟩

theorem setInsert_present (h : SetHolds f set freeFunc vs) (hf : f.Lawful)
    (hlen : vs.length ≤ 2 ^ 29) (hyes : ∃ v ∈ vs, f.equal data v = true) (budget : Nat) :
    ∃ set' budget', setInsert set data budget = some (false, set', budget') ∧
      SetHolds f set' freeFunc vs := by
  rcases setInsert_eq h hlen data budget with ⟨heq, -⟩ | ⟨set', budget', heq, -, -, h'⟩
  · exact ⟨set, budget, heq, h⟩
  · exact ⟨set', budget',
      heq.trans (congrArg some (setInsertEntry_present h' hf hyes budget')), h'⟩

theorem setToArray_eq (h : SetHolds f set freeFunc vs) :
    setToArray set true = some (some (set.table.toList.map Prod.fst)) := by
  have hfill : ∀ (l : List (α × Unit)) (array : List α),
      array.length + l.length ≤ set.table.entries →
      l.foldlM (fun array entry =>
        if array.length < set.table.entries then some (array ++ [entry.1]) else none) array =
        some (array ++ l.map Prod.fst) := by
    intro l
    induction l with
    | nil =>
      intro array _
      rw [List.map_nil, List.append_nil]
      rfl
    | cons e l ih =>
      intro array hroom
      rw [List.length_cons] at hroom
      rw [List.foldlM_cons, if_pos (by omega)]
      show l.foldlM _ (array ++ [e.1]) = _
      rw [ih _ (by rw [List.length_append, List.length_singleton]; omega), List.map_cons,
        List.append_assoc, List.singleton_append]
  have hlen : ([] : List α).length + set.table.toList.length ≤ set.table.entries := by
    rw [h.table.count, h.table.entries.length_eq, List.length_nil, Nat.zero_add]
  rw [setToArray, if_pos rfl, hfill _ _ hlen]
  rfl

/-- A loop over a set comes to each of its data once. -/
theorem forEach_setIterate {σ : Type} (h : SetHolds f set freeFunc vs)
    (step : σ → α → Option (Option σ)) (s : σ) :
    forEach (setIterNext set) step set.table.entries (setIterate set) s =
      runSteps step (set.table.toList.map Prod.fst) s := by
  have hrest : (setIterate set).rest set.table.table set.table.tableSize = set.table.toList :=
    rest_findChain set.table.table set.table.tableSize 0 (Nat.zero_add _)
  have hin : (setIterate set).Within set.table.tableSize :=
    within_findChain set.table.table set.table.tableSize 0 (Nat.zero_add _)
  have hlen : ((setIterate set).rest set.table.table set.table.tableSize).length ≤
      set.table.entries := by
    rw [hrest, h.table.count, h.table.entries.length_eq]
  rw [← hrest]
  exact forEach_eq (fun _ => rfl) hin hlen s

end Operations

section Copies

variable {f : KeyFuncs α} {wanted : SetTable α → α → Bool} {base : List α}

/-- A loop that copies distinct values into a set of which it says, whatever has been copied
before, which values are wanted. -/
theorem runSteps_copyValue (hf : f.Lawful) {keep : α → Bool}
    (hwanted : ∀ new added v, SetHolds f new false (added ++ base) →
      (∀ a ∈ added, f.equal v a = false) → wanted new v = keep v)
    (hkeep : ∀ v, keep v = true → ∀ b ∈ base, f.equal v b = false)
    {vs added : List α} (hvs : vs.Pairwise fun v v' => f.equal v v' = false)
    (hadded : ∀ v ∈ vs, ∀ a ∈ added, f.equal v a = false) {new : SetTable α}
    (h : SetHolds f new false (added ++ base))
    (hlen : (vs.filter keep).length + (added ++ base).length ≤ 2 ^ 29) (budget : Nat) :
    (runSteps (copyValue wanted) vs (new, budget) = some none ∧
        budget < 2 * (vs.filter keep).length) ∨
      ∃ new' budget' added',
        runSteps (copyValue wanted) vs (new, budget) = some (some (new', budget')) ∧
        SetHolds f new' false (added' ++ base) ∧ added'.Perm (vs.filter keep ++ added) ∧
        budget ≤ budget' + 2 * (vs.filter keep).length := by
  induction vs generalizing added new budget with
  | nil => exact .inr ⟨new, budget, added, rfl, h, List.Perm.refl _, by simp⟩
  | cons v vs ih =>
    obtain ⟨hv, hvs⟩ := List.pairwise_cons.mp hvs
    have hnew := hadded v List.mem_cons_self
    have hrest := fun v hv => hadded v (List.mem_cons_of_mem _ hv)
    rw [runSteps, copyValue, hwanted new added v h hnew]
    cases hk : keep v with
    | false =>
      rw [List.filter_cons_of_neg (by rw [hk]; exact Bool.false_ne_true)] at hlen ⊢
      exact ih hvs hrest h hlen budget
    | true =>
      rw [List.filter_cons_of_pos hk, List.length_cons] at hlen ⊢
      rw [if_pos rfl]
      have hno : ∀ a ∈ added ++ base, f.equal v a = false := fun a ha =>
        (List.mem_append.mp ha).elim (hnew a) (hkeep v hk a)
      rcases setInsert_new h hf (by omega) hno budget with
        ⟨set', budget', heq, hlt, -⟩ | ⟨set', budget', heq, hle, h'⟩
      · refine .inl ⟨?_, by omega⟩
        simp only [heq]
        rfl
      · have hadded' : ∀ w ∈ vs, ∀ a ∈ v :: added, f.equal w a = false := by
          intro w hw a ha
          rcases List.mem_cons.mp ha with rfl | ha
          · rw [hf.equal_comm]
            exact hv w hw
          · exact hrest w hw a ha
        have hlen' : (vs.filter keep).length + (v :: added ++ base).length ≤ 2 ^ 29 := by
          rw [List.cons_append, List.length_cons]
          omega
        simp only [heq]
        rcases ih hvs hadded' h' hlen' budget' with
          ⟨heq', hlt⟩ | ⟨new', budget'', added', heq', h'', hperm, hle'⟩
        · exact .inl ⟨heq', by omega⟩
        · exact .inr ⟨new', budget'', added', heq', h'',
            hperm.trans List.perm_middle, by omega⟩

/-- The loop over the values of a set. -/
theorem copyValues_spec (hf : f.Lawful) (keep : α → Bool)
    (hwanted : ∀ new added v, SetHolds f new false (added ++ base) →
      (∀ a ∈ added, f.equal v a = false) → wanted new v = keep v)
    (hkeep : ∀ v, keep v = true → ∀ b ∈ base, f.equal v b = false)
    {set new : SetTable α} {freeFunc : Bool} {vs : List α}
    (h : SetHolds f set freeFunc vs) (hnew : SetHolds f new false base)
    (hlen : (vs.filter keep).length + base.length ≤ 2 ^ 29) (budget : Nat) :
    (copyValues wanted set (new, budget) = some none ∧
        budget < 2 * (vs.filter keep).length) ∨
      ∃ new' budget' vs', copyValues wanted set (new, budget) = some (some (new', budget')) ∧
        SetHolds f new' false vs' ∧ vs'.Perm (vs.filter keep ++ base) ∧
        budget ≤ budget' + 2 * (vs.filter keep).length := by
  have hperm := h.toList_perm.filter keep
  have hdist : (set.table.toList.map Prod.fst).Pairwise fun v v' => f.equal v v' = false := by
    refine h.toList_perm.symm.pairwise h.distinct fun {a b} hab => ?_
    rwa [hf.equal_comm]
  have hempty : ∀ v ∈ set.table.toList.map Prod.fst, ∀ a ∈ ([] : List α), f.equal v a = false :=
    fun _ _ a ha => by cases ha
  rw [← hperm.length_eq] at hlen
  rw [copyValues, forEach_setIterate h, ← hperm.length_eq]
  rcases runSteps_copyValue hf hwanted hkeep hdist hempty hnew hlen budget with
    ⟨heq, hlt⟩ | ⟨new', budget', added', heq, h', hadded, hle⟩
  · exact .inl ⟨heq, hlt⟩
  · rw [List.append_nil] at hadded
    exact .inr ⟨new', budget', _, heq, h', (hadded.trans hperm).append_right base, hle⟩

end Copies

section Algebra

variable {f : KeyFuncs α} {set1 set2 : SetTable α} {free1 free2 : Bool} {vs1 vs2 : List α}

/-- What a union adds to the first set. -/
def notIn (f : KeyFuncs α) (vs1 vs2 : List α) : List α := vs2.filter fun v => !vs1.any (f.equal v)

/-- What the first set has in common with the second. -/
def alsoIn (f : KeyFuncs α) (vs1 vs2 : List α) : List α := vs1.filter fun v => vs2.any (f.equal v)

theorem setUnion_spec (hf : f.Lawful) (h1 : SetHolds f set1 free1 vs1)
    (h2 : SetHolds f set2 free2 vs2) (hlen : (notIn f vs1 vs2).length + vs1.length ≤ 2 ^ 29)
    (budget : Nat) :
    (setUnion set1 set2 budget = some none ∧
        budget < 2 + 2 * (vs1.length + (notIn f vs1 vs2).length)) ∨
      ∃ new vs, setUnion set1 set2 budget = some (some new) ∧ SetHolds f new false vs ∧
        vs.Perm (notIn f vs1 vs2 ++ vs1) := by
  rw [setUnion, h1.funcs]
  rcases setNew_spec f budget with ⟨hnew, hlt⟩ | ⟨new, hnew, hge, h⟩
  · rw [hnew]
    exact .inl ⟨rfl, by omega⟩
  rw [hnew]
  -- the first loop: every value is wanted and new
  have hlen1 : (vs1.filter fun _ => true).length + ([] : List α).length ≤ 2 ^ 29 := by
    rw [List.filter_true, List.length_nil]
    omega
  rcases copyValues_spec hf (fun _ => true) (fun _ _ _ _ _ => rfl)
      (fun _ _ b hb => by cases hb) h1 h hlen1 (budget - 2) with
    ⟨heq, hlt⟩ | ⟨new1, budget1, vs, heq, h', hperm, hle⟩
  · rw [List.filter_true] at hlt
    simp only [heq, Option.bind_eq_bind, Option.bind_some]
    exact .inl ⟨trivial, by omega⟩
  rw [List.filter_true, List.append_nil] at hperm
  rw [List.filter_true] at hle
  simp only [heq, Option.bind_eq_bind, Option.bind_some]
  -- the second one: those are wanted that the first set does not have
  have hany : ∀ v, vs.any (f.equal v) = vs1.any (f.equal v) := fun v => hperm.any_eq
  have hwanted : ∀ (new : SetTable α) (added : List α) (v : α),
      SetHolds f new false (added ++ vs) → (∀ a ∈ added, f.equal v a = false) →
      (!setQuery new v) = !vs1.any (f.equal v) := by
    intro new added v hnew hadded
    have hnone : added.any (f.equal v) = false := by
      rw [List.any_eq_false]
      exact fun a ha => by rw [hadded a ha]; exact Bool.false_ne_true
    have hquery : setQuery new v = (added ++ vs).any (f.equal v) := setQuery_eq hnew hf v
    rw [hquery, List.any_append, hnone, Bool.false_or, hany]
  have hkeep : ∀ v, (!vs1.any (f.equal v)) = true → ∀ b ∈ vs, f.equal v b = false := by
    intro v hv b hb
    rw [← hany, Bool.not_eq_true', List.any_eq_false] at hv
    simpa using hv b hb
  rw [← hperm.length_eq] at hlen
  rcases copyValues_spec hf _ hwanted hkeep h2 h' hlen budget1 with
    ⟨heq', hlt⟩ | ⟨new2, budget2, vs', heq', h'', hperm', -⟩
  · simp only [heq', Option.bind_some]
    refine .inl ⟨rfl, ?_⟩
    rw [notIn]
    omega
  · simp only [heq', Option.bind_some]
    exact .inr ⟨new2, vs', rfl, h'', hperm'.trans (hperm.append_left _)⟩

theorem setIntersection_spec (hf : f.Lawful) (h1 : SetHolds f set1 free1 vs1)
    (h2 : SetHolds f set2 free2 vs2) (hlen : vs1.length ≤ 2 ^ 29) (budget : Nat) :
    (setIntersection set1 set2 budget = some none ∧
        budget < 2 + 2 * (alsoIn f vs1 vs2).length) ∨
      ∃ new vs, setIntersection set1 set2 budget = some (some new) ∧ SetHolds f new false vs ∧
        vs.Perm (alsoIn f vs1 vs2) := by
  rw [setIntersection, h1.funcs, h2.funcs]
  rcases setNew_spec f budget with ⟨hnew, hlt⟩ | ⟨new, hnew, hge, h⟩
  · rw [hnew]
    exact .inl ⟨rfl, by omega⟩
  rw [hnew]
  have hquery : ∀ v, setQuery set2 v = vs2.any (f.equal v) := setQuery_eq h2 hf
  have hlen1 : (vs1.filter fun v => vs2.any (f.equal v)).length + ([] : List α).length ≤
      2 ^ 29 := (List.length_filter_le _ vs1).trans hlen
  rcases copyValues_spec hf _ (fun _ _ v _ _ => hquery v)
      (fun _ _ b hb => by cases hb) h1 h hlen1 (budget - 2) with
    ⟨heq, hlt⟩ | ⟨new', budget', vs, heq, h', hperm, -⟩
  · simp only [heq, Option.bind_eq_bind, Option.bind_some]
    refine .inl ⟨rfl, ?_⟩
    rw [alsoIn]
    omega
  · rw [List.append_nil] at hperm
    simp only [heq, Option.bind_eq_bind, Option.bind_some]
    exact .inr ⟨new', vs, rfl, h', hperm⟩

end Algebra

inductive SetCall (α : Type) where
  | new (funcs : KeyFuncs α) (budget : Nat)
  | register (set : Nat) (freeFunc : Bool)
  | insert (set : Nat) (data : α) (budget : Nat)
  | remove (set : Nat) (data : α)
  | query (set : Nat) (data : α)
  | numEntries (set : Nat)
  | toArray (set : Nat) (mallocOk : Bool)
  | iterate (set : Nat)
  | union (set1 set2 : Nat) (budget : Nat)
  | intersection (set1 set2 : Nat) (budget : Nat)
  | free (set : Nat)

inductive SetAnswer (α : Type) where
  | set (new : Option Nat)
  | done
  | result (ret : Bool)
  | removed (ret : Bool) (freed : List α)
  | entries (n : Nat)
  | array (values : Option (List α))
  | values (vs : List α)
  | freed (data : List α)
  | noSet

/-- All sets that were created, by number, `none` for those that have been freed; and the data
that has been handed to a free function, which nobody may use again. -/
structure Sets (α : Type) where
  tables : List (Option (SetTable α))
  freed : List α

/-- A set that a call created, or the null pointer. -/
def addSet (sets : Sets α) : Option (SetTable α) → SetAnswer α × Sets α
  | some new => (.set (some sets.tables.length), { sets with tables := sets.tables ++ [some new] })
  | none => (.set none, sets)

def Sets.put (sets : Sets α) (set : Nat) (s : Option (SetTable α)) (freed : List α) : Sets α :=
  ⟨sets.tables.set set s, sets.freed ++ freed⟩

/-- A call on a set that is not there is not made. -/
def onSet (sets : Sets α) (set : Nat) (k : SetTable α → Option (SetAnswer α × Sets α)) :
    Option (SetAnswer α × Sets α) :=
  match sets.tables[set]?.join with
  | some s => k s
  | none => some (.noSet, sets)

def setStep (sets : Sets α) : SetCall α → Option (SetAnswer α × Sets α)
  | .new funcs budget => some (addSet sets ((setNew funcs budget).map Prod.fst))
  | .register set freeFunc => onSet sets set fun s =>
    some (.done, sets.put set (some (setRegisterFreeFunction s freeFunc)) [])
  | .insert set data budget => onSet sets set fun s => do
    let r ← setInsert s data budget
    some (.result r.1, sets.put set (some r.2.1) [])
  | .remove set data => onSet sets set fun s =>
    let r := setRemove s data
    some (.removed r.1 r.2.1, sets.put set (some r.2.2) r.2.1)
  | .query set data => onSet sets set fun s => some (.result (setQuery s data), sets)
  | .numEntries set => onSet sets set fun s => some (.entries (setNumEntries s), sets)
  | .toArray set mallocOk => onSet sets set fun s => do
    some (.array (← setToArray s mallocOk), sets)
  | .iterate set => onSet sets set fun s => do
    let vs ← forEach (setIterNext s) (fun vs v => some (some (vs ++ [v]))) s.table.entries
      (setIterate s) []
    some (.values (← vs), sets)
  | .union set1 set2 budget => onSet sets set1 fun s1 => onSet sets set2 fun s2 => do
    some (addSet sets (← setUnion s1 s2 budget))
  | .intersection set1 set2 budget => onSet sets set1 fun s1 => onSet sets set2 fun s2 => do
    some (addSet sets (← setIntersection s1 s2 budget))
  | .free set => onSet sets set fun s => some (.freed (setFree s), sets.put set none (setFree s))

/-- The data of a set, none if it is not there. -/
def Sets.data (sets : Sets α) (set : Nat) : List α :=
  match sets.tables[set]?.join with
  | some s => s.table.toList.map Prod.fst
  | none => []

/-- The data that a call may hash, compare or free. -/
def Sets.touched (sets : Sets α) : SetCall α → List α
  | .insert set data _ | .remove set data | .query set data => data :: sets.data set
  | .union set1 set2 _ | .intersection set1 set2 _ => sets.data set1 ++ sets.data set2
  | .free set =>
    match sets.tables[set]?.join with
    | some s => setFree s
    | none => []
  | .new _ _ | .register _ _ | .numEntries _ | .toArray _ _ | .iterate _ => []

/-- Nothing that the call uses has been freed. A union and an intersection share the data of
their operands, and so does a value that was put into two sets. -/
def Sets.Alive (sets : Sets α) (call : SetCall α) : Prop :=
  ∀ v ∈ sets.touched call, v ∉ sets.freed

instance [DecidableEq α] (sets : Sets α) (call : SetCall α) : Decidable (sets.Alive call) :=
  inferInstanceAs (Decidable (∀ _ ∈ _, _))

/-- One call; `none` is a use of freed data, a loop that does not end, a write behind an array,
or an overflow of an `int`. -/
def setCall [DecidableEq α] (sets : Sets α) (call : SetCall α) : Option (SetAnswer α × Sets α) :=
  if sets.Alive call then setStep sets call else none

/-- What a caller has to see to: a new set gets lawful functions, the operands of a union or an
intersection have the same ones, and no data is used that has been freed. -/
def Sets.Proper (sets : Sets α) (call : SetCall α) : Prop :=
  sets.Alive call ∧
    match call with
    | .new funcs _ => funcs.Lawful
    | .union set1 set2 _ | .intersection set1 set2 _ =>
      ∀ s1 s2, sets.tables[set1]?.join = some s1 → sets.tables[set2]?.join = some s2 →
        s1.funcs = s2.funcs
    | _ => True

/-- The sets that a call is about. -/
def operands : SetCall α → List Nat
  | .new _ _ => []
  | .register set _ | .insert set _ _ | .remove set _ | .query set _ | .numEntries set
  | .toArray set _ | .iterate set | .free set => [set]
  | .union set1 set2 _ | .intersection set1 set2 _ => [set1, set2]

/-- What is known of a set: its functions, whether its data is to be freed, and the data. -/
structure SetView (α : Type) where
  funcs : KeyFuncs α
  freeFunc : Bool
  data : List α

/-- What a call answers, and the sets after it. A call that fails says nothing about the order
of the data, nor does an iteration. -/
inductive SetMeaning :
    List (Option (SetView α)) → SetCall α → SetAnswer α → List (Option (SetView α)) → Prop
  | noSet {ms call set} (hin : set ∈ operands call) (hno : ms[set]?.join = none) :
      SetMeaning ms call .noSet ms
  | new {ms funcs budget} :
      SetMeaning ms (.new funcs budget) (.set (some ms.length)) (ms ++ [some ⟨funcs, false, []⟩])
  | newFails {ms funcs budget} (hlt : budget < 2) :
      SetMeaning ms (.new funcs budget) (.set none) ms
  | register {ms set m freeFunc} (hset : ms[set]?.join = some m) :
      SetMeaning ms (.register set freeFunc) .done (ms.set set (some { m with freeFunc }))
  | insert {ms set m data budget} (hset : ms[set]?.join = some m)
      (hno : ∀ v ∈ m.data, m.funcs.equal data v = false) :
      SetMeaning ms (.insert set data budget) (.result true)
        (ms.set set (some { m with data := data :: m.data }))
  | insertPresent {ms set m data budget} (hset : ms[set]?.join = some m)
      (hyes : ∃ v ∈ m.data, m.funcs.equal data v = true) :
      SetMeaning ms (.insert set data budget) (.result false) ms
  | insertFails {ms set m data budget} (hset : ms[set]?.join = some m) (hlt : budget < 2) :
      SetMeaning ms (.insert set data budget) (.result false) ms
  | remove {ms set m data v rest} (hset : ms[set]?.join = some m)
      (hv : m.funcs.equal data v = true) (hvs : m.data.Perm (v :: rest)) :
      SetMeaning ms (.remove set data) (.removed true (if m.freeFunc then [v] else []))
        (ms.set set (some { m with data := rest }))
  | removeMisses {ms set m data} (hset : ms[set]?.join = some m)
      (hno : ∀ v ∈ m.data, m.funcs.equal data v = false) :
      SetMeaning ms (.remove set data) (.removed false []) ms
  | query {ms set m data} (hset : ms[set]?.join = some m) :
      SetMeaning ms (.query set data) (.result (m.data.any (m.funcs.equal data))) ms
  | numEntries {ms set m} (hset : ms[set]?.join = some m) :
      SetMeaning ms (.numEntries set) (.entries m.data.length) ms
  | toArray {ms set m array} (hset : ms[set]?.join = some m) (hvs : array.Perm m.data) :
      SetMeaning ms (.toArray set true) (.array (some array)) ms
  | toArrayFails {ms set m} (hset : ms[set]?.join = some m) :
      SetMeaning ms (.toArray set false) (.array none) ms
  | iterate {ms set m vs} (hset : ms[set]?.join = some m) (hvs : vs.Perm m.data) :
      SetMeaning ms (.iterate set) (.values vs) ms
  | union {ms set1 set2 m1 m2 vs budget} (hset1 : ms[set1]?.join = some m1)
      (hset2 : ms[set2]?.join = some m2)
      (hvs : vs.Perm (notIn m1.funcs m1.data m2.data ++ m1.data)) :
      SetMeaning ms (.union set1 set2 budget) (.set (some ms.length))
        (ms ++ [some ⟨m1.funcs, false, vs⟩])
  | unionFails {ms set1 set2 m1 m2 budget} (hset1 : ms[set1]?.join = some m1)
      (hset2 : ms[set2]?.join = some m2)
      (hlt : budget < 2 + 2 * (m1.data.length + (notIn m1.funcs m1.data m2.data).length)) :
      SetMeaning ms (.union set1 set2 budget) (.set none) ms
  | intersection {ms set1 set2 m1 m2 vs budget} (hset1 : ms[set1]?.join = some m1)
      (hset2 : ms[set2]?.join = some m2) (hvs : vs.Perm (alsoIn m1.funcs m1.data m2.data)) :
      SetMeaning ms (.intersection set1 set2 budget) (.set (some ms.length))
        (ms ++ [some ⟨m1.funcs, false, vs⟩])
  | intersectionFails {ms set1 set2 m1 m2 budget} (hset1 : ms[set1]?.join = some m1)
      (hset2 : ms[set2]?.join = some m2)
      (hlt : budget < 2 + 2 * (alsoIn m1.funcs m1.data m2.data).length) :
      SetMeaning ms (.intersection set1 set2 budget) (.set none) ms
  | free {ms set m data} (hset : ms[set]?.join = some m)
      (hdata : data.Perm (if m.freeFunc then m.data else [])) :
      SetMeaning ms (.free set) (.freed data) (ms.set set none)

/-- A set is what is known of it, and its functions are lawful. -/
structure SetAgrees (set : SetTable α) (m : SetView α) : Prop where
  lawful : m.funcs.Lawful
  holds : SetHolds m.funcs set m.freeFunc m.data

/-- The sets hold what is known of them. -/
abbrev SetsHold (sets : Sets α) (ms : List (Option (SetView α))) : Prop :=
  Slots SetAgrees sets.tables ms

section Sizes

variable [DecidableEq α] {sets : Sets α} {ms : List (Option (SetView α))}

/-- The data that the sets hold, all together. -/
def heldData (ms : List (Option (SetView α))) : Finset α :=
  (ms.flatMap fun slot => (slot.map SetView.data).getD []).toFinset

theorem mem_heldData {v : α} : v ∈ heldData ms ↔ ∃ m, some m ∈ ms ∧ v ∈ m.data := by
  rw [heldData, List.mem_toFinset, List.mem_flatMap]
  constructor
  · rintro ⟨slot, hslot, hv⟩
    cases slot with
    | none => cases hv
    | some m => exact ⟨m, hslot, hv⟩
  · rintro ⟨m, hm, hv⟩
    exact ⟨some m, hm, hv⟩

/-- Values that are all different for lawful functions are no more than those held. -/
theorem length_le_held {f : KeyFuncs α} (hf : f.Lawful) {vs : List α}
    (hdist : vs.Pairwise fun v v' => f.equal v v' = false) (hvs : ∀ v ∈ vs, v ∈ heldData ms) :
    vs.length ≤ (heldData ms).card := by
  have hnodup : vs.Nodup := by
    refine hdist.imp fun {a b} hab heq => ?_
    rw [heq, hf.refl] at hab
    cases hab
  rw [← List.toFinset_card_of_nodup hnodup]
  exact Finset.card_le_card fun v hv => hvs v (List.mem_toFinset.mp hv)

theorem mem_held_of_slot {set : Nat} {m : SetView α} (hset : ms[set]?.join = some m) {v : α}
    (hv : v ∈ m.data) : v ∈ heldData ms :=
  mem_heldData.mpr ⟨m, List.mem_of_getElem? (Option.join_eq_some_iff.mp hset), hv⟩

theorem held_put {slot : Option (SetView α)} {set : Nat} {held : Finset α}
    (hms : heldData ms ⊆ held) (hslot : ∀ m, slot = some m → ∀ v ∈ m.data, v ∈ held) :
    heldData (ms.set set slot) ⊆ held := by
  intro v hv
  obtain ⟨m, hm, hvm⟩ := mem_heldData.mp hv
  rcases List.mem_or_eq_of_mem_set hm with hm | heq
  · exact hms (mem_heldData.mpr ⟨m, hm, hvm⟩)
  · exact hslot m heq.symm v hvm

theorem held_push {m : SetView α} {held : Finset α} (hms : heldData ms ⊆ held)
    (hm : ∀ v ∈ m.data, v ∈ held) : heldData (ms ++ [some m]) ⊆ held := by
  intro v hv
  obtain ⟨m', hm', hvm⟩ := mem_heldData.mp hv
  rcases List.mem_append.mp hm' with hm' | hm'
  · exact hms (mem_heldData.mpr ⟨m', hm', hvm⟩)
  · cases List.mem_singleton.mp hm'
    exact hm v hvm

/-- A call brings in the data it inserts and nothing else. -/
theorem held_of_meaning {call : SetCall α} {r : SetAnswer α} {ms' : List (Option (SetView α))}
    (h : SetMeaning ms call r ms') :
    heldData ms' ⊆ heldData ms ∨ ∃ data, heldData ms' ⊆ insert data (heldData ms) := by
  cases h with
  | @insert set m data budget hset hno =>
    refine .inr ⟨data, held_put (Finset.subset_insert _ _) ?_⟩
    rintro _ ⟨⟩ v hv
    rcases List.mem_cons.mp hv with rfl | hv
    · exact Finset.mem_insert_self _ _
    · exact Finset.mem_insert_of_mem (mem_held_of_slot hset hv)
  | new => exact .inl (held_push (Finset.Subset.refl _) fun v hv => absurd hv List.not_mem_nil)
  | register hset =>
    refine .inl (held_put (Finset.Subset.refl _) ?_)
    rintro _ ⟨⟩ v hv
    exact mem_held_of_slot hset hv
  | remove hset hv hvs =>
    refine .inl (held_put (Finset.Subset.refl _) ?_)
    rintro _ ⟨⟩ v hv
    exact mem_held_of_slot hset (hvs.mem_iff.mpr (List.mem_cons_of_mem _ hv))
  | union hset1 hset2 hvs =>
    refine .inl (held_push (Finset.Subset.refl _) fun v hv => ?_)
    rcases List.mem_append.mp (hvs.mem_iff.mp hv) with hv | hv
    · exact mem_held_of_slot hset2 (List.mem_of_mem_filter hv)
    · exact mem_held_of_slot hset1 hv
  | intersection hset1 hset2 hvs =>
    refine .inl (held_push (Finset.Subset.refl _) fun v hv => ?_)
    exact mem_held_of_slot hset1 (List.mem_of_mem_filter (hvs.mem_iff.mp hv))
  | free hset hdata =>
    refine .inl (held_put (Finset.Subset.refl _) ?_)
    rintro _ ⟨⟩
  | noSet | newFails | insertPresent | insertFails | removeMisses | query | numEntries | toArray
  | toArrayFails | iterate | unionFails | intersectionFails =>
    exact .inl (Finset.Subset.refl _)

theorem card_le_of_meaning {call : SetCall α} {r : SetAnswer α} {ms' : List (Option (SetView α))}
    (h : SetMeaning ms call r ms') : (heldData ms').card ≤ (heldData ms).card + 1 := by
  rcases held_of_meaning h with hle | ⟨data, hle⟩
  · exact (Finset.card_le_card hle).trans (Nat.le_succ _)
  · exact (Finset.card_le_card hle).trans (Finset.card_insert_le _ _)

theorem SetAgrees.length_le {s : SetTable α} {m : SetView α} (h : SetAgrees s m) {set : Nat}
    (hset : ms[set]?.join = some m) : m.data.length ≤ (heldData ms).card :=
  length_le_held h.lawful h.holds.distinct fun _ => mem_held_of_slot hset

/-- The union of two sets is no bigger than what all sets hold. -/
theorem union_length_le {set1 set2 : Nat} {s1 s2 : SetTable α} {m1 m2 : SetView α}
    (hset1 : ms[set1]?.join = some m1) (hset2 : ms[set2]?.join = some m2) (h1 : SetAgrees s1 m1)
    (h2 : SetAgrees s2 m2) (hsame : m1.funcs = m2.funcs) :
    (notIn m1.funcs m1.data m2.data).length + m1.data.length ≤ (heldData ms).card := by
  have hdist2 := h2.holds.distinct
  rw [← hsame] at hdist2
  rw [← List.length_append]
  refine length_le_held h1.lawful (List.pairwise_append.mpr
    ⟨hdist2.filter _, h1.holds.distinct, fun a ha b hb => ?_⟩) fun v hv => ?_
  · have hnone := (List.mem_filter.mp ha).2
    rw [Bool.not_eq_true', List.any_eq_false] at hnone
    simpa using hnone b hb
  · rcases List.mem_append.mp hv with hv | hv
    · exact mem_held_of_slot hset2 (List.mem_of_mem_filter hv)
    · exact mem_held_of_slot hset1 hv

end Sizes

section Calls

variable {sets : Sets α} {ms : List (Option (SetView α))} {set : Nat}

/-- A call on a set: it is there, or no call is made. -/
theorem onSet_spec (h : SetsHold sets ms) {call : SetCall α} (hin : set ∈ operands call)
    {k : SetTable α → Option (SetAnswer α × Sets α)}
    (hk : ∀ s m, sets.tables[set]?.join = some s → ms[set]?.join = some m → SetAgrees s m →
      ∃ r sets' ms', k s = some (r, sets') ∧ SetMeaning ms call r ms' ∧ SetsHold sets' ms') :
    ∃ r sets' ms', onSet sets set k = some (r, sets') ∧ SetMeaning ms call r ms' ∧
      SetsHold sets' ms' := by
  rw [onSet]
  rcases h.cases set with ⟨hs, hm⟩ | ⟨s, m, hs, hm, hsm⟩
  · rw [hs]
    exact ⟨_, sets, ms, rfl, .noSet hin hm, h⟩
  · rw [hs]
    exact hk s m hs hm hsm

/-- A set that was created goes to the end. -/
theorem addSet_spec (h : SetsHold sets ms) {call : SetCall α} {new : Option (SetTable α)}
    {f : KeyFuncs α} (hf : f.Lawful)
    (hnew : (new = none ∧ SetMeaning ms call (.set none) ms) ∨
      ∃ s vs, new = some s ∧ SetHolds f s false vs ∧
        SetMeaning ms call (.set (some ms.length)) (ms ++ [some ⟨f, false, vs⟩])) :
    ∃ r sets' ms', some (addSet sets new) = some (r, sets') ∧ SetMeaning ms call r ms' ∧
      SetsHold sets' ms' := by
  rcases hnew with ⟨rfl, hm⟩ | ⟨s, vs, rfl, hs, hm⟩
  · exact ⟨_, _, _, rfl, hm, h⟩
  · rw [← h.length] at hm
    have hagrees : SetAgrees s ⟨f, false, vs⟩ := ⟨hf, hs⟩
    exact ⟨_, _, _, rfl, hm, h.push hagrees⟩

theorem setStep_spec [DecidableEq α] (h : SetsHold sets ms) (call : SetCall α)
    (hcall : sets.Proper call) (hlen : (heldData ms).card < 2 ^ 29) :
    ∃ r sets' ms', setStep sets call = some (r, sets') ∧ SetMeaning ms call r ms' ∧
      SetsHold sets' ms' := by
  cases call with
  | new funcs budget =>
    refine addSet_spec h hcall.2 ?_
    rcases setNew_spec funcs budget with ⟨hnew, hlt⟩ | ⟨new, hnew, -, hs⟩
    · exact .inl ⟨by rw [hnew]; rfl, .newFails hlt⟩
    · exact .inr ⟨new, [], by rw [hnew]; rfl, hs, .new⟩
  | register set freeFunc =>
    refine onSet_spec h List.mem_cons_self fun s m _ hset hs => ?_
    refine ⟨_, _, _, rfl, .register hset, h.put ?_⟩
    exact ⟨hs.lawful, hs.holds.funcs, rfl, hs.holds.table⟩
  | insert set data budget =>
    refine onSet_spec h List.mem_cons_self fun s m _ hset hs => ?_
    have hroom := (hs.length_le hset).trans hlen.le
    by_cases hyes : ∃ v ∈ m.data, m.funcs.equal data v = true
    · obtain ⟨s', budget', heq, hs'⟩ := setInsert_present hs.holds hs.lawful hroom hyes budget
      rw [heq]
      exact ⟨_, _, _, rfl, .insertPresent hset hyes, h.exchange hset ⟨hs.lawful, hs'⟩⟩
    · have hno : ∀ v ∈ m.data, m.funcs.equal data v = false := fun v hv =>
        Bool.eq_false_iff.mpr fun hv' => hyes ⟨v, hv, hv'⟩
      rcases setInsert_new hs.holds hs.lawful hroom hno budget with
        ⟨s', budget', heq, hlt, hs'⟩ | ⟨s', budget', heq, -, hs'⟩
      · rw [heq]
        exact ⟨_, _, _, rfl, .insertFails hset hlt, h.exchange hset ⟨hs.lawful, hs'⟩⟩
      · rw [heq]
        refine ⟨_, _, _, rfl, .insert hset hno, h.put ?_⟩
        exact ⟨hs.lawful, hs'⟩
  | remove set data =>
    refine onSet_spec h List.mem_cons_self fun s m _ hset hs => ?_
    rcases setRemove_spec hs.holds hs.lawful data with
      ⟨heq, hno⟩ | ⟨v, s', rest, heq, hv, hvs, hs'⟩
    · rw [heq]
      exact ⟨_, _, _, rfl, .removeMisses hset hno, h.exchange hset hs⟩
    · rw [heq]
      refine ⟨_, _, _, rfl, .remove hset hv hvs, h.put ?_⟩
      exact ⟨hs.lawful, hs'⟩
  | query set data =>
    refine onSet_spec h List.mem_cons_self fun s m _ hset hs => ?_
    rw [setQuery_eq hs.holds hs.lawful]
    exact ⟨_, _, _, rfl, .query hset, h⟩
  | numEntries set =>
    refine onSet_spec h List.mem_cons_self fun s m _ hset hs => ?_
    rw [setNumEntries, hs.holds.count]
    exact ⟨_, _, _, rfl, .numEntries hset, h⟩
  | toArray set mallocOk =>
    refine onSet_spec h List.mem_cons_self fun s m _ hset hs => ?_
    cases mallocOk with
    | true =>
      rw [setToArray_eq hs.holds]
      exact ⟨_, _, _, rfl, .toArray hset hs.holds.toList_perm, h⟩
    | false => exact ⟨_, _, _, rfl, .toArrayFails hset, h⟩
  | iterate set =>
    refine onSet_spec h List.mem_cons_self fun s m _ hset hs => ?_
    rw [forEach_setIterate hs.holds, runSteps_push, List.nil_append]
    exact ⟨_, _, _, rfl, .iterate hset hs.holds.toList_perm, h⟩
  | union set1 set2 budget =>
    refine onSet_spec h List.mem_cons_self fun s1 m1 hs1 hset1 h1 => ?_
    refine onSet_spec h (List.mem_cons_of_mem _ List.mem_cons_self) fun s2 m2 hs2 hset2 h2 => ?_
    have hsame : m1.funcs = m2.funcs := by
      rw [← h1.holds.funcs, ← h2.holds.funcs]
      exact hcall.2 s1 s2 hs1 hs2
    have hroom := (union_length_le hset1 hset2 h1 h2 hsame).trans hlen.le
    have hholds2 := h2.holds
    rw [← hsame] at hholds2
    rcases setUnion_spec h1.lawful h1.holds hholds2 hroom budget with
      ⟨heq, hlt⟩ | ⟨new, vs, heq, hs, hvs⟩
    · rw [heq]
      exact addSet_spec h h1.lawful (.inl ⟨rfl, .unionFails hset1 hset2 hlt⟩)
    · rw [heq]
      exact addSet_spec h h1.lawful (.inr ⟨new, vs, rfl, hs, .union hset1 hset2 hvs⟩)
  | intersection set1 set2 budget =>
    refine onSet_spec h List.mem_cons_self fun s1 m1 hs1 hset1 h1 => ?_
    refine onSet_spec h (List.mem_cons_of_mem _ List.mem_cons_self) fun s2 m2 hs2 hset2 h2 => ?_
    have hsame : m1.funcs = m2.funcs := by
      rw [← h1.holds.funcs, ← h2.holds.funcs]
      exact hcall.2 s1 s2 hs1 hs2
    have hroom := (h1.length_le hset1).trans hlen.le
    have hholds2 := h2.holds
    rw [← hsame] at hholds2
    rcases setIntersection_spec h1.lawful h1.holds hholds2 hroom budget with
      ⟨heq, hlt⟩ | ⟨new, vs, heq, hs, hvs⟩
    · rw [heq]
      exact addSet_spec h h1.lawful (.inl ⟨rfl, .intersectionFails hset1 hset2 hlt⟩)
    · rw [heq]
      exact addSet_spec h h1.lawful (.inr ⟨new, vs, rfl, hs, .intersection hset1 hset2 hvs⟩)
  | free set =>
    refine onSet_spec h List.mem_cons_self fun s m _ hset hs => ?_
    refine ⟨_, _, _, rfl, .free hset ?_, h.put trivial⟩
    rw [setFree, hs.holds.free]
    split
    · exact hs.holds.toList_perm
    · exact List.Perm.refl _

end Calls

/-- Two sets that share data; the one with a free function is freed last, and its data is not
used again. -/
def sharingCalls : List (SetCall Int) :=
  [.new intKeys 2, .insert 0 1 1, .insert 0 194 1, .register 0 true, .new intKeys 2,
    .insert 1 194 1, .union 0 1 6, .intersection 0 1 3, .toArray 2 true, .query 3 194, .free 2,
    .remove 0 1, .free 0, .numEntries 1, .free 1]

theorem keeps_sharingCalls : Keeps Sets.Proper setCall ⟨[], []⟩ sharingCalls := by
  refine keeps_cons ⟨by decide, lawful_intKeys⟩ rfl ?_
  refine keeps_cons ⟨by decide, trivial⟩ rfl ?_
  refine keeps_cons ⟨by decide, trivial⟩ rfl ?_
  refine keeps_cons ⟨by decide, trivial⟩ rfl ?_
  refine keeps_cons ⟨by decide, lawful_intKeys⟩ rfl ?_
  refine keeps_cons ⟨by decide, trivial⟩ rfl ?_
  refine keeps_cons ⟨by decide, by rintro _ _ ⟨⟩ ⟨⟩; rfl⟩ rfl ?_
  refine keeps_cons ⟨by decide, by rintro _ _ ⟨⟩ ⟨⟩; rfl⟩ rfl ?_
  refine keeps_cons ⟨by decide, trivial⟩ rfl ?_
  refine keeps_cons ⟨by decide, trivial⟩ rfl ?_
  refine keeps_cons ⟨by decide, trivial⟩ rfl ?_
  refine keeps_cons ⟨by decide, trivial⟩ rfl ?_
  refine keeps_cons ⟨by decide, trivial⟩ rfl ?_
  refine keeps_cons ⟨by decide, trivial⟩ rfl ?_
  refine keeps_cons ⟨by decide, trivial⟩ rfl ?_
  trivial

/-- In up to `2 ^ 29` proper calls, on however many sets and whichever allocations fail, no `int`
overflows, every loop ends, no array is overrun, and each answer is right for what the sets hold:
a union and an intersection are those of the data up to equality, leave their operands as they
were, and fail for want of memory only. -/
theorem set_answers_allowed [DecidableEq α] (calls : List (SetCall α))
    (hlen : calls.length ≤ 2 ^ 29) (hcalls : Keeps Sets.Proper setCall ⟨[], []⟩ calls) :
    ∃ rs sets ms, answers setCall ⟨[], []⟩ calls = some (rs, sets) ∧
      Allows SetMeaning [] calls rs ms ∧ SetsHold sets ms := by
  have hnew : SetsHold (⟨[], []⟩ : Sets α) [] := Slots.empty
  have hsize : ∀ (ms : List (Option (SetView α))) call r ms', SetMeaning ms call r ms' →
      (heldData ms').card ≤ (heldData ms).card + 1 := fun _ _ _ _ => card_le_of_meaning
  have hroom : (heldData ([] : List (Option (SetView α)))).card + calls.length ≤ 2 ^ 29 := by
    rwa [heldData, List.flatMap_nil, List.toFinset_nil, Finset.card_empty, Nat.zero_add]
  refine exists_answers_keeping (fun sets ms call h hcall hheld => ?_) hsize hnew hcalls hroom
  rw [setCall, if_pos hcall.1]
  exact setStep_spec h call hcall hheld

theorem set_answers_allowed_union :
    sharingCalls.length ≤ 2 ^ 29 ∧ Keeps Sets.Proper setCall ⟨[], []⟩ sharingCalls ∧
      ∃ rs sets ms, answers setCall ⟨[], []⟩ sharingCalls = some (rs, sets) ∧
        Allows SetMeaning [] sharingCalls rs ms ∧ SetsHold sets ms :=
  ⟨by decide, keeps_sharingCalls, set_answers_allowed _ (by decide) keeps_sharingCalls⟩

end BaseCode.Comm
