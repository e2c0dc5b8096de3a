import BaseCode.Comm.Trie

/-!
# The trie is a finite map

The node at a word exists if some key goes through it, and counts those keys. An insertion
raises the counts of the prefixes of its key one after the other, and a rollback or a removal
lowers them again; in between, the prefixes in a window of lengths count one more than the keys
at rest.
-/

namespace BaseCode.Comm
open Foundation

variable {ν : Type}

/-- The counts, with one more for the prefixes of `key` whose length is in the window from `i`
to `k`. -/
def window (key : List UInt8) (i k : Nat) (cnt : List UInt8 → Nat) (u : List UInt8) : Nat :=
  cnt u + if u <+: key ∧ i ≤ u.length ∧ u.length < k then 1 else 0

/-- Fewer keys go through a longer word. -/
def Shrinking (cnt : List UInt8 → Nat) : Prop := ∀ u c, cnt (u ++ [c]) ≤ cnt u

section Window

variable {key pre : List UInt8} {i k : Nat} {cnt : List UInt8 → Nat}

theorem window_self : window key i i cnt = cnt := by
  funext u
  have hno : ¬ (u <+: key ∧ i ≤ u.length ∧ u.length < i) := by omega
  simp only [window, if_neg hno, Nat.add_zero]

theorem eq_of_prefix_of_length {u : List UInt8} (hu : u <+: key) (hp : pre <+: key)
    (hlen : u.length = pre.length) : u = pre :=
  (List.prefix_of_prefix_length_le hu hp (Nat.le_of_eq hlen)).eq_of_length hlen

/-- The window grows by the prefix of the next length. -/
theorem window_grow (hp : pre <+: key) (hi : i ≤ pre.length) :
    Function.update (window key i pre.length cnt) pre (window key i pre.length cnt pre + 1) =
      window key i (pre.length + 1) cnt := by
  funext u
  by_cases hu : u = pre
  · subst hu
    rw [Function.update_self]
    simp only [window]
    rw [if_neg (by omega), if_pos ⟨hp, hi, Nat.lt_succ_self _⟩]
  · rw [Function.update_of_ne hu]
    simp only [window]
    congr 1
    refine if_congr ⟨fun h => ⟨h.1, h.2.1, by omega⟩, fun h => ⟨h.1, h.2.1, ?_⟩⟩ rfl rfl
    have hne : u.length ≠ pre.length := fun hlen => hu (eq_of_prefix_of_length h.1 hp hlen)
    omega

/-- The window shrinks by the prefix of the least length. -/
theorem window_shrink (hp : pre <+: key) (hk : pre.length < k) :
    Function.update (window key pre.length k cnt) pre (window key pre.length k cnt pre - 1) =
      window key (pre.length + 1) k cnt := by
  funext u
  by_cases hu : u = pre
  · subst hu
    rw [Function.update_self]
    simp only [window]
    rw [if_pos ⟨hp, Nat.le_refl _, hk⟩, if_neg (by omega)]
    omega
  · rw [Function.update_of_ne hu]
    simp only [window]
    congr 1
    refine if_congr ⟨fun h => ⟨h.1, ?_, h.2.2⟩, fun h => ⟨h.1, by omega, h.2.2⟩⟩ rfl rfl
    have hne : u.length ≠ pre.length := fun hlen => hu (eq_of_prefix_of_length h.1 hp hlen)
    omega

theorem window_at (hp : pre <+: key) (hk : pre.length < k) (hi : i ≤ pre.length) :
    window key i k cnt pre = cnt pre + 1 := by
  simp only [window]
  rw [if_pos ⟨hp, hi, hk⟩]

theorem window_out (hout : pre.length < i ∨ k ≤ pre.length) : window key i k cnt pre = cnt pre := by
  simp only [window]
  rw [if_neg (by omega)]
  rfl

end Window

/-- The nodes are those of the words that are counted, and carry these values and counts. -/
structure Counted (t : Trie ν) (loc : List UInt8 → Option Nat) (dat : List UInt8 → Option ν)
    (cnt : List UInt8 → Nat) : Prop where
  located : Located t loc fun w => ⟨dat w, cnt w⟩
  none_iff : ∀ w, loc w = none ↔ cnt w = 0

section Nodes

variable {t : Trie ν} {loc : List UInt8 → Option Nat} {dat : List UInt8 → Option ν}
  {cnt : List UInt8 → Nat} {w : List UInt8} {a : Nat} {slot : Slot UInt8}

theorem Counted.cell (h : Counted t loc dat cnt) (ha : loc w = some a) :
    t.nodes.cells a = some ⟨⟨dat w, cnt w⟩, fun c => loc (w ++ [c])⟩ := h.located.cell w a ha

theorem Counted.pos (h : Counted t loc dat cnt) (ha : loc w = some a) : 0 < cnt w := by
  refine Nat.pos_of_ne_zero fun h0 => ?_
  rw [(h.none_iff w).mpr h0] at ha
  cases ha

theorem Counted.exists_loc (h : Counted t loc dat cnt) (hpos : 0 < cnt w) :
    ∃ a, loc w = some a := by
  cases hl : loc w with
  | none => exact absurd ((h.none_iff w).mp hl) (Nat.ne_of_gt hpos)
  | some a => exact ⟨a, rfl⟩

theorem trieSetInfo_eq {info : List UInt8 → TrieInfo ν} (h : Located t loc info)
    (ha : loc w = some a) (f : TrieInfo ν → TrieInfo ν) :
    ∃ t', trieSetInfo t a f = some t' ∧ Located t' loc (Function.update info w (f (info w))) ∧
      t'.root = t.root := by
  refine ⟨_, ?_, h.setInfo ha (f (info w)), rfl⟩
  simp only [trieSetInfo, h.cell w a ha, Option.bind_eq_bind, Option.bind_some]

/-- Another count at a node. -/
theorem setCount (h : Counted t loc dat cnt) (ha : loc w = some a) {f : TrieInfo ν → TrieInfo ν}
    {n : Nat} (hf : f ⟨dat w, cnt w⟩ = ⟨dat w, n⟩) (hn : n ≠ 0) :
    ∃ t', trieSetInfo t a f = some t' ∧ Counted t' loc dat (Function.update cnt w n) := by
  obtain ⟨t', ht', hloc, -⟩ := trieSetInfo_eq h.located ha f
  refine ⟨t', ht', ?_, fun u => ?_⟩
  · have hinfo : (fun u => (⟨dat u, Function.update cnt w n u⟩ : TrieInfo ν)) =
        Function.update (fun w => ⟨dat w, cnt w⟩) w (f ⟨dat w, cnt w⟩) := by
      funext u
      by_cases hu : u = w
      · subst hu
        rw [Function.update_self, Function.update_self, hf]
      · rw [Function.update_of_ne hu, Function.update_of_ne hu]
    rw [hinfo]
    exact hloc
  · by_cases hu : u = w
    · subst hu
      rw [Function.update_self, ha]
      simp [hn]
    · rw [Function.update_of_ne hu]
      exact h.none_iff u

/-- Another value at a node. -/
theorem setData (h : Counted t loc dat cnt) (ha : loc w = some a) (d : Option ν) :
    ∃ t', trieSetInfo t a (fun i => { i with data := d }) = some t' ∧
      Counted t' loc (Function.update dat w d) cnt ∧ t'.root = t.root := by
  obtain ⟨t', ht', hloc, hroot⟩ := trieSetInfo_eq h.located ha fun i => { i with data := d }
  refine ⟨t', ht', ⟨?_, h.none_iff⟩, hroot⟩
  have hinfo : (fun u => (⟨Function.update dat w d u, cnt u⟩ : TrieInfo ν)) =
      Function.update (fun w => ⟨dat w, cnt w⟩) w ⟨d, cnt w⟩ := by
    funext u
    by_cases hu : u = w
    · subst hu
      rw [Function.update_self, Function.update_self]
    · rw [Function.update_of_ne hu, Function.update_of_ne hu]
  rw [hinfo]
  exact hloc

/-- What is known of the pointer to the node at `w`: its slot, or that nothing leads to the
node any more. -/
def PrevPtr (loc : List UInt8 → Option Nat) (w : List UInt8) : Option (Slot UInt8) → Prop
  | some slot => SlotAt loc w slot
  | none => w ≠ [] ∧ ∀ u c, w = u ++ [c] → loc u = none

/-- One key less goes through a node, which is freed if it was the last. -/
theorem release_spec (h : Counted t loc dat cnt) (ha : loc w = some a)
    {prevPtr : Option (Slot UInt8)} (hprev : PrevPtr loc w prevPtr) :
    ∃ t' n, trieSetInfo t a (fun i => { i with useCount := decrement i.useCount }) = some t' ∧
      t'.nodes.cells a = some n ∧ n.info.useCount = cnt w - 1 ∧
      (cnt w = 1 → ∃ t'', trieFreeNode t' a prevPtr = some t'' ∧
        Counted t'' (Function.update loc w none) dat (Function.update cnt w (cnt w - 1))) ∧
      (cnt w ≠ 1 → Counted t' loc dat (Function.update cnt w (cnt w - 1))) := by
  have hpos := h.pos ha
  have hdec : decrement (cnt w) = cnt w - 1 := if_neg (Nat.ne_of_gt hpos)
  obtain ⟨t', ht', hloc, -⟩ := trieSetInfo_eq h.located ha
    fun i => { i with useCount := decrement i.useCount }
  refine ⟨t', _, ht', hloc.cell w a ha, ?_, fun h1 => ?_, fun h1 => ?_⟩
  · rw [Function.update_self]
    exact hdec
  · have hinfo : (fun u => (⟨dat u, Function.update cnt w (cnt w - 1) u⟩ : TrieInfo ν)) =
        Function.update (fun w => ⟨dat w, cnt w⟩) w
          { (⟨dat w, cnt w⟩ : TrieInfo ν) with useCount := decrement (cnt w) } := by
      funext u
      by_cases hu : u = w
      · subst hu
        rw [Function.update_self, Function.update_self, hdec]
      · rw [Function.update_of_ne hu, Function.update_of_ne hu]
    have hnone : ∀ u, Function.update loc w none u = none ↔
        Function.update cnt w (cnt w - 1) u = 0 := by
      intro u
      by_cases hu : u = w
      · subst hu
        rw [Function.update_self, Function.update_self, h1]
        simp
      · rw [Function.update_of_ne hu, Function.update_of_ne hu]
        exact h.none_iff u
    cases prevPtr with
    | none =>
      refine ⟨_, rfl, ?_, hnone⟩
      rw [hinfo]
      exact hloc.drop ha hprev.1 hprev.2
    | some slot =>
      obtain ⟨t'', ht'', hcut⟩ := hloc.cut ha hprev
      refine ⟨t'', ht'', ?_, hnone⟩
      rw [hinfo]
      exact hcut
  · obtain ⟨t₁, ht₁, hc⟩ := setCount h ha (f := fun i => { i with useCount := decrement i.useCount })
      (n := cnt w - 1) (by rw [hdec]) (by omega)
    obtain rfl : t' = t₁ := Option.some.inj (ht'.symm.trans ht₁)
    exact hc

/-- The node at a word, made if it is missing, counts one more key. -/
theorem visit_spec (h : Counted t loc dat cnt) (hs : SlotAt loc w slot)
    (hleaf : cnt w = 0 → dat w = none ∧ ∀ c, cnt (w ++ [c]) = 0) (hlt : cnt w + 1 < 2 ^ 32)
    (budget : Nat) :
    (∃ a t₁ t' loc', trieVisit t slot budget =
        some (some (a, t₁, budget - if cnt w = 0 then 1 else 0)) ∧
      (if cnt w = 0 then 1 else 0) ≤ budget ∧
      trieSetInfo t₁ a (fun i => { i with useCount := increment i.useCount }) = some t' ∧
      loc' w = some a ∧ Counted t' loc' dat (Function.update cnt w (cnt w + 1))) ∨
    (cnt w = 0 ∧ budget = 0 ∧ trieVisit t slot budget = some none) := by
  have hload := h.located.load hs
  have hinc : increment (cnt w) = cnt w + 1 := Nat.mod_eq_of_lt hlt
  cases hl : loc w with
  | some a =>
    have hpos := h.pos hl
    obtain ⟨t', ht', h'⟩ := setCount h hl (f := fun i => { i with useCount := increment i.useCount })
      (n := cnt w + 1) (by rw [hinc]) (Nat.succ_ne_zero _)
    refine .inl ⟨a, t, t', loc, ?_, ?_, ht', hl, h'⟩
    · rw [if_neg (Nat.ne_of_gt hpos)]
      simp only [trieVisit, hload, hl, Option.bind_eq_bind, Option.bind_some, Nat.sub_zero]
    · rw [if_neg (Nat.ne_of_gt hpos)]
      exact Nat.zero_le _
  | none =>
    have h0 := (h.none_iff w).mp hl
    cases budget with
    | zero =>
      refine .inr ⟨h0, rfl, ?_⟩
      simp only [trieVisit, hload, hl, Option.bind_eq_bind, Option.bind_some]
    | succ budget =>
      obtain ⟨hdat, hkids⟩ := hleaf h0
      obtain ⟨t₁, ht₁, hloc₁⟩ := h.located.grow hs hl
        (fun c => (h.none_iff _).mpr (hkids c)) ⟨none, 0⟩
      have hat : Function.update loc w (some t.nodes.next) w = some t.nodes.next :=
        Function.update_self ..
      obtain ⟨t', ht', hloc', -⟩ := trieSetInfo_eq hloc₁ hat
        fun i => { i with useCount := increment i.useCount }
      rw [Function.update_self] at hloc'
      refine .inl ⟨t.nodes.next, t₁, t', _, ?_, ?_, ht', hat, ?_, fun u => ?_⟩
      · rw [if_pos h0]
        simp only [trieVisit, hload, hl, ht₁, Option.bind_eq_bind, Option.bind_some,
          Nat.add_sub_cancel]
      · rw [if_pos h0]
        exact Nat.succ_le_succ (Nat.zero_le _)
      · have hinfo : (fun u => (⟨dat u, Function.update cnt w (cnt w + 1) u⟩ : TrieInfo ν)) =
            Function.update (Function.update (fun w => ⟨dat w, cnt w⟩) w ⟨none, 0⟩) w
              ⟨none, increment 0⟩ := by
          funext u
          by_cases hu : u = w
          · subst hu
            rw [Function.update_self, Function.update_self, hdat, h0]
            rfl
          · rw [Function.update_of_ne hu, Function.update_of_ne hu, Function.update_of_ne hu]
        rw [hinfo]
        exact hloc'
      · by_cases hu : u = w
        · subst hu
          rw [Function.update_self, Function.update_self]
          simp
        · rw [Function.update_of_ne hu, Function.update_of_ne hu]
          exact h.none_iff u

end Nodes

theorem trieNext_eq {c : UInt8} (hc : c < 128) (node : Nat) :
    trieNext node c = some (.next node c) := if_pos hc

theorem Shrinking.append_le {cnt : List UInt8 → Nat} (hs : Shrinking cnt) (u v : List UInt8) :
    cnt (u ++ v) ≤ cnt u := by
  induction v generalizing u with
  | nil => rw [List.append_nil]
  | cons c v ih =>
    have hstep := ih (u ++ [c])
    rw [List.append_assoc] at hstep
    exact Nat.le_trans hstep (hs u c)

/-- The counts and values at rest: fewer keys go through a longer word, and there is no value
where no key goes. -/
structure AtRest (dat : List UInt8 → Option ν) (cnt : List UInt8 → Nat) : Prop where
  shrinking : Shrinking cnt
  data_none : ∀ w, cnt w = 0 → dat w = none

/-- The nodes that an insertion below `pre` has to make. -/
def missing (cnt : List UInt8 → Nat) (pre rest : List UInt8) : Nat :=
  rest.inits.countP fun u => cnt (pre ++ u) = 0

section Loops

variable {t : Trie ν} {loc : List UInt8 → Option Nat} {dat : List UInt8 → Option ν}
  {cnt : List UInt8 → Nat} {key : List UInt8}

theorem missing_nil (pre : List UInt8) : missing cnt pre [] = if cnt pre = 0 then 1 else 0 := by
  simp [missing, List.countP_cons]

theorem missing_cons (pre : List UInt8) (c : UInt8) (rest : List UInt8) :
    missing cnt pre (c :: rest) =
      (if cnt pre = 0 then 1 else 0) + missing cnt (pre ++ [c]) rest := by
  simp only [missing, List.inits_cons, List.countP_cons, List.countP_map, List.append_nil,
    decide_eq_true_eq]
  rw [Nat.add_comm]
  congr 2
  funext u
  simp

theorem trieFindEndFrom_eq (h : Counted t loc dat cnt) (hs : Shrinking cnt)
    (pre : List UInt8) (hkey : ∀ c ∈ key, c < 128) :
    trieFindEndFrom t (loc pre) key = some (loc (pre ++ key)) := by
  induction key generalizing pre with
  | nil =>
    rw [List.append_nil]
    cases loc pre <;> rfl
  | cons c key ih =>
    cases hl : loc pre with
    | none =>
      have h0 := (h.none_iff pre).mp hl
      have hle := hs.append_le pre (c :: key)
      rw [(h.none_iff (pre ++ c :: key)).mpr (by omega)]
      rfl
    | some a =>
      have hslot : SlotAt loc (pre ++ [c]) (.next a c) := ⟨pre, rfl, hl⟩
      have hrec := ih (pre ++ [c]) fun c' hc' => hkey c' (List.mem_cons_of_mem c hc')
      rw [List.append_assoc] at hrec
      simp only [trieFindEndFrom, trieNext_eq (hkey c List.mem_cons_self), h.located.load hslot,
        Option.bind_eq_bind, Option.bind_some]
      exact hrec

theorem trieFindEnd_eq (h : Counted t loc dat cnt) (hs : Shrinking cnt)
    (hkey : ∀ c ∈ key, c < 128) : trieFindEnd t key = some (loc key) := by
  have hfrom := trieFindEndFrom_eq h hs [] hkey
  rw [← h.located.root] at hfrom
  exact hfrom

theorem trieData_eq (h : Counted t loc dat cnt) (hr : AtRest dat cnt) (w : List UInt8) :
    trieData t (loc w) = some (dat w) := by
  cases hl : loc w with
  | none =>
    rw [hr.data_none w ((h.none_iff w).mp hl)]
    rfl
  | some a => simp only [trieData, h.cell hl, Option.bind_eq_bind, Option.bind_some]

/-- The next prefix of a key, made if it is missing, counts the key. -/
theorem visit_window (hr : AtRest dat cnt) (hlt : ∀ w, cnt w + 1 < 2 ^ 32) {pre : List UInt8}
    (hp : pre <+: key) {slot : Slot UInt8} (hslot : SlotAt loc pre slot)
    (h : Counted t loc dat (window key 0 pre.length cnt)) (budget : Nat) :
    (∃ a t₁ t' loc', trieVisit t slot budget =
        some (some (a, t₁, budget - if cnt pre = 0 then 1 else 0)) ∧
      (if cnt pre = 0 then 1 else 0) ≤ budget ∧
      trieSetInfo t₁ a (fun i => { i with useCount := increment i.useCount }) = some t' ∧
      loc' pre = some a ∧ Counted t' loc' dat (window key 0 (pre.length + 1) cnt)) ∨
    (cnt pre = 0 ∧ budget = 0 ∧ trieVisit t slot budget = some none) := by
  have hout : window key 0 pre.length cnt pre = cnt pre := window_out (.inr (Nat.le_refl _))
  have hleaf : window key 0 pre.length cnt pre = 0 →
      dat pre = none ∧ ∀ c, window key 0 pre.length cnt (pre ++ [c]) = 0 := by
    intro h0
    rw [hout] at h0
    refine ⟨hr.data_none pre h0, fun c => ?_⟩
    rw [window_out (.inr (by simp))]
    exact Nat.eq_zero_of_le_zero (Nat.le_trans (hr.shrinking pre c) (Nat.le_of_eq h0))
  have hvisit := visit_spec h hslot hleaf (by rw [hout]; exact hlt pre) budget
  rw [window_grow hp (Nat.zero_le _), hout] at hvisit
  exact hvisit

/-- The loop of an insertion, from the pointer to the node at `pre` on. -/
theorem insertFrom_spec (hr : AtRest dat cnt) (hlt : ∀ w, cnt w + 1 < 2 ^ 32) (value : ν)
    {pre rest : List UInt8} (hkey : pre ++ rest = key) (hchars : ∀ c ∈ rest, c < 128)
    {slot : Slot UInt8} (hslot : SlotAt loc pre slot)
    (h : Counted t loc dat (window key 0 pre.length cnt)) (budget : Nat) :
    (missing cnt pre rest ≤ budget ∧
      ∃ t' loc', trieInsertFrom value t slot rest budget = some (true, t') ∧
        Counted t' loc' (Function.update dat key (some value)) (window key 0 (key.length + 1) cnt)) ∨
    (budget < missing cnt pre rest ∧
      ∃ t' loc' k, trieInsertFrom value t slot rest budget = some (false, t') ∧
        k ≤ key.length ∧ cnt (key.take k) = 0 ∧ Counted t' loc' dat (window key 0 k cnt)) := by
  have hp : pre <+: key := ⟨rest, hkey⟩
  induction rest generalizing pre slot t loc budget with
  | nil =>
    rw [List.append_nil] at hkey
    subst hkey
    rw [missing_nil]
    rcases visit_window hr hlt hp hslot h budget with
      ⟨a, t₁, t', loc', hvisit, hle, hset, ha, h'⟩ | ⟨h0, rfl, hvisit⟩
    · obtain ⟨t'', ht'', h'', -⟩ := setData h' ha (some value)
      refine .inl ⟨hle, t'', loc', ?_, h''⟩
      rw [trieInsertFrom]
      simp only [hvisit, hset, ht'', Option.bind_eq_bind, Option.bind_some]
    · rw [if_pos h0]
      refine .inr ⟨Nat.zero_lt_one, t, loc, pre.length, ?_, Nat.le_refl _, ?_, h⟩
      · rw [trieInsertFrom]
        simp only [hvisit, Option.bind_eq_bind, Option.bind_some]
      · rw [List.take_length]
        exact h0
  | cons c rest ih =>
    rw [missing_cons]
    rcases visit_window hr hlt hp hslot h budget with
      ⟨a, t₁, t', loc', hvisit, hle, hset, ha, h'⟩ | ⟨h0, rfl, hvisit⟩
    · have hslot' : SlotAt loc' (pre ++ [c]) (.next a c) := ⟨pre, rfl, ha⟩
      have hlen : pre.length + 1 = (pre ++ [c]).length := by simp
      have hkey' : pre ++ [c] ++ rest = key := by
        rw [List.append_assoc]
        exact hkey
      rw [hlen] at h'
      have hstep : trieInsertFrom value t slot (c :: rest) budget =
          trieInsertFrom value t' (.next a c) rest (budget - if cnt pre = 0 then 1 else 0) := by
        rw [trieInsertFrom]
        simp only [hvisit, hset, trieNext_eq (hchars c List.mem_cons_self), Option.bind_eq_bind,
          Option.bind_some]
      rw [hstep]
      rcases ih hkey' (fun c' hc' => hchars c' (List.mem_cons_of_mem c hc')) hslot' h'
          (budget - if cnt pre = 0 then 1 else 0) ⟨rest, hkey'⟩ with ⟨hle', hok⟩ | ⟨hlt', hfail⟩
      · exact .inl ⟨by omega, hok⟩
      · exact .inr ⟨by omega, hfail⟩
    · rw [if_pos h0]
      refine .inr ⟨by omega, t, loc, pre.length, ?_, hp.length_le, ?_, h⟩
      · rw [trieInsertFrom]
        simp only [hvisit, Option.bind_eq_bind, Option.bind_some]
      · rw [← List.prefix_iff_eq_take.mp hp]
        exact h0

/-- The first prefix in the window does not count the key any more. -/
theorem release_window {k : Nat} {pre : List UInt8} (hp : pre <+: key) (hk : pre.length < k)
    {prevPtr : Option (Slot UInt8)} (hprev : PrevPtr loc pre prevPtr)
    (h : Counted t loc dat (window key pre.length k cnt)) :
    ∃ a t' n, loc pre = some a ∧
      trieSetInfo t a (fun i => { i with useCount := decrement i.useCount }) = some t' ∧
      t'.nodes.cells a = some n ∧ n.info.useCount = cnt pre ∧
      (cnt pre = 0 → ∃ t'', trieFreeNode t' a prevPtr = some t'' ∧
        Counted t'' (Function.update loc pre none) dat (window key (pre.length + 1) k cnt)) ∧
      (cnt pre ≠ 0 → Counted t' loc dat (window key (pre.length + 1) k cnt)) := by
  have hat : window key pre.length k cnt pre = cnt pre + 1 := window_at hp hk (Nat.le_refl _)
  obtain ⟨a, ha⟩ := h.exists_loc (w := pre) (by omega)
  obtain ⟨t', n, hset, hcell, hn, hfree, hkeep⟩ := release_spec h ha hprev
  rw [window_shrink hp hk] at hfree hkeep
  rw [hat] at hn hfree hkeep
  exact ⟨a, t', n, ha, hset, hcell, hn, fun h0 => hfree (by omega), fun h0 => hkeep (by omega)⟩

theorem prevPtr_gone (loc : List UInt8 → Option Nat) (pre : List UInt8) (c : UInt8) :
    PrevPtr (Function.update loc pre none) (pre ++ [c]) none := by
  refine ⟨by simp, fun u c' heq => ?_⟩
  obtain rfl : pre = u := List.append_inj_left' heq rfl
  exact Function.update_self ..

/-- A rollback takes back one key from the prefixes shorter than `k`. -/
theorem insertRollback_spec {k : Nat} (hk : k ≤ key.length) (h0 : cnt (key.take k) = 0)
    {pre rest : List UInt8} (hkey : pre ++ rest = key) (hchars : ∀ c ∈ rest, c < 128)
    (hle : pre.length ≤ k) {prevPtr : Option (Slot UInt8)} (hprev : PrevPtr loc pre prevPtr)
    (h : Counted t loc dat (window key pre.length k cnt)) :
    ∃ t' loc', trieInsertRollback t (loc pre) prevPtr rest = some t' ∧ Counted t' loc' dat cnt := by
  have hp : pre <+: key := ⟨rest, hkey⟩
  induction rest generalizing pre prevPtr t loc with
  | nil =>
    rw [List.append_nil] at hkey
    subst hkey
    obtain rfl : k = pre.length := Nat.le_antisymm hk hle
    rw [window_self] at h
    rw [List.take_length] at h0
    refine ⟨t, loc, ?_, h⟩
    rw [(h.none_iff pre).mpr h0]
    rfl
  | cons c rest ih =>
    rcases Nat.eq_or_lt_of_le hle with rfl | hlt
    · rw [window_self] at h
      rw [← List.prefix_iff_eq_take.mp hp] at h0
      refine ⟨t, loc, ?_, h⟩
      rw [(h.none_iff pre).mpr h0]
      rfl
    · obtain ⟨a, t', n, ha, hset, hcell, hn, hfree, hkeep⟩ := release_window hp hlt hprev h
      have hload : Slot.load t (.next a c) = some (loc (pre ++ [c])) :=
        h.located.load ⟨pre, rfl, ha⟩
      have hkey' : pre ++ [c] ++ rest = key := by
        rw [List.append_assoc]
        exact hkey
      have hchars' : ∀ c' ∈ rest, c' < 128 := fun c' hc' => hchars c' (List.mem_cons_of_mem c hc')
      have hlen : pre.length + 1 = (pre ++ [c]).length := by simp
      rw [hlen] at hfree hkeep
      rw [ha, trieInsertRollback]
      by_cases hc : cnt pre = 0
      · obtain ⟨t'', ht'', h''⟩ := hfree hc
        have hsame : Function.update loc pre none (pre ++ [c]) = loc (pre ++ [c]) :=
          Function.update_of_ne (by simp) ..
        obtain ⟨t₁, loc₁, ht₁, h₁⟩ :=
          ih hkey' hchars' (by omega) (prevPtr_gone loc pre c) h'' ⟨rest, hkey'⟩
        rw [hsame] at ht₁
        rw [hc] at hn
        refine ⟨t₁, loc₁, ?_, h₁⟩
        simp only [trieNext_eq (hchars c List.mem_cons_self), hload, hset, hcell, if_pos hn, ht'',
          ht₁, Option.bind_eq_bind, Option.bind_some]
      · have hslot : PrevPtr loc (pre ++ [c]) (some (.next a c)) := ⟨pre, rfl, ha⟩
        obtain ⟨t₁, loc₁, ht₁, h₁⟩ :=
          ih hkey' hchars' (by omega) hslot (hkeep hc) ⟨rest, hkey'⟩
        rw [← hn] at hc
        refine ⟨t₁, loc₁, ?_, h₁⟩
        simp only [trieNext_eq (hchars c List.mem_cons_self), hload, hset, hcell, if_neg hc, ht₁,
          Option.bind_eq_bind, Option.bind_some]

/-- A removal takes back one key from all prefixes that are left. -/
theorem removeFrom_spec (hs : Shrinking cnt) {pre rest : List UInt8} (hkey : pre ++ rest = key)
    (hchars : ∀ c ∈ rest, c < 128) {lastNextPtr : Option (Slot UInt8)}
    (hlast : lastNextPtr = none → cnt pre = 0) (hprev : PrevPtr loc pre lastNextPtr)
    (h : Counted t loc dat (window key pre.length (key.length + 1) cnt)) :
    ∃ t' loc', trieRemoveFrom t (loc pre) lastNextPtr rest = some t' ∧
      Counted t' loc' dat cnt := by
  have hp : pre <+: key := ⟨rest, hkey⟩
  have hk : pre.length < key.length + 1 := Nat.lt_succ_of_le hp.length_le
  induction rest generalizing pre lastNextPtr t loc with
  | nil =>
    obtain ⟨a, t', n, ha, hset, hcell, hn, hfree, hkeep⟩ := release_window hp hk hprev h
    have hload : Slot.load t (.next a 0) = some (loc (pre ++ [0])) :=
      h.located.load ⟨pre, rfl, ha⟩
    rw [List.append_nil] at hkey
    subst hkey
    rw [window_self] at hfree hkeep
    rw [ha, trieRemoveFrom]
    by_cases hc : cnt pre = 0
    · obtain ⟨t'', ht'', h''⟩ := hfree hc
      rw [hc] at hn
      refine ⟨t'', _, ?_, h''⟩
      simp only [List.headD, trieNext_eq (show (0 : UInt8) < 128 by decide), hload, hset, hcell,
        if_pos hn, ht'', Option.bind_eq_bind, Option.bind_some]
    · rw [← hn] at hc
      refine ⟨t', loc, ?_, hkeep (by rw [← hn]; exact hc)⟩
      simp only [List.headD, trieNext_eq (show (0 : UInt8) < 128 by decide), hload, hset, hcell,
        if_neg hc, Option.bind_eq_bind, Option.bind_some]
  | cons c rest ih =>
    obtain ⟨a, t', n, ha, hset, hcell, hn, hfree, hkeep⟩ := release_window hp hk hprev h
    have hload : Slot.load t (.next a c) = some (loc (pre ++ [c])) :=
      h.located.load ⟨pre, rfl, ha⟩
    have hkey' : pre ++ [c] ++ rest = key := by
      rw [List.append_assoc]
      exact hkey
    have hchars' : ∀ c' ∈ rest, c' < 128 := fun c' hc' => hchars c' (List.mem_cons_of_mem c hc')
    have hlen : pre.length + 1 = (pre ++ [c]).length := by simp
    have hp' : pre ++ [c] <+: key := ⟨rest, hkey'⟩
    have hk' : (pre ++ [c]).length < key.length + 1 := Nat.lt_succ_of_le hp'.length_le
    rw [hlen] at hfree hkeep
    rw [ha, trieRemoveFrom]
    by_cases hc : cnt pre = 0
    · obtain ⟨t'', ht'', h''⟩ := hfree hc
      have hsame : Function.update loc pre none (pre ++ [c]) = loc (pre ++ [c]) :=
        Function.update_of_ne (by simp) ..
      have hlast' : (none : Option (Slot UInt8)) = none → cnt (pre ++ [c]) = 0 := fun _ =>
        Nat.eq_zero_of_le_zero (Nat.le_trans (hs pre c) (Nat.le_of_eq hc))
      obtain ⟨t₁, loc₁, ht₁, h₁⟩ :=
        ih hkey' hchars' hlast' (prevPtr_gone loc pre c) h'' hp' hk'
      rw [hsame] at ht₁
      rw [hc] at hn
      refine ⟨t₁, loc₁, ?_, h₁⟩
      simp only [List.headD, trieNext_eq (hchars c List.mem_cons_self), hload, hset, hcell,
        if_pos hn, ht'', ht₁, Option.map_none, Option.bind_eq_bind, Option.bind_some]
    · cases lastNextPtr with
      | none => exact absurd (hlast rfl) hc
      | some lastNextPtr =>
        have hslot : PrevPtr loc (pre ++ [c]) (some (.next a c)) := ⟨pre, rfl, ha⟩
        obtain ⟨t₁, loc₁, ht₁, h₁⟩ := ih hkey' hchars' (fun h => by cases h) hslot (hkeep hc) hp' hk'
        rw [← hn] at hc
        refine ⟨t₁, loc₁, ?_, h₁⟩
        simp only [List.headD, trieNext_eq (hchars c List.mem_cons_self), hload, hset, hcell,
          if_neg hc, ht₁, Option.map_some, Option.bind_eq_bind, Option.bind_some]

end Loops

end BaseCode.Comm
