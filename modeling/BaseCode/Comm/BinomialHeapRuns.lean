import BaseCode.Comm.BinomialHeapSpec

/-!
# Runs of the binomial heap

What the heap is for: a multiset of values from which a least one can be taken. A call that
does not get the memory it needs leaves the multiset as it was.
-/

namespace BaseCode.Comm
open Foundation

inductive HeapCall (α : Type) where
  | insert (value : α) (budget : Nat)
  | pop (budget : Nat)
  | numEntries

inductive HeapAnswer (α : Type) where
  | inserted (result : Bool)
  | popped (value : Option α)
  | entries (n : Int)

variable {α : Type}

def binomialHeapCall (heapType : BinomialHeapType) (compare : α → α → Int) (heap : BinomialHeap α) :
    HeapCall α → Option (HeapAnswer α × BinomialHeap α)
  | .insert value budget => do
    let (result, heap) ← binomialHeapInsert (binomialHeapCmp heapType compare) heap value budget
    some (.inserted result, heap)
  | .pop budget => do
    let (value, heap) ← binomialHeapPop (binomialHeapCmp heapType compare) heap budget
    some (.popped value, heap)
  | .numEntries => some (.entries (binomialHeapNumEntries heap), heap)

/-- The order of the values: a heap of type `MAX` takes a greatest one first. -/
def heapOrder (heapType : BinomialHeapType) (c : Comparator α) : Comparator α :=
  match heapType with
  | .min => c
  | .max => c.neg

theorem binomialHeapCmp_eq {heapType : BinomialHeapType} {c : Comparator α}
    (hneg : heapType = .max → c.Negatable) :
    binomialHeapCmp heapType c.compare = (heapOrder heapType c).compare := by
  cases heapType with
  | min => rfl
  | max =>
    funext data1 data2
    exact (hneg rfl).negInt_compare data1 data2

theorem binomialHeapCmp_decides {heapType : BinomialHeapType} {c : Comparator α}
    (hneg : heapType = .max → c.Negatable) :
    Decides (binomialHeapCmp heapType c.compare) (heapOrder heapType c).Le := by
  rw [binomialHeapCmp_eq hneg]
  exact (heapOrder heapType c).decides

/-- What a call answers on the values `vs`, and the values after it. A call that fails has not
got two allocations for each binary digit of the number of values, and one or two more. -/
inductive HeapMeaning (le : α → α → Prop) :
    Multiset α → HeapCall α → HeapAnswer α → Multiset α → Prop
  | insert {vs value budget} :
      HeapMeaning le vs (.insert value budget) (.inserted true) (value ::ₘ vs)
  | insertFails {vs value budget} (hroom : budget < 2 + 2 * Nat.size (vs.card + 1)) :
      HeapMeaning le vs (.insert value budget) (.inserted false) vs
  | pop {vs value budget} (hleast : ∀ x ∈ vs, le value x) :
      HeapMeaning le (value ::ₘ vs) (.pop budget) (.popped (some value)) vs
  | popEmpty {budget} : HeapMeaning le 0 (.pop budget) (.popped none) 0
  | popFails {vs budget} (hroom : budget < 1 + 2 * Nat.size vs.card) :
      HeapMeaning le vs (.pop budget) (.popped none) vs
  | numEntries {vs} : HeapMeaning le vs .numEntries (.entries vs.card) vs

/-- The heap stores these values, and every mark is the address of another tree. -/
structure HeapHolds (le : α → α → Prop) (heap : BinomialHeap α) (content : Nat → Items α)
    (rank : Nat → Nat) (vs : Multiset α) : Prop where
  stock : Stock le heap.trees heap.roots.reduceOption content rank
  ranks : ∀ j t, heap.roots[j]? = some (some t) → rank t = j
  trim : Trim heap.roots heap.roots.length
  contents : (stuff content heap.roots).map Prod.fst = vs
  marked : (marks (stuff content heap.roots)).Nodup
  fresh : ∀ i ∈ marks (stuff content heap.roots), i < heap.trees.next
  count : heap.numValues = vs.card

section Operations

variable {cmp : α → α → Int} {le : α → α → Prop} {heap : BinomialHeap α}
  {content : Nat → Items α} {rank : Nat → Nat} {vs : Multiset α}

theorem stock_empty (le : α → α → Prop) : Stock le .empty [] (fun _ => 0) fun _ => 0 := by
  have hno : ∀ a t, (Arena.empty : Arena (BinomialTree α)).cells a = some t → False := by
    intro a t h
    cases h
  exact ⟨⟨_, Tally.empty⟩, ⟨fun a t h => (hno a t h).elim, fun a t h => (hno a t h).elim,
    fun a t h => (hno a t h).elim, fun a t h => (hno a t h).elim, fun a t h => (hno a t h).elim⟩,
    fun a t h => (hno a t h).elim⟩

theorem HeapHolds.new (le : α → α → Prop) :
    HeapHolds le binomialHeapNew (fun _ => 0) (fun _ => 0) 0 where
  stock := stock_empty le
  ranks j t h := by simp [binomialHeapNew] at h
  trim := ⟨fun j _ => by simp [binomialHeapNew], fun h => absurd h (Nat.lt_irrefl 0)⟩
  contents := by simp [stuff, binomialHeapNew]
  marked := by simp [stuff, marks, binomialHeapNew]
  fresh i hi := by simp [stuff, marks, binomialHeapNew] at hi
  count := rfl

theorem mem_stuff {os : List (Option Nat)} {x : α × Nat} :
    x ∈ stuff content os ↔ ∃ t ∈ os.reduceOption, x ∈ content t := by
  rw [stuff]
  induction os.reduceOption with
  | nil => simp
  | cons t ts ih =>
    rw [List.map_cons, List.sum_cons, Multiset.mem_add, ih, List.exists_mem_cons_iff]

/-- The array of roots is as long as the number of values in binary. -/
theorem HeapHolds.length_le (h : HeapHolds le heap content rank vs) :
    heap.roots.length ≤ Nat.size vs.card := by
  rcases Nat.eq_zero_or_pos heap.roots.length with h0 | hpos
  · omega
  · obtain ⟨t, ht⟩ := h.trim.2 hpos
    have hmem : t ∈ heap.roots.reduceOption := mem_reduceOption.mpr ⟨_, ht⟩
    obtain ⟨cell, hcell⟩ := h.stock.cell_of_mem hmem
    have hcard := h.stock.shaped.card t cell hcell
    rw [h.ranks _ t ht] at hcard
    have hsub : content t ≤ stuff content heap.roots := le_sum_of_mem hmem content
    have hle := Multiset.card_le_card hsub
    rw [← Multiset.card_map Prod.fst (stuff content heap.roots), h.contents, hcard] at hle
    have hlt := Nat.lt_size.mpr hle
    omega

/-- The array of roots is short as long as the values can be counted. -/
theorem HeapHolds.short (h : HeapHolds le heap content rank vs) (hlen : vs.card < 2 ^ 31) :
    heap.roots.length < 2 ^ 15 := by
  have hsize : Nat.size vs.card ≤ 31 := Nat.size_le.mpr hlen
  have hle := h.length_le
  omega

/-- A heap whose roots stand for what they stood for stores what it did. -/
theorem HeapHolds.later (h : HeapHolds le heap content rank vs) {trees : Arena (BinomialTree α)}
    {content' : Nat → Items α} {rank' : Nat → Nat}
    (hst : Stock le trees heap.roots.reduceOption content' rank')
    (hcontent : ∀ t ∈ heap.roots.reduceOption, content' t = content t)
    (hrank : ∀ t ∈ heap.roots.reduceOption, rank' t = rank t)
    (hnext : heap.trees.next ≤ trees.next) :
    HeapHolds le { heap with trees := trees } content' rank' vs := by
  have hsame : stuff content' heap.roots = stuff content heap.roots := stuff_congr hcontent
  refine ⟨hst, fun j t hj => ?_, h.trim, ?_, ?_, fun i hi => ?_, h.count⟩
  · rw [hrank t (mem_reduceOption.mpr ⟨j, hj⟩)]
    exact h.ranks j t hj
  · rw [hsame]
    exact h.contents
  · rw [hsame]
    exact h.marked
  · rw [hsame] at hi
    exact Nat.lt_of_lt_of_le (h.fresh i hi) hnext

/-- The mark of a new tree is not one of the heap's. -/
theorem HeapHolds.marked_new (h : HeapHolds le heap content rank vs) (value : α) :
    (marks (stuff content heap.roots + {(value, heap.trees.next)})).Nodup := by
  rw [marks, Multiset.map_add, Multiset.map_singleton, Multiset.add_comm]
  refine Multiset.nodup_cons.mpr ⟨fun hmem => ?_, h.marked⟩
  exact Nat.lt_irrefl _ (h.fresh _ hmem)

/-- Marks that are all different come up twice in two parts of their items. -/
theorem count_marks_le_two {items items' whole : Items α} (hnodup : (marks whole).Nodup)
    (h : items ≤ whole) (h' : items' ≤ whole) (i : Nat) :
    (marks (items + items')).count i ≤ 2 := by
  have hone := Multiset.nodup_iff_count_le_one.mp hnodup i
  have hle := count_marks_le h i
  have hle' := count_marks_le h' i
  rw [marks, Multiset.map_add, Multiset.count_add]
  exact Nat.add_le_add (hle.trans hone) (hle'.trans hone)

/-- A tree of one value that one reference leads to. -/
theorem Stock.alloc_leaf (hdec : Decides cmp le) {trees : Arena (BinomialTree α)} {ext : List Nat}
    (h : Stock le trees ext content rank) (value : α) :
    Stock le (trees.alloc ⟨value, 1, []⟩) (trees.next :: ext)
      (Function.update content trees.next {(value, trees.next)})
      (Function.update rank trees.next 0) := by
  obtain ⟨own, ht⟩ := h.tally
  have hlt : ∀ a t, trees.cells a = some t → ∀ k ∈ t.kids, k < trees.next := fun a t hc k hk =>
    (ht.older a t hc k hk).trans (ht.sound.live_lt a (Option.isSome_iff_exists.mpr ⟨t, hc⟩))
  refine ⟨⟨own, ht.alloc value (n := 1) (fun k hk => by cases hk) (.inl rfl)⟩,
    h.shaped.alloc hlt (i := trees.next) (fun k hk => by cases hk) rfl (fun x hx => ?_) rfl rfl rfl,
    fun a t hc => ?_⟩
  · rw [Multiset.mem_singleton.mp hx]
    exact hdec.refl value
  · rcases Arena.cells_alloc_cases hc with ⟨rfl, rfl⟩ | ⟨-, hc⟩
    · exact Nat.one_ne_zero
    · exact h.pos a t hc

theorem Ranked.of_roots {trees : Arena (BinomialTree α)} {ext : List Nat} {os : List (Option Nat)}
    (hranks : ∀ j t, os[j]? = some (some t) → rank t = j) (hsub : os.reduceOption ⊆ ext) :
    Ranked trees ext rank os := fun j t hj =>
  ⟨hranks j t hj, .inl (hsub (mem_reduceOption.mpr ⟨j, hj⟩))⟩

/-- A value goes in, or everything is as before. -/
theorem heapInsert_spec (hdec : Decides cmp le) (h : HeapHolds le heap content rank vs)
    (hlen : vs.card < 2 ^ 31 - 1) (value : α) (budget : Nat) :
    ∃ result heap' content' rank' vs',
      binomialHeapInsert cmp heap value budget = some (result, heap') ∧
      HeapMeaning le vs (.insert value budget) (.inserted result) vs' ∧
      HeapHolds le heap' content' rank' vs' := by
  cases budget with
  | zero => exact ⟨false, heap, content, rank, vs, rfl, .insertFails (by omega), h⟩
  | succ budget =>
    obtain ⟨content₁, hcontent₁⟩ : ∃ content₁, content₁ =
      Function.update content heap.trees.next {(value, heap.trees.next)} := ⟨_, rfl⟩
    have hnew := (h.stock.alloc_leaf hdec value).perm (List.perm_append_singleton _ _).symm
    rw [← hcontent₁] at hnew
    have hlt : ∀ t ∈ heap.roots.reduceOption, t < heap.trees.next :=
      fun t ht => h.stock.lt_of_mem ht
    have hroots : Ranked (heap.trees.alloc ⟨value, 1, []⟩)
        (heap.roots.reduceOption ++ [heap.trees.next]) (Function.update rank heap.trees.next 0)
        heap.roots := by
      refine .of_roots (fun j t hj => ?_) (List.subset_append_left _ _)
      rw [Function.update_of_ne (Nat.ne_of_lt (hlt t (mem_reduceOption.mpr ⟨j, hj⟩)))]
      exact h.ranks j t hj
    have hothers : Ranked (heap.trees.alloc ⟨value, 1, []⟩)
        (heap.roots.reduceOption ++ [heap.trees.next]) (Function.update rank heap.trees.next 0)
        [some heap.trees.next] := by
      refine .of_roots (fun j t hj => ?_) (by simp)
      cases j with
      | zero =>
        obtain rfl : heap.trees.next = t := by simpa using hj
        rw [Function.update_self]
      | succ j => simp at hj
    have hold : stuff content₁ heap.roots = stuff content heap.roots := by
      rw [hcontent₁]
      exact stuff_congr fun t ht => Function.update_of_ne (Nat.ne_of_lt (hlt t ht)) ..
    have hone : content₁ heap.trees.next = {(value, heap.trees.next)} := by
      rw [hcontent₁, Function.update_self]
    have hone' : stuff content₁ [some heap.trees.next] = {(value, heap.trees.next)} := by
      rw [← hone]
      simp [stuff]
    -- the items with the new one
    have hnodup := h.marked_new value
    have hmerge : Mergeable content₁ (heap.roots.reduceOption ++ [heap.trees.next]) heap.roots
        [some heap.trees.next] := by
      refine ⟨max_lt (h.short (by omega)) (by simp), ?_⟩
      have hext : ((heap.roots.reduceOption ++ [heap.trees.next]).map content₁).sum =
          stuff content heap.roots + {(value, heap.trees.next)} := by
        rw [List.map_append, List.sum_append, List.map_singleton, List.sum_singleton, hone, ← hold]
        rfl
      rw [hext, hold, hone']
      exact count_marks_le_two hnodup le_rfl le_rfl
    rcases heapMerge_spec hdec { heap with trees := heap.trees.alloc ⟨value, 1, []⟩ } hnew hmerge
        hroots hothers budget with
      ⟨trees₂, roots₂, content₂, rank₂, heq, hst₂, hl₂, hranks₂, htrim₂, hcont₂⟩ |
      ⟨trees₂, content₂, rank₂, heq, hst₂, hl₂, hb⟩
    · obtain ⟨trees₃, heq₃, hst₃, hl₃⟩ := treeUnref_spec (o := some heap.trees.next)
        (hst₂.perm (List.perm_append_singleton _ _))
      have hitems : stuff content₂ roots₂ =
          stuff content heap.roots + {(value, heap.trees.next)} := by
        rw [hcont₂, hold, hone']
      refine ⟨true, ⟨trees₃, heap.numValues + 1, roots₂⟩, content₂, rank₂, value ::ₘ vs, ?_,
        .insert, hst₃, hranks₂, htrim₂, ?_, ?_, fun i hi => ?_, ?_⟩
      · have hcount : countUp heap.numValues = some (heap.numValues + 1) :=
          countUp_eq (by rw [h.count]; omega)
        simp only [binomialHeapInsert, heq, hcount, heq₃, if_true, Option.bind_eq_bind,
          Option.bind_some]
      · rw [hitems, Multiset.map_add, h.contents, Multiset.add_comm]
        rfl
      · rw [hitems]
        exact hnodup
      · have hnext : heap.trees.next + 1 ≤ trees₃.next := hl₂.next.trans hl₃.next
        rw [hitems, marks, Multiset.map_add, Multiset.mem_add, Multiset.map_singleton,
          Multiset.mem_singleton] at hi
        rcases hi with hi | rfl
        · exact Nat.lt_of_lt_of_le (Nat.lt_succ_of_lt (h.fresh i hi)) hnext
        · exact hnext
      · rw [Multiset.card_cons, h.count]
        rfl
    · obtain ⟨trees₃, heq₃, hst₃, hl₃⟩ := treeUnref_spec (o := some heap.trees.next)
        (hst₂.perm (List.perm_append_singleton _ _))
      have hnext : heap.trees.next ≤ trees₃.next :=
        (Nat.le_succ _).trans (hl₂.next.trans hl₃.next)
      refine ⟨false, { heap with trees := trees₃ }, content₂, rank₂, vs, ?_, .insertFails ?_,
        h.later hst₃ (fun t ht => ?_) (fun t ht => ?_) hnext⟩
      · simp only [binomialHeapInsert, heq, heq₃, if_neg Bool.false_ne_true, Option.bind_eq_bind,
          Option.bind_some]
      · have hle := h.length_le
        have hsize : 0 < Nat.size (vs.card + 1) := Nat.size_pos.mpr (Nat.succ_pos _)
        have hmono : Nat.size vs.card ≤ Nat.size (vs.card + 1) := Nat.size_le_size (Nat.le_succ _)
        have hb' : budget < 1 + 2 * max heap.roots.length 1 := hb
        have hmax : max heap.roots.length 1 ≤ Nat.size (vs.card + 1) := by omega
        omega
      · rw [hl₂.content t (Nat.lt_succ_of_lt (hlt t ht)), hcontent₁,
          Function.update_of_ne (Nat.ne_of_lt (hlt t ht))]
      · rw [hl₂.rank t (Nat.lt_succ_of_lt (hlt t ht)),
          Function.update_of_ne (Nat.ne_of_lt (hlt t ht))]

/-- The root of the first tree is at most the root of the second. -/
def RootLe (le : α → α → Prop) (trees : Arena (BinomialTree α)) (tree tree' : Nat) : Prop :=
  ∀ t t', trees.cells tree = some t → trees.cells tree' = some t' → le t.info t'.info

/-- The loop that looks for the least root, after the roots `pre`. -/
theorem leastRoot_spec (hdec : Decides cmp le) {trees : Arena (BinomialTree α)}
    {pre os : List (Option Nat)}
    (hlive : ∀ t ∈ (pre ++ os).reduceOption, ∃ cell, trees.cells t = some cell)
    {least : Option (Nat × Nat)} (hnone : least = none → pre.reduceOption = [])
    (hsome : ∀ i t, least = some (i, t) →
      pre[i]? = some (some t) ∧ ∀ u ∈ pre.reduceOption, RootLe le trees t u)
    (hne : (pre ++ os).reduceOption ≠ []) :
    ∃ i t, leastRoot cmp trees pre.length os least = some (some (i, t)) ∧
      (pre ++ os)[i]? = some (some t) ∧ ∀ u ∈ (pre ++ os).reduceOption, RootLe le trees t u := by
  induction os generalizing pre least with
  | nil =>
    rw [List.append_nil] at hne ⊢
    cases least with
    | none => exact absurd (hnone rfl) hne
    | some l =>
      obtain ⟨hi, hle⟩ := hsome l.1 l.2 rfl
      exact ⟨l.1, l.2, rfl, hi, hle⟩
  | cons o os ih =>
    have hassoc : pre ++ o :: os = (pre ++ [o]) ++ os := by simp
    have hlen : pre.length + 1 = (pre ++ [o]).length := by simp
    rw [hassoc] at hlive hne ⊢
    cases o with
    | none =>
      have hred : (pre ++ [none]).reduceOption = pre.reduceOption := by
        simp [List.reduceOption_append]
      have hrec := ih hlive (by rw [hred]; exact hnone) (fun i t hl => ?_) hne
      · rw [← hlen] at hrec
        cases least <;> exact hrec
      · obtain ⟨hi, hle⟩ := hsome i t hl
        obtain ⟨hlt, -⟩ := List.getElem?_eq_some_iff.mp hi
        rw [List.getElem?_append_left hlt, hred]
        exact ⟨hi, hle⟩
    | some root =>
      have hred : (pre ++ [some root]).reduceOption = pre.reduceOption ++ [root] := by
        simp [List.reduceOption_append]
      have hself : (pre ++ [some root])[pre.length]? = some (some root) := by simp
      have hmem : ∀ t ∈ pre.reduceOption ++ [root], ∃ cell, trees.cells t = some cell := by
        intro t ht
        refine hlive t ?_
        rw [List.reduceOption_append, hred]
        exact List.mem_append_left _ ht
      obtain ⟨r, hr⟩ := hmem root (by simp)
      have hrefl : RootLe le trees root root := by
        intro t t' ht ht'
        obtain rfl : t = t' := Option.some.inj (ht.symm.trans ht')
        exact hdec.refl t.info
      -- The step that takes `root` as the least one.
      have htake : (∀ u ∈ pre.reduceOption, RootLe le trees root u) →
          ∃ i t, leastRoot cmp trees (pre.length + 1) os (some (pre.length, root)) =
              some (some (i, t)) ∧ (pre ++ [some root] ++ os)[i]? = some (some t) ∧
            ∀ u ∈ (pre ++ [some root] ++ os).reduceOption, RootLe le trees t u := by
        intro hle
        rw [hlen]
        refine ih hlive (fun h => by cases h) (fun i t hl => ?_) hne
        obtain ⟨rfl, rfl⟩ := Prod.mk.inj (Option.some.inj hl)
        refine ⟨hself, fun u hu => ?_⟩
        rw [hred, List.mem_append, List.mem_singleton] at hu
        rcases hu with hu | rfl
        · exact hle u hu
        · exact hrefl
      cases least with
      | none =>
        refine htake fun u hu => ?_
        rw [hnone rfl] at hu
        cases hu
      | some l =>
        obtain ⟨hi, hle⟩ := hsome l.1 l.2 rfl
        obtain ⟨x, hx⟩ := hmem l.2 (List.mem_append_left _ (mem_reduceOption.mpr ⟨l.1, hi⟩))
        by_cases hcmp : cmp r.info x.info < 0
        · have hrec := htake fun u hu t t' ht ht' => by
            obtain rfl : r = t := Option.some.inj (hr.symm.trans ht)
            exact hdec.trans (hdec.of_nonpos (Int.le_of_lt hcmp)) (hle u hu x t' hx ht')
          simp only [leastRoot, hr, hx, if_pos hcmp, Option.bind_eq_bind, Option.bind_some]
          exact hrec
        · simp only [leastRoot, hr, hx, if_neg hcmp, Option.bind_eq_bind, Option.bind_some]
          rw [hlen]
          refine ih hlive (fun h => by cases h) (fun i t hl => ?_) hne
          obtain ⟨rfl, rfl⟩ := Prod.mk.inj (Option.some.inj hl)
          obtain ⟨hlt, -⟩ := List.getElem?_eq_some_iff.mp hi
          rw [List.getElem?_append_left hlt]
          refine ⟨hi, fun u hu => ?_⟩
          rw [hred, List.mem_append, List.mem_singleton] at hu
          rcases hu with hu | rfl
          · exact hle u hu
          · intro t t' ht ht'
            obtain rfl : x = t := Option.some.inj (hx.symm.trans ht)
            obtain rfl : r = t' := Option.some.inj (hr.symm.trans ht')
            exact hdec.of_nonneg (Int.not_lt.mp hcmp)

/-- One root is taken out of the array. -/
theorem reduceOption_set {os : List (Option Nat)} {i t : Nat} (hi : os[i]? = some (some t)) :
    os.reduceOption.Perm ((os.set i none).reduceOption ++ [t]) := by
  obtain ⟨hlt, hget⟩ := List.getElem?_eq_some_iff.mp hi
  have hos : os = os.take i ++ some t :: os.drop (i + 1) := by
    rw [← hget, List.getElem_cons_drop, List.take_append_drop]
  rw [List.set_eq_take_append_cons_drop, if_pos hlt]
  nth_rewrite 1 [hos]
  simp only [List.reduceOption_append, List.reduceOption_cons_of_some,
    List.reduceOption_cons_of_none]
  exact List.perm_middle.trans (List.perm_append_singleton _ _).symm

theorem getElem_set_none {os : List (Option Nat)} {i j t : Nat}
    (hj : (os.set i none)[j]? = some (some t)) : os[j]? = some (some t) := by
  rw [List.getElem?_set] at hj
  split at hj
  · split at hj <;> cases hj
  · exact hj

/-- The subtrees of a tree that is referred to are ranked by their places. -/
theorem Ranked.of_kids {trees : Arena (BinomialTree α)} {ext : List Nat} {t : Nat}
    {cell : BinomialTree α} (h : Stock le trees ext content rank) (ht : t ∈ ext)
    (hcell : trees.cells t = some cell) : Ranked trees ext rank (cell.kids.map some) := by
  intro j u hj
  rw [List.getElem?_map, Option.map_eq_some_iff] at hj
  obtain ⟨k, hk, hku⟩ := hj
  obtain rfl := Option.some.inj hku
  refine ⟨?_, .inr ⟨t, cell, ht, hcell, List.mem_of_getElem? hk⟩⟩
  obtain ⟨hlt, -⟩ := List.getElem?_eq_some_iff.mp hk
  have hranks : (cell.kids.map rank)[j]? = (List.range cell.kids.length)[j]? := by
    rw [h.shaped.ranks t cell hcell]
  rw [List.getElem?_map, hk, List.getElem?_range hlt] at hranks
  exact Option.some.inj hranks

/-- The items of the heap are the value at one root, its subtrees' items and the other trees'. -/
theorem HeapHolds.items_of_root (h : HeapHolds le heap content rank vs) {i t : Nat}
    {cell : BinomialTree α} (hi : heap.roots[i]? = some (some t))
    (hcell : heap.trees.cells t = some cell) :
    ∃ m, stuff content heap.roots = (cell.info, m) ::ₘ
      (stuff content (heap.roots.set i none) + stuff content (cell.kids.map some)) := by
  obtain ⟨m, hm⟩ := h.stock.shaped.content_eq t cell hcell
  have hsum := ((reduceOption_set hi).map content).sum_eq
  have hkids : stuff content (cell.kids.map some) = (cell.kids.map content).sum := by
    rw [stuff, List.reduceOption, List.filterMap_map]
    exact congrArg (fun l => (l.map content).sum) (List.filterMap_some ..)
  rw [List.map_append, List.sum_append, List.map_singleton, List.sum_singleton, hm] at hsum
  refine ⟨m, ?_⟩
  rw [hkids]
  show (heap.roots.reduceOption.map content).sum = _
  rw [hsum, Multiset.add_cons]
  rfl

/-- A root that is at most the other roots is at most all values. -/
theorem HeapHolds.le_of_rootLe (h : HeapHolds le heap content rank vs) (hdec : Decides cmp le)
    {t : Nat} {cell : BinomialTree α} (hcell : heap.trees.cells t = some cell)
    (hle : ∀ u ∈ heap.roots.reduceOption, RootLe le heap.trees t u) : ∀ x ∈ vs, le cell.info x := by
  intro x hx
  rw [← h.contents] at hx
  obtain ⟨y, hy, rfl⟩ := Multiset.mem_map.mp hx
  obtain ⟨u, hu, hy⟩ := mem_stuff.mp hy
  obtain ⟨d, hd⟩ := h.stock.cell_of_mem hu
  exact hdec.trans (hle u hu cell d hcell hd) (h.stock.shaped.least u d hd y hy)

/-- A root has fewer subtrees than the array has places. -/
theorem HeapHolds.length_kids_lt (h : HeapHolds le heap content rank vs) {i t : Nat}
    {cell : BinomialTree α} (hi : heap.roots[i]? = some (some t))
    (hcell : heap.trees.cells t = some cell) : cell.kids.length < heap.roots.length := by
  have hrank := h.stock.shaped.rank_eq t cell hcell
  rw [h.ranks i t hi] at hrank
  obtain ⟨hlt, -⟩ := List.getElem?_eq_some_iff.mp hi
  omega

/-- A least value comes out, or everything is as before. -/
theorem heapPop_spec (hdec : Decides cmp le) (h : HeapHolds le heap content rank vs)
    (hlen : vs.card < 2 ^ 31) (budget : Nat) :
    ∃ value heap' content' rank' vs',
      binomialHeapPop cmp heap budget = some (value, heap') ∧
      HeapMeaning le vs (.pop budget) (.popped value) vs' ∧
      HeapHolds le heap' content' rank' vs' := by
  by_cases h0 : vs = 0
  · subst h0
    refine ⟨none, heap, content, rank, 0, ?_, .popEmpty, h⟩
    have hcount : heap.numValues = 0 := h.count
    rw [binomialHeapPop, if_pos hcount]
  · have hcount : heap.numValues ≠ 0 := by
      rw [h.count]
      exact_mod_cast fun hc => h0 (Multiset.card_eq_zero.mp hc)
    have hne : heap.roots.reduceOption ≠ [] := by
      intro hnil
      apply h0
      rw [← h.contents, stuff, hnil]
      rfl
    have hlive : ∀ t ∈ ([] ++ heap.roots).reduceOption, ∃ cell, heap.trees.cells t = some cell :=
      fun t ht => h.stock.cell_of_mem ht
    have hnone : (none : Option (Nat × Nat)) = none → ([] : List (Option Nat)).reduceOption = [] :=
      fun _ => rfl
    obtain ⟨i, t, hleast, hi, hle⟩ := leastRoot_spec hdec hlive hnone
      (fun i t hl => by cases hl) hne
    rw [List.nil_append] at hi hle
    rw [List.length_nil] at hleast
    have hmem : t ∈ heap.roots.reduceOption := mem_reduceOption.mpr ⟨i, hi⟩
    obtain ⟨cell, hcell⟩ := h.stock.cell_of_mem hmem
    have hperm := reduceOption_set hi
    have hst := h.stock.perm hperm
    have hroots : Ranked heap.trees ((heap.roots.set i none).reduceOption ++ [t]) rank
        (heap.roots.set i none) :=
      .of_roots (fun j u hj => h.ranks j u (getElem_set_none hj)) (List.subset_append_left _ _)
    have hothers : Ranked heap.trees ((heap.roots.set i none).reduceOption ++ [t]) rank
        (cell.kids.map some) := .of_kids hst (by simp) hcell
    obtain ⟨m, hitems⟩ := h.items_of_root hi hcell
    obtain ⟨rest, hrest⟩ : ∃ rest, rest = (stuff content (heap.roots.set i none) +
        stuff content (cell.kids.map some)).map Prod.fst := ⟨_, rfl⟩
    have hvs : vs = cell.info ::ₘ rest := by
      rw [← h.contents, hitems, Multiset.map_cons, hrest]
    have hmin : ∀ x ∈ vs, le cell.info x := h.le_of_rootLe hdec hcell hle
    have hpart : stuff content (heap.roots.set i none) + stuff content (cell.kids.map some) ≤
        stuff content heap.roots := by
      rw [hitems]
      exact Multiset.le_cons_self ..
    have hkidsLen := h.length_kids_lt hi hcell
    have hmerge : Mergeable content ((heap.roots.set i none).reduceOption ++ [t])
        (heap.roots.set i none) (cell.kids.map some) := by
      have hshort := h.short hlen
      refine ⟨?_, ?_⟩
      · rw [List.length_set, List.length_map]
        omega
      · rw [← (hperm.map content).sum_eq]
        exact count_marks_le_two h.marked hpart le_rfl
    rcases heapMerge_spec hdec { heap with roots := heap.roots.set i none } hst hmerge hroots
        hothers budget with
      ⟨trees₂, roots₂, content₂, rank₂, heq, hst₂, hl₂, hranks₂, htrim₂, hcont₂⟩ |
      ⟨trees₂, content₂, rank₂, heq, hst₂, hl₂, hb⟩
    · obtain ⟨cell₂, hcell₂⟩ :=
        hst₂.cell_of_mem (List.mem_append_right _ (List.mem_singleton_self t))
      obtain ⟨d, hd, hinfo, -⟩ := hl₂.cell t (h.stock.lt_of_mem hmem) cell₂ hcell₂
      obtain rfl : cell = d := Option.some.inj (hcell.symm.trans hd)
      obtain ⟨trees₃, heq₃, hst₃, hl₃⟩ := treeUnref_spec (o := some t)
        (hst₂.perm (List.perm_append_singleton _ _))
      refine ⟨some cell.info, ⟨trees₃, heap.numValues - 1, roots₂⟩, content₂, rank₂, rest, ?_, ?_,
        hst₃, hranks₂, htrim₂, ?_, ?_, fun j hj => ?_, ?_⟩
      · rw [binomialHeapPop, if_neg hcount]
        simp only [hleast, hcell, heq, hcell₂, heq₃, hinfo, if_true, Option.bind_eq_bind,
          Option.bind_some]
      · rw [hvs]
        refine .pop fun x hx => hmin x ?_
        rw [hvs]
        exact Multiset.mem_cons_of_mem hx
      · rw [hcont₂, hrest]
      · rw [hcont₂]
        exact Multiset.nodup_of_le (Multiset.map_le_map hpart) h.marked
      · rw [hcont₂] at hj
        have hold := h.fresh j (Multiset.mem_of_le (Multiset.map_le_map hpart) hj)
        exact Nat.lt_of_lt_of_le hold (hl₂.next.trans hl₃.next)
      · have hcard := h.count
        rw [hvs, Multiset.card_cons] at hcard
        show heap.numValues - 1 = _
        omega
    · have hback : (heap.roots.set i none).set i (some t) = heap.roots := by
        obtain ⟨hlt, hget⟩ := List.getElem?_eq_some_iff.mp hi
        rw [List.set_set, ← hget, List.set_getElem_self]
      refine ⟨none, ⟨trees₂, heap.numValues, heap.roots⟩, content₂, rank₂, vs, ?_, .popFails ?_,
        h.later (hst₂.perm hperm.symm) (fun u hu => hl₂.content u (h.stock.lt_of_mem hu))
          (fun u hu => hl₂.rank u (h.stock.lt_of_mem hu)) hl₂.next⟩
      · rw [binomialHeapPop, if_neg hcount]
        simp only [hleast, hcell, heq, hback, if_neg Bool.false_ne_true, Option.bind_eq_bind,
          Option.bind_some]
      · have hlen := h.length_le
        rw [List.length_map, List.length_set] at hb
        omega

/-- One call on a heap that stores some values. -/
theorem heapCall_spec {heapType : BinomialHeapType} {compare : α → α → Int}
    (hdec : Decides (binomialHeapCmp heapType compare) le) (heap : BinomialHeap α)
    (vs : Multiset α) (call : HeapCall α)
    (h : ∃ content rank, HeapHolds le heap content rank vs) (hlen : vs.card < 2 ^ 31 - 1) :
    ∃ r heap' vs', binomialHeapCall heapType compare heap call = some (r, heap') ∧
      HeapMeaning le vs call r vs' ∧ ∃ content rank, HeapHolds le heap' content rank vs' := by
  obtain ⟨content, rank, h⟩ := h
  cases call with
  | insert value budget =>
    obtain ⟨result, heap', content', rank', vs', heq, hm, h'⟩ :=
      heapInsert_spec hdec h hlen value budget
    refine ⟨.inserted result, heap', vs', ?_, hm, content', rank', h'⟩
    simp only [binomialHeapCall, heq, Option.bind_eq_bind, Option.bind_some]
  | pop budget =>
    obtain ⟨value, heap', content', rank', vs', heq, hm, h'⟩ :=
      heapPop_spec hdec h (by omega) budget
    refine ⟨.popped value, heap', vs', ?_, hm, content', rank', h'⟩
    simp only [binomialHeapCall, heq, Option.bind_eq_bind, Option.bind_some]
  | numEntries =>
    refine ⟨.entries vs.card, heap, vs, ?_, .numEntries, content, rank, h⟩
    rw [binomialHeapCall, binomialHeapNumEntries, h.count]

/-- All references to the roots are given back, and no tree is left. -/
theorem heapFree_spec (h : HeapHolds le heap content rank vs) :
    ∃ trees, binomialHeapFree heap = some trees ∧ (∀ a, ¬ trees.Live a) ∧ trees.frees.Nodup := by
  have hst := h.stock
  rw [← List.append_nil heap.roots.reduceOption] at hst
  obtain ⟨trees, heq, hst', -⟩ := unrefAll_spec hst
  obtain ⟨own, ht⟩ := hst'.tally
  exact ⟨trees, heq, ht.not_live hst'.pos, ht.sound.once⟩

end Operations

theorem HeapMeaning.card_le {le : α → α → Prop} {vs vs' : Multiset α} {call : HeapCall α}
    {r : HeapAnswer α} (h : HeapMeaning le vs call r vs') : vs'.card ≤ vs.card + 1 := by
  cases h with
  | pop => simp; omega
  | _ => simp

/-- Whatever calls are made, fewer than an `int` can count, and whichever allocations fail, no
call follows a null or freed pointer, releases a tree too often or overflows a count of a tree,
and each answer is right for the values that the calls before it have left. A `MAX` heap negates
what the comparison returns, so there this must not be the least `int`. -/
theorem binomialHeap_answers_allowed (heapType : BinomialHeapType) (c : Comparator α)
    (hneg : heapType = .max → c.Negatable) (calls : List (HeapCall α))
    (hlen : calls.length < 2 ^ 31) :
    ∃ rs heap vs, answers (binomialHeapCall heapType c.compare) binomialHeapNew calls =
        some (rs, heap) ∧
      Allows (HeapMeaning (heapOrder heapType c).Le) 0 calls rs vs ∧
      ∃ content rank, HeapHolds (heapOrder heapType c).Le heap content rank vs :=
  exists_answers_within (heapCall_spec (binomialHeapCmp_decides hneg))
    (fun _ _ _ _ h => h.card_le) ⟨_, _, HeapHolds.new _⟩ calls
    (by rw [Multiset.card_zero]; omega)

/-- The second insertion does not get the tree that carries. -/
theorem binomialHeap_answers_allowed_carry :
    ∃ rs heap vs, answers (binomialHeapCall .max Comparator.ints.compare) binomialHeapNew
        [.insert 3 2, .insert 5 3, .insert 5 4, .pop 1, .numEntries] = some (rs, heap) ∧
      Allows (HeapMeaning (heapOrder .max Comparator.ints).Le) 0
        [.insert 3 2, .insert 5 3, .insert 5 4, .pop 1, .numEntries] rs vs ∧
      ∃ content rank,
        HeapHolds (heapOrder .max Comparator.ints).Le heap content rank vs :=
  binomialHeap_answers_allowed .max Comparator.ints (fun _ => Comparator.negatable_ints) _ (by simp)

/-- After any such calls `binomial_heap_free` gives back every tree, each once, whatever the
comparison returns. -/
theorem binomialHeap_free_frees_all (heapType : BinomialHeapType) (compare : α → α → Int)
    (calls : List (HeapCall α)) (hlen : calls.length < 2 ^ 31) :
    ∃ rs heap trees, answers (binomialHeapCall heapType compare) binomialHeapNew calls =
        some (rs, heap) ∧
      binomialHeapFree heap = some trees ∧ (∀ a, ¬ trees.Live a) ∧ trees.frees.Nodup := by
  -- no order is asked of the values, so all of them may be equal
  have hnew : ∃ content rank, HeapHolds (fun _ _ => True) (binomialHeapNew : BinomialHeap α)
      content rank 0 := ⟨_, _, HeapHolds.new _⟩
  obtain ⟨rs, heap, vs, heq, -, content, rank, h⟩ := exists_answers_within
    (heapCall_spec (decides_true (binomialHeapCmp heapType compare)))
    (fun _ _ _ _ h => h.card_le) hnew calls (by rw [Multiset.card_zero]; omega)
  obtain ⟨trees, hfree, hdead, honce⟩ := heapFree_spec h
  exact ⟨rs, heap, trees, heq, hfree, hdead, honce⟩

/-- Also with a comparison that always returns the least `int`. -/
theorem binomialHeap_free_frees_all_three :
    ∃ rs heap trees, answers (binomialHeapCall .max fun _ _ => -2 ^ 31)
        binomialHeapNew [.insert 3 2, .insert 5 4, .insert 4 2, .pop 9] = some (rs, heap) ∧
      binomialHeapFree heap = some trees ∧ (∀ a, ¬ trees.Live a) ∧ trees.frees.Nodup :=
  binomialHeap_free_frees_all .max (fun _ _ => -2 ^ 31)
    [.insert 3 2, .insert 5 4, .insert 4 2, .pop 9] (by simp)

end BaseCode.Comm
