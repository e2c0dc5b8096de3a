import Mathlib.Data.List.GetD
import Mathlib.Data.List.ReduceOption
import Mathlib.Data.Nat.Size
import BaseCode.Comm.BinomialHeap

/-!
# The binomial heap is a priority queue

Trees never change once they are made, so each address has the values in its tree and its rank
for good. A merge adds the two lists of roots like binary numbers; while it runs, old and new
trees share their subtrees. How often a tree is shared is limited by how often the references
from outside lead to the value at its root, so the reference counts stay small.
-/

namespace BaseCode.Comm
open Foundation

variable {α : Type}

/-- Values, each with a mark that tells it from its equals. -/
abbrev Items (α : Type) := Multiset (α × Nat)

def marks (items : Items α) : Multiset Nat := items.map Prod.snd

/-- The values below each tree, with a least one at the root, and one subtree of each smaller
rank. -/
structure Shaped (le : α → α → Prop) (trees : Arena (BinomialTree α)) (content : Nat → Items α)
    (rank : Nat → Nat) : Prop where
  content_eq : ∀ a t, trees.cells a = some t →
    ∃ i, content a = (t.info, i) ::ₘ (t.kids.map content).sum
  least : ∀ a t, trees.cells a = some t → ∀ x ∈ content a, le t.info x.1
  rank_eq : ∀ a t, trees.cells a = some t → rank a = t.kids.length
  ranks : ∀ a t, trees.cells a = some t → t.kids.map rank = List.range t.kids.length
  card : ∀ a t, trees.cells a = some t → (content a).card = 2 ^ rank a

/-- The trees are in order, and counted by the references `ext` and their own. -/
structure Stock (le : α → α → Prop) (trees : Arena (BinomialTree α)) (ext : List Nat)
    (content : Nat → Items α) (rank : Nat → Nat) : Prop where
  tally : ∃ own, Tally trees own ext
  shaped : Shaped le trees content rank
  pos : ∀ a t, trees.cells a = some t → t.refs ≠ 0

/-- The trees that these references lead to have no mark more than `n` times. -/
def Sparse (content : Nat → Items α) (ext : List Nat) (n : Nat) : Prop :=
  ∀ i, (marks (ext.map content).sum).count i ≤ n

/-- The trees at a later time: what is still there has not changed. -/
structure Later (trees trees' : Arena (BinomialTree α)) (content content' : Nat → Items α)
    (rank rank' : Nat → Nat) : Prop where
  next : trees.next ≤ trees'.next
  cell : ∀ a, a < trees.next → ∀ t', trees'.cells a = some t' →
    ∃ t, trees.cells a = some t ∧ t'.info = t.info ∧ t'.kids = t.kids
  content : ∀ a, a < trees.next → content' a = content a
  rank : ∀ a, a < trees.next → rank' a = rank a

section Trees

variable {cmp : α → α → Int} {le : α → α → Prop} {trees trees' trees'' : Arena (BinomialTree α)}
  {ext ext' : List Nat} {content content' content'' : Nat → Items α} {rank rank' rank'' : Nat → Nat}
  {own own' : Nat → List Nat} {n tree : Nat}

theorem Later.refl (trees : Arena (BinomialTree α)) (content : Nat → Items α)
    (rank : Nat → Nat) : Later trees trees content content rank rank :=
  ⟨Nat.le_refl _, fun _ _ t ht => ⟨t, ht, rfl, rfl⟩, fun _ _ => rfl, fun _ _ => rfl⟩

theorem Later.trans (h : Later trees trees' content content' rank rank')
    (h' : Later trees' trees'' content' content'' rank' rank'') :
    Later trees trees'' content content'' rank rank'' where
  next := Nat.le_trans h.next h'.next
  cell a ha t'' ht'' := by
    obtain ⟨t', ht', hi', hk'⟩ := h'.cell a (Nat.lt_of_lt_of_le ha h.next) t'' ht''
    obtain ⟨t, ht, hi, hk⟩ := h.cell a ha t' ht'
    exact ⟨t, ht, hi'.trans hi, hk'.trans hk⟩
  content a ha := (h'.content a (Nat.lt_of_lt_of_le ha h.next)).trans (h.content a ha)
  rank a ha := (h'.rank a (Nat.lt_of_lt_of_le ha h.next)).trans (h.rank a ha)

theorem Later.of_released (h : Released trees trees' own own' n) (content : Nat → Items α)
    (rank : Nat → Nat) : Later trees trees' content content rank rank := by
  refine ⟨Nat.le_of_eq h.next.symm, fun a _ t' ht' => ?_, fun _ _ => rfl, fun _ _ => rfl⟩
  obtain ⟨t, ht, hi, hk, -⟩ := h.cell a t' ht'
  exact ⟨t, ht, hi, hk⟩

theorem Later.alloc (trees : Arena (BinomialTree α)) (t : BinomialTree α)
    (content : Nat → Items α) (rank : Nat → Nat) (x : Items α) (r : Nat) :
    Later trees (trees.alloc t) content (Function.update content trees.next x) rank
      (Function.update rank trees.next r) where
  next := Nat.le_succ _
  cell a ha s hs := by
    rcases Arena.cells_alloc_cases hs with ⟨rfl, -⟩ | ⟨-, hs⟩
    · exact absurd ha (Nat.lt_irrefl _)
    · exact ⟨s, hs, rfl, rfl⟩
  content a ha := Function.update_of_ne (Nat.ne_of_lt ha) ..
  rank a ha := Function.update_of_ne (Nat.ne_of_lt ha) ..

theorem Shaped.of_released (h : Shaped le trees content rank)
    (hr : Released trees trees' own own' n) : Shaped le trees' content rank where
  content_eq a t' ht' := by
    obtain ⟨t, ht, hi, hk, -⟩ := hr.cell a t' ht'
    rw [hi, hk]
    exact h.content_eq a t ht
  least a t' ht' := by
    obtain ⟨t, ht, hi, -, -⟩ := hr.cell a t' ht'
    rw [hi]
    exact h.least a t ht
  rank_eq a t' ht' := by
    obtain ⟨t, ht, -, hk, -⟩ := hr.cell a t' ht'
    rw [hk]
    exact h.rank_eq a t ht
  ranks a t' ht' := by
    obtain ⟨t, ht, -, hk, -⟩ := hr.cell a t' ht'
    rw [hk]
    exact h.ranks a t ht
  card a t' ht' := by
    obtain ⟨t, ht, -, -, -⟩ := hr.cell a t' ht'
    exact h.card a t ht

theorem Stock.of_released (h : Stock le trees ext content rank)
    (hr : Released trees trees' own own' n) (ht : Tally trees' own' ext') :
    Stock le trees' ext' content rank where
  tally := ⟨own', ht⟩
  shaped := h.shaped.of_released hr
  pos a t' ht' h0 := by
    obtain ⟨t, ht, -, -, hz⟩ := hr.cell a t' ht'
    exact h.pos a t ht (hz h0)

theorem Stock.perm (h : Stock le trees ext content rank) (hp : ext.Perm ext') :
    Stock le trees ext' content rank := by
  obtain ⟨own, ht⟩ := h.tally
  exact ⟨⟨own, ht.perm hp⟩, h.shaped, h.pos⟩

/-- The tree is there: referred to from outside, or the subtree of such a tree. -/
def Held (trees : Arena (BinomialTree α)) (ext : List Nat) (tree : Nat) : Prop :=
  tree ∈ ext ∨ ∃ p t, p ∈ ext ∧ trees.cells p = some t ∧ tree ∈ t.kids

theorem Stock.cell_of_mem (h : Stock le trees ext content rank) (ha : tree ∈ ext) :
    ∃ t, trees.cells tree = some t := by
  obtain ⟨own, ht⟩ := h.tally
  exact ht.exists_cell ha

theorem Stock.lt_of_mem (h : Stock le trees ext content rank) (ha : tree ∈ ext) :
    tree < trees.next := by
  obtain ⟨own, ht⟩ := h.tally
  exact ht.sound.live_lt tree (ht.ext_live tree ha)

theorem Held.ref (h : Tally trees own ext) (ha : Held trees ext tree) :
    tree ∈ ext ∨ ∃ b, tree ∈ own b := by
  rcases ha with ha | ⟨p, t, hp, hc, hk⟩
  · exact .inl ha
  · have hown := (h.full_of_ref (.inl hp) hc).1
    exact .inr ⟨p, hown ▸ hk⟩

theorem Held.lt (h : Stock le trees ext content rank) (ha : Held trees ext tree) :
    tree < trees.next := by
  obtain ⟨own, ht⟩ := h.tally
  exact ht.sound.live_lt tree (ht.live_of_ref (ha.ref ht))

/-- What is held stays held as long as the references from outside stay. -/
theorem Held.later (h : Stock le trees ext content rank) (h' : Stock le trees' ext' content' rank')
    (hl : Later trees trees' content content' rank rank') (hsub : ext ⊆ ext')
    (ha : Held trees ext tree) : Held trees' ext' tree := by
  rcases ha with ha | ⟨p, t, hp, hc, hk⟩
  · exact .inl (hsub ha)
  · obtain ⟨t', ht'⟩ := h'.cell_of_mem (hsub hp)
    obtain ⟨s, hs, -, hkids⟩ := hl.cell p (h.lt_of_mem hp) t' ht'
    obtain rfl : t = s := Option.some.inj (hc.symm.trans hs)
    exact .inr ⟨p, t', hsub hp, ht', hkids ▸ hk⟩

theorem count_marks_le {items items' : Items α} (h : items ≤ items') (i : Nat) :
    (marks items).count i ≤ (marks items').count i :=
  Multiset.count_le_of_le i (Multiset.map_le_map h)

theorem le_sum_of_mem {ks : List Nat} {k : Nat} (hk : k ∈ ks) (content : Nat → Items α) :
    content k ≤ (ks.map content).sum := by
  obtain ⟨as, bs, rfl⟩ := List.append_of_mem hk
  rw [List.map_append, List.sum_append, List.map_cons, List.sum_cons]
  exact (Multiset.le_add_right _ _).trans (Multiset.le_add_left _ _)

theorem Sparse.perm (h : Sparse content ext n) (hp : ext.Perm ext') : Sparse content ext' n := by
  intro i
  rw [← (hp.map content).sum_eq]
  exact h i

theorem Sparse.append {m : Nat} (h : Sparse content ext n) (h' : Sparse content ext' m) :
    Sparse content (ext ++ ext') (n + m) := by
  intro i
  rw [List.map_append, List.sum_append, marks, Multiset.map_add, Multiset.count_add]
  exact Nat.add_le_add (h i) (h' i)

theorem Sparse.of_append_left (h : Sparse content (ext ++ ext') n) : Sparse content ext n := by
  intro i
  refine (count_marks_le ?_ i).trans (h i)
  rw [List.map_append, List.sum_append]
  exact Multiset.le_add_right _ _

theorem count_marks_sum (content : Nat → Items α) (ks : List Nat) (i : Nat) :
    (marks (ks.map content).sum).count i = (ks.map fun k => (marks (content k)).count i).sum := by
  induction ks with
  | nil => rfl
  | cons k ks ih =>
    rw [List.map_cons, List.sum_cons, marks, Multiset.map_add, Multiset.count_add, List.map_cons,
      List.sum_cons, ← ih]
    rfl

/-- A tree has no more references than its root has marks outside, and one. -/
theorem Stock.refs_le (h : Stock le trees ext content rank) (hfew : Sparse content ext n)
    {t : BinomialTree α} (hc : trees.cells tree = some t) : t.refs ≤ n + 1 := by
  obtain ⟨own, ht⟩ := h.tally
  obtain ⟨i, hi⟩ := h.shaped.content_eq tree t hc
  have hweight : ∀ a t, trees.cells a = some t →
      (t.kids.map fun k => (marks (content k)).count i).sum ≤ (marks (content a)).count i := by
    intro a t hc
    obtain ⟨j, hj⟩ := h.shaped.content_eq a t hc
    rw [← count_marks_sum, hj, marks, marks, Multiset.map_cons]
    exact Multiset.count_le_count_cons ..
  have hle := ht.refs_mul_le _ hweight h.pos hc
  rw [← count_marks_sum] at hle
  have hone : 1 ≤ (marks (content tree)).count i := by
    rw [hi, marks, Multiset.map_cons, Multiset.count_cons_self]
    exact Nat.le_add_left _ _
  by_contra hn
  have hmul := Nat.mul_le_mul_right ((marks (content tree)).count i)
    (show n + 2 ≤ t.refs by omega)
  have hn' := hfew i
  have hsplit : (n + 2) * (marks (content tree)).count i =
      n * (marks (content tree)).count i + 2 * (marks (content tree)).count i := Nat.add_mul ..
  have hself := Nat.le_mul_of_pos_right n hone
  omega

theorem treeRef_spec (h : Stock le trees ext content rank) (hfew : Sparse content ext n)
    (hn : n + 2 < 2 ^ 16) {o : Option Nat} (ho : ∀ tree ∈ o, Held trees ext tree) :
    ∃ trees', binomialTreeRef trees o = some trees' ∧
      Stock le trees' (o.toList ++ ext) content rank ∧
      Later trees trees' content content rank rank := by
  cases o with
  | none => exact ⟨trees, rfl, h, .refl ..⟩
  | some tree =>
    obtain ⟨own, ht⟩ := h.tally
    have href := (ho tree rfl).ref ht
    have hroom : ∀ t, trees.cells tree = some t → t.refs + 1 < 2 ^ 16 := by
      intro t hc
      have hle := h.refs_le hfew hc
      omega
    obtain ⟨trees', heq, ht', hr⟩ := ht.retain_spec (ht.live_of_ref href)
      (fun t hc => (ht.full_of_ref href hc).1) hroom 0
    exact ⟨trees', heq, h.of_released hr ht', .of_released hr content rank⟩

theorem unref_tally {o : Option Nat} (h : Tally trees own (o.toList ++ ext))
    (hlt : ∀ tree ∈ o, tree < n) :
    ∃ trees' own', binomialTreeUnref trees o = some trees' ∧ Tally trees' own' ext ∧
      Released trees trees' own own' n := by
  cases o with
  | none => exact ⟨trees, own, rfl, h, .refl trees own n⟩
  | some tree =>
    have hlive := h.ext_live tree List.mem_cons_self
    obtain ⟨trees', own', heq, h', hr⟩ := h.release_spec (h.sound.live_lt tree hlive)
    exact ⟨trees', own', heq, h', hr.mono (hlt tree rfl)⟩

theorem treeUnref_spec {o : Option Nat} (h : Stock le trees (o.toList ++ ext) content rank) :
    ∃ trees', binomialTreeUnref trees o = some trees' ∧ Stock le trees' ext content rank ∧
      Later trees trees' content content rank rank := by
  obtain ⟨own, ht⟩ := h.tally
  have hlt : ∀ tree ∈ o, tree < trees.next := fun tree ho =>
    h.lt_of_mem (List.mem_append_left _ (Option.mem_toList.mpr ho))
  obtain ⟨trees', own', heq, ht', hr⟩ := unref_tally ht hlt
  exact ⟨trees', heq, h.of_released hr ht', .of_released hr content rank⟩

theorem unrefAll_spec {os : List (Option Nat)}
    (h : Stock le trees (os.reduceOption ++ ext) content rank) :
    ∃ trees', os.foldlM binomialTreeUnref trees = some trees' ∧ Stock le trees' ext content rank ∧
      Later trees trees' content content rank rank := by
  induction os generalizing trees with
  | nil => exact ⟨trees, rfl, h, .refl ..⟩
  | cons o os ih =>
    have hcons : (o :: os).reduceOption = o.toList ++ os.reduceOption := by
      cases o <;> simp
    rw [hcons, List.append_assoc] at h
    obtain ⟨trees₁, heq₁, h₁, hl₁⟩ := treeUnref_spec h
    obtain ⟨trees₂, heq₂, h₂, hl₂⟩ := ih h₁
    refine ⟨trees₂, ?_, h₂, hl₁.trans hl₂⟩
    rw [List.foldlM_cons, heq₁]
    exact heq₂

theorem map_update_next {β : Type} {next : Nat} {ks : List Nat} (hks : ∀ k ∈ ks, k < next)
    (f : Nat → β) (x : β) : ks.map (Function.update f next x) = ks.map f :=
  List.map_congr_left fun k hk => Function.update_of_ne (Nat.ne_of_lt (hks k hk)) ..

/-- A new tree of older ones, with its items and its rank. -/
theorem Shaped.alloc (h : Shaped le trees content rank)
    (hlt : ∀ a t, trees.cells a = some t → ∀ k ∈ t.kids, k < trees.next) {t : BinomialTree α}
    {items : Items α} {i r : Nat} (hkids : ∀ k ∈ t.kids, k < trees.next)
    (hitems : items = (t.info, i) ::ₘ (t.kids.map content).sum)
    (hleast : ∀ x ∈ items, le t.info x.1) (hrank : r = t.kids.length)
    (hranks : t.kids.map rank = List.range t.kids.length) (hcard : items.card = 2 ^ r) :
    Shaped le (trees.alloc t) (Function.update content trees.next items)
      (Function.update rank trees.next r) := by
  refine ⟨fun a s hs => ?_, fun a s hs => ?_, fun a s hs => ?_, fun a s hs => ?_, fun a s hs => ?_⟩
  · rcases Arena.cells_alloc_cases hs with ⟨rfl, rfl⟩ | ⟨ha, hs⟩
    · rw [Function.update_self, map_update_next hkids]
      exact ⟨i, hitems⟩
    · rw [Function.update_of_ne ha, map_update_next (hlt a s hs)]
      exact h.content_eq a s hs
  · rcases Arena.cells_alloc_cases hs with ⟨rfl, rfl⟩ | ⟨ha, hs⟩
    · rw [Function.update_self]
      exact hleast
    · rw [Function.update_of_ne ha]
      exact h.least a s hs
  · rcases Arena.cells_alloc_cases hs with ⟨rfl, rfl⟩ | ⟨ha, hs⟩
    · rw [Function.update_self]
      exact hrank
    · rw [Function.update_of_ne ha]
      exact h.rank_eq a s hs
  · rcases Arena.cells_alloc_cases hs with ⟨rfl, rfl⟩ | ⟨-, hs⟩
    · rw [map_update_next hkids]
      exact hranks
    · rw [map_update_next (hlt a s hs)]
      exact h.ranks a s hs
  · rcases Arena.cells_alloc_cases hs with ⟨rfl, rfl⟩ | ⟨ha, hs⟩
    · rw [Function.update_self, Function.update_self]
      exact hcard
    · rw [Function.update_of_ne ha, Function.update_of_ne ha]
      exact h.card a s hs

/-- A new tree on top of two trees of one rank. -/
theorem Shaped.alloc_merged (hdec : Decides cmp le) (h : Shaped le trees content rank)
    (hlt : ∀ a t, trees.cells a = some t → a < trees.next ∧ ∀ k ∈ t.kids, k < trees.next)
    {lo hi : Nat} {t u : BinomialTree α} (hlo : trees.cells lo = some t)
    (hhi : trees.cells hi = some u) (hle : le t.info u.info) (hrank : rank lo = rank hi) :
    Shaped le (trees.alloc ⟨t.info, 0, t.kids ++ [hi]⟩)
      (Function.update content trees.next (content lo + content hi))
      (Function.update rank trees.next (rank lo + 1)) := by
  obtain ⟨i, hcontent⟩ := h.content_eq lo t hlo
  refine h.alloc (fun a s hs => (hlt a s hs).2) (i := i) (fun k hk => ?_) ?_ (fun x hx => ?_)
    ?_ ?_ ?_
  · rcases List.mem_append.mp hk with hk | hk
    · exact (hlt lo t hlo).2 k hk
    · rw [List.mem_singleton.mp hk]
      exact (hlt hi u hhi).1
  · rw [hcontent]
    simp
  · rcases Multiset.mem_add.mp hx with hx | hx
    · exact h.least lo t hlo x hx
    · exact hdec.trans hle (h.least hi u hhi x hx)
  · rw [h.rank_eq lo t hlo]
    simp
  · rw [List.map_append, h.ranks lo t hlo, List.map_singleton, ← hrank, h.rank_eq lo t hlo,
      List.length_append, List.length_singleton, List.range_succ]
  · rw [Multiset.card_add, h.card lo t hlo, h.card hi u hhi, ← hrank, Nat.pow_succ]
    omega

/-- The first tree after the comparison is at most the second. -/
theorem treeMerge_eq (hdec : Decides cmp le) {t1 t2 : BinomialTree α} {tree1 tree2 : Nat}
    (h1 : trees.cells tree1 = some t1) (h2 : trees.cells tree2 = some t2) :
    ∃ lo hi t u, trees.cells lo = some t ∧ trees.cells hi = some u ∧ le t.info u.info ∧
      (lo = tree1 ∧ hi = tree2 ∨ lo = tree2 ∧ hi = tree1) ∧
      ∀ budget, binomialTreeMerge cmp trees tree1 tree2 budget =
        if budget < 2 then some none
        else if 2 ^ 16 ≤ (t.kids ++ [hi]).length then none
        else ((t.kids ++ [hi]).foldlM (retain (2 ^ 16))
          (trees.alloc ⟨t.info, 0, t.kids ++ [hi]⟩)).bind
          fun trees' => some (some (trees.next, trees', budget - 2)) := by
  by_cases hcmp : 0 < cmp t1.info t2.info
  · refine ⟨tree2, tree1, t2, t1, h2, h1, hdec.of_nonneg (Int.le_of_lt hcmp), .inr ⟨rfl, rfl⟩, ?_⟩
    rintro (_ | _ | budget)
    · simp only [binomialTreeMerge, h1, h2, Option.bind_eq_bind, Option.bind_some]
      rfl
    · simp only [binomialTreeMerge, h1, h2, Option.bind_eq_bind, Option.bind_some]
      rfl
    · have hbudget : ¬ budget + 1 + 1 < 2 := by omega
      simp only [binomialTreeMerge, h1, h2, if_pos hcmp, Option.bind_eq_bind, Option.bind_some]
      rw [if_neg hbudget]
      rfl
  · refine ⟨tree1, tree2, t1, t2, h1, h2, hdec.of_nonpos (Int.not_lt.mp hcmp), .inl ⟨rfl, rfl⟩, ?_⟩
    rintro (_ | _ | budget)
    · simp only [binomialTreeMerge, h1, h2, Option.bind_eq_bind, Option.bind_some]
      rfl
    · simp only [binomialTreeMerge, h1, h2, Option.bind_eq_bind, Option.bind_some]
      rfl
    · have hbudget : ¬ budget + 1 + 1 < 2 := by omega
      simp only [binomialTreeMerge, h1, h2, if_neg hcmp, Option.bind_eq_bind, Option.bind_some]
      rw [if_neg hbudget]
      rfl

/-- Two trees of one rank are merged, and the merged tree takes the place of the carry. -/
theorem carry_spec (hdec : Decides cmp le) {carry : Option Nat} {tree1 tree2 : Nat}
    (h : Stock le trees (carry.toList ++ ext) content rank)
    (h1 : Held trees (carry.toList ++ ext) tree1) (h2 : Held trees (carry.toList ++ ext) tree2)
    (hrank : rank tree1 = rank tree2) (hfew : Sparse content (carry.toList ++ ext) n)
    (hn : n + 2 + rank tree1 < 2 ^ 16) (budget : Nat) :
    (budget < 2 ∧ binomialTreeMerge cmp trees tree1 tree2 budget = some none) ∨
    ∃ new trees₁ trees₂ trees₃ content' rank', 2 ≤ budget ∧
      binomialTreeMerge cmp trees tree1 tree2 budget = some (some (new, trees₁, budget - 2)) ∧
      binomialTreeUnref trees₁ carry = some trees₂ ∧
      binomialTreeRef trees₂ (some new) = some trees₃ ∧
      Stock le trees₃ (new :: ext) content' rank' ∧
      Later trees trees₃ content content' rank rank' ∧
      content' new = content tree1 + content tree2 ∧ rank' new = rank tree1 + 1 := by
  obtain ⟨own, ht⟩ := h.tally
  obtain ⟨t1, hc1⟩ := Option.isSome_iff_exists.mp (ht.live_of_ref (h1.ref ht))
  obtain ⟨t2, hc2⟩ := Option.isSome_iff_exists.mp (ht.live_of_ref (h2.ref ht))
  obtain ⟨lo, hi, t, u, hlo, hhi, hle, hsides, heq⟩ := treeMerge_eq hdec hc1 hc2
  by_cases hb : budget < 2
  · exact .inl ⟨hb, by rw [heq, if_pos hb]⟩
  right
  have hheld : Held trees (carry.toList ++ ext) lo ∧ Held trees (carry.toList ++ ext) hi := by
    rcases hsides with ⟨rfl, rfl⟩ | ⟨rfl, rfl⟩
    · exact ⟨h1, h2⟩
    · exact ⟨h2, h1⟩
  have hrank' : rank lo = rank hi ∧ rank lo = rank tree1 := by
    rcases hsides with ⟨rfl, rfl⟩ | ⟨rfl, rfl⟩
    · exact ⟨hrank, rfl⟩
    · exact ⟨hrank.symm, hrank.symm⟩
  have hsum : content lo + content hi = content tree1 + content tree2 := by
    rcases hsides with ⟨rfl, rfl⟩ | ⟨rfl, rfl⟩
    · rfl
    · rw [Multiset.add_comm]
  -- The subtrees of the new tree are owned by the old one, or are the other tree.
  have hks : ∀ k ∈ t.kids ++ [hi], k ∈ carry.toList ++ ext ∨ ∃ b, k ∈ own b := by
    intro k hk
    rcases List.mem_append.mp hk with hk | hk
    · exact .inr ⟨lo, (ht.full_of_ref (hheld.1.ref ht) hlo).1 ▸ hk⟩
    · rw [List.mem_singleton.mp hk]
      exact hheld.2.ref ht
  have hlt : ∀ a t, trees.cells a = some t → a < trees.next ∧ ∀ k ∈ t.kids, k < trees.next := by
    intro a t hc
    have hlt := ht.sound.live_lt a (Option.isSome_iff_exists.mpr ⟨t, hc⟩)
    exact ⟨hlt, fun k hk => Nat.lt_trans (ht.older a t hc k hk) hlt⟩
  have horder : (t.kids ++ [hi]).length = rank tree1 + 1 := by
    rw [List.length_append, ← h.shaped.rank_eq lo t hlo, hrank'.2]
    rfl
  have hroom : ∀ a c, (trees.alloc ⟨t.info, 0, t.kids ++ [hi]⟩).cells a = some c →
      c.refs + (t.kids ++ [hi]).length < 2 ^ 16 := by
    intro a c hc
    rw [horder]
    rcases Arena.cells_alloc_cases hc with ⟨-, rfl⟩ | ⟨-, hc⟩
    · show 0 + (rank tree1 + 1) < 2 ^ 16
      omega
    · have hle := h.refs_le hfew hc
      omega
  obtain ⟨trees₁, n₁, heq₁, hn₁, hkids₁, ht₁, hown₁, hr₁⟩ := ht.create t.info hks hroom
  have hcarry : ∀ k ∈ carry, k < trees.next := fun k hk =>
    h.lt_of_mem (List.mem_append_left _ (Option.mem_toList.mpr hk))
  obtain ⟨trees₂, own₂, heq₂, ht₂, hr₂⟩ := unref_tally ht₁ hcarry
  have hlive₂ : trees₂.Live trees.next :=
    hr₂.keep _ (Nat.le_refl _) (Option.isSome_iff_exists.mpr ⟨n₁, hn₁⟩)
  have hfull₂ : ∀ n₂, trees₂.cells trees.next = some n₂ → own₂ trees.next = n₂.kids := by
    intro n₂ hn₂
    obtain ⟨m, hm, -, hk, -⟩ := hr₂.cell _ _ hn₂
    obtain rfl : n₁ = m := Option.some.inj (hn₁.symm.trans hm)
    rcases hr₂.own trees.next with hown | hdead
    · rw [hown, Function.update_self, hk, hkids₁]
    · exact absurd hlive₂ hdead
  -- Nothing refers to the new tree yet.
  have hfresh : ∀ c, trees₂.cells trees.next = some c → c.refs + 1 < 2 ^ 16 := by
    intro c hc
    have hzero := ht₂.refs_eq_zero hc
      (fun hmem => Nat.lt_irrefl _ (h.lt_of_mem (List.mem_append_right _ hmem))) fun b hmem => by
        rcases hr₂.own b with hown | hdead
        · exact hown₁ b (hown ▸ hmem)
        · exact hdead (ht₂.owner_live hmem)
    omega
  obtain ⟨trees₃, heq₃, ht₃, hr₃⟩ := ht₂.retain_spec hlive₂ hfull₂ hfresh 0
  have hshape := h.shaped.alloc_merged hdec hlt hlo hhi hle hrank'.1
  refine ⟨trees.next, trees₁, trees₂, trees₃, _, _, Nat.not_lt.mp hb, ?_, heq₂, heq₃,
    ⟨⟨own₂, ht₃⟩, ((hshape.of_released hr₁).of_released hr₂).of_released hr₃,
      fun a t₃ hc₃ hz => ?_⟩,
    (Later.alloc trees _ content rank _ _).trans ((Later.of_released hr₁ _ _).trans
      ((Later.of_released hr₂ _ _).trans (Later.of_released hr₃ _ _))), ?_, ?_⟩
  · rw [heq, if_neg hb, if_neg (by rw [horder]; omega), heq₁]
    rfl
  · obtain ⟨t₂, hc₂, -, -, hz₂⟩ := hr₃.cell a t₃ hc₃
    obtain ⟨t₁, hc₁, -, -, hz₁⟩ := hr₂.cell a t₂ hc₂
    obtain ⟨t₀, hc₀, -, -, hz₀⟩ := hr₁.cell a t₁ hc₁
    rcases Arena.cells_alloc_cases hc₀ with ⟨rfl, -⟩ | ⟨-, hc₀⟩
    · exact (ht₃.full_of_ref (.inl List.mem_cons_self) hc₃).2 hz
    · exact h.pos a t₀ hc₀ (hz₀ (hz₁ (hz₂ hz)))
  · rw [Function.update_self, hsum]
  · rw [Function.update_self, hrank'.2]

end Trees

/-- The values in the trees of an array of roots. -/
def stuff (content : Nat → Items α) (os : List (Option Nat)) : Items α :=
  (os.reduceOption.map content).sum

/-- `n` is the length of an array of roots without the null pointers at its end. -/
def Trim (os : List (Option Nat)) (n : Nat) : Prop :=
  (∀ j, n ≤ j → os.getD j none = none) ∧ (0 < n → ∃ t, os[n - 1]? = some (some t))

section Arrays

variable {content content' : Nat → Items α} {os os' : List (Option Nat)} {o : Option Nat}
  {i n : Nat}

theorem stuff_append : stuff content (os ++ os') = stuff content os + stuff content os' := by
  rw [stuff, List.reduceOption_append, List.map_append, List.sum_append]
  rfl

theorem stuff_singleton (o : Option Nat) : stuff content [o] = (o.toList.map content).sum := by
  rw [stuff, List.reduceOption_singleton]

theorem stuff_congr (h : ∀ t ∈ os.reduceOption, content' t = content t) :
    stuff content' os = stuff content os := by
  rw [stuff, List.map_congr_left h]
  rfl

theorem getD_of_none (h : os.length ≤ i) : os.getD i none = none := by
  rw [List.getD_eq_getElem?_getD, List.getElem?_eq_none h]
  rfl

theorem stuff_take_succ (os : List (Option Nat)) (i : Nat) :
    stuff content (os.take (i + 1)) =
      stuff content (os.take i) + stuff content [os.getD i none] := by
  by_cases hi : i < os.length
  · rw [List.take_add_one, List.getElem?_eq_getElem hi, Option.toList_some, stuff_append,
      List.getD_eq_getElem _ _ hi]
  · rw [List.take_of_length_le (by omega), List.take_of_length_le (by omega),
      getD_of_none (by omega)]
    simp [stuff]

theorem stuff_take_le (os : List (Option Nat)) (n : Nat) :
    stuff content (os.take n) ≤ stuff content os := by
  have happ : stuff content (os.take n ++ os.drop n) =
      stuff content (os.take n) + stuff content (os.drop n) := stuff_append
  rw [List.take_append_drop] at happ
  rw [happ]
  exact Multiset.le_add_right _ _

theorem stuff_getD_le (os : List (Option Nat)) (i : Nat) :
    stuff content [os.getD i none] ≤ stuff content os := by
  have hle : stuff content (os.take (i + 1)) ≤ stuff content os := stuff_take_le os (i + 1)
  rw [stuff_take_succ] at hle
  exact (Multiset.le_add_left _ _).trans hle

theorem mem_reduceOption {t : Nat} : t ∈ os.reduceOption ↔ ∃ j : Nat, os[j]? = some (some t) := by
  rw [List.reduceOption_mem_iff, List.mem_iff_getElem?]

theorem getD_eq_some {t : Nat} : os.getD i none = some t ↔ os[i]? = some (some t) := by
  rw [List.getD_eq_getElem?_getD]
  cases os[i]? <;> simp

theorem Trim.append_none (h : Trim os n) : Trim (os ++ [none]) n := by
  refine ⟨fun j hj => ?_, fun hn => ?_⟩
  · by_cases hlt : j < os.length
    · rw [List.getD_append _ _ _ _ hlt]
      exact h.1 j hj
    · rw [List.getD_append_right _ _ _ _ (Nat.not_lt.mp hlt)]
      cases j - os.length <;> rfl
  · obtain ⟨t, ht⟩ := h.2 hn
    obtain ⟨hlt, -⟩ := List.getElem?_eq_some_iff.mp ht
    refine ⟨t, ?_⟩
    rw [List.getElem?_append_left hlt]
    exact ht

theorem trim_append_some (os : List (Option Nat)) (t : Nat) :
    Trim (os ++ [some t]) (os.length + 1) := by
  refine ⟨fun j hj => getD_of_none (by simpa using hj), fun _ => ⟨t, ?_⟩⟩
  simp

theorem Trim.take (h : Trim os n) : Trim (os.take n) (os.take n).length := by
  refine ⟨fun j hj => getD_of_none hj, fun hpos => ?_⟩
  rw [List.length_take] at hpos ⊢
  obtain ⟨t, ht⟩ := h.2 (by omega)
  obtain ⟨hlt, -⟩ := List.getElem?_eq_some_iff.mp ht
  refine ⟨t, ?_⟩
  rw [Nat.min_eq_left (by omega), List.getElem?_take, if_pos (by omega)]
  exact ht

theorem Trim.reduceOption_take (h : Trim os n) : (os.take n).reduceOption = os.reduceOption := by
  have hrest : (os.drop n).reduceOption = [] := by
    rw [List.eq_nil_iff_forall_not_mem]
    intro t ht
    obtain ⟨j, hj⟩ := mem_reduceOption.mp ht
    rw [List.getElem?_drop] at hj
    have hnone := h.1 (n + j) (Nat.le_add_right _ _)
    rw [getD_eq_some.mpr hj] at hnone
    cases hnone
  have happ := List.reduceOption_append (os.take n) (os.drop n)
  rw [List.take_append_drop, hrest, List.append_nil] at happ
  exact happ.symm

end Arrays

/-- The entry of `new_roots` for the values of a round. -/
def stored (vals : List Nat) : Option Nat := if vals.length &&& 1 ≠ 0 then vals.getLast? else none

section Merge

variable {cmp : α → α → Int} {le : α → α → Prop} {roots others : List (Option Nat)} {ext : List Nat}
  {trees : Arena (BinomialTree α)} {content : Nat → Items α} {rank : Nat → Nat}

/-- The roots of a heap, or the subtrees of a tree: one of each rank, and all of them held. -/
def Ranked (trees : Arena (BinomialTree α)) (ext : List Nat) (rank : Nat → Nat)
    (os : List (Option Nat)) : Prop :=
  ∀ j t, os[j]? = some (some t) → rank t = j ∧ Held trees ext t

/-- Two arrays of roots that a merge can count: they are not long, and no mark comes up more
than twice among their values and those that the references `ext` lead to. -/
structure Mergeable (content : Nat → Items α) (ext : List Nat) (roots others : List (Option Nat)) :
    Prop where
  short : max roots.length others.length < 2 ^ 15
  few : ∀ i,
    (marks (stuff content roots + stuff content others + (ext.map content).sum)).count i ≤ 2

/-- Between the rounds of a merge: what the new roots and the carry hold, and what is left of
the budget `b`. -/
structure MergeInv (le : α → α → Prop) (trees : Arena (BinomialTree α)) (ext : List Nat)
    (content : Nat → Items α) (rank : Nat → Nat) (roots others : List (Option Nat)) (b : Nat)
    (s : MergeLoop α) (content' : Nat → Items α) (rank' : Nat → Nat) : Prop where
  stock : Stock le s.trees (s.newRoots.reduceOption ++ (s.carry.toList ++ ext)) content' rank'
  later : Later trees s.trees content content' rank rank'
  ranks : ∀ j t, s.newRoots[j]? = some (some t) → rank' t = j
  carry_rank : ∀ t ∈ s.carry, rank' t = s.newRoots.length
  carry_le : s.carry ≠ none → s.newRoots.length ≤ max roots.length others.length
  trim : Trim s.newRoots s.newRootsLength
  contents : stuff content' s.newRoots + stuff content' [s.carry] =
    stuff content (roots.take s.newRoots.length) + stuff content (others.take s.newRoots.length)
  budget : b ≤ s.budget + 2 * s.newRoots.length

/-- The values of a round. -/
structure Vals (s : MergeLoop α) (ext : List Nat) (content content' : Nat → Items α)
    (rank' : Nat → Nat) (roots others : List (Option Nat)) (vals : List Nat) : Prop where
  length_le : vals.length ≤ 3
  held : ∀ v ∈ vals, Held s.trees (s.newRoots.reduceOption ++ (s.carry.toList ++ ext)) v
  rank : ∀ v ∈ vals, rank' v = s.newRoots.length
  sum : (vals.map content').sum = stuff content [roots.getD s.newRoots.length none] +
    stuff content [others.getD s.newRoots.length none] + stuff content' [s.carry]
  lt : 2 ≤ vals.length → s.newRoots.length < max roots.length others.length

variable {b : Nat} {s : MergeLoop α} {content' : Nat → Items α} {rank' : Nat → Nat}

theorem lt_of_getD {os : List (Option Nat)} {i t : Nat} (h : os.getD i none = some t) :
    i < os.length := by
  obtain ⟨hlt, -⟩ := List.getElem?_eq_some_iff.mp (getD_eq_some.mp h)
  exact hlt

theorem mergeVals_spec (h : Stock le trees ext content rank) (hroots : Ranked trees ext rank roots)
    (hothers : Ranked trees ext rank others)
    (inv : MergeInv le trees ext content rank roots others b s content' rank') :
    Vals s ext content content' rank' roots others (mergeVals roots others s) := by
  have hroot : ∀ os, Ranked trees ext rank os → ∀ v, os.getD s.newRoots.length none = some v →
      Held s.trees (s.newRoots.reduceOption ++ (s.carry.toList ++ ext)) v ∧
        rank' v = s.newRoots.length := by
    intro os hos v hv
    obtain ⟨hr, hheld⟩ := hos _ v (getD_eq_some.mp hv)
    refine ⟨hheld.later h inv.stock inv.later fun a ha => ?_, ?_⟩
    · exact List.mem_append_right _ (List.mem_append_right _ ha)
    · rw [inv.later.rank v (hheld.lt h), hr]
  have hval : ∀ v ∈ mergeVals roots others s,
      Held s.trees (s.newRoots.reduceOption ++ (s.carry.toList ++ ext)) v ∧
        rank' v = s.newRoots.length := by
    intro v hv
    rw [mergeVals, List.mem_append, List.mem_append, Option.mem_toList, Option.mem_toList,
      Option.mem_toList] at hv
    rcases hv with (hv | hv) | hv
    · exact hroot roots hroots v hv
    · exact hroot others hothers v hv
    · refine ⟨.inl (List.mem_append_right _ (List.mem_append_left _ ?_)), inv.carry_rank v hv⟩
      exact Option.mem_toList.mpr hv
  refine ⟨?_, fun v hv => (hval v hv).1, fun v hv => (hval v hv).2, ?_, fun hlen => ?_⟩
  · have hle : ∀ o : Option Nat, o.toList.length ≤ 1 := fun o => by cases o <;> simp
    have h1 := hle (roots.getD s.newRoots.length none)
    have h2 := hle (others.getD s.newRoots.length none)
    have h3 := hle s.carry
    rw [mergeVals, List.length_append, List.length_append]
    omega
  · have hold : ∀ os, Ranked trees ext rank os →
        stuff content' [os.getD s.newRoots.length none] =
          stuff content [os.getD s.newRoots.length none] := by
      intro os hos
      refine stuff_congr fun t ht => inv.later.content t ?_
      rw [List.reduceOption_singleton, Option.mem_toList] at ht
      exact (hos _ t (getD_eq_some.mp ht)).2.lt h
    rw [mergeVals, List.map_append, List.map_append, List.sum_append, List.sum_append,
      ← hold roots hroots, ← hold others hothers, stuff_singleton, stuff_singleton,
      stuff_singleton]
  · rw [lt_max_iff]
    cases hr : roots.getD s.newRoots.length none with
    | some v => exact .inl (lt_of_getD hr)
    | none =>
      cases ho : others.getD s.newRoots.length none with
      | some v => exact .inr (lt_of_getD ho)
      | none =>
        rw [mergeVals, hr, ho] at hlen
        cases hc : s.carry <;> simp [hc] at hlen

/-- In a merge every mark of the values to merge comes up once more. -/
theorem MergeInv.sparse (h : Stock le trees ext content rank)
    (hm : Mergeable content ext roots others)
    (inv : MergeInv le trees ext content rank roots others b s content' rank') :
    Sparse content' (s.newRoots.reduceOption ++ (s.carry.toList ++ ext)) 2 := by
  intro i
  have hext : ext.map content' = ext.map content :=
    List.map_congr_left fun a ha => inv.later.content a (h.lt_of_mem ha)
  have hsum : ((s.newRoots.reduceOption ++ (s.carry.toList ++ ext)).map content').sum =
      stuff content (roots.take s.newRoots.length) +
        stuff content (others.take s.newRoots.length) + (ext.map content).sum := by
    rw [← inv.contents, stuff_singleton, List.map_append, List.map_append, List.sum_append,
      List.sum_append, hext, Multiset.add_assoc]
    rfl
  rw [hsum]
  refine (count_marks_le ?_ i).trans (hm.few i)
  exact add_le_add_left (add_le_add (stuff_take_le _ _) (stuff_take_le _ _)) _

/-- So does the value that is stored, in its tree, in the values of the round and in a carry. -/
theorem Vals.sparse {vals : List Nat} (h : Stock le trees ext content rank)
    (hm : Mergeable content ext roots others)
    (hv : Vals s ext content content' rank' roots others vals)
    (inv : MergeInv le trees ext content rank roots others b s content' rank') {o : Option Nat}
    (ho : ∀ t ∈ o, t ∈ vals) : Sparse content' o.toList 4 := by
  intro i
  have hle : (o.toList.map content').sum ≤ (vals.map content').sum := by
    cases o with
    | none => exact Multiset.zero_le _
    | some t =>
      rw [Option.toList_some, List.map_singleton, List.sum_singleton]
      exact le_sum_of_mem (ho t rfl) content'
  have hcarry : (marks (stuff content' [s.carry])).count i ≤ 2 := by
    have hsparse := ((inv.sparse h hm).perm (List.perm_append_comm_assoc ..)).of_append_left i
    rwa [← stuff_singleton] at hsparse
  have hroots : (marks (stuff content [roots.getD s.newRoots.length none] +
      stuff content [others.getD s.newRoots.length none])).count i ≤ 2 := by
    refine (count_marks_le ?_ i).trans (hm.few i)
    exact (add_le_add (stuff_getD_le _ _) (stuff_getD_le _ _)).trans (Multiset.le_add_right _ _)
  refine (count_marks_le hle i).trans ?_
  rw [hv.sum, marks, Multiset.map_add, Multiset.count_add]
  exact Nat.add_le_add hroots hcarry

/-- The entry of `new_roots` is set. -/
theorem mergeStore_spec {vals : List Nat} (h : Stock le trees ext content rank)
    (hm : Mergeable content ext roots others)
    (hv : Vals s ext content content' rank' roots others vals)
    (inv : MergeInv le trees ext content rank roots others b s content' rank') :
    ∃ s', mergeStore vals s = some s' ∧ s'.newRoots = s.newRoots ++ [stored vals] ∧
      s'.carry = s.carry ∧ s'.budget = s.budget ∧ Trim s'.newRoots s'.newRootsLength ∧
      Stock le s'.trees ((stored vals).toList ++
        (s.newRoots.reduceOption ++ (s.carry.toList ++ ext))) content' rank' ∧
      Later s.trees s'.trees content' content' rank' rank' := by
  by_cases hodd : vals.length &&& 1 ≠ 0
  · have hst : stored vals = vals.getLast? := if_pos hodd
    have hheld : ∀ tree ∈ vals.getLast?,
        Held s.trees (s.newRoots.reduceOption ++ (s.carry.toList ++ ext)) tree := fun tree ht =>
      hv.held tree (List.mem_of_getLast? ht)
    obtain ⟨trees', heq, h', hl⟩ := treeRef_spec inv.stock (inv.sparse h hm) (by omega) hheld
    refine ⟨{ s with
      trees := trees'
      newRoots := s.newRoots ++ [vals.getLast?]
      newRootsLength := s.newRoots.length + 1 }, ?_, by rw [hst], rfl, rfl, ?_, ?_, hl⟩
    · simp only [mergeStore, if_pos hodd, heq, Option.bind_eq_bind, Option.bind_some]
    · cases vals with
      | nil => simp at hodd
      | cons v vs =>
        rw [List.getLast?_cons]
        exact trim_append_some s.newRoots _
    · rw [hst]
      exact h'
  · have hst : stored vals = none := if_neg hodd
    refine ⟨{ s with newRoots := s.newRoots ++ [none] }, by rw [mergeStore, if_neg hodd],
      by rw [hst], rfl, rfl, inv.trim.append_none, ?_, .refl ..⟩
    rw [hst]
    exact inv.stock

theorem mem_of_stored {vals : List Nat} {t : Nat} (h : stored vals = some t) : t ∈ vals := by
  rw [stored] at h
  split at h
  · exact List.mem_of_getLast? h
  · cases h

/-- The invariant after a round. -/
theorem MergeInv.next {vals : List Nat} {trees' : Arena (BinomialTree α)} {newCarry : Option Nat}
    {budget' length' : Nat} {content'' : Nat → Items α} {rank'' : Nat → Nat}
    (inv : MergeInv le trees ext content rank roots others b s content' rank')
    (hv : Vals s ext content content' rank' roots others vals)
    (htrim : Trim (s.newRoots ++ [stored vals]) length')
    (hst : Stock le trees' (newCarry.toList ++ ((stored vals).toList ++
      (s.newRoots.reduceOption ++ ext))) content'' rank'')
    (hl : Later s.trees trees' content' content'' rank' rank'')
    (hrank : ∀ t ∈ newCarry, rank'' t = s.newRoots.length + 1)
    (hle : newCarry ≠ none → 2 ≤ vals.length)
    (hsum : ((stored vals).toList.map content').sum + stuff content'' [newCarry] =
      (vals.map content').sum) (hb : s.budget ≤ budget' + 2) :
    MergeInv le trees ext content rank roots others b
      ⟨trees', s.newRoots ++ [stored vals], length', newCarry, budget'⟩ content'' rank'' := by
  have hold : ∀ t ∈ (s.newRoots ++ [stored vals]).reduceOption, t < s.trees.next := by
    intro t ht
    rw [List.reduceOption_append, List.mem_append, List.reduceOption_singleton,
      Option.mem_toList] at ht
    rcases ht with ht | ht
    · exact inv.stock.lt_of_mem (List.mem_append_left _ ht)
    · exact (hv.held t (mem_of_stored ht)).lt inv.stock
  refine ⟨hst.perm ?_, inv.later.trans hl, fun j t hj => ?_, fun t ht => ?_, fun hne => ?_, htrim,
    ?_, ?_⟩
  · rw [List.reduceOption_append, List.reduceOption_singleton,
      ← List.append_assoc (stored vals).toList]
    exact List.perm_append_comm_assoc .. |>.trans ((List.perm_append_comm).append_right _)
  · rw [hl.rank t (hold t (mem_reduceOption.mpr ⟨j, hj⟩))]
    by_cases hlt : j < s.newRoots.length
    · rw [List.getElem?_append_left hlt] at hj
      exact inv.ranks j t hj
    · obtain ⟨hlt', -⟩ := List.getElem?_eq_some_iff.mp hj
      rw [List.length_append, List.length_singleton] at hlt'
      obtain rfl : j = s.newRoots.length := by omega
      have hval : stored vals = some t := by simpa using hj
      exact hv.rank t (mem_of_stored hval)
  · rw [List.length_append, List.length_singleton]
    exact hrank t ht
  · rw [List.length_append, List.length_singleton]
    exact hv.lt (hle hne)
  · show stuff content'' (s.newRoots ++ [stored vals]) + stuff content'' [newCarry] =
      stuff content (roots.take (s.newRoots ++ [stored vals]).length) +
        stuff content (others.take (s.newRoots ++ [stored vals]).length)
    rw [stuff_congr fun t ht => hl.content t (hold t ht), stuff_append, List.length_append,
      List.length_singleton, stuff_take_succ, stuff_take_succ, stuff_singleton (stored vals),
      Multiset.add_assoc, hsum, hv.sum]
    calc _ = (stuff content' s.newRoots + stuff content' [s.carry]) +
          (stuff content [roots.getD s.newRoots.length none] +
            stuff content [others.getD s.newRoots.length none]) := by ac_rfl
      _ = _ := by
        rw [inv.contents]
        ac_rfl
  · have hbudget := inv.budget
    show b ≤ budget' + 2 * (s.newRoots ++ [stored vals]).length
    rw [List.length_append, List.length_singleton]
    omega

theorem perm_carry (xs ys zs ws : List Nat) :
    (xs ++ (ys ++ (zs ++ ws))).Perm (zs ++ (xs ++ (ys ++ ws))) := by
  have hswap : (ys ++ (zs ++ ws)).Perm (zs ++ (ys ++ ws)) := List.perm_append_comm_assoc ..
  exact (hswap.append_left xs).trans (List.perm_append_comm_assoc ..)

/-- A round of a merge without two values to merge. -/
theorem mergeRound_short {vals : List Nat} (h : Stock le trees ext content rank)
    (hm : Mergeable content ext roots others) (hvals : mergeVals roots others s = vals)
    (hv : Vals s ext content content' rank' roots others vals) (hlen : vals.length < 2)
    (inv : MergeInv le trees ext content rank roots others b s content' rank') :
    ∃ s', mergeRound cmp roots others s = some (.ok s') ∧
      s'.newRoots.length = s.newRoots.length + 1 ∧
      MergeInv le trees ext content rank roots others b s' content' rank' := by
  obtain ⟨s₁, hs₁, hnew, hcarry, hbudget, htrim, hst₁, hl₁⟩ := mergeStore_spec h hm hv inv
  have hshort : vals = [] ∨ ∃ v, vals = [v] := by
    rcases vals with _ | ⟨v, _ | ⟨w, vs⟩⟩
    · exact .inl rfl
    · exact .inr ⟨v, rfl⟩
    · rw [List.length_cons, List.length_cons] at hlen
      omega
  have hnone : mergeCarry cmp vals s₁ = some (some (none, s₁.trees, s₁.budget)) := by
    rcases hshort with rfl | ⟨v, rfl⟩ <;> simp [mergeCarry]
  have hsum : ((stored vals).toList.map content').sum + stuff content' [none] =
      (vals.map content').sum := by
    rcases hshort with rfl | ⟨v, rfl⟩ <;> simp [stored, stuff]
  obtain ⟨trees₂, heq₂, hst₂, hl₂⟩ := treeUnref_spec (hst₁.perm (perm_carry ..))
  refine ⟨⟨trees₂, s.newRoots ++ [stored vals], s₁.newRootsLength, none, s₁.budget⟩, ?_,
    by simp, ?_⟩
  · rw [← hcarry] at heq₂
    simp only [mergeRound, hvals, hs₁, hnone, mergeEnd, heq₂, binomialTreeRef, ← hnew,
      Option.bind_eq_bind, Option.bind_some]
  · rw [hnew] at htrim
    exact inv.next hv htrim hst₂ (hl₁.trans hl₂) (fun t ht => by cases ht) (fun h => absurd rfl h)
      hsum (by omega)

/-- A round of a merge with two values to merge: it goes on, or an allocation has failed and
everything is as before. -/
theorem mergeRound_long (hdec : Decides cmp le) (h : Stock le trees ext content rank)
    (hm : Mergeable content ext roots others) {v w : Nat} {vs : List Nat}
    (hvals : mergeVals roots others s = v :: w :: vs)
    (hv : Vals s ext content content' rank' roots others (v :: w :: vs))
    (inv : MergeInv le trees ext content rank roots others b s content' rank') :
    (∃ s' content'' rank'', mergeRound cmp roots others s = some (.ok s') ∧
      s'.newRoots.length = s.newRoots.length + 1 ∧
      MergeInv le trees ext content rank roots others b s' content'' rank'') ∨
    ∃ trees', mergeRound cmp roots others s = some (.error trees') ∧
      Stock le trees' ext content' rank' ∧ Later trees trees' content content' rank rank' ∧
      b < 2 * max roots.length others.length := by
  obtain ⟨s₁, hs₁, hnew, hcarry, hbudget, htrim, hst₁, hl₁⟩ := mergeStore_spec h hm hv inv
  have hvs : vs = [] ∨ ∃ u, vs = [u] := by
    have hlen := hv.length_le
    rcases vs with _ | ⟨u, _ | ⟨x, vs⟩⟩
    · exact .inl rfl
    · exact .inr ⟨u, rfl⟩
    · simp only [List.length_cons] at hlen
      omega
  have hbit : (v :: w :: vs).length &&& 2 ≠ 0 := by
    rcases hvs with rfl | ⟨u, rfl⟩ <;> simp
  have hst₂ := hst₁.perm (perm_carry ..)
  have hheld : ∀ x ∈ v :: w :: vs, Held s₁.trees (s.carry.toList ++
      ((stored (v :: w :: vs)).toList ++ (s.newRoots.reduceOption ++ ext))) x := fun x hx =>
    (hv.held x hx).later inv.stock hst₂ hl₁ fun y hy =>
      (perm_carry ..).mem_iff.mp (List.mem_append_right _ hy)
  have hranks : rank' v = rank' w :=
    (hv.rank v List.mem_cons_self).trans (hv.rank w (by simp)).symm
  have hsparse := ((hv.sparse h hm inv fun t ht => mem_of_stored ht).append
    (inv.sparse h hm)).perm (perm_carry ..)
  have hroom : 4 + 2 + 2 + rank' v < 2 ^ 16 := by
    have hlt := hv.lt (by simp)
    have hshort := hm.short
    rw [hv.rank v List.mem_cons_self]
    omega
  rcases carry_spec hdec hst₂ (hheld v List.mem_cons_self) (hheld w (by simp)) hranks hsparse hroom
      s₁.budget with
    ⟨hb, heq⟩ | ⟨new, trees₂, trees₃, trees₄, content'', rank'', hb, heq₂, heq₃, heq₄, hst₄, hl₄,
      hcont, hrank⟩
  · -- The allocation failed: the new roots and the carry are given back.
    right
    have hst₃ : Stock le s₁.trees (s₁.newRoots.reduceOption ++ (s.carry.toList ++ ext)) content'
        rank' := by
      refine hst₁.perm ?_
      rw [hnew, List.reduceOption_append, List.reduceOption_singleton, List.append_assoc]
      exact List.perm_append_comm_assoc ..
    obtain ⟨trees₃, heq₃, hst₃, hl₃⟩ := unrefAll_spec hst₃
    obtain ⟨trees₄, heq₄, hst₄, hl₄⟩ := treeUnref_spec hst₃
    refine ⟨trees₄, ?_, hst₄, inv.later.trans (hl₁.trans (hl₃.trans hl₄)), ?_⟩
    · rw [← hcarry] at heq₄
      have hfail : mergeCarry cmp (v :: w :: vs) s₁ = some none := by
        rw [mergeCarry, if_pos hbit]
        simp only [List.getElem?_cons_zero, List.getElem?_cons_succ, heq, Option.bind_eq_bind,
          Option.bind_some]
      simp only [mergeRound, hvals, hs₁, hfail, mergeEnd, binomialHeapMergeUndo, heq₃, heq₄,
        Option.bind_eq_bind, Option.bind_some]
    · have hlt := hv.lt (by simp)
      have hbudget' := inv.budget
      omega
  · left
    have hsum : ((stored (v :: w :: vs)).toList.map content').sum + stuff content'' [some new] =
        ((v :: w :: vs).map content').sum := by
      rcases hvs with rfl | ⟨u, rfl⟩
      · simp [stored, stuff, hcont]
      · simp [stored, stuff, hcont]
        ac_rfl
    refine ⟨⟨trees₄, s.newRoots ++ [stored (v :: w :: vs)], s₁.newRootsLength, some new,
      s₁.budget - 2⟩, content'', rank'', ?_, by simp, ?_⟩
    · have hok : mergeCarry cmp (v :: w :: vs) s₁ =
          some (some (some new, trees₂, s₁.budget - 2)) := by
        rw [mergeCarry, if_pos hbit]
        simp only [List.getElem?_cons_zero, List.getElem?_cons_succ, heq₂, Option.bind_eq_bind,
          Option.bind_some]
      rw [← hcarry] at heq₃
      simp only [mergeRound, hvals, hs₁, hok, mergeEnd, heq₃, heq₄, ← hnew, Option.bind_eq_bind,
        Option.bind_some]
    · rw [hnew] at htrim
      refine inv.next hv htrim hst₄ (hl₁.trans hl₄) (fun t ht => ?_) (fun _ => by simp) hsum
        (by omega)
      obtain rfl : new = t := Option.some.inj ht
      rw [hrank, hv.rank v List.mem_cons_self]

/-- The rounds of a merge. -/
theorem mergeLoop_spec (hdec : Decides cmp le) (h : Stock le trees ext content rank)
    (hm : Mergeable content ext roots others) (hroots : Ranked trees ext rank roots)
    (hothers : Ranked trees ext rank others)
    (inv : MergeInv le trees ext content rank roots others b s content' rank') (rounds : Nat) :
    (∃ s' content'' rank'', mergeLoop cmp roots others rounds s = some (.ok s') ∧
      s'.newRoots.length = s.newRoots.length + rounds ∧
      MergeInv le trees ext content rank roots others b s' content'' rank'') ∨
    ∃ trees' content'' rank'', mergeLoop cmp roots others rounds s = some (.error trees') ∧
      Stock le trees' ext content'' rank'' ∧ Later trees trees' content content'' rank rank'' ∧
      b < 2 * max roots.length others.length := by
  induction rounds generalizing s content' rank' with
  | zero => exact .inl ⟨s, content', rank', rfl, rfl, inv⟩
  | succ rounds ih =>
    have hround : (∃ s' content'' rank'', mergeRound cmp roots others s = some (.ok s') ∧
          s'.newRoots.length = s.newRoots.length + 1 ∧
          MergeInv le trees ext content rank roots others b s' content'' rank'') ∨
        ∃ trees', mergeRound cmp roots others s = some (.error trees') ∧
          Stock le trees' ext content' rank' ∧ Later trees trees' content content' rank rank' ∧
          b < 2 * max roots.length others.length := by
      have hv := mergeVals_spec h hroots hothers inv
      generalize hvals : mergeVals roots others s = vals at hv
      rcases vals with _ | ⟨v, _ | ⟨w, vs⟩⟩
      · obtain ⟨s', hs'⟩ := mergeRound_short h hm hvals hv (by simp) inv
        exact .inl ⟨s', content', rank', hs'⟩
      · obtain ⟨s', hs'⟩ := mergeRound_short h hm hvals hv (by simp) inv
        exact .inl ⟨s', content', rank', hs'⟩
      · exact mergeRound_long hdec h hm hvals hv inv
    rcases hround with ⟨s', content'', rank'', heq, hlen, inv'⟩ | ⟨trees', heq, hres⟩
    · have hstep : mergeLoop cmp roots others (rounds + 1) s =
          mergeLoop cmp roots others rounds s' := by
        simp only [mergeLoop, heq, Option.bind_eq_bind, Option.bind_some]
      rw [hstep]
      rcases ih inv' with ⟨s'', content₃, rank₃, heq', hlen', inv''⟩ | hfail
      · exact .inl ⟨s'', content₃, rank₃, heq', by omega, inv''⟩
      · exact .inr hfail
    · refine .inr ⟨trees', content', rank', ?_, hres⟩
      simp only [mergeLoop, heq, Option.bind_eq_bind, Option.bind_some]

theorem mergeInv_start (h : Stock le trees ext content rank) (roots others : List (Option Nat))
    (b : Nat) :
    MergeInv le trees ext content rank roots others b ⟨trees, [], 0, none, b⟩ content rank where
  stock := h
  later := .refl ..
  ranks j t hj := by simp at hj
  carry_rank t ht := by cases ht
  carry_le hne := absurd rfl hne
  trim := ⟨fun j _ => by simp, fun h0 => absurd h0 (Nat.lt_irrefl 0)⟩
  contents := by simp [stuff]
  budget := Nat.le_refl _

/-- Two arrays of roots are merged, or everything is as before. -/
theorem heapMerge_spec (hdec : Decides cmp le) (heap : BinomialHeap α) {rest : List Nat}
    (h : Stock le heap.trees (heap.roots.reduceOption ++ rest) content rank)
    (hm : Mergeable content (heap.roots.reduceOption ++ rest) heap.roots others)
    (hroots : Ranked heap.trees (heap.roots.reduceOption ++ rest) rank heap.roots)
    (hothers : Ranked heap.trees (heap.roots.reduceOption ++ rest) rank others) (budget : Nat) :
    (∃ trees' roots' content' rank', binomialHeapMerge cmp heap others budget =
        some (true, ⟨trees', heap.numValues, roots'⟩) ∧
      Stock le trees' (roots'.reduceOption ++ rest) content' rank' ∧
      Later heap.trees trees' content content' rank rank' ∧
      (∀ j t, roots'[j]? = some (some t) → rank' t = j) ∧ Trim roots' roots'.length ∧
      stuff content' roots' = stuff content heap.roots + stuff content others) ∨
    ∃ trees' content' rank', binomialHeapMerge cmp heap others budget =
        some (false, { heap with trees := trees' }) ∧
      Stock le trees' (heap.roots.reduceOption ++ rest) content' rank' ∧
      Later heap.trees trees' content content' rank rank' ∧
      budget < 1 + 2 * max heap.roots.length others.length := by
  cases budget with
  | zero => exact .inr ⟨heap.trees, content, rank, rfl, h, .refl .., by omega⟩
  | succ budget =>
    have hmax : (if heap.roots.length > others.length then heap.roots.length + 1
        else others.length + 1) = max heap.roots.length others.length + 1 := by
      split <;> omega
    have hstart := mergeInv_start h heap.roots others budget
    rcases mergeLoop_spec hdec h hm hroots hothers hstart
        (max heap.roots.length others.length + 1) with
      ⟨s, content', rank', heq, hlen, inv⟩ | ⟨trees', content', rank', heq, hst, hl, hb⟩
    · rw [List.length_nil, Nat.zero_add] at hlen
      have hcarry : s.carry = none := by
        by_contra hne
        have hle := inv.carry_le hne
        omega
      have hst := inv.stock
      rw [hcarry, Option.toList_none, List.nil_append] at hst
      obtain ⟨trees', heq', hst', hl'⟩ :=
        unrefAll_spec (hst.perm (List.perm_append_comm_assoc ..))
      left
      refine ⟨trees', s.newRoots.take s.newRootsLength, content', rank', ?_, ?_,
        inv.later.trans hl', fun j t hj => ?_, ?_, ?_⟩
      · simp only [binomialHeapMerge, hmax, heq, heq', Option.bind_eq_bind, Option.bind_some]
      · rw [inv.trim.reduceOption_take]
        exact hst'
      · refine inv.ranks j t ?_
        rw [List.getElem?_take] at hj
        split at hj
        · exact hj
        · cases hj
      · exact inv.trim.take
      · have hcontents := inv.contents
        rw [hcarry, hlen, List.take_of_length_le (by omega),
          List.take_of_length_le (by omega)] at hcontents
        rw [stuff, inv.trim.reduceOption_take]
        simpa [stuff] using hcontents
    · refine .inr ⟨trees', content', rank', ?_, hst, hl, by omega⟩
      simp only [binomialHeapMerge, hmax, heq, Option.bind_eq_bind, Option.bind_some]

end Merge

end BaseCode.Comm
