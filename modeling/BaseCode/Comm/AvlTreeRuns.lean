import BaseCode.Comm.AvlTreeSpec

/-!
# Runs of the search tree

The tree is a sorted list of entries. An insertion puts the new entry behind all those that
compare equal to it; a removal takes out some entry that compares equal to the key.
-/

namespace BaseCode.Comm
open Foundation
open AvlTreeNode (join updateHeight heightOver)

variable {κ ν : Type}

section Walks

variable {c : Comparator κ} {t l r : AvlTreeNode κ ν} {path rest : AvlPath κ ν} {key : κ}

/-- Ordered by the keys. -/
def EntriesSorted (c : Comparator κ) (es : List (κ × ν)) : Prop :=
  es.Pairwise fun e e' => c.Le e.1 e'.1

theorem entriesSorted_node {k : κ} {v : ν} (h : EntriesSorted c (l.toList ++ (k, v) :: r.toList)) :
    EntriesSorted c l.toList ∧ EntriesSorted c r.toList ∧ (∀ e ∈ l.toList, c.Le e.1 k) ∧
      ∀ e ∈ r.toList, c.Le k e.1 := by
  obtain ⟨hl, hkr, hcross⟩ := List.pairwise_append.mp h
  obtain ⟨hk, hr⟩ := List.pairwise_cons.mp hkr
  exact ⟨hl, hr, fun e he => hcross e he (k, v) List.mem_cons_self, hk⟩

/-- The place at the null pointer lies behind the entries that are at most the key. -/
theorem descend_spec (c : Comparator κ) (key : κ) (hsort : EntriesSorted c t.toList)
    (ht : t.Balanced) (hfits : path.Fits t.height) :
    ∃ as bs, t.toList = as ++ bs ∧
      (avlTreeDescend c.compare key t path).before = path.before ++ as ∧
      (avlTreeDescend c.compare key t path).after = bs ++ path.after ∧
      (∀ e ∈ as, c.Le e.1 key) ∧ (∀ e ∈ bs, c.compare key e.1 < 0) ∧
      (avlTreeDescend c.compare key t path).Fits 0 := by
  induction t generalizing path with
  | null => exact ⟨[], [], rfl, by simp [avlTreeDescend], rfl, by simp, by simp, hfits⟩
  | node l r k v h ihl ihr =>
    obtain ⟨hsl, hsr, hlk, hkr⟩ := entriesSorted_node hsort
    obtain ⟨hl, hr, rfl, hlr, hrl⟩ := AvlTreeNode.balanced_node_iff.mp ht
    by_cases hlt : c.compare key k < 0
    · have hfits' : AvlPath.Fits (⟨.left, r, k, v, max l.height r.height + 1⟩ :: path) l.height :=
        ⟨hr, hrl, hlr, by rwa [max_comm]⟩
      obtain ⟨as, bs, hlist, hbef, haft, hle, hgt, hf⟩ := ihl hsl hl hfits'
      simp only [avlTreeDescend, if_pos hlt]
      refine ⟨as, bs ++ (k, v) :: r.toList, ?_, ?_, ?_, hle, ?_, hf⟩
      · rw [AvlTreeNode.toList, hlist, List.append_assoc]
      · rw [hbef, AvlPath.before, List.append_nil]
      · rw [haft, AvlPath.after, List.append_assoc]
      · intro e he
        rcases List.mem_append.mp he with he | he
        · exact hgt e he
        · rcases List.mem_cons.mp he with rfl | he
          · exact hlt
          · exact Comparator.lt_of_lt_of_le hlt (hkr e he)
    · have hfits' : AvlPath.Fits (⟨.right, l, k, v, max l.height r.height + 1⟩ :: path) r.height :=
        ⟨hl, hlr, hrl, hfits⟩
      obtain ⟨as, bs, hlist, hbef, haft, hle, hgt, hf⟩ := ihr hsr hr hfits'
      simp only [avlTreeDescend, if_neg hlt]
      refine ⟨l.toList ++ (k, v) :: as, bs, ?_, ?_, ?_, ?_, hgt, hf⟩
      · rw [AvlTreeNode.toList, hlist, List.append_assoc, List.cons_append]
      · rw [hbef]
        simp [AvlPath.before]
      · rw [haft, AvlPath.after, List.nil_append]
      · have hk : c.Le k key := Comparator.not_lt_iff.mp hlt
        intro e he
        rcases List.mem_append.mp he with he | he
        · exact Comparator.le_trans (hlk e he) hk
        · rcases List.mem_cons.mp he with rfl | he
          · exact hk
          · exact hle e he

/-- What a search that ends at a node has found. -/
structure AvlLocated (c : Comparator κ) (key : κ) (es : List (κ × ν)) (node : AvlTreeNode κ ν)
    (path : AvlPath κ ν) : Prop where
  balanced : node.Balanced
  fits : path.Fits node.height
  entries : path.before ++ node.toList ++ path.after = es
  key_eq : ∃ l r k v h, node = .node l r k v h ∧ c.compare key k = 0

theorem lookupNode_spec (c : Comparator κ) (key : κ) (hsort : EntriesSorted c t.toList)
    (ht : t.Balanced) (hfits : path.Fits t.height) :
    (avlTreeLookupNode c.compare key t path = none ∧ ∀ e ∈ t.toList, c.compare key e.1 ≠ 0) ∨
      ∃ node p, avlTreeLookupNode c.compare key t path = some (node, p) ∧
        AvlLocated c key (path.before ++ t.toList ++ path.after) node p := by
  induction t generalizing path with
  | null => exact .inl ⟨rfl, by simp [AvlTreeNode.toList]⟩
  | node l r k v h ihl ihr =>
    have ht' := ht
    obtain ⟨hsl, hsr, hlk, hkr⟩ := entriesSorted_node hsort
    obtain ⟨hl, hr, rfl, hlr, hrl⟩ := AvlTreeNode.balanced_node_iff.mp ht
    by_cases heq : c.compare key k = 0
    · exact .inr ⟨_, path, if_pos heq, ht', hfits, rfl, l, r, k, v, _, rfl, heq⟩
    by_cases hlt : c.compare key k < 0
    · have hfits' : AvlPath.Fits (⟨.left, r, k, v, max l.height r.height + 1⟩ :: path) l.height :=
        ⟨hr, hrl, hlr, by rwa [max_comm]⟩
      simp only [avlTreeLookupNode, if_neg heq, if_pos hlt]
      rcases ihl hsl hl hfits' with ⟨hnone, hno⟩ | ⟨node, p, hsome, hloc⟩
      · refine .inl ⟨hnone, fun e he => ?_⟩
        rcases List.mem_append.mp he with he | he
        · exact hno e he
        · rcases List.mem_cons.mp he with rfl | he
          · exact heq
          · exact (Comparator.lt_of_lt_of_le hlt (hkr e he)).ne
      · refine .inr ⟨node, p, hsome, ?_⟩
        simpa [AvlPath.before, AvlPath.after, AvlTreeNode.toList] using hloc
    · have hfits' : AvlPath.Fits (⟨.right, l, k, v, max l.height r.height + 1⟩ :: path) r.height :=
        ⟨hl, hlr, hrl, hfits⟩
      simp only [avlTreeLookupNode, if_neg heq, if_neg hlt]
      rcases ihr hsr hr hfits' with ⟨hnone, hno⟩ | ⟨node, p, hsome, hloc⟩
      · refine .inl ⟨hnone, fun e he => ?_⟩
        rcases List.mem_append.mp he with he | he
        · -- below `k`, which is below the key
          have hpos : c.compare k key < 0 := (c.swap k key).mpr (by omega)
          have := (c.swap e.1 key).mp (Comparator.lt_of_le_of_lt (hlk e he) hpos)
          exact this.ne'
        · rcases List.mem_cons.mp he with rfl | he
          · exact heq
          · exact hno e he
      · refine .inr ⟨node, p, hsome, ?_⟩
        simpa [AvlPath.before, AvlPath.after, AvlTreeNode.toList] using hloc

/-- The entry next to the middle on one side of a node, and what is left of that side. -/
theorem innermost_left_spec (ht : t.Balanced) (hpos : 0 < t.height) (path : AvlPath κ ν) :
    ∃ key value child p, avlTreeInnermost .left t path = some ((key, value, child), p) ∧
      child.Balanced ∧
      (∀ rest, AvlPath.Fits (path ++ rest) t.height →
        AvlPath.Fits (p ++ rest) (child.height + 1)) ∧
      p.before ++ child.toList ++ [(key, value)] = path.before ++ t.toList ∧
      p.after = path.after := by
  induction t generalizing path with
  | null => exact absurd hpos (Int.lt_irrefl 0)
  | node l r k v h ihl ihr =>
    obtain ⟨hl, hr, rfl, hlr, hrl⟩ := AvlTreeNode.balanced_node_iff.mp ht
    cases r with
    | null =>
      refine ⟨k, v, l, path, rfl, hl, ?_, ?_, rfl⟩
      · intro rest hfits
        rwa [AvlTreeNode.height, AvlTreeNode.height, max_eq_left hl.height_nonneg] at hfits
      · simp [AvlTreeNode.toList]
    | node rl rr rk rv rh =>
      have hrpos : 0 < (AvlTreeNode.node rl rr rk rv rh).height := by
        rw [hr.height_eq]
        simp only [AvlTreeNode.depth]
        omega
      obtain ⟨key, value, child, p, heq, hc, hf, hbef, haft⟩ :=
        ihr hr hrpos (⟨.right, l, k, v, max l.height rh + 1⟩ :: path)
      refine ⟨key, value, child, p, heq, hc, fun rest hfits => ?_, ?_, ?_⟩
      · exact hf rest ⟨hl, hlr, hrl, hfits⟩
      · rw [hbef]
        simp [AvlPath.before, AvlTreeNode.toList]
      · rw [haft, AvlPath.after, List.nil_append]

theorem innermost_right_spec (ht : t.Balanced) (hpos : 0 < t.height) (path : AvlPath κ ν) :
    ∃ key value child p, avlTreeInnermost .right t path = some ((key, value, child), p) ∧
      child.Balanced ∧
      (∀ rest, AvlPath.Fits (path ++ rest) t.height →
        AvlPath.Fits (p ++ rest) (child.height + 1)) ∧
      (key, value) :: child.toList ++ p.after = t.toList ++ path.after ∧
      p.before = path.before := by
  induction t generalizing path with
  | null => exact absurd hpos (Int.lt_irrefl 0)
  | node l r k v h ihl ihr =>
    obtain ⟨hl, hr, rfl, hlr, hrl⟩ := AvlTreeNode.balanced_node_iff.mp ht
    cases l with
    | null =>
      refine ⟨k, v, r, path, rfl, hr, ?_, ?_, rfl⟩
      · intro rest hfits
        rwa [AvlTreeNode.height, AvlTreeNode.height, max_eq_right hr.height_nonneg] at hfits
      · simp [AvlTreeNode.toList]
    | node ll lr lk lv lh =>
      have hlpos : 0 < (AvlTreeNode.node ll lr lk lv lh).height := by
        rw [hl.height_eq]
        simp only [AvlTreeNode.depth]
        omega
      obtain ⟨key, value, child, p, heq, hc, hf, haft, hbef⟩ :=
        ihl hl hlpos (⟨.left, r, k, v, max lh r.height + 1⟩ :: path)
      refine ⟨key, value, child, p, heq, hc, fun rest hfits => ?_, ?_, ?_⟩
      · exact hf rest ⟨hr, hrl, hlr, by rwa [max_comm]⟩
      · rw [haft]
        simp [AvlPath.after, AvlTreeNode.toList]
      · rw [hbef, AvlPath.before, List.append_nil]

/-- The walk to the root after an entry from below has taken the place of a removed one. -/
theorem swap_eq {near child : AvlTreeNode κ ν} {side : AvlTreeNodeSide} {key : κ} {value : ν}
    {inner : AvlPath κ ν} (far : AvlTreeNode κ ν) (k : κ) (v : ν) (h : Int) (path : AvlPath κ ν)
    (hin : avlTreeInnermost side near [] = some ((key, value, child), inner)) :
    ∃ x g g', avlTreeSwap path side near far k v h =
      avlTreeBalanceAbove child (AvlPath.reheight g inner ++
        ⟨side, far, key, value, x⟩ :: AvlPath.reheight g' path) := by
  simp only [avlTreeSwap, hin, Option.bind_eq_bind, Option.bind_some]
  cases inner with
  | nil => exact ⟨_, AvlFrame.height, _, rfl⟩
  | cons f inner =>
    exact ⟨_, fun f => (updateHeight (f.plug child)).height, _, rfl⟩

theorem fits_reheight_append {g : AvlFrame κ ν → Int} {n : Int} :
    AvlPath.Fits (AvlPath.reheight g path ++ rest) n ↔ AvlPath.Fits (path ++ rest) n := by
  cases path <;> rfl

theorem removeNode_spec {k : κ} {v : ν} {h : Int} (ht : (AvlTreeNode.node l r k v h).Balanced)
    (hfits : path.Fits h) :
    ∃ root, avlTreeRemoveNode path (.node l r k v h) = some root ∧ root.Balanced ∧
      root.toList = path.before ++ (l.toList ++ r.toList) ++ path.after := by
  obtain ⟨hl, hr, rfl, hlr, hrl⟩ := AvlTreeNode.balanced_node_iff.mp ht
  have hl0 := hl.height_nonneg
  have hr0 := hr.height_nonneg
  by_cases hleaf : l = .null ∧ r = .null
  · obtain ⟨rfl, rfl⟩ := hleaf
    obtain ⟨root, hroot, hbal, hlist⟩ := balanceAbove_spec (t := .null) (n := 1) trivial
      (by simp [AvlTreeNode.height]) (by simp [AvlTreeNode.height])
      (AvlPath.fits_reheight (g := fun f => (f.replace .null).height) |>.mpr hfits)
    refine ⟨root, hroot, hbal, hlist.trans ?_⟩
    exact congrArg₂ (· ++ [] ++ ·) AvlPath.before_reheight AvlPath.after_reheight
  have hrem : avlTreeRemoveNode path (.node l r k v (max l.height r.height + 1)) =
      if l.height < r.height then avlTreeSwap path .right r l k v (max l.height r.height + 1)
      else avlTreeSwap path .left l r k v (max l.height r.height + 1) := by
    cases l with
    | null =>
      cases r with
      | null => exact absurd ⟨rfl, rfl⟩ hleaf
      | node => rfl
    | node => rfl
  by_cases hside : l.height < r.height
  · obtain ⟨key, value, child, inner, hin, hc, hf, hes, hbef⟩ :=
      innermost_right_spec hr (by omega) []
    obtain ⟨x, g, g', heq⟩ := swap_eq l k v (max l.height r.height + 1) path hin
    have hrest : AvlPath.Fits (⟨.right, l, key, value, x⟩ :: AvlPath.reheight g' path) r.height :=
      ⟨hl, hlr, hrl, AvlPath.fits_reheight.mpr hfits⟩
    obtain ⟨root, hroot, hbal, hlist⟩ := balanceAbove_spec hc (n := child.height + 1)
      (by omega) (by omega) (fits_reheight_append.mpr (hf _ hrest))
    refine ⟨root, by rw [hrem, if_pos hside, heq, hroot], hbal, hlist.trans ?_⟩
    have hr' : r.toList = (key, value) :: child.toList ++ inner.after := by
      rw [hes, AvlPath.after, List.append_nil]
    rw [AvlPath.before_append, AvlPath.after_append, AvlPath.before_reheight,
      AvlPath.after_reheight, hbef, hr']
    simp [AvlPath.before, AvlPath.after, AvlPath.before_reheight, AvlPath.after_reheight]
  · have hlpos : 0 < l.height := by
      by_contra hneg
      refine hleaf ⟨AvlTreeNode.eq_null_of_height hl (by omega),
        AvlTreeNode.eq_null_of_height hr (by omega)⟩
    obtain ⟨key, value, child, inner, hin, hc, hf, hes, haft⟩ :=
      innermost_left_spec hl hlpos []
    obtain ⟨x, g, g', heq⟩ := swap_eq r k v (max l.height r.height + 1) path hin
    have hrest : AvlPath.Fits (⟨.left, r, key, value, x⟩ :: AvlPath.reheight g' path) l.height :=
      ⟨hr, hrl, hlr, AvlPath.fits_reheight.mpr (by rwa [max_comm])⟩
    obtain ⟨root, hroot, hbal, hlist⟩ := balanceAbove_spec hc (n := child.height + 1)
      (by omega) (by omega) (fits_reheight_append.mpr (hf _ hrest))
    refine ⟨root, by rw [hrem, if_neg hside, heq, hroot], hbal, hlist.trans ?_⟩
    have hl' : l.toList = inner.before ++ child.toList ++ [(key, value)] := by
      rw [hes, AvlPath.before, List.nil_append]
    rw [AvlPath.before_append, AvlPath.after_append, AvlPath.before_reheight,
      AvlPath.after_reheight, haft, hl']
    simp [AvlPath.before, AvlPath.after, AvlPath.before_reheight, AvlPath.after_reheight]

theorem length_descend_le (cmp : κ → κ → Int) (key : κ) (t : AvlTreeNode κ ν)
    (path : AvlPath κ ν) :
    (avlTreeDescend cmp key t path).length ≤ path.length + t.depth := by
  induction t generalizing path with
  | null => simp [avlTreeDescend]
  | node l r k v h ihl ihr =>
    simp only [avlTreeDescend, AvlTreeNode.depth]
    split
    · have := ihl (⟨.left, r, k, v, h⟩ :: path)
      simp only [List.length_cons] at this
      omega
    · have := ihr (⟨.right, l, k, v, h⟩ :: path)
      simp only [List.length_cons] at this
      omega

/-- A balanced tree of some depth has many entries. -/
theorem fib_depth_le (ht : t.Balanced) : Nat.fib (t.depth + 2) ≤ t.toList.length + 1 := by
  induction t with
  | null => simp [AvlTreeNode.depth, AvlTreeNode.toList]
  | node l r k v h ihl ihr =>
    obtain ⟨hl, hr, -, hlr, hrl⟩ := ht
    have hfl := ihl hl
    have hfr := ihr hr
    simp only [AvlTreeNode.depth, AvlTreeNode.toList, List.length_append, List.length_cons]
    rcases le_total l.depth r.depth with hle | hle
    · have hmono : Nat.fib (r.depth + 1) ≤ Nat.fib (l.depth + 2) := Nat.fib_mono (by omega)
      have hadd : Nat.fib (r.depth + 1 + 2) = Nat.fib (r.depth + 1) + Nat.fib (r.depth + 2) :=
        Nat.fib_add_two
      rw [max_eq_right hle, hadd]
      omega
    · have hmono : Nat.fib (l.depth + 1) ≤ Nat.fib (r.depth + 2) := Nat.fib_mono (by omega)
      have hadd : Nat.fib (l.depth + 1 + 2) = Nat.fib (l.depth + 1) + Nat.fib (l.depth + 2) :=
        Nat.fib_add_two
      rw [max_eq_left hle, hadd]
      omega

theorem toArrayAddSubtree_eq (t : AvlTreeNode κ ν) (array : List κ) :
    avlTreeToArrayAddSubtree t array = array ++ t.toList.map Prod.fst := by
  induction t generalizing array with
  | null => simp [avlTreeToArrayAddSubtree, AvlTreeNode.toList]
  | node l r k v h ihl ihr => simp [avlTreeToArrayAddSubtree, AvlTreeNode.toList, ihl, ihr]

end Walks

section Runs

/-- The calls of the interface, each with the outcome of its allocation. -/
inductive AvlCall (κ ν : Type) where
  | insert (key : κ) (value : ν) (mallocOk : Bool)
  | remove (key : κ)
  | lookup (key : κ)
  | toArray (mallocOk : Bool)
  | numEntries

inductive AvlAnswer (κ ν : Type) where
  | inserted (ok : Bool)
  | removed (result : Int)
  | found (value : Option ν)
  | array (keys : Option (List κ))
  | entries (n : Int)

def avlTreeCall (compareFunc : κ → κ → Int) (tree : AvlTree κ ν) :
    AvlCall κ ν → Option (AvlAnswer κ ν × AvlTree κ ν)
  | .insert key value mallocOk => do
    let (ok, tree) ← avlTreeInsert compareFunc tree key value mallocOk
    some (.inserted ok, tree)
  | .remove key => do
    let (result, tree) ← avlTreeRemove compareFunc tree key
    some (.removed result, tree)
  | .lookup key => some (.found (avlTreeLookup compareFunc tree key), tree)
  | .toArray mallocOk => some (.array (avlTreeToArray tree mallocOk), tree)
  | .numEntries => some (.entries (avlTreeNumEntries tree), tree)

/-- What the calls mean on a sorted list of entries. -/
inductive AvlMeaning (c : Comparator κ) :
    List (κ × ν) → AvlCall κ ν → AvlAnswer κ ν → List (κ × ν) → Prop
  | insert {as bs : List (κ × ν)} {key : κ} {value : ν} :
      (∀ e ∈ as, c.Le e.1 key) → (∀ e ∈ bs, c.compare key e.1 < 0) →
      AvlMeaning c (as ++ bs) (.insert key value true) (.inserted true) (as ++ (key, value) :: bs)
  | insertFails {es : List (κ × ν)} {key : κ} {value : ν} :
      AvlMeaning c es (.insert key value false) (.inserted false) es
  | remove {as bs : List (κ × ν)} {key k : κ} {v : ν} : c.compare key k = 0 →
      AvlMeaning c (as ++ (k, v) :: bs) (.remove key) (.removed 1) (as ++ bs)
  | removeMisses {es : List (κ × ν)} {key : κ} : (∀ e ∈ es, c.compare key e.1 ≠ 0) →
      AvlMeaning c es (.remove key) (.removed 0) es
  | lookup {es : List (κ × ν)} {key k : κ} {v : ν} : (k, v) ∈ es → c.compare key k = 0 →
      AvlMeaning c es (.lookup key) (.found (some v)) es
  | lookupMisses {es : List (κ × ν)} {key : κ} : (∀ e ∈ es, c.compare key e.1 ≠ 0) →
      AvlMeaning c es (.lookup key) (.found none) es
  | toArray {es : List (κ × ν)} :
      AvlMeaning c es (.toArray true) (.array (some (es.map Prod.fst))) es
  | toArrayFails {es : List (κ × ν)} : AvlMeaning c es (.toArray false) (.array none) es
  | numEntries {es : List (κ × ν)} : AvlMeaning c es .numEntries (.entries es.length) es

/-- The tree holds these entries. -/
structure AvlTree.Holds (c : Comparator κ) (tree : AvlTree κ ν) (es : List (κ × ν)) : Prop where
  balanced : tree.rootNode.Balanced
  entries : tree.rootNode.toList = es
  sorted : EntriesSorted c es
  count : tree.numNodes = es.length

variable {c : Comparator κ} {tree : AvlTree κ ν} {es : List (κ × ν)}

theorem holds_new (c : Comparator κ) : (avlTreeNew : AvlTree κ ν).Holds c [] :=
  ⟨trivial, rfl, .nil, rfl⟩

theorem entriesSorted_insert {as bs : List (κ × ν)} {key : κ} {value : ν}
    (h : EntriesSorted c (as ++ bs))
    (hle : ∀ e ∈ as, c.Le e.1 key) (hgt : ∀ e ∈ bs, c.compare key e.1 < 0) :
    EntriesSorted c (as ++ (key, value) :: bs) := by
  obtain ⟨has, hbs, hcross⟩ := List.pairwise_append.mp h
  refine List.pairwise_append.mpr ⟨has, List.pairwise_cons.mpr ⟨?_, hbs⟩, ?_⟩
  · exact fun e he => Comparator.le_of_lt (hgt e he)
  · intro e he e' he'
    rcases List.mem_cons.mp he' with rfl | he'
    · exact hle e he
    · exact hcross e he e' he'

theorem avlTreeInsert_spec (h : tree.Holds c es) (hlen : es.length < 2 ^ 31 - 1) (key : κ)
    (value : ν) :
    ∃ as bs tree', es = as ++ bs ∧ (∀ e ∈ as, c.Le e.1 key) ∧
      (∀ e ∈ bs, c.compare key e.1 < 0) ∧
      avlTreeInsert c.compare tree key value true = some (true, tree') ∧
      tree'.Holds c (as ++ (key, value) :: bs) := by
  obtain ⟨hbal, rfl, hsort, hcount⟩ := h
  have hnil : AvlPath.Fits ([] : AvlPath κ ν) tree.rootNode.height := trivial
  obtain ⟨as, bs, hlist, hbef, haft, hle, hgt, hfits⟩ := descend_spec c key hsort hbal hnil
  obtain ⟨root, hroot, hbal', hlist'⟩ := balanceAbove_spec (n := 0)
    (t := .node .null .null key value 1)
    (AvlTreeNode.balanced_node_iff.mpr ⟨trivial, trivial, rfl, by simp, by simp⟩)
    (by simp [AvlTreeNode.height]) (by simp [AvlTreeNode.height]) hfits
  refine ⟨as, bs, ⟨root, tree.numNodes + 1⟩, hlist, hle, hgt, ?_, hbal', ?_, ?_, ?_⟩
  · have hnum : countUp tree.numNodes = some (tree.numNodes + 1) := by
      apply countUp_eq
      rw [hcount]
      omega
    simp only [avlTreeInsert, if_true, hroot, hnum, Option.bind_eq_bind, Option.bind_some]
  · rw [hlist', hbef, haft]
    simp [AvlPath.before, AvlPath.after, AvlTreeNode.toList]
  · rw [hlist] at hsort
    exact entriesSorted_insert hsort hle hgt
  · simp only [hcount, hlist, List.length_append, List.length_cons]
    omega

theorem avlTreeRemove_spec (h : tree.Holds c es) (key : κ) :
    (avlTreeRemove c.compare tree key = some (0, tree) ∧ ∀ e ∈ es, c.compare key e.1 ≠ 0) ∨
      ∃ as bs k v tree', es = as ++ (k, v) :: bs ∧ c.compare key k = 0 ∧
        avlTreeRemove c.compare tree key = some (1, tree') ∧ tree'.Holds c (as ++ bs) := by
  obtain ⟨hbal, rfl, hsort, hcount⟩ := h
  have hfits : AvlPath.Fits ([] : AvlPath κ ν) tree.rootNode.height := trivial
  rcases lookupNode_spec c key hsort hbal hfits with
    ⟨hnone, hno⟩ | ⟨node, p, hsome, hbal', hfits, hes, l, r, k, v, h, rfl, heq⟩
  · exact .inl ⟨by simp only [avlTreeRemove, hnone], hno⟩
  · obtain ⟨root, hroot, hbal'', hlist⟩ := removeNode_spec hbal' hfits
    rw [AvlPath.before, AvlPath.after, List.nil_append, List.append_nil] at hes
    have hes' : tree.rootNode.toList =
        (p.before ++ l.toList) ++ (k, v) :: (r.toList ++ p.after) := by
      rw [← hes, AvlTreeNode.toList]
      simp
    refine .inr ⟨_, _, k, v, ⟨root, tree.numNodes - 1⟩, hes', heq, ?_, hbal'', ?_, ?_, ?_⟩
    · simp only [avlTreeRemove, hsome, hroot, Option.bind_eq_bind, Option.bind_some]
    · rw [hlist]
      simp
    · rw [hes'] at hsort
      exact hsort.sublist (List.Sublist.append_left (List.sublist_cons_self _ _) _)
    · simp only [hcount, hes', List.length_append, List.length_cons]
      omega

theorem avlTreeLookup_spec (h : tree.Holds c es) (key : κ) :
    (avlTreeLookup c.compare tree key = none ∧ ∀ e ∈ es, c.compare key e.1 ≠ 0) ∨
      ∃ k v, (k, v) ∈ es ∧ c.compare key k = 0 ∧
        avlTreeLookup c.compare tree key = some v := by
  obtain ⟨hbal, rfl, hsort, -⟩ := h
  have hfits : AvlPath.Fits ([] : AvlPath κ ν) tree.rootNode.height := trivial
  rcases lookupNode_spec c key hsort hbal hfits with
    ⟨hnone, hno⟩ | ⟨node, p, hsome, -, -, hes, l, r, k, v, h, rfl, heq⟩
  · exact .inl ⟨by simp only [avlTreeLookup, hnone], hno⟩
  · refine .inr ⟨k, v, ?_, heq, by simp only [avlTreeLookup, hsome]⟩
    rw [AvlPath.before, AvlPath.after, List.nil_append, List.append_nil] at hes
    rw [← hes, AvlTreeNode.toList]
    simp

/-- One call on a tree that holds some entries. -/
theorem avlTreeCall_spec (tree : AvlTree κ ν) (es : List (κ × ν)) (call : AvlCall κ ν)
    (h : tree.Holds c es) (hlen : es.length < 2 ^ 31 - 1) :
    ∃ r tree' es', avlTreeCall c.compare tree call = some (r, tree') ∧
      AvlMeaning c es call r es' ∧ tree'.Holds c es' := by
  cases call with
  | insert key value mallocOk =>
    cases mallocOk with
    | false => exact ⟨_, tree, es, rfl, .insertFails, h⟩
    | true =>
      obtain ⟨as, bs, tree', rfl, hle, hgt, heq, h'⟩ := avlTreeInsert_spec h hlen key value
      refine ⟨.inserted true, tree', _, ?_, .insert hle hgt, h'⟩
      simp only [avlTreeCall, heq, Option.bind_eq_bind, Option.bind_some]
  | remove key =>
    rcases avlTreeRemove_spec h key with ⟨heq, hno⟩ | ⟨as, bs, k, v, tree', rfl, hk, heq, h'⟩
    · refine ⟨.removed 0, tree, es, ?_, .removeMisses hno, h⟩
      simp only [avlTreeCall, heq, Option.bind_eq_bind, Option.bind_some]
    · refine ⟨.removed 1, tree', _, ?_, .remove hk, h'⟩
      simp only [avlTreeCall, heq, Option.bind_eq_bind, Option.bind_some]
  | lookup key =>
    rcases avlTreeLookup_spec h key with ⟨heq, hno⟩ | ⟨k, v, hmem, hk, heq⟩
    · exact ⟨.found none, tree, es, by rw [avlTreeCall, heq], .lookupMisses hno, h⟩
    · exact ⟨.found (some v), tree, es, by rw [avlTreeCall, heq], .lookup hmem hk, h⟩
  | toArray mallocOk =>
    cases mallocOk with
    | false => exact ⟨_, tree, es, rfl, .toArrayFails, h⟩
    | true =>
      refine ⟨.array (some (es.map Prod.fst)), tree, es, ?_, .toArray, h⟩
      rw [avlTreeCall, avlTreeToArray, if_pos rfl, toArrayAddSubtree_eq, h.entries,
        List.nil_append]
  | numEntries =>
    exact ⟨.entries es.length, tree, es, by rw [avlTreeCall, avlTreeNumEntries, h.count],
      .numEntries, h⟩

theorem AvlMeaning.length_le {es es' : List (κ × ν)} {call : AvlCall κ ν} {r : AvlAnswer κ ν}
    (h : AvlMeaning c es call r es') : es'.length ≤ es.length + 1 := by
  cases h with
  | insert => simp; omega
  | remove => simp; omega
  | insertFails | removeMisses | lookup | lookupMisses | toArray | toArrayFails | numEntries =>
    exact Nat.le_succ _

/-- Whatever calls are made, fewer than an `int` can count, and whichever allocations fail, no
call follows a null pointer, and each answer is right for the sorted list that the calls before
it have built. -/
theorem avlTree_answers_allowed (c : Comparator κ) (calls : List (AvlCall κ ν))
    (hlen : calls.length < 2 ^ 31) :
    ∃ rs tree es, answers (avlTreeCall c.compare) avlTreeNew calls = some (rs, tree) ∧
      Allows (AvlMeaning c) [] calls rs es ∧ tree.Holds c es :=
  exists_answers_within avlTreeCall_spec (fun _ _ _ _ h => h.length_le) (holds_new c) calls
    (by rw [List.length_nil]; omega)

/-- The third insertion rotates, the fourth gets no memory. -/
theorem avlTree_answers_allowed_rotated :
    ∃ rs tree es, answers (avlTreeCall Comparator.ints.compare) avlTreeNew
        [.insert 1 10 true, .insert 2 20 true, .insert 3 30 true, .insert 4 40 false, .remove 2,
          .lookup 2, .toArray true, .numEntries] = some (rs, tree) ∧
      Allows (AvlMeaning Comparator.ints) []
        [.insert 1 10 true, .insert 2 20 true, .insert 3 30 true, .insert 4 40 false, .remove 2,
          .lookup 2, .toArray true, .numEntries] rs es ∧ tree.Holds Comparator.ints es :=
  avlTree_answers_allowed Comparator.ints _ (by simp)

/-- In every tree that calls can build, a walk down the tree is short. -/
theorem avlTree_walk_fib_le (c : Comparator κ) (calls : List (AvlCall κ ν))
    (hlen : calls.length < 2 ^ 31) :
    ∃ rs tree, answers (avlTreeCall c.compare) avlTreeNew calls = some (rs, tree) ∧
      tree.rootNode.Balanced ∧
      ∀ key, (Nat.fib ((avlTreeDescend c.compare key tree.rootNode []).length + 2) : Int) ≤
        tree.numNodes + 1 := by
  have hnew : (avlTreeNew : AvlTree κ ν).Holds c [] := holds_new c
  obtain ⟨rs, tree, es, heq, -, h⟩ := exists_answers_within (R := AvlMeaning c) avlTreeCall_spec
    (fun _ _ _ _ h => h.length_le) hnew calls (by rw [List.length_nil]; omega)
  refine ⟨rs, tree, heq, h.balanced, fun key => ?_⟩
  have hlen := length_descend_le c.compare key tree.rootNode []
  have hmono := Nat.fib_mono (Nat.add_le_add_right hlen 2)
  have hfib := fib_depth_le h.balanced
  rw [List.length_nil, Nat.zero_add] at hmono
  rw [h.entries] at hfib
  rw [h.count]
  omega

theorem avlTree_walk_fib_le_rotated :
    ∃ rs tree, answers (avlTreeCall Comparator.ints.compare) avlTreeNew
        [.insert 1 10 true, .insert 2 20 true, .insert 3 30 true, .remove 2] = some (rs, tree) ∧
      tree.rootNode.Balanced ∧ ∀ key,
        (Nat.fib ((avlTreeDescend Comparator.ints.compare key tree.rootNode []).length + 2) : Int) ≤
          tree.numNodes + 1 :=
  avlTree_walk_fib_le Comparator.ints _ (by simp)

end Runs

end BaseCode.Comm
