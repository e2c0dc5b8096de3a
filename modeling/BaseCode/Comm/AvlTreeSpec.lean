import Mathlib.Data.Nat.Fib.Basic
import BaseCode.Foundation.Comparators
import BaseCode.Foundation.Machines
import BaseCode.Comm.AvlTree

/-!
# The search tree is balanced and ordered

A tree stands for its entries in order. One balancing step repairs a node whose subtrees are
balanced and differ by at most two in height, whatever the height field of the node itself
holds; so the walk to the root repairs the whole tree after one subtree on the way has changed
by at most one in height, which is all that an insertion or a removal does.
-/

namespace BaseCode.Comm
open Foundation
open AvlTreeNode (join updateHeight heightOver)

variable {κ ν : Type}

namespace AvlTreeNode

/-- The entries from left to right. -/
def toList : AvlTreeNode κ ν → List (κ × ν)
  | null => []
  | node l r k v _ => l.toList ++ (k, v) :: r.toList

/-- The number of nodes on the longest way down. -/
def depth : AvlTreeNode κ ν → Nat
  | null => 0
  | node l r _ _ _ => max l.depth r.depth + 1

/-- Each height field is right, and the depths of two siblings differ by at most one. -/
def Balanced : AvlTreeNode κ ν → Prop
  | null => True
  | node l r _ _ h => l.Balanced ∧ r.Balanced ∧ h = max l.depth r.depth + 1 ∧
      l.depth ≤ r.depth + 1 ∧ r.depth ≤ l.depth + 1

variable {l r t : AvlTreeNode κ ν} {k : κ} {v : ν} {h : Int}

theorem heightOver_eq : heightOver l r = max l.height r.height + 1 := by
  simp only [heightOver]
  split <;> omega

theorem Balanced.height_eq (ht : t.Balanced) : t.height = t.depth := by
  cases t with
  | null => rfl
  | node l r k v h =>
    obtain ⟨-, -, hh, -, -⟩ := ht
    simp only [height, depth]
    omega

theorem Balanced.height_nonneg (ht : t.Balanced) : 0 ≤ t.height := by
  rw [ht.height_eq]
  omega

theorem eq_null_of_height (ht : t.Balanced) (h0 : t.height ≤ 0) : t = null := by
  cases t with
  | null => rfl
  | node l r k v h =>
    rw [ht.height_eq, depth] at h0
    omega

@[simp] theorem toList_updateHeight : (updateHeight t).toList = t.toList := by
  cases t <;> rfl

section Join

variable {side : AvlTreeNodeSide} {a b : AvlTreeNode κ ν}

theorem join_other (side : AvlTreeNodeSide) (a b : AvlTreeNode κ ν) (k : κ) (v : ν) (h : Int) :
    join side.other b a k v h = join side a b k v h := by
  cases side <;> rfl

theorem height_join : (join side a b k v h).height = h := by cases side <;> rfl

theorem updateHeight_join :
    updateHeight (join side a b k v h) = join side a b k v (max a.height b.height + 1) := by
  cases side with
  | left => simp only [join, updateHeight, heightOver_eq]
  | right => simp only [join, updateHeight, heightOver_eq, max_comm]

/-- Balance in terms of the fields that the code reads. -/
theorem balanced_node_iff :
    (node l r k v h).Balanced ↔ l.Balanced ∧ r.Balanced ∧ h = max l.height r.height + 1 ∧
      l.height ≤ r.height + 1 ∧ r.height ≤ l.height + 1 := by
  simp only [Balanced]
  refine and_congr_right fun hl => and_congr_right fun hr => ?_
  rw [hl.height_eq, hr.height_eq]
  omega

theorem balanced_join_iff :
    (join side a b k v h).Balanced ↔ a.Balanced ∧ b.Balanced ∧ h = max a.height b.height + 1 ∧
      a.height ≤ b.height + 1 ∧ b.height ≤ a.height + 1 := by
  cases side with
  | left => exact balanced_node_iff
  | right =>
    rw [show join .right a b k v h = node b a k v h from rfl, balanced_node_iff,
      max_comm b.height]
    tauto

theorem exists_join (side : AvlTreeNodeSide) (hpos : 0 < t.height) :
    ∃ a b k v h, t = join side a b k v h := by
  cases t with
  | null => exact absurd hpos (by simp [height])
  | node l r k v h =>
    cases side with
    | left => exact ⟨l, r, k, v, h, rfl⟩
    | right => exact ⟨r, l, k, v, h, rfl⟩

end Join

end AvlTreeNode

open AvlTreeNode

section Balance

variable {side : AvlTreeNodeSide} {l r lo hi a b c : AvlTreeNode κ ν} {k k' : κ} {v v' : ν}
  {h h' : Int} {parent parent' : Option (AvlFrame κ ν)}

/-- The parent with some other height. -/
def Reheighted (parent parent' : Option (AvlFrame κ ν)) : Prop :=
  ∃ g : AvlFrame κ ν → Int, parent' = parent.map fun f => { f with height := g f }

theorem reheighted_refl : Reheighted parent parent :=
  ⟨AvlFrame.height, Option.map_id'.symm⟩

/-- A rotation, apart from the height that the new root gets. -/
theorem rotate_join (side : AvlTreeNodeSide) (a b c : AvlTreeNode κ ν) (k k' : κ) (v v' : ν)
    (h h' : Int) (parent : Option (AvlFrame κ ν)) :
    ∃ x parent', avlTreeRotate parent side (join side a (join side b c k' v' h') k v h) =
        some (join side (updateHeight (join side a b k v h)) c k' v' x, parent') ∧
      Reheighted parent parent' := by
  cases side with
  | left => exact ⟨_, _, rfl, _, rfl⟩
  | right => exact ⟨_, _, rfl, _, rfl⟩

/-- A child is rotated towards its own side. -/
theorem rotateChild_join (side : AvlTreeNodeSide) (a b c lo : AvlTreeNode κ ν) (k k₁ k₂ : κ)
    (v v₁ v₂ : ν) (h h₁ h₂ : Int) :
    ∃ x y, avlTreeRotateChild side side
        (join side (join side a (join side b c k₂ v₂ h₂) k₁ v₁ h₁) lo k v h) =
      some (join side (join side (updateHeight (join side a b k₁ v₁ h₁)) c k₂ v₂ x) lo k v y) := by
  cases side with
  | left => exact ⟨_, _, rfl⟩
  | right => exact ⟨_, _, rfl⟩

theorem raise_join (side : AvlTreeNodeSide) (a b lo : AvlTreeNode κ ν) (k k₁ : κ) (v v₁ : ν)
    (h h₁ : Int) (parent : Option (AvlFrame κ ν)) :
    avlTreeRaise parent side (join side (join side a b k₁ v₁ h₁) lo k v h) =
      if a.height < b.height then
        (avlTreeRotateChild side side (join side (join side a b k₁ v₁ h₁) lo k v h)).bind
          (avlTreeRotate parent side.other)
      else avlTreeRotate parent side.other (join side (join side a b k₁ v₁ h₁) lo k v h) := by
  cases side with
  | left => rfl
  | right => rfl

/-- The subtree on `side` is two higher than the other. -/
theorem raise_spec (side : AvlTreeNodeSide) (hhi : hi.Balanced) (hlo : lo.Balanced)
    (hgap : hi.height = lo.height + 2) (k : κ) (v : ν) (h : Int)
    (parent : Option (AvlFrame κ ν)) :
    ∃ t parent', avlTreeRaise parent side (join side hi lo k v h) = some (t, parent') ∧
      (updateHeight t).Balanced ∧ t.toList = (join side hi lo k v h).toList ∧
      hi.height ≤ (updateHeight t).height ∧ (updateHeight t).height ≤ hi.height + 1 ∧
      Reheighted parent parent' := by
  have hlo0 := hlo.height_nonneg
  obtain ⟨a, b, k₁, v₁, h₁, rfl⟩ := exists_join side (t := hi) (by omega)
  obtain ⟨ha, hb, rfl, hab, hba⟩ := balanced_join_iff.mp hhi
  rw [height_join] at hgap
  have ha0 := ha.height_nonneg
  rw [raise_join]
  by_cases hcase : a.height < b.height
  · -- the inner grandchild comes to the top
    obtain ⟨b₁, b₂, k₂, v₂, h₂, rfl⟩ := exists_join side (t := b) (by omega)
    obtain ⟨hb₁, hb₂, rfl, h12, h21⟩ := balanced_join_iff.mp hb
    rw [height_join] at hcase hab hba hgap
    obtain ⟨x, y, hchild⟩ := rotateChild_join side a b₁ b₂ lo k k₁ k₂ v v₁ v₂ h
      (max a.height (max b₁.height b₂.height + 1) + 1) (max b₁.height b₂.height + 1)
    rw [height_join, if_pos hcase, hchild, Option.bind_some, ← join_other, ← join_other side _ b₂]
    obtain ⟨z, parent', hrot, hpar⟩ := rotate_join side.other lo b₂
      (updateHeight (join side a b₁ k₁ v₁ (max a.height (max b₁.height b₂.height + 1) + 1)))
      k k₂ v v₂ y x parent
    refine ⟨_, parent', hrot, ?_, ?_, ?_, ?_, hpar⟩
    · simp only [updateHeight_join, balanced_join_iff, height_join]
      refine ⟨⟨hlo, hb₂, trivial, ?_, ?_⟩, ⟨ha, hb₁, trivial, ?_, ?_⟩, trivial, ?_, ?_⟩ <;> omega
    · cases side <;> simp [toList, join, updateHeight, AvlTreeNodeSide.other]
    · simp only [updateHeight_join, height_join]
      omega
    · simp only [updateHeight_join, height_join]
      omega
  · rw [if_neg hcase, ← join_other, ← join_other side a b]
    obtain ⟨z, parent', hrot, hpar⟩ := rotate_join side.other lo b a k k₁ v v₁ h
      (max a.height b.height + 1) parent
    refine ⟨_, parent', hrot, ?_, ?_, ?_, ?_, hpar⟩
    · simp only [updateHeight_join, balanced_join_iff, height_join]
      refine ⟨⟨hlo, hb, trivial, ?_, ?_⟩, ha, trivial, ?_, ?_⟩ <;> omega
    · cases side <;> simp [toList, join, updateHeight, AvlTreeNodeSide.other]
    · simp only [updateHeight_join, height_join]
      omega
    · simp only [updateHeight_join, height_join]
      omega

/-- What a balancing step makes of a node over `l` and `r`: a balanced subtree with the same
entries, which is lower than a new node would be, by one, only if there was something to
rotate. -/
structure Repairs (l r : AvlTreeNode κ ν) (k : κ) (v : ν) (t : AvlTreeNode κ ν) : Prop where
  balanced : t.Balanced
  entries : t.toList = l.toList ++ (k, v) :: r.toList
  height_le : t.height ≤ heightOver l r
  le_height : heightOver l r ≤ t.height + 1
  height_eq : l.height ≤ r.height + 1 → r.height ≤ l.height + 1 → t.height = heightOver l r

theorem balance_spec (hl : l.Balanced) (hr : r.Balanced) (hlr : l.height ≤ r.height + 2)
    (hrl : r.height ≤ l.height + 2) (k : κ) (v : ν) (h : Int)
    (parent : Option (AvlFrame κ ν)) :
    ∃ t parent', avlTreeNodeBalance parent (.node l r k v h) = some (t, parent') ∧
      Repairs l r k v t ∧ Reheighted parent parent' := by
  by_cases hright : r.height - l.height ≥ 2
  · obtain ⟨t, parent', heq, hbal, hlist, hlow, hhigh, hpar⟩ :=
      raise_spec .right hr hl (by omega) k v h parent
    rw [show join .right r l k v h = .node l r k v h from rfl] at heq hlist
    refine ⟨updateHeight t, parent', ?_, ⟨hbal, ?_, ?_, ?_, ?_⟩, hpar⟩
    · simp only [avlTreeNodeBalance, if_pos hright, heq, Option.bind_eq_bind, Option.bind_some]
    · rw [toList_updateHeight, hlist, toList]
    all_goals rw [heightOver_eq]; omega
  · by_cases hleft : r.height - l.height ≤ -2
    · obtain ⟨t, parent', heq, hbal, hlist, hlow, hhigh, hpar⟩ :=
        raise_spec .left hl hr (by omega) k v h parent
      rw [show join .left l r k v h = .node l r k v h from rfl] at heq hlist
      refine ⟨updateHeight t, parent', ?_, ⟨hbal, ?_, ?_, ?_, ?_⟩, hpar⟩
      · simp only [avlTreeNodeBalance, if_neg hright, if_pos hleft, heq, Option.bind_eq_bind,
          Option.bind_some]
      · rw [toList_updateHeight, hlist, toList]
      all_goals rw [heightOver_eq]; omega
    · refine ⟨.node l r k v (heightOver l r), parent, ?_,
        ⟨?_, rfl, Int.le_refl _, Int.le_add_one (Int.le_refl _), fun _ _ => rfl⟩, reheighted_refl⟩
      · simp only [avlTreeNodeBalance, if_neg hright, if_neg hleft, Option.bind_eq_bind,
          Option.bind_some, updateHeight]
      · exact balanced_node_iff.mpr ⟨hl, hr, heightOver_eq, by omega, by omega⟩

end Balance

section Path

/-- The entries to the left of the place at the end of the path. -/
def AvlPath.before : AvlPath κ ν → List (κ × ν)
  | [] => []
  | f :: path =>
    AvlPath.before path ++
      match f.side with
      | .left => []
      | .right => f.sibling.toList ++ [(f.key, f.value)]

/-- The entries to the right of the place at the end of the path. -/
def AvlPath.after : AvlPath κ ν → List (κ × ν)
  | [] => []
  | f :: path =>
    (match f.side with
      | .left => (f.key, f.value) :: f.sibling.toList
      | .right => []) ++ AvlPath.after path

/-- The path belongs to a balanced tree whose subtree at the end of the path has height `n`.
The height fields on the path do not matter. -/
def AvlPath.Fits : AvlPath κ ν → Int → Prop
  | [], _ => True
  | f :: path, n => f.sibling.Balanced ∧ f.sibling.height ≤ n + 1 ∧ n ≤ f.sibling.height + 1 ∧
      AvlPath.Fits path (max f.sibling.height n + 1)

variable {path rest : AvlPath κ ν} {t : AvlTreeNode κ ν} {n : Int}

theorem AvlPath.before_append :
    AvlPath.before (path ++ rest) = AvlPath.before rest ++ AvlPath.before path := by
  induction path with
  | nil => simp [before]
  | cons f path ih => simp only [List.cons_append, before, ih, List.append_assoc]

theorem AvlPath.after_append :
    AvlPath.after (path ++ rest) = AvlPath.after path ++ AvlPath.after rest := by
  induction path with
  | nil => simp [after]
  | cons f path ih => simp only [List.cons_append, after, ih, List.append_assoc]

/-- The nearest ancestor with another height. -/
def AvlPath.reheight (g : AvlFrame κ ν → Int) (path : AvlPath κ ν) : AvlPath κ ν :=
  path.modifyHead fun f => { f with height := g f }

variable {g : AvlFrame κ ν → Int}

theorem AvlPath.before_reheight : (AvlPath.reheight g path).before = path.before := by
  cases path <;> rfl

theorem AvlPath.after_reheight : (AvlPath.reheight g path).after = path.after := by
  cases path <;> rfl

theorem AvlPath.fits_reheight : (AvlPath.reheight g path).Fits n ↔ path.Fits n := by
  cases path <;> rfl

theorem AvlPath.length_reheight : (AvlPath.reheight g path).length = path.length := by
  cases path <;> rfl

/-- One round of the walk to the root, at an ancestor whose child has changed. -/
theorem balanceToRoot_round {f : AvlFrame κ ν} (ht : t.Balanced) (hs : f.sibling.Balanced)
    (hts : t.height ≤ f.sibling.height + 2) (hst : f.sibling.height ≤ t.height + 2)
    (path : AvlPath κ ν) :
    ∃ t' g, avlTreeBalanceToRoot (f.plug t) path =
        avlTreeBalanceAbove t' (AvlPath.reheight g path) ∧ t'.Balanced ∧
      t'.toList = AvlPath.before [f] ++ t.toList ++ AvlPath.after [f] ∧
      t'.height ≤ max t.height f.sibling.height + 1 ∧
      max t.height f.sibling.height ≤ t'.height ∧
      (t.height ≤ f.sibling.height + 1 → f.sibling.height ≤ t.height + 1 →
        t'.height = max t.height f.sibling.height + 1) := by
  have hround : ∀ l r : AvlTreeNode κ ν, l.Balanced → r.Balanced → l.height ≤ r.height + 2 →
      r.height ≤ l.height + 2 →
      ∃ t' g, avlTreeBalanceToRoot (.node l r f.key f.value f.height) path =
        avlTreeBalanceAbove t' (AvlPath.reheight g path) ∧ Repairs l r f.key f.value t' := by
    intro l r hl hr hlr hrl
    obtain ⟨t', parent', heq, hrep, g, rfl⟩ :=
      balance_spec hl hr hlr hrl f.key f.value f.height path.head?
    refine ⟨t', g, ?_, hrep⟩
    cases path with
    | nil =>
      rw [List.head?_nil, Option.map_none] at heq
      simp only [avlTreeBalanceToRoot, heq, Option.bind_eq_bind, Option.bind_some,
        AvlPath.reheight, List.modifyHead_nil, avlTreeBalanceAbove]
    | cons f path =>
      rw [List.head?_cons, Option.map_some] at heq
      simp only [avlTreeBalanceToRoot, heq, Option.bind_eq_bind, Option.bind_some,
        AvlPath.reheight, List.modifyHead_cons, avlTreeBalanceAbove]
  obtain ⟨side, sib, k, v, h⟩ := f
  cases side with
  | left =>
    obtain ⟨t', g, heq, hbal, hlist, hle, hge, hstay⟩ := hround t sib ht hs hts hst
    rw [heightOver_eq] at hle hge hstay
    exact ⟨t', g, heq, hbal, by simpa [AvlPath.before, AvlPath.after] using hlist, hle,
      Int.le_of_add_le_add_right hge, hstay⟩
  | right =>
    obtain ⟨t', g, heq, hbal, hlist, hle, hge, hstay⟩ := hround sib t hs ht hst hts
    rw [heightOver_eq, max_comm] at hle hge hstay
    exact ⟨t', g, heq, hbal, by simpa [AvlPath.before, AvlPath.after] using hlist, hle,
      Int.le_of_add_le_add_right hge, fun h1 h2 => hstay h2 h1⟩

/-- The walk to the root after the subtree at the end of the path has changed by at most one
in height. -/
theorem balanceAbove_spec (ht : t.Balanced) (hn : n ≤ t.height + 1) (hn' : t.height ≤ n + 1)
    (hfits : path.Fits n) :
    ∃ root, avlTreeBalanceAbove t path = some root ∧ root.Balanced ∧
      root.toList = path.before ++ t.toList ++ path.after := by
  -- on the length, since the parent gets another height before its turn
  induction hlen : path.length generalizing path t n with
  | zero =>
    obtain rfl := List.length_eq_zero_iff.mp hlen
    exact ⟨t, rfl, ht, by simp [AvlPath.before, AvlPath.after]⟩
  | succ len ih =>
    obtain ⟨f, path, rfl⟩ := List.exists_cons_of_length_eq_add_one hlen
    obtain ⟨hs, hs1, hs2, hrest⟩ := hfits
    obtain ⟨t', g, heq, hbal, hlist, hle, hge, hstay⟩ :=
      balanceToRoot_round ht hs (by omega) (by omega) path
    have hlen' : (AvlPath.reheight g path).length = len := by
      rw [AvlPath.length_reheight]
      exact Nat.succ.inj hlen
    obtain ⟨root, hroot, hbal', hlist'⟩ :=
      ih hbal (by omega) (by omega) (AvlPath.fits_reheight.mpr hrest) hlen'
    refine ⟨root, heq.trans hroot, hbal', ?_⟩
    rw [hlist', hlist, AvlPath.before_reheight, AvlPath.after_reheight]
    simp [AvlPath.before, AvlPath.after]

end Path

end BaseCode.Comm
