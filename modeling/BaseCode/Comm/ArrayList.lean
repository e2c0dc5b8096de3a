import Mathlib.Algebra.Group.Int.Defs
import BaseCode.Comm.BinaryHeap

/-!
# The array list

`src/comm/arraylist.c`: values in an array that is doubled when it is full, put in and taken out
anywhere by moving what lies behind, and sorted in place. Cells are those of the binary heap's
array: reading one that was never written, an access outside the array and the overflow of an
`int` are a fault, `none`.
-/

namespace BaseCode.Comm
open Foundation

/-- `struct _ArrayList`. -/
structure ArrayList (α : Type) where
  data : List (Option α)
  length : Nat
  alloced : Nat

variable {α : Type}

/-- `none` for a null pointer. -/
def arraylistNew (length : Int) (structOk dataOk : Bool) : Option (ArrayList α) :=
  let length := if length ≤ 0 then 16 else length.toNat
  if structOk && dataOk then some ⟨List.replicate length none, 0, length⟩ else none

/-- `none` of the second kind: there is no memory. -/
def arraylistEnlarge (arraylist : ArrayList α) (reallocOk : Bool) :
    Option (Option (ArrayList α)) :=
  let newsize := arraylist.alloced * 2
  if newsize < 2 ^ 31 then
    if reallocOk then
      some (some { arraylist with
        data := arraylist.data ++ List.replicate (newsize - arraylist.data.length) none
        alloced := newsize })
    else some none
  else none

/-- The size is increased if necessary. -/
def arraylistReserve (arraylist : ArrayList α) (reallocOk : Bool) : Option (Option (ArrayList α)) :=
  if arraylist.alloced < arraylist.length + 1 then arraylistEnlarge arraylist reallocOk
  else some (some arraylist)

/-- `memmove` of `n` cells. -/
def moveCells (data : List (Option α)) (dst src n : Nat) : Option (List (Option α)) :=
  if dst + n ≤ data.length ∧ src + n ≤ data.length then
    some (data.take dst ++ (data.drop src).take n ++ data.drop (dst + n))
  else none

def arraylistInsert (arraylist : ArrayList α) (index : Int) (value : α) (reallocOk : Bool) :
    Option (Bool × ArrayList α) :=
  if index < 0 ∨ arraylist.length < index then some (false, arraylist)
  else if 2 ^ 31 ≤ arraylist.length + 1 then none
  else do
    match ← arraylistReserve arraylist reallocOk with
    | none => some (false, arraylist)
    | some arraylist =>
      let data ← moveCells arraylist.data (index.toNat + 1) index.toNat
        (arraylist.length - index.toNat)
      let data ← writeCell data index.toNat value
      some (true, { arraylist with data, length := arraylist.length + 1 })

def arraylistAppend (arraylist : ArrayList α) (value : α) (reallocOk : Bool) :
    Option (Bool × ArrayList α) :=
  arraylistInsert arraylist arraylist.length value reallocOk

def arraylistPrepend (arraylist : ArrayList α) (value : α) (reallocOk : Bool) :
    Option (Bool × ArrayList α) :=
  arraylistInsert arraylist 0 value reallocOk

def arraylistRemoveRange (arraylist : ArrayList α) (index length : Int) : Option (ArrayList α) :=
  if index < 0 ∨ length < 0 then some arraylist
  else if 2 ^ 31 ≤ index + length then none
  else if arraylist.length < index + length then some arraylist
  else do
    let behind := index.toNat + length.toNat
    let data ← moveCells arraylist.data index.toNat behind (arraylist.length - behind)
    some { arraylist with data, length := arraylist.length - length.toNat }

def arraylistRemove (arraylist : ArrayList α) (index : Int) : Option (ArrayList α) :=
  arraylistRemoveRange arraylist index 1

/-- The loop of `arraylist_index_of`, from `i` on; `none` of the second kind stands for -1. -/
def indexFrom (data : List (Option α)) (callback : α → α → Bool) (value : α) :
    Nat → Nat → Option (Option Nat)
  | 0, _ => some none
  | n + 1, i => do
    let x ← readCell data i
    if callback x value then some (some i) else indexFrom data callback value n (i + 1)

def arraylistIndexOf (arraylist : ArrayList α) (callback : α → α → Bool) (value : α) :
    Option (Option Nat) :=
  indexFrom arraylist.data callback value arraylist.length 0

def arraylistClear (arraylist : ArrayList α) : ArrayList α := { arraylist with length := 0 }

def swapCells (data : List (Option α)) (i j : Nat) : Option (List (Option α)) := do
  let tmp ← readCell data i
  let x ← readCell data j
  let data ← writeCell data i x
  writeCell data j tmp

/-- The loop that divides `list_data`, which begins at `base`; the array and the length of the
first list. -/
def sortSplit (compareFunc : α → α → Int) (pivot : α) (base : Nat) :
    Nat → List (Option α) → Nat → Nat → Option (List (Option α) × Nat)
  | 0, data, _, list1Length => some (data, list1Length)
  | n + 1, data, i, list1Length => do
    let x ← readCell data (base + i)
    if compareFunc x pivot < 0 then
      let data ← swapCells data (base + i) (base + list1Length)
      sortSplit compareFunc pivot base n data (i + 1) (list1Length + 1)
    else sortSplit compareFunc pivot base n data (i + 1) list1Length

/-- The fuel bounds the recursion. -/
def arraylistSortInternal (compareFunc : α → α → Int) :
    Nat → List (Option α) → Nat → Nat → Option (List (Option α))
  | 0, _, _, _ => none
  | fuel + 1, data, base, listLength =>
    if listLength ≤ 1 then some data
    else do
      let pivot ← readCell data (base + (listLength - 1))
      let (data, list1Length) ← sortSplit compareFunc pivot base (listLength - 1) data 0 0
      let list2Length := listLength - list1Length - 1
      let x ← readCell data (base + list1Length)
      let data ← writeCell data (base + (listLength - 1)) x
      let data ← writeCell data (base + list1Length) pivot
      let data ← arraylistSortInternal compareFunc fuel data base list1Length
      arraylistSortInternal compareFunc fuel data (base + list1Length + 1) list2Length

def arraylistSort (arraylist : ArrayList α) (compareFunc : α → α → Int) :
    Option (ArrayList α) := do
  let data ← arraylistSortInternal compareFunc (arraylist.length + 1) arraylist.data 0
    arraylist.length
  some { arraylist with data }

section Cells

variable {as bs cs : List (Option α)} {o : Option α} {x y : α} {i j : Nat}

theorem readCell_middle (h : as.length = i) : readCell (as ++ some x :: bs) i = some x := by
  rw [readCell, List.getElem?_append_right (Nat.le_of_eq h), h, Nat.sub_self]
  rfl

theorem writeCell_middle (h : as.length = i) :
    writeCell (as ++ o :: bs) i y = some (as ++ some y :: bs) := by
  have hlt : i < (as ++ o :: bs).length := by
    rw [List.length_append, List.length_cons]
    omega
  rw [writeCell, if_pos hlt, List.set_append_right _ _ (Nat.le_of_eq h), h, Nat.sub_self]
  rfl

theorem swapCells_same (h : as.length = i) :
    swapCells (as ++ some x :: bs) i i = some (as ++ some x :: bs) := by
  simp only [swapCells, readCell_middle h, writeCell_middle h, Option.bind_eq_bind,
    Option.bind_some]

theorem swapCells_middle (hj : as.length = j) (hi : j + 1 + bs.length = i) :
    swapCells (as ++ some y :: (bs ++ some x :: cs)) i j =
      some (as ++ some x :: (bs ++ some y :: cs)) := by
  have hlen (z : α) : (as ++ some z :: bs).length = i := by
    rw [List.length_append, List.length_cons, hj]
    omega
  have hassoc (z w : α) :
      as ++ some z :: (bs ++ some w :: cs) = as ++ some z :: bs ++ some w :: cs := by
    rw [List.append_assoc, List.cons_append]
  have hread : readCell (as ++ some y :: (bs ++ some x :: cs)) i = some x := by
    rw [hassoc]
    exact readCell_middle (hlen y)
  have hwrite : writeCell (as ++ some y :: (bs ++ some x :: cs)) i y =
      some (as ++ some y :: (bs ++ some y :: cs)) := by
    rw [hassoc, hassoc]
    exact writeCell_middle (hlen y)
  simp only [swapCells, hread, readCell_middle hj, hwrite, writeCell_middle hj,
    Option.bind_eq_bind, Option.bind_some]

end Cells

section Sorting

variable {c : Comparator α} {pre post : List (Option α)} {xs ls gs rest : List α} {pivot : α}
  {i : Nat}

/-- The cells in front and behind stay as they are, those between hold a rearrangement: first
what comes before the pivot, and then the rest. -/
theorem sortSplit_spec (hls : ∀ a ∈ ls, c.compare a pivot < 0)
    (hgs : ∀ a ∈ gs, ¬ c.compare a pivot < 0) :
    ∃ ls' gs' : List α, sortSplit c.compare pivot pre.length rest.length
        (pre ++ ((ls ++ gs ++ rest).map some ++ post)) (ls.length + gs.length) ls.length =
          some (pre ++ ((ls' ++ gs').map some ++ post), ls'.length) ∧
      (ls' ++ gs').Perm (ls ++ gs ++ rest) ∧ (∀ a ∈ ls', c.compare a pivot < 0) ∧
      ∀ a ∈ gs', ¬ c.compare a pivot < 0 := by
  induction rest generalizing ls gs with
  | nil =>
    refine ⟨ls, gs, ?_, ?_, hls, hgs⟩
    · rw [List.append_nil]
      rfl
    · rw [List.append_nil]
  | cons x rest ih =>
    have hread : readCell (pre ++ ((ls ++ gs ++ x :: rest).map some ++ post))
        (pre.length + (ls.length + gs.length)) = some x := by
      have hsplit : pre ++ ((ls ++ gs ++ x :: rest).map some ++ post) =
          (pre ++ (ls ++ gs).map some) ++ some x :: (rest.map some ++ post) := by
        simp only [List.map_append, List.map_cons, List.append_assoc, List.cons_append]
      rw [hsplit]
      apply readCell_middle
      rw [List.length_append, List.length_map, List.length_append]
    by_cases hx : c.compare x pivot < 0
    · have hls' : ∀ a ∈ ls ++ [x], c.compare a pivot < 0 :=
        List.forall_mem_append.mpr ⟨hls, List.forall_mem_singleton.mpr hx⟩
      obtain ⟨gs₁, hswap, hlen, hperm₁, hgs₁⟩ : ∃ gs₁ : List α,
          swapCells (pre ++ ((ls ++ gs ++ x :: rest).map some ++ post))
              (pre.length + (ls.length + gs.length)) (pre.length + ls.length) =
            some (pre ++ ((ls ++ [x] ++ gs₁ ++ rest).map some ++ post)) ∧
          gs₁.length = gs.length ∧ (ls ++ [x] ++ gs₁ ++ rest).Perm (ls ++ gs ++ x :: rest) ∧
          ∀ a ∈ gs₁, ¬ c.compare a pivot < 0 := by
        have hpre : (pre ++ ls.map some).length = pre.length + ls.length := by
          rw [List.length_append, List.length_map]
        cases gs with
        | nil =>
          refine ⟨[], ?_, rfl, ?_, hgs⟩
          · have hcells : swapCells (pre ++ ls.map some ++ some x :: (rest.map some ++ post))
                (pre.length + ls.length) (pre.length + ls.length) = _ := swapCells_same hpre
            simpa only [List.append_nil, List.map_append, List.map_cons, List.map_nil,
              List.append_assoc, List.cons_append, List.nil_append, List.length_nil,
              Nat.add_zero] using hcells
          · simp only [List.append_nil, List.append_assoc, List.singleton_append]
            exact .refl _
        | cons g gs =>
          refine ⟨gs ++ [g], ?_, ?_, ?_, ?_⟩
          · have hbehind : pre.length + ls.length + 1 + (gs.map some).length =
                pre.length + (ls.length + (gs.length + 1)) := by
              rw [List.length_map]
              omega
            have hcells : swapCells (pre ++ ls.map some ++
                some g :: (gs.map some ++ some x :: (rest.map some ++ post)))
                (pre.length + (ls.length + (gs.length + 1))) (pre.length + ls.length) = _ :=
              swapCells_middle hpre hbehind
            simpa only [List.map_append, List.map_cons, List.map_nil, List.append_assoc,
              List.cons_append, List.nil_append, List.length_cons] using hcells
          · rw [List.length_append, List.length_singleton, List.length_cons]
          · classical
            refine List.perm_iff_count.mpr fun a => ?_
            simp only [List.count_append, List.count_cons, List.count_nil]
            omega
          · intro a ha
            refine hgs a ?_
            rw [List.mem_append, List.mem_singleton] at ha
            exact List.mem_cons.mpr ha.symm
      obtain ⟨ls', gs', heq, hperm, hout, hin⟩ := ih hls' hgs₁
      refine ⟨ls', gs', ?_, hperm.trans hperm₁, hout, hin⟩
      have hi : (ls ++ [x]).length + gs₁.length = ls.length + gs.length + 1 := by
        rw [List.length_append, List.length_singleton, hlen]
        omega
      rw [hi, List.length_append, List.length_singleton] at heq
      simp only [List.length_cons, sortSplit, hread, Option.bind_eq_bind, Option.bind_some,
        if_pos hx, hswap]
      exact heq
    · have hgs' : ∀ a ∈ gs ++ [x], ¬ c.compare a pivot < 0 :=
        List.forall_mem_append.mpr ⟨hgs, List.forall_mem_singleton.mpr hx⟩
      obtain ⟨ls', gs', heq, hperm, hls', hgs''⟩ := ih hls hgs'
      have hassoc : ls ++ (gs ++ [x]) ++ rest = ls ++ gs ++ x :: rest := by
        rw [← List.append_assoc, List.append_assoc, List.singleton_append]
      rw [hassoc, List.length_append, List.length_singleton, ← Nat.add_assoc] at heq
      rw [hassoc] at hperm
      refine ⟨ls', gs', ?_, hperm, hls', hgs''⟩
      simp only [List.length_cons, sortSplit, hread, Option.bind_eq_bind, Option.bind_some,
        if_neg hx]
      exact heq

/-- The pivot changes places with what follows the first list. -/
theorem pivot_spec (pre post : List (Option α)) (pivot : α)
    (hlen : pre.length + (ls.length + gs.length) = i) :
    ∃ (gs' : List α) (x : α), gs'.Perm gs ∧
      readCell (pre ++ ((ls ++ gs).map some ++ some pivot :: post)) (pre.length + ls.length) =
        some x ∧
      (writeCell (pre ++ ((ls ++ gs).map some ++ some pivot :: post)) i x).bind
          (writeCell · (pre.length + ls.length) pivot) =
        some (pre ++ (ls.map some ++ some pivot :: (gs'.map some ++ post))) := by
  have hpre : (pre ++ ls.map some).length = pre.length + ls.length := by
    rw [List.length_append, List.length_map]
  cases gs with
  | nil =>
    have hi : i = pre.length + ls.length := hlen.symm
    have hcells : pre ++ ((ls ++ []).map some ++ some pivot :: post) =
        pre ++ ls.map some ++ some pivot :: post := by
      rw [List.append_nil, List.append_assoc]
    rw [hcells]
    refine ⟨[], pivot, .nil, readCell_middle hpre, ?_⟩
    rw [hi, writeCell_middle hpre, Option.bind_some, writeCell_middle hpre, List.append_assoc]
    rfl
  | cons g gs =>
    have hcells (y z : α) : pre ++ (ls.map some ++ some y :: (gs.map some ++ some z :: post)) =
        pre ++ ls.map some ++ some y :: gs.map some ++ some z :: post := by
      simp only [List.append_assoc, List.cons_append]
    have hmap : pre ++ ((ls ++ g :: gs).map some ++ some pivot :: post) =
        pre ++ (ls.map some ++ some g :: (gs.map some ++ some pivot :: post)) := by
      simp only [List.map_append, List.map_cons, List.append_assoc, List.cons_append]
    have hi (y : α) : (pre ++ ls.map some ++ some y :: gs.map some).length = i := by
      rw [← hlen, List.length_append, hpre, List.length_cons, List.length_cons, List.length_map]
      omega
    rw [hmap]
    refine ⟨gs ++ [g], g, List.perm_append_singleton g gs, ?_, ?_⟩
    · rw [← List.append_assoc]
      exact readCell_middle hpre
    · rw [hcells, writeCell_middle (hi g), ← hcells, Option.bind_some, ← List.append_assoc,
        writeCell_middle hpre]
      simp only [List.map_append, List.map_cons, List.map_nil, List.append_assoc, List.cons_append,
        List.nil_append]

theorem arraylistSortInternal_spec {fuel : Nat} (hfuel : xs.length < fuel) :
    ∃ ys : List α, arraylistSortInternal c.compare fuel (pre ++ (xs.map some ++ post)) pre.length
        xs.length = some (pre ++ (ys.map some ++ post)) ∧
      ys.Perm xs ∧ ys.Pairwise c.Le := by
  induction fuel generalizing pre xs post with
  | zero => exact absurd hfuel (Nat.not_lt_zero _)
  | succ fuel ih =>
    by_cases hone : xs.length ≤ 1
    · refine ⟨xs, ?_, .refl xs, ?_⟩
      · rw [arraylistSortInternal, if_pos hone]
      · cases xs with
        | nil => exact .nil
        | cons x xs =>
          have hnil : xs.length = 0 := by
            rw [List.length_cons] at hone
            omega
          rw [List.eq_nil_of_length_eq_zero hnil]
          exact List.pairwise_singleton _ x
    · obtain ⟨rest, pivot, rfl⟩ : ∃ rest pivot, xs = rest ++ [pivot] := by
        refine List.eq_nil_or_concat' xs |>.resolve_left fun hnil => hone ?_
        rw [hnil]
        exact Nat.zero_le 1
      have hlen : (rest ++ [pivot]).length - 1 = rest.length := by
        rw [List.length_append, List.length_singleton, Nat.add_sub_cancel]
      have hcells : pre ++ ((rest ++ [pivot]).map some ++ post) =
          pre ++ (rest.map some ++ some pivot :: post) := by
        simp only [List.map_append, List.map_cons, List.map_nil, List.append_assoc,
          List.cons_append, List.nil_append]
      have hread : readCell (pre ++ (rest.map some ++ some pivot :: post))
          (pre.length + rest.length) = some pivot := by
        rw [← List.append_assoc]
        apply readCell_middle
        rw [List.length_append, List.length_map]
      have hsplit : ∃ ls gs : List α, sortSplit c.compare pivot pre.length rest.length
            (pre ++ (rest.map some ++ some pivot :: post)) 0 0 =
              some (pre ++ ((ls ++ gs).map some ++ some pivot :: post), ls.length) ∧
          (ls ++ gs).Perm rest ∧ (∀ a ∈ ls, c.compare a pivot < 0) ∧
          ∀ a ∈ gs, ¬ c.compare a pivot < 0 :=
        sortSplit_spec (fun a ha => absurd ha List.not_mem_nil)
          (fun a ha => absurd ha List.not_mem_nil)
      obtain ⟨ls, gs, hsplit, hperm, hls, hgs⟩ := hsplit
      have hsum := hperm.length_eq
      rw [List.length_append] at hsum
      obtain ⟨gs', x, hgs', hx, hwrite⟩ := pivot_spec pre post pivot
        (congrArg (pre.length + ·) hsum)
      have hxs : (rest ++ [pivot]).length = rest.length + 1 := by
        rw [List.length_append, List.length_singleton]
      have hsecond : (rest ++ [pivot]).length - ls.length - 1 = gs'.length := by
        rw [hgs'.length_eq]
        omega
      obtain ⟨ys, hys, hysp, hyss⟩ := @ih pre
        (some pivot :: (gs'.map some ++ post)) ls (by omega)
      obtain ⟨zs, hzs, hzsp, hzss⟩ := @ih (pre ++ (ys.map some ++ [some pivot])) post gs' (by
        rw [hgs'.length_eq]
        omega)
      have hbase : (pre ++ (ys.map some ++ [some pivot])).length = pre.length + ls.length + 1 := by
        rw [List.length_append, List.length_append, List.length_map, List.length_singleton,
          hysp.length_eq]
        omega
      have hcells' (zs : List α) : pre ++ (ys.map some ++ some pivot :: (zs.map some ++ post)) =
          pre ++ (ys.map some ++ [some pivot]) ++ (zs.map some ++ post) := by
        simp only [List.append_assoc, List.singleton_append]
      refine ⟨ys ++ pivot :: zs, ?_, ?_, ?_⟩
      · obtain ⟨data, hdata, hdata'⟩ := Option.bind_eq_some_iff.mp hwrite
        rw [arraylistSortInternal, if_neg hone, hlen, hcells]
        simp only [hread, hsplit, hx, hdata, hdata', hys, hsecond, Option.bind_eq_bind,
          Option.bind_some]
        rw [hcells', ← hbase, hzs, ← hcells']
        simp only [List.map_append, List.map_cons, List.append_assoc, List.cons_append]
      · refine (List.perm_middle.trans ?_).trans (List.perm_append_singleton pivot rest).symm
        exact .cons _ ((hysp.append (hzsp.trans hgs')).trans hperm)
      · have hbefore : ∀ a ∈ ys, c.Le a pivot := fun a ha =>
          Comparator.le_of_lt (hls a (hysp.mem_iff.mp ha))
        have hafter : ∀ b ∈ zs, c.Le pivot b := fun b hb =>
          Comparator.not_lt_iff.mp (hgs b (hgs'.mem_iff.mp (hzsp.mem_iff.mp hb)))
        refine List.pairwise_append.mpr ⟨hyss, List.pairwise_cons.mpr ⟨hafter, hzss⟩, ?_⟩
        intro a ha b hb
        cases List.mem_cons.mp hb with
        | inl heq => rw [heq]; exact hbefore a ha
        | inr hb => exact Comparator.le_trans (hbefore a ha) (hafter b hb)

end Sorting

theorem moveCells_insert (as bs spare : List (Option α)) (o : Option α) :
    ∃ y, moveCells (as ++ (bs ++ o :: spare)) (as.length + 1) as.length bs.length =
      some (as ++ y :: (bs ++ spare)) := by
  obtain ⟨y, tail, hcons⟩ : ∃ y tail, bs ++ o :: spare = y :: tail :=
    List.exists_cons_of_ne_nil (List.append_ne_nil_of_right_ne_nil bs (List.cons_ne_nil o spare))
  have hlen : (as ++ (bs ++ o :: spare)).length = as.length + bs.length + spare.length + 1 := by
    simp only [List.length_append, List.length_cons]
    omega
  have htake : (as ++ (bs ++ o :: spare)).take (as.length + 1) = as ++ [y] := by
    rw [hcons, List.take_length_add_append]
    rfl
  have hdrop : (as ++ (bs ++ o :: spare)).drop (as.length + 1 + bs.length) = spare := by
    rw [Nat.add_assoc, List.drop_length_add_append, Nat.add_comm, List.drop_length_add_append]
    rfl
  refine ⟨y, ?_⟩
  rw [moveCells, if_pos (by omega), htake, hdrop, List.drop_left, List.take_left]
  simp only [List.append_assoc, List.cons_append, List.nil_append]

theorem moveCells_remove (as ms bs spare : List (Option α)) :
    ∃ rest, moveCells (as ++ (ms ++ (bs ++ spare))) as.length (as.length + ms.length) bs.length =
        some (as ++ (bs ++ rest)) ∧
      (as ++ (bs ++ rest)).length = (as ++ (ms ++ (bs ++ spare))).length := by
  have hlen : (as ++ (ms ++ (bs ++ spare))).length =
      as.length + ms.length + bs.length + spare.length := by
    simp only [List.length_append]
    omega
  refine ⟨(as ++ (ms ++ (bs ++ spare))).drop (as.length + bs.length), ?_, ?_⟩
  · rw [moveCells, if_pos (by omega), List.take_left, List.drop_length_add_append, List.drop_left,
      List.take_left, List.append_assoc]
  · rw [List.length_append, List.length_append, List.length_drop]
    omega

inductive ArrayListCall (α : Type) where
  | insert (index : Int) (value : α) (reallocOk : Bool)
  | append (value : α) (reallocOk : Bool)
  | prepend (value : α) (reallocOk : Bool)
  | removeRange (index length : Int) (hint : index + length < 2 ^ 31)
  | remove (index : Int) (hint : index + 1 < 2 ^ 31)
  | indexOf (callback : α → α → Bool) (value : α)
  | clear
  | sort (c : Comparator α)

inductive ArrayListAnswer where
  | inserted (result : Bool)
  | done
  | found (index : Option Nat)

def arraylistCall (arraylist : ArrayList α) :
    ArrayListCall α → Option (ArrayListAnswer × ArrayList α)
  | .insert index value reallocOk =>
    (arraylistInsert arraylist index value reallocOk).map fun r => (.inserted r.1, r.2)
  | .append value reallocOk =>
    (arraylistAppend arraylist value reallocOk).map fun r => (.inserted r.1, r.2)
  | .prepend value reallocOk =>
    (arraylistPrepend arraylist value reallocOk).map fun r => (.inserted r.1, r.2)
  | .removeRange index length _ =>
    (arraylistRemoveRange arraylist index length).map fun arraylist => (.done, arraylist)
  | .remove index _ => (arraylistRemove arraylist index).map fun arraylist => (.done, arraylist)
  | .indexOf callback value =>
    (arraylistIndexOf arraylist callback value).map fun index => (.found index, arraylist)
  | .clear => some (.done, arraylistClear arraylist)
  | .sort c => (arraylistSort arraylist c.compare).map fun arraylist => (.done, arraylist)

/-- What a call answers on a list of values, and the list after it. -/
inductive ArrayListMeaning :
    List α → ArrayListCall α → ArrayListAnswer → List α → Prop
  | insert {as bs value reallocOk} :
      ArrayListMeaning (as ++ bs) (.insert as.length value reallocOk) (.inserted true)
        (as ++ value :: bs)
  | insertOutside {xs index value reallocOk} (h : index < 0 ∨ xs.length < index) :
      ArrayListMeaning xs (.insert index value reallocOk) (.inserted false) xs
  | insertFails {xs index value} :
      ArrayListMeaning xs (.insert index value false) (.inserted false) xs
  | append {xs value reallocOk r ys}
      (h : ArrayListMeaning xs (.insert xs.length value reallocOk) r ys) :
      ArrayListMeaning xs (.append value reallocOk) r ys
  | prepend {xs value reallocOk r ys} (h : ArrayListMeaning xs (.insert 0 value reallocOk) r ys) :
      ArrayListMeaning xs (.prepend value reallocOk) r ys
  | removeRange {as ms bs hint} :
      ArrayListMeaning (as ++ (ms ++ bs)) (.removeRange as.length ms.length hint) .done (as ++ bs)
  | removeOutside {xs index length hint}
      (h : index < 0 ∨ length < 0 ∨ (xs.length : Int) < index + length) :
      ArrayListMeaning xs (.removeRange index length hint) .done xs
  | remove {xs index hint ys} (h : ArrayListMeaning xs (.removeRange index 1 hint) .done ys) :
      ArrayListMeaning xs (.remove index hint) .done ys
  | indexOf {xs callback value} :
      ArrayListMeaning xs (.indexOf callback value)
        (.found (xs.findIdx? fun x => callback x value)) xs
  | clear {xs} : ArrayListMeaning xs .clear .done []
  | sort {xs ys} {c : Comparator α} (hperm : ys.Perm xs) (hsorted : ys.Pairwise c.Le) :
      ArrayListMeaning xs (.sort c) .done ys

/-- The values fill the front of the array. -/
structure ArrayListHolds (arraylist : ArrayList α) (xs : List α) : Prop where
  cells : ∃ spare, arraylist.data = xs.map some ++ spare
  length_eq : arraylist.length = xs.length
  alloced_eq : arraylist.alloced = arraylist.data.length
  alloced_pos : 0 < arraylist.alloced

section Calls

variable {arraylist : ArrayList α} {xs : List α}

theorem ArrayListHolds.new {length : Int} {structOk dataOk : Bool}
    (h : arraylistNew length structOk dataOk = some arraylist) : ArrayListHolds arraylist [] := by
  rw [arraylistNew] at h
  obtain ⟨-, h⟩ := Option.ite_none_right_eq_some.mp h
  obtain rfl := Option.some.inj h
  refine ⟨⟨_, rfl⟩, rfl, List.length_replicate.symm, ?_⟩
  show 0 < if length ≤ 0 then 16 else length.toNat
  split <;> omega

/-- Room for another value, or no memory for it. -/
theorem arraylistReserve_spec (h : ArrayListHolds arraylist xs) (hlen : xs.length < 2 ^ 30)
    (reallocOk : Bool) :
    (arraylistReserve arraylist reallocOk = some none ∧ reallocOk = false) ∨
      ∃ arraylist', arraylistReserve arraylist reallocOk = some (some arraylist') ∧
        ArrayListHolds arraylist' xs ∧ xs.length < arraylist'.data.length := by
  obtain ⟨spare, hdata⟩ := h.cells
  have hle : xs.length ≤ arraylist.data.length := by
    rw [hdata, List.length_append, List.length_map]
    omega
  have halloced := h.alloced_eq
  have hlength := h.length_eq
  have hpos := h.alloced_pos
  rw [arraylistReserve]
  split
  · have hint : arraylist.alloced * 2 < 2 ^ 31 := by omega
    cases reallocOk with
    | false =>
      refine .inl ⟨?_, rfl⟩
      simp only [arraylistEnlarge, if_pos hint, Bool.false_eq_true, if_false]
    | true =>
      have hnew : (arraylist.data ++ List.replicate (arraylist.alloced * 2 - arraylist.data.length)
          none).length = arraylist.alloced * 2 := by
        rw [List.length_append, List.length_replicate]
        omega
      obtain ⟨more, hmore⟩ : ∃ more : List (Option α),
          more = List.replicate (arraylist.alloced * 2 - arraylist.data.length) none := ⟨_, rfl⟩
      rw [← hmore] at hnew
      refine .inr ⟨⟨arraylist.data ++ more, arraylist.length, arraylist.alloced * 2⟩, ?_,
        ⟨⟨spare ++ more, ?_⟩, hlength, hnew.symm, ?_⟩, ?_⟩
      · simp only [arraylistEnlarge, if_pos hint, if_true, hmore]
      · show arraylist.data ++ more = _
        rw [← List.append_assoc, ← hdata]
      · show 0 < arraylist.alloced * 2
        omega
      · rw [hnew]
        omega
  · exact .inr ⟨arraylist, rfl, h, by omega⟩

theorem arraylistInsert_spec (h : ArrayListHolds arraylist xs) (hlen : xs.length < 2 ^ 30)
    (index : Int) (value : α) (reallocOk : Bool) :
    ∃ result arraylist' ys, arraylistInsert arraylist index value reallocOk =
        some (result, arraylist') ∧
      ArrayListMeaning xs (.insert index value reallocOk) (.inserted result) ys ∧
      ArrayListHolds arraylist' ys := by
  by_cases hout : index < 0 ∨ arraylist.length < index
  · refine ⟨false, arraylist, xs, ?_, .insertOutside ?_, h⟩
    · rw [arraylistInsert, if_pos hout]
    · rwa [h.length_eq] at hout
  have hint : ¬ 2 ^ 31 ≤ arraylist.length + 1 := by
    rw [h.length_eq]
    omega
  rw [arraylistInsert, if_neg hout, if_neg hint]
  cases arraylistReserve_spec h hlen reallocOk with
  | inl hfails =>
    obtain ⟨hfull, rfl⟩ := hfails
    rw [hfull, Option.bind_eq_bind, Option.bind_some]
    exact ⟨false, arraylist, xs, rfl, .insertFails, h⟩
  | inr hroom =>
    obtain ⟨arraylist', hroom, h', hlt⟩ := hroom
    rw [hroom, Option.bind_eq_bind, Option.bind_some]
    obtain ⟨spare, hdata⟩ := h'.cells
    rw [h.length_eq] at hout
    -- the values in front of the index and from it on
    obtain ⟨as, bs, rfl, hindex⟩ : ∃ as bs, xs = as ++ bs ∧ index = as.length := by
      refine ⟨xs.take index.toNat, xs.drop index.toNat, (List.take_append_drop _ _).symm, ?_⟩
      rw [List.length_take]
      omega
    obtain ⟨o, spare, rfl⟩ : ∃ o rest, spare = o :: rest := by
      refine List.exists_cons_of_ne_nil ?_
      rintro rfl
      rw [hdata, List.append_nil, List.length_map] at hlt
      exact Nat.lt_irrefl _ hlt
    have htoNat : index.toNat = (as.map some).length := by
      rw [hindex, List.length_map, Int.toNat_natCast]
    have hbehind : arraylist'.length - (as.map some).length = (bs.map some).length := by
      rw [h'.length_eq, List.length_append, List.length_map, List.length_map]
      omega
    obtain ⟨y, hmove⟩ := moveCells_insert (as.map some) (bs.map some) spare o
    rw [← List.append_assoc, ← List.map_append, ← hdata] at hmove
    subst hindex
    refine ⟨true, ⟨as.map some ++ some value :: (bs.map some ++ spare), arraylist'.length + 1,
      arraylist'.alloced⟩, as ++ value :: bs, ?_, .insert, ?_⟩
    · simp only [Option.bind_eq_bind, Option.bind_some, hbehind, htoNat, hmove, writeCell_middle]
    · have hcells : (as ++ value :: bs).map some ++ spare =
          as.map some ++ some value :: (bs.map some ++ spare) := by
        simp only [List.map_append, List.map_cons, List.append_assoc, List.cons_append]
      refine ⟨⟨spare, hcells.symm⟩, ?_, ?_, h'.alloced_pos⟩
      · show arraylist'.length + 1 = _
        rw [h'.length_eq, List.length_append, List.length_append, List.length_cons, Nat.add_assoc]
      · show arraylist'.alloced = _
        rw [h'.alloced_eq, hdata]
        simp only [List.length_append, List.length_map, List.length_cons]
        omega

theorem arraylistRemoveRange_spec (h : ArrayListHolds arraylist xs) (index length : Int)
    (hint : index + length < 2 ^ 31) :
    ∃ arraylist' ys, arraylistRemoveRange arraylist index length = some arraylist' ∧
      ArrayListMeaning xs (.removeRange index length hint) .done ys ∧
      ArrayListHolds arraylist' ys := by
  by_cases hneg : index < 0 ∨ length < 0
  · refine ⟨arraylist, xs, ?_, .removeOutside (hneg.imp_right .inl), h⟩
    rw [arraylistRemoveRange, if_pos hneg]
  by_cases hout : (arraylist.length : Int) < index + length
  · refine ⟨arraylist, xs, ?_, .removeOutside (.inr (.inr (h.length_eq ▸ hout))), h⟩
    rw [arraylistRemoveRange, if_neg hneg, if_neg (by omega), if_pos hout]
  rw [arraylistRemoveRange, if_neg hneg, if_neg (by omega), if_neg hout]
  obtain ⟨spare, hdata⟩ := h.cells
  rw [h.length_eq] at hout
  -- the values in front of the range, in it and behind it
  obtain ⟨as, ms, bs, rfl, hindex, hlength⟩ : ∃ as ms bs, xs = as ++ (ms ++ bs) ∧
      index = as.length ∧ length = ms.length := by
    refine ⟨xs.take index.toNat, (xs.drop index.toNat).take length.toNat,
      (xs.drop index.toNat).drop length.toNat, ?_, ?_, ?_⟩
    · rw [List.take_append_drop, List.take_append_drop]
    · rw [List.length_take]
      omega
    · rw [List.length_take, List.length_drop]
      omega
  have hfirst : index.toNat = (as.map some).length := by
    rw [hindex, List.length_map, Int.toNat_natCast]
  have hrange : length.toNat = (ms.map some).length := by
    rw [hlength, List.length_map, Int.toNat_natCast]
  have hbehind : arraylist.length - ((as.map some).length + (ms.map some).length) =
      (bs.map some).length := by
    rw [h.length_eq]
    simp only [List.length_append, List.length_map]
    omega
  obtain ⟨rest, hmove, hsame⟩ := moveCells_remove (as.map some) (ms.map some) (bs.map some) spare
  have hcells : as.map some ++ (ms.map some ++ (bs.map some ++ spare)) = arraylist.data := by
    rw [hdata]
    simp only [List.map_append, List.append_assoc]
  rw [hcells] at hmove hsame
  subst hindex hlength
  refine ⟨⟨as.map some ++ (bs.map some ++ rest), arraylist.length - (ms.map some).length,
    arraylist.alloced⟩, as ++ bs, ?_, .removeRange, ?_⟩
  · simp only [hfirst, hrange, hbehind, hmove, Option.bind_eq_bind, Option.bind_some]
  · refine ⟨⟨rest, ?_⟩, ?_, ?_, h.alloced_pos⟩
    · rw [List.map_append, List.append_assoc]
    · show arraylist.length - _ = _
      rw [h.length_eq]
      simp only [List.length_append, List.length_map]
      omega
    · show arraylist.alloced = _
      rw [h.alloced_eq, hsame]

/-- The search goes through what is behind the values that were no match. -/
theorem indexFrom_eq (callback : α → α → Bool) (value : α) (as bs : List α)
    (spare : List (Option α)) :
    indexFrom ((as ++ bs).map some ++ spare) callback value bs.length as.length =
      some ((bs.findIdx? fun x => callback x value).map (as.length + ·)) := by
  induction bs generalizing as with
  | nil => rfl
  | cons x bs ih =>
    have hread : readCell ((as ++ x :: bs).map some ++ spare) as.length = some x := by
      rw [List.map_append, List.append_assoc]
      exact readCell_middle (List.length_map some)
    have hrest := ih (as ++ [x])
    rw [List.append_assoc, List.singleton_append, List.length_append,
      List.length_singleton] at hrest
    simp only [List.length_cons, indexFrom, hread, Option.bind_eq_bind, Option.bind_some,
      List.findIdx?_cons, hrest]
    split
    · rfl
    · rw [Option.map_map]
      refine congrArg (fun f => some (Option.map f _)) (funext fun i => ?_)
      show as.length + 1 + i = as.length + (i + 1)
      omega

theorem arraylistIndexOf_eq (h : ArrayListHolds arraylist xs) (callback : α → α → Bool)
    (value : α) :
    arraylistIndexOf arraylist callback value = some (xs.findIdx? fun x => callback x value) := by
  obtain ⟨spare, hdata⟩ := h.cells
  have hsearch := indexFrom_eq callback value [] xs spare
  rw [List.nil_append, ← hdata, ← h.length_eq] at hsearch
  rw [arraylistIndexOf]
  refine hsearch.trans ?_
  simp only [List.length_nil, Nat.zero_add, Option.map_id']

theorem arraylistSort_spec (h : ArrayListHolds arraylist xs) (c : Comparator α) :
    ∃ arraylist' ys, arraylistSort arraylist c.compare = some arraylist' ∧
      ArrayListMeaning xs (.sort c) .done ys ∧ ArrayListHolds arraylist' ys := by
  obtain ⟨spare, hdata⟩ := h.cells
  obtain ⟨ys, hsort, hperm, hsorted⟩ :=
    @arraylistSortInternal_spec α c [] spare xs (xs.length + 1) (Nat.lt_succ_self _)
  rw [List.nil_append, List.nil_append, ← hdata, List.length_nil, ← h.length_eq] at hsort
  refine ⟨⟨ys.map some ++ spare, arraylist.length, arraylist.alloced⟩, ys, ?_, .sort hperm hsorted,
    ⟨spare, rfl⟩, ?_, ?_, h.alloced_pos⟩
  · simp only [arraylistSort, hsort, Option.bind_eq_bind, Option.bind_some]
  · exact h.length_eq.trans hperm.length_eq.symm
  · show arraylist.alloced = _
    rw [h.alloced_eq, hdata, List.length_append, List.length_append, List.length_map,
      List.length_map, hperm.length_eq]

theorem arraylistCall_spec (arraylist : ArrayList α) (xs : List α)
    (call : ArrayListCall α) (h : ArrayListHolds arraylist xs) (hlen : xs.length < 2 ^ 30) :
    ∃ r arraylist' ys, arraylistCall arraylist call = some (r, arraylist') ∧
      ArrayListMeaning xs call r ys ∧ ArrayListHolds arraylist' ys := by
  cases call with
  | insert index value reallocOk =>
    obtain ⟨result, arraylist', ys, heq, hm, h'⟩ :=
      arraylistInsert_spec h hlen index value reallocOk
    exact ⟨_, arraylist', ys, by rw [arraylistCall, heq, Option.map_some], hm, h'⟩
  | append value reallocOk =>
    obtain ⟨result, arraylist', ys, heq, hm, h'⟩ :=
      arraylistInsert_spec h hlen xs.length value reallocOk
    rw [← h.length_eq] at heq
    exact ⟨_, arraylist', ys, by rw [arraylistCall, arraylistAppend, heq, Option.map_some],
      .append hm, h'⟩
  | prepend value reallocOk =>
    obtain ⟨result, arraylist', ys, heq, hm, h'⟩ := arraylistInsert_spec h hlen 0 value reallocOk
    exact ⟨_, arraylist', ys, by rw [arraylistCall, arraylistPrepend, heq, Option.map_some],
      .prepend hm, h'⟩
  | removeRange index length hint =>
    obtain ⟨arraylist', ys, heq, hm, h'⟩ := arraylistRemoveRange_spec h index length hint
    exact ⟨_, arraylist', ys, by rw [arraylistCall, heq, Option.map_some], hm, h'⟩
  | remove index hint =>
    obtain ⟨arraylist', ys, heq, hm, h'⟩ := arraylistRemoveRange_spec h index 1 hint
    exact ⟨_, arraylist', ys, by rw [arraylistCall, arraylistRemove, heq, Option.map_some],
      .remove hm, h'⟩
  | indexOf callback value =>
    refine ⟨_, arraylist, xs, ?_, .indexOf, h⟩
    rw [arraylistCall, arraylistIndexOf_eq h, Option.map_some]
  | clear =>
    obtain ⟨spare, hdata⟩ := h.cells
    exact ⟨_, _, [], rfl, .clear, ⟨_, rfl⟩, rfl, h.alloced_eq, h.alloced_pos⟩
  | sort c =>
    obtain ⟨arraylist', ys, heq, hm, h'⟩ := arraylistSort_spec h c
    exact ⟨_, arraylist', ys, by rw [arraylistCall, heq, Option.map_some], hm, h'⟩

end Calls

theorem ArrayListMeaning.length_le {xs ys : List α} {call : ArrayListCall α}
    {r : ArrayListAnswer} (h : ArrayListMeaning xs call r ys) : ys.length ≤ xs.length + 1 := by
  induction h with
  | insert =>
    simp only [List.length_append, List.length_cons]
    omega
  | removeRange =>
    simp only [List.length_append]
    omega
  | append _ ih | prepend _ ih | remove _ ih => exact ih
  | sort hperm => rw [hperm.length_eq]; exact Nat.le_succ _
  | clear => exact Nat.zero_le _
  | insertOutside | insertFails | removeOutside | indexOf => exact Nat.le_succ _

/-- Whatever calls are made on a new list, at most as many as there can be values, and whichever
allocations fail, no cell is read before it was written, nothing outside the array is touched, no
`int` overflows, and the answers are those of a list of values; sorting puts it in the order of
the comparison that the call was given. -/
theorem arraylist_answers_allowed {length : Int} {structOk dataOk : Bool}
    {arraylist : ArrayList α} (hnew : arraylistNew length structOk dataOk = some arraylist)
    (calls : List (ArrayListCall α)) (hlen : calls.length ≤ 2 ^ 30) :
    ∃ rs arraylist' xs, answers arraylistCall arraylist calls = some (rs, arraylist') ∧
      Allows ArrayListMeaning [] calls rs xs ∧ ArrayListHolds arraylist' xs :=
  exists_answers_within arraylistCall_spec (fun _ _ _ _ h => h.length_le) (.new hnew) calls
    (by rw [List.length_nil]; omega)

theorem arraylist_answers_allowed_grown :
    ∃ rs arraylist' xs, answers arraylistCall ⟨List.replicate 1 none, 0, 1⟩
        [.append 5 true, .prepend 7 true, .insert 1 6 false, .append 3 true,
          .sort Comparator.ints, .sort Comparator.ints.neg, .clear] = some (rs, arraylist') ∧
      Allows ArrayListMeaning []
        [.append 5 true, .prepend 7 true, .insert 1 6 false, .append 3 true,
          .sort Comparator.ints, .sort Comparator.ints.neg, .clear] rs xs ∧
      ArrayListHolds arraylist' xs :=
  arraylist_answers_allowed (show arraylistNew 1 true true = _ from rfl) _ (by simp)

end BaseCode.Comm
