import BaseCode.Comm.HashTableSpec
import BaseCode.Epoll.Frames
import BaseCode.Foundation.Directory
import BaseCode.Foundation.Runs

/-!
# The event table with the keys it really has

`base_epoll_ctl` stores the address of its parameter `event_fd` as the key, and the cell at that
address is read again by every later comparison and rehash. Here the keys are cell addresses,
every call brings the memory as it is then, and only the cell of the running call is known to
hold its descriptor. The table agrees with the kernel as long as the cells that a call reads
happen to hold what they held when their entries were made; when they do not, a call frees the
block of another descriptor.
-/

namespace BaseCode.Epoll
open Foundation Comm

/-- A `base_epoll_ctl` call: the address `cell` of its parameter, and the memory at the time of
the removal and of the insertion. -/
structure KeyCall where
  cell : Nat
  mem₁ : Nat → Int
  mem₂ : Nat → Int
  kernelOk : Bool
  op : CtlOp
  eventFd : Int
  arg : EventArg

namespace KeyCall

/-- What the cells hold when the table is searched: the parameter is in its own cell. -/
def reads₁ (l : KeyCall) : Nat → Int := Function.update l.mem₁ l.cell l.eventFd

def reads₂ (l : KeyCall) : Nat → Int := Function.update l.mem₂ l.cell l.eventFd

/-- ADD, MOD and DEL calls whose allocations succeed. Apart from what its state decides,
`epoll_ctl` refuses only additions. -/
def Allowed (l : KeyCall) : Prop :=
  0 < l.eventFd ∧ (l.op = .add ∨ (l.op = .mod ∨ l.op = .del) ∧ l.kernelOk = true)

def next (l : KeyCall) (epfd : Int) (s : Sys Nat) : Sys Nat :=
  (s.baseEpollCtl (cellKeys l.reads₁) (cellKeys l.reads₂) l.cell ⟨true, l.kernelOk, true, true⟩
    epfd l.op l.eventFd l.arg).2

end KeyCall

/-- A state in which `epfd` is about to be created: the number is not in the list, and the
kernel's next instance is unused. -/
structure Fresh (s : Sys Nat) (epfd : Int) : Prop where
  pos : 0 < epfd
  unlisted : ∀ n ∈ s.epollList, n.epollFd ≠ epfd
  unused : ∀ x, s.kernel.interest s.kernel.instances x = none
  live_lt : ∀ p, s.blocks.Live p → p < s.blocks.next

/-- Calls on one epoll made by `base_epoll_create`. -/
def keySystem (epfd : Int) : System (Sys Nat) KeyCall where
  Init s := ∃ s₀, Fresh s₀ epfd ∧ s = (s₀.baseEpollCreate (.fine epfd)).2
  Step s l s' := l.Allowed ∧ s' = l.next epfd s

/-- The event table has one entry for each registered descriptor, whose value is the block the
kernel holds for it, and no other entry. -/
def TableAgrees (epfd : Int) (s : Sys Nat) : Prop :=
  ∃ n, s.findEpoll epfd = some n ∧ (s.table n.pEventHash).values.Nodup ∧
    (∀ p, p ∈ (s.table n.pEventHash).values ↔ ∃ x, s.kernel.interestOf epfd x = some p) ∧
    ∀ x y p, s.kernel.interestOf epfd x = some p → s.kernel.interestOf epfd y = some p → x = y

/-- The entries other than the descriptor's own that its insertion compares with. -/
def otherKeys (t : HashTable Nat Nat) (own : Option Nat) (x : Int) : List (Nat × Nat) :=
  (if 0 < (t.entries - own.toList.length) * 3 / t.tableSize then t.toList
    else t.table (intHash x % t.tableSize)).filter fun e => decide (own ≠ some e.2)

/-- The entries of a chain that a search for the block `own` goes through. -/
def searched (own : Option Nat) : List (Nat × Nat) → List (Nat × Nat)
  | [] => []
  | e :: es => if own = some e.2 then [e] else e :: searched own es

/-- The key cell of the entry reads the descriptor that its block is registered for. -/
def Tells (epfd : Int) (s : Sys Nat) (reads : Nat → Int) (e : Nat × Nat) : Prop :=
  s.kernel.interestOf epfd (reads e.1) = some e.2

instance {epfd : Int} {s : Sys Nat} {reads : Nat → Int} {e : Nat × Nat} :
    Decidable (Tells epfd s reads e) := inferInstanceAs (Decidable (_ = _))

/-- The key cells that the call reads still hold their descriptors: those of the descriptor's
chain up to its own entry where one is removed, and those an inserted one is compared with. -/
def KeysTell (epfd : Int) (s : Sys Nat) (l : KeyCall) : Prop :=
  ∀ n ∈ s.findEpoll epfd,
    (l.op ≠ .add → ∀ e ∈ searched (s.kernel.interestOf epfd l.eventFd)
      ((s.table n.pEventHash).table (intHash l.eventFd % (s.table n.pEventHash).tableSize)),
      Tells epfd s l.reads₁ e) ∧
    (s.kernel.accepts epfd l.op l.eventFd l.kernelOk = true → l.op ≠ .del →
      ∀ e ∈ otherKeys (s.table n.pEventHash) (s.kernel.interestOf epfd l.eventFd) l.eventFd,
        Tells epfd s l.reads₂ e)

instance {epfd : Int} {s : Sys Nat} {l : KeyCall} : Decidable (KeysTell epfd s l) :=
  inferInstanceAs (Decidable (∀ _ ∈ _, (_ → ∀ _ ∈ _, _) ∧ (_ → _ → ∀ _ ∈ _, _)))

section Cells

variable {t : HashTable Nat Nat} {mem : Nat → Int} {cell : Nat} {x : Int} {own : Option Nat}

theorem cellKeys_hash (hc : mem cell = x) : (cellKeys mem).hash cell = intHash x := by
  simp [cellKeys, hc]

theorem lookup_cellKeys (hc : mem cell = x) :
    hashTableLookup (cellKeys mem) t cell =
      ((t.table (intHash x % t.tableSize)).find? fun e => mem e.1 == x).map Prod.snd := by
  simp only [hashTableLookup]
  rw [cellKeys_hash hc]
  congr 2
  funext e
  simp only [cellKeys, hc]
  exact Bool.beq_comm

/-- A search through cells that tell comes to the block of the descriptor, or to none if it has
none. -/
theorem find?_of_tells {I : Int → Option Nat} {reads : Nat → Int} {chain : List (Nat × Nat)}
    (hinj : ∀ y z p, I y = some p → I z = some p → y = z)
    (htell : ∀ e ∈ searched (I x) chain, I (reads e.1) = some e.2)
    (hown : ∀ p, I x = some p → ∃ e ∈ chain, e.2 = p) :
    (chain.find? fun e => reads e.1 == x).map Prod.snd = I x := by
  induction chain with
  | nil =>
    refine (Option.eq_none_iff_forall_ne_some.mpr fun p hp => ?_).symm
    obtain ⟨e, he, -⟩ := hown p hp
    cases he
  | cons e es ih =>
    simp only [searched] at htell
    by_cases hx : I x = some e.2
    · -- its own entry: the cell reads the descriptor
      rw [if_pos hx] at htell
      have hread : reads e.1 = x := hinj _ _ _ (htell e (List.mem_singleton_self _)) hx
      rw [List.find?_cons_of_pos (by simpa using hread), hx]
      rfl
    · rw [if_neg hx] at htell
      have hread : reads e.1 ≠ x := by
        intro hread
        exact hx (hread ▸ htell e List.mem_cons_self)
      rw [List.find?_cons_of_neg (by simpa using hread)]
      refine ih (fun d hd => htell d (List.mem_cons_of_mem _ hd)) ?_
      intro p hp
      obtain ⟨d, hd, rfl⟩ := hown p hp
      rcases List.mem_cons.mp hd with rfl | hd
      · exact absurd hp hx
      · exact ⟨d, hd, rfl⟩

/-- An addition compares with every entry of its chain, or of a full table. -/
theorem compared_subset_otherKeys (hc : mem cell = x) {e : Nat × Nat}
    (he : e ∈ t.compared (cellKeys mem) cell) : e ∈ otherKeys t none x := by
  simp only [HashTable.compared, HashTable.full] at he
  simp only [otherKeys]
  rw [cellKeys_hash hc] at he
  simpa using he

/-- Removing the descriptor's own entry leaves the others to compare with. -/
theorem compared_remove (mem : Nat → Int) {mem₁ : Nat → Int} (hs : 0 < t.tableSize)
    (hnd : t.values.Nodup) {p : Nat}
    (hl : hashTableLookup (cellKeys mem₁) t cell = some p) (hc₁ : mem₁ cell = x)
    (hc : mem cell = x) :
    ∃ t', hashTableRemove (cellKeys mem₁) t cell = (some p, t') ∧ 0 < t'.tableSize ∧
      t.values.Perm (p :: t'.values) ∧
      ∀ e ∈ t'.compared (cellKeys mem) cell, e ∈ otherKeys t (some p) x := by
  have hfst := remove_fst (f := cellKeys mem₁) (t := t) cell
  rw [hl] at hfst
  cases hsp : splitFirst (fun e => (cellKeys mem₁).equal cell e.1)
      (t.table ((cellKeys mem₁).hash cell % t.tableSize)) with
  | none =>
    rw [remove_of_none hsp] at hfst
    cases hfst
  | some r =>
    obtain ⟨a, e₀, b⟩ := r
    obtain ⟨hchain, -, -⟩ := splitFirst_eq_some hsp
    have hrem := remove_of_some hsp
    rw [hrem] at hfst
    obtain rfl : e₀.2 = p := Option.some.inj hfst
    obtain ⟨rest, h1, h2⟩ :=
      toList_update_chain (Nat.mod_lt ((cellKeys mem₁).hash cell) hs) (c := []) hchain
    rw [List.append_nil, List.nil_append] at h2
    have hperm := h1.trans (h2.symm.cons e₀)
    rw [cellKeys_hash hc₁] at hchain hrem h2 hperm
    refine ⟨_, hrem, hs, hperm.map Prod.snd, ?_⟩
    -- an entry that stays does not have the removed block
    have hother : ∀ e ∈ flatten t.tableSize
        (Function.update t.table (intHash x % t.tableSize) (a ++ b)),
        e ∈ t.toList ∧ some e₀.2 ≠ some e.2 := by
      intro e he
      refine ⟨hperm.mem_iff.mpr (List.mem_cons_of_mem _ he), fun heq => ?_⟩
      have hnd' := (hperm.map Prod.snd).nodup_iff.mp hnd
      rw [List.map_cons, List.nodup_cons] at hnd'
      exact hnd'.1 (List.mem_map.mpr ⟨e, he, (Option.some.inj heq).symm⟩)
    intro e he
    simp only [HashTable.compared, HashTable.full] at he
    rw [cellKeys_hash hc] at he
    simp only [otherKeys]
    simp only [Option.toList_some, List.length_singleton]
    by_cases hfull : 0 < (t.entries - 1) * 3 / t.tableSize
    · simp only [hfull, decide_true, if_true] at he ⊢
      obtain ⟨hmem, hne⟩ := hother e he
      exact List.mem_filter.mpr ⟨hmem, by simpa using hne⟩
    · simp only [hfull, decide_false, Bool.false_eq_true, if_false, Function.update_self] at he ⊢
      have hin : e ∈ flatten t.tableSize
          (Function.update t.table (intHash x % t.tableSize) (a ++ b)) :=
        mem_flatten.mpr ⟨_, Nat.mod_lt _ hs, by rwa [Function.update_self]⟩
      refine List.mem_filter.mpr ⟨?_, by simpa using (hother e hin).2⟩
      rw [hchain]
      rcases List.mem_append.mp he with hm | hm
      · exact List.mem_append_left _ hm
      · exact List.mem_append_right _ (List.mem_cons_of_mem _ hm)

end Cells

/-- `k` is the hash of the descriptor that the entry's block is registered for. -/
def RegisteredHash (I : Int → Option Nat) (e : Nat × Nat) (k : Nat) : Prop :=
  ∃ y, I y = some e.2 ∧ k = intHash y

/-- What a run of calls keeps, for the node and the instance of the epoll. -/
structure KeyInv (epfd : Int) (n : EpollNode) (i : Nat) (s : Sys Nat) : Prop where
  find : s.findEpoll epfd = some n
  opened : s.kernel.epollOf epfd = some i
  size_pos : 0 < (s.table n.pEventHash).tableSize
  listed : Listed (s.table n.pEventHash).values s.blocks (s.kernel.interest i)
  placed : Placed (RegisteredHash (s.kernel.interest i)) (s.table n.pEventHash).tableSize
    (s.table n.pEventHash).table

section Steps

variable {epfd : Int} {n : EpollNode} {i : Nat} {s : Sys Nat} {l : KeyCall}

theorem KeyInv.interestOf (hI : KeyInv epfd n i s) (x : Int) :
    s.kernel.interestOf epfd x = s.kernel.interest i x := by
  simp [Kernel.interestOf, hI.opened]

theorem KeyInv.tableAgrees (hI : KeyInv epfd n i s) : TableAgrees epfd s := by
  refine ⟨n, hI.find, hI.listed.nodup, ?_, ?_⟩
  · intro p
    rw [hI.listed.mem]
    exact exists_congr fun x => by rw [hI.interestOf]
  · intro x y p
    rw [hI.interestOf, hI.interestOf]
    exact hI.listed.inj x y p

theorem KeyCall.reads₁_cell : l.reads₁ l.cell = l.eventFd := Function.update_self ..

theorem KeyCall.reads₂_cell : l.reads₂ l.cell = l.eventFd := Function.update_self ..

/-- A later state of the same epoll. -/
theorem KeyInv.of_same {s' : Sys Nat} (hI : KeyInv epfd n i s) (hsame : Sys.SameRegistry s s')
    (hpos : 0 < (s'.table n.pEventHash).tableSize)
    (hl : Listed (s'.table n.pEventHash).values s'.blocks (s'.kernel.interest i))
    (hpl : Placed (RegisteredHash (s'.kernel.interest i)) (s'.table n.pEventHash).tableSize
      (s'.table n.pEventHash).table) : KeyInv epfd n i s' := by
  refine ⟨?_, ?_, hpos, hl, hpl⟩
  · simp only [Sys.findEpoll]
    rw [hsame.epollList]
    exact hI.find
  · rw [hsame.epollOf]
    exact hI.opened

/-- The table after the removal: the descriptor's own entry is gone, and its block is freed. -/
theorem KeyInv.removal (hI : KeyInv epfd n i s)
    (hown : hashTableLookup (cellKeys l.reads₁) (s.table n.pEventHash) l.cell =
      s.kernel.interest i l.eventFd) :
    ∃ t', (s.removeEvent (cellKeys l.reads₁) n.pEventHash l.cell).table n.pEventHash = t' ∧
      (s.removeEvent (cellKeys l.reads₁) n.pEventHash l.cell).blocks =
        s.blocks.freeOpt (s.kernel.interest i l.eventFd) ∧ 0 < t'.tableSize ∧
      ListedBut l.eventFd t'.values (s.blocks.freeOpt (s.kernel.interest i l.eventFd))
        (s.kernel.interest i) ∧
      Placed (RegisteredHash (s.kernel.interest i)) t'.tableSize t'.table ∧
      ∀ e ∈ t'.compared (cellKeys l.reads₂) l.cell,
        e ∈ otherKeys (s.table n.pEventHash) (s.kernel.interest i l.eventFd) l.eventFd := by
  have hblocks : (s.removeEvent (cellKeys l.reads₁) n.pEventHash l.cell).blocks =
      s.blocks.freeOpt (s.kernel.interest i l.eventFd) := by
    rw [Sys.removeEvent_blocks, remove_fst, hown]
  have hplaced := hI.placed.remove (f := cellKeys l.reads₁) l.cell
  rw [Sys.removeEvent_table, if_pos rfl]
  cases hreg : s.kernel.interest i l.eventFd with
  | none =>
    -- what a removal frees is what a lookup finds, so this one finds nothing
    have hrem : hashTableRemove (cellKeys l.reads₁) (s.table n.pEventHash) l.cell =
        (none, s.table n.pEventHash) := by
      have hfst := remove_fst (f := cellKeys l.reads₁) (t := s.table n.pEventHash) l.cell
      rw [hown, hreg] at hfst
      obtain he | ⟨e, t', he, -⟩ := remove_cases (f := cellKeys l.reads₁) hI.size_pos l.cell
      · exact he
      · rw [he] at hfst
        cases hfst
    rw [hrem]
    exact ⟨_, rfl, hreg ▸ hblocks, hI.size_pos, hI.listed.but hreg, hI.placed,
      fun e he => compared_subset_otherKeys KeyCall.reads₂_cell he⟩
  | some p =>
    rw [hreg] at hown
    obtain ⟨t', hrem, hpos, hperm, hcmp⟩ := compared_remove l.reads₂ hI.size_pos
      hI.listed.nodup hown KeyCall.reads₁_cell KeyCall.reads₂_cell
    rw [hrem] at hplaced ⊢
    exact ⟨t', rfl, hreg ▸ hblocks, hpos, hI.listed.remove hreg hperm, hplaced, hcmp⟩

/-- The chains are right again when the new block is in the kernel and in the table. -/
theorem placed_insert {t t' : HashTable Nat Nat} {I I' : Int → Option Nat}
    {B : Arena EpollEvent} (hbut : ListedBut l.eventFd t.values B I)
    (hpl : Placed (RegisteredHash I) t.tableSize t.table)
    (hx : I' l.eventFd = some B.next) (hI : ∀ y, y ≠ l.eventFd → I' y = I y)
    (htell : ∀ e ∈ t.compared (cellKeys l.reads₂) l.cell,
      l.reads₂ e.1 ≠ l.eventFd ∧ I (l.reads₂ e.1) = some e.2)
    (hins : hashTableInsert (cellKeys l.reads₂) t l.cell B.next true true = ⟨true, none, t'⟩) :
    Placed (RegisteredHash I') t'.tableSize t'.table := by
  -- a stored block is an older one than the new block
  have hold : ∀ e ∈ t.toList, ∀ y, I' y = some e.2 → y ≠ l.eventFd := by
    rintro e he y hy rfl
    rw [hx] at hy
    have hlt := hbut.live_lt e.2 (hbut.live e.2 (List.mem_map.mpr ⟨e, he, rfl⟩))
    exact Nat.ne_of_gt hlt (Option.some.inj hy)
  have hnew : ∀ y, I' y = some B.next → y = l.eventFd := by
    intro y hy
    by_contra hne
    have hmem := (hbut.mem B.next).mpr ⟨y, hne, (hI y hne).symm.trans hy⟩
    exact Nat.lt_irrefl _ (hbut.live_lt _ (hbut.live _ hmem))
  have hpl' : Placed (RegisteredHash I') t.tableSize t.table := by
    refine hpl.mono ?_
    rintro e he k ⟨y, hy, hk⟩
    exact ⟨y, (hI y (hold e he y hy)).symm.trans hy, hk⟩
  refine hpl'.insert ?_ ?_ hins
  · rintro k ⟨y, hy, rfl⟩
    rw [hnew y hy, cellKeys_hash KeyCall.reads₂_cell]
  · rintro hfull e he k ⟨y, hy, rfl⟩
    have hne := hold e he y hy
    obtain ⟨hother, hread⟩ := htell e (by simpa [HashTable.compared, hfull] using he)
    rw [hbut.inj y _ e.2 hne hother ((hI y hne).symm.trans hy) hread]
    rfl

/-- The new block goes to the kernel and, no key being equal, to the table. -/
theorem attach_keyInv {s₁ : Sys Nat} {op : CtlOp} {k : Kernel} (ev : EpollEvent)
    (hI : KeyInv epfd n i s) (hsame : Sys.SameRegistry s s₁) (hop : op ≠ .del)
    (hpos : 0 < (s₁.table n.pEventHash).tableSize)
    (hbut : ListedBut l.eventFd (s₁.table n.pEventHash).values s₁.blocks (s₁.kernel.interest i))
    (hpl : Placed (RegisteredHash (s₁.kernel.interest i)) (s₁.table n.pEventHash).tableSize
      (s₁.table n.pEventHash).table)
    (hk : s₁.kernel.epollCtl epfd op l.eventFd s₁.blocks.next l.kernelOk = some k)
    (htell : ∀ e ∈ (s₁.table n.pEventHash).compared (cellKeys l.reads₂) l.cell,
      l.reads₂ e.1 ≠ l.eventFd ∧ s₁.kernel.interest i (l.reads₂ e.1) = some e.2) :
    ∃ s', s₁.attachBlock (cellKeys l.reads₂) l.cell ⟨true, l.kernelOk, true, true⟩ n epfd op
        l.eventFd ev = (0, s') ∧ KeyInv epfd n i s' ∧ s'.blocks = s₁.blocks.alloc ev := by
  obtain ⟨hm, -⟩ | ⟨-, hk', -⟩ | ⟨k', -, hk', he⟩ := Sys.attachBlock_cases (cellKeys l.reads₂)
    l.cell ⟨true, l.kernelOk, true, true⟩ s₁ n epfd op l.eventFd ev
  · cases hm
  · rw [hk] at hk'
    cases hk'
  · rw [hk] at hk'
    cases hk'
    obtain ⟨t', hins, hpos', hperm⟩ := insert_adds (f := cellKeys l.reads₂) hpos l.cell
      s₁.blocks.next (by
        intro e hmem
        simpa [cellKeys, KeyCall.reads₂_cell] using (htell e hmem).1)
    have hattach : Sys.SameRegistry s₁ (s₁.attachBlock (cellKeys l.reads₂) l.cell
        ⟨true, l.kernelOk, true, true⟩ n epfd op l.eventFd ev).2 := Sys.sameRegistry_attachBlock
    rw [he] at hattach
    generalize hs' : Sys.insertEvent (cellKeys l.reads₂)
      { s₁ with blocks := s₁.blocks.alloc ev, kernel := k } n.pEventHash l.cell s₁.blocks.next
      ⟨true, l.kernelOk, true, true⟩ = s' at he hattach
    have hblocks : s'.blocks = s₁.blocks.alloc ev := by
      rw [← hs', Sys.insertEvent_blocks]
      exact congrArg (s₁.blocks.alloc ev).freeOpt (congrArg InsertResult.freed hins)
    have htable : s'.table n.pEventHash = t' := by
      rw [← hs', Sys.insertEvent_table, if_pos rfl]
      exact congrArg InsertResult.table hins
    have hkernel : s'.kernel = k := by rw [← hs', Sys.insertEvent_kernel]
    obtain ⟨-, j, hj, -, rfl⟩ := Kernel.epollCtl_eq_some_iff.mp hk
    have hij : j = i := by
      rw [hsame.epollOf, hI.opened] at hj
      exact (Option.some.inj hj).symm
    subst hij
    have hx : s'.kernel.interest j l.eventFd = some s₁.blocks.next := by
      rw [hkernel, Kernel.setInterest_interest, if_pos ⟨rfl, rfl⟩]
      cases op <;> simp_all [CtlOp.leaves]
    have hy : ∀ y, y ≠ l.eventFd → s'.kernel.interest j y = s₁.kernel.interest j y := by
      intro y hy
      rw [hkernel, Kernel.setInterest_interest, if_neg (fun h => hy h.2)]
    refine ⟨s', he, hI.of_same (hsame.trans hattach) ?_ ?_ ?_, hblocks⟩
    · rw [htable]
      exact hpos'
    · rw [htable, hblocks]
      exact hbut.add ev (hperm.map Prod.snd) hx hy
    · rw [htable]
      exact placed_insert hbut hpl hx hy htell hins

/-- Of the blocks allocated before the call, exactly the descriptor's own is freed. -/
def FreesOwn (epfd : Int) (s s' : Sys Nat) (x : Int) : Prop :=
  ∀ q, s.blocks.Live q → (¬ s'.blocks.Live q ↔ s.kernel.interestOf epfd x = some q)

/-- An operation that the kernel refuses on a registration it does not fit. -/
theorem KeyInv.refused {op : CtlOp} {x : Int} {ptr : Nat} (hI : KeyInv epfd n i s)
    (hop : op = .mod ∨ op = .del) (hk : s.kernel.epollCtl epfd op x ptr true = none) :
    s.kernel.interest i x = none := by
  rw [← hI.interestOf]
  exact Kernel.interestOf_of_refused hop hk

/-- A block that the kernel does not take is freed at once. -/
theorem attach_refused {s₁ : Sys Nat} {op : CtlOp} (ev : EpollEvent) (hI : KeyInv epfd n i s₁)
    (hk : s₁.kernel.epollCtl epfd op l.eventFd s₁.blocks.next l.kernelOk = none) :
    ∃ s', s₁.attachBlock (cellKeys l.reads₂) l.cell ⟨true, l.kernelOk, true, true⟩ n epfd op
        l.eventFd ev = (-1, s') ∧ KeyInv epfd n i s' ∧
      s'.blocks = (s₁.blocks.alloc ev).free s₁.blocks.next := by
  obtain ⟨hm, -⟩ | ⟨-, -, he⟩ | ⟨k', -, hk', -⟩ := Sys.attachBlock_cases (cellKeys l.reads₂)
    l.cell ⟨true, l.kernelOk, true, true⟩ s₁ n epfd op l.eventFd ev
  · cases hm
  · exact ⟨_, he, ⟨hI.find, hI.opened, hI.size_pos, hI.listed.alloc_free ev, hI.placed⟩, rfl⟩
  · rw [hk] at hk'
    cases hk'

/-- The cells an insertion reads tell the other descriptors from the call's own. -/
theorem KeyInv.others (hI : KeyInv epfd n i s) {op : CtlOp} (hop : l.op = op) (hadd : op ≠ .del)
    (htell : KeysTell epfd s l)
    (hacc : s.kernel.accepts epfd op l.eventFd l.kernelOk = true) :
    ∀ e ∈ otherKeys (s.table n.pEventHash) (s.kernel.interest i l.eventFd) l.eventFd,
      l.reads₂ e.1 ≠ l.eventFd ∧ s.kernel.interest i (l.reads₂ e.1) = some e.2 := by
  subst hop
  have htell' := (htell n hI.find).2 hacc hadd
  rw [hI.interestOf] at htell'
  intro e he
  have hread : s.kernel.interest i (l.reads₂ e.1) = some e.2 :=
    (hI.interestOf _).symm.trans (htell' e he)
  refine ⟨fun heq => ?_, hread⟩
  rw [heq] at hread
  have hne := (List.mem_filter.mp he).2
  simp [hread] at hne

theorem keyInv_add (hI : KeyInv epfd n i s) (hop : l.op = .add) (htell : KeysTell epfd s l) :
    KeyInv epfd n i (l.next epfd s) := by
  simp only [KeyCall.next]
  rw [hop, Sys.ctl_add hI.find]
  cases hk : s.kernel.epollCtl epfd .add l.eventFd s.blocks.next l.kernelOk with
  | none =>
    obtain ⟨s', he, hinv, -⟩ := attach_refused (s.readEvent l.arg) hI hk
    rw [he]
    exact hinv
  | some k =>
    have hacc : s.kernel.accepts epfd .add l.eventFd l.kernelOk = true := by
      rw [← Kernel.epollCtl_isSome s.blocks.next, hk]
      rfl
    obtain ⟨-, j, hj, happ, -⟩ := Kernel.epollCtl_eq_some_iff.mp hk
    have hreg : s.kernel.interest i l.eventFd = none := by
      rw [hI.opened] at hj
      cases hj
      simpa [CtlOp.applies] using happ
    have hother := hI.others hop (by decide) htell hacc
    rw [hreg] at hother
    obtain ⟨s', he, hinv, -⟩ := attach_keyInv (s.readEvent l.arg) hI (.refl s) (by decide)
      hI.size_pos (hI.listed.but hreg) hI.placed hk fun e hmem =>
        hother e (compared_subset_otherKeys KeyCall.reads₂_cell hmem)
    rw [he]
    exact hinv

/-- Where the cells tell, the search comes to the block that the kernel holds. -/
theorem KeyInv.lookup_own (hI : KeyInv epfd n i s) (hop : l.op ≠ .add)
    (htell : KeysTell epfd s l) :
    hashTableLookup (cellKeys l.reads₁) (s.table n.pEventHash) l.cell =
      s.kernel.interest i l.eventFd := by
  rw [lookup_cellKeys KeyCall.reads₁_cell]
  refine find?_of_tells hI.listed.inj ?_ ?_
  · intro e he
    rw [← hI.interestOf] at he ⊢
    exact (htell n hI.find).1 hop e he
  · -- the block is in the table, and so in the chain of its descriptor
    intro p hp
    obtain ⟨e, he, rfl⟩ := List.mem_map.mp ((hI.listed.mem p).mpr ⟨_, hp⟩)
    obtain ⟨j, hj, hmem⟩ := mem_flatten.mp he
    rw [hI.placed j hj e hmem _ ⟨_, hp, rfl⟩]
    exact ⟨e, hmem, rfl⟩

theorem keyInv_del (hI : KeyInv epfd n i s) (hop : l.op = .del) (hok : l.kernelOk = true)
    (htell : KeysTell epfd s l) :
    KeyInv epfd n i (l.next epfd s) ∧ FreesOwn epfd s (l.next epfd s) l.eventFd := by
  obtain ⟨t', ht, hb, hpos, hbut, hpl, -⟩ := hI.removal (hI.lookup_own (by rw [hop]; decide) htell)
  have hown : ∀ s' : Sys Nat, s'.blocks = s.blocks.freeOpt (s.kernel.interest i l.eventFd) →
      FreesOwn epfd s s' l.eventFd := by
    intro s' hs' q hq
    rw [hs', Arena.live_freeOpt, hI.interestOf]
    tauto
  simp only [KeyCall.next]
  rw [hop, Sys.ctl_del hI.find, hok]
  obtain ⟨hk, he⟩ | ⟨k, hk, he⟩ := Sys.detachBlock_cases (cellKeys l.reads₁) l.cell
    ⟨true, true, true, true⟩ s n epfd l.eventFd
  · rw [he]
    refine ⟨hI.of_same Sys.sameRegistry_removeEvent (ht ▸ hpos) ?_ ?_, hown _ hb⟩
    · rw [ht, hb, Sys.removeEvent_kernel]
      exact hbut.of_none (hI.refused (.inr rfl) hk)
    · rw [ht, Sys.removeEvent_kernel]
      exact hpl
  · rw [he]
    have ht' : ({ s with kernel := k }.removeEvent (cellKeys l.reads₁) n.pEventHash
        l.cell).table n.pEventHash = t' := by
      rw [← ht, Sys.removeEvent_table, Sys.removeEvent_table]
      rfl
    have hb' : ({ s with kernel := k }.removeEvent (cellKeys l.reads₁) n.pEventHash
        l.cell).blocks = s.blocks.freeOpt (s.kernel.interest i l.eventFd) := by
      rw [← hb, Sys.removeEvent_blocks, Sys.removeEvent_blocks]
      rfl
    obtain ⟨-, j, hj, -, rfl⟩ := Kernel.epollCtl_eq_some_iff.mp hk
    obtain rfl : i = j := Option.some.inj (hI.opened.symm.trans hj)
    have hy : ∀ y, y ≠ l.eventFd → (s.kernel.setInterest i l.eventFd (CtlOp.del.leaves 0)).interest
        i y = s.kernel.interest i y := by
      intro y hy
      rw [Kernel.setInterest_interest, if_neg (fun h => hy h.2)]
    have hx : (s.kernel.setInterest i l.eventFd (CtlOp.del.leaves 0)).interest i l.eventFd =
        none := by
      rw [Kernel.setInterest_interest, if_pos ⟨rfl, rfl⟩]
      rfl
    refine ⟨hI.of_same ((Sys.sameRegistry_kernel s.blocks hk).trans Sys.sameRegistry_removeEvent)
      (ht' ▸ hpos) ?_ ?_, hown _ hb'⟩
    · rw [ht', hb', Sys.removeEvent_kernel]
      exact (hbut.congr hy).of_none hx
    · rw [ht', Sys.removeEvent_kernel]
      refine hpl.mono ?_
      rintro e - k ⟨y, hreg, hk⟩
      refine ⟨y, (hy y ?_).symm.trans hreg, hk⟩
      rintro rfl
      rw [hx] at hreg
      cases hreg

theorem keyInv_mod (hI : KeyInv epfd n i s) (hop : l.op = .mod) (hok : l.kernelOk = true)
    (htell : KeysTell epfd s l) :
    KeyInv epfd n i (l.next epfd s) ∧ FreesOwn epfd s (l.next epfd s) l.eventFd := by
  obtain ⟨t', ht, hb, hpos, hbut, hpl, hcmp⟩ :=
    hI.removal (hI.lookup_own (by rw [hop]; decide) htell)
  have hnext : (s.removeEvent (cellKeys l.reads₁) n.pEventHash l.cell).blocks.next =
      s.blocks.next := by
    rw [hb, Arena.next_freeOpt]
  have hkern : (s.removeEvent (cellKeys l.reads₁) n.pEventHash l.cell).kernel.epollCtl epfd .mod
      l.eventFd (s.removeEvent (cellKeys l.reads₁) n.pEventHash l.cell).blocks.next l.kernelOk =
      s.kernel.epollCtl epfd .mod l.eventFd s.blocks.next l.kernelOk := by
    rw [Sys.removeEvent_kernel, hnext]
  simp only [KeyCall.next]
  rw [hop, Sys.ctl_mod hI.find, Sys.exchangeBlock]
  cases hk : s.kernel.epollCtl epfd .mod l.eventFd s.blocks.next l.kernelOk with
  | none =>
    -- the descriptor is not registered, so the removal has freed nothing
    have hreg : s.kernel.interest i l.eventFd = none := hI.refused (.inl rfl) (hok ▸ hk)
    have hI₁ : KeyInv epfd n i (s.removeEvent (cellKeys l.reads₁) n.pEventHash l.cell) := by
      refine hI.of_same Sys.sameRegistry_removeEvent (ht ▸ hpos) ?_ ?_
      · rw [ht, hb, Sys.removeEvent_kernel]
        exact hbut.of_none hreg
      · rw [ht, Sys.removeEvent_kernel]
        exact hpl
    obtain ⟨s', he, hinv, hs'⟩ := attach_refused
      ((s.removeEvent (cellKeys l.reads₁) n.pEventHash l.cell).readEvent l.arg) hI₁
      (hkern.trans hk)
    rw [he]
    refine ⟨hinv, fun q hq => ?_⟩
    have hlt := hI.listed.live_lt q hq
    rw [hs', Arena.live_free, Arena.live_alloc, hnext, hb, hreg, hI.interestOf, hreg]
    have hne : q ≠ s.blocks.next := by omega
    simp [Arena.freeOpt, hq, hne]
  | some k =>
    have hacc : s.kernel.accepts epfd .mod l.eventFd l.kernelOk = true := by
      rw [← Kernel.epollCtl_isSome s.blocks.next, hk]
      rfl
    have hother := hI.others hop (by decide) htell hacc
    have hbut₁ : ListedBut l.eventFd
        ((s.removeEvent (cellKeys l.reads₁) n.pEventHash l.cell).table n.pEventHash).values
        (s.removeEvent (cellKeys l.reads₁) n.pEventHash l.cell).blocks
        ((s.removeEvent (cellKeys l.reads₁) n.pEventHash l.cell).kernel.interest i) := by
      rw [ht, hb, Sys.removeEvent_kernel]
      exact hbut
    have hpl₁ : Placed (RegisteredHash
        ((s.removeEvent (cellKeys l.reads₁) n.pEventHash l.cell).kernel.interest i))
        ((s.removeEvent (cellKeys l.reads₁) n.pEventHash l.cell).table n.pEventHash).tableSize
        ((s.removeEvent (cellKeys l.reads₁) n.pEventHash l.cell).table n.pEventHash).table := by
      rw [ht, Sys.removeEvent_kernel]
      exact hpl
    obtain ⟨s', he, hinv, hs'⟩ := attach_keyInv
      ((s.removeEvent (cellKeys l.reads₁) n.pEventHash l.cell).readEvent l.arg) hI
      Sys.sameRegistry_removeEvent (by decide) (ht ▸ hpos) hbut₁ hpl₁ (hkern.trans hk) (by
        rw [ht, Sys.removeEvent_kernel]
        exact fun e hmem => hother e (hcmp e hmem))
    rw [he]
    refine ⟨hinv, fun q hq => ?_⟩
    have hlt := hI.listed.live_lt q hq
    have hne : q ≠ s.blocks.next := by omega
    rw [hs', Arena.live_alloc, hnext, hb, Arena.live_freeOpt, hI.interestOf]
    tauto

/-- One call whose key cells tell. -/
theorem keyInv_next (hI : KeyInv epfd n i s) (ha : l.Allowed) (htell : KeysTell epfd s l) :
    KeyInv epfd n i (l.next epfd s) ∧
      (l.op ≠ .add → FreesOwn epfd s (l.next epfd s) l.eventFd) := by
  obtain ⟨-, hop | ⟨hop | hop, hok⟩⟩ := ha
  · exact ⟨keyInv_add hI hop htell, fun hne => absurd hop hne⟩
  · obtain ⟨hinv, hfrees⟩ := keyInv_mod hI hop hok htell
    exact ⟨hinv, fun _ => hfrees⟩
  · obtain ⟨hinv, hfrees⟩ := keyInv_del hI hop hok htell
    exact ⟨hinv, fun _ => hfrees⟩

end Steps

/-- A new epoll has an empty table and an empty interest set. -/
theorem keyInv_create {epfd : Int} {s : Sys Nat} (h : Fresh s epfd) :
    ∃ n i, KeyInv epfd n i (s.baseEpollCreate (.fine epfd)).2 := by
  refine ⟨⟨s.nodes.next, s.epolls.next, epfd, s.tables.next, s.kernel.instances⟩,
    s.kernel.instances, ?_⟩
  have hends := Sys.create_ends s (.fine epfd)
  generalize s.baseEpollCreate (.fine epfd) = r at hends
  cases hends with
  | refused hle => exact absurd hle (Int.not_le.mpr h.pos)
  | noHash _ hno => exact absurd ⟨rfl, rfl⟩ hno
  | noEpoll _ _ _ hno => cases hno
  | noNode _ _ _ _ hno => cases hno
  | created =>
    have htable : ∀ s' : Sys Nat, s'.tables = s.tables.alloc emptyTable →
        s'.table s.tables.next = emptyTable := by
      intro s' hs'
      simp [Sys.table, hs', Arena.alloc]
    refine ⟨?_, Kernel.epollCreate_self (Int.le_of_lt h.pos), ?_, ?_, ?_⟩
    · simp only [Sys.findEpoll]
      rw [List.find?_append, List.find?_eq_none.mpr fun n hn => by simpa using h.unlisted n hn]
      simp [Sys.CreateOutcome.fine]
    · rw [htable _ rfl, emptyTable_tableSize]
      decide
    · rw [htable _ rfl, HashTable.values, emptyTable_toList]
      have hnone : ∀ x, (s.kernel.epollCreate epfd).interest s.kernel.instances x = none := by
        intro x
        rw [Kernel.epollCreate, if_pos (Int.le_of_lt h.pos)]
        exact h.unused x
      refine ⟨List.nodup_nil, ?_, ?_, ?_, h.live_lt⟩
      · intro p
        simp [Sys.CreateOutcome.fine, hnone]
      · intro x y p hx
        rw [Sys.CreateOutcome.fine, hnone] at hx
        cases hx
      · intro p hp
        cases hp
    · rw [htable _ rfl]
      intro j _ e he
      cases he

/-- In every run of calls whose key cells tell, the event table agrees with the kernel in every
state reached, and a DEL or MOD from there frees the block of its own descriptor and of no
other. -/
theorem table_agrees {epfd : Int} {s : Sys Nat}
    (h : (keySystem epfd).ReachableUnder (KeysTell epfd) s) :
    TableAgrees epfd s ∧ ∀ l : KeyCall, l.Allowed → KeysTell epfd s l → l.op ≠ .add →
      FreesOwn epfd s (l.next epfd s) l.eventFd := by
  have hinv : ∃ n i, KeyInv epfd n i s := by
    refine System.ReachableUnder.invariant (I := fun s => ∃ n i, KeyInv epfd n i s) ?_ ?_ h
    · rintro s ⟨s₀, hfresh, rfl⟩
      exact keyInv_create hfresh
    · rintro s l s' ⟨n, i, hI⟩ htell ⟨ha, rfl⟩
      exact ⟨n, i, (keyInv_next hI ha htell).1⟩
  obtain ⟨n, i, hI⟩ := hinv
  exact ⟨hI.tableAgrees, fun l ha htell hop => (keyInv_next hI ha htell).2 hop⟩

/-- A call for `x` whose parameter is at address 0, with every other cell zero. -/
def KeyCall.atZero (op : CtlOp) (x : Int) : KeyCall :=
  ⟨0, fun _ => 0, fun _ => 0, true, op, x, .own ⟨3, x, 0, none, 0⟩⟩

theorem fresh_empty : Fresh Sys.empty 3 where
  pos := by decide
  unlisted n hn := by cases hn
  unused x := rfl
  live_lt p hp := by cases hp

/-- Descriptors 5 and 6 are used from the same stack address. Every call overwrites the key
cells of both, but the two descriptors are in different chains. -/
theorem table_agrees_by_chance :
    TableAgrees 3 ([KeyCall.atZero .add 5, .atZero .add 6, .atZero .mod 6, .atZero .del 5].foldl
      (fun s l => l.next 3 s) (Sys.empty.baseEpollCreate (.fine 3)).2) := by
  refine (table_agrees ?_).1
  have h0 : (keySystem 3).ReachableUnder (KeysTell 3) (Sys.empty.baseEpollCreate (.fine 3)).2 :=
    .init ⟨_, fresh_empty, rfl⟩
  have h1 := h0.step (l := KeyCall.atZero .add 5) (by decide) ⟨⟨by decide, .inl rfl⟩, rfl⟩
  have h2 := h1.step (l := KeyCall.atZero .add 6) (by decide) ⟨⟨by decide, .inl rfl⟩, rfl⟩
  have h3 := h2.step (l := KeyCall.atZero .mod 6) (by decide)
    ⟨⟨by decide, .inr ⟨.inl rfl, rfl⟩⟩, rfl⟩
  exact h3.step (l := KeyCall.atZero .del 5) (by decide)
    ⟨⟨by decide, .inr ⟨.inr rfl, rfl⟩⟩, rfl⟩

/-- Descriptors 5 and 198 share a chain of the new table. Added from the same stack address, the
second finds the first one's key cell reading 198, takes over its entry and frees its block. -/
theorem table_loses_entry :
    ¬ ∀ (epfd : Int) (s : Sys Nat), (keySystem epfd).Reachable s → TableAgrees epfd s := by
  intro h
  have hr : (keySystem 3).Reachable ((KeyCall.atZero .add 198).next 3
      ((KeyCall.atZero .add 5).next 3 (Sys.empty.baseEpollCreate (.fine 3)).2)) := by
    refine .step (.step (.init ⟨_, fresh_empty, rfl⟩) trivial ⟨?_, rfl⟩) trivial ⟨?_, rfl⟩
    · exact ⟨by decide, .inl rfl⟩
    · exact ⟨by decide, .inl rfl⟩
  obtain ⟨n, hn, -, hmem, -⟩ := h 3 _ hr
  obtain rfl : n = ⟨0, 0, 3, 0, 0⟩ := by
    refine (Option.some.inj (Eq.trans ?_ hn)).symm
    decide
  have hblock := (hmem 0).mpr ⟨5, by decide⟩
  revert hblock
  decide +kernel

end BaseCode.Epoll
