import BaseCode.Comm.HashTableSpec
import BaseCode.Epoll.Frames

/-!
# Created epolls

What a registry looks like after any number of calls of `base_epoll_create` and before anything
is registered: all tables are empty, the kernel holds nothing, open descriptors denote different
instances, and the listed epolls have descriptors and tables of their own.
-/

namespace BaseCode.Epoll
open Foundation Comm

/-- Epolls were created, and nothing has been registered yet. -/
inductive Created : Sys Int → Prop
  | empty : Created .empty
  | create {s : Sys Int} {o : Sys.CreateOutcome} : Created s →
      s.kernel.epollOf o.eplfd = none → Created (s.baseEpollCreate o).2

/-- Open descriptors denote different instances, all of them made before. -/
structure Numbered (k : Kernel) : Prop where
  distinct : ∀ a b i, k.epollOf a = some i → k.epollOf b = some i → a = b
  below : ∀ a i, k.epollOf a = some i → i < k.instances

theorem Numbered.epollCreate {k : Kernel} (h : Numbered k) (fd : Int) :
    Numbered (k.epollCreate fd) := by
  by_cases hfd : 0 ≤ fd
  · have hof : ∀ a i, (k.epollCreate fd).epollOf a = some i →
        a = fd ∧ i = k.instances ∨ a ≠ fd ∧ k.epollOf a = some i := by
      intro a i hi
      by_cases ha : a = fd
      · rw [ha, Kernel.epollCreate_self hfd] at hi
        exact .inl ⟨ha, (Option.some.inj hi).symm⟩
      · rw [Kernel.epollCreate_of_ne ha] at hi
        exact .inr ⟨ha, hi⟩
    have hnext : (k.epollCreate fd).instances = k.instances + 1 := by
      simp [Kernel.epollCreate, hfd]
    refine ⟨?_, ?_⟩
    · intro a b i ha hb
      obtain ⟨rfl, rfl⟩ | ⟨-, ha'⟩ := hof a i ha
      · obtain ⟨rfl, -⟩ | ⟨-, hb'⟩ := hof b _ hb
        · rfl
        · exact absurd (h.below b _ hb') (Nat.lt_irrefl _)
      · obtain ⟨rfl, rfl⟩ | ⟨-, hb'⟩ := hof b i hb
        · exact absurd (h.below a _ ha') (Nat.lt_irrefl _)
        · exact h.distinct a b i ha' hb'
    · intro a i ha
      rw [hnext]
      obtain ⟨-, rfl⟩ | ⟨-, ha⟩ := hof a i ha
      · exact Nat.lt_succ_self _
      · exact Nat.lt_succ_of_lt (h.below a i ha)
  · simpa [Kernel.epollCreate, hfd] using h

theorem epollOf_of_close {k : Kernel} {fd a : Int} {i : Nat}
    (h : (k.close fd).epollOf a = some i) : k.epollOf a = some i := by
  simp only [Kernel.close] at h
  by_cases ha : a = fd
  · simp [ha] at h
  · simpa [ha] using h

theorem Numbered.close {k : Kernel} (h : Numbered k) (fd : Int) : Numbered (k.close fd) where
  distinct a b i ha hb := h.distinct a b i (epollOf_of_close ha) (epollOf_of_close hb)
  below a i ha := h.below a i (epollOf_of_close ha)

/-- What the creations leave behind. -/
structure Pristine (s : Sys Int) : Prop where
  tables : ∀ h, s.table h = emptyTable
  interest : ∀ i x, s.kernel.interest i x = none
  numbered : Numbered s.kernel
  listed : ∀ n ∈ s.epollList, 0 < n.epollFd ∧ s.kernel.epollOf n.epollFd ≠ none ∧
    n.pEventHash < s.tables.next
  apart : ∀ n ∈ s.epollList, ∀ m ∈ s.epollList,
    n.epollFd = m.epollFd ↔ n.pEventHash = m.pEventHash

theorem table_alloc {s s' : Sys Int} (hs : ∀ h, s.table h = emptyTable)
    (ht : s'.tables = s.tables.alloc emptyTable) (h : Nat) : s'.table h = emptyTable := by
  have hh := hs h
  simp only [Sys.table] at hh ⊢
  rw [ht]
  by_cases hn : h = s.tables.next
  · simp [Arena.alloc, hn]
  · simpa only [Arena.alloc, Function.update_of_ne hn] using hh

theorem epollCreate_interest {k : Kernel} {fd : Int} :
    (k.epollCreate fd).interest = k.interest := by
  simp only [Kernel.epollCreate]
  split <;> rfl

theorem close_interest_none {k : Kernel} {fd : Int} (h : ∀ i x, k.interest i x = none) (i : Nat)
    (x : Int) : (k.close fd).interest i x = none := by
  simp only [Kernel.close]
  by_cases hx : x = fd
  · simp [hx]
  · simpa [hx] using h i x

/-- A creation that fails after it got its descriptor. -/
theorem Pristine.closed {s s' : Sys Int} {fd : Int} (h : Pristine s)
    (hfree : s.kernel.epollOf fd = none) (ht : ∀ h, s'.table h = emptyTable)
    (hn : s.tables.next ≤ s'.tables.next) (hl : s'.epollList = s.epollList)
    (hk : s'.kernel = (s.kernel.epollCreate fd).close fd) : Pristine s' := by
  refine ⟨ht, ?_, ?_, ?_, ?_⟩
  · rw [hk]
    exact close_interest_none (by rw [epollCreate_interest]; exact h.interest)
  · rw [hk]
    exact (h.numbered.epollCreate fd).close fd
  · intro n hmem
    obtain ⟨hpos, hopen, hlt⟩ := h.listed n (hl ▸ hmem)
    refine ⟨hpos, ?_, Nat.lt_of_lt_of_le hlt hn⟩
    rw [hk, Kernel.epollCreate_close hfree]
    exact hopen
  · rw [hl]
    exact h.apart

/-- A creation that keeps its descriptor. -/
theorem Pristine.opened {s s' : Sys Int} {fd : Int} (h : Pristine s)
    (hfree : s.kernel.epollOf fd = none) (ht : ∀ h, s'.table h = emptyTable)
    (hn : s.tables.next ≤ s'.tables.next) (hl : s'.epollList = s.epollList)
    (hk : s'.kernel = s.kernel.epollCreate fd) : Pristine s' := by
  refine ⟨ht, ?_, ?_, ?_, ?_⟩
  · rw [hk, epollCreate_interest]
    exact h.interest
  · rw [hk]
    exact h.numbered.epollCreate fd
  · intro n hmem
    obtain ⟨hpos, hopen, hlt⟩ := h.listed n (hl ▸ hmem)
    refine ⟨hpos, ?_, Nat.lt_of_lt_of_le hlt hn⟩
    have hne : n.epollFd ≠ fd := fun heq => hopen (heq ▸ hfree)
    rw [hk, Kernel.epollCreate_of_ne hne]
    exact hopen
  · rw [hl]
    exact h.apart

/-- The new node has a descriptor and a table of its own. -/
theorem Pristine.append {s s' : Sys Int} {n : EpollNode} (h : Pristine s)
    (hpos : 0 < n.epollFd) (hopen : s.kernel.epollOf n.epollFd ≠ none)
    (hlt : n.pEventHash < s.tables.next)
    (hnew : ∀ m ∈ s.epollList, m.epollFd ≠ n.epollFd ∧ m.pEventHash ≠ n.pEventHash)
    (ht : s'.tables = s.tables) (hk : s'.kernel = s.kernel)
    (hl : s'.epollList = s.epollList ++ [n]) : Pristine s' := by
  have hmem : ∀ m, m ∈ s'.epollList → m ∈ s.epollList ∨ m = n := by
    intro m hm
    simpa [hl] using hm
  refine ⟨?_, ?_, ?_, ?_, ?_⟩
  · intro t
    rw [Sys.table_congr ht]
    exact h.tables t
  · rw [hk]
    exact h.interest
  · rw [hk]
    exact h.numbered
  · intro m hm
    rw [hk, ht]
    rcases hmem m hm with hm | rfl
    · exact h.listed m hm
    · exact ⟨hpos, hopen, hlt⟩
  · intro m hm q hq
    rcases hmem m hm with hm | rfl
    · rcases hmem q hq with hq | rfl
      · exact h.apart m hm q hq
      · simp [hnew m hm]
    · rcases hmem q hq with hq | rfl
      · simp [(hnew q hq).1.symm, (hnew q hq).2.symm]
      · simp

theorem pristine_of_created {s : Sys Int} (h : Created s) : Pristine s := by
  induction h with
  | empty =>
    refine ⟨fun _ => rfl, fun _ _ => rfl, ⟨?_, ?_⟩, ?_, ?_⟩
    · intro a b i ha
      cases ha
    · intro a i ha
      cases ha
    · intro n hn
      cases hn
    · intro n hn
      cases hn
  | @create s o _ hfree ih =>
    have hends := Sys.create_ends s o
    generalize s.baseEpollCreate o = r at hends
    cases hends with
    | refused => exact ih.opened hfree ih.tables (Nat.le_refl _) rfl rfl
    | noHash => exact ih.closed hfree ih.tables (Nat.le_refl _) rfl rfl
    | noEpoll => exact ih.closed hfree (table_alloc ih.tables rfl) (Nat.le_succ _) rfl rfl
    | noNode => exact ih.opened hfree (table_alloc ih.tables rfl) (Nat.le_succ _) rfl rfl
    | created hgt =>
      -- first the table and the descriptor, then the node that refers to both
      have h1 : Pristine { s with
          tables := s.tables.alloc emptyTable
          kernel := s.kernel.epollCreate o.eplfd } :=
        ih.opened hfree (table_alloc ih.tables rfl) (Nat.le_succ _) rfl rfl
      refine h1.append (n := ⟨s.nodes.next, s.epolls.next, o.eplfd, s.tables.next,
        s.kernel.instances⟩) hgt ?_ (Nat.lt_succ_self _) ?_ rfl rfl rfl
      · rw [Kernel.epollCreate_self (Int.le_of_lt hgt)]
        exact Option.some_ne_none _
      · intro m hm
        obtain ⟨-, hopen, hlt⟩ := ih.listed m hm
        exact ⟨fun heq => hopen (heq ▸ hfree), Nat.ne_of_lt hlt⟩

end BaseCode.Epoll
