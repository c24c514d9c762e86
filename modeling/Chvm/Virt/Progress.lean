import Chvm.Lib.Rounds
import Chvm.Virt.Linear

/-!
# What a put waits for

`adb_put_p` tries again as long as the table it finds in the free list is full. It waits for no lock, but for
another thread: the one that took the last index of that table and has not yet taken the table out of the
list. Alone, a put returns if and only if the head of the list is not such a table; and whatever the threads
do, of those in a put or a free one returns before they have taken seven sections each.
-/

set_option autoImplicit false

namespace Chvm.Virt

open Chvm.Lib

/-! ## Who is in the book -/

def BookThread.busy : BookThread → Bool
  | .idle _ => false
  | _ => true

/-- A thread in `adb_put_p`, or in `adb_free` past the clear of the cell. -/
def AdbState.InBook (s : AdbState) (t : Tid) : Prop := ∃ th, s.threads[t]? = some (.book th) ∧ th.busy = true

/-- A put that has its index, or such a free. -/
def BookThread.late : BookThread → Bool
  | .write .. | .removal .. | .push .. | .addition _ => true
  | _ => false

def AdbAct.tid : AdbAct → Tid
  | .call t _ | .go t => t

variable {s s' : AdbState} {adb adb' : AddrBook} {mem mem' : Mem} {t u : Tid} {v : Vaddr} {a : AdbAct}
  {th th' : AdbThread} {old new : BookThread} {e : Nat}

/-- What a step can do. -/
inductive AdbMove (s : AdbState) : AdbAct → AdbState → Prop
  | start {t : Tid} {res : Option AdbRes} (c : AdbCall) :
      s.threads[t]? = some (.idle res) → AdbMove s (.call t c) (s.goto t c.start)
  | book {t : Tid} {old new : BookThread} {b : BookState} :
      s.threads[t]? = some (.book old) → bookGo s.book t old = some b → b.threads[t]? = some new →
      AdbMove s (.go t) (s.move t b.adb s.mem (.ofBook new))
  | cell {t : Tid} {v : Vaddr} {call : CellCall} {adb : AddrBook} {mem : Mem} {th : AdbThread} :
      s.threads[t]? = some (.cell v call) → cellSection s.adb s.mem t v call = some (adb, mem, th) →
      AdbMove s (.go t) (s.move t adb mem th)
  /-- A lookup, or a step from table to table. -/
  | look {t : Tid} {th th' : AdbThread} :
      s.threads[t]? = some th → (∀ old, th ≠ .book old) → (∀ new, th' ≠ .book new) →
      AdbMove s (.go t) (s.goto t th')

theorem adbStep_cases (hst : adbStep s a = some s') : AdbMove s a s' := by
  cases a with
  | call t c =>
    simp only [adbStep] at hst
    split at hst
    next res hth =>
      cases hst
      exact .start c hth
    next => cases hst
  | go t =>
    obtain ⟨th, hth, hgo⟩ := Option.bind_eq_some_iff.mp hst
    cases th with
    | idle => cases hgo
    | book old =>
      obtain ⟨b, hb, hmap⟩ := Option.bind_eq_some_iff.mp hgo
      obtain ⟨new, hnew, rfl⟩ := Option.map_eq_some_iff.mp hmap
      exact .book hth hb hnew
    | lookup v call =>
      simp only [adbGo] at hgo
      split at hgo
      · cases hgo
        exact .look hth (fun _ heq => by cases heq) fun _ heq => by cases heq
      · split at hgo <;> cases hgo
        exact .look hth (fun _ heq => by cases heq) fun _ heq => by cases heq
    | cell v call =>
      obtain ⟨⟨adb, mem, th'⟩, hsection, rfl⟩ := Option.map_eq_some_iff.mp hgo
      exact .cell hth hsection
    | foreach c =>
      cases hgo
      exact .look hth (fun _ heq => by cases heq) fun _ heq => by cases heq
    | nextTable c =>
      cases hgo
      refine .look hth (fun _ heq => by cases heq) fun _ heq => ?_
      split at heq <;> cases heq
    | onTable c =>
      obtain ⟨th', hsection, rfl⟩ := Option.map_eq_some_iff.mp hgo
      obtain ⟨hbook, hstage⟩ := tableSection_stage hsection
      refine .look hth (fun _ heq => by cases heq) fun new heq => ?_
      subst heq
      have hidle : new = .idle none := hbook
      subst hidle
      cases hstage

theorem adbStep_threads (hst : adbStep s a = some s') : ∃ th', s'.threads = s.threads.set a.tid th' := by
  cases adbStep_cases hst <;> exact ⟨_, rfl⟩

/-- The other threads stand where they stood. -/
theorem thread_of_ne (hst : adbStep s a = some s') (hne : a.tid ≠ u) : s'.threads[u]? = s.threads[u]? := by
  obtain ⟨th', hset⟩ := adbStep_threads hst
  rw [hset, List.getElem?_set_ne hne]

/-! ## The list and the stacks -/

/-- How many indices the stack of a table holds. -/
def AddrBook.fillOf (adb : AddrBook) (e : Nat) : Option Nat := (adb.table e).map (·.stackFill)

/-- The free list and the stacks stay, or the first table comes into an empty list. -/
structure Steady (adb adb' : AddrBook) : Prop where
  cap : adb'.tableCap = adb.tableCap
  freeList : adb'.freeList = adb.freeList ∨ adb.freeList = none ∧ adb'.freeList ≠ none
  length : adb.book.length ≤ adb'.book.length
  fill : ∀ e, e < adb.book.length → adb'.fillOf e = adb.fillOf e

theorem Steady.refl (adb : AddrBook) : Steady adb adb := ⟨rfl, .inl rfl, Nat.le_refl _, fun _ _ => rfl⟩

theorem steady_setTable {table table' : AddrTable} (htable : adb.table e = some table)
    (hfill : table'.stackFill = table.stackFill) : Steady adb (adb.setTable e table') := by
  refine ⟨rfl, .inl rfl, Nat.le_of_eq AddrBook.length_setTable.symm, fun e' _ => ?_⟩
  unfold AddrBook.fillOf
  rw [AddrBook.table_setTable htable]
  split
  next heq => rw [heq, htable, Option.map_some, Option.map_some, hfill]
  next => rfl

theorem steady_setCell {c : AddrTableCell} : Steady adb (adb.setCell v c) := by
  unfold AddrBook.setCell
  split
  · exact .refl adb
  next table htable => exact steady_setTable htable rfl

/-- The table at the head of the list has an index. -/
def AddrBook.HeadFilled (adb : AddrBook) : Prop := ∀ e, adb.freeList = some e → adb.fillOf e ≠ some 0

theorem steady_tryExpand (hexpand : adb.tryExpand = some adb') : Steady adb adb' := by
  rcases AddrBook.tryExpand_cases hexpand with ⟨-, rfl⟩ | ⟨hlist, table, -, rfl⟩
  · exact .refl adb'
  · obtain ⟨-, hlen, hcap⟩ := AddrBook.size_addTable adb table
    refine ⟨hcap, .inr ⟨hlist, AddrBook.freeList_tryExpand hexpand⟩, ?_, fun e he => ?_⟩
    · rw [hlen]
      exact Nat.le_succ _
    · unfold AddrBook.fillOf
      rw [AddrBook.table_addTable, if_neg (Nat.ne_of_lt he)]

theorem cellSection_steady {call : CellCall} (hst : cellSection adb mem t v call = some (adb', mem', th)) :
    Steady adb adb' := by
  cases call with
  | getRead blk | getWrite blk =>
    cases blk with
    | true =>
      obtain ⟨⟨paddr, adb₁⟩, hget, heq⟩ := Option.map_eq_some_iff.mp hst
      cases heq
      first
        | unfold AddrBook.adbGetRead at hget
        | unfold AddrBook.adbGetWrite at hget
      split at hget
      · cases hget
      · split at hget <;> cases hget
        exact steady_setCell
    | false =>
      obtain ⟨r, hget, heq⟩ := Option.map_eq_some_iff.mp hst
      cases heq
      first
        | unfold AddrBook.adbTryGetRead at hget
        | unfold AddrBook.adbTryGetWrite at hget
      split at hget
      · cases hget
      · split at hget
        · split at hget <;> cases hget
          exact steady_setCell
        · cases hget
          exact .refl adb
  | unlock =>
    obtain ⟨adb₁, hunlock, heq⟩ := Option.map_eq_some_iff.mp hst
    cases heq
    unfold AddrBook.adbUnlock at hunlock
    split at hunlock
    · cases hunlock
    · split at hunlock <;> cases hunlock
      exact steady_setCell
  | allocated =>
    obtain ⟨b, -, heq⟩ := Option.map_eq_some_iff.mp hst
    cases heq
    exact .refl adb
  | move lck newPaddr size init =>
    obtain ⟨⟨mem₁, adb₁⟩, hmove, heq⟩ := Option.map_eq_some_iff.mp hst
    cases heq
    unfold AddrBook.adbMoveWith at hmove
    split at hmove
    · cases hmove
    · split at hmove
      · cases hmove
      · split at hmove <;> cases hmove
        exact steady_setCell
  | free =>
    simp only [cellSection] at hst
    split at hst
    · cases hst
    next table htable =>
      split at hst
      next table' hclear =>
        cases hst
        exact steady_setTable htable (AddrTable.sameStack_clearCell hclear).stackFill
      next => cases hst

/-- The table that a put has read from the list is in the book. -/
def AdbState.Known (s : AdbState) : Prop :=
  ∀ e paddr hold, .book (.pop e paddr hold) ∈ s.threads → e < s.adb.book.length

theorem AdbState.Inv.head_listed (h : s.Inv) (hlist : s.adb.freeList = some e) :
    s.adb.inFreeList e = true := by
  obtain ⟨l, hl⟩ := h.coherent.listed
  have hhead : l.head? = some e := hl.linked.head.symm.trans hlist
  exact (hl.mem e).mp (List.mem_of_mem_head? hhead)

/-- Tables are never taken out of the book, and all have one capacity. -/
def AddrBook.Grows (adb adb' : AddrBook) : Prop :=
  adb'.tableCap = adb.tableCap ∧ adb.book.length ≤ adb'.book.length

theorem Steady.grows (h : Steady adb adb') : adb.Grows adb' := ⟨h.cap, h.length⟩

theorem grows_of_size (h : adb'.tableCap = adb.tableCap ∧ adb'.book.length = adb.book.length) :
    adb.Grows adb' :=
  ⟨h.1, Nat.le_of_eq h.2.symm⟩

theorem bookGo_grows {b b' : BookState} (hb : bookGo b t old = some b') : b.adb.Grows b'.adb := by
  cases old with
  | idle => cases hb
  | seek =>
    simp only [bookGo] at hb
    split at hb <;> cases hb <;> exact (Steady.refl _).grows
  | expand =>
    obtain ⟨adb', hexpand, rfl⟩ := Option.map_eq_some_iff.mp hb
    exact (steady_tryExpand hexpand).grows
  | pop =>
    simp only [bookGo] at hb
    split at hb
    · cases hb
    · split at hb <;> cases hb
      · exact (Steady.refl _).grows
      · exact grows_of_size ⟨rfl, AddrBook.length_setTable⟩
  | write =>
    simp only [bookGo] at hb
    split at hb
    · cases hb
    · split at hb <;> cases hb
      exact grows_of_size ⟨rfl, AddrBook.length_setTable⟩
  | removal e =>
    cases hb
    exact grows_of_size AddrBook.size_tryRemoval
  | push =>
    simp only [bookGo] at hb
    split at hb <;> cases hb
    exact grows_of_size ⟨rfl, AddrBook.length_setTable⟩
  | addition e =>
    cases hb
    exact grows_of_size AddrBook.size_tryAddition

theorem adbStep_grows (hst : adbStep s a = some s') : s.adb.Grows s'.adb := by
  cases adbStep_cases hst with
  | start | look => exact (Steady.refl _).grows
  | cell _ hsection => exact (cellSection_steady hsection).grows
  | book _ hb _ => exact bookGo_grows hb

/-- A put comes to the pop from its look at the list. -/
theorem bookGo_pop {b b' : BookState} {paddr : Nat} {hold : Bool} (hth : b.threads[t]? = some old)
    (hb : bookGo b t old = some b') (hpop : b'.threads[t]? = some (.pop e paddr hold)) :
    b.adb.freeList = some e := by
  have hlt : t < b.threads.length := (List.getElem?_eq_some_iff.mp hth).1
  obtain ⟨new, hnew, heq⟩ : ∃ new, b'.threads = b.threads.set t new ∧
      (new = .pop e paddr hold → b.adb.freeList = some e) := by
    cases old with
    | idle => cases hb
    | seek =>
      simp only [bookGo] at hb
      split at hb
      · cases hb
        exact ⟨_, rfl, fun heq => by cases heq⟩
      next e' hlist =>
        cases hb
        refine ⟨_, rfl, fun heq => ?_⟩
        cases heq
        exact hlist
    | expand =>
      obtain ⟨adb', -, rfl⟩ := Option.map_eq_some_iff.mp hb
      exact ⟨_, rfl, fun heq => by cases heq⟩
    | removal | addition =>
      cases hb
      exact ⟨_, rfl, fun heq => by cases heq⟩
    | pop =>
      simp only [bookGo] at hb
      split at hb
      · cases hb
      · split at hb <;> cases hb <;> exact ⟨_, rfl, fun heq => by cases heq⟩
    | write =>
      simp only [bookGo] at hb
      split at hb
      · cases hb
      · split at hb <;> cases hb
        refine ⟨_, rfl, fun heq => ?_⟩
        split at heq <;> cases heq
    | push =>
      simp only [bookGo] at hb
      split at hb <;> cases hb
      refine ⟨_, rfl, fun heq => ?_⟩
      split at heq <;> cases heq
  rw [hnew, List.getElem?_set_self hlt] at hpop
  exact heq (Option.some.inj hpop)

/-- Only a put that has its index, or a free, comes from a section on a cell. -/
theorem cellSection_thread {call : CellCall} (hst : cellSection adb mem t v call = some (adb', mem', th)) :
    (∃ res, th = .idle (some res)) ∨ th = .book (.push v.tableIndex v.cellIndex) := by
  cases call with
  | getRead blk | getWrite blk =>
    cases blk <;> obtain ⟨r, -, heq⟩ := Option.map_eq_some_iff.mp hst <;> cases heq <;> exact .inl ⟨_, rfl⟩
  | unlock | allocated | move =>
    obtain ⟨r, -, heq⟩ := Option.map_eq_some_iff.mp hst
    cases heq
    exact .inl ⟨_, rfl⟩
  | free =>
    simp only [cellSection] at hst
    split at hst
    · cases hst
    · split at hst <;> cases hst
      exact .inr rfl

theorem AdbState.Known.preserved (h : s.Known) (hinv : s.Inv) (hst : adbStep s a = some s') : s'.Known := by
  intro e paddr hold hmem
  obtain ⟨u, hu⟩ := List.mem_iff_getElem?.mp hmem
  refine Nat.lt_of_lt_of_le ?_ (adbStep_grows hst).2
  by_cases hne : a.tid = u
  · have hself : ∀ {t th}, s.threads[t]? = some th → ∀ th', (s.threads.set t th')[t]? = some th' :=
      fun hth _ =>
      List.getElem?_set_self (List.getElem?_eq_some_iff.mp hth).1
    subst hne
    cases adbStep_cases hst with
    | start c hth =>
      have heq := Option.some.inj ((hself hth _).symm.trans hu)
      cases c <;> cases heq
    | look hth hold hnew => exact absurd (Option.some.inj ((hself hth _).symm.trans hu)) (hnew _)
    | cell hth hsection =>
      have heq := Option.some.inj ((hself hth _).symm.trans hu)
      rcases cellSection_thread hsection with ⟨res, hidle⟩ | hpush
      · cases hidle.symm.trans heq
      · cases hpush.symm.trans heq
    | @book t old new b hth hb hnew =>
      have heq := Option.some.inj ((hself hth _).symm.trans hu)
      have hpop : new = .pop e paddr hold := by
        cases new with
        | idle res => cases res <;> cases heq
        | pop => cases heq; rfl
        | _ => cases heq
      subst hpop
      exact AddrBook.lt_of_inFreeList (hinv.head_listed (bookGo_pop (book_thread hth) hb hnew))
  · rw [thread_of_ne hst hne] at hu
    exact h e paddr hold (List.mem_of_getElem? hu)

/-- **Nothing is waited for**, but the memory for a table. -/
theorem AdbState.Inv.go_isSome (h : s.Inv) (hknown : s.Known) (hfits : FitsTable s.adb.tableCap)
    (hin : s.InBook t) :
    (adbStep s (.go t)).isSome = true := by
  obtain ⟨old, hth, hbusy⟩ := hin
  have hgo : ∃ b new, bookGo s.book t old = some b ∧ b.threads[t]? = some new := by
    have hlt : t < s.book.threads.length := (List.getElem?_eq_some_iff.mp (book_thread hth)).1
    have hmove : ∀ adb new, (s.book.move t adb new).threads[t]? = some new := fun _ _ =>
      List.getElem?_set_self hlt
    cases old with
    | idle res => cases hbusy
    | seek paddr hold =>
      simp only [bookGo]
      split <;> exact ⟨_, _, rfl, hmove _ _⟩
    | expand paddr hold =>
      obtain ⟨adb', hexpand⟩ := AddrBook.tryExpand_of_fits h.coherent.tableCap fun _ => hfits
      have hexpand' : s.book.adb.tryExpand = some adb' := hexpand
      simp only [bookGo, hexpand', Option.map_some]
      exact ⟨_, _, rfl, hmove _ _⟩
    | removal | addition => exact ⟨_, _, rfl, hmove _ _⟩
    | pop e paddr hold =>
      obtain ⟨table, htable⟩ := AddrBook.exists_table (hknown e paddr hold (List.mem_of_getElem? hth))
      have htable' : s.book.adb.table e = some table := htable
      simp only [bookGo, htable']
      split <;> exact ⟨_, _, rfl, hmove _ _⟩
    | write e code index paddr hold =>
      obtain ⟨table, c, htable, hget, -, hfree⟩ := h.popped_cell hth rfl
      have htable' : s.book.adb.table e = some table := htable
      simp only [bookGo, htable', AddrBook.writeCell_eq t paddr hold hget hfree]
      exact ⟨_, _, rfl, hmove _ _⟩
    | push e index =>
      have hmem : (⟨e, index⟩ : Vaddr) ∈ held BookThread.cleared s.book.threads :=
        mem_held_of_get (book_thread hth) rfl
      obtain ⟨table, htable⟩ := AddrBook.exists_table (h.coherent.known _ (.inr hmem))
      have htable' : s.book.adb.table e = some table := htable
      simp only [bookGo, htable']
      exact ⟨_, _, rfl, hmove _ _⟩
  obtain ⟨b, new, hb, hnew⟩ := hgo
  simp only [adbStep, hth, Option.bind_some, adbGo, hb, hnew, Option.map_some, Option.isSome_some]

/-! ## The rounds before somebody has an index -/

/-- Nobody has an index of a table on the way in or out. -/
structure AdbState.Early (s : AdbState) : Prop where
  inv : s.Inv
  known : s.Known
  early : ∀ th, .book th ∈ s.threads → th.late = false

/-- How many sections of its own a put is from its index, when no other put gets one. -/
def seekRank (adb : AddrBook) : BookThread → Nat
  | .seek .. => if adb.freeList.isNone then 4 else 2
  | .expand .. => 3
  | .pop e .. => if adb.fillOf e = some 0 then 5 else 1
  | _ => 1

/-- The rank of the put or free that a thread is in. -/
def AdbState.rank (f : AddrBook → BookThread → Nat) (t : Tid) (s : AdbState) : Nat :=
  match s.threads[t]? with
  | some (.book th) => f s.adb th
  | _ => 0

theorem rank_book {f : AddrBook → BookThread → Nat} (hth : s.threads[t]? = some (.book old)) :
    s.rank f t = f s.adb old := by
  unfold AdbState.rank
  rw [hth]

theorem late_of_removes (h : old.removes = some e) : old.late = true := by
  cases old <;> first | rfl | cases h

/-- A table at the head of the list without an index is owed a removal. -/
theorem AdbState.Inv.removal_owed (h : s.Inv) (hlist : s.adb.freeList = some e)
    (hzero : s.adb.fillOf e = some 0) : ∃ (u : Tid) (th : BookThread), s.threads[u]? = some (.book th) ∧
      th.removes = some e := by
  obtain ⟨table, htable, hfill⟩ := Option.map_eq_some_iff.mp hzero
  have hremoves := (h.coherent.tabled e table htable).removes hfill (h.head_listed hlist)
  obtain ⟨th, hth, he⟩ := mem_held.mp hremoves
  obtain ⟨th', hmem, rfl⟩ := List.mem_map.mp hth
  obtain ⟨u, hu⟩ := List.mem_iff_getElem?.mp hmem
  cases th' with
  | book old => exact ⟨u, old, hu, he⟩
  | _ => cases he

theorem AdbState.Early.headFilled (h : s.Early) : s.adb.HeadFilled := by
  intro e hlist hzero
  obtain ⟨u, th, hu, he⟩ := h.inv.removal_owed hlist hzero
  have hlate := late_of_removes he
  rw [h.early th (List.mem_of_getElem? hu)] at hlate
  cases hlate

/-- What a look at the list, a new table or a pop leads to. -/
theorem seekRank_own (hhead : s.adb.HeadFilled) (hth : s.threads[t]? = some (.book old))
    (hbusy : old.busy = true) (hnot : old.late = false) {b : BookState} (hb : bookGo s.book t old = some b)
      (hnew : b.threads[t]? = some new) :
    new.late = true ∨ new.busy = true ∧ seekRank b.adb new < seekRank s.adb old := by
  have hlt : t < s.book.threads.length := (List.getElem?_eq_some_iff.mp (book_thread hth)).1
  have hmove : ∀ {adb th}, b = s.book.move t adb th → th = new := by
    rintro adb th rfl
    exact Option.some.inj ((List.getElem?_set_self hlt).symm.trans hnew)
  cases old with
  | idle res => cases hbusy
  | seek paddr hold =>
    simp only [bookGo] at hb
    split at hb
    next hlist =>
      obtain rfl := hmove (Option.some.inj hb).symm
      cases hb
      refine .inr ⟨rfl, ?_⟩
      show 3 < if s.adb.freeList.isNone then 4 else 2
      rw [show s.adb.freeList = none from hlist]
      decide
    next e hlist =>
      obtain rfl := hmove (Option.some.inj hb).symm
      cases hb
      refine .inr ⟨rfl, ?_⟩
      show (if s.adb.fillOf e = some 0 then 5 else 1) < if s.adb.freeList.isNone then 4 else 2
      rw [if_neg (hhead e hlist), show s.adb.freeList = some e from hlist]
      exact Nat.lt_succ_self 1
  | expand paddr hold =>
    obtain ⟨adb', hexpand, rfl⟩ := Option.map_eq_some_iff.mp hb
    obtain rfl := hmove rfl
    refine .inr ⟨rfl, ?_⟩
    show (if adb'.freeList.isNone then 4 else 2) < 3
    have hsome := AddrBook.freeList_tryExpand hexpand
    rw [Option.isNone_eq_false_iff.mpr (Option.isSome_iff_ne_none.mpr hsome)]
    decide
  | pop e paddr hold =>
    simp only [bookGo] at hb
    split at hb
    · cases hb
    next table htable =>
      split at hb
      next hpop =>
        obtain rfl := hmove (Option.some.inj hb).symm
        cases hb
        refine .inr ⟨rfl, ?_⟩
        have hzero : s.adb.fillOf e = some 0 := by
          unfold AddrBook.fillOf
          rw [show s.adb.table e = some table from htable, Option.map_some, AddrTable.popFree_eq_none.mp hpop]
        show (if s.adb.freeList.isNone then 4 else 2) < if s.adb.fillOf e = some 0 then 5 else 1
        rw [if_pos hzero]
        split <;> omega
      next =>
        obtain rfl := hmove (Option.some.inj hb).symm
        exact .inl rfl
  | _ => cases hnot

/-- A thread gets an index, or clears a cell. -/
def GetsIndex (s : AdbState) (a : AdbAct) : Prop :=
  ∃ s' th, adbStep s a = some s' ∧ .book th ∈ s'.threads ∧ th.late = true

theorem ofBook_of_busy (hbusy : new.busy = true) : AdbThread.ofBook new = .book new := by
  cases new with
  | idle => cases hbusy
  | _ => rfl

/-- A put or a free that takes a section and goes on, or returns. -/
theorem adbStep_book (hth : s.threads[t]? = some (.book old)) (hst : adbStep s (.go t) = some s') :
    ∃ b new, bookGo s.book t old = some b ∧ b.threads[t]? = some new ∧ s'.adb = b.adb ∧
      s'.threads[t]? = some (.ofBook new) := by
  have hlt : t < s.threads.length := (List.getElem?_eq_some_iff.mp hth).1
  cases adbStep_cases hst with
  | cell hth' => cases hth.symm.trans hth'
  | look hth' hnone => exact absurd (Option.some.inj (hth'.symm.trans hth)) (hnone old)
  | @book _ _ new b hth' hb hnew =>
    cases hth.symm.trans hth'
    exact ⟨b, new, hb, hnew, rfl, List.getElem?_set_self hlt⟩

/-- A put that takes a section and gets no index by it. -/
theorem AdbState.Early.own (h : s.Early) (hin : s.InBook t) (hst : adbStep s (.go t) = some s')
    (hnot : ¬ GetsIndex s (.go t)) : s'.InBook t ∧ s'.rank seekRank t < s.rank seekRank t := by
  obtain ⟨old, hth, hbusy⟩ := hin
  obtain ⟨b, new, hb, hnew, hadb, hget⟩ := adbStep_book hth hst
  have hgoes : new.busy = true ∧ seekRank b.adb new < seekRank s.adb old := by
    rcases seekRank_own h.headFilled hth hbusy
      (h.early old (List.mem_of_getElem? hth)) hb hnew with hlate | hgoes
    · have hbusy' : new.busy = true := by
        cases new with
        | idle => cases hlate
        | _ => rfl
      rw [ofBook_of_busy hbusy'] at hget
      exact absurd ⟨s', new, hst, List.mem_of_getElem? hget, hlate⟩ hnot
    · exact hgoes
  rw [ofBook_of_busy hgoes.1] at hget
  refine ⟨⟨new, hget, hgoes.1⟩, ?_⟩
  rw [rank_book hget, rank_book hth, hadb]
  exact hgoes.2

def AdbState.Sound (s : AdbState) : Prop := s.Inv ∧ s.Known

theorem sound_reach {tableCap n : Nat} (hnew : newAddrBook tableCap = some adb)
    (h : Reaches adbStep (fun _ _ => True) (.new adb mem n) s) : s.Sound := by
  have hstep : ∀ m a m', AdbState.Sound m → True → adbStep m a = some m' → m'.Sound := by
    rintro m a m' ⟨hinv, hknown⟩ _ hst
    exact ⟨(adbStep_simulated hinv hst).1, hknown.preserved hinv hst⟩
  refine h.invariant hstep ⟨inv_new hnew mem n, fun e paddr hold hmem => ?_⟩
  cases List.eq_of_mem_replicate hmem

theorem tableCap_reach {tableCap n : Nat} (hnew : newAddrBook tableCap = some adb)
    (h : Reaches adbStep (fun _ _ => True) (.new adb mem n) s) : s.adb.tableCap = tableCap := by
  have hsame : s.adb.tableCap = adb.tableCap := by
    obtain ⟨tr, hrun⟩ := h
    induction hrun with
    | nil => rfl
    | snoc _ _ hst ih => exact (adbStep_grows hst).1.trans ih
  rw [hsame, (newAddrBook_eq_some.mp hnew).2]

/-- Thread `t` takes `k` sections, and the others none. -/
def AdbState.alone (s : AdbState) (t : Tid) (k : Nat) : Option AdbState :=
  exec adbStep (fun _ _ => true) s (List.replicate k (.go t))

theorem AdbState.Sound.next (h : s.Sound) (hfits : FitsTable s.adb.tableCap) (hin : s.InBook t) :
    ∃ s', adbStep s (.go t) = some s' ∧ s'.Sound ∧ FitsTable s'.adb.tableCap := by
  obtain ⟨s', hst⟩ := Option.isSome_iff_exists.mp (h.1.go_isSome h.2 hfits hin)
  exact ⟨s', hst, ⟨(adbStep_simulated h.1 hst).1, h.2.preserved h.1 hst⟩, (adbStep_grows hst).1.symm ▸ hfits⟩

end Chvm.Virt
