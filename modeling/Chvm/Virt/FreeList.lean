import Chvm.Lib.Run
import Chvm.Virt.Coherent

/-!
# Threads on one address book

Any number of threads run `adb_put_p`, `adb_free` and `adb_unlock`, a critical section a step. An
entry index that `adb_put_p` has read, and the index of a removal or an addition, may be stale by
the time it is used: the sections check again. What a thread still owes the free list can be read
off where it stands.
-/

set_option autoImplicit false

namespace Chvm.Virt

open Chvm.Lib

/-- Where a thread stands between two sections. -/
inductive BookThread
  | idle (returned : Option Vaddr)
  /-- `adb_put_p` is about to read `free_list`. -/
  | seek (paddr : Nat) (hold : Bool)
  | expand (paddr : Nat) (hold : Bool)
  /-- `adb_put_p` has read the entry. -/
  | pop (entryIndex : Nat) (paddr : Nat) (hold : Bool)
  | write (entryIndex : Nat) (code : AddrTableCode) (index : Nat) (paddr : Nat) (hold : Bool)
  | removal (entryIndex : Nat) (index : Nat)
  | push (tableIndex : Nat) (index : Nat)
  | addition (tableIndex : Nat)
deriving DecidableEq, Repr

structure BookState where
  adb : AddrBook
  threads : List BookThread
deriving DecidableEq, Repr

inductive BookAct
  | put (t : Tid) (paddr : Nat) (hold : Bool)
  | free (t : Tid) (vaddr : Vaddr)
  | unlock (t : Tid) (vaddr : Vaddr)
  /-- The next section of the call the thread is in. -/
  | go (t : Tid)
deriving DecidableEq, Repr

/-- `n` threads outside the calls, on a book. -/
def BookState.new (adb : AddrBook) (n : Nat) : BookState where
  adb := adb
  threads := List.replicate n (.idle none)

/-- Thread `t` goes on to `th`, with the book as it then is. -/
def BookState.move (s : BookState) (t : Tid) (adb : AddrBook) (th : BookThread) : BookState where
  adb := adb
  threads := s.threads.set t th

/-- The next section of the call that thread `t` is in; `none` outside a call, while a cell lock is
waited for, or where no table is made. -/
def bookGo (s : BookState) (t : Tid) : BookThread → Option BookState
  | .idle _ => none
  | .seek paddr hold =>
    match s.adb.freeList with
    | none => some (s.move t s.adb (.expand paddr hold))
    | some e => some (s.move t s.adb (.pop e paddr hold))
  | .expand paddr hold => s.adb.tryExpand.map fun adb => s.move t adb (.seek paddr hold)
  | .pop e paddr hold =>
    match s.adb.table e with
    | none => none
    | some adt =>
      match adt.popFree with
      | none => some (s.move t s.adb (.seek paddr hold))
      | some (code, index, adt') =>
        some (s.move t (s.adb.setTable e adt') (.write e code index paddr hold))
  | .write e code index paddr hold =>
    match s.adb.table e with
    | none => none
    | some adt =>
      match adt.writeCell index t paddr hold with
      | none => none
      | some adt' =>
        some (s.move t (s.adb.setTable e adt')
          (if code = .newlyFull then .removal e index else .idle (some ⟨e, index⟩)))
  | .removal e index => some (s.move t (s.adb.tryRemoval e) (.idle (some ⟨e, index⟩)))
  | .push e index =>
    match s.adb.table e with
    | none => none
    | some adt =>
      some (s.move t (s.adb.setTable e (adt.pushFree index).2)
        (if (adt.pushFree index).1 = .newlyFree then .addition e else .idle none))
  | .addition e => some (s.move t (s.adb.tryAddition e) (.idle none))

/-- One step. The error exits of `adb_free` and `adb_unlock` end the run. -/
def bookStep (s : BookState) : BookAct → Option BookState
  | .put t paddr hold =>
    match s.threads[t]? with
    | some (.idle _) => some (s.move t s.adb (.seek paddr hold))
    | _ => none
  | .free t v =>
    match s.threads[t]? with
    | some (.idle _) =>
      match s.adb.table v.tableIndex with
      | none => none
      | some adt =>
        match adt.clearCell v.cellIndex with
        | some (some adt') =>
          some (s.move t (s.adb.setTable v.tableIndex adt') (.push v.tableIndex v.cellIndex))
        | _ => none
    | _ => none
  | .unlock t v =>
    match s.threads[t]? with
    | some (.idle returned) =>
      match s.adb.table v.tableIndex with
      | none => none
      | some adt =>
        (adt.unlock v.cellIndex t).map fun adt' =>
          s.move t (s.adb.setTable v.tableIndex adt') (.idle returned)
    | _ => none
  | .go t => (s.threads[t]?).bind (bookGo s t)

/-- A vaddr is live from the write of its cell to the clear; only live vaddrs are freed. -/
def freesLive (s : BookState) : BookAct → Prop
  | .free _ v => ∃ adt, s.adb.table v.tableIndex = some adt ∧ adt.isAllocated v.cellIndex = true
  | _ => True

/-! ## What a thread owes -/

namespace BookThread

/-- The table a thread has still to add. -/
def adds : BookThread → Option Nat
  | .addition e => some e
  | _ => none

/-- The table a thread has still to remove: it has emptied its stack. -/
def removes : BookThread → Option Nat
  | .write e .newlyFull _ _ _ => some e
  | .removal e _ => some e
  | _ => none

/-- The vaddr whose cell a put has still to write. -/
def popped : BookThread → Option Vaddr
  | .write e _ index _ _ => some ⟨e, index⟩
  | _ => none

/-- The vaddr whose index a free has still to push. -/
def cleared : BookThread → Option Vaddr
  | .push e index => some ⟨e, index⟩
  | _ => none

end BookThread

/-- The book with what the threads owe it. -/
def BookState.Coherent (s : BookState) : Prop :=
  s.adb.Coherent (· ∈ held BookThread.adds s.threads) (· ∈ held BookThread.removes s.threads)
    (held BookThread.popped s.threads) (held BookThread.cleared s.threads)

variable {s s' : BookState} {a : BookAct} {t : Tid} {old new : BookThread}

/-- A thread that moves on settles at most what it owed. -/
theorem BookState.Coherent.settle (h : s.Coherent) (hth : s.threads[t]? = some old)
    (new : BookThread) :
    s.adb.Coherent (fun e => e ∈ held BookThread.adds (s.threads.set t new) ∨ old.adds = some e)
      (fun e => e ∈ held BookThread.removes (s.threads.set t new) ∨ old.removes = some e)
      (held BookThread.popped s.threads) (held BookThread.cleared s.threads) :=
  h.mono (fun _ => mem_held_set hth new) (fun _ => mem_held_set hth new) (fun _ => rfl) fun _ => rfl

/-- A thread that moves on and settles nothing. -/
theorem BookState.Coherent.keep (h : s.Coherent) (hth : s.threads[t]? = some old)
    (new : BookThread) (hadds : ∀ e, old.adds = some e → new.adds = some e)
    (hremoves : ∀ e, old.removes = some e → new.removes = some e) :
    s.adb.Coherent (· ∈ held BookThread.adds (s.threads.set t new))
      (· ∈ held BookThread.removes (s.threads.set t new))
      (held BookThread.popped s.threads) (held BookThread.cleared s.threads) := by
  have hmem := mem_set_of_get hth new
  refine (h.settle hth new).mono (fun e he => ?_) (fun e he => ?_) (fun _ => rfl) fun _ => rfl
  · exact he.elim id fun ho => mem_held.mpr ⟨new, hmem, hadds e ho⟩
  · exact he.elim id fun ho => mem_held.mpr ⟨new, hmem, hremoves e ho⟩

/-- What the moving thread held and holds, in the counts of the account. -/
theorem popped_move (hth : s.threads[t]? = some old) (new : BookThread) (v : Vaddr) :
    (held BookThread.popped (s.threads.set t new)).count v + old.popped.toList.count v =
      (held BookThread.popped s.threads).count v + new.popped.toList.count v :=
  count_held_set hth new v

theorem cleared_move (hth : s.threads[t]? = some old) (new : BookThread) (v : Vaddr) :
    (held BookThread.cleared (s.threads.set t new)).count v + old.cleared.toList.count v =
      (held BookThread.cleared s.threads).count v + new.cleared.toList.count v :=
  count_held_set hth new v

theorem popped_same (hth : s.threads[t]? = some old) (new : BookThread)
    (h : new.popped = old.popped) (v : Vaddr) :
    (held BookThread.popped (s.threads.set t new)).count v =
      (held BookThread.popped s.threads).count v := by
  have hcount := popped_move hth new v
  rw [h] at hcount
  omega

theorem cleared_same (hth : s.threads[t]? = some old) (new : BookThread)
    (h : new.cleared = old.cleared) (v : Vaddr) :
    (held BookThread.cleared (s.threads.set t new)).count v =
      (held BookThread.cleared s.threads).count v := by
  have hcount := cleared_move hth new v
  rw [h] at hcount
  omega

/-- A thread that moves on with what it has. -/
theorem BookState.Coherent.move (h : s.Coherent) (hth : s.threads[t]? = some old)
    (hadds : ∀ e, old.adds = some e → new.adds = some e)
    (hremoves : ∀ e, old.removes = some e → new.removes = some e)
    (hpopped : new.popped = old.popped) (hcleared : new.cleared = old.cleared) :
    (s.move t s.adb new).Coherent :=
  (h.keep hth new hadds hremoves).mono (fun _ => id) (fun _ => id) (popped_same hth new hpopped)
    (cleared_same hth new hcleared)

/-- The next section of a call keeps the book coherent. -/
theorem BookState.Coherent.go (h : s.Coherent) (hth : s.threads[t]? = some old)
    (hgo : bookGo s t old = some s') : s'.Coherent := by
  cases old with
  | idle => cases hgo
  | seek paddr hold =>
    simp only [bookGo] at hgo
    split at hgo <;> cases hgo <;> exact h.move hth nofun nofun rfl rfl
  | expand paddr hold =>
    obtain ⟨adb, hexpand, rfl⟩ := Option.map_eq_some_iff.mp hgo
    have hmove : (s.move t s.adb (.seek paddr hold)).Coherent := h.move hth nofun nofun rfl rfl
    exact AddrBook.Coherent.tryExpand hmove hexpand
  | pop e paddr hold =>
    simp only [bookGo] at hgo
    split at hgo
    · cases hgo
    next adt htable =>
      split at hgo
      · cases hgo
        exact h.move hth nofun nofun rfl rfl
      next code index adt' hpop =>
        cases hgo
        have hmem := mem_set_of_get hth (.write e code index paddr hold)
        have hkeep := h.keep hth (.write e code index paddr hold) nofun nofun
        have hpopped := popped_move hth (.write e code index paddr hold)
        refine (hkeep.pop htable hpop (fun hfull => ?_) hpopped).mono (fun _ => id)
          (fun _ => id) (fun _ => rfl) (cleared_same hth _ rfl)
        subst hfull
        exact mem_held.mpr ⟨_, hmem, rfl⟩
  | write e code index paddr hold =>
    simp only [bookGo] at hgo
    split at hgo
    · cases hgo
    next adt htable =>
      split at hgo
      · cases hgo
      next adt' hwrite =>
        cases hgo
        split
        next hfull =>
          -- the put still owes the removal
          subst hfull
          have hkeep := h.keep hth (.removal e index) nofun fun _ => id
          exact (hkeep.write htable hwrite (popped_move hth _)).mono (fun _ => id) (fun _ => id)
            (fun _ => rfl) (cleared_same hth _ rfl)
        next hfull =>
          have hkeep := h.keep hth (.idle (some ⟨e, index⟩)) nofun fun e' he' => by
            cases code with
            | newlyFull => exact absurd rfl hfull
            | _ => cases he'
          exact (hkeep.write htable hwrite (popped_move hth _)).mono (fun _ => id) (fun _ => id)
            (fun _ => rfl) (cleared_same hth _ rfl)
  | removal e index =>
    cases hgo
    let new : BookThread := .idle (some ⟨e, index⟩)
    have hsettle := (h.settle hth new).mono (fun e' he' => he'.resolve_right nofun) (fun _ => id)
      (popped_same hth new rfl) (cleared_same hth new rfl)
    refine hsettle.tryRemoval fun e' hne he' => he'.resolve_right fun heq => hne ?_
    cases heq
    rfl
  | push e index =>
    simp only [bookGo] at hgo
    split at hgo
    · cases hgo
    next adt htable =>
      cases hgo
      split
      next hfree =>
        have hmem := mem_set_of_get hth (.addition e)
        have hkeep := h.keep hth (.addition e) nofun nofun
        exact (hkeep.push_table htable (fun _ => mem_held.mpr ⟨_, hmem, rfl⟩)
          (cleared_move hth _)).mono (fun _ => id) (fun _ => id) (popped_same hth _ rfl) fun _ => rfl
      next hfree =>
        have hkeep := h.keep hth (.idle none) nofun nofun
        exact (hkeep.push_table htable (fun h' => absurd h' hfree) (cleared_move hth _)).mono
          (fun _ => id) (fun _ => id) (popped_same hth _ rfl) fun _ => rfl
  | addition e =>
    cases hgo
    let new : BookThread := .idle none
    have hsettle := (h.settle hth new).mono (fun _ => id) (fun e' he' => he'.resolve_right nofun)
      (popped_same hth new rfl) (cleared_same hth new rfl)
    refine hsettle.tryAddition fun e' hne he' => he'.resolve_right fun heq => hne ?_
    cases heq
    rfl

/-- Every step keeps the book coherent. -/
theorem BookState.Coherent.preserved (h : s.Coherent) (hst : bookStep s a = some s') :
    s'.Coherent := by
  cases a with
  | put t paddr hold =>
    simp only [bookStep] at hst
    split at hst
    next hth =>
      cases hst
      exact h.move hth nofun nofun rfl rfl
    next => cases hst
  | free t v =>
    simp only [bookStep] at hst
    split at hst
    next hth =>
      split at hst
      · cases hst
      next adt htable =>
        split at hst
        next adt' hclear =>
          cases hst
          have hkeep := h.keep hth (.push v.tableIndex v.cellIndex) nofun nofun
          have hcleared := cleared_move hth (.push v.tableIndex v.cellIndex)
          exact (hkeep.clear htable hclear hcleared).mono (fun _ => id) (fun _ => id)
            (popped_same hth _ rfl) fun _ => rfl
        next => cases hst
    next => cases hst
  | unlock t v =>
    simp only [bookStep] at hst
    split at hst
    next returned hth =>
      split at hst
      · cases hst
      next adt htable =>
        obtain ⟨adt', hunlock, rfl⟩ := Option.map_eq_some_iff.mp hst
        have hmove : (s.move t s.adb (.idle returned)).Coherent := h.move hth nofun nofun rfl rfl
        exact AddrBook.Coherent.unlock hmove htable hunlock
    next => cases hst
  | go t =>
    obtain ⟨old, hth, hgo⟩ := Option.bind_eq_some_iff.mp hst
    exact h.go hth hgo

theorem coherent_start {adb : AddrBook} {tableCap : Nat} (h : newAddrBook tableCap = some adb)
    (n : Nat) : (BookState.new adb n).Coherent := by
  have hnone : ∀ {β : Type} (f : BookThread → Option β), f (.idle none) = none →
      held f (List.replicate n (.idle none)) = [] := by
    intro β f hf
    refine List.filterMap_eq_nil_iff.mpr fun th hth => ?_
    rw [List.eq_of_mem_replicate hth]
    exact hf
  have hstart : adb.Coherent (fun _ => False) (fun _ => False) [] [] := AddrBook.coherent_new h
  unfold BookState.Coherent BookState.new
  rw [hnone BookThread.popped rfl, hnone BookThread.cleared rfl]
  exact hstart.mono (fun _ => False.elim) (fun _ => False.elim) (fun _ => rfl) fun _ => rfl

/-- A table between two calls: what is not on the stack is allocated. -/
theorem free_cell_of_stack {adt : AddrTable} (h : adt.Accounted [] []) :
    adt.stackFill ≠ 0 ↔ ∃ i, i < adt.cap ∧ adt.isAllocated i = false := by
  have hcount := h.count
  simp only [List.count_nil, Nat.add_zero, AddrTable.count_allocated] at hcount
  rw [ne_eq, ← AddrTable.stack_eq_nil h]
  constructor
  · intro hne
    obtain ⟨i, hi⟩ := List.exists_mem_of_ne_nil _ hne
    have hpos := List.count_pos_iff.mpr hi
    have hi := hcount i
    refine ⟨i, ?_, ?_⟩
    · by_contra hge
      rw [if_neg hge] at hi
      omega
    · by_contra hallocated
      rw [Bool.not_eq_false] at hallocated
      simp only [hallocated, true_and] at hi
      split_ifs at hi <;> omega
  · rintro ⟨i, hlt, hfree⟩ hnil
    have hi := hcount i
    simp only [hnil, hlt, hfree, Bool.false_eq_true, false_and, if_false, if_true,
      List.count_nil] at hi
    omega

/-- **The free list.** In every reachable state it is a doubly linked list, without repetition, of
exactly the entries whose flag is set; a table outside it that has an index on its stack has an
addition pending, and a table in it that has none has a removal pending. When no call is in
progress, the tables in the list are those that have a free cell. -/
theorem free_list_coherent {adb : AddrBook} {tableCap : Nat} (n : Nat)
    (hnew : newAddrBook tableCap = some adb)
    (h : Reaches bookStep freesLive (BookState.new adb n) s) :
    (∃ l, l.Nodup ∧ Linked s.adb.next s.adb.prev s.adb.freeList l ∧
      ∀ e, e ∈ l ↔ s.adb.inFreeList e = true) ∧
    (∀ e adt, s.adb.table e = some adt → adt.stack ≠ [] → s.adb.inFreeList e = false →
      ∃ th ∈ s.threads, th.adds = some e) ∧
    (∀ e adt, s.adb.table e = some adt → adt.stack = [] → s.adb.inFreeList e = true →
      ∃ th ∈ s.threads, th.removes = some e) ∧
    ((∀ th ∈ s.threads, ∃ returned, th = .idle returned) →
      ∀ e adt, s.adb.table e = some adt →
        (s.adb.inFreeList e = true ↔ ∃ i, i < adt.cap ∧ adt.isAllocated i = false)) := by
  have hc : s.Coherent := h.invariant (fun _ _ _ hc _ hst => hc.preserved hst) (coherent_start hnew n)
  obtain ⟨l, hl⟩ := hc.listed
  have hadds : ∀ e adt, s.adb.table e = some adt → adt.stack ≠ [] → s.adb.inFreeList e = false →
      ∃ th ∈ s.threads, th.adds = some e := by
    intro e adt htable hstack hout
    have ht := hc.tabled e adt htable
    rw [ne_eq, AddrTable.stack_eq_nil ht.accounted] at hstack
    refine mem_held.mp ((ht.adds hstack).resolve_left fun hin => ?_)
    rw [hin] at hout
    cases hout
  have hremoves : ∀ e adt, s.adb.table e = some adt → adt.stack = [] → s.adb.inFreeList e = true →
      ∃ th ∈ s.threads, th.removes = some e := by
    intro e adt htable hstack hin
    have ht := hc.tabled e adt htable
    exact mem_held.mp (ht.removes ((AddrTable.stack_eq_nil ht.accounted).mp hstack) hin)
  refine ⟨⟨l, hl.nodup, hl.linked, hl.mem⟩, hadds, hremoves, fun hidle e adt htable => ?_⟩
  -- between two calls nothing is pending, and nothing is on its way to or from the stack
  have hnone : ∀ {β : Type} (f : BookThread → Option β), (∀ r, f (.idle r) = none) →
      held f s.threads = [] := by
    intro β f hf
    refine List.filterMap_eq_nil_iff.mpr fun th hth => ?_
    obtain ⟨r, rfl⟩ := hidle th hth
    exact hf r
  have hacc := (hc.tabled e adt htable).accounted
  rw [hnone _ fun _ => rfl, hnone _ fun _ => rfl] at hacc
  rw [← free_cell_of_stack hacc, ne_eq, ← AddrTable.stack_eq_nil hacc]
  constructor
  · intro hin hstack
    obtain ⟨th, hth, hrem⟩ := hremoves e adt htable hstack hin
    obtain ⟨r, rfl⟩ := hidle th hth
    cases hrem
  · intro hstack
    by_contra hout
    obtain ⟨th, hth, hadd⟩ := hadds e adt htable hstack (Bool.not_eq_true _ ▸ hout)
    obtain ⟨r, rfl⟩ := hidle th hth
    cases hadd

/-- One thread fills a table of one cell and frees the cell again: the table is back in the list. -/
theorem free_list_coherent_refilled : ∃ s : BookState,
    (∃ i, ∃ adt, s.adb.table 0 = some adt ∧ i < adt.cap ∧ adt.isAllocated i = false) ∧
      s.adb.inFreeList 0 = true := by
  obtain ⟨adb, s, hnew, hrun, hcheck⟩ : ∃ adb s, newAddrBook 1 = some adb ∧
      exec bookStep (fun m a => match a with
          | .free _ v => (m.adb.table v.tableIndex).any (·.isAllocated v.cellIndex)
          | _ => true) (BookState.new adb 1)
        [.put 0 8 false, .go 0, .go 0, .go 0, .go 0, .go 0, .go 0, .free 0 ⟨0, 0⟩, .go 0, .go 0] =
          some s ∧
      (s.adb.table 0).isSome = true ∧ s.adb.inFreeList 0 = true ∧ s.threads = [.idle none] :=
    ⟨_, _, rfl, rfl, rfl, rfl, rfl⟩
  obtain ⟨htable, hin, hidle⟩ := hcheck
  have hreach : Reaches bookStep freesLive (BookState.new adb 1) s :=
    reaches_of_exec (fun m a h => by
      cases a with
      | free t v =>
        obtain ⟨adt, hadt, hlive⟩ := (Option.any_eq_true ..).mp h
        exact ⟨adt, hadt, hlive⟩
      | _ => trivial) _ hrun
  obtain ⟨-, -, -, hquiet⟩ := free_list_coherent 1 hnew hreach
  obtain ⟨adt, hadt⟩ := Option.isSome_iff_exists.mp htable
  have hall : ∀ th ∈ s.threads, ∃ returned, th = .idle returned := by
    intro th hth
    rw [hidle] at hth
    exact ⟨none, List.mem_singleton.mp hth⟩
  obtain ⟨i, hlt, hfree⟩ := (hquiet hall 0 adt hadt).mp hin
  exact ⟨s, ⟨i, adt, hadt, hlt, hfree⟩, hin⟩

end Chvm.Virt
