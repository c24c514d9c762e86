import Chvm.Lib.Run
import Chvm.Virt.Table

/-!
# Threads on one address table

Any number of threads run `adt_put_p`, `adt_free` and `adt_unlock` on one table, a critical section
a step. Between the two sections of a call the index is the thread's own: popped and not yet
written, or cleared and not yet pushed. As long as each index that a put returned is freed at most
once, every index is in exactly one place at any time, and the codes tell what happened to the
stack.
-/

set_option autoImplicit false

namespace Chvm.Virt

open Chvm.Lib

/-- Where a thread stands between two sections. -/
inductive TablePc
  | idle
  | write (code : AddrTableCode) (freeInd : Nat) (paddr : Nat) (hold : Bool)
  | push (index : Nat)
deriving DecidableEq, Repr

/-- A thread, with the code its last call returned. -/
structure TableThread where
  pc : TablePc := .idle
  code : Option AddrTableCode := none
deriving DecidableEq, Repr

/-- The table, the threads, whether a call has hit an error exit, and the indices that puts have
returned and no free has taken. -/
structure TableState where
  table : AddrTable
  threads : List TableThread
  errored : Bool
  returned : List Nat
deriving DecidableEq, Repr

inductive TableAct
  | put (t : Tid) (paddr : Nat) (hold : Bool)
  | write (t : Tid)
  | free (t : Tid) (index : Nat)
  | push (t : Tid)
  | unlock (t : Tid) (ind : Nat)
deriving DecidableEq, Repr

/-- `n` threads outside the calls, on a table. -/
def TableState.new (table : AddrTable) (n : Nat) : TableState where
  table := table
  threads := List.replicate n {}
  errored := false
  returned := []

/-- One section. After an error exit there is no further step. -/
def tableStep (s : TableState) (a : TableAct) : Option TableState :=
  if s.errored then none
  else
    match a with
    | .put t paddr hold =>
      match s.threads[t]? with
      | some ⟨.idle, _⟩ =>
        match s.table.popFree with
        | none => some { s with threads := s.threads.set t ⟨.idle, some .noSpace⟩ }
        | some (code, freeInd, table) =>
          some { s with
            table := table, threads := s.threads.set t ⟨.write code freeInd paddr hold, none⟩ }
      | _ => none
    | .write t =>
      match s.threads[t]? with
      | some ⟨.write code freeInd paddr hold, _⟩ =>
        (s.table.writeCell freeInd t paddr hold).map fun table =>
          { s with
            table := table
            threads := s.threads.set t ⟨.idle, some code⟩
            returned := freeInd :: s.returned }
      | _ => none
    | .free t index =>
      match s.threads[t]? with
      | some ⟨.idle, _⟩ =>
        match s.table.clearCell index with
        | none => none
        | some none => some { s with errored := true }
        | some (some table) =>
          some { s with
            table := table
            threads := s.threads.set t ⟨.push index, none⟩
            returned := s.returned.erase index }
      | _ => none
    | .push t =>
      match s.threads[t]? with
      | some ⟨.push index, _⟩ =>
        some { s with
          table := (s.table.pushFree index).2
          threads := s.threads.set t ⟨.idle, some (s.table.pushFree index).1⟩ }
      | _ => none
    | .unlock t ind =>
      match s.threads[t]? with
      | some ⟨.idle, _⟩ => (s.table.unlock ind t).map fun table => { s with table := table }
      | _ => none

/-- An index is freed only after a put returned it, and once. -/
def freesReturned (s : TableState) : TableAct → Prop
  | .free _ index => index ∈ s.returned
  | _ => True

/-- The index a thread has popped and not yet written. -/
def TableThread.popped (th : TableThread) : Option Nat :=
  match th.pc with
  | .write _ freeInd _ _ => some freeInd
  | _ => none

/-- The index a thread has cleared and not yet pushed. -/
def TableThread.cleared (th : TableThread) : Option Nat :=
  match th.pc with
  | .push index => some index
  | _ => none

def TableState.popped (s : TableState) : List Nat := held TableThread.popped s.threads

def TableState.cleared (s : TableState) : List Nat := held TableThread.cleared s.threads

/-! ## What a step can do -/

inductive TableMove (s : TableState) : TableAct → TableState → Prop
  | noSpace {t : Tid} {paddr : Nat} {hold : Bool} {code : Option AddrTableCode}
      (hth : s.threads[t]? = some ⟨.idle, code⟩) (hpop : s.table.popFree = none) :
      TableMove s (.put t paddr hold) { s with threads := s.threads.set t ⟨.idle, some .noSpace⟩ }
  | pop {t : Tid} {paddr : Nat} {hold : Bool} {code : Option AddrTableCode} {c : AddrTableCode}
      {i : Nat} {table : AddrTable} (hth : s.threads[t]? = some ⟨.idle, code⟩)
      (hpop : s.table.popFree = some (c, i, table)) :
      TableMove s (.put t paddr hold)
        { s with table := table, threads := s.threads.set t ⟨.write c i paddr hold, none⟩ }
  | write {t : Tid} {paddr : Nat} {hold : Bool} {code : Option AddrTableCode} {c : AddrTableCode}
      {i : Nat} {table : AddrTable} (hth : s.threads[t]? = some ⟨.write c i paddr hold, code⟩)
      (hwrite : s.table.writeCell i t paddr hold = some table) :
      TableMove s (.write t)
        { s with
          table := table, threads := s.threads.set t ⟨.idle, some c⟩, returned := i :: s.returned }
  | error {t : Tid} {i : Nat} {code : Option AddrTableCode}
      (hth : s.threads[t]? = some ⟨.idle, code⟩) (hclear : s.table.clearCell i = some none) :
      TableMove s (.free t i) { s with errored := true }
  | clear {t : Tid} {i : Nat} {code : Option AddrTableCode} {table : AddrTable}
      (hth : s.threads[t]? = some ⟨.idle, code⟩) (hclear : s.table.clearCell i = some (some table)) :
      TableMove s (.free t i)
        { s with
          table := table, threads := s.threads.set t ⟨.push i, none⟩, returned := s.returned.erase i }
  | push {t : Tid} {i : Nat} {code : Option AddrTableCode}
      (hth : s.threads[t]? = some ⟨.push i, code⟩) :
      TableMove s (.push t)
        { s with
          table := (s.table.pushFree i).2
          threads := s.threads.set t ⟨.idle, some (s.table.pushFree i).1⟩ }
  | unlock {t : Tid} {i : Nat} {code : Option AddrTableCode} {table : AddrTable}
      (hth : s.threads[t]? = some ⟨.idle, code⟩) (hunlock : s.table.unlock i t = some table) :
      TableMove s (.unlock t i) { s with table := table }

theorem tableStep_cases {s s' : TableState} {a : TableAct} (h : tableStep s a = some s') :
    s.errored = false ∧ TableMove s a s' := by
  unfold tableStep at h
  split at h
  · cases h
  next hrun =>
    refine ⟨by simpa only [Bool.not_eq_true] using hrun, ?_⟩
    cases a with
    | put t paddr hold =>
      simp only at h
      split at h
      next hth =>
        split at h
        · cases h
          exact .noSpace hth (by assumption)
        · cases h
          exact .pop hth (by assumption)
      next => cases h
    | write t =>
      simp only at h
      split at h
      next hth =>
        obtain ⟨table, hwrite, rfl⟩ := Option.map_eq_some_iff.mp h
        exact .write hth hwrite
      next => cases h
    | free t i =>
      simp only at h
      split at h
      next hth =>
        split at h
        · cases h
        · cases h
          exact .error hth (by assumption)
        · cases h
          exact .clear hth (by assumption)
      next => cases h
    | push t =>
      simp only at h
      split at h
      next hth =>
        cases h
        exact .push hth
      next => cases h
    | unlock t i =>
      simp only at h
      split at h
      next hth =>
        obtain ⟨table, hunlock, rfl⟩ := Option.map_eq_some_iff.mp h
        exact .unlock hth hunlock
      next => cases h

/-! ## The account in every reachable state -/

structure Exclusive (cap : Nat) (s : TableState) : Prop where
  cap : s.table.cap = cap
  accounted : s.table.Accounted s.popped s.cleared
  returned : ∀ i ∈ s.returned, s.table.isAllocated i = true
  nodup : s.returned.Nodup
  running : s.errored = false

variable {s s' : TableState} {a : TableAct} {cap : Nat}

theorem held_replicate {f : TableThread → Option Nat} (hidle : f {} = none) (n : Nat) :
    held f (List.replicate n {}) = [] := by
  refine List.filterMap_eq_nil_iff.mpr fun th hth => ?_
  rw [List.eq_of_mem_replicate hth]
  exact hidle

theorem exclusive_new {table : AddrTable} (h : newAddrTable cap = some table) (n : Nat) :
    Exclusive cap (TableState.new table n) where
  cap := (AddrTable.newAddrTable_eq h).1
  accounted := by
    have hpopped : (TableState.new table n).popped = [] := held_replicate rfl n
    have hcleared : (TableState.new table n).cleared = [] := held_replicate rfl n
    rw [hpopped, hcleared]
    exact AddrTable.accounted_new h
  returned _ h := nomatch h
  nodup := List.nodup_nil
  running := rfl

theorem Exclusive.preserved (hi : Exclusive cap s) (h : tableStep s a = some s')
    (hok : freesReturned s a) : Exclusive cap s' := by
  obtain ⟨-, hm⟩ := tableStep_cases h
  have hacc := hi.accounted
  -- what the moving thread held before and holds now, in the counts of the account
  have popped : ∀ {t : Tid} {old : TableThread} (new : TableThread), s.threads[t]? = some old →
      ∀ j, (held TableThread.popped (s.threads.set t new)).count j + old.popped.toList.count j =
        s.popped.count j + new.popped.toList.count j := fun new hth => count_held_set hth new
  have cleared : ∀ {t : Tid} {old : TableThread} (new : TableThread), s.threads[t]? = some old →
      ∀ j, (held TableThread.cleared (s.threads.set t new)).count j + old.cleared.toList.count j =
        s.cleared.count j + new.cleared.toList.count j := fun new hth => count_held_set hth new
  cases hm with
  | @noSpace t _ _ _ hth =>
    exact ⟨hi.cap, hacc.of_counts (popped _ hth) (cleared _ hth), hi.returned, hi.nodup, hi.running⟩
  | @pop t paddr hold code c i table hth hpop =>
    obtain ⟨-, hcap, hcells, -⟩ := AddrTable.stackFill_of_popFree hpop
    have hcount : ∀ j, (held TableThread.popped (s.threads.set t ⟨.write c i paddr hold, none⟩)).count j =
        s.popped.count j + [i].count j := popped _ hth
    refine ⟨hcap.trans hi.cap, ?_, fun j hmem => ?_, hi.nodup, hi.running⟩
    · exact (hacc.pop hpop hcount).of_counts (fun _ => rfl) (cleared _ hth)
    · have hret := hi.returned j hmem
      unfold AddrTable.isAllocated at hret ⊢
      rw [hcells]
      exact hret
  | @write t paddr hold code c i table hth hwrite =>
    have hmem : i ∈ s.popped := mem_held_of_get hth rfl
    refine ⟨(AddrTable.sameStack_writeCell hwrite).cap.trans hi.cap, ?_, fun j hj => ?_, ?_, hi.running⟩
    · exact (hacc.write hwrite (popped _ hth)).of_counts (fun _ => rfl) (cleared _ hth)
    · rw [AddrTable.isAllocated_writeCell hwrite]
      split
      next => rfl
      next hne => exact hi.returned j ((List.mem_cons.mp hj).resolve_left hne)
    · refine List.nodup_cons.mpr ⟨fun hret => ?_, hi.nodup⟩
      have hnot := (hacc.of_popped hmem).2
      rw [hi.returned i hret] at hnot
      cases hnot
  | error _ hclear => exact absurd hclear (AddrTable.clearCell_of_allocated (hi.returned _ hok))
  | @clear t i code table hth hclear =>
    refine ⟨(AddrTable.sameStack_clearCell hclear).cap.trans hi.cap, ?_, fun j hj => ?_,
      hi.nodup.erase i, hi.running⟩
    · have hcount : ∀ j, (held TableThread.cleared (s.threads.set t ⟨.push i, none⟩)).count j =
          s.cleared.count j + [i].count j := cleared _ hth
      exact (hacc.clear hclear hcount).of_counts (popped _ hth) fun _ => rfl
    · rw [AddrTable.isAllocated_clearCell hclear, if_neg]
      · exact hi.returned j (List.mem_of_mem_erase hj)
      · rintro rfl
        exact (hi.nodup.not_mem_erase) hj
  | push hth =>
    refine ⟨hi.cap, ?_, hi.returned, hi.nodup, hi.running⟩
    exact (hacc.push (cleared _ hth)).of_counts (popped _ hth) fun _ => rfl
  | unlock _ hunlock =>
    refine ⟨(AddrTable.sameStack_unlock hunlock).cap.trans hi.cap, hacc.unlock hunlock,
      fun j hj => ?_, hi.nodup, hi.running⟩
    rw [AddrTable.isAllocated_unlock hunlock]
    exact hi.returned j hj

theorem get_set_self {α : Type*} {ts : List α} {t : Nat} {old : α} (h : ts[t]? = some old)
    (new : α) : (ts.set t new)[t]? = some new :=
  List.getElem?_set_self (List.getElem?_eq_some_iff.mp h).1

/-- The codes of a put: `ADT_NO_SPACE` when the stack is empty at the pop, `ADT_NEWLY_FULL` when the
pop empties it. -/
theorem Exclusive.put_codes (hi : Exclusive cap s) (hi' : Exclusive cap s') {t : Tid} {paddr : Nat}
    {hold : Bool} (h : tableStep s (.put t paddr hold) = some s') :
    (s'.threads[t]? = some ⟨.idle, some .noSpace⟩ ↔ s.table.stack = []) ∧
      ((∃ i, s'.threads[t]? = some ⟨.write .newlyFull i paddr hold, none⟩) ↔
        s.table.stack ≠ [] ∧ s'.table.stack = []) := by
  rw [ne_eq, AddrTable.stack_eq_nil hi.accounted, AddrTable.stack_eq_nil hi'.accounted]
  obtain ⟨-, hm⟩ := tableStep_cases h
  cases hm with
  | noSpace hth hpop =>
    have hempty := AddrTable.popFree_eq_none.mp hpop
    have hget := get_set_self hth ⟨.idle, some .noSpace⟩
    simp only [hget, hempty, true_and, not_true_eq_false, false_and, iff_false]
    rintro ⟨i, hi⟩
    cases hi
  | @pop _ _ _ _ code i table hth hpop =>
    obtain ⟨hfill, -, -, hcode⟩ := AddrTable.stackFill_of_popFree hpop
    have hget := get_set_self hth ⟨.write code i paddr hold, none⟩
    have hne : s.table.stackFill ≠ 0 := by omega
    simp only [hget, hne, iff_false, not_false_eq_true, true_and]
    refine ⟨nofun, ?_⟩
    constructor
    · rintro ⟨j, hj⟩
      cases hj
      by_contra hsome
      rw [if_neg hsome] at hcode
      cases hcode
    · intro hempty
      rw [if_pos hempty] at hcode
      exact ⟨i, hcode ▸ rfl⟩

/-- The code of a free: `ADT_NEWLY_FREE` when it pushes onto an empty stack. -/
theorem Exclusive.free_codes (hi : Exclusive cap s) {t : Tid}
    (h : tableStep s (.push t) = some s') :
    s'.threads[t]? = some ⟨.idle, some .newlyFree⟩ ↔ s.table.stack = [] := by
  rw [AddrTable.stack_eq_nil hi.accounted]
  obtain ⟨-, hm⟩ := tableStep_cases h
  cases hm with
  | @push _ i _ hth =>
    rw [get_set_self hth]
    unfold AddrTable.pushFree
    split
    next hempty => exact ⟨fun _ => hempty, fun _ => rfl⟩
    next hne => exact ⟨nofun, fun hempty => absurd hempty hne⟩

/-- A put returns the index and the code it got from its pop, and the index is nobody's. -/
theorem Exclusive.put_returns (hi : Exclusive cap s) {t : Tid}
    (h : tableStep s (.write t) = some s') :
    ∃ code i paddr hold last, s.threads[t]? = some ⟨.write code i paddr hold, last⟩ ∧
      s'.threads[t]? = some ⟨.idle, some code⟩ ∧ s'.returned = i :: s.returned ∧
      i ∉ s.returned := by
  obtain ⟨-, hm⟩ := tableStep_cases h
  cases hm with
  | @write _ paddr hold last code i _ hth =>
    refine ⟨code, i, paddr, hold, last, hth, get_set_self hth _, rfl, fun hret => ?_⟩
    have hmem : i ∈ s.popped := mem_held_of_get hth rfl
    have hnot := (hi.accounted.of_popped hmem).2
    rw [hi.returned i hret] at hnot
    cases hnot

theorem exclusive_of_reaches {table : AddrTable} (n : Nat) (hnew : newAddrTable cap = some table)
    (h : Reaches tableStep freesReturned (TableState.new table n) s) : Exclusive cap s :=
  h.invariant (fun _ _ _ hi hok hst => hi.preserved hst hok) (exclusive_new hnew n)

/-- What holds in a state of a table of `cap` cells: the indices on the stack, popped, allocated and cleared
are all indices, each once; no free has hit the error exit; a put returns an index that no put has returned
since it was last freed; and the codes say exactly when the stack was found empty, became empty and stopped
being empty. -/
structure HandsOut (cap : Nat) (s : TableState) : Prop where
  perm : (s.table.stack ++ s.popped ++ s.table.allocated ++ s.cleared).Perm (List.range cap)
  fill : s.table.stackFill ≤ cap
  running : s.errored = false
  returns : ∀ t s', tableStep s (.write t) = some s' →
    ∃ code i paddr hold last, s.threads[t]? = some ⟨.write code i paddr hold, last⟩ ∧
      s'.threads[t]? = some ⟨.idle, some code⟩ ∧ s'.returned = i :: s.returned ∧ i ∉ s.returned
  putCodes : ∀ t paddr hold s', tableStep s (.put t paddr hold) = some s' →
    (s'.threads[t]? = some ⟨.idle, some .noSpace⟩ ↔ s.table.stack = []) ∧
      ((∃ i, s'.threads[t]? = some ⟨.write .newlyFull i paddr hold, none⟩) ↔
        s.table.stack ≠ [] ∧ s'.table.stack = [])
  freeCodes : ∀ t s', tableStep s (.push t) = some s' →
    (s'.threads[t]? = some ⟨.idle, some .newlyFree⟩ ↔ s.table.stack = [])

theorem Exclusive.handsOut (hi : Exclusive cap s) : HandsOut cap s where
  perm := hi.cap ▸ hi.accounted.perm
  fill := hi.cap ▸ hi.accounted.fill
  running := hi.running
  returns _ _ hst := hi.put_returns hst
  putCodes _ _ _ _ hst := hi.put_codes (hi.preserved hst trivial) hst
  freeCodes _ _ hst := hi.free_codes hst

/-- **Indices are handed out exclusively**, by any number of threads on a new table, exactly when the table is
inside the block it is written to. -/
theorem indices_exclusive (hpos : 0 < cap) :
    (∃ table, newAddrTable cap = some table ∧
      ∀ n s, Reaches tableStep freesReturned (TableState.new table n) s → HandsOut cap s) ↔
        FitsTable cap := by
  rw [← newAddrTable_isSome (Nat.pos_iff_ne_zero.mp hpos), Option.isSome_iff_exists]
  constructor
  · rintro ⟨table, hnew, -⟩
    exact ⟨table, hnew⟩
  · rintro ⟨table, hnew⟩
    exact ⟨table, hnew, fun n s hreach => (exclusive_of_reaches n hnew hreach).handsOut⟩

/-- A table of `2 ^ 59` cells: of the 216 bytes that are asked for the header takes all, and the first index
of the free stack is written behind them. -/
theorem huge_table_overrun : addrTableBytes (2 ^ 59) = 216 ∧ (216, 8) ∈ initWrites (2 ^ 59) ∧
    ¬ ∀ cap, 0 < cap → cap < 2 ^ 64 → ∃ table, newAddrTable cap = some table ∧
      ∀ n s, Reaches tableStep freesReturned (TableState.new table n) s → HandsOut cap s := by
  refine ⟨rfl, ?_, fun h => ?_⟩
  · refine List.mem_append_left _ (List.mem_cons_of_mem _ ?_)
    exact List.mem_map.mpr ⟨0, List.mem_range.mpr (by decide), rfl⟩
  · obtain ⟨table, hnew, -⟩ := h (2 ^ 59) (by decide) (by decide)
    exact absurd (newAddrTable_eq_some.mp hnew).2.1 (by decide)

/-- Two threads on a table of one cell: the second put finds no space. -/
theorem indices_exclusive_one : ∃ s : TableState,
    s.threads[1]? = some ⟨.idle, some .noSpace⟩ ∧ s.table.stackFill ≤ 1 ∧ s.errored = false := by
  obtain ⟨table, s, hnew, hrun, hcode⟩ : ∃ table s, newAddrTable 1 = some table ∧
      exec tableStep (fun m a => match a with | .free _ i => m.returned.contains i | _ => true)
        (TableState.new table 2) [.put 0 8 false, .put 1 8 false, .write 0, .free 0 0] = some s ∧
      s.threads[1]? = some ⟨.idle, some .noSpace⟩ := ⟨_, _, rfl, rfl, rfl⟩
  have hreach : Reaches tableStep freesReturned (TableState.new table 2) s :=
    reaches_of_exec (fun m a h => by
      cases a with
      | free => exact List.contains_iff_mem.mp h
      | _ => trivial) _ hrun
  obtain ⟨table', hnew', hall⟩ := (indices_exclusive Nat.one_pos).mpr (by decide)
  cases hnew.symm.trans hnew'
  have hout := hall 2 s hreach
  exact ⟨s, hcode, hout.fill, hout.running⟩

end Chvm.Virt
