import Mathlib.Algebra.Order.BigOperators.Group.List
import Mathlib.Algebra.Order.Ring.Nat
import Mathlib.Data.List.AList
import Chvm.Lib.Run
import Chvm.Virt.View

/-!
# The address book as a finite map

The rest of the book's calls, those that read all of it and `adb_move_p`, and what a run of calls
makes of the book: a finite map from the vaddrs to the physical addresses, which the run keeps
beside the book as an association list. The calls of a run are sequential, so each is one step.
-/

set_option autoImplicit false

namespace Chvm.Virt

open Chvm.Lib

/-! ## Reading the book -/

namespace AddrTable

/-- `adt_allocated`; `none` waits for the cell's lock. -/
def adtAllocated (adt : AddrTable) (cellInd : Nat) : Option Bool :=
  if cellInd ≥ adt.cap then some false
  else
    match adt.cells[cellInd]? with
    | none => none
    | some cell => if cell.lck.canRead then some cell.allocated else none

/-- `adt_get_fill`. -/
def adtGetFill (adt : AddrTable) : Nat := adt.cap - adt.stackFill

/-- `adt_foreach`; `none` waits for a cell's lock. -/
def adtForeach {σ : Type} (adt : AddrTable) (c : Nat → Nat → σ → σ) (ctx : σ) (wr : Bool) :
    Option σ :=
  (List.range adt.cap).foldlM (fun ctx i =>
    match adt.cells[i]? with
    | none => none
    | some cell =>
      if (if wr then cell.lck.isFree else cell.lck.canRead) then
        some (if cell.allocated then c i cell.paddr ctx else ctx)
      else none) ctx

end AddrTable

namespace AddrBook

/-- `adb_allocated`. -/
def adbAllocated (adb : AddrBook) (v : Vaddr) : Option Bool :=
  match adb.table v.tableIndex with
  | none => some false
  | some adt => adt.adtAllocated v.cellIndex

/-- `adb_foreach_adt`. -/
def adbForeachAdt {σ : Type} (adb : AddrBook) (c : Nat → AddrTable → σ → Option σ) (ctx : σ) :
    Option σ :=
  (List.range adb.book.length).foldlM (fun ctx i =>
    match adb.table i with
    | none => none
    | some adt => c i adt ctx) ctx

/-- `adb_get_fill`. The cells are in memory, so their number fits a word. -/
def adbGetFill (adb : AddrBook) : Option Nat :=
  adb.adbForeachAdt (fun _ adt fill => some (fill + adt.adtGetFill)) 0

/-- `adb_foreach`. -/
def adbForeach {σ : Type} (adb : AddrBook) (c : Vaddr → Nat → σ → σ) (ctx : σ) (wr : Bool) :
    Option σ :=
  adb.adbForeachAdt
    (fun tableInd adt ctx => adt.adtForeach (fun ind paddr => c ⟨tableInd, ind⟩ paddr) ctx wr) ctx

/-- `adb_move_p` with its flags: `lck` takes the cell's lock for the move, `init` writes the vaddr in
front of the new place. -/
def adbMoveWith (adb : AddrBook) (mem : Mem) (lck : Bool) (v : Vaddr) (newPaddr size : Nat)
    (init : Bool) : Option (Mem × AddrBook) :=
  match adb.cell v with
  | none => none
  | some c =>
    if lck && !c.lck.isFree then none
    else if c.allocated then
      let mem := mem.move newPaddr c.paddr size
      let mem := if init then
          (mem.store64 (newPaddr - 16) v.tableIndex).store64 (newPaddr - 8) v.cellIndex
        else mem
      some (mem, adb.setCell v { c with paddr := newPaddr })
    else none

end AddrBook

/-! ## The allocated cells in order -/

/-- A loop whose steps all go through. -/
theorem foldlM_some {σ α : Type*} {f : σ → α → Option σ} {g : σ → α → σ} {l : List α}
    (h : ∀ a ∈ l, ∀ s, f s a = some (g s a)) (s : σ) : l.foldlM f s = some (l.foldl g s) := by
  induction l generalizing s with
  | nil => rfl
  | cons a l ih =>
    rw [List.foldlM_cons, h a List.mem_cons_self s]
    exact ih (fun b hb => h b (List.mem_cons_of_mem a hb)) (g s a)

namespace AddrTable

variable {adt : AddrTable}

/-- The cells `adt_foreach` gives to its consumer. -/
def calls (adt : AddrTable) : List (Nat × Nat) :=
  adt.allocated.map fun i => (i, ((adt.cells[i]?).map (·.paddr)).getD 0)

theorem adtForeach_eq {σ : Type} (hcells : adt.cells.length = adt.cap) {wr : Bool}
    (hlck : ∀ (i : Nat) (cell : AddrTableCell), adt.cells[i]? = some cell →
      (if wr then cell.lck.isFree else cell.lck.canRead) = true) (c : Nat → Nat → σ → σ) (ctx : σ) :
    adt.adtForeach c ctx wr = some (adt.calls.foldl (fun ctx p => c p.1 p.2 ctx) ctx) := by
  unfold adtForeach calls allocated
  rw [List.foldl_map, List.foldl_filter]
  refine foldlM_some (fun i hi ctx => ?_) ctx
  have hlt : i < adt.cells.length := hcells ▸ List.mem_range.mp hi
  have hget : adt.cells[i]? = some adt.cells[i] := List.getElem?_eq_getElem hlt
  simp only [hget, hlck i _ hget, if_true, isAllocated, Option.any_some, Option.map_some,
    Option.getD_some]

theorem length_calls (h : adt.Accounted [] []) : adt.calls.length = adt.adtGetFill := by
  have hlen := h.perm.length_eq
  rw [List.append_nil, List.append_nil, List.length_append, stack_length h, List.length_range] at hlen
  rw [calls, List.length_map, adtGetFill]
  omega

end AddrTable

namespace AddrBook

variable {adb adb' : AddrBook} {v : Vaddr} {e : Nat} {table : AddrTable}

/-- The cells of table `e` that `adb_foreach` gives to its consumer. -/
def tableCalls (adb : AddrBook) (e : Nat) : List (Vaddr × Nat) :=
  match adb.table e with
  | none => []
  | some adt => adt.calls.map fun p => (⟨e, p.1⟩, p.2)

/-- The calls of the consumer of `adb_foreach`, in order. -/
def calls (adb : AddrBook) : List (Vaddr × Nat) := (List.range adb.book.length).flatMap adb.tableCalls

theorem exists_table (hlt : e < adb.book.length) : ∃ table, adb.table e = some table := by
  rw [AddrBook.table, List.getElem?_eq_getElem hlt]
  exact ⟨_, rfl⟩

/-- The book has a cell for every pair of indices inside. -/
theorem Quiet.exists_cell (h : adb.Quiet) (hi : v.tableIndex < adb.book.length)
    (hj : v.cellIndex < adb.tableCap) :
    ∃ c, adb.cell v = some c := by
  obtain ⟨table, htable⟩ := exists_table hi
  have ht := h.coherent.tabled _ table htable
  have hlt : v.cellIndex < table.cells.length := by
    rw [ht.accounted.arrays.2, ht.cap]
    exact hj
  refine ⟨table.cells[v.cellIndex], ?_⟩
  unfold cell
  rw [htable]
  exact List.getElem?_eq_getElem hlt

theorem mem_tableCalls {p : Nat} (h : adb.Quiet) : (v, p) ∈ adb.tableCalls e ↔
    v.tableIndex = e ∧ ∃ c, adb.entry v = some c ∧ c.paddr = p := by
  unfold tableCalls
  cases htable : adb.table e with
  | none =>
    refine ⟨nofun, ?_⟩
    rintro ⟨rfl, c, hc, -⟩
    obtain ⟨table, htable', -⟩ := table_of_cell (entry_eq_some.mp hc).1
    rw [htable] at htable'
    cases htable'
  | some table =>
    have hacc := (h.coherent.tabled e table htable).accounted
    have hcell : ∀ i, adb.cell ⟨e, i⟩ = table.cells[i]? := by
      intro i
      unfold cell
      rw [htable]
      rfl
    simp only [AddrTable.calls, AddrTable.allocated, List.map_map, List.mem_map, List.mem_filter,
      List.mem_range, Function.comp_apply, Prod.mk.injEq]
    constructor
    · rintro ⟨i, ⟨hlt, hallocated⟩, rfl, rfl⟩
      rw [← hacc.arrays.2] at hlt
      have hget : table.cells[i]? = some table.cells[i] := List.getElem?_eq_getElem hlt
      rw [AddrTable.isAllocated, hget, Option.any_some] at hallocated
      refine ⟨rfl, table.cells[i], entry_eq_some.mpr ⟨(hcell i).trans hget, hallocated⟩, ?_⟩
      rw [hget, Option.map_some, Option.getD_some]
    · obtain ⟨e', i⟩ := v
      rintro ⟨rfl, c, hc, rfl⟩
      obtain ⟨hc, hallocated⟩ := entry_eq_some.mp hc
      rw [hcell] at hc
      refine ⟨i, ⟨?_, ?_⟩, rfl, ?_⟩
      · rw [← hacc.arrays.2]
        exact (List.getElem?_eq_some_iff.mp hc).1
      · rw [AddrTable.isAllocated, hc]
        exact hallocated
      · rw [hc]
        rfl

/-- The consumer is called with the allocated vaddrs and their addresses. -/
theorem mem_calls {p : Nat} (h : adb.Quiet) :
    (v, p) ∈ adb.calls ↔ ∃ c, adb.entry v = some c ∧ c.paddr = p := by
  simp only [calls, List.mem_flatMap, List.mem_range, mem_tableCalls h]
  constructor
  · rintro ⟨e, -, rfl, hc⟩
    exact hc
  · rintro ⟨c, hc, hp⟩
    exact ⟨v.tableIndex, (h.index_lt (entry_eq_some.mp hc).1).1, rfl, c, hc, hp⟩

theorem nodup_calls (h : adb.Quiet) : adb.calls.Nodup := by
  refine List.nodup_flatMap.mpr ⟨fun e _ => ?_, List.nodup_range.imp_of_mem fun _ _ hne => ?_⟩
  · unfold tableCalls
    split
    · exact List.nodup_nil
    next table htable =>
      unfold AddrTable.calls AddrTable.allocated
      rw [List.map_map]
      refine (List.nodup_range.filter _).map fun i j heq => ?_
      cases heq
      rfl
  · intro p hp hp'
    obtain ⟨v, a⟩ := p
    exact hne (((mem_tableCalls h).mp hp).1.symm.trans ((mem_tableCalls h).mp hp').1)

/-- **Foreach.** When no cell's lock is waited for, the consumer is called along `calls`. -/
theorem adbForeach_eq {σ : Type} (h : adb.Quiet) {wr : Bool}
    (hlck : ∀ v c, adb.cell v = some c → (if wr then c.lck.isFree else c.lck.canRead) = true)
    (c : Vaddr → Nat → σ → σ) (ctx : σ) :
    adb.adbForeach c ctx wr = some (adb.calls.foldl (fun ctx p => c p.1 p.2 ctx) ctx) := by
  unfold adbForeach adbForeachAdt calls
  rw [List.foldl_flatMap]
  refine foldlM_some (fun e he ctx => ?_) ctx
  obtain ⟨table, htable⟩ := exists_table (List.mem_range.mp he)
  have hacc := (h.coherent.tabled e table htable).accounted
  simp only [htable, tableCalls, List.foldl_map]
  refine AddrTable.adtForeach_eq hacc.arrays.2 (fun i d hget => hlck ⟨e, i⟩ d ?_) _ ctx
  unfold cell
  rw [htable]
  exact hget

/-! ## The move -/

/-- The move inside `mb_try_shift` is the one without the lock and with the vaddr written. -/
theorem adbMoveP_eq_adbMoveWith (mem : Mem) (newPaddr size : Nat) :
    adb.adbMoveP mem v newPaddr size = adb.adbMoveWith mem false v newPaddr size true := rfl

theorem adbMoveWith_eq_some (h : adb.Quiet) {mem mem' : Mem} {lck init : Bool} {newPaddr size : Nat}
    (hmove : adb.adbMoveWith mem lck v newPaddr size init = some (mem', adb')) :
    ∃ c, adb.entry v = some c ∧ Assigned adb adb' v { c with paddr := newPaddr } := by
  unfold adbMoveWith at hmove
  split at hmove
  · cases hmove
  next c hcell =>
    split at hmove
    · cases hmove
    · split at hmove
      next hallocated =>
        cases hmove
        have hentry := entry_eq_some.mpr ⟨hcell, hallocated⟩
        exact ⟨c, hentry, assigned_setCell h hentry hallocated⟩
      next => cases hmove

/-! ## How full the book is -/

/-- The fills of the tables. -/
def fills (adb : AddrBook) : List Nat :=
  (List.range adb.book.length).map fun e => (adb.tableCalls e).length

theorem length_calls : adb.calls.length = adb.fills.sum := by
  rw [calls, List.length_flatMap, fills]

theorem length_tableCalls (h : adb.Quiet) (htable : adb.table e = some table) :
    (adb.tableCalls e).length = table.adtGetFill ∧ table.cap = adb.tableCap ∧
      table.stackFill ≤ table.cap := by
  have ht := h.coherent.tabled e table htable
  have hacc : table.Accounted [] [] := ht.accounted
  refine ⟨?_, ht.cap, hacc.fill⟩
  rw [tableCalls, htable]
  exact (List.length_map _).trans (AddrTable.length_calls hacc)

/-- **Fill.** -/
theorem adbGetFill_eq (h : adb.Quiet) : adb.adbGetFill = some adb.calls.length := by
  have hfold : adb.adbGetFill = some ((List.range adb.book.length).foldl
      (fun fill e => fill + (adb.tableCalls e).length) 0) := by
    refine foldlM_some (fun e he fill => ?_) 0
    obtain ⟨table, htable⟩ := exists_table (List.mem_range.mp he)
    rw [htable, (length_tableCalls h htable).1]
  rw [hfold, length_calls, fills, List.sum_eq_foldl, List.foldl_map]

/-- A table is in the free list exactly when it is not full. -/
theorem Quiet.inFreeList_iff (h : adb.Quiet) (htable : adb.table e = some table) :
    adb.inFreeList e = true ↔ table.stackFill ≠ 0 := by
  have ht := h.coherent.tabled e table htable
  exact ⟨fun hin hzero => ht.removes hzero hin, fun hfill => (ht.adds hfill).resolve_right id⟩

/-- The book is full exactly when its free list is empty. -/
theorem length_calls_lt (h : adb.Quiet) :
    adb.calls.length ≤ adb.book.length * adb.tableCap ∧
      (adb.calls.length < adb.book.length * adb.tableCap ↔ adb.freeList ≠ none) := by
  have hle : ∀ e ∈ List.range adb.book.length, (adb.tableCalls e).length ≤ adb.tableCap := by
    intro e he
    obtain ⟨table, htable⟩ := exists_table (List.mem_range.mp he)
    obtain ⟨hlen, hcap, -⟩ := length_tableCalls h htable
    rw [hlen, ← hcap]
    exact Nat.sub_le ..
  have hconst : ((List.range adb.book.length).map fun _ => adb.tableCap).sum =
      adb.book.length * adb.tableCap := by
    rw [List.map_const', List.sum_replicate_nat, List.length_range]
  obtain ⟨l, hl⟩ := h.coherent.listed
  rw [length_calls, fills, ← hconst]
  refine ⟨List.sum_le_sum hle, fun hlt hnone => ?_, fun hsome => List.sum_lt_sum _ _ hle ?_⟩
  · -- no table is listed, so all are full
    refine Nat.lt_irrefl _ (hlt.trans_le (List.sum_le_sum fun e he => ?_))
    obtain ⟨table, htable⟩ := exists_table (List.mem_range.mp he)
    obtain ⟨hlen, hcap, -⟩ := length_tableCalls h htable
    have hfull : table.stackFill = 0 := by
      by_contra hfill
      have hin : adb.inFreeList e = false := freeList_eq_none hnone hl
      rw [(h.inFreeList_iff htable).mpr hfill] at hin
      cases hin
    rw [hlen, AddrTable.adtGetFill, hfull, hcap]
    exact Nat.le_refl _
  · obtain ⟨e, he⟩ := Option.ne_none_iff_exists'.mp hsome
    have hin : adb.inFreeList e = true := (hl.mem e).mp (List.mem_of_mem_head? (hl.linked.head ▸ he))
    obtain ⟨table, htable⟩ := exists_table (lt_of_inFreeList hin)
    obtain ⟨hlen, hcap, hfill⟩ := length_tableCalls h htable
    have hpos := (h.inFreeList_iff htable).mp hin
    refine ⟨e, List.mem_range.mpr (lt_of_inFreeList hin), ?_⟩
    rw [hlen, ← hcap, AddrTable.adtGetFill]
    omega

/-- With a table to put into, a put adds none. -/
theorem size_adbPutP {t : Tid} {paddr : Nat} {hold : Bool} {fuel : Nat} (hlist : adb.freeList ≠ none)
    (hput : adb.adbPutP t paddr hold fuel = some (v, adb')) :
    adb'.book.length = adb.book.length ∧ adb'.tableCap = adb.tableCap := by
  induction fuel with
  | zero => cases hput
  | succ fuel ih =>
    obtain ⟨e, he⟩ := Option.ne_none_iff_exists'.mp hlist
    simp only [adbPutP, he] at hput
    split at hput
    · cases hput
    · split at hput
      · exact ih hput
      · split at hput
        · cases hput
        · cases hput
          split
          · rw [size_tryRemoval.1, size_tryRemoval.2, length_setTable]
            exact ⟨rfl, rfl⟩
          · exact ⟨length_setTable, rfl⟩

/-- A put that returns does so in any number of iterations from there on. -/
theorem adbPutP_mono {t : Tid} {paddr : Nat} {hold : Bool} {fuel : Nat} {r : Vaddr × AddrBook}
    (hput : adb.adbPutP t paddr hold fuel = some r) : adb.adbPutP t paddr hold (fuel + 1) = some r := by
  induction fuel generalizing adb with
  | zero => cases hput
  | succ fuel ih =>
    rw [adbPutP] at hput ⊢
    split
    next hnone =>
      simp only [hnone] at hput
      split at hput
      next hroom =>
        obtain ⟨adb₁, hexpand, hrest⟩ := Option.bind_eq_some_iff.mp hput
        rw [if_pos hroom, hexpand]
        exact ih hrest
      next => cases hput
    next e he =>
      simp only [he] at hput
      split
      next hnone =>
        rw [hnone] at hput
        cases hput
      next adt htable =>
        simp only [htable] at hput
        split
        next hpop =>
          rw [hpop] at hput
          exact ih hput
        next hpop =>
          rw [hpop] at hput
          exact hput

/-- Without one, it puts into a new one. -/
theorem adbPutP_none {t : Tid} {paddr : Nat} {hold : Bool} {fuel : Nat} (hlist : adb.freeList = none)
    (hput : adb.adbPutP t paddr hold (fuel + 1) = some (v, adb')) :
    ∃ table, (adb.addTable table).adbPutP t paddr hold fuel = some (v, adb') := by
  rw [adbPutP, hlist] at hput
  simp only at hput
  split at hput
  · obtain ⟨adb₁, hexpand, hrest⟩ := Option.bind_eq_some_iff.mp hput
    rcases tryExpand_cases hexpand with ⟨hlisted, -⟩ | ⟨-, table, -, rfl⟩
    · exact absurd hlist hlisted
    · exact ⟨table, hrest⟩
  · cases hput

theorem size_adbPutP_none {t : Tid} {paddr : Nat} {hold : Bool} (hlist : adb.freeList = none)
    (hput : adb.adbPutP t paddr hold 2 = some (v, adb')) :
    adb'.book.length = adb.book.length + 1 ∧ adb'.tableCap = adb.tableCap := by
  obtain ⟨table, hrest⟩ := adbPutP_none hlist hput
  obtain ⟨hhead, hlen, hcap⟩ := size_addTable adb table
  obtain ⟨hlen', hcap'⟩ := size_adbPutP (hhead ▸ Option.some_ne_none _) hrest
  exact ⟨hlen'.trans hlen, hcap'.trans hcap⟩

theorem size_adbFree (hfree : adb.adbFree v = some adb') :
    adb'.tableCap = adb.tableCap ∧ adb'.book.length = adb.book.length := by
  unfold adbFree at hfree
  split at hfree
  · cases hfree
  · split at hfree
    · cases hfree
      split
      · rw [size_tryAddition.1, size_tryAddition.2, length_setTable]
        exact ⟨rfl, rfl⟩
      · exact ⟨rfl, length_setTable⟩
    · cases hfree

/-! ## The size of the book -/

/-- As many tables, of the same length. -/
def SameSize (adb adb' : AddrBook) : Prop :=
  adb'.tableCap = adb.tableCap ∧ adb'.book.length = adb.book.length

theorem SameSize.refl (adb : AddrBook) : SameSize adb adb := ⟨rfl, rfl⟩

theorem SameSize.trans {adb'' : AddrBook} (h : SameSize adb adb') (h' : SameSize adb' adb'') :
    SameSize adb adb'' := ⟨h'.1.trans h.1, h'.2.trans h.2⟩

theorem sameSize_adbGetRead {t : Tid} {paddr : Nat} (h : adb.adbGetRead t v = some (paddr, adb')) :
    SameSize adb adb' := by
  unfold adbGetRead at h
  split at h
  · cases h
  · split at h
    · cases h
      exact size_setCell
    · cases h

theorem sameSize_adbGetWrite {t : Tid} {paddr : Nat} (h : adb.adbGetWrite t v = some (paddr, adb')) :
    SameSize adb adb' := by
  unfold adbGetWrite at h
  split at h
  · cases h
  · split at h
    · cases h
      exact size_setCell
    · cases h

theorem sameSize_adbTryGetWrite {t : Tid} {paddr : Nat}
    (h : adb.adbTryGetWrite t v = some (some (paddr, adb'))) : SameSize adb adb' := by
  unfold adbTryGetWrite at h
  split at h
  · cases h
  · split at h
    · split at h
      · cases h
        exact size_setCell
      · cases h
    · cases h

theorem sameSize_adbUnlock {t : Tid} (h : adb.adbUnlock t v = some adb') : SameSize adb adb' := by
  unfold adbUnlock at h
  split at h
  · cases h
  · split at h
    · cases h
      exact size_setCell
    · cases h

theorem sameSize_adbMoveP {mem mem' : Mem} {newPaddr size : Nat}
    (h : adb.adbMoveP mem v newPaddr size = some (mem', adb')) : SameSize adb adb' := by
  unfold adbMoveP at h
  split at h
  · cases h
  · split at h
    · cases h
      exact size_setCell
    · cases h

/-- What a put does to the size: the vaddr it gives is in a table that was there, or in a new one behind
them all. -/
structure Grown (adb adb' : AddrBook) (v : Vaddr) : Prop where
  tableCap : adb'.tableCap = adb.tableCap
  book : adb'.book.length = max adb.book.length (v.tableIndex + 1)
  index : v.tableIndex ≤ adb.book.length

/-- One iteration puts into the table at the head of the free list. -/
theorem tableIndex_adbPutP {t : Tid} {paddr : Nat} {hold : Bool} (hlist : adb.freeList = some e)
    (hput : adb.adbPutP t paddr hold 1 = some (v, adb')) : v.tableIndex = e := by
  simp only [adbPutP, hlist] at hput
  split at hput
  · cases hput
  · split at hput
    · cases hput
    · split at hput
      · cases hput
      · cases hput
        rfl

theorem grown_adbPutP (h : adb.Quiet) {t : Tid} {paddr : Nat} {hold : Bool}
    (hput : adb.adbPutP t paddr hold 2 = some (v, adb')) : Grown adb adb' v := by
  cases hlist : adb.freeList with
  | some e =>
    obtain ⟨hlen, hcap⟩ := size_adbPutP (by rw [hlist]; exact Option.some_ne_none e) hput
    obtain ⟨hquiet, -, hentry⟩ := adbPutP_eq_some h hput
    have hnew := hentry v
    rw [if_pos rfl] at hnew
    have hlt := (hquiet.index_lt (entry_eq_some.mp hnew).1).1
    exact ⟨hcap, by omega, by omega⟩
  | none =>
    obtain ⟨hlen, hcap⟩ := size_adbPutP_none hlist hput
    obtain ⟨table, hrest⟩ := adbPutP_none hlist hput
    have hindex := tableIndex_adbPutP (size_addTable adb table).1 hrest
    exact ⟨hcap, by omega, by omega⟩

/-- A lock given back after the put. -/
theorem Grown.unlock {adb'' : AddrBook} {t : Tid} (h : Grown adb adb' v)
    (hunlock : adb'.adbUnlock t v = some adb'') : Grown adb adb'' v := by
  obtain ⟨hcap, hlen⟩ := sameSize_adbUnlock hunlock
  exact ⟨hcap.trans h.tableCap, hlen.trans h.book, h.index⟩

end AddrBook

/-! ## Runs -/

/-- The book, the bytes its moves work on, and what a run has made of it: the map, and the most
vaddrs it ever held. -/
structure BookRun where
  adb : AddrBook
  mem : Mem
  map : AList fun _ : Vaddr => Nat
  peak : Nat

inductive CallAct
  | put (t : Tid) (paddr : Nat) (hold : Bool)
  | free (vaddr : Vaddr)
  | move (lck : Bool) (vaddr : Vaddr) (newPaddr size : Nat) (init : Bool)
  | getRead (t : Tid) (vaddr : Vaddr)
  | getWrite (t : Tid) (vaddr : Vaddr)
  | tryGetWrite (t : Tid) (vaddr : Vaddr)
  | unlock (t : Tid) (vaddr : Vaddr)
deriving DecidableEq, Repr

namespace BookRun

def new (adb : AddrBook) (mem : Mem) : BookRun := { adb := adb, mem := mem, map := ∅, peak := 0 }

/-- The run goes on with a book, and with a map that may be the largest so far. -/
def record (s : BookRun) (adb : AddrBook) (map : AList fun _ : Vaddr => Nat) : BookRun :=
  { s with adb := adb, map := map, peak := max s.peak map.keys.length }

end BookRun

/-- One call. The code ends the process when it is given a vaddr that is not allocated. -/
def callStep (s : BookRun) : CallAct → Option BookRun
  | .put t paddr hold =>
    (s.adb.adbPutP t paddr hold 2).map fun r => s.record r.2 (s.map.insert r.1 paddr)
  | .free v => (s.adb.adbFree v).map fun adb => s.record adb (s.map.erase v)
  | .move lck v newPaddr size init =>
    (s.adb.adbMoveWith s.mem lck v newPaddr size init).map fun r =>
      { s.record r.2 (s.map.insert v newPaddr) with mem := r.1 }
  | .getRead t v => (s.adb.adbGetRead t v).map fun r => s.record r.2 s.map
  | .getWrite t v => (s.adb.adbGetWrite t v).map fun r => s.record r.2 s.map
  | .tryGetWrite t v =>
    (s.adb.adbTryGetWrite t v).map fun r =>
      match r with
      | some r => s.record r.2 s.map
      | none => s
  | .unlock t v => (s.adb.adbUnlock t v).map fun adb => s.record adb s.map

/-- The book holds the map, and its tables are as many as the peak needs. -/
structure Refines (s : BookRun) (tableCap : Nat) : Prop where
  quiet : s.adb.Quiet
  cap : s.adb.tableCap = tableCap
  agrees : ∀ v, s.map.lookup v = (s.adb.entry v).map (·.paddr)
  peak : s.map.keys.length ≤ s.peak
  enough : s.peak ≤ s.adb.book.length * tableCap
  needed : s.adb.book.length * tableCap < s.peak + tableCap

variable {s s' : BookRun} {tableCap : Nat} {adb adb' : AddrBook} {v : Vaddr} {c : AddrTableCell}

theorem Refines.mem_iff (h : Refines s tableCap) (v : Vaddr) :
    v ∈ s.map ↔ (s.adb.entry v).isSome = true := by
  rw [← AList.lookup_isSome, h.agrees, Option.isSome_map]

/-- The calls of the consumer of `adb_foreach` are the entries of the map. -/
theorem Refines.calls_perm (h : Refines s tableCap) :
    s.adb.calls.Perm (s.map.entries.map fun p => (p.1, p.2)) := by
  refine (List.perm_ext_iff_of_nodup (AddrBook.nodup_calls h.quiet) ?_).mpr fun p => ?_
  · refine (List.NodupKeys.nodup s.map.nodupKeys).map fun p q heq => ?_
    cases p
    cases q
    cases heq
    rfl
  · obtain ⟨v, a⟩ := p
    rw [AddrBook.mem_calls h.quiet, ← Option.map_eq_some_iff, ← h.agrees]
    constructor
    · intro hlookup
      exact List.mem_map.mpr ⟨⟨v, a⟩, AList.mem_lookup_iff.mp hlookup, rfl⟩
    · intro hmem
      obtain ⟨⟨w, b⟩, hq, heq⟩ := List.mem_map.mp hmem
      cases heq
      exact AList.mem_lookup_iff.mpr hq

theorem Refines.length_calls (h : Refines s tableCap) : s.adb.calls.length = s.map.keys.length := by
  rw [h.calls_perm.length_eq, List.length_map, AList.keys, List.keys, List.length_map]

theorem lookup_insert_eq {map : AList fun _ : Vaddr => Nat} (v : Vaddr) (paddr : Nat) (w : Vaddr) :
    (map.insert v paddr).lookup w = if w = v then some paddr else map.lookup w := by
  split
  next heq => rw [heq, AList.lookup_insert]
  next hne => exact AList.lookup_insert_ne hne

theorem lookup_erase_eq {map : AList fun _ : Vaddr => Nat} (v w : Vaddr) :
    (map.erase v).lookup w = if w = v then none else map.lookup w := by
  split
  next heq => rw [heq, AList.lookup_erase]
  next hne => exact AList.lookup_erase_ne hne

theorem refines_new {mem : Mem} (hcap : tableCap < 2 ^ 64) (hnew : newAddrBook tableCap = some adb) :
    Refines (.new adb mem) tableCap := by
  have hquiet := AddrBook.quiet_new hnew hcap
  obtain ⟨hpos, rfl⟩ := newAddrBook_eq_some.mp hnew
  refine
    { quiet := hquiet
      cap := rfl
      agrees := fun v => rfl
      peak := Nat.le_refl _
      enough := Nat.zero_le _
      needed := ?_ }
  show 0 * tableCap < 0 + tableCap
  omega

/-- A call on the cell of a live vaddr. -/
theorem Refines.assign (h : Refines s tableCap) {c' : AddrTableCell}
    (hassigned : s.adb.Assigned adb' v c')
    {map : AList fun _ : Vaddr => Nat}
    (hmap : ∀ w, map.lookup w = if w = v then some c'.paddr else s.map.lookup w)
    (hkeys : map.keys.length = s.map.keys.length) : Refines (s.record adb' map) tableCap := by
  have hpeak : (s.record adb' map).peak = s.peak := by
    show max s.peak map.keys.length = s.peak
    rw [hkeys]
    exact Nat.max_eq_left h.peak
  refine
    { quiet := hassigned.quiet
      cap := hassigned.size.1.trans h.cap
      agrees := fun w => ?_
      peak := ?_
      enough := ?_
      needed := ?_ }
  · show map.lookup w = (adb'.entry w).map (·.paddr)
    rw [hmap, hassigned.entry]
    split
    · rfl
    · exact h.agrees w
  · rw [hpeak]
    exact hkeys.trans_le h.peak
  · rw [hpeak]
    exact h.enough.trans_eq (congrArg (· * tableCap) hassigned.size.2.symm)
  · rw [hpeak]
    exact (congrArg (· * tableCap) hassigned.size.2).trans_lt h.needed

theorem Refines.put (h : Refines s tableCap) {t : Tid} {paddr : Nat} {hold : Bool}
    (hput : s.adb.adbPutP t paddr hold 2 = some (v, adb')) :
    Refines (s.record adb' (s.map.insert v paddr)) tableCap := by
  obtain ⟨hquiet, hnone, hentry⟩ := AddrBook.adbPutP_eq_some h.quiet hput
  have hmem : v ∉ s.map := by
    rw [h.mem_iff, hnone]
    exact Bool.false_ne_true
  have hkeys : (s.map.insert v paddr).keys.length = s.map.keys.length + 1 := by
    rw [AList.keys_insert, List.erase_of_not_mem hmem, List.length_cons]
  have hsize : adb'.tableCap = tableCap ∧
      max s.peak (s.map.keys.length + 1) ≤ adb'.book.length * tableCap ∧
      adb'.book.length * tableCap < max s.peak (s.map.keys.length + 1) + tableCap := by
    obtain ⟨hle, hlt⟩ := AddrBook.length_calls_lt h.quiet
    have hpeak := h.peak
    have henough := h.enough
    have hneeded := h.needed
    rw [h.length_calls, h.cap] at hle hlt
    by_cases hlist : s.adb.freeList = none
    · -- all tables are full, so the map is as large as it ever was
      obtain ⟨hlen, hcap⟩ := AddrBook.size_adbPutP_none hlist hput
      have hfull : ¬ s.map.keys.length < s.adb.book.length * tableCap := fun h' => hlt.mp h' hlist
      have hpos : tableCap ≠ 0 := h.cap ▸ h.quiet.coherent.tableCap
      rw [hlen, Nat.succ_mul]
      exact ⟨hcap.trans h.cap, by omega, by omega⟩
    · obtain ⟨hlen, hcap⟩ := AddrBook.size_adbPutP hlist hput
      have hroom := hlt.mpr hlist
      rw [hlen]
      exact ⟨hcap.trans h.cap, by omega, by omega⟩
  refine
    { quiet := hquiet
      cap := hsize.1
      agrees := fun w => ?_
      peak := Nat.le_max_right ..
      enough := ?_
      needed := ?_ }
  · show (s.map.insert v paddr).lookup w = (adb'.entry w).map (·.paddr)
    rw [lookup_insert_eq, hentry]
    split
    · rfl
    · exact h.agrees w
  · show max s.peak (s.map.insert v paddr).keys.length ≤ _
    rw [hkeys]
    exact hsize.2.1
  · show _ < max s.peak (s.map.insert v paddr).keys.length + tableCap
    rw [hkeys]
    exact hsize.2.2

theorem Refines.free (h : Refines s tableCap) (hfree : s.adb.adbFree v = some adb') :
    Refines (s.record adb' (s.map.erase v)) tableCap := by
  obtain ⟨-, hquiet, hentry⟩ := AddrBook.adbFree_eq_some h.quiet hfree
  obtain ⟨hcap, hlen⟩ := AddrBook.size_adbFree hfree
  have hkeys : (s.map.erase v).keys.length ≤ s.peak := by
    rw [AList.keys_erase]
    exact (List.length_erase_le).trans h.peak
  have hpeak : (s.record adb' (s.map.erase v)).peak = s.peak := Nat.max_eq_left hkeys
  refine
    { quiet := hquiet
      cap := hcap.trans h.cap
      agrees := fun w => ?_
      peak := hpeak ▸ hkeys
      enough := ?_
      needed := ?_ }
  · show (s.map.erase v).lookup w = (adb'.entry w).map (·.paddr)
    rw [lookup_erase_eq, hentry]
    split
    · rfl
    · exact h.agrees w
  · rw [hpeak]
    exact h.enough.trans_eq (congrArg (· * tableCap) hlen.symm)
  · rw [hpeak]
    exact (congrArg (· * tableCap) hlen).trans_lt h.needed

/-- A lock operation on a live vaddr. -/
theorem Refines.lock (h : Refines s tableCap) (hentry : s.adb.entry v = some c) {lck : RwLock}
    (hassigned : s.adb.Assigned adb' v { c with lck := lck }) :
    Refines (s.record adb' s.map) tableCap := by
  refine h.assign hassigned (fun w => ?_) rfl
  split
  next heq =>
    rw [heq, h.agrees, hentry]
    rfl
  next => rfl

theorem callStep_refines {a : CallAct} (h : Refines s tableCap) (hstep : callStep s a = some s') :
    Refines s' tableCap := by
  cases a with
  | put t paddr hold =>
    obtain ⟨⟨v, adb'⟩, hput, rfl⟩ := Option.map_eq_some_iff.mp hstep
    exact h.put hput
  | free v =>
    obtain ⟨adb', hfree, rfl⟩ := Option.map_eq_some_iff.mp hstep
    exact h.free hfree
  | move lck v newPaddr size init =>
    obtain ⟨⟨mem', adb'⟩, hmove, rfl⟩ := Option.map_eq_some_iff.mp hstep
    obtain ⟨c, hentry, hassigned⟩ := AddrBook.adbMoveWith_eq_some h.quiet hmove
    have hmem : v ∈ s.map := (h.mem_iff v).mpr (hentry ▸ rfl)
    have hmoved : Refines (s.record adb' (s.map.insert v newPaddr)) tableCap := by
      refine h.assign hassigned (lookup_insert_eq v newPaddr) ?_
      rw [AList.keys_insert, List.length_cons, List.length_erase_add_one hmem]
    exact ⟨hmoved.quiet, hmoved.cap, hmoved.agrees, hmoved.peak, hmoved.enough, hmoved.needed⟩
  | getRead t v =>
    obtain ⟨⟨paddr, adb'⟩, hget, rfl⟩ := Option.map_eq_some_iff.mp hstep
    obtain ⟨c, hentry, -, -, hassigned⟩ := AddrBook.adbGetRead_eq_some h.quiet hget
    exact h.lock hentry hassigned
  | getWrite t v =>
    obtain ⟨⟨paddr, adb'⟩, hget, rfl⟩ := Option.map_eq_some_iff.mp hstep
    obtain ⟨c, hentry, -, -, hassigned⟩ := AddrBook.adbGetWrite_eq_some h.quiet hget
    exact h.lock hentry hassigned
  | tryGetWrite t v =>
    obtain ⟨r, hget, rfl⟩ := Option.map_eq_some_iff.mp hstep
    cases r with
    | none => exact h
    | some r =>
      obtain ⟨c, hentry, hassigned⟩ := AddrBook.adbTryGetWrite_eq_some h.quiet hget
      exact h.lock hentry hassigned
  | unlock t v =>
    obtain ⟨adb', hunlock, rfl⟩ := Option.map_eq_some_iff.mp hstep
    obtain ⟨c, hentry, -, hassigned⟩ := AddrBook.adbUnlock_eq_some h.quiet hunlock
    exact h.lock hentry hassigned

theorem refines_reach {mem : Mem} (hcap : tableCap < 2 ^ 64) (hnew : newAddrBook tableCap = some adb)
    (hreach : Reaches callStep (fun _ _ => True) (.new adb mem) s) : Refines s tableCap := by
  have hstep : ∀ m a m', Refines m tableCap → True → callStep m a = some m' → Refines m' tableCap :=
    fun _ _ _ h _ => callStep_refines h
  have hinv := hreach.invariant hstep (refines_new hcap hnew)
  exact hinv

/-! ## The map the calls show -/

/-- A put returns a fresh vaddr, in at most two iterations. -/
theorem Refines.adbPutP (h : Refines s tableCap) (t : Tid) (paddr : Nat) (hold : Bool) (fuel : Nat)
    (hroom : s.adb.TableRoom) :
    ∃ v adb', s.adb.adbPutP t paddr hold (fuel + 2) = some (v, adb') ∧ v ∉ s.map ∧ v ≠ nullVaddr := by
  obtain ⟨v, adb', hput, hquiet, hnone, hentry⟩ := AddrBook.adbPutP_eq h.quiet t paddr hold hroom
  have hmono : s.adb.adbPutP t paddr hold (fuel + 2) = some (v, adb') := by
    induction fuel with
    | zero => exact hput
    | succ fuel ih => exact AddrBook.adbPutP_mono ih
  refine ⟨v, adb', hmono, ?_, ?_⟩
  · rw [h.mem_iff, hnone]
    exact Bool.false_ne_true
  · have hself := hentry v
    rw [if_pos rfl] at hself
    exact hquiet.ne_null (AddrBook.entry_eq_some.mp hself).1

/-- A table is added exactly when all are full. -/
theorem Refines.length_adbPutP (h : Refines s tableCap) {t : Tid} {paddr : Nat} {hold : Bool}
    (hput : s.adb.adbPutP t paddr hold 2 = some (v, adb')) :
    adb'.book.length = s.adb.book.length +
      if s.map.keys.length = s.adb.book.length * tableCap then 1 else 0 := by
  obtain ⟨hle, hlt⟩ := AddrBook.length_calls_lt h.quiet
  rw [h.length_calls, h.cap] at hle hlt
  by_cases hlist : s.adb.freeList = none
  · rw [if_pos (hle.eq_of_not_lt fun h' => hlt.mp h' hlist)]
    exact (AddrBook.size_adbPutP_none hlist hput).1
  · rw [if_neg (hlt.mpr hlist).ne]
    exact (AddrBook.size_adbPutP hlist hput).1

/-- The cell of a live vaddr shows its address to whom its lock lets in. -/
theorem Refines.get (h : Refines s tableCap) {paddr : Nat} (hlookup : s.map.lookup v = some paddr) :
    ∃ c, s.adb.cell v = some c ∧
      (∀ t, c.lck.canRead = true → ∃ adb', s.adb.adbGetRead t v = some (paddr, adb')) ∧
      ∀ t, c.lck.isFree = true → ∃ adb', s.adb.adbGetWrite t v = some (paddr, adb') := by
  rw [h.agrees] at hlookup
  obtain ⟨c, hentry, rfl⟩ := Option.map_eq_some_iff.mp hlookup
  obtain ⟨hcell, hallocated⟩ := AddrBook.entry_eq_some.mp hentry
  refine ⟨c, hcell, fun t hlck => ?_, fun t hlck => ?_⟩
  · unfold AddrBook.adbGetRead
    simp only [hcell, hlck, hallocated, Bool.and_self, if_true]
    exact ⟨_, rfl⟩
  · unfold AddrBook.adbGetWrite
    simp only [hcell, hlck, hallocated, Bool.and_self, if_true]
    exact ⟨_, rfl⟩

/-- `adb_allocated` knows the live vaddrs from all others. -/
theorem Refines.adbAllocated (h : Refines s tableCap) (v : Vaddr)
    (hlck : ∀ c, s.adb.cell v = some c → c.lck.canRead = true) :
    s.adb.adbAllocated v = some (decide (v ∈ s.map)) := by
  have hmem : decide (v ∈ s.map) = (s.adb.entry v).isSome := by
    rw [Bool.eq_iff_iff, decide_eq_true_iff]
    exact h.mem_iff v
  rw [hmem]
  unfold AddrBook.adbAllocated AddrBook.entry
  cases htable : s.adb.table v.tableIndex with
  | none =>
    unfold AddrBook.cell
    rw [htable]
    rfl
  | some table =>
    have hacc : table.Accounted [] [] := (h.quiet.coherent.tabled _ table htable).accounted
    have hcell : s.adb.cell v = table.cells[v.cellIndex]? := by
      unfold AddrBook.cell
      rw [htable]
      rfl
    rw [hcell] at hlck ⊢
    simp only [AddrTable.adtAllocated]
    split
    next hge =>
      rw [List.getElem?_eq_none (hacc.arrays.2 ▸ hge)]
      rfl
    next hlt =>
      have hindex : v.cellIndex < table.cells.length := hacc.arrays.2 ▸ Nat.lt_of_not_le hlt
      have hget : table.cells[v.cellIndex]? = some table.cells[v.cellIndex] :=
        List.getElem?_eq_getElem hindex
      simp only [hget, hlck _ hget, if_true, Option.filter_some]
      cases table.cells[v.cellIndex].allocated <;> rfl

/-- What the calls show, in a state: a put returns a fresh vaddr in two iterations, unless the book has as
many tables as there can be; the gets, `adb_allocated`, `adb_get_fill` and `adb_foreach` show the map; and a
table is added only when all are full. -/
structure ShowsMap (s : BookRun) (tableCap : Nat) : Prop where
  put : ∀ t paddr hold fuel, (s.adb.freeList = none → s.adb.book.length + 1 < 2 ^ 64) →
    ∃ v adb', s.adb.adbPutP t paddr hold (fuel + 2) = some (v, adb') ∧ v ∉ s.map ∧ v ≠ nullVaddr
  get : ∀ v paddr, s.map.lookup v = some paddr → ∃ c, s.adb.cell v = some c ∧
    (∀ t, c.lck.canRead = true → ∃ adb', s.adb.adbGetRead t v = some (paddr, adb')) ∧
    ∀ t, c.lck.isFree = true → ∃ adb', s.adb.adbGetWrite t v = some (paddr, adb')
  allocated : ∀ v, (∀ c, s.adb.cell v = some c → c.lck.canRead = true) →
    s.adb.adbAllocated v = some (decide (v ∈ s.map))
  fill : s.adb.adbGetFill = some s.map.keys.length
  visits : ∃ calls : List (Vaddr × Nat), calls.Perm (s.map.entries.map fun p => (p.1, p.2)) ∧
    ∀ wr, (∀ v c, s.adb.cell v = some c → (if wr then c.lck.isFree else c.lck.canRead) = true) →
      ∀ {σ : Type} (c : Vaddr → Nat → σ → σ) (ctx : σ),
        s.adb.adbForeach c ctx wr = some (calls.foldl (fun ctx p => c p.1 p.2 ctx) ctx)
  tables : s.adb.book.length = (s.peak + tableCap - 1) / tableCap
  grows : ∀ t paddr hold v adb', s.adb.adbPutP t paddr hold 2 = some (v, adb') →
    adb'.book.length = s.adb.book.length +
      if s.map.keys.length = s.adb.book.length * tableCap then 1 else 0

theorem Refines.shows (h : Refines s tableCap) (hfits : FitsTable tableCap) : ShowsMap s tableCap where
  put t paddr hold fuel hroom := h.adbPutP t paddr hold fuel fun hnone => ⟨hroom hnone, h.cap ▸ hfits⟩
  get _ _ := h.get
  allocated := h.adbAllocated
  fill := by rw [AddrBook.adbGetFill_eq h.quiet, h.length_calls]
  visits := ⟨s.adb.calls, h.calls_perm, fun _ hlck _ c ctx => AddrBook.adbForeach_eq h.quiet hlck c ctx⟩
  tables := by
    have hneeded := h.needed
    have henough := h.enough
    refine (Nat.div_eq_of_lt_le ?_ ?_).symm
    · omega
    · rw [Nat.succ_mul]
      omega
  grows _ _ _ _ _ := h.length_adbPutP

/-- The first put makes a table. -/
theorem ShowsMap.fits {mem : Mem} (hnew : newAddrBook tableCap = some adb)
    (h : ShowsMap (.new adb mem) tableCap) : FitsTable tableCap := by
  obtain ⟨-, rfl⟩ := newAddrBook_eq_some.mp hnew
  have hfew : 0 + 1 < 2 ^ 64 := by decide
  obtain ⟨v, adb', hput, -⟩ := h.put 0 0 false 0 fun _ => hfew
  exact (AddrBook.tableRoom_of_adbPutP hput rfl).2

/-- **The book is a finite map with reusable keys**, exactly when the size of a table does not wrap. -/
theorem book_is_map {mem : Mem} (hcap : tableCap < 2 ^ 64) (hnew : newAddrBook tableCap = some adb) :
    (∀ s, Reaches callStep (fun _ _ => True) (.new adb mem) s → ShowsMap s tableCap) ↔
      FitsTable tableCap :=
  ⟨fun h => (h _ (.refl _)).fits hnew, fun hfits _ hreach => (refines_reach hcap hnew hreach).shows hfits⟩

/-- Tables of `2 ^ 59` cells: 216 bytes are asked for, and the first put writes the free stack behind them. -/
theorem huge_table_put : ¬ ∀ (tableCap : Nat) (adb : AddrBook) (mem : Mem) (s : BookRun), tableCap < 2 ^ 64 →
    newAddrBook tableCap = some adb → Reaches callStep (fun _ _ => True) (.new adb mem) s →
      ShowsMap s tableCap := by
  intro h
  obtain ⟨adb, hnew⟩ : ∃ adb, newAddrBook (2 ^ 59) = some adb := ⟨_, rfl⟩
  have hfits := (h (2 ^ 59) adb ⟨fun _ => 0⟩ _ (by decide) hnew (.refl _)).fits hnew
  exact absurd hfits (by decide)

/-- In tables of one cell, two vaddrs are put, the first is freed, and a third put gets it again. -/
theorem book_is_map_reused : ∃ s : BookRun, s.map.keys = [⟨0, 0⟩, ⟨1, 0⟩] ∧ s.adb.book.length = 2 ∧
    s.adb.adbGetFill = some 2 := by
  obtain ⟨adb, s, hnew, hrun, hkeys, hpeak⟩ : ∃ adb s, newAddrBook 1 = some adb ∧
      exec callStep (fun _ _ => true) (.new adb ⟨fun _ => 0⟩)
        [.put 0 8 false, .put 0 16 true, .free ⟨0, 0⟩, .put 0 24 false] = some s ∧
      s.map.keys = [⟨0, 0⟩, ⟨1, 0⟩] ∧ s.peak = 2 := ⟨_, _, rfl, rfl, rfl, rfl⟩
  have hshows := (book_is_map (by decide) hnew).mpr (by decide) s
    (reaches_of_exec (fun _ _ _ => trivial) _ hrun)
  have hfill := hshows.fill
  have hlen := hshows.tables
  rw [hkeys] at hfill
  rw [hpeak] at hlen
  exact ⟨s, hkeys, hlen, hfill⟩

end Chvm.Virt
