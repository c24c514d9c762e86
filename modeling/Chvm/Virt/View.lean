import Chvm.Lib.Bytes
import Chvm.Virt.Coherent

/-!
# The address book as a map

The calls of the address book, each as one step of a system in which they are atomic, and what they
do to the map from the vaddrs to the allocated cells. `Quiet` is the book between two calls; the
calls keep it.
-/

set_option autoImplicit false

namespace Chvm.Virt

open Chvm.Lib

namespace AddrBook

def cell (adb : AddrBook) (v : Vaddr) : Option AddrTableCell :=
  (adb.table v.tableIndex).bind (·.cells[v.cellIndex]?)

/-- The cell of a vaddr, when it is allocated. -/
def entry (adb : AddrBook) (v : Vaddr) : Option AddrTableCell := (adb.cell v).filter (·.allocated)

/-- An assignment to a cell. -/
def setCell (adb : AddrBook) (v : Vaddr) (c : AddrTableCell) : AddrBook :=
  match adb.table v.tableIndex with
  | none => adb
  | some adt => adb.setTable v.tableIndex { adt with cells := adt.cells.set v.cellIndex c }

/-- `adb_put_p`; `none` when the lock of the popped cell is waited for, and when `new_addr_table` makes no
table or there would be `2 ^ 64` of them, for which no host has the memory. -/
def adbPutP (adb : AddrBook) (t : Tid) (paddr : Nat) (hold : Bool) :
    Nat → Option (Vaddr × AddrBook)
  | 0 => none
  | fuel + 1 =>
    match adb.freeList with
    | none =>
      if adb.book.length + 1 < 2 ^ 64 then adb.tryExpand.bind (·.adbPutP t paddr hold fuel) else none
    | some entryIndex =>
      match adb.table entryIndex with
      | none => none
      | some adt =>
        match adt.popFree with
        | none => adb.adbPutP t paddr hold fuel
        | some (code, index, adt') =>
          match adt'.writeCell index t paddr hold with
          | none => none
          | some adt'' =>
            let adb' := adb.setTable entryIndex adt''
            some (⟨entryIndex, index⟩,
              if code = .newlyFull then adb'.tryRemoval entryIndex else adb')

/-- `adb_free`; `none` when the cell's lock is waited for, or at an error exit. -/
def adbFree (adb : AddrBook) (v : Vaddr) : Option AddrBook :=
  match adb.table v.tableIndex with
  | none => none
  | some adt =>
    match adt.clearCell v.cellIndex with
    | some (some adt') =>
      let adb' := adb.setTable v.tableIndex (adt'.pushFree v.cellIndex).2
      some (if (adt'.pushFree v.cellIndex).1 = .newlyFree then adb'.tryAddition v.tableIndex else adb')
    | _ => none

/-- `adb_get_read`; `none` when the lock is waited for, or at an error exit. -/
def adbGetRead (adb : AddrBook) (t : Tid) (v : Vaddr) : Option (Nat × AddrBook) :=
  match adb.cell v with
  | none => none
  | some c =>
    if c.lck.canRead && c.allocated then
      some (c.paddr, adb.setCell v { c with lck := c.lck.acqRead t })
    else none

/-- `adb_get_write`. -/
def adbGetWrite (adb : AddrBook) (t : Tid) (v : Vaddr) : Option (Nat × AddrBook) :=
  match adb.cell v with
  | none => none
  | some c =>
    if c.lck.isFree && c.allocated then
      some (c.paddr, adb.setCell v { c with lck := c.lck.acqWrite t })
    else none

/-- `adb_try_get_write`; `some none` when the lock is not acquired. -/
def adbTryGetWrite (adb : AddrBook) (t : Tid) (v : Vaddr) : Option (Option (Nat × AddrBook)) :=
  match adb.cell v with
  | none => none
  | some c =>
    if c.lck.isFree then
      if c.allocated then
        some (some (c.paddr, adb.setCell v { c with lck := c.lck.acqWrite t }))
      else none
    else some none

/-- `adb_unlock` by a thread that holds the lock. -/
def adbUnlock (adb : AddrBook) (t : Tid) (v : Vaddr) : Option AddrBook :=
  match adb.cell v with
  | none => none
  | some c =>
    if c.lck.holds t then some (adb.setCell v { c with lck := c.lck.release t }) else none

/-- `adb_move_p` on the cell of a vaddr whose lock is held already, with `init` set: the bytes are
moved, the cell gets its new address, and the vaddr is written in front of it. -/
def adbMoveP (adb : AddrBook) (mem : Mem) (v : Vaddr) (newPaddr size : Nat) :
    Option (Mem × AddrBook) :=
  match adb.cell v with
  | none => none
  | some c =>
    if c.allocated then
      let mem := mem.move newPaddr c.paddr size
      let mem := (mem.store64 (newPaddr - 16) v.tableIndex).store64 (newPaddr - 8) v.cellIndex
      some (mem, adb.setCell v { c with paddr := newPaddr })
    else none

/-! ## What the sections do to the cells -/

variable {adb adb' : AddrBook} {v w : Vaddr} {c c' : AddrTableCell} {e e' i : Nat}
  {table table' : AddrTable} {t : Tid}

theorem cell_of_table (h : ∀ e, adb'.table e = adb.table e) (w : Vaddr) : adb'.cell w = adb.cell w := by
  unfold cell
  rw [h]

theorem table_tryRemoval (e e' : Nat) : (adb.tryRemoval e).table e' = adb.table e' := by
  unfold tryRemoval
  split
  · rfl
  · split
    · rfl
    · split
      · rfl
      · exact table_of_map getElem?_unlinkFreeList fun _ => rfl

theorem table_tryAddition (e e' : Nat) : (adb.tryAddition e).table e' = adb.table e' := by
  unfold tryAddition
  split
  · rfl
  · split
    · rfl
    · split
      · rfl
      · exact table_of_map getElem?_pushFreeList fun _ => rfl

theorem cell_setTable (htable : adb.table e = some table) (w : Vaddr) :
    (adb.setTable e table').cell w =
      if w.tableIndex = e then table'.cells[w.cellIndex]? else adb.cell w := by
  unfold cell
  rw [table_setTable htable]
  split <;> rfl

theorem table_of_cell (h : adb.cell v = some c) :
    ∃ table, adb.table v.tableIndex = some table ∧ table.cells[v.cellIndex]? = some c := by
  unfold cell at h
  exact Option.bind_eq_some_iff.mp h

theorem entry_eq_some : adb.entry v = some c ↔ adb.cell v = some c ∧ c.allocated = true :=
  Option.filter_eq_some_iff

/-- A section that assigns one cell of a table changes that cell. -/
theorem cell_setTable_set (htable : adb.table v.tableIndex = some table)
    (hlt : v.cellIndex < table.cells.length) (hcells : table'.cells = table.cells.set v.cellIndex c')
    (w : Vaddr) : (adb.setTable v.tableIndex table').cell w = if w = v then some c' else adb.cell w := by
  obtain ⟨e, i⟩ := v
  obtain ⟨e', j⟩ := w
  simp only [cell_setTable htable, hcells, Vaddr.mk.injEq]
  by_cases he : e' = e
  · subst he
    by_cases hj : j = i
    · subst hj
      simp only [if_true, and_self, List.getElem?_set_self hlt]
    · simp only [if_true, true_and, hj, if_false, List.getElem?_set_ne (Ne.symm hj)]
      unfold cell
      rw [htable]
      rfl
  · simp only [he, if_false, false_and]

theorem cell_setCell (h : adb.cell v = some c) (w : Vaddr) :
    (adb.setCell v c').cell w = if w = v then some c' else adb.cell w := by
  obtain ⟨table, htable, hget⟩ := table_of_cell h
  unfold setCell
  rw [htable]
  exact cell_setTable_set htable (List.getElem?_eq_some_iff.mp hget).1 rfl w

/-- What an assignment to a cell does to the map of the allocated cells. -/
theorem entry_of_cell (d : AddrTableCell)
    (h : ∀ w, adb'.cell w = if w = v then some d else adb.cell w) (w : Vaddr) :
    adb'.entry w = if w = v then (if d.allocated then some d else none) else adb.entry w := by
  unfold entry
  rw [h]
  split
  next => rw [Option.filter_some]
  next => rfl

/-! ## The book between two calls -/

/-- Nothing is pending, a cell that is not allocated is not locked, and the indices fit a word. -/
structure Quiet (adb : AddrBook) : Prop where
  coherent : adb.Coherent (fun _ => False) (fun _ => False) [] []
  unlocked : ∀ v c, adb.cell v = some c → c.allocated = false → c.lck.isFree = true
  fits : adb.tableCap < 2 ^ 64 ∧ adb.book.length < 2 ^ 64

theorem quiet_new {tableCap : Nat} (h : newAddrBook tableCap = some adb) (hcap : tableCap < 2 ^ 64) :
    adb.Quiet := by
  obtain ⟨-, rfl⟩ := newAddrBook_eq_some.mp h
  refine ⟨coherent_new h, fun v c hcell => ?_, hcap, Nat.two_pow_pos 64⟩
  cases hcell

/-- The indices of a cell. -/
theorem Quiet.index_lt (h : adb.Quiet) (hcell : adb.cell v = some c) :
    v.tableIndex < adb.book.length ∧ v.cellIndex < adb.tableCap := by
  obtain ⟨table, htable, hget⟩ := table_of_cell hcell
  have ht := h.coherent.tabled _ table htable
  have hlt := (List.getElem?_eq_some_iff.mp hget).1
  obtain ⟨entry, hentry, -⟩ := Option.map_eq_some_iff.mp htable
  rw [ht.accounted.arrays.2, ht.cap] at hlt
  exact ⟨(List.getElem?_eq_some_iff.mp hentry).1, hlt⟩

/-- A word holds an index. -/
theorem Quiet.lt (h : adb.Quiet) (hcell : adb.cell v = some c) :
    v.tableIndex < 2 ^ 64 ∧ v.cellIndex < 2 ^ 64 := by
  obtain ⟨htable, hcellIndex⟩ := h.index_lt hcell
  exact ⟨Nat.lt_trans htable h.fits.2, Nat.lt_trans hcellIndex h.fits.1⟩

/-- `NULL_VADDR` has no cell. -/
theorem Quiet.ne_null (h : adb.Quiet) (hcell : adb.cell v = some c) : v ≠ nullVaddr := by
  obtain ⟨htable, -⟩ := h.index_lt hcell
  have hfits := h.fits.2
  rintro rfl
  have hmax : 2 ^ 64 - 1 < adb.book.length := htable
  omega

/-- A call that changes one cell leaves the book quiet. -/
theorem Quiet.of_cell (h : adb.Quiet)
    (hcoherent : adb'.Coherent (fun _ => False) (fun _ => False) [] [])
    (hsize : adb'.tableCap = adb.tableCap ∧ adb'.book.length = adb.book.length)
    (hcell : ∀ w, adb'.cell w = if w = v then some c' else adb.cell w)
    (hlck : c'.allocated = false → c'.lck.isFree = true) : adb'.Quiet := by
  refine ⟨hcoherent, fun w d hw => ?_, ?_⟩
  · rw [hcell] at hw
    split at hw
    · cases hw
      exact hlck
    · exact h.unlocked w d hw
  · rw [hsize.1, hsize.2]
    exact h.fits

theorem Quiet.setCell (h : adb.Quiet) (hcell : adb.cell v = some c)
    (hallocated : c'.allocated = c.allocated) (hlck : c'.allocated = false → c'.lck.isFree = true) :
    (adb.setCell v c').Quiet := by
  obtain ⟨table, htable, hget⟩ := table_of_cell hcell
  have hlt := (List.getElem?_eq_some_iff.mp hget).1
  have heq : adb.setCell v c' = adb.setTable v.tableIndex
      { table with cells := table.cells.set v.cellIndex c' } := by
    unfold AddrBook.setCell
    rw [htable]
  have hsame : AddrTable.SameStack table { table with cells := table.cells.set v.cellIndex c' } :=
    ⟨rfl, rfl, rfl, List.length_set ..⟩
  refine h.of_cell ?_ ?_ (cell_setCell hcell) hlck
  · rw [heq]
    refine h.coherent.setTable_of_sameStack htable hsame
      ((h.coherent.tabled _ table htable).accounted.of_sameStack hsame fun j => ?_)
      (fun _ _ => rfl) fun _ _ => rfl
    rw [AddrTable.isAllocated_set hlt]
    split
    next hj =>
      have hold : table.isAllocated j = c.allocated := by
        rw [hj, AddrTable.isAllocated, hget, Option.any_some]
      rw [hold, hallocated]
    next => rfl
  · rw [heq, length_setTable]
    exact ⟨rfl, rfl⟩

theorem size_pushFreeList : (adb.pushFreeList e).tableCap = adb.tableCap ∧
    (adb.pushFreeList e).book.length = adb.book.length := by
  refine ⟨?_, length_pushFreeList⟩
  unfold pushFreeList
  cases adb.freeList <;> rfl

theorem size_tryRemoval : (adb.tryRemoval e).tableCap = adb.tableCap ∧
    (adb.tryRemoval e).book.length = adb.book.length := by
  unfold tryRemoval
  split
  · exact ⟨rfl, rfl⟩
  next entry _ =>
    split
    · exact ⟨rfl, rfl⟩
    · split
      · exact ⟨rfl, rfl⟩
      · refine ⟨?_, length_unlinkFreeList⟩
        unfold unlinkFreeList
        cases entry.prev <;> cases entry.next <;> rfl

theorem size_tryAddition : (adb.tryAddition e).tableCap = adb.tableCap ∧
    (adb.tryAddition e).book.length = adb.book.length := by
  unfold tryAddition
  split
  · exact ⟨rfl, rfl⟩
  · split
    · exact ⟨rfl, rfl⟩
    · split
      · exact ⟨rfl, rfl⟩
      · exact size_pushFreeList

/-! ## `adb_put_p` -/

theorem table_addTable {table : AddrTable} (e : Nat) :
    (adb.addTable table).table e = if e = adb.book.length then some table else adb.table e := by
  unfold addTable
  rw [table_of_map getElem?_pushFreeList fun _ => rfl, AddrBook.table, getElem?_snoc]
  split <;> rfl

theorem cell_newAddrTable {cap : Nat} (h : newAddrTable cap = some table)
    (hget : table.cells[i]? = some c) : c.allocated = false ∧ c.lck.isFree = true := by
  obtain ⟨-, -, rfl⟩ := newAddrTable_eq_some.mp h
  rw [List.getElem?_replicate] at hget
  split at hget
  · cases hget
    exact ⟨rfl, rfl⟩
  · cases hget

/-- The cells of a new table are not allocated. -/
theorem cell_tryExpand (hexpand : adb.tryExpand = some adb') (hcell : adb'.cell v = some c) :
    adb.cell v = some c ∨ c.allocated = false ∧ c.lck.isFree = true := by
  rcases tryExpand_cases hexpand with ⟨-, rfl⟩ | ⟨-, new, hnew, rfl⟩
  · exact .inl hcell
  · obtain ⟨table, htable, hget⟩ := table_of_cell hcell
    rw [table_addTable] at htable
    split at htable
    · cases htable
      exact .inr (cell_newAddrTable hnew hget)
    · refine .inl ?_
      unfold cell
      rw [htable]
      exact hget

theorem quiet_tryExpand (h : adb.Quiet) (hroom : adb.book.length + 1 < 2 ^ 64)
    (hexpand : adb.tryExpand = some adb') : adb'.Quiet := by
  refine ⟨h.coherent.tryExpand hexpand, fun w d hw hd => ?_, ?_⟩
  · rcases cell_tryExpand hexpand hw with hold | ⟨-, hfree⟩
    · exact h.unlocked w d hold hd
    · exact hfree
  · rcases tryExpand_cases hexpand with ⟨-, rfl⟩ | ⟨-, table, -, rfl⟩
    · exact h.fits
    · obtain ⟨-, hlen, hcap⟩ := size_addTable adb table
      exact ⟨hcap ▸ h.fits.1, hlen ▸ hroom⟩

theorem entry_tryExpand (hexpand : adb.tryExpand = some adb') (w : Vaddr) : adb'.entry w = adb.entry w := by
  refine Option.ext fun c => ?_
  rw [entry_eq_some, entry_eq_some]
  constructor
  · rintro ⟨hcell, hallocated⟩
    rcases cell_tryExpand hexpand hcell with hold | ⟨hfalse, -⟩
    · exact ⟨hold, hallocated⟩
    · rw [hfalse] at hallocated
      cases hallocated
  · rintro ⟨hcell, hallocated⟩
    refine ⟨?_, hallocated⟩
    rcases tryExpand_cases hexpand with ⟨-, rfl⟩ | ⟨-, new, -, rfl⟩
    · exact hcell
    · obtain ⟨table, htable, hget⟩ := table_of_cell hcell
      obtain ⟨entry, hentry, -⟩ := Option.map_eq_some_iff.mp htable
      have hlt := (List.getElem?_eq_some_iff.mp hentry).1
      unfold cell
      rw [table_addTable, if_neg (by omega), htable]
      exact hget

/-- After it a table is listed. -/
theorem freeList_tryExpand (hexpand : adb.tryExpand = some adb') : adb'.freeList ≠ none := by
  rcases tryExpand_cases hexpand with ⟨hlisted, rfl⟩ | ⟨-, table, -, rfl⟩
  · exact hlisted
  · rw [(size_addTable adb table).1]
    exact Option.some_ne_none _

theorem setTable_setTable : (adb.setTable e table).setTable e table' = adb.setTable e table' := by
  unfold setTable update
  simp only [List.modify_modify_eq]
  rfl

/-- The section of `adt_put_p` that writes the cell, when the lock of the cell is free. -/
theorem writeCell_eq {adt : AddrTable} (t : Tid) (paddr : Nat) (hold : Bool) (hget : adt.cells[i]? = some c)
    (hfree : c.lck.isFree = true) : adt.writeCell i t paddr hold = some { adt with
      cells := adt.cells.set i ⟨if hold then RwLock.acqWrite {} t else {}, true, paddr⟩ } := by
  obtain ⟨hw, hr⟩ := RwLock.isFree_iff.mp hfree
  have hlck : c.lck = {} := by
    cases hc : c.lck
    rw [hc] at hw hr
    cases hw
    cases hr
    rfl
  unfold AddrTable.writeCell
  rw [hget]
  simp only [hlck]
  rfl

/-- A put with a table in the free list. -/
theorem adbPutP_listed (h : adb.Quiet) (hlist : adb.freeList = some e) (t : Tid) (paddr : Nat)
    (hold : Bool) (fuel : Nat) : ∃ v adb', adb.adbPutP t paddr hold (fuel + 1) = some (v, adb') ∧
      adb'.Quiet ∧ adb.entry v = none ∧
      ∀ w, adb'.entry w =
        if w = v then some ⟨if hold then RwLock.acqWrite {} t else {}, true, paddr⟩
        else adb.entry w := by
  obtain ⟨l, hl⟩ := h.coherent.listed
  have hin : adb.inFreeList e = true := by
    have hhead : l.head? = some e := hl.linked.head.symm.trans hlist
    exact (hl.mem e).mp (List.mem_of_mem_head? hhead)
  obtain ⟨adt, htable⟩ : ∃ adt, adb.table e = some adt := by
    rw [AddrBook.table, List.getElem?_eq_getElem (lt_of_inFreeList hin)]
    exact ⟨_, rfl⟩
  have ht := h.coherent.tabled e adt htable
  -- nothing is pending, so a listed table has space
  obtain ⟨⟨code, i, adt'⟩, hpop⟩ : ∃ r, adt.popFree = some r := by
    refine Option.ne_none_iff_exists'.mp fun hnone => ?_
    exact ht.removes (AddrTable.popFree_eq_none.mp hnone) hin
  obtain ⟨-, -, hcells, hcode⟩ := AddrTable.stackFill_of_popFree hpop
  have hpopped : (adb.setTable e adt').Coherent (fun _ => False)
      (fun e' => e' = e ∧ code = .newlyFull) [⟨e, i⟩] [] :=
    (h.coherent.mono (fun _ => id) (fun _ => False.elim) (fun _ => rfl) fun _ => rfl).pop htable hpop
      (fun hfull => ⟨rfl, hfull⟩) fun v => (Nat.zero_add _).symm
  have htable' : (adb.setTable e adt').table e = some adt' := by
    rw [table_setTable htable, if_pos rfl]
  have hacc := (hpopped.tabled e adt' htable').accounted
  have hmem : i ∈ cellsOf e [⟨e, i⟩] := by
    rw [← List.count_pos_iff, count_cellsOf, count_vaddr, List.count_singleton_self]
    exact Nat.one_pos
  obtain ⟨hlt, hfree⟩ := hacc.of_popped hmem
  rw [← hacc.arrays.2] at hlt
  have hget : adt'.cells[i]? = some adt'.cells[i] := List.getElem?_eq_getElem hlt
  have hcell : adb.cell ⟨e, i⟩ = some adt'.cells[i] := by
    unfold cell
    rw [htable]
    show adt.cells[i]? = _
    rw [← hcells]
    exact hget
  have hunallocated : adt'.cells[i].allocated = false := by
    simpa only [AddrTable.isAllocated, hget, Option.any_some] using hfree
  have hwrite := writeCell_eq t paddr hold hget (h.unlocked _ _ hcell hunallocated)
  set c' : AddrTableCell := ⟨if hold then RwLock.acqWrite {} t else {}, true, paddr⟩
  set adt'' : AddrTable := { adt' with cells := adt'.cells.set i c' }
  have hwritten : (adb.setTable e adt'').Coherent (fun _ => False)
      (fun e' => e' = e ∧ code = .newlyFull) [] [] :=
    setTable_setTable ▸ hpopped.write htable' hwrite fun v => Nat.zero_add _
  have hcellw : ∀ w, (adb.setTable e adt'').cell w = if w = ⟨e, i⟩ then some c' else adb.cell w :=
    cell_setTable_set (v := ⟨e, i⟩) htable (hcells ▸ hlt) (by rw [← hcells])
  have hput : adb.adbPutP t paddr hold (fuel + 1) = some (⟨e, i⟩,
      if code = .newlyFull then (adb.setTable e adt'').tryRemoval e else adb.setTable e adt'') := by
    rw [adbPutP, hlist]
    simp only [htable, hpop, hwrite]
  have hnone : adb.entry ⟨e, i⟩ = none := by
    rw [entry, hcell, Option.filter_some, if_neg (by rw [hunallocated]; exact Bool.false_ne_true)]
  have hheld : c'.allocated = false → c'.lck.isFree = true := by
    intro hfalse
    cases hfalse
  refine ⟨⟨e, i⟩, _, hput, ?_, hnone, fun w => ?_⟩
  · split
    next hfull =>
      refine h.of_cell (hwritten.tryRemoval fun e' hne he' => hne he'.1) ?_
        (fun w => (cell_of_table (table_tryRemoval e) w).trans (hcellw w)) hheld
      rw [size_tryRemoval.1, size_tryRemoval.2, length_setTable]
      exact ⟨rfl, rfl⟩
    next hfull =>
      refine h.of_cell (hwritten.mono (fun _ => id) (fun e' he' => hfull he'.2) (fun _ => rfl)
        fun _ => rfl) ?_ hcellw hheld
      rw [length_setTable]
      exact ⟨rfl, rfl⟩
  · refine entry_of_cell c' (fun w => ?_) w
    split
    · exact (cell_of_table (table_tryRemoval e) w).trans (hcellw w)
    · exact hcellw w

/-- One more table can be made: it fits a word, and there are fewer than `2 ^ 64` of them. -/
def TableRoom (adb : AddrBook) : Prop :=
  adb.freeList = none → adb.book.length + 1 < 2 ^ 64 ∧ FitsTable adb.tableCap

/-- **Put.** With room for a table, if it needs one, `adb_put_p` allocates a vaddr that was not allocated,
and changes nothing else. -/
theorem adbPutP_eq (h : adb.Quiet) (t : Tid) (paddr : Nat) (hold : Bool)
    (hroom : adb.TableRoom) :
    ∃ v adb', adb.adbPutP t paddr hold 2 = some (v, adb') ∧ adb'.Quiet ∧ adb.entry v = none ∧
      ∀ w, adb'.entry w =
        if w = v then some ⟨if hold then RwLock.acqWrite {} t else {}, true, paddr⟩
        else adb.entry w := by
  cases hlist : adb.freeList with
  | some e => exact adbPutP_listed h hlist t paddr hold 1
  | none =>
    obtain ⟨hlen, hfits⟩ := hroom hlist
    obtain ⟨adb₁, hexpand⟩ := tryExpand_of_fits h.coherent.tableCap fun _ => hfits
    obtain ⟨e, hlist'⟩ := Option.ne_none_iff_exists'.mp (freeList_tryExpand hexpand)
    obtain ⟨v, adb', hput, hq', hnone, hentry⟩ :=
      adbPutP_listed (quiet_tryExpand h hlen hexpand) hlist' t paddr hold 0
    refine ⟨v, adb', ?_, hq', (entry_tryExpand hexpand v).symm.trans hnone, fun w => ?_⟩
    · rw [adbPutP, hlist]
      simp only [hlen, if_true, hexpand, Option.bind_some]
      exact hput
    · rw [hentry, entry_tryExpand hexpand]

/-- A put that returned had room for a table. -/
theorem tableRoom_of_adbPutP {paddr : Nat} {hold : Bool} {fuel : Nat} {r : Vaddr × AddrBook}
    (hput : adb.adbPutP t paddr hold (fuel + 1) = some r) : adb.TableRoom := by
  intro hnone
  rw [adbPutP, hnone] at hput
  simp only at hput
  split at hput
  next hlen =>
    obtain ⟨adb₁, hexpand, -⟩ := Option.bind_eq_some_iff.mp hput
    rcases tryExpand_cases hexpand with ⟨hlisted, -⟩ | ⟨-, table, hnew, -⟩
    · exact absurd hnone hlisted
    · exact ⟨hlen, (newAddrTable_eq_some.mp hnew).2.1⟩
  next => cases hput

/-- What a put that returned has done. -/
theorem adbPutP_eq_some (h : adb.Quiet) {paddr : Nat} {hold : Bool}
    (hput : adb.adbPutP t paddr hold 2 = some (v, adb')) : adb'.Quiet ∧ adb.entry v = none ∧
      ∀ w, adb'.entry w =
        if w = v then some ⟨if hold then RwLock.acqWrite {} t else {}, true, paddr⟩
        else adb.entry w := by
  obtain ⟨v', adb'', hput', hspec⟩ := adbPutP_eq h t paddr hold (tableRoom_of_adbPutP hput)
  rw [hput] at hput'
  cases hput'
  exact hspec

/-! ## `adb_free` -/

theorem of_clearCell (h : table.clearCell i = some (some table')) :
    ∃ c, table.cells[i]? = some c ∧ c.lck.isFree = true ∧ c.allocated = true ∧
      table' = { table with cells := table.cells.set i { c with allocated := false, paddr := 0 } } := by
  unfold AddrTable.clearCell at h
  split at h
  · cases h
  next c hc =>
    split at h
    next hfree =>
      split at h
      next hallocated =>
        cases h
        exact ⟨c, hc, hfree, hallocated, rfl⟩
      next => cases h
    next => cases h

/-- **Free.** `adb_free` goes through when the vaddr is allocated and nobody holds its lock, and
then takes the vaddr, and nothing else, out of the map. -/
theorem adbFree_eq_some (h : adb.Quiet) (hfree : adb.adbFree v = some adb') :
    (∃ c, adb.entry v = some c ∧ c.lck.isFree = true) ∧ adb'.Quiet ∧
      ∀ w, adb'.entry w = if w = v then none else adb.entry w := by
  unfold adbFree at hfree
  split at hfree
  · cases hfree
  next table htable =>
    split at hfree
    next table' hclear =>
      cases hfree
      obtain ⟨c, hget, hlck, hallocated, htab⟩ := of_clearCell hclear
      have hlt := (List.getElem?_eq_some_iff.mp hget).1
      have hcell : adb.cell v = some c := by
        unfold cell
        rw [htable]
        exact hget
      set c' : AddrTableCell := { c with allocated := false, paddr := 0 }
      set pushed := (table'.pushFree v.cellIndex).2 with hpushed
      set code := (table'.pushFree v.cellIndex).1
      have hcleared : (adb.setTable v.tableIndex table').Coherent (fun _ => False) (fun _ => False) []
          [v] := h.coherent.clear htable hclear fun w => (Nat.zero_add _).symm
      have htable' : (adb.setTable v.tableIndex table').table v.tableIndex = some table' := by
        rw [table_setTable htable, if_pos rfl]
      have hfreed : (adb.setTable v.tableIndex pushed).Coherent
          (fun e => e = v.tableIndex ∧ code = .newlyFree) (fun _ => False) [] [] :=
        setTable_setTable ▸ (hcleared.mono (fun _ => False.elim) (fun _ => id) (fun _ => rfl)
          fun _ => rfl).push_table htable' (fun hcode => ⟨rfl, hcode⟩) fun w => Nat.zero_add _
      have hcellw : ∀ w, (adb.setTable v.tableIndex pushed).cell w =
          if w = v then some c' else adb.cell w :=
        cell_setTable_set htable hlt (by rw [hpushed, htab]; rfl)
      refine ⟨⟨c, entry_eq_some.mpr ⟨hcell, hallocated⟩, hlck⟩, ?_, fun w => ?_⟩
      · split
        next hcode =>
          refine h.of_cell (hfreed.tryAddition fun e' hne he' => hne he'.1) ?_
            (fun w => (cell_of_table (table_tryAddition v.tableIndex) w).trans (hcellw w))
            fun _ => hlck
          rw [size_tryAddition.1, size_tryAddition.2, length_setTable]
          exact ⟨rfl, rfl⟩
        next hcode =>
          refine h.of_cell (hfreed.mono (fun e' he' => hcode he'.2) (fun _ => id) (fun _ => rfl)
            fun _ => rfl) ?_ hcellw fun _ => hlck
          rw [length_setTable]
          exact ⟨rfl, rfl⟩
      · refine entry_of_cell c' (fun w => ?_) w
        split
        · exact (cell_of_table (table_tryAddition v.tableIndex) w).trans (hcellw w)
        · exact hcellw w
    next => cases hfree

/-- Nothing but a lock keeps `adb_free` from an allocated vaddr. -/
theorem adbFree_isSome (hentry : adb.entry v = some c) (hlck : c.lck.isFree = true) :
    ∃ adb', adb.adbFree v = some adb' := by
  obtain ⟨hcell, hallocated⟩ := entry_eq_some.mp hentry
  obtain ⟨table, htable, hget⟩ := table_of_cell hcell
  unfold adbFree AddrTable.clearCell
  simp only [htable, hget, hlck, hallocated, if_true]
  exact ⟨_, rfl⟩

/-! ## The locks and the move -/

/-- A lock operation or a move assigns to an allocated cell. -/
theorem entry_setCell (hentry : adb.entry v = some c) (hallocated : c'.allocated = true) (w : Vaddr) :
    (adb.setCell v c').entry w = if w = v then some c' else adb.entry w := by
  rw [entry_of_cell c' (cell_setCell (entry_eq_some.mp hentry).1), hallocated]
  rfl

theorem Quiet.setCell_of_entry (h : adb.Quiet) (hentry : adb.entry v = some c)
    (hallocated : c'.allocated = true) : (adb.setCell v c').Quiet := by
  obtain ⟨hcell, hold⟩ := entry_eq_some.mp hentry
  refine h.setCell hcell (hallocated.trans hold.symm) fun hfalse => ?_
  rw [hallocated] at hfalse
  cases hfalse

/-- A change to the allocated cell of a vaddr: nothing else is different. -/
structure Assigned (adb adb' : AddrBook) (v : Vaddr) (c' : AddrTableCell) : Prop where
  quiet : adb'.Quiet
  entry : ∀ w, adb'.entry w = if w = v then some c' else adb.entry w
  size : adb'.tableCap = adb.tableCap ∧ adb'.book.length = adb.book.length

theorem size_setCell : (adb.setCell v c').tableCap = adb.tableCap ∧
    (adb.setCell v c').book.length = adb.book.length := by
  unfold setCell
  split
  · exact ⟨rfl, rfl⟩
  · exact ⟨rfl, length_setTable⟩

theorem setTable_self {table : AddrTable} {e : Nat} (htable : adb.table e = some table) :
    adb.setTable e table = adb := by
  obtain ⟨entry, hentry, rfl⟩ := Option.map_eq_some_iff.mp htable
  unfold setTable update
  rw [List.modify_eq_set_getElem?, hentry]
  obtain ⟨he, rfl⟩ := List.getElem?_eq_some_iff.mp hentry
  show { adb with book := adb.book.set e adb.book[e] } = adb
  rw [List.set_getElem_self]

theorem setCell_setCell : (adb.setCell v c).setCell v c' = adb.setCell v c' := by
  cases htable : adb.table v.tableIndex with
  | none => simp only [setCell, htable]
  | some table =>
    simp only [setCell, htable, table_setTable htable, if_true, setTable_setTable, List.set_set]

/-- A cell is put back. -/
theorem setCell_self (hcell : adb.cell v = some c) : adb.setCell v c = adb := by
  obtain ⟨table, htable, hget⟩ := table_of_cell hcell
  obtain ⟨hlt, rfl⟩ := List.getElem?_eq_some_iff.mp hget
  unfold setCell
  rw [htable]
  simp only [List.set_getElem_self]
  exact setTable_self htable

theorem assigned_setCell (h : adb.Quiet) (hentry : adb.entry v = some c)
    (hallocated : c'.allocated = true) : Assigned adb (adb.setCell v c') v c' :=
  ⟨h.setCell_of_entry hentry hallocated, entry_setCell hentry hallocated, size_setCell⟩

theorem Assigned.self (h : Assigned adb adb' v c') : adb'.entry v = some c' := by
  rw [h.entry, if_pos rfl]

theorem Assigned.trans {adb'' : AddrBook} {c'' : AddrTableCell} (h : Assigned adb adb' v c')
    (h' : Assigned adb' adb'' v c'') : Assigned adb adb'' v c'' := by
  refine ⟨h'.quiet, fun w => ?_, h'.size.1.trans h.size.1, h'.size.2.trans h.size.2⟩
  rw [h'.entry, h.entry]
  split <;> rfl

/-- **Lock.** A thread gets the address in the cell and a lock on it. -/
theorem adbGetRead_eq_some (h : adb.Quiet) {paddr : Nat} (hget : adb.adbGetRead t v = some (paddr, adb')) :
    ∃ c, adb.entry v = some c ∧ c.lck.canRead = true ∧ paddr = c.paddr ∧
      Assigned adb adb' v { c with lck := c.lck.acqRead t } := by
  unfold adbGetRead at hget
  split at hget
  · cases hget
  next c hcell =>
    split at hget
    next hc =>
      cases hget
      obtain ⟨hlck, hallocated⟩ := Bool.and_eq_true_iff.mp hc
      have hentry := entry_eq_some.mpr ⟨hcell, hallocated⟩
      exact ⟨c, hentry, hlck, rfl, assigned_setCell h hentry hallocated⟩
    next => cases hget

theorem adbGetWrite_eq_some (h : adb.Quiet) {paddr : Nat}
    (hget : adb.adbGetWrite t v = some (paddr, adb')) :
    ∃ c, adb.entry v = some c ∧ c.lck.isFree = true ∧ paddr = c.paddr ∧
      Assigned adb adb' v { c with lck := c.lck.acqWrite t } := by
  unfold adbGetWrite at hget
  split at hget
  · cases hget
  next c hcell =>
    split at hget
    next hc =>
      cases hget
      obtain ⟨hlck, hallocated⟩ := Bool.and_eq_true_iff.mp hc
      have hentry := entry_eq_some.mpr ⟨hcell, hallocated⟩
      exact ⟨c, hentry, hlck, rfl, assigned_setCell h hentry hallocated⟩
    next => cases hget

theorem adbGetRead_isSome (hentry : adb.entry v = some c) (hlck : c.lck.canRead = true) (t : Tid) :
    adb.adbGetRead t v = some (c.paddr, adb.setCell v { c with lck := c.lck.acqRead t }) := by
  obtain ⟨hcell, hallocated⟩ := entry_eq_some.mp hentry
  unfold adbGetRead
  simp only [hcell, hlck, hallocated, Bool.and_self, if_true]

theorem adbGetWrite_isSome (hentry : adb.entry v = some c) (hlck : c.lck.isFree = true) (t : Tid) :
    adb.adbGetWrite t v = some (c.paddr, adb.setCell v { c with lck := c.lck.acqWrite t }) := by
  obtain ⟨hcell, hallocated⟩ := entry_eq_some.mp hentry
  unfold adbGetWrite
  simp only [hcell, hlck, hallocated, Bool.and_self, if_true]

theorem adbTryGetWrite_eq_some (h : adb.Quiet) {paddr : Nat}
    (hget : adb.adbTryGetWrite t v = some (some (paddr, adb'))) :
    ∃ c, adb.entry v = some c ∧ Assigned adb adb' v { c with lck := c.lck.acqWrite t } := by
  unfold adbTryGetWrite at hget
  split at hget
  · cases hget
  next c hcell =>
    split at hget
    · split at hget
      next hallocated =>
        cases hget
        have hentry := entry_eq_some.mpr ⟨hcell, hallocated⟩
        exact ⟨c, hentry, assigned_setCell h hentry hallocated⟩
      next => cases hget
    · cases hget

/-- An attempt on the lock of an allocated vaddr. -/
theorem adbTryGetWrite_eq (h : adb.Quiet) (hentry : adb.entry v = some c) (t : Tid) :
    c.lck.isFree = true ∧ (∃ adb', adb.adbTryGetWrite t v = some (some (c.paddr, adb')) ∧
      Assigned adb adb' v { c with lck := c.lck.acqWrite t }) ∨
    c.lck.isFree = false ∧ adb.adbTryGetWrite t v = some none := by
  obtain ⟨hcell, hallocated⟩ := entry_eq_some.mp hentry
  unfold adbTryGetWrite
  simp only [hcell]
  cases hfree : c.lck.isFree with
  | true =>
    refine .inl ⟨rfl, _, ?_, assigned_setCell h hentry hallocated⟩
    rw [if_pos rfl, if_pos hallocated]
  | false => exact .inr ⟨rfl, if_neg Bool.false_ne_true⟩

/-- A held lock is on an allocated cell. -/
theorem Quiet.entry_of_holds (h : adb.Quiet) (hcell : adb.cell v = some c)
    (hholds : c.lck.holds t = true) : adb.entry v = some c := by
  refine entry_eq_some.mpr ⟨hcell, ?_⟩
  by_contra hfalse
  rw [RwLock.not_holds_of_isFree (h.unlocked v c hcell (Bool.eq_false_iff.mpr hfalse)) t] at hholds
  cases hholds

/-- **Unlock.** -/
theorem adbUnlock_eq_some (h : adb.Quiet) (hunlock : adb.adbUnlock t v = some adb') :
    ∃ c, adb.entry v = some c ∧ c.lck.holds t = true ∧
      Assigned adb adb' v { c with lck := c.lck.release t } := by
  unfold adbUnlock at hunlock
  split at hunlock
  · cases hunlock
  next c hcell =>
    split at hunlock
    next hholds =>
      cases hunlock
      have hentry := h.entry_of_holds hcell hholds
      exact ⟨c, hentry, hholds, assigned_setCell h hentry (entry_eq_some.mp hentry).2⟩
    next => cases hunlock

theorem adbUnlock_isSome (h : adb.Quiet) (hentry : adb.entry v = some c)
    (hholds : c.lck.holds t = true) :
    ∃ adb', adb.adbUnlock t v = some adb' ∧ Assigned adb adb' v { c with lck := c.lck.release t } := by
  obtain ⟨hcell, hallocated⟩ := entry_eq_some.mp hentry
  refine ⟨adb.setCell v { c with lck := c.lck.release t }, ?_, assigned_setCell h hentry hallocated⟩
  unfold adbUnlock
  simp only [hcell, hholds, if_true]

/-- **Move.** The move of a locked vaddr, on the bytes and in the book. -/
theorem adbMoveP_eq (h : adb.Quiet) (hentry : adb.entry v = some c) (mem : Mem) (newPaddr size : Nat) :
    ∃ adb', adb.adbMoveP mem v newPaddr size = some
        (((mem.move newPaddr c.paddr size).store64 (newPaddr - 16) v.tableIndex).store64
          (newPaddr - 8) v.cellIndex, adb') ∧
      Assigned adb adb' v { c with paddr := newPaddr } := by
  obtain ⟨hcell, hallocated⟩ := entry_eq_some.mp hentry
  refine ⟨_, ?_, assigned_setCell h hentry hallocated⟩
  unfold adbMoveP
  simp only [hcell]
  rw [if_pos hallocated]

end AddrBook

end Chvm.Virt
