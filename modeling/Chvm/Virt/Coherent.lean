import Chvm.Virt.Book

/-!
# The book between two sections

What is pending is a parameter: `adding e` says that some call still owes table `e` an addition,
`removing e` that one owes it a removal, and the vaddrs are given whose cell a put has popped and
not yet written, or a free has cleared and not yet pushed. Every section of `adb_put_p` and
`adb_free` keeps `Coherent` when the caller takes up or settles what it owes.
-/

set_option autoImplicit false

namespace Chvm.Virt

open Chvm.Lib

namespace AddrBook

variable {adb adb' : AddrBook} {e e' : Nat} {l : List Nat}

/-- The cells of table `e` among the vaddrs. -/
def cellsOf (e : Nat) (vs : List Vaddr) : List Nat :=
  (vs.filter (·.tableIndex == e)).map (·.cellIndex)

theorem count_cellsOf (e i : Nat) (vs : List Vaddr) : (cellsOf e vs).count i = vs.count ⟨e, i⟩ := by
  induction vs with
  | nil => rfl
  | cons v vs ih =>
    obtain ⟨e', i'⟩ := v
    unfold cellsOf at ih ⊢
    rw [List.count_cons, ← ih, List.filter_cons]
    by_cases heq : e' = e
    · subst heq
      simp only [beq_self_eq_true, if_true, List.map_cons, List.count_cons, beq_iff_eq,
        Vaddr.mk.injEq, true_and]
    · simp only [beq_eq_false_iff_ne.mpr heq, Bool.false_eq_true, if_false, beq_iff_eq,
        Vaddr.mk.injEq, heq, false_and, Nat.add_zero]

/-- Table `e`, with what is pending on it. -/
structure Tabled (tableCap : Nat) (adding removing listed : Prop) (popped cleared : List Nat)
    (table : AddrTable) : Prop where
  cap : table.cap = tableCap
  accounted : table.Accounted popped cleared
  adds : table.stackFill ≠ 0 → listed ∨ adding
  removes : table.stackFill = 0 → listed → removing

/-- The book, with the calls that owe it an addition or a removal, and the vaddrs whose cell a put
has popped and a free has cleared. -/
structure Coherent (adb : AddrBook) (adding removing : Nat → Prop) (popped cleared : List Vaddr) :
    Prop where
  tableCap : adb.tableCap ≠ 0
  bookCap : adb.book.length ≤ adb.bookCap ∧ adb.bookCap ≠ 0
  listed : ∃ l, adb.Listed l
  tabled : ∀ e table, adb.table e = some table → Tabled adb.tableCap (adding e) (removing e)
    (adb.inFreeList e = true) (cellsOf e popped) (cellsOf e cleared) table
  known : ∀ v, v ∈ popped ∨ v ∈ cleared → v.tableIndex < adb.book.length

variable {adding adding' removing removing' : Nat → Prop} {popped popped' cleared cleared' : List Vaddr}
  {table table' : AddrTable}

theorem coherent_new {tableCap : Nat} (h : newAddrBook tableCap = some adb) :
    adb.Coherent adding removing [] [] := by
  obtain ⟨hcap, rfl⟩ := newAddrBook_eq_some.mp h
  refine ⟨hcap, ⟨Nat.zero_le _, Nat.one_ne_zero⟩, ⟨[], List.nodup_nil, rfl, fun e => ?_⟩,
    fun e table h => ?_, fun v hv => ?_⟩
  · exact ⟨fun h => (List.not_mem_nil h).elim, fun h => absurd (lt_of_inFreeList h) (Nat.not_lt_zero e)⟩
  · cases h
  · exact absurd (hv.elim id id) List.not_mem_nil

/-- More may be pending. -/
theorem Coherent.mono (h : adb.Coherent adding removing popped cleared)
    (hadding : ∀ e, adding e → adding' e) (hremoving : ∀ e, removing e → removing' e)
    (hpopped : ∀ v, popped'.count v = popped.count v)
    (hcleared : ∀ v, cleared'.count v = cleared.count v) :
    adb.Coherent adding' removing' popped' cleared' := by
  refine ⟨h.tableCap, h.bookCap, h.listed, fun e table htable => ?_, fun v hv => h.known v ?_⟩
  · have ht := h.tabled e table htable
    refine ⟨ht.cap, ht.accounted.of_counts (fun i => ?_) (fun i => ?_),
      fun hfill => (ht.adds hfill).imp_right (hadding e),
      fun hfill hlisted => hremoving e (ht.removes hfill hlisted)⟩
    · rw [count_cellsOf, count_cellsOf, hpopped]
    · rw [count_cellsOf, count_cellsOf, hcleared]
  · rw [← List.count_pos_iff, ← List.count_pos_iff, hpopped, hcleared] at hv
    rw [← List.count_pos_iff, ← List.count_pos_iff]
    exact hv

theorem table_setTable (htable : adb.table e = some table) :
    (adb.setTable e table').table e' = if e' = e then some table' else adb.table e' := by
  unfold setTable AddrBook.table at *
  rw [getElem?_update]
  split
  next heq =>
    obtain ⟨entry, hentry, -⟩ := Option.map_eq_some_iff.mp htable
    rw [heq, hentry]
    rfl
  next => rfl

/-- A section of a table changes no link. -/
theorem links_setTable (adb : AddrBook) (e : Nat) (table : AddrTable) :
    (adb.setTable e table).next = adb.next ∧
    (adb.setTable e table).prev = adb.prev ∧ (adb.setTable e table).inFreeList = adb.inFreeList := by
  refine ⟨funext fun e' => ?_, funext fun e' => ?_, funext fun e' => ?_⟩ <;>
    unfold setTable <;> [unfold next; unfold prev; unfold inFreeList] <;> rw [getElem?_update] <;>
    split <;> cases adb.book[e']? <;> rfl

theorem length_setTable : (adb.setTable e table).book.length = adb.book.length :=
  List.length_modify ..

theorem Coherent.setTable (h : adb.Coherent adding removing popped cleared)
    (htable : adb.table e = some table)
    (ht : Tabled adb.tableCap (adding e) (removing e) (adb.inFreeList e = true) (cellsOf e popped')
      (cellsOf e cleared') table')
    (hpopped : ∀ v, v.tableIndex ≠ e → popped'.count v = popped.count v)
    (hcleared : ∀ v, v.tableIndex ≠ e → cleared'.count v = cleared.count v) :
    (adb.setTable e table').Coherent adding removing popped' cleared' := by
  obtain ⟨hnext, hprev, hin⟩ := links_setTable adb e table'
  have hlen : (adb.setTable e table').book.length = adb.book.length := length_setTable
  obtain ⟨l, hl⟩ := h.listed
  refine ⟨h.tableCap, hlen ▸ h.bookCap, ⟨l, hl.nodup, ?_, ?_⟩, fun e' t htab => ?_, fun v hv => ?_⟩
  · rw [hnext, hprev]
    exact hl.linked
  · rw [hin]
    exact hl.mem
  · rw [table_setTable htable] at htab
    rw [hin]
    split at htab
    next heq =>
      cases htab
      rw [heq]
      exact ht
    next hne =>
      have ht' := h.tabled e' t htab
      refine ⟨ht'.cap, ht'.accounted.of_counts (fun i => ?_) (fun i => ?_), ht'.adds, ht'.removes⟩
      · rw [count_cellsOf, count_cellsOf, hpopped _ hne]
      · rw [count_cellsOf, count_cellsOf, hcleared _ hne]
  · rw [hlen]
    by_cases heq : v.tableIndex = e
    · obtain ⟨entry, hentry, -⟩ := Option.map_eq_some_iff.mp htable
      rw [heq]
      exact (List.getElem?_eq_some_iff.mp hentry).1
    · refine h.known v ?_
      rw [← List.count_pos_iff, ← List.count_pos_iff, hpopped v heq, hcleared v heq] at hv
      rwa [← List.count_pos_iff, ← List.count_pos_iff]

/-- A section that touches no table leaves every table with what it had, when each table still has
what it owes. -/
theorem Coherent.relist (h : adb.Coherent adding removing popped cleared)
    (hcap : adb'.tableCap = adb.tableCap) (hbookCap : adb'.bookCap = adb.bookCap)
    (hlen : adb'.book.length = adb.book.length) (htables : ∀ e, adb'.table e = adb.table e)
    {l : List Nat} (hl : adb'.Listed l)
    (hadds : ∀ e table, adb.table e = some table → table.stackFill ≠ 0 →
      adb.inFreeList e = true ∨ adding e → adb'.inFreeList e = true ∨ adding' e)
    (hremoves : ∀ e table, adb.table e = some table → table.stackFill = 0 →
      (adb.inFreeList e = true → removing e) → adb'.inFreeList e = true → removing' e) :
    adb'.Coherent adding' removing' popped cleared := by
  refine ⟨hcap ▸ h.tableCap, ?_, ⟨l, hl⟩, fun e table htable => ?_, fun v hv => hlen ▸ h.known v hv⟩
  · rw [hlen, hbookCap]
    exact h.bookCap
  · rw [htables] at htable
    have ht := h.tabled e table htable
    exact ⟨hcap ▸ ht.cap, ht.accounted, fun hfill => hadds e table htable hfill (ht.adds hfill),
      fun hfill => hremoves e table htable hfill (ht.removes hfill)⟩

theorem inFreeList_pushFreeList (hlt : e < adb.book.length) :
    (adb.pushFreeList e).inFreeList e' = if e' = e then true else adb.inFreeList e' := by
  unfold inFreeList
  rw [getElem?_pushFreeList]
  split
  next heq =>
    rw [heq, List.getElem?_eq_getElem hlt]
    simp only [Option.map_some, Option.any_some]
  next => cases adb.book[e']? <;> rfl

theorem inFreeList_unlinkFreeList {entry : AddrBookEntry} :
    (adb.unlinkFreeList e entry).inFreeList e' = if e' = e then false else adb.inFreeList e' := by
  unfold inFreeList
  rw [getElem?_unlinkFreeList]
  split <;> cases adb.book[e']? <;> rfl

/-- `adb_try_removal` settles the removal of its entry, whatever the state it finds. -/
theorem Coherent.tryRemoval (h : adb.Coherent adding removing popped cleared)
    (hremoving : ∀ e', e' ≠ e → removing e' → removing' e') :
    (adb.tryRemoval e).Coherent adding removing' popped cleared := by
  obtain ⟨l, hl⟩ := h.listed
  have hkeep : (∀ table, adb.table e = some table → table.stackFill = 0 → adb.inFreeList e = false) →
      adb.Coherent adding removing' popped cleared := by
    intro hout
    refine h.relist rfl rfl rfl (fun _ => rfl) hl (fun _ _ _ _ => id) fun e' table htable hfill hrem hin => ?_
    by_cases heq : e' = e
    · subst heq
      rw [hout table htable hfill] at hin
      cases hin
    · exact hremoving e' heq (hrem hin)
  unfold AddrBook.tryRemoval
  split
  next hentry =>
    refine hkeep fun table htable => ?_
    rw [AddrBook.table, hentry] at htable
    cases htable
  next entry hentry =>
    have htable : adb.table e = some entry.adt := by rw [AddrBook.table, hentry]; rfl
    split
    next hin =>
      refine hkeep fun _ _ _ => ?_
      simpa only [inFreeList, hentry, Option.any_some, Bool.not_eq_true'] using hin
    next hin =>
      split
      next hfill =>
        refine hkeep fun table htable' hzero => ?_
        rw [htable] at htable'
        cases htable'
        omega
      next hfill =>
        rw [Bool.not_eq_true, Bool.not_eq_false'] at hin
        have hbook : ∀ e', (adb.unlinkFreeList e entry).table e' = adb.table e' := fun e' =>
          table_of_map getElem?_unlinkFreeList fun _ => rfl
        refine h.relist ?_ ?_ length_unlinkFreeList hbook (hl.unlink hentry hin)
          (fun e' table htable' hne => ?_) fun e' table _ _ hrem hlisted => ?_
        · unfold unlinkFreeList
          cases entry.prev <;> cases entry.next <;> rfl
        · unfold unlinkFreeList
          cases entry.prev <;> cases entry.next <;> rfl
        · rw [inFreeList_unlinkFreeList, if_neg]
          · exact id
          · rintro rfl
            rw [htable] at htable'
            cases htable'
            omega
        · rw [inFreeList_unlinkFreeList] at hlisted
          split at hlisted
          · cases hlisted
          next heq => exact hremoving e' heq (hrem hlisted)

/-- A push of a table that has space settles its addition. -/
theorem Coherent.push (h : adb.Coherent adding removing popped cleared)
    (hlt : e < adb.book.length) (hout : adb.inFreeList e = false)
    (hfill : ∀ table, adb.table e = some table → table.stackFill ≠ 0)
    (hadding : ∀ e', e' ≠ e → adding e' → adding' e') :
    (adb.pushFreeList e).Coherent adding' removing popped cleared := by
  obtain ⟨l, hl⟩ := h.listed
  have hbook : ∀ e', (adb.pushFreeList e).table e' = adb.table e' := fun e' =>
    table_of_map getElem?_pushFreeList fun _ => rfl
  refine h.relist ?_ ?_ length_pushFreeList hbook (hl.push hlt hout) (fun e' table _ _ hadd => ?_)
    fun e' table htable hzero hrem hlisted => ?_
  · unfold pushFreeList
    cases adb.freeList <;> rfl
  · unfold pushFreeList
    cases adb.freeList <;> rfl
  · rw [inFreeList_pushFreeList hlt]
    split
    next => exact .inl rfl
    next heq => exact hadd.imp_right (hadding e' heq)
  · rw [inFreeList_pushFreeList hlt, if_neg] at hlisted
    · exact hrem hlisted
    · rintro rfl
      exact hfill table htable hzero

/-- `adb_try_addition` settles the addition of its entry. -/
theorem Coherent.tryAddition (h : adb.Coherent adding removing popped cleared)
    (hadding : ∀ e', e' ≠ e → adding e' → adding' e') :
    (adb.tryAddition e).Coherent adding' removing popped cleared := by
  obtain ⟨l, hl⟩ := h.listed
  have hkeep : (∀ table, adb.table e = some table → table.stackFill ≠ 0 → adb.inFreeList e = true) →
      adb.Coherent adding' removing popped cleared := by
    intro hin
    refine h.relist rfl rfl rfl (fun _ => rfl) hl (fun e' table htable hfill hadd => ?_)
      fun _ _ _ _ => id
    by_cases heq : e' = e
    · subst heq
      exact .inl (hin table htable hfill)
    · exact hadd.imp_right (hadding e' heq)
  unfold AddrBook.tryAddition
  split
  next hentry =>
    refine hkeep fun table htable => ?_
    rw [AddrBook.table, hentry] at htable
    cases htable
  next entry hentry =>
    have htable : adb.table e = some entry.adt := by rw [AddrBook.table, hentry]; rfl
    have hlt := (List.getElem?_eq_some_iff.mp hentry).1
    split
    next hin =>
      refine hkeep fun _ _ _ => ?_
      simpa only [inFreeList, hentry, Option.any_some] using hin
    next hin =>
      split
      next hfill =>
        refine hkeep fun table htable' hne => ?_
        rw [htable] at htable'
        cases htable'
        exact absurd hfill hne
      next hfill =>
        have hout : adb.inFreeList e = false := by
          simpa only [inFreeList, hentry, Option.any_some, Bool.not_eq_true] using hin
        refine h.push hlt hout (fun table htable' => ?_) hadding
        rw [htable] at htable'
        cases htable'
        exact hfill

theorem freeList_eq_none (h : adb.freeList = none) (hl : adb.Listed l) :
    adb.inFreeList e = false := by
  have hnil : l = [] := List.head?_eq_none_iff.mp (hl.linked.head.symm.trans h)
  rw [← Bool.not_eq_true, ← hl.mem e, hnil]
  exact List.not_mem_nil

theorem getElem?_snoc {α : Type*} (xs : List α) (x : α) (i : Nat) :
    (xs ++ [x])[i]? = if i = xs.length then some x else xs[i]? := by
  rw [List.getElem?_append]
  split_ifs with hlt heq heq
  · omega
  · rfl
  · rw [heq, Nat.sub_self]
    rfl
  · rw [List.getElem?_eq_none (by simp only [List.length_singleton]; omega),
      List.getElem?_eq_none (by omega)]

/-- A new table comes with space. -/
theorem Coherent.addTable (h : adb.Coherent adding removing popped cleared) (hfree : adb.freeList = none)
    {table : AddrTable} (hnew : newAddrTable adb.tableCap = some table) :
    (adb.addTable table).Coherent adding removing popped cleared := by
  unfold AddrBook.addTable
  obtain ⟨hcap, hfill⟩ := AddrTable.newAddrTable_eq hnew
  obtain ⟨l, hl⟩ := h.listed
  have hout : ∀ e, adb.inFreeList e = false := fun e => freeList_eq_none hfree hl
  set entry : AddrBookEntry := { inFreeList := false, next := none, prev := none, adt := table }
  have hget := getElem?_snoc adb.book entry
  have hlen : (adb.book ++ [entry]).length = adb.book.length + 1 := List.length_append
  have hbook := h.bookCap
  -- the new table is in no list yet
  have hout' : ∀ e bookCap, inFreeList ⟨adb.tableCap, adb.freeList, bookCap, adb.book ++ [entry]⟩ e =
      false := by
    intro e bookCap
    have hold := hout e
    unfold inFreeList at hold ⊢
    rw [hget]
    split
    next => rfl
    next => exact hold
  suffices hnew : Coherent ⟨adb.tableCap, adb.freeList, _, adb.book ++ [entry]⟩
      (fun e => adding e ∨ e = adb.book.length) removing popped cleared from
    hnew.push (hlen ▸ Nat.lt_succ_self _) (hout' _ _) (fun t htab => by
      rw [AddrBook.table, hget, if_pos rfl] at htab
      cases htab
      exact hfill) fun e hne hadd => hadd.resolve_right hne
  refine ⟨h.tableCap, ⟨?_, ?_⟩, ⟨[], List.nodup_nil, hfree, fun e => ?_⟩, fun e t htab => ?_, fun v hv => ?_⟩
  · show (adb.book ++ [entry]).length ≤
      if adb.book.length = adb.bookCap then adb.bookCap * 2 else adb.bookCap
    rw [hlen]
    split <;> omega
  · show (if adb.book.length = adb.bookCap then adb.bookCap * 2 else adb.bookCap) ≠ 0
    split <;> omega
  · rw [hout']
    exact ⟨fun hmem => (List.not_mem_nil hmem).elim, nofun⟩
  · rw [AddrBook.table, hget] at htab
    rw [hout']
    split at htab
    next heq =>
      cases htab
      have hnone : ∀ i, popped.count ⟨e, i⟩ = 0 ∧ cleared.count ⟨e, i⟩ = 0 := by
        intro i
        rw [List.count_eq_zero, List.count_eq_zero]
        exact ⟨fun hmem => absurd (h.known _ (.inl hmem)) (by simp only [heq]; omega),
          fun hmem => absurd (h.known _ (.inr hmem)) (by simp only [heq]; omega)⟩
      refine ⟨hcap, (AddrTable.accounted_new hnew).of_counts (fun i => ?_) (fun i => ?_),
        fun _ => .inr (.inr heq), fun _ hlisted => by cases hlisted⟩
      · rw [count_cellsOf, (hnone i).1, List.count_nil]
      · rw [count_cellsOf, (hnone i).2, List.count_nil]
    next hne =>
      have ht := h.tabled e t htab
      rw [hout] at ht
      exact ⟨ht.cap, ht.accounted, fun hfill => (ht.adds hfill).imp_right .inl, ht.removes⟩
  · rw [hlen]
    exact Nat.lt_succ_of_lt (h.known v hv)

/-- `adb_try_expand` adds a table with space, if any. -/
theorem Coherent.tryExpand (h : adb.Coherent adding removing popped cleared)
    (hexpand : adb.tryExpand = some adb') : adb'.Coherent adding removing popped cleared := by
  rcases tryExpand_cases hexpand with ⟨-, rfl⟩ | ⟨hfree, table, hnew, rfl⟩
  · exact h
  · exact h.addTable hfree hnew

/-! ## The sections of a table -/

theorem count_vaddr (i j : Nat) : [(⟨e, i⟩ : Vaddr)].count ⟨e, j⟩ = [i].count j := by
  rw [← count_cellsOf]
  simp only [cellsOf, List.filter_cons, beq_self_eq_true, if_true, List.filter_nil, List.map_cons,
    List.map_nil]

theorem count_vaddr_of_ne {i : Nat} {v : Vaddr} (h : v.tableIndex ≠ e) :
    [(⟨e, i⟩ : Vaddr)].count v = 0 := by
  rw [List.count_eq_zero, List.mem_singleton]
  rintro rfl
  exact h rfl

variable {i : Nat}

/-- The pop of `adt_put_p`: a put that empties the stack owes a removal. -/
theorem Coherent.pop (h : adb.Coherent adding removing popped cleared)
    (htable : adb.table e = some table) {code : AddrTableCode}
    (hpop : table.popFree = some (code, i, table')) (hfull : code = .newlyFull → removing e)
    (hcount : ∀ v, popped'.count v = popped.count v + [(⟨e, i⟩ : Vaddr)].count v) :
    (adb.setTable e table').Coherent adding removing popped' cleared := by
  have ht := h.tabled e table htable
  obtain ⟨hfill, hcap, -, hcode⟩ := AddrTable.stackFill_of_popFree hpop
  refine h.setTable htable ⟨hcap.trans ht.cap, ht.accounted.pop hpop fun j => ?_,
    fun _ => ht.adds (by omega), fun hzero _ => hfull ?_⟩ (fun v hne => ?_) fun _ _ => rfl
  · rw [count_cellsOf, count_cellsOf, hcount, count_vaddr]
  · rw [hcode, if_pos hzero]
  · rw [hcount, count_vaddr_of_ne hne, Nat.add_zero]

/-- A section that leaves the stack alone owes nothing. -/
theorem Coherent.setTable_of_sameStack (h : adb.Coherent adding removing popped cleared)
    (htable : adb.table e = some table) (hsame : AddrTable.SameStack table table')
    (hacc : table'.Accounted (cellsOf e popped') (cellsOf e cleared'))
    (hpopped : ∀ v, v.tableIndex ≠ e → popped'.count v = popped.count v)
    (hcleared : ∀ v, v.tableIndex ≠ e → cleared'.count v = cleared.count v) :
    (adb.setTable e table').Coherent adding removing popped' cleared' := by
  have ht := h.tabled e table htable
  refine h.setTable htable ⟨hsame.cap.trans ht.cap, hacc, ?_, ?_⟩ hpopped hcleared
  · rw [hsame.stackFill]
    exact ht.adds
  · rw [hsame.stackFill]
    exact ht.removes

/-- The write of `adt_put_p`. -/
theorem Coherent.write (h : adb.Coherent adding removing popped cleared)
    (htable : adb.table e = some table) {t : Tid} {paddr : Nat} {hold : Bool}
    (hwrite : table.writeCell i t paddr hold = some table')
    (hcount : ∀ v, popped'.count v + [(⟨e, i⟩ : Vaddr)].count v = popped.count v) :
    (adb.setTable e table').Coherent adding removing popped' cleared := by
  refine h.setTable_of_sameStack htable (AddrTable.sameStack_writeCell hwrite)
    ((h.tabled e table htable).accounted.write hwrite fun j => ?_) (fun v hne => ?_) fun _ _ => rfl
  · rw [count_cellsOf, count_cellsOf, ← hcount, count_vaddr]
  · rw [← hcount, count_vaddr_of_ne hne, Nat.add_zero]

/-- The clear of `adt_free`. -/
theorem Coherent.clear (h : adb.Coherent adding removing popped cleared)
    (htable : adb.table e = some table) (hclear : table.clearCell i = some (some table'))
    (hcount : ∀ v, cleared'.count v = cleared.count v + [(⟨e, i⟩ : Vaddr)].count v) :
    (adb.setTable e table').Coherent adding removing popped cleared' := by
  refine h.setTable_of_sameStack htable (AddrTable.sameStack_clearCell hclear)
    ((h.tabled e table htable).accounted.clear hclear fun j => ?_) (fun _ _ => rfl) fun v hne => ?_
  · rw [count_cellsOf, count_cellsOf, hcount, count_vaddr]
  · rw [hcount, count_vaddr_of_ne hne, Nat.add_zero]

theorem Coherent.unlock (h : adb.Coherent adding removing popped cleared)
    (htable : adb.table e = some table) {t : Tid} (hunlock : table.unlock i t = some table') :
    (adb.setTable e table').Coherent adding removing popped cleared :=
  h.setTable_of_sameStack htable (AddrTable.sameStack_unlock hunlock)
    ((h.tabled e table htable).accounted.unlock hunlock) (fun _ _ => rfl) fun _ _ => rfl

/-- The push of `adt_free`: a free that finds the stack empty owes an addition. -/
theorem Coherent.push_table (h : adb.Coherent adding removing popped cleared)
    (htable : adb.table e = some table) (hfree : (table.pushFree i).1 = .newlyFree → adding e)
    (hcount : ∀ v, cleared'.count v + [(⟨e, i⟩ : Vaddr)].count v = cleared.count v) :
    (adb.setTable e (table.pushFree i).2).Coherent adding removing popped cleared' := by
  have ht := h.tabled e table htable
  refine h.setTable htable ⟨ht.cap, ht.accounted.push fun j => ?_, fun _ => ?_, nofun⟩
    (fun _ _ => rfl) fun v hne => ?_
  · rw [count_cellsOf, count_cellsOf, ← hcount, count_vaddr]
  · by_cases hzero : table.stackFill = 0
    · exact .inr (hfree (if_pos hzero))
    · exact ht.adds hzero
  · rw [← hcount, count_vaddr_of_ne hne, Nat.add_zero]

end AddrBook

end Chvm.Virt
