import Chvm.Lib.DList
import Chvm.Virt.Vaddr
import Chvm.Virt.Table

/-!
# The address book (`virt.c`, `addr_book`)

The book and its three sections that link and unlink tables. An entry is in the free list or not;
`in_free_list` says which, and the list runs through the `next` and `prev` indices of the entries.
-/

set_option autoImplicit false

namespace Chvm.Virt

open Chvm.Lib

/-- `addr_book_entry`; `ADB_NULL_INDEX` is `none`. -/
structure AddrBookEntry where
  inFreeList : Bool
  next : Option Nat
  prev : Option Nat
  adt : AddrTable
deriving DecidableEq, Repr

/-- `addr_book`; `book_len` is the length of `book`. -/
structure AddrBook where
  tableCap : Nat
  freeList : Option Nat
  bookCap : Nat
  book : List AddrBookEntry
deriving DecidableEq, Repr

/-- `new_addr_book`; `none` is `NULL`. -/
def newAddrBook (tableCap : Nat) : Option AddrBook :=
  if tableCap = 0 then none
  else some { tableCap := tableCap, freeList := none, bookCap := 1, book := [] }

theorem newAddrBook_eq_some {tableCap : Nat} {adb : AddrBook} : newAddrBook tableCap = some adb ↔
    tableCap ≠ 0 ∧ adb = { tableCap := tableCap, freeList := none, bookCap := 1, book := [] } := by
  unfold newAddrBook
  split
  next hzero => exact ⟨nofun, fun h => absurd hzero h.1⟩
  next hpos => exact ⟨fun h => ⟨hpos, (Option.some.inj h).symm⟩, fun h => congrArg some h.2.symm⟩

namespace AddrBook

def next (adb : AddrBook) (e : Nat) : Option Nat := (adb.book[e]?).bind (·.next)

def prev (adb : AddrBook) (e : Nat) : Option Nat := (adb.book[e]?).bind (·.prev)

def inFreeList (adb : AddrBook) (e : Nat) : Bool := (adb.book[e]?).any (·.inFreeList)

def table (adb : AddrBook) (e : Nat) : Option AddrTable := (adb.book[e]?).map (·.adt)

/-- An assignment to the fields of one entry. -/
def update (adb : AddrBook) (e : Nat) (f : AddrBookEntry → AddrBookEntry) : AddrBook :=
  { adb with book := adb.book.modify e f }

/-- A section of table `e` ran. -/
def setTable (adb : AddrBook) (e : Nat) (adt : AddrTable) : AddrBook :=
  adb.update e fun entry => { entry with adt := adt }

/-- `unsafe_adb_push_free_list`. -/
def pushFreeList (adb : AddrBook) (entryIndex : Nat) : AddrBook :=
  let linked : AddrBook := match adb.freeList with
    | none => adb
    | some head => adb.update head fun entry => { entry with prev := some entryIndex }
  let pushed := linked.update entryIndex fun entry =>
    { entry with prev := none, next := adb.freeList, inFreeList := true }
  { pushed with freeList := some entryIndex }

/-- A new table is the last of the book, and the first of the free list. -/
def addTable (adb : AddrBook) (table : AddrTable) : AddrBook :=
  let tableIndex := adb.book.length
  let adb' : AddrBook := { adb with
    bookCap := if adb.book.length = adb.bookCap then adb.bookCap * 2 else adb.bookCap
    book := adb.book ++ [{ inFreeList := false, next := none, prev := none, adt := table }] }
  adb'.pushFreeList tableIndex

/-- `adb_try_expand`; `none` when `new_addr_table` makes no table. -/
def tryExpand (adb : AddrBook) : Option AddrBook :=
  if adb.freeList.isSome then some adb else (newAddrTable adb.tableCap).map adb.addTable

/-- The links of `adb_try_removal`. -/
def unlinkFreeList (adb : AddrBook) (entryIndex : Nat) (entry : AddrBookEntry) : AddrBook :=
  let adb := match entry.prev with
    | some p => adb.update p fun e => { e with next := entry.next }
    | none => { adb with freeList := entry.next }
  let adb := match entry.next with
    | some n => adb.update n fun e => { e with prev := entry.prev }
    | none => adb
  adb.update entryIndex fun e => { e with prev := none, next := none, inFreeList := false }

/-- `adb_try_removal`. -/
def tryRemoval (adb : AddrBook) (entryIndex : Nat) : AddrBook :=
  match adb.book[entryIndex]? with
  | none => adb
  | some entry =>
    if !entry.inFreeList then adb
    else if entry.adt.stackFill > 0 then adb
    else adb.unlinkFreeList entryIndex entry

/-- `adb_try_addition`. -/
def tryAddition (adb : AddrBook) (entryIndex : Nat) : AddrBook :=
  match adb.book[entryIndex]? with
  | none => adb
  | some entry =>
    if entry.inFreeList then adb
    else if entry.adt.stackFill = 0 then adb
    else adb.pushFreeList entryIndex

/-! ## What the sections change -/

variable {adb adb' : AddrBook} {e e' : Nat}

theorem getElem?_update {f : AddrBookEntry → AddrBookEntry} :
    (adb.update e f).book[e']? = if e' = e then (adb.book[e']?).map f else adb.book[e']? := by
  unfold update
  rw [List.getElem?_modify]
  split
  next h => simp only [h, if_true, Option.map_eq_map]
  next h =>
    rw [if_neg (Ne.symm h)]
    cases adb.book[e']? <;> rfl

theorem getElem?_pushFreeList : (adb.pushFreeList e).book[e']? = (adb.book[e']?).map fun entry =>
    { entry with
      inFreeList := if e' = e then true else entry.inFreeList
      next := if e' = e then adb.freeList else entry.next
      prev := if e' = e then none else if adb.freeList = some e' then some e else entry.prev } := by
  unfold pushFreeList
  cases hhead : adb.freeList with
  | none =>
    simp only [getElem?_update, reduceCtorEq, if_false]
    split <;> cases adb.book[e']? <;> rfl
  | some head =>
    simp only [getElem?_update, Option.some.injEq, eq_comm (a := head)]
    split <;> split <;> cases adb.book[e']? <;> rfl

theorem getElem?_unlinkFreeList {entry : AddrBookEntry} :
    (adb.unlinkFreeList e entry).book[e']? = (adb.book[e']?).map fun en =>
    { en with
      inFreeList := if e' = e then false else en.inFreeList
      next := if e' = e then none else if entry.prev = some e' then entry.next else en.next
      prev := if e' = e then none else if entry.next = some e' then entry.prev else en.prev } := by
  unfold unlinkFreeList
  cases entry.prev <;> cases entry.next <;>
    simp only [getElem?_update, reduceCtorEq, if_false, Option.some.injEq, eq_comm (b := e')] <;>
    split_ifs <;> cases adb.book[e']? <;> rfl

theorem freeList_unlinkFreeList {entry : AddrBookEntry} : (adb.unlinkFreeList e entry).freeList =
    if entry.prev = none then entry.next else adb.freeList := by
  unfold unlinkFreeList
  cases entry.prev <;> cases entry.next <;> rfl

theorem length_pushFreeList : (adb.pushFreeList e).book.length = adb.book.length := by
  unfold pushFreeList update
  cases adb.freeList <;> simp only [List.length_modify]

theorem length_unlinkFreeList {entry : AddrBookEntry} :
    (adb.unlinkFreeList e entry).book.length = adb.book.length := by
  unfold unlinkFreeList update
  cases entry.prev <;> cases entry.next <;> simp only [List.length_modify]

/-- Where a table is listed nothing is added, else a new one. -/
theorem tryExpand_cases (h : adb.tryExpand = some adb') :
    adb.freeList ≠ none ∧ adb' = adb ∨
      adb.freeList = none ∧ ∃ table, newAddrTable adb.tableCap = some table ∧ adb' = adb.addTable table := by
  unfold tryExpand at h
  cases hlist : adb.freeList with
  | some head =>
    rw [hlist] at h
    exact .inl ⟨nofun, (Option.some.inj h).symm⟩
  | none =>
    rw [hlist] at h
    obtain ⟨table, hnew, hadded⟩ := Option.map_eq_some_iff.mp h
    exact .inr ⟨rfl, table, hnew, hadded.symm⟩

/-- A book of tables that fit has a next table. -/
theorem tryExpand_of_fits (hcap : adb.tableCap ≠ 0) (hfits : adb.freeList = none → FitsTable adb.tableCap) :
    ∃ adb', adb.tryExpand = some adb' := by
  unfold tryExpand
  cases hlist : adb.freeList with
  | some head => exact ⟨adb, rfl⟩
  | none =>
    obtain ⟨table, hnew⟩ := Option.isSome_iff_exists.mp ((newAddrTable_isSome hcap).mpr (hfits hlist))
    rw [hnew]
    exact ⟨_, rfl⟩

theorem size_addTable (adb : AddrBook) (table : AddrTable) :
    (adb.addTable table).freeList = some adb.book.length ∧
      (adb.addTable table).book.length = adb.book.length + 1 ∧
      (adb.addTable table).tableCap = adb.tableCap := by
  refine ⟨rfl, length_pushFreeList.trans List.length_append, ?_⟩
  unfold addTable pushFreeList
  cases adb.freeList <;> rfl

theorem table_of_map {g : AddrBookEntry → AddrBookEntry}
    (h : adb'.book[e]? = (adb.book[e]?).map g) (hg : ∀ entry, (g entry).adt = entry.adt) :
    adb'.table e = adb.table e := by
  unfold table
  rw [h]
  cases adb.book[e]? with
  | none => rfl
  | some entry => exact congrArg some (hg entry)

/-! ## The free list -/

/-- The free list runs through exactly the entries whose flag is set. -/
structure Listed (adb : AddrBook) (l : List Nat) : Prop where
  nodup : l.Nodup
  linked : Linked adb.next adb.prev adb.freeList l
  mem : ∀ e, e ∈ l ↔ adb.inFreeList e = true

variable {l : List Nat}

theorem lt_of_inFreeList (h : adb.inFreeList e = true) : e < adb.book.length := by
  unfold inFreeList at h
  cases hentry : adb.book[e]? with
  | none =>
    rw [hentry] at h
    cases h
  | some entry => exact (List.getElem?_eq_some_iff.mp hentry).1

/-- A push puts the entry in front. -/
theorem Listed.push (h : adb.Listed l) (hlt : e < adb.book.length)
    (hout : adb.inFreeList e = false) : (adb.pushFreeList e).Listed (e :: l) := by
  have hnot : e ∉ l := fun hmem => by
    rw [(h.mem e).mp hmem] at hout
    cases hout
  have hentry : adb.book[e]? = some adb.book[e] := List.getElem?_eq_getElem hlt
  refine ⟨List.nodup_cons.mpr ⟨hnot, h.nodup⟩, ?_, fun e' => ?_⟩
  · have hne : ∀ a ∈ l, a ≠ e := fun a ha heq => hnot (heq ▸ ha)
    have hnext : ∀ a ∈ l, (adb.pushFreeList e).next a = adb.next a := by
      intro a ha
      unfold next
      rw [getElem?_pushFreeList]
      cases adb.book[a]? <;> simp only [Option.map_some, Option.map_none, if_neg (hne a ha),
        Option.bind_some, Option.bind_none]
    have hprev : ∀ a ∈ l, (adb.pushFreeList e).prev a =
        if adb.freeList = some a then some e else adb.prev a := by
      intro a ha
      have hlt' := lt_of_inFreeList ((h.mem a).mp ha)
      unfold prev
      rw [getElem?_pushFreeList, List.getElem?_eq_getElem hlt']
      simp only [Option.map_some, if_neg (hne a ha), Option.bind_some]
    refine Linked.splice [] [] [e] l (m := some e) h.linked List.nodup_nil
      h.nodup rfl (by simp) (by simp) ⟨rfl, ?_, ?_⟩ hnext fun a ha => ?_
    · unfold prev
      rw [getElem?_pushFreeList, hentry]
      simp only [Option.map_some, if_true, Option.bind_some, List.getLast?_nil]
    · show (adb.pushFreeList e).next e = l.head?
      unfold next
      rw [getElem?_pushFreeList, hentry, ← h.linked.head]
      simp only [Option.map_some, if_true, Option.bind_some]
    · rw [hprev a ha, h.linked.head]
      rfl
  · rw [List.mem_cons, h.mem]
    unfold inFreeList
    rw [getElem?_pushFreeList]
    by_cases heq : e' = e
    · subst heq
      simp only [hentry, Option.map_some, if_true, Option.any_some, true_or]
    · cases adb.book[e']? <;> simp only [heq, Option.map_some, Option.map_none, if_false, false_or,
        Option.any_some, Option.any_none]

/-- An unlink takes the entry out, wherever it is. -/
theorem Listed.unlink (h : adb.Listed l) {entry : AddrBookEntry}
    (hentry : adb.book[e]? = some entry) (hin : entry.inFreeList = true) :
    (adb.unlinkFreeList e entry).Listed (l.erase e) := by
  have hmem : e ∈ l := (h.mem e).mpr (by simp only [inFreeList, hentry, Option.any_some, hin])
  obtain ⟨l₁, l₂, rfl⟩ := List.append_of_mem hmem
  have hnodup := h.nodup
  rw [List.nodup_append] at hnodup
  obtain ⟨hnodup₁, hnodup₂, hdisj⟩ := hnodup
  obtain ⟨hnot₂, hnodup₂⟩ := List.nodup_cons.mp hnodup₂
  have hnot₁ : e ∉ l₁ := fun hm => hdisj e hm e List.mem_cons_self rfl
  obtain ⟨hprev, hnext⟩ := h.linked.links
  have hp : entry.prev = l₁.getLast? := by simpa only [prev, hentry, Option.bind_some] using hprev
  have hn : entry.next = l₂.head? := by simpa only [next, hentry, Option.bind_some] using hnext
  have herase : (l₁ ++ e :: l₂).erase e = l₁ ++ l₂ := by
    rw [List.erase_append_right _ hnot₁, List.erase_cons_head]
  have hnext' : ∀ a ∈ l₁ ++ e :: l₂, a ≠ e → (adb.unlinkFreeList e entry).next a =
      if l₁.getLast? = some a then l₂.head? else adb.next a := by
    intro a ha hne
    have hlt := lt_of_inFreeList ((h.mem a).mp ha)
    unfold next
    rw [getElem?_unlinkFreeList, List.getElem?_eq_getElem hlt, hp, hn]
    simp only [Option.map_some, if_neg hne, Option.bind_some]
  have hprev' : ∀ a ∈ l₁ ++ e :: l₂, a ≠ e → (adb.unlinkFreeList e entry).prev a =
      if l₂.head? = some a then l₁.getLast? else adb.prev a := by
    intro a ha hne
    have hlt := lt_of_inFreeList ((h.mem a).mp ha)
    unfold prev
    rw [getElem?_unlinkFreeList, List.getElem?_eq_getElem hlt, hp, hn]
    simp only [Option.map_some, if_neg hne, Option.bind_some]
  have hne₁ : ∀ a ∈ l₁, a ≠ e := fun a ha heq => hnot₁ (heq ▸ ha)
  have hne₂ : ∀ a ∈ l₂, a ≠ e := fun a ha heq => hnot₂ (heq ▸ ha)
  have hin₁ : ∀ a ∈ l₁, a ∈ l₁ ++ e :: l₂ := fun a ha => List.mem_append_left _ ha
  have hin₂ : ∀ a ∈ l₂, a ∈ l₁ ++ e :: l₂ := fun a ha =>
    List.mem_append_right _ (List.mem_cons_of_mem _ ha)
  rw [herase]
  refine ⟨List.nodup_append.mpr ⟨hnodup₁, hnodup₂, fun a ha b hb => hdisj a ha b (List.mem_cons_of_mem _ hb)⟩,
    ?_, fun e' => ?_⟩
  · refine Linked.splice l₁ [e] [] l₂ (m := l₂.head?) h.linked hnodup₁ hnodup₂ ?_
      (fun a ha => hnext' a (hin₁ a ha) (hne₁ a ha)) (fun a ha => ?_) rfl (fun a ha => ?_)
      fun a ha => hprev' a (hin₂ a ha) (hne₂ a ha)
    · rw [freeList_unlinkFreeList, hp, hn]
      exact if_congr List.getLast?_eq_none_iff rfl rfl
    · rw [hprev' a (hin₁ a ha) (hne₁ a ha), if_neg]
      exact fun heq => hdisj a ha a (List.mem_cons_of_mem _ (List.mem_of_mem_head? heq)) rfl
    · rw [hnext' a (hin₂ a ha) (hne₂ a ha), if_neg]
      exact fun heq => hdisj a (List.mem_of_getLast? heq) a (List.mem_cons_of_mem _ ha) rfl
  · rw [← herase, h.nodup.mem_erase_iff, h.mem]
    unfold inFreeList
    rw [getElem?_unlinkFreeList]
    by_cases heq : e' = e
    · cases adb.book[e']? <;> simp only [heq, ne_eq, not_true_eq_false, false_and, Option.map_some,
        Option.map_none, if_true, Option.any_some, Option.any_none, Bool.false_eq_true]
    · cases adb.book[e']? <;> simp only [heq, ne_eq, not_false_eq_true, true_and, Option.map_some,
        Option.map_none, if_false, Option.any_some, Option.any_none]

end AddrBook

end Chvm.Virt
