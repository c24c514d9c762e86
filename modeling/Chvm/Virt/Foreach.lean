import Chvm.Lib.Walk
import Chvm.Virt.Progress

/-!
# Reading the book while it changes

`adb_get_fill` and `adb_foreach` read the length of the book once and then lock one table or one cell after
another, while other threads put and free. What they find is of no single moment. The consumer of
`adb_foreach` is called at most once for a vaddr, under its lock, and for every vaddr that is allocated from
the call to the return; `adb_get_fill` counts cells that were taken at some moment of the call, and every
cell that was taken at all of them.
-/

set_option autoImplicit false

namespace Chvm.Virt

open Chvm.Lib

/-- The index of the cell is not on the stack of its table. -/
def AddrBook.Taken (adb : AddrBook) (v : Vaddr) : Prop :=
  ∃ table, adb.table v.tableIndex = some table ∧ v.cellIndex < table.cap ∧ v.cellIndex ∉ table.stack

/-- A vaddr with its address, and with a lock that `adt_foreach` can take. -/
def AddrBook.Found (wr : Bool) (adb : AddrBook) (x : Vaddr × Nat) : Prop :=
  ∃ c, adb.entry x.1 = some c ∧ c.paddr = x.2 ∧ canLock wr c.lck = true

def AddrBook.Live (adb : AddrBook) (v : Vaddr) : Prop := (adb.entry v).isSome = true

/-- The tables before `i`, and the cells of table `i` before `ind`. -/
def Before (i ind : Nat) (v : Vaddr) : Prop := v.tableIndex < i ∨ v.tableIndex = i ∧ v.cellIndex < ind

theorem lt_of_table {adb : AddrBook} {e : Nat} {table : AddrTable} (htable : adb.table e = some table) :
    e < adb.book.length := by
  obtain ⟨entry, hentry, -⟩ := Option.map_eq_some_iff.mp htable
  exact (List.getElem?_eq_some_iff.mp hentry).1

theorem AddrBook.Taken.lt {adb : AddrBook} {v : Vaddr} (h : adb.Taken v) :
    v.tableIndex < adb.book.length := by
  obtain ⟨table, htable, -⟩ := h
  exact lt_of_table htable

theorem AddrBook.Live.lt {adb : AddrBook} {v : Vaddr} (h : adb.Live v) : v.tableIndex < adb.book.length := by
  obtain ⟨c, hentry⟩ := Option.isSome_iff_exists.mp h
  obtain ⟨table, htable, -⟩ := AddrBook.table_of_cell (AddrBook.entry_eq_some.mp hentry).1
  exact lt_of_table htable

/-- What a consumer has made of the cells before this one. -/
def Covers (times : List AddrBook) (i ind : Nat) : AdtConsumer → Prop
  | .fill sum => ∃ us : List Vaddr, us.length = sum ∧ Walk id AddrBook.Taken AddrBook.Taken
      (Before i 0) times us
  | .cells wr seen => Walk Prod.fst AddrBook.Live (AddrBook.Found wr) (Before i ind) times seen

/-- Where a thread is with `adb_get_fill` or `adb_foreach`, the book having been these ones before its
sections and those of the others. -/
def WalkAt (call : AdbCall) (times : List AddrBook) : AdbThread → Prop
  | .foreach c => .foreach c = call.start
  | .nextTable c i len => AdbThread.consumerCall c = call ∧ (∃ adb ∈ times, adb.book.length = len) ∧
      Covers times i 0 c
  | .onTable c i len ind => AdbThread.consumerCall c = call ∧ (∃ adb ∈ times, adb.book.length = len) ∧
      Covers times i ind c
  | .idle (some res) => ∃ c i len, c.res = res ∧ len ≤ i ∧ AdbThread.consumerCall c = call ∧
      (∃ adb ∈ times, adb.book.length = len) ∧ Covers times i 0 c
  | _ => False

variable {s s' : AdbState} {adb : AddrBook} {mem : Mem} {t : Tid} {a : AdbAct} {call : AdbCall}
  {times : List AddrBook} {th : AdbThread} {con : AdtConsumer} {i ind len : Nat} {v : Vaddr}

theorem covers_later (h : Covers times i ind con) (adb : AddrBook) : Covers (times ++ [adb]) i ind con := by
  cases con with
  | fill sum =>
    obtain ⟨us, hlen, hwalk⟩ := h
    exact ⟨us, hlen, hwalk.later adb⟩
  | cells wr seen => exact Walk.later h adb

theorem mem_later {len : Nat} (h : ∃ adb ∈ times, adb.book.length = len) (adb : AddrBook) :
    ∃ adb' ∈ times ++ [adb], adb'.book.length = len := by
  obtain ⟨adb', hmem, hlen⟩ := h
  exact ⟨adb', List.mem_append_left _ hmem, hlen⟩

theorem walkAt_later (h : WalkAt call times th) (adb : AddrBook) : WalkAt call (times ++ [adb]) th := by
  cases th with
  | foreach c => exact h
  | nextTable | onTable =>
    obtain ⟨hcall, hlen, hcovers⟩ := h
    exact ⟨hcall, mem_later hlen adb, covers_later hcovers adb⟩
  | idle res =>
    cases res with
    | none => exact h
    | some res =>
      obtain ⟨c, i, len, hres, hle, hcall, hlen, hcovers⟩ := h
      exact ⟨c, i, len, hres, hle, hcall, mem_later hlen adb, covers_later hcovers adb⟩
  | _ => exact h

/-! ## A table and a cell -/

/-- The indices that are not on the stack of a table. -/
def AddrTable.taken (adt : AddrTable) : List Nat := (List.range adt.cap).filter fun i => i ∉ adt.stack

theorem length_taken {popped cleared : List Nat} {adt : AddrTable} (h : adt.Accounted popped cleared) :
    adt.taken.length = adt.adtGetFill := by
  have hnodup : (adt.stack ++ popped ++ adt.allocated ++ cleared).Nodup :=
    h.perm.nodup_iff.mpr List.nodup_range
  have hstack : adt.stack.Nodup := by
    rw [List.append_assoc, List.append_assoc] at hnodup
    exact hnodup.of_append_left
  have hsub : ∀ i ∈ adt.stack, i ∈ List.range adt.cap := fun i hi =>
    h.perm.subset (List.mem_append_left _ (List.mem_append_left _ (List.mem_append_left _ hi)))
  have hperm : ((List.range adt.cap).filter fun i => i ∈ adt.stack).Perm adt.stack := by
    refine (List.perm_ext_iff_of_nodup (List.nodup_range.filter _) hstack).mpr fun i => ?_
    rw [List.mem_filter, decide_eq_true_iff]
    exact ⟨fun hi => hi.2, fun hi => ⟨hsub i hi, hi⟩⟩
  have hlen := List.length_eq_length_filter_add (l := List.range adt.cap) fun i => decide (i ∈ adt.stack)
  rw [hperm.length_eq, List.length_range, AddrTable.stack_length h] at hlen
  have htaken : adt.taken = (List.range adt.cap).filter fun i => !decide (i ∈ adt.stack) := by
    unfold AddrTable.taken
    refine List.filter_congr fun i _ => ?_
    rw [decide_not]
  rw [htaken, AddrTable.adtGetFill]
  omega

/-- `adb_get_fill` on a table. -/
theorem covers_table {sum : Nat} {table : AddrTable} {popped cleared : List Nat}
    (h : Covers times i 0 (.fill sum)) (htable : adb.table i = some table)
    (hacc : table.Accounted popped cleared) :
    Covers (times ++ [adb]) (i + 1) 0 (.fill (sum + table.adtGetFill)) := by
  obtain ⟨us, hlen, hwalk⟩ := h
  have hmem : ∀ v, v ∈ table.taken.map (Vaddr.mk i) ↔ v.tableIndex = i ∧ adb.Taken v := by
    rintro ⟨e, j⟩
    have hj : j ∈ table.taken ↔ j < table.cap ∧ j ∉ table.stack := by
      rw [AddrTable.taken, List.mem_filter, List.mem_range, decide_eq_true_iff]
    constructor
    · intro hv
      obtain ⟨k, hk, heq⟩ := List.mem_map.mp hv
      cases heq
      exact ⟨rfl, table, htable, hj.mp hk⟩
    · rintro ⟨rfl, table', htable', hk⟩
      cases htable.symm.trans htable'
      exact List.mem_map_of_mem (hj.mpr hk)
  have hnodup : (table.taken.map (Vaddr.mk i)).Nodup := by
    refine (List.nodup_range.filter _).map fun j k heq => ?_
    cases heq
    rfl
  have hregion : ∀ v, Before (i + 1) 0 v ↔ Before i 0 v ∨ v.tableIndex = i := by
    rintro ⟨e, j⟩
    show e < i + 1 ∨ e = i + 1 ∧ j < 0 ↔ (e < i ∨ e = i ∧ j < 0) ∨ e = i
    omega
  have hdisjoint : ∀ v, Before i 0 v → v.tableIndex ≠ i := by
    rintro v (hlt | ⟨-, hlt⟩)
    · exact Nat.ne_of_lt hlt
    · exact absurd hlt (Nat.not_lt_zero _)
  refine ⟨us ++ table.taken.map (Vaddr.mk i), ?_, hwalk.visit (fun v => v.tableIndex = i) hregion hdisjoint
    ?_ ?_ ?_ ?_⟩
  · rw [List.length_append, List.length_map, length_taken hacc, hlen]
  · rw [List.map_id]
    exact hnodup
  · exact fun v hv => ((hmem v).mp hv).1
  · exact fun v hv => ((hmem v).mp hv).2
  · intro v hv htaken
    rw [List.map_id]
    exact (hmem v).mpr ⟨hv, htaken⟩

/-- `adb_foreach` on a cell. -/
theorem covers_cell {wr : Bool} {seen : List (Vaddr × Nat)} {c : AddrTableCell}
    (h : Covers times i ind (.cells wr seen)) (hcell : adb.cell ⟨i, ind⟩ = some c)
    (hlck : canLock wr c.lck = true) : Covers (times ++ [adb]) i (ind + 1)
      (.cells wr (if c.allocated then seen ++ [(⟨i, ind⟩, c.paddr)] else seen)) := by
  have hpart : ∀ v : Vaddr, Before i (ind + 1) v ↔ Before i ind v ∨ v = ⟨i, ind⟩ := by
    rintro ⟨e, j⟩
    rw [Vaddr.mk.injEq]
    show e < i ∨ e = i ∧ j < ind + 1 ↔ (e < i ∨ e = i ∧ j < ind) ∨ e = i ∧ j = ind
    omega
  have hdisjoint : ∀ v : Vaddr, Before i ind v → v ≠ ⟨i, ind⟩ := by
    rintro ⟨e, j⟩ (hlt | ⟨-, hlt⟩) heq <;> cases heq
    · exact absurd hlt (Nat.lt_irrefl _)
    · exact absurd hlt (Nat.lt_irrefl _)
  cases hallocated : c.allocated with
  | true =>
    have hentry : adb.entry ⟨i, ind⟩ = some c := AddrBook.entry_eq_some.mpr ⟨hcell, hallocated⟩
    refine Walk.visit h (fun v => v = ⟨i, ind⟩) hpart hdisjoint (List.nodup_singleton _) ?_ ?_ ?_
    · intro x hx
      rw [List.mem_singleton.mp hx]
    · intro x hx
      rw [List.mem_singleton.mp hx]
      exact ⟨c, hentry, rfl, hlck⟩
    · rintro v rfl -
      exact List.mem_singleton_self _
  | false =>
    have hentry : adb.entry ⟨i, ind⟩ = none := by
      unfold AddrBook.entry
      rw [hcell, Option.filter_some, hallocated]
      rfl
    refine Walk.skip h (fun v => v = ⟨i, ind⟩) hpart ?_
    rintro v rfl hlive
    rw [AddrBook.Live, hentry] at hlive
    cases hlive

/-- `adb_foreach` past the last cell of a table. -/
theorem covers_end {wr : Bool} {seen : List (Vaddr × Nat)} (h : Covers times i ind (.cells wr seen))
    (hend : ∀ j, ind ≤ j → adb.cell ⟨i, j⟩ = none) : Covers (times ++ [adb]) (i + 1) 0 (.cells wr seen) := by
  have hpart : ∀ v : Vaddr, Before (i + 1) 0 v ↔ Before i ind v ∨ v.tableIndex = i ∧ ind ≤ v.cellIndex := by
    rintro ⟨e, j⟩
    show e < i + 1 ∨ e = i + 1 ∧ j < 0 ↔ (e < i ∨ e = i ∧ j < ind) ∨ e = i ∧ ind ≤ j
    omega
  refine Walk.skip h _ hpart ?_
  rintro ⟨e, j⟩ ⟨rfl, hj⟩ hlive
  have hnone : adb.entry ⟨e, j⟩ = none := by
    unfold AddrBook.entry
    rw [hend j hj]
    rfl
  rw [AddrBook.Live, hnone] at hlive
  cases hlive

/-! ## The sections -/

theorem walkAt_go (hinv : s.Inv) (hth : s.threads[t]? = some th) (h : WalkAt call times th)
    (hgo : adbGo s t th = some s') : ∃ th', s'.threads[t]? = some th' ∧ WalkAt call
      (times ++ [s.adb]) th' := by
  have hlt : t < s.threads.length := (List.getElem?_eq_some_iff.mp hth).1
  have hgoto : ∀ th', WalkAt call (times ++ [s.adb]) th' →
      ∃ th'', (s.goto t th').threads[t]? = some th'' ∧ WalkAt call (times ++ [s.adb]) th'' :=
    fun th' hth' => ⟨th', List.getElem?_set_self hlt, hth'⟩
  cases th with
  | foreach c =>
    cases hgo
    have hempty : ∀ v, ¬ Before 0 0 v := by
      rintro v (hlt | ⟨-, hlt⟩) <;> exact absurd hlt (Nat.not_lt_zero _)
    have hlen : ∃ adb ∈ times ++ [s.adb], adb.book.length = s.adb.book.length :=
      ⟨s.adb, List.mem_append_right _ (List.mem_singleton_self _), rfl⟩
    cases call with
    | getFill =>
      cases h
      exact hgoto _ ⟨rfl, hlen, [], rfl, walk_start hempty⟩
    | foreach wr =>
      cases h
      exact hgoto _ ⟨rfl, hlen, walk_start hempty⟩
    | _ => cases h
  | nextTable c i len =>
    obtain ⟨hcall, hlen, hcovers⟩ := h
    cases hgo
    split
    · exact hgoto _ ⟨hcall, mem_later hlen s.adb, covers_later hcovers s.adb⟩
    next hge =>
      exact hgoto _ ⟨c, i, len, rfl, Nat.le_of_not_lt hge, hcall, mem_later hlen s.adb,
        covers_later hcovers s.adb⟩
  | onTable c i len ind =>
    obtain ⟨hcall, hlen, hcovers⟩ := h
    obtain ⟨th', hsection, rfl⟩ := Option.map_eq_some_iff.mp hgo
    refine hgoto th' ?_
    unfold tableSection at hsection
    split at hsection
    · cases hsection
    next table htable =>
      have hacc := (hinv.coherent.tabled i table htable).accounted
      have hcell : ∀ j, s.adb.cell ⟨i, j⟩ = table.cells[j]? := by
        intro j
        unfold AddrBook.cell
        rw [htable]
        rfl
      cases c with
      | fill sum =>
        cases hsection
        exact ⟨hcall, mem_later hlen s.adb, covers_table hcovers htable hacc⟩
      | cells wr seen =>
        simp only at hsection
        split at hsection
        · split at hsection
          · cases hsection
          next c hget =>
            split at hsection
            next hlck =>
              cases hsection
              exact ⟨hcall, mem_later hlen s.adb, covers_cell hcovers ((hcell ind).trans hget) hlck⟩
            next => cases hsection
        next hge =>
          cases hsection
          refine ⟨hcall, mem_later hlen s.adb, covers_end hcovers fun j hj => ?_⟩
          rw [hcell, List.getElem?_eq_none_iff, hacc.arrays.2]
          omega
  | idle => cases hgo
  | _ => cases h

/-- **Step lemma.** A step of any thread that makes no new call of this one. -/
theorem walkAt_step (hinv : s.Inv) (hth : s.threads[t]? = some th) (h : WalkAt call times th)
    (hst : adbStep s a = some s') (hcall : ∀ c, a ≠ .call t c) :
    ∃ th', s'.threads[t]? = some th' ∧ WalkAt call (times ++ [s.adb]) th' := by
  by_cases hne : a.tid = t
  · cases a with
    | call u c => exact absurd (congrArg (AdbAct.call · c) hne) (hcall c)
    | go u =>
      cases hne
      obtain ⟨th', hth', hgo⟩ := Option.bind_eq_some_iff.mp hst
      cases hth.symm.trans hth'
      exact walkAt_go hinv hth h hgo
  · exact ⟨th, (thread_of_ne hst hne).trans hth, walkAt_later h s.adb⟩

/-- **Run lemma.** -/
theorem walkAt_steps {tr : List (AdbState × AdbAct)} (hinv : s.Inv) (hth : s.threads[t]? = some th)
    (h : WalkAt call [] th) (hrun : Steps adbStep (fun _ _ => True) s tr s')
      (hcalls : ∀ e ∈ tr, ∀ c, e.2 ≠ .call t c) :
    s'.Inv ∧ ∃ th', s'.threads[t]? = some th' ∧ WalkAt call (tr.map fun e => e.1.adb) th' := by
  induction hrun with
  | nil => exact ⟨hinv, th, hth, h⟩
  | @snoc tr m m' a _ _ hst ih =>
    obtain ⟨hm, th', hth', hwalk⟩ := ih fun e he => hcalls e (List.mem_append_left _ he)
    refine ⟨(adbStep_simulated hm hst).1, ?_⟩
    rw [List.map_append, List.map_singleton]
    exact walkAt_step hm hth' hwalk hst (hcalls _ (List.mem_append_right _ (List.mem_singleton_self _)))

/-- A vaddr of all the books of a walk is in a table that the walk has come to. -/
theorem lt_of_walk (h : ∀ adb ∈ times, v.tableIndex < adb.book.length)
    (hlen : ∃ adb ∈ times, adb.book.length = len) (hle : len ≤ i) : v.tableIndex < i := by
  obtain ⟨adb, hadb, rfl⟩ := hlen
  exact Nat.lt_of_lt_of_le (h adb hadb) hle

/-- A vaddr is allocated, or a put or a free has its index. -/
def AdbState.Used (s : AdbState) (v : Vaddr) : Prop :=
  s.adb.Live v ∨ ∃ th, .book th ∈ s.threads ∧ (th.popped = some v ∨ th.cleared = some v)

theorem mem_held_book {f : BookThread → Option Vaddr} (hidle : f (.idle none) = none) :
    v ∈ held f s.book.threads ↔ ∃ th, .book th ∈ s.threads ∧ f th = some v := by
  rw [mem_held]
  constructor
  · rintro ⟨th, hth, hv⟩
    obtain ⟨th', hmem, rfl⟩ := List.mem_map.mp hth
    cases th' with
    | book old => exact ⟨old, hmem, hv⟩
    | _ => cases hidle.symm.trans hv
  · rintro ⟨th, hmem, hv⟩
    exact ⟨th, List.mem_map.mpr ⟨.book th, hmem, rfl⟩, hv⟩

/-- The indices that are on no stack. -/
theorem AdbState.Inv.taken_iff (h : s.Inv) (v : Vaddr) : s.adb.Taken v ↔ s.Used v := by
  have hpopped : v ∈ held BookThread.popped s.book.threads ↔ _ := mem_held_book rfl
  have hcleared : v ∈ held BookThread.cleared s.book.threads ↔ _ := mem_held_book rfl
  have hused : s.Used v ↔ s.adb.Live v ∨ v ∈ held BookThread.popped s.book.threads ∨
      v ∈ held BookThread.cleared s.book.threads := by
    rw [hpopped, hcleared]
    constructor
    · rintro (hlive | ⟨th, hmem, hv | hv⟩)
      · exact .inl hlive
      · exact .inr (.inl ⟨th, hmem, hv⟩)
      · exact .inr (.inr ⟨th, hmem, hv⟩)
    · rintro (hlive | ⟨th, hmem, hv⟩ | ⟨th, hmem, hv⟩)
      · exact .inl hlive
      · exact .inr ⟨th, hmem, .inl hv⟩
      · exact .inr ⟨th, hmem, .inr hv⟩
  rw [hused]
  cases htable : s.adb.table v.tableIndex with
  | none =>
    have hge : ¬ v.tableIndex < s.adb.book.length := fun hlt => by
      obtain ⟨table, htable'⟩ := AddrBook.exists_table hlt
      cases htable.symm.trans htable'
    refine ⟨fun htaken => absurd htaken.lt hge, ?_⟩
    rintro (hlive | hmem)
    · exact absurd hlive.lt hge
    · exact absurd (h.coherent.known v hmem) hge
  | some table =>
    have hacc := (h.coherent.tabled _ table htable).accounted
    have hlive : s.adb.Live v ↔ table.isAllocated v.cellIndex = true := by
      unfold AddrBook.Live AddrBook.entry AddrBook.cell AddrTable.isAllocated
      rw [htable, Option.bind_some]
      cases table.cells[v.cellIndex]? with
      | none => exact Iff.rfl
      | some c =>
        rw [Option.filter_some, Option.any_some]
        cases c.allocated <;> simp
    have htaken : s.adb.Taken v ↔ v.cellIndex < table.cap ∧ v.cellIndex ∉ table.stack := by
      constructor
      · rintro ⟨table', htable', htaken⟩
        cases htable.symm.trans htable'
        exact htaken
      · exact fun htaken => ⟨table, htable, htaken⟩
    -- each index is in one place
    have hcount := hacc.count v.cellIndex
    rw [AddrBook.count_cellsOf, AddrBook.count_cellsOf, AddrTable.count_allocated] at hcount
    have hv : (⟨v.tableIndex, v.cellIndex⟩ : Vaddr) = v := rfl
    rw [hv] at hcount
    rw [htaken, hlive]
    simp only [← List.count_pos_iff]
    by_cases hlt : v.cellIndex < table.cap
    · rw [if_pos hlt] at hcount
      by_cases hallocated : table.isAllocated v.cellIndex = true
      · rw [if_pos ⟨hallocated, hlt⟩] at hcount
        exact ⟨fun _ => .inl hallocated, fun _ => ⟨hlt, by omega⟩⟩
      · rw [if_neg fun hand => hallocated hand.1] at hcount
        constructor
        · rintro ⟨-, hnot⟩
          exact .inr (by omega)
        · rintro (htrue | hpos)
          · exact absurd htrue hallocated
          · exact ⟨hlt, by omega⟩
    · rw [if_neg hlt] at hcount
      refine ⟨fun hand => absurd hand.1 hlt, ?_⟩
      rintro (hallocated | hpos)
      · have hlen := AddrTable.lt_of_isAllocated hallocated
        rw [hacc.arrays.2] at hlen
        exact absurd hlen hlt
      · omega

/-- **What a walk finds.** A thread calls `adb_foreach` or `adb_get_fill`, and others take any sections until
it returns. The consumer of `adb_foreach` was called at most once for a vaddr; with the address that the
vaddr had at that moment, under its lock; and for every vaddr that was allocated all the while.
`adb_get_fill` returns the number of some vaddrs, each of which was in use at some moment, and among which are
all that were in use all the while. -/
theorem walk_finds {tableCap n : Nat} (hnew : newAddrBook tableCap = some adb)
    (h : Reaches adbStep (fun _ _ => True) (.new adb mem n) s) {tr : List (AdbState × AdbAct)}
    (hrun : Steps adbStep (fun _ _ => True) s tr s') (hcalls : ∀ e ∈ tr, ∀ c, e.2 ≠ .call t c) :
    (∀ wr seen, s.threads[t]? = some (AdbCall.foreach wr).start →
      s'.threads[t]? = some (.idle (some (.seen seen))) →
      (seen.map Prod.fst).Nodup ∧
      (∀ v paddr, (v, paddr) ∈ seen → ∃ e ∈ tr, ∃ c, e.1.adb.entry v = some c ∧ c.paddr = paddr ∧
        canLock wr c.lck = true) ∧
      ∀ v, (∀ e ∈ tr, (e.1.adb.entry v).isSome = true) → v ∈ seen.map Prod.fst) ∧
    ∀ fill, s.threads[t]? = some AdbCall.getFill.start → s'.threads[t]? = some (.idle (some (.fill fill))) →
      ∃ us : List Vaddr, us.Nodup ∧ us.length = fill ∧ (∀ v ∈ us, ∃ e ∈ tr, e.1.Used v) ∧
        ∀ v, (∀ e ∈ tr, e.1.Used v) → v ∈ us := by
  have hinv := (sound_reach hnew h).1
  have htaken : ∀ e ∈ tr, ∀ v, e.1.adb.Taken v ↔ e.1.Used v := fun e he =>
    (sound_reach hnew (h.trans (hrun.reaches_of_mem he))).1.taken_iff
  refine ⟨fun wr seen hstart hend => ?_, fun fill hstart hend => ?_⟩
  · have hwalk₀ : WalkAt (.foreach wr) [] (AdbCall.foreach wr).start := rfl
    obtain ⟨-, th, hth, hwalk⟩ := walkAt_steps hinv hstart hwalk₀ hrun hcalls
    cases hend.symm.trans hth
    obtain ⟨c, i, len, hres, hle, hcall, hlen, hcovers⟩ := hwalk
    cases c with
    | fill => cases hres
    | cells wr' seen' =>
      cases hres
      cases hcall
      have hcovers' : Walk Prod.fst AddrBook.Live (AddrBook.Found wr) (Before i 0) _ seen := hcovers
      refine ⟨hcovers'.nodup, fun v paddr hv => ?_, fun v hv => ?_⟩
      · obtain ⟨adb', hadb, c, hentry, hpaddr, hlck⟩ := hcovers'.sound _ hv
        obtain ⟨e, he, rfl⟩ := List.mem_map.mp hadb
        exact ⟨e, he, c, hentry, hpaddr, hlck⟩
      · have hlive : ∀ adb' ∈ tr.map fun e => e.1.adb, adb'.Live v := fun adb' hadb => by
          obtain ⟨e, he, rfl⟩ := List.mem_map.mp hadb
          exact hv e he
        exact hcovers'.complete v (.inl (lt_of_walk (fun adb' hadb => (hlive adb' hadb).lt) hlen hle)) hlive
  · have hwalk₀ : WalkAt .getFill [] AdbCall.getFill.start := rfl
    obtain ⟨-, th, hth, hwalk⟩ := walkAt_steps hinv hstart hwalk₀ hrun hcalls
    cases hend.symm.trans hth
    obtain ⟨c, i, len, hres, hle, -, hlen, hcovers⟩ := hwalk
    cases c with
    | cells => cases hres
    | fill sum =>
      cases hres
      obtain ⟨us, hus, hcovers'⟩ := hcovers
      have hnodup := hcovers'.nodup
      rw [List.map_id] at hnodup
      refine ⟨us, hnodup, hus, fun v hv => ?_, fun v hv => ?_⟩
      · obtain ⟨adb', hadb, hv'⟩ := hcovers'.sound v hv
        obtain ⟨e, he, rfl⟩ := List.mem_map.mp hadb
        exact ⟨e, he, (htaken e he v).mp hv'⟩
      · have hall : ∀ adb' ∈ tr.map fun e => e.1.adb, adb'.Taken v := fun adb' hadb => by
          obtain ⟨e, he, rfl⟩ := List.mem_map.mp hadb
          exact (htaken e he v).mpr (hv e he)
        have hmem := hcovers'.complete v
          (.inl (lt_of_walk (fun adb' hadb => (hall adb' hadb).lt) hlen hle)) hall
        rw [List.map_id] at hmem
        exact hmem

/-- A vaddr is put while another thread goes through the book. -/
theorem walk_finds_crossed : ∃ s s' : AdbState, s'.threads[1]? = some
    (.idle (some (.seen [(⟨0, 0⟩, 16), (⟨0, 1⟩, 8)]))) ∧
    s.adb.entry ⟨0, 0⟩ = none ∧ [(⟨0, 0⟩ : Vaddr), ⟨0, 1⟩].Nodup := by
  obtain ⟨adb, s, s', hnew, hrun, hrun', hstart, hend, hnone⟩ : ∃ adb s s', newAddrBook 2 = some adb ∧
      exec adbStep (fun _ _ => true) (.new adb ⟨fun _ => 0⟩ 2)
        [.call 0 (.put 8 false), .go 0, .go 0, .go 0, .go 0, .go 0, .call 1 (.foreach false)] = some s ∧
      exec adbStep (fun _ _ => true) s [.go 1, .call 0 (.put 16 false), .go 1, .go 0, .go 0, .go 0, .go 0,
        .go 1, .go 1,
        .go 1, .go 1] = some s' ∧
      s.threads[1]? = some (AdbCall.foreach false).start ∧
      s'.threads[1]? = some (.idle (some (.seen [(⟨0, 0⟩, 16), (⟨0, 1⟩, 8)]))) ∧ s.adb.entry ⟨0, 0⟩ = none :=
    ⟨_, _, _, rfl, rfl, rfl, rfl, rfl, rfl⟩
  obtain ⟨tr, hacts, hsteps⟩ := steps_of_exec (fun _ _ _ => trivial) _ hrun'
  have hcalls : ∀ e ∈ tr, ∀ c, e.2 ≠ .call 1 c := by
    intro e he c heq
    have hmem : e.2 ∈ tr.map Prod.snd := List.mem_map_of_mem he
    rw [hacts, heq] at hmem
    simp at hmem
  obtain ⟨hseen, -⟩ := walk_finds hnew (reaches_of_exec (fun _ _ _ => trivial) _ hrun) hsteps hcalls
  exact ⟨s, s', hend, hnone, (hseen false _ hstart hend).1⟩

end Chvm.Virt
