import Chvm.Lib.Linear
import Chvm.Virt.Sections

/-!
# The address book under any number of threads

The book is an object: a map from the vaddrs to a lock and a physical address, and the bytes that the moves
copy. However the sections of the calls come, every put, every call on a cell and every free has one effect
on that map, at one moment between its call and its return, and returns what the effect gives.
-/

set_option autoImplicit false

namespace Chvm.Virt

open Chvm.Lib

/-! ## The object -/

/-- What the book is for: the lock and the physical address of each vaddr, and the bytes. -/
structure CellMap where
  cells : Vaddr → Option (RwLock × Nat)
  mem : Mem

def CellMap.set (m : CellMap) (v : Vaddr) (x : Option (RwLock × Nat)) : CellMap :=
  { m with cells := Function.update m.cells v x }

/-- The bytes after a move, with the vaddr in front of them when `init` is set. -/
def movedMem (mem : Mem) (v : Vaddr) (paddr newPaddr size : Nat) (init : Bool) : Mem :=
  if init then
    ((mem.move newPaddr paddr size).store64 (newPaddr - 16) v.tableIndex).store64 (newPaddr - 8) v.cellIndex
  else mem.move newPaddr paddr size

/-- A call on a vaddr with this lock and address. -/
def cellEffect (m : CellMap) (t : Tid) (v : Vaddr) (lck : RwLock) (paddr : Nat) :
    CellCall → AdbRes → Option CellMap
  | .getRead _, .paddr (some p) =>
    if lck.canRead && p = paddr then some (m.set v (some (lck.acqRead t, paddr))) else none
  | .getRead false, .paddr none => if lck.canRead then none else some m
  | .getWrite _, .paddr (some p) =>
    if lck.isFree && p = paddr then some (m.set v (some (lck.acqWrite t, paddr))) else none
  | .getWrite false, .paddr none => if lck.isFree then none else some m
  | .unlock, .unit => if lck.holds t then some (m.set v (some (lck.release t, paddr))) else none
  | .allocated, .flag true => if lck.canRead then some m else none
  | .move lk newPaddr size init, .unit =>
    if lk && !lck.isFree then none
    else some { m.set v (some (lck, newPaddr)) with mem := movedMem m.mem v paddr newPaddr size init }
  | .free, .unit => if lck.isFree then some (m.set v none) else none
  | _, _ => none

/-- A call done at once. What `adb_get_fill` and `adb_foreach` find is of no single moment, and is not said
here. -/
def bookEffect : Linear.Object CellMap AdbCall AdbRes := fun m t call res =>
  match call, res with
  | .put paddr hold, .vaddr v =>
    if (m.cells v).isNone then some (m.set v (some (if hold then RwLock.acqWrite {} t else {}, paddr)))
    else none
  | .cell v call, res =>
    match m.cells v with
    | none => if call = .allocated && res = .flag false then some m else none
    | some (lck, paddr) => cellEffect m t v lck paddr call res
  | .getFill, .fill _ | .foreach _, .seen _ => some m
  | _, _ => none

/-- The map in a book. -/
def AddrBook.view (adb : AddrBook) (mem : Mem) : CellMap :=
  ⟨fun v => (adb.entry v).map fun c => (c.lck, c.paddr), mem⟩

namespace AdbThread

def bookStage : BookThread → Linear.Stage AdbCall AdbRes
  | .idle _ => .idle none
  | .seek paddr hold | .expand paddr hold | .pop _ paddr hold | .write _ _ _ paddr hold =>
    .called (.put paddr hold)
  | .removal e index => .done (.vaddr ⟨e, index⟩)
  | .push .. | .addition _ => .done .unit

/-- The call of a consumer. -/
def consumerCall : AdtConsumer → AdbCall
  | .fill _ => .getFill
  | .cells wr _ => .foreach wr

/-- How far a thread is with its call: a put has its effect when it writes the cell, a free when it clears
it. -/
def stage : AdbThread → Linear.Stage AdbCall AdbRes
  | .idle res => .idle res
  | .book th => bookStage th
  | .lookup v call | .cell v call => .called (.cell v call)
  | .foreach c | .nextTable c .. | .onTable c .. => .called (consumerCall c)

end AdbThread

/-- The calls of the threads on the map. -/
def AdbState.calls (s : AdbState) : Linear.Calls CellMap AdbCall AdbRes :=
  ⟨s.adb.view s.mem, s.threads.map AdbThread.stage⟩

/-- What the sections show of the calls: a section of a thread is the effect or the return of its call, both
or neither. -/
def isPart : AdbAct → List (Linear.Act AdbCall AdbRes) → Prop
  | .call t c, acts => acts = [.call t c]
  | .go t, acts => acts = [] ∨ ∃ c r, acts = [.effect t c r] ∨ acts = [.ret t r] ∨
      acts = [.effect t c r, .ret t r]

/-! ## Between two sections -/

/-- The book with what the threads owe it, in which a cell that is not allocated is not locked. -/
structure AdbState.Inv (s : AdbState) : Prop where
  coherent : s.book.Coherent
  unlocked : ∀ v c, s.adb.cell v = some c → c.allocated = false → c.lck.isFree = true

variable {s s' : AdbState} {adb adb' : AddrBook} {mem mem' : Mem} {t : Tid} {v w : Vaddr}
  {c c' : AddrTableCell}
  {th th' : AdbThread}

theorem book_move : (s.move t adb mem th).book = s.book.move t adb th.toBook :=
  congrArg (BookState.mk adb) List.map_set

theorem calls_move : (s.move t adb mem th).calls = ⟨adb.view mem, s.calls.threads.set t th.stage⟩ :=
  congrArg (Linear.Calls.mk (adb.view mem)) List.map_set

theorem book_thread (hth : s.threads[t]? = some th) : s.book.threads[t]? = some th.toBook := by
  show (s.threads.map AdbThread.toBook)[t]? = _
  rw [List.getElem?_map, hth, Option.map_some]

theorem stage_thread (hth : s.threads[t]? = some th) : s.calls.threads[t]? = some th.stage := by
  show (s.threads.map AdbThread.stage)[t]? = _
  rw [List.getElem?_map, hth, Option.map_some]

/-- A thread that has returned owes nothing, whatever it returned. -/
theorem coherent_ofBook {b : BookState} {new : BookThread} (hlt : t < b.threads.length)
    (h : (b.move t adb new).Coherent) : (b.move t adb (AdbThread.ofBook new).toBook).Coherent := by
  have hset : ∀ th : BookThread, (b.move t adb new).move t adb th = b.move t adb th := fun th =>
    congrArg (BookState.mk adb) (List.set_set _)
  cases new with
  | idle res =>
    have hmove : ((b.move t adb (.idle res)).move t adb (.idle none)).Coherent :=
      h.move (List.getElem?_set_self hlt) nofun nofun rfl rfl
    rw [hset] at hmove
    cases res <;> exact hmove
  | _ => exact h

/-- A cell that is not allocated in the new book is not locked, when each cell of it was there or is not
locked. -/
theorem AdbState.Inv.unlocked_of (h : s.Inv)
    (hcells : ∀ w d, adb.cell w = some d → s.adb.cell w = some d ∨
      (d.allocated = false → d.lck.isFree = true)) :
    ∀ w d, adb.cell w = some d → d.allocated = false → d.lck.isFree = true := by
  intro w d hd hallocated
  rcases hcells w d hd with hold | hnew
  · exact h.unlocked w d hold hallocated
  · exact hnew hallocated

theorem view_of_cell (h : ∀ w, adb'.cell w = adb.cell w) (mem : Mem) : adb'.view mem = adb.view mem := by
  unfold AddrBook.view AddrBook.entry
  simp only [h]

/-- An allocated cell is assigned. -/
theorem view_assign (hallocated : c'.allocated = true)
    (h : ∀ w, adb'.cell w = if w = v then some c' else adb.cell w) (mem : Mem) :
    adb'.view mem = (adb.view mem).set v (some (c'.lck, c'.paddr)) := by
  unfold AddrBook.view CellMap.set
  congr 1
  funext w
  rw [AddrBook.entry_of_cell c' h, hallocated]
  split
  next heq => rw [heq, Function.update_self]; rfl
  next hne => rw [Function.update_of_ne hne]

/-- A cell is cleared. -/
theorem view_clear (hallocated : c'.allocated = false)
    (h : ∀ w, adb'.cell w = if w = v then some c' else adb.cell w) (mem : Mem) :
    adb'.view mem = (adb.view mem).set v none := by
  unfold AddrBook.view CellMap.set
  congr 1
  funext w
  rw [AddrBook.entry_of_cell c' h, hallocated]
  split
  next heq => rw [heq, Function.update_self]; rfl
  next hne => rw [Function.update_of_ne hne]

/-- A section that the calls do not see. -/
theorem calls_same (hth : s.threads[t]? = some th) (hview : adb.view mem = s.adb.view s.mem)
    (hstage : th'.stage = th.stage) : (s.move t adb mem th').calls = s.calls := by
  obtain ⟨hlt, hget⟩ := List.getElem?_eq_some_iff.mp (stage_thread hth)
  rw [calls_move, hview, hstage, ← hget, List.set_getElem_self]
  rfl

/-- What a section of a thread shows. -/
def Simulated (s : AdbState) (t : Tid) (s' : AdbState) : Prop :=
  s'.Inv ∧ ∃ acts, isPart (.go t) acts ∧ Linear.Run bookEffect s.calls acts s'.calls

theorem simulated_quiet (h : (s.move t adb mem th').Inv) (hth : s.threads[t]? = some th)
    (hview : adb.view mem = s.adb.view s.mem) (hstage : th'.stage = th.stage) :
    Simulated s t (s.move t adb mem th') :=
  ⟨h, [], .inl rfl, calls_same hth hview hstage ▸ Linear.run_nil⟩

theorem simulated_ret {r : AdbRes} (h : (s.move t adb mem (.idle (some r))).Inv)
    (hth : s.threads[t]? = some th) (hview : adb.view mem = s.adb.view s.mem) (hstage : th.stage = .done r) :
    Simulated s t (s.move t adb mem (.idle (some r))) := by
  refine ⟨h, [.ret t r], .inr ⟨.getFill, r, .inr (.inl rfl)⟩, ?_⟩
  rw [calls_move, hview]
  exact Linear.run_ret (hstage ▸ stage_thread hth)

theorem simulated_effect {call : AdbCall} {r : AdbRes} (h : (s.move t adb mem th').Inv)
    (hth : s.threads[t]? = some th) (hstage : th.stage = .called call) (hstage' : th'.stage = .done r)
    (heffect : bookEffect (s.adb.view s.mem) t call r = some (adb.view mem)) :
    Simulated s t (s.move t adb mem th') := by
  refine ⟨h, [.effect t call r], .inr ⟨call, r, .inl rfl⟩, ?_⟩
  rw [calls_move, hstage']
  exact Linear.run_effect (hstage ▸ stage_thread hth) heffect

theorem simulated_effect_ret {call : AdbCall} {r : AdbRes} (h : (s.move t adb mem (.idle (some r))).Inv)
    (hth : s.threads[t]? = some th) (hstage : th.stage = .called call)
    (heffect : bookEffect (s.adb.view s.mem) t call r = some (adb.view mem)) :
    Simulated s t (s.move t adb mem (.idle (some r))) := by
  refine ⟨h, [.effect t call r, .ret t r], .inr ⟨call, r, .inr (.inr rfl)⟩, ?_⟩
  rw [calls_move]
  exact Linear.run_effect_ret (hstage ▸ stage_thread hth) heffect

/-! ## The sections of `adb_put_p` and `adb_free` -/

/-- The table of a section, with its cells as they were. -/
theorem cell_sameCells {e : Nat} {table table' : AddrTable} (htable : adb.table e = some table)
    (hcells : table'.cells = table.cells) (w : Vaddr) : (adb.setTable e table').cell w = adb.cell w := by
  rw [AddrBook.cell_setTable htable, hcells]
  split
  next heq =>
    unfold AddrBook.cell
    rw [heq, htable]
    rfl
  next => rfl

/-- The vaddr that a put has popped is not allocated, and nobody holds its lock. -/
theorem AdbState.Inv.popped_cell (h : s.Inv) {old : BookThread}
    (hth : s.threads[t]? = some (.book old)) (hpopped : old.popped = some v) :
    ∃ table c, s.adb.table v.tableIndex = some table ∧ table.cells[v.cellIndex]? = some c ∧
      c.allocated = false ∧ c.lck.isFree = true := by
  have hmem : v ∈ held BookThread.popped s.book.threads := mem_held_of_get (book_thread hth) hpopped
  have hlt := h.coherent.known v (.inl hmem)
  obtain ⟨table, htable⟩ := AddrBook.exists_table hlt
  have hacc := (h.coherent.tabled _ table htable).accounted
  have hindex : v.cellIndex ∈ AddrBook.cellsOf v.tableIndex (held BookThread.popped s.book.threads) := by
    rw [← List.count_pos_iff, AddrBook.count_cellsOf]
    exact List.count_pos_iff.mpr hmem
  obtain ⟨hcap, hfree⟩ := hacc.of_popped hindex
  have hlen : v.cellIndex < table.cells.length := hacc.arrays.2 ▸ hcap
  have hget := List.getElem?_eq_getElem hlen
  have hallocated : table.cells[v.cellIndex].allocated = false := by
    rw [AddrTable.isAllocated, hget, Option.any_some] at hfree
    exact hfree
  refine ⟨table, _, htable, hget, hallocated, h.unlocked v _ ?_ hallocated⟩
  unfold AddrBook.cell
  rw [show s.adb.table v.tableIndex = some table from htable]
  exact hget

/-- The book after a section of `adb_put_p` or `adb_free` is coherent. -/
theorem AdbState.Inv.coherent_go (h : s.Inv) {old new : BookThread} (hth : s.threads[t]? = some (.book old))
    (hgo : bookGo s.book t old = some (s.book.move t adb new)) :
    (s.move t adb mem (.ofBook new)).book.Coherent := by
  have hlt : t < s.book.threads.length := (List.getElem?_eq_some_iff.mp (book_thread hth)).1
  rw [book_move]
  exact coherent_ofBook hlt (h.coherent.go (book_thread hth) hgo)

/-- A section that leaves the cells alone. -/
theorem AdbState.Inv.go_cells (h : s.Inv) {old new : BookThread} (hth : s.threads[t]? = some (.book old))
    (hgo : bookGo s.book t old = some (s.book.move t adb new)) (hcells : ∀ w, adb.cell w = s.adb.cell w) :
    (s.move t adb s.mem (.ofBook new)).Inv :=
  ⟨h.coherent_go hth hgo, h.unlocked_of fun w _ hd => .inl (hcells w ▸ hd)⟩

theorem bookGo_simulated {b : BookState} (h : s.Inv) {old : BookThread}
    (hth : s.threads[t]? = some (.book old)) (hgo : bookGo s.book t old = some b) :
    ∃ new, b = s.book.move t b.adb new ∧ Simulated s t (s.move t b.adb s.mem (.ofBook new)) := by
  have hgo₀ := hgo
  cases old with
  | idle => cases hgo
  | seek paddr hold =>
    simp only [bookGo] at hgo
    split at hgo <;> cases hgo <;>
      exact ⟨_, rfl, simulated_quiet (h.go_cells hth hgo₀ fun _ => rfl) hth rfl rfl⟩
  | expand paddr hold =>
    obtain ⟨adb', hexpand, rfl⟩ := Option.map_eq_some_iff.mp hgo
    refine ⟨_, rfl, ?_⟩
    have hinv : (s.move t adb' s.mem (.ofBook (.seek paddr hold))).Inv :=
      ⟨h.coherent_go hth hgo₀, h.unlocked_of fun _ _ hd =>
        (AddrBook.cell_tryExpand hexpand hd).imp_right fun hfree _ => hfree.2⟩
    have hentry : ∀ w, adb'.entry w = s.adb.entry w := AddrBook.entry_tryExpand hexpand
    have hview : adb'.view s.mem = s.adb.view s.mem := by
      unfold AddrBook.view
      simp only [hentry]
    exact simulated_quiet hinv hth hview rfl
  | pop e paddr hold =>
    simp only [bookGo] at hgo
    split at hgo
    · cases hgo
    next table htable =>
      split at hgo
      · cases hgo
        exact ⟨_, rfl, simulated_quiet (h.go_cells hth hgo₀ fun _ => rfl) hth rfl rfl⟩
      next code index table' hpop =>
        cases hgo
        obtain ⟨-, -, hcells, -⟩ := AddrTable.stackFill_of_popFree hpop
        have hsame := cell_sameCells htable hcells
        exact ⟨_, rfl, simulated_quiet (h.go_cells hth hgo₀ hsame) hth (view_of_cell hsame _) rfl⟩
  | write e code index paddr hold =>
    obtain ⟨table, c, htable, hget, hallocated, hfree⟩ := h.popped_cell hth rfl
    have hcell : s.adb.cell ⟨e, index⟩ = some c := by
      unfold AddrBook.cell
      rw [htable]
      exact hget
    have hlt := (List.getElem?_eq_some_iff.mp hget).1
    have htable' : s.book.adb.table e = some table := htable
    simp only [bookGo, htable', AddrBook.writeCell_eq t paddr hold hget hfree] at hgo
    cases hgo
    refine ⟨_, rfl, ?_⟩
    set written : AddrTableCell := ⟨if hold then RwLock.acqWrite {} t else {}, true, paddr⟩
    set adb' := s.adb.setTable e { table with cells := table.cells.set index written }
    have hcells : ∀ w, adb'.cell w = if w = ⟨e, index⟩ then some written else s.adb.cell w :=
      AddrBook.cell_setTable_set htable hlt rfl
    have hnone : s.adb.entry ⟨e, index⟩ = none := by
      unfold AddrBook.entry
      rw [hcell, Option.filter_some, hallocated]
      rfl
    have heffect : bookEffect (s.adb.view s.mem) t (.put paddr hold) (.vaddr ⟨e, index⟩) =
        some (adb'.view s.mem) := by
      have hfree' : ((s.adb.view s.mem).cells ⟨e, index⟩).isNone = true := by
        simp only [AddrBook.view, hnone, Option.map_none, Option.isNone_none]
      rw [view_assign rfl hcells]
      exact if_pos hfree'
    have hunlocked := h.unlocked_of fun w d hd => by
      rw [hcells] at hd
      split at hd
      · cases hd
        exact .inr fun hfalse => by cases hfalse
      · exact .inl hd
    by_cases hfull : code = .newlyFull
    · rw [if_pos hfull] at hgo₀ ⊢
      exact simulated_effect ⟨h.coherent_go hth hgo₀, hunlocked⟩ hth rfl rfl heffect
    · rw [if_neg hfull] at hgo₀ ⊢
      exact simulated_effect_ret ⟨h.coherent_go hth hgo₀, hunlocked⟩ hth rfl heffect
  | removal e index =>
    cases hgo
    have hsame : ∀ w, (s.adb.tryRemoval e).cell w = s.adb.cell w :=
      AddrBook.cell_of_table (AddrBook.table_tryRemoval e)
    exact ⟨_, rfl, simulated_ret (h.go_cells hth hgo₀ hsame) hth (view_of_cell hsame _) rfl⟩
  | push e index =>
    simp only [bookGo] at hgo
    split at hgo
    · cases hgo
    next table htable =>
      cases hgo
      have hsame : ∀ w, (s.adb.setTable e (table.pushFree index).2).cell w = s.adb.cell w :=
        cell_sameCells htable rfl
      refine ⟨_, rfl, ?_⟩
      by_cases hfree : (table.pushFree index).1 = .newlyFree
      · rw [if_pos hfree] at hgo₀ ⊢
        exact simulated_quiet (h.go_cells hth hgo₀ hsame) hth (view_of_cell hsame _) rfl
      · rw [if_neg hfree] at hgo₀ ⊢
        exact simulated_ret (h.go_cells hth hgo₀ hsame) hth (view_of_cell hsame _) rfl
  | addition e =>
    cases hgo
    have hsame : ∀ w, (s.adb.tryAddition e).cell w = s.adb.cell w :=
      AddrBook.cell_of_table (AddrBook.table_tryAddition e)
    exact ⟨_, rfl, simulated_ret (h.go_cells hth hgo₀ hsame) hth (view_of_cell hsame _) rfl⟩

/-! ## The sections on a cell -/

/-- An assignment to a cell that keeps its allocation flag. -/
theorem AddrBook.Coherent.setCell {adding removing : Nat → Prop} {popped cleared : List Vaddr}
    (h : adb.Coherent adding removing popped cleared) (hcell : adb.cell v = some c)
    (hallocated : c'.allocated = c.allocated) :
      (adb.setCell v c').Coherent adding removing popped cleared := by
  obtain ⟨table, htable, hget⟩ := AddrBook.table_of_cell hcell
  have hlt := (List.getElem?_eq_some_iff.mp hget).1
  set table' : AddrTable := { table with cells := table.cells.set v.cellIndex c' }
  have heq : adb.setCell v c' = adb.setTable v.tableIndex table' := by
    unfold AddrBook.setCell
    rw [htable]
  have hsame : AddrTable.SameStack table table' := ⟨rfl, rfl, rfl, List.length_set ..⟩
  have hflags : ∀ j, table'.isAllocated j = table.isAllocated j := by
    intro j
    rw [AddrTable.isAllocated_set hlt]
    split
    next hj => rw [hj, AddrTable.isAllocated, hget, Option.any_some, hallocated]
    next => rfl
  rw [heq]
  exact h.setTable_of_sameStack htable hsame
    ((h.tabled _ table htable).accounted.of_sameStack hsame fun j => by rw [hflags])
    (fun _ _ => rfl) fun _ _ => rfl

/-- A thread that is in no put and no free goes on with neither. -/
theorem book_same (hth : s.threads[t]? = some th) (hbook : th'.toBook = th.toBook) :
    (s.move t adb mem th').book = ⟨adb, s.book.threads⟩ := by
  obtain ⟨hlt, hget⟩ := List.getElem?_eq_some_iff.mp (book_thread hth)
  rw [book_move, hbook, ← hget]
  exact congrArg (BookState.mk adb) (List.set_getElem_self hlt)

theorem view_of_entry (hcell : adb.cell v = some c) (hallocated : c.allocated = true) :
    (adb.view mem).cells v = some (c.lck, c.paddr) := by
  show (adb.entry v).map _ = _
  rw [AddrBook.entry_eq_some.mpr ⟨hcell, hallocated⟩, Option.map_some]

/-- The effect of a call on an allocated cell. -/
theorem bookEffect_cell {call : CellCall} {res : AdbRes} (hcell : adb.cell v = some c)
    (hallocated : c.allocated = true) : bookEffect (adb.view mem) t (.cell v call) res =
      cellEffect (adb.view mem) t v c.lck c.paddr call res := by
  simp only [bookEffect, view_of_entry hcell hallocated]

/-- A call on a cell that changes it. -/
theorem assign_simulated {call : CellCall} {res : AdbRes} (h : s.Inv)
    (hth : s.threads[t]? = some (.cell v call)) (hcell : s.adb.cell v = some c) (hold : c.allocated = true)
    (hnew : c'.allocated = true) (heffect : cellEffect (s.adb.view s.mem) t v c.lck c.paddr call res =
      some { (s.adb.view s.mem).set v (some (c'.lck, c'.paddr)) with mem := mem }) :
    Simulated s t (s.move t (s.adb.setCell v c') mem (.idle (some res))) := by
  have hcells : ∀ w, (s.adb.setCell v c').cell w = if w = v then some c' else s.adb.cell w :=
    AddrBook.cell_setCell hcell
  have hbook : (s.move t (s.adb.setCell v c') mem (.idle (some res))).book =
      ⟨s.adb.setCell v c', s.book.threads⟩ := book_same hth rfl
  have hcoherent : (s.move t (s.adb.setCell v c') mem (.idle (some res))).book.Coherent := by
    rw [hbook]
    exact h.coherent.setCell hcell (hnew.trans hold.symm)
  have hunlocked : ∀ w d, (s.adb.setCell v c').cell w = some d → d.allocated = false → d.lck.isFree = true :=
    h.unlocked_of fun w d hd => by
      rw [hcells] at hd
      split at hd
      · cases hd
        refine .inr fun hfalse => ?_
        rw [hnew] at hfalse
        cases hfalse
      · exact .inl hd
  refine simulated_effect_ret ⟨hcoherent, hunlocked⟩ hth rfl ?_
  rw [bookEffect_cell hcell hold, heffect, view_assign hnew hcells]
  rfl

/-- A call on a cell that changes nothing. -/
theorem look_simulated {call : CellCall} {res : AdbRes} (h : s.Inv)
    (hth : s.threads[t]? = some (.cell v call))
    (heffect : bookEffect (s.adb.view s.mem) t (.cell v call) res = some (s.adb.view s.mem)) :
    Simulated s t (s.move t s.adb s.mem (.idle (some res))) := by
  have hbook : (s.move t s.adb s.mem (.idle (some res))).book = ⟨s.adb, s.book.threads⟩ := book_same hth rfl
  have hcoherent : (s.move t s.adb s.mem (.idle (some res))).book.Coherent := by
    rw [hbook]
    exact h.coherent
  exact simulated_effect_ret ⟨hcoherent, h.unlocked⟩ hth rfl heffect

/-- `adb_allocated` on a vaddr that is not. -/
theorem bookEffect_none (hentry : adb.entry v = none) :
    bookEffect (adb.view mem) t (.cell v .allocated) (.flag false) = some (adb.view mem) := by
  have hview : (adb.view mem).cells v = none := by
    show (adb.entry v).map _ = none
    rw [hentry, Option.map_none]
  simp only [bookEffect, hview, decide_true, Bool.and_self, if_true]

/-- `adb_allocated` on a table that there is. -/
theorem bookEffect_allocated {b : Bool} (h : s.Inv) (hb : s.adb.adbAllocated v = some b) :
    bookEffect (s.adb.view s.mem) t (.cell v .allocated) (.flag b) = some (s.adb.view s.mem) := by
  have hnone : s.adb.entry v = none → b = false →
      bookEffect (s.adb.view s.mem) t (.cell v .allocated) (.flag b) = some (s.adb.view s.mem) := by
    rintro hentry rfl
    exact bookEffect_none hentry
  unfold AddrBook.adbAllocated at hb
  split at hb
  next htable =>
    cases hb
    refine hnone ?_ rfl
    unfold AddrBook.entry AddrBook.cell
    rw [htable]
    rfl
  next table htable =>
    have hcell : s.adb.cell v = table.cells[v.cellIndex]? := by
      unfold AddrBook.cell
      rw [htable]
      rfl
    unfold AddrTable.adtAllocated at hb
    split at hb
    next hge =>
      cases hb
      refine hnone ?_ rfl
      have hacc := (h.coherent.tabled _ table htable).accounted
      unfold AddrBook.entry
      rw [hcell, List.getElem?_eq_none (hacc.arrays.2 ▸ hge)]
      rfl
    next =>
      split at hb
      · cases hb
      next c hget =>
        split at hb
        next hread =>
          cases hb
          rw [hget] at hcell
          cases hallocated : c.allocated with
          | true =>
            rw [bookEffect_cell hcell hallocated]
            exact if_pos hread
          | false =>
            rw [hallocated] at hnone
            refine hnone ?_ rfl
            unfold AddrBook.entry
            rw [hcell, Option.filter_some, hallocated]
            rfl
        next => cases hb

/-- The clear of `adb_free`. -/
theorem clear_simulated {table table' : AddrTable} (h : s.Inv) (hth : s.threads[t]? = some (.cell v .free))
    (htable : s.adb.table v.tableIndex = some table)
    (hclear : table.clearCell v.cellIndex = some (some table')) :
    Simulated s t (s.move t (s.adb.setTable v.tableIndex table') s.mem
      (.book (.push v.tableIndex v.cellIndex))) := by
  obtain ⟨c, hget, hfree, hallocated, htab⟩ := AddrBook.of_clearCell hclear
  have hcell : s.adb.cell v = some c := by
    unfold AddrBook.cell
    rw [htable]
    exact hget
  have hlt := (List.getElem?_eq_some_iff.mp hget).1
  set adb' := s.adb.setTable v.tableIndex table'
  have hcells : ∀ w, adb'.cell w = if w = v then some { c with allocated := false, paddr := 0 } else
      s.adb.cell w := AddrBook.cell_setTable_set htable hlt (by rw [htab])
  have hbook := book_thread hth
  have hcoherent : (s.move t adb' s.mem (.book (.push v.tableIndex v.cellIndex))).book.Coherent := by
    have hkeep := h.coherent.keep hbook (.push v.tableIndex v.cellIndex) nofun nofun
    have hcleared := cleared_move hbook (.push v.tableIndex v.cellIndex)
    rw [book_move]
    exact (hkeep.clear htable hclear hcleared).mono (fun _ => id) (fun _ => id)
      (popped_same hbook _ rfl) fun _ => rfl
  have hunlocked := h.unlocked_of fun w d hd => by
    rw [hcells] at hd
    split at hd
    · cases hd
      exact .inr fun _ => hfree
    · exact .inl hd
  have heffect : bookEffect (s.adb.view s.mem) t (.cell v .free) .unit = some (adb'.view s.mem) := by
    rw [bookEffect_cell hcell hallocated, view_clear rfl hcells]
    exact if_pos hfree
  exact simulated_effect ⟨hcoherent, hunlocked⟩ hth rfl rfl heffect

/-- A lock that is held is on an allocated cell. -/
theorem AdbState.Inv.allocated_of (h : s.Inv) (hcell : s.adb.cell v = some c) (hlck : c.lck.isFree = false) :
    c.allocated = true := by
  by_contra hfalse
  rw [h.unlocked v c hcell (Bool.eq_false_iff.mpr hfalse)] at hlck
  cases hlck

theorem cellSection_simulated {call : CellCall} (h : s.Inv) (hth : s.threads[t]? = some (.cell v call))
    (hst : cellSection s.adb s.mem t v call = some (adb, mem, th)) : Simulated s t (s.move t adb mem th) := by
  cases call with
  | getRead blk =>
    cases blk with
    | true =>
      obtain ⟨⟨paddr, adb'⟩, hget, heq⟩ := Option.map_eq_some_iff.mp hst
      cases heq
      unfold AddrBook.adbGetRead at hget
      split at hget
      · cases hget
      next c hcell =>
        split at hget
        next hlck =>
          cases hget
          obtain ⟨hread, hallocated⟩ := Bool.and_eq_true_iff.mp hlck
          refine assign_simulated h hth hcell hallocated hallocated ?_
          simp only [cellEffect, hread, decide_true, Bool.and_self, if_true]
          rfl
        next => cases hget
    | false =>
      obtain ⟨r, hget, heq⟩ := Option.map_eq_some_iff.mp hst
      cases heq
      unfold AddrBook.adbTryGetRead at hget
      split at hget
      · cases hget
      next c hcell =>
        split at hget
        next hread =>
          split at hget
          next hallocated =>
            cases hget
            refine assign_simulated h hth hcell hallocated hallocated ?_
            simp only [cellEffect, hread, Option.map_some, decide_true, Bool.and_self, if_true]
            rfl
          next => cases hget
        next hread =>
          cases hget
          have hlck : c.lck.isFree = false :=
            Bool.eq_false_iff.mpr fun hfree => hread (RwLock.canRead_iff.mpr (RwLock.writer_of_isFree hfree))
          refine look_simulated h hth ?_
          rw [bookEffect_cell hcell (h.allocated_of hcell hlck)]
          simp only [cellEffect, Option.map_none, if_neg hread]
  | getWrite blk =>
    cases blk with
    | true =>
      obtain ⟨⟨paddr, adb'⟩, hget, heq⟩ := Option.map_eq_some_iff.mp hst
      cases heq
      unfold AddrBook.adbGetWrite at hget
      split at hget
      · cases hget
      next c hcell =>
        split at hget
        next hlck =>
          cases hget
          obtain ⟨hfree, hallocated⟩ := Bool.and_eq_true_iff.mp hlck
          refine assign_simulated h hth hcell hallocated hallocated ?_
          simp only [cellEffect, hfree, decide_true, Bool.and_self, if_true]
          rfl
        next => cases hget
    | false =>
      obtain ⟨r, hget, heq⟩ := Option.map_eq_some_iff.mp hst
      cases heq
      unfold AddrBook.adbTryGetWrite at hget
      split at hget
      · cases hget
      next c hcell =>
        split at hget
        next hfree =>
          split at hget
          next hallocated =>
            cases hget
            refine assign_simulated h hth hcell hallocated hallocated ?_
            simp only [cellEffect, hfree, Option.map_some, decide_true, Bool.and_self, if_true]
            rfl
          next => cases hget
        next hfree =>
          cases hget
          refine look_simulated h hth ?_
          rw [bookEffect_cell hcell (h.allocated_of hcell (Bool.eq_false_iff.mpr hfree))]
          simp only [cellEffect, Option.map_none, if_neg hfree]
  | unlock =>
    obtain ⟨adb', hunlock, heq⟩ := Option.map_eq_some_iff.mp hst
    cases heq
    unfold AddrBook.adbUnlock at hunlock
    split at hunlock
    · cases hunlock
    next c hcell =>
      split at hunlock
      next hholds =>
        cases hunlock
        have hlck : c.lck.isFree = false := Bool.eq_false_iff.mpr fun hfree => by
          rw [RwLock.not_holds_of_isFree hfree] at hholds
          cases hholds
        have hallocated := h.allocated_of hcell hlck
        refine assign_simulated h hth hcell hallocated hallocated ?_
        simp only [cellEffect, hholds, if_true]
        rfl
      next => cases hunlock
  | allocated =>
    obtain ⟨b, hb, heq⟩ := Option.map_eq_some_iff.mp hst
    cases heq
    exact look_simulated h hth (bookEffect_allocated h hb)
  | move lck newPaddr size init =>
    obtain ⟨⟨mem', adb'⟩, hmove, heq⟩ := Option.map_eq_some_iff.mp hst
    cases heq
    unfold AddrBook.adbMoveWith at hmove
    split at hmove
    · cases hmove
    next c hcell =>
      split at hmove
      · cases hmove
      next hlck =>
        split at hmove
        next hallocated =>
          cases hmove
          refine assign_simulated h hth hcell hallocated hallocated ?_
          simp only [cellEffect, if_neg hlck]
          rfl
        next => cases hmove
  | free =>
    simp only [cellSection] at hst
    split at hst
    · cases hst
    next table htable =>
      split at hst
      next table' hclear =>
        cases hst
        exact clear_simulated h hth htable hclear
      next => cases hst

/-! ## All sections -/

/-- The consumer stays in its call. -/
theorem tableSection_stage {con : AdtConsumer} {i len ind : Nat}
    (hsection : tableSection adb i len ind con = some th) :
    th.toBook = .idle none ∧ th.stage = .called (AdbThread.consumerCall con) := by
  unfold tableSection at hsection
  split at hsection
  · cases hsection
  · cases con with
    | fill sum =>
      cases hsection
      exact ⟨rfl, rfl⟩
    | cells wr seen =>
      simp only at hsection
      split at hsection
      · split at hsection
        · cases hsection
        · split at hsection
          · cases hsection
            exact ⟨rfl, rfl⟩
          · cases hsection
      · cases hsection
        exact ⟨rfl, rfl⟩

/-- The state after a step of a thread outside `adb_put_p` and `adb_free` that leaves the book alone. -/
theorem AdbState.Inv.goto (h : s.Inv) (hth : s.threads[t]? = some th) (hbook : th'.toBook = th.toBook) :
    (s.goto t th').Inv := by
  have hsame : (s.goto t th').book = s.book := book_same hth hbook
  exact ⟨hsame ▸ h.coherent, h.unlocked⟩

/-- A call is made. -/
theorem call_simulated (call : AdbCall) {res : Option AdbRes} (h : s.Inv)
    (hth : s.threads[t]? = some (.idle res)) :
    (s.goto t call.start).Inv ∧ Linear.Run bookEffect s.calls [.call t call] (s.goto t call.start).calls := by
  have hstage : call.start.stage = .called call := by cases call <;> rfl
  refine ⟨?_, ?_⟩
  · cases call with
    | put paddr hold =>
      have hmove : (s.book.move t s.adb (.seek paddr hold)).Coherent :=
        h.coherent.move (book_thread hth) nofun nofun rfl rfl
      have hbook : (s.goto t (AdbCall.put paddr hold).start).book = s.book.move t s.adb (.seek paddr hold) :=
        book_move
      exact ⟨hbook ▸ hmove, h.unlocked⟩
    | _ => exact h.goto hth rfl
  · rw [AdbState.goto, calls_move, hstage]
    exact Linear.run_call (stage_thread hth)

/-- **Step lemma.** A section shows the effect of its call, its return, both or neither. -/
theorem adbGo_simulated (h : s.Inv) (hth : s.threads[t]? = some th) (hgo : adbGo s t th = some s') :
    Simulated s t s' := by
  cases th with
  | idle => cases hgo
  | book old =>
    obtain ⟨b, hb, hmap⟩ := Option.bind_eq_some_iff.mp hgo
    obtain ⟨new, heq, hsim⟩ := bookGo_simulated h hth hb
    have hlt : t < s.book.threads.length := (List.getElem?_eq_some_iff.mp (book_thread hth)).1
    have hnew : b.threads[t]? = some new := by
      rw [heq]
      exact List.getElem?_set_self hlt
    rw [hnew] at hmap
    cases hmap
    exact hsim
  | lookup v call =>
    simp only [adbGo] at hgo
    split at hgo
    · cases hgo
      exact simulated_quiet (h.goto hth rfl) hth rfl rfl
    next hge =>
      split at hgo
      next hcall =>
        cases hgo
        subst hcall
        have hentry : s.adb.entry v = none := by
          unfold AddrBook.entry AddrBook.cell AddrBook.table
          rw [List.getElem?_eq_none (Nat.le_of_not_lt hge)]
          rfl
        exact simulated_effect_ret (h.goto hth rfl) hth rfl (bookEffect_none hentry)
      next => cases hgo
  | cell v call =>
    obtain ⟨⟨adb, mem, th'⟩, hsection, rfl⟩ := Option.map_eq_some_iff.mp hgo
    exact cellSection_simulated h hth hsection
  | foreach c =>
    cases hgo
    exact simulated_quiet (h.goto hth rfl) hth rfl rfl
  | nextTable c i len =>
    cases hgo
    split
    · exact simulated_quiet (h.goto hth rfl) hth rfl rfl
    · refine simulated_effect_ret (h.goto hth rfl) hth rfl ?_
      cases c <;> rfl
  | onTable c i len ind =>
    obtain ⟨th', hsection, rfl⟩ := Option.map_eq_some_iff.mp hgo
    obtain ⟨hbook, hstage⟩ := tableSection_stage hsection
    exact simulated_quiet (h.goto hth hbook) hth rfl hstage

/-- Every step keeps the invariant, and shows a part of the calls. -/
theorem adbStep_simulated {a : AdbAct} (h : s.Inv) (hst : adbStep s a = some s') :
    s'.Inv ∧ ∃ acts, isPart a acts ∧ Linear.Run bookEffect s.calls acts s'.calls := by
  cases a with
  | call t call =>
    simp only [adbStep] at hst
    split at hst
    next res hth =>
      cases hst
      obtain ⟨hinv, hrun⟩ := call_simulated call h hth
      exact ⟨hinv, _, rfl, hrun⟩
    next => cases hst
  | go t =>
    obtain ⟨th, hth, hgo⟩ := Option.bind_eq_some_iff.mp hst
    exact adbGo_simulated h hth hgo

theorem inv_new {tableCap : Nat} (hnew : newAddrBook tableCap = some adb) (mem : Mem) (n : Nat) :
    (AdbState.new adb mem n).Inv := by
  have hbook : (AdbState.new adb mem n).book = BookState.new adb n := by
    unfold AdbState.book AdbState.new BookState.new
    rw [List.map_replicate]
    rfl
  refine ⟨hbook ▸ coherent_start hnew n, fun v c hcell => ?_⟩
  obtain ⟨-, rfl⟩ := newAddrBook_eq_some.mp hnew
  cases hcell

end Chvm.Virt
