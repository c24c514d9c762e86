import Chvm.Virt.FreeList
import Chvm.Virt.Map

/-!
# All calls of an address book, by any number of threads

A step is a section of one of the calls of `virt.c`: `adb_put_p` and the second half of `adb_free` are those
of `bookGo`; a call on a cell first looks its table up and then works under the lock of the cell;
`adb_get_fill` and `adb_foreach` go from table to table. Between two sections of one call the other threads do what they
like: free the vaddr that was looked up, or put it again.
-/

set_option autoImplicit false

namespace Chvm.Virt

open Chvm.Lib

/-- `adb_try_get_read`; `some none` when the lock is not acquired. -/
def AddrBook.adbTryGetRead (adb : AddrBook) (t : Tid) (v : Vaddr) : Option (Option (Nat × AddrBook)) :=
  match adb.cell v with
  | none => none
  | some c =>
    if c.lck.canRead then
      if c.allocated then
        some (some (c.paddr, adb.setCell v { c with lck := c.lck.acqRead t }))
      else none
    else some none

/-! ## The calls -/

/-- What is done to one cell. -/
inductive CellCall
  | getRead (blk : Bool)
  | getWrite (blk : Bool)
  | unlock
  | allocated
  | move (lck : Bool) (newPaddr size : Nat) (init : Bool)
  | free
deriving DecidableEq, Repr

inductive AdbCall
  | put (paddr : Nat) (hold : Bool)
  | cell (vaddr : Vaddr) (call : CellCall)
  | getFill
  | foreach (wr : Bool)
deriving DecidableEq, Repr

/-- What a call returns; `paddr none` is `NULL`. -/
inductive AdbRes
  | unit
  | vaddr (vaddr : Vaddr)
  | paddr (paddr : Option Nat)
  | flag (allocated : Bool)
  | fill (fill : Nat)
  | seen (calls : List (Vaddr × Nat))
deriving DecidableEq, Repr

/-- The consumers of `adb_foreach_adt`, with what they have made: a sum, or what the consumer of `adb_foreach`
was called with. -/
inductive AdtConsumer
  | fill (sum : Nat)
  | cells (wr : Bool) (seen : List (Vaddr × Nat))
deriving DecidableEq, Repr

def AdtConsumer.res : AdtConsumer → AdbRes
  | .fill sum => .fill sum
  | .cells _ calls => .seen calls

/-- Where a thread stands between two sections. -/
inductive AdbThread
  | idle (res : Option AdbRes)
  /-- In `adb_put_p`, or in `adb_free` past the clear of the cell. -/
  | book (th : BookThread)
  /-- About to look the table up. -/
  | lookup (vaddr : Vaddr) (call : CellCall)
  | cell (vaddr : Vaddr) (call : CellCall)
  /-- `adb_foreach_adt` is about to read `book_len`. -/
  | foreach (c : AdtConsumer)
  | nextTable (c : AdtConsumer) (i len : Nat)
  /-- The consumer is on table `i`, at cell `ind`. -/
  | onTable (c : AdtConsumer) (i len ind : Nat)
deriving DecidableEq, Repr

structure AdbState where
  adb : AddrBook
  mem : Mem
  threads : List AdbThread

inductive AdbAct
  | call (t : Tid) (call : AdbCall)
  /-- The next section of the call the thread is in. -/
  | go (t : Tid)
deriving DecidableEq, Repr

def AdbCall.start : AdbCall → AdbThread
  | .put paddr hold => .book (.seek paddr hold)
  | .cell v call => .lookup v call
  | .getFill => .foreach (.fill 0)
  | .foreach wr => .foreach (.cells wr [])

/-- A put or a free that has returned is outside the calls. -/
def AdbThread.ofBook : BookThread → AdbThread
  | .idle none => .idle (some .unit)
  | .idle (some v) => .idle (some (.vaddr v))
  | th => .book th

def AdbThread.toBook : AdbThread → BookThread
  | .book th => th
  | _ => .idle none

namespace AdbState

/-- `n` threads outside the calls. -/
def new (adb : AddrBook) (mem : Mem) (n : Nat) : AdbState := ⟨adb, mem, List.replicate n (.idle none)⟩

/-- The state that the sections of `adb_put_p` and `adb_free` see. -/
def book (s : AdbState) : BookState := ⟨s.adb, s.threads.map AdbThread.toBook⟩

def move (s : AdbState) (t : Tid) (adb : AddrBook) (mem : Mem) (th : AdbThread) : AdbState :=
  ⟨adb, mem, s.threads.set t th⟩

def goto (s : AdbState) (t : Tid) (th : AdbThread) : AdbState := s.move t s.adb s.mem th

end AdbState

/-! ## The sections -/

/-- The section of a call on a cell, under the lock of the cell; `none` waits for it, or is the error exit
for a vaddr that is not allocated. -/
def cellSection (adb : AddrBook) (mem : Mem) (t : Tid) (v : Vaddr) :
    CellCall → Option (AddrBook × Mem × AdbThread)
  | .getRead true => (adb.adbGetRead t v).map fun r => (r.2, mem, .idle (some (.paddr (some r.1))))
  | .getRead false =>
    (adb.adbTryGetRead t v).map fun r =>
      (r.elim adb (·.2), mem, .idle (some (.paddr (r.map (·.1)))))
  | .getWrite true => (adb.adbGetWrite t v).map fun r => (r.2, mem, .idle (some (.paddr (some r.1))))
  | .getWrite false =>
    (adb.adbTryGetWrite t v).map fun r =>
      (r.elim adb (·.2), mem, .idle (some (.paddr (r.map (·.1)))))
  | .unlock => (adb.adbUnlock t v).map fun adb => (adb, mem, .idle (some .unit))
  | .allocated => (adb.adbAllocated v).map fun b => (adb, mem, .idle (some (.flag b)))
  | .move lck newPaddr size init =>
    (adb.adbMoveWith mem lck v newPaddr size init).map fun r => (r.2, r.1, .idle (some .unit))
  | .free =>
    match adb.table v.tableIndex with
    | none => none
    | some adt =>
      match adt.clearCell v.cellIndex with
      | some (some adt') =>
        some (adb.setTable v.tableIndex adt', mem, .book (.push v.tableIndex v.cellIndex))
      | _ => none

/-- The lock that `adt_foreach` takes can be taken. -/
def canLock (wr : Bool) (lck : RwLock) : Bool := if wr then lck.isFree else lck.canRead

/-- What the consumer does next on a table; `none` waits for the lock of a cell. -/
def tableSection (adb : AddrBook) (i len ind : Nat) (c : AdtConsumer) : Option AdbThread :=
  match adb.table i with
  | none => none
  | some adt =>
    match c with
    | .fill sum => some (.nextTable (.fill (sum + adt.adtGetFill)) (i + 1) len)
    | .cells wr seen =>
      if ind < adt.cap then
        match adt.cells[ind]? with
        | none => none
        | some cell =>
          if canLock wr cell.lck then
            some (.onTable (.cells wr (if cell.allocated then seen ++ [(⟨i, ind⟩, cell.paddr)] else seen)) i
              len (ind + 1))
          else none
      else some (.nextTable c (i + 1) len)

/-- The next section of the call that thread `t` is in. -/
def adbGo (s : AdbState) (t : Tid) : AdbThread → Option AdbState
  | .idle _ => none
  | .book th =>
    (bookGo s.book t th).bind fun b => (b.threads[t]?).map fun th' => s.move t b.adb s.mem (.ofBook th')
  | .lookup v call =>
    if v.tableIndex < s.adb.book.length then some (s.goto t (.cell v call))
    else if call = .allocated then some (s.goto t (.idle (some (.flag false))))
    else none
  | .cell v call => (cellSection s.adb s.mem t v call).map fun r => s.move t r.1 r.2.1 r.2.2
  | .foreach c => some (s.goto t (.nextTable c 0 s.adb.book.length))
  | .nextTable c i len =>
    some (s.goto t (if i < len then .onTable c i len 0 else .idle (some c.res)))
  | .onTable c i len ind => (tableSection s.adb i len ind c).map (s.goto t)

def adbStep (s : AdbState) : AdbAct → Option AdbState
  | .call t c =>
    match s.threads[t]? with
    | some (.idle _) => some (s.goto t c.start)
    | _ => none
  | .go t => (s.threads[t]?).bind (adbGo s t)

end Chvm.Virt
