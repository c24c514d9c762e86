import Mathlib.Logic.Function.Basic
import Chvm.Core.Mem
import Chvm.Lib.Cells
import Chvm.Lib.DList

/-!
# The broken collection (`data.c`, `util_bc`)

A chain of tables of cells, with a cursor at each end. The tables are buffers of bytes in the heap,
and every access goes through a pointer and is checked: a null or freed pointer, or an offset
outside the buffer, is a fault. The host's `malloc` is a parameter of the pushes.
-/

set_option autoImplicit false

namespace Chvm.Util

open Chvm.Core Chvm.Lib

/-- Why a call does not return: the process ends (`error_logf`, `safe_malloc`), or it leaves its
memory. -/
inductive Stop
  | exit
  | fault
deriving DecidableEq, Repr

/-- `util_bc_table_header` with the bytes behind it; a pointer that may be `NULL` is an `Option`. -/
structure BcTable where
  next : Option Nat
  prev : Option Nat
  bytes : List UInt8

/-- `memcpy` into the table. -/
def BcTable.store (table : BcTable) (off : Nat) (src : List UInt8) : Except Stop BcTable :=
  if off + src.length ≤ table.bytes.length then
    .ok { table with bytes := splice table.bytes off src }
  else .error .fault

/-- `memcpy` out of the table. -/
def BcTable.load (table : BcTable) (off size : Nat) : Except Stop (List UInt8) :=
  if off + size ≤ table.bytes.length then .ok ((table.bytes.drop off).take size) else .error .fault

/-- `util_broken_collection`, with its tables by their addresses. -/
structure Bc where
  cellSize : Nat
  tableSize : Nat
  deleteEmptyTables : Bool
  first : Option Nat
  firstStart : Nat
  last : Option Nat
  lastEnd : Nat
  heap : Nat → Option BcTable

/-- `new_util_bc_table`: the header takes 16 bytes, and `safe_malloc` one more for the channel. -/
def newUtilBcTable (cellSize tableSize : Nat) (host : Host) : Except Stop (Nat × BcTable) :=
  match host (CoreMem.hostSize ((16 + cellSize * tableSize) % 2 ^ 64)) with
  | none => .error .exit
  | some (raw, bytes) =>
    if bytes.length < 17 then .error .fault
    else .ok (raw + 1, { next := none, prev := none, bytes := bytes.drop 17 })

/-- `new_broken_collection`. -/
def newBrokenCollection (cellSize tableSize : Nat) (deleteEmptyTables : Bool) (host : Host) :
    Except Stop Bc :=
  if cellSize = 0 ∨ tableSize = 0 then .error .exit
  else
    match newUtilBcTable cellSize tableSize host with
    | .error e => .error e
    | .ok (firstTable, table) =>
      .ok
        { cellSize := cellSize
          tableSize := tableSize
          deleteEmptyTables := deleteEmptyTables
          first := some firstTable
          firstStart := 0
          last := some firstTable
          lastEnd := 0
          heap := Function.update (fun _ => none) firstTable (some table) }

namespace Bc

/-- The table behind a pointer. -/
def table (bc : Bc) (p : Option Nat) : Except Stop (Nat × BcTable) :=
  match p with
  | none => .error .fault
  | some a =>
    match bc.heap a with
    | none => .error .fault
    | some table => .ok (a, table)

def setTable (bc : Bc) (a : Nat) (table : BcTable) : Bc :=
  { bc with heap := Function.update bc.heap a (some table) }

/-- `safe_free` of a table. -/
def freeTable (bc : Bc) (p : Option Nat) : Except Stop Bc := do
  let (a, _) ← bc.table p
  return { bc with heap := Function.update bc.heap a none }

/-- The offset of a cell, as the words of the source multiply. -/
def offset (bc : Bc) (ind : Nat) : Nat := ind * bc.cellSize % 2 ^ 64

/-- `bc_empty`. -/
def bcEmpty (bc : Bc) : Bool := bc.first = bc.last && bc.firstStart = bc.lastEnd

/-! ## The steps of the pushes and pops -/

/-- `bc_push_back` writes behind the last element. -/
def putBack (bc : Bc) (src : List UInt8) : Except Stop Bc := do
  let (a, table) ← bc.table bc.last
  let table ← table.store (bc.offset bc.lastEnd) src
  return { bc.setTable a table with lastEnd := bc.lastEnd + 1 }

/-- `bc_push_back` makes a table behind the last one, if there is none. -/
def growBack (bc : Bc) (host : Host) : Except Stop Bc := do
  let (a, table) ← bc.table bc.last
  match table.next with
  | some _ => return bc
  | none =>
    let (b, newTable) ← newUtilBcTable bc.cellSize bc.tableSize host
    return (bc.setTable a { table with next := some b }).setTable b { newTable with prev := some a }

/-- `bc_push_back` goes to the next table. -/
def advanceBack (bc : Bc) : Except Stop Bc := do
  let (_, table) ← bc.table bc.last
  return { bc with last := table.next, lastEnd := 0 }

/-- `bc_push_back`. -/
def bcPushBack (bc : Bc) (src : List UInt8) (host : Host) : Except Stop Bc := do
  let bc ← bc.putBack src
  if bc.lastEnd < bc.tableSize then return bc
  let bc ← bc.growBack host
  bc.advanceBack

/-- `bc_push_front` makes a table in front of the first one, if there is none. -/
def growFront (bc : Bc) (host : Host) : Except Stop Bc := do
  let (a, table) ← bc.table bc.first
  match table.prev with
  | some _ => return bc
  | none =>
    let (b, newTable) ← newUtilBcTable bc.cellSize bc.tableSize host
    return (bc.setTable a { table with prev := some b }).setTable b { newTable with next := some a }

/-- `bc_push_front` goes to the table in front. -/
def retreatFront (bc : Bc) : Except Stop Bc := do
  let (_, table) ← bc.table bc.first
  return { bc with first := table.prev, firstStart := bc.tableSize }

/-- `bc_push_front` writes in front of the first element. -/
def putFront (bc : Bc) (src : List UInt8) : Except Stop Bc := do
  let (a, table) ← bc.table bc.first
  let table ← table.store (bc.offset (bc.firstStart - 1)) src
  return { bc.setTable a table with firstStart := bc.firstStart - 1 }

/-- `bc_push_front`. -/
def bcPushFront (bc : Bc) (src : List UInt8) (host : Host) : Except Stop Bc := do
  if bc.firstStart = 0 then
    let bc ← bc.growFront host
    let bc ← bc.retreatFront
    bc.putFront src
  else bc.putFront src

/-- `bc_pop_back` backs up to the table in front. -/
def retreatBack (bc : Bc) : Except Stop Bc := do
  let (_, table) ← bc.table bc.last
  return { bc with last := table.prev, lastEnd := bc.tableSize }

/-- `bc_pop_back` frees the table it left. -/
def trimBack (bc : Bc) : Except Stop Bc := do
  let (a, table) ← bc.table bc.last
  let bc ← bc.freeTable table.next
  return bc.setTable a { table with next := none }

/-- `bc_pop_back` reads the last element. -/
def takeBack (bc : Bc) : Except Stop (List UInt8 × Bc) := do
  let (_, table) ← bc.table bc.last
  let cell ← table.load (bc.offset (bc.lastEnd - 1)) bc.cellSize
  return (cell, { bc with lastEnd := bc.lastEnd - 1 })

/-- `bc_pop_back`. -/
def bcPopBack (bc : Bc) : Except Stop (List UInt8 × Bc) := do
  if bc.bcEmpty then .error .exit
  else if bc.lastEnd = 0 then
    let bc ← bc.retreatBack
    if bc.deleteEmptyTables then
      let bc ← bc.trimBack
      bc.takeBack
    else bc.takeBack
  else bc.takeBack

/-- `bc_pop_front` reads the first element. -/
def takeFront (bc : Bc) : Except Stop (List UInt8 × Bc) := do
  let (_, table) ← bc.table bc.first
  let cell ← table.load (bc.offset bc.firstStart) bc.cellSize
  return (cell, { bc with firstStart := bc.firstStart + 1 })

/-- `bc_pop_front` goes to the next table. -/
def advanceFront (bc : Bc) : Except Stop Bc := do
  let (_, table) ← bc.table bc.first
  return { bc with first := table.next, firstStart := 0 }

/-- `bc_pop_front` frees the table it left. -/
def trimFront (bc : Bc) : Except Stop Bc := do
  let (a, table) ← bc.table bc.first
  let bc ← bc.freeTable table.prev
  return bc.setTable a { table with prev := none }

/-- `bc_pop_front`. -/
def bcPopFront (bc : Bc) : Except Stop (List UInt8 × Bc) := do
  if bc.bcEmpty then .error .exit
  else
    let (cell, bc) ← bc.takeFront
    if bc.firstStart = bc.tableSize then
      let bc ← bc.advanceFront
      if bc.deleteEmptyTables then
        let bc ← bc.trimFront
        return (cell, bc)
      else return (cell, bc)
    else return (cell, bc)

/-- The loop of `bc_foreach` from a cursor; `none` when the fuel runs out. -/
def bcForeachFrom {σ : Type} (bc : Bc) (c : List UInt8 → σ → σ) :
    Nat → Option Nat → Nat → σ → Option (Except Stop σ)
  | 0, _, _, _ => none
  | fuel + 1, iter, cellInd, ctx =>
    if iter = bc.last ∧ cellInd = bc.lastEnd then some (.ok ctx)
    else
      match bc.table iter with
      | .error e => some (.error e)
      | .ok (_, table) =>
        match table.load (bc.offset cellInd) bc.cellSize with
        | .error e => some (.error e)
        | .ok cell =>
          if cellInd + 1 = bc.tableSize then bc.bcForeachFrom c fuel table.next 0 (c cell ctx)
          else bc.bcForeachFrom c fuel iter (cellInd + 1) (c cell ctx)

/-- `bc_foreach`. -/
def bcForeach {σ : Type} (bc : Bc) (c : List UInt8 → σ → σ) (fuel : Nat) (ctx : σ) :
    Option (Except Stop σ) :=
  bc.bcForeachFrom c fuel bc.first bc.firstStart ctx

/-- `bc_len`. The cells are in memory, so a word counts them. -/
def bcLen (bc : Bc) (fuel : Nat) : Option (Except Stop Nat) := bc.bcForeach (fun _ len => len + 1) fuel 0

/-- A loop of `bc_get_num_tables` along one link; `none` when the fuel runs out. The tables are in
memory, so a word counts them. -/
def countTablesFrom (bc : Bc) (link : BcTable → Option Nat) :
    Nat → Option Nat → Nat → Option (Except Stop Nat)
  | 0, _, _ => none
  | _ + 1, none, numTables => some (.ok numTables)
  | fuel + 1, some iter, numTables =>
    match bc.table (some iter) with
    | .error e => some (.error e)
    | .ok (_, table) => bc.countTablesFrom link fuel (link table) (numTables + 1)

/-- `bc_get_num_tables`: the tables in front of the first one, then the others. -/
def bcGetNumTables (bc : Bc) (fuel : Nat) : Option (Except Stop Nat) :=
  match bc.table bc.first with
  | .error e => some (.error e)
  | .ok (_, table) =>
    match bc.countTablesFrom (·.prev) fuel table.prev 0 with
    | some (.ok numTables) => bc.countTablesFrom (·.next) fuel bc.first numTables
    | r => r

/-- A loop of `delete_broken_collection` along one link. It keeps the tables that it has freed, in
their order. -/
def freeTablesFrom (link : BcTable → Option Nat) :
    Nat → Option Nat → List Nat → Bc → Option (Except Stop (List Nat × Bc))
  | 0, _, _, _ => none
  | _ + 1, none, freed, bc => some (.ok (freed, bc))
  | fuel + 1, some iter, freed, bc =>
    match bc.table (some iter) with
    | .error e => some (.error e)
    | .ok (_, table) =>
      match bc.freeTable (some iter) with
      | .error e => some (.error e)
      | .ok bc => freeTablesFrom link fuel (link table) (freed ++ [iter]) bc

/-- `delete_broken_collection`: the tables it frees, and the memory of tables that is left when the
collection is gone. -/
def deleteBrokenCollection (bc : Bc) (fuel : Nat) :
    Option (Except Stop (List Nat × (Nat → Option BcTable))) :=
  match bc.table bc.first with
  | .error e => some (.error e)
  | .ok (_, table) =>
    match freeTablesFrom (·.prev) fuel table.prev [] bc with
    | none => none
    | some (.error e) => some (.error e)
    | some (.ok (freed, bc)) =>
      match freeTablesFrom (·.next) fuel bc.first freed bc with
      | none => none
      | some (.error e) => some (.error e)
      | some (.ok (freed, bc)) => some (.ok (freed, bc.heap))

end Bc

end Chvm.Util
