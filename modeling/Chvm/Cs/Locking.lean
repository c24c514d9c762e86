import Chvm.Lib.Threads
import Chvm.Cs.Refs

/-!
# The locks of a collected space

The calls of a collected space down to the address tables, as programs that take and give back the
locks where the source does. A section under a lock reads and writes the data it guards in one step. A
thread that hits an error exit takes no further step. The core's own lock, which the host's allocation
takes inside, is left out: nobody waits for anything while holding it.

The data are those of `Space`, the free stacks and the free list of the address book, and the list
of memory blocks with the block of each vaddr. What lies inside a block is left open: whether a free
piece is large enough, which allocated pieces lie behind free ones, and the random number that picks
a block are drawn. The locks of the cells are kept with the other locks and not in `Space.cells`.
-/

set_option autoImplicit false

namespace Chvm.Cs.Locking

open Chvm.Lib Chvm.Lib.Sync

/-- The locks. The mutexes, `rnd_lck` and `in_progress_stack_lock`, only ever have a writer. -/
inductive Lck
  | cell (v : Vaddr)
  | freeStack (tableIndex : Nat)
  | adb
  | mem (mb : Nat)
  | mbList
  | rnd
  | rootSet
  | gcStat
  | inProgressStack
deriving DecidableEq

/-- What the threads share. Blocks are numbered in the order `new_mem_block` makes them. `freeing` is
not in the source: it is the vaddr that `mb_free` is called for, until its cell is cleared. -/
structure Shared extends Space where
  freeStack : Nat → List Nat
  freeList : List Nat
  mbList : List Nat
  mbCount : Nat
  mbOf : Vaddr → Nat
  freeing : Option Vaddr

/-- `new_collected_space_seed`. -/
def Shared.new (adbTCap : Nat) : Shared where
  toSpace := Space.new adbTCap
  freeStack := fun _ => []
  freeList := []
  mbList := [0]
  mbCount := 1
  mbOf := fun _ => 0
  freeing := none

/-- A program on the space. -/
abbrev Code (α : Type) := Sync Lck Shared α

/-! ## The address tables (`virt.c`) -/

def Shared.allocated (s : Shared) (v : Vaddr) : Bool := (s.obj v).isSome

def Shared.setStack (s : Shared) (tableIndex : Nat) (stack : List Nat) : Shared :=
  { s with freeStack := Function.update s.freeStack tableIndex stack }

/-- The pop of `adt_put_p`: the index, and whether the table is full now. -/
def Shared.popFree (s : Shared) (tableIndex : Nat) : Option (Nat × Bool) × Shared :=
  match (s.freeStack tableIndex).getLast? with
  | none => (none, s)
  | some freeInd =>
    let rest := (s.freeStack tableIndex).dropLast
    (some (freeInd, rest.isEmpty), s.setStack tableIndex rest)

/-- The cell is allocated. Its object is set up later, under the cell's lock. -/
def Shared.install (s : Shared) (v : Vaddr) : Shared :=
  { s with toSpace := s.toSpace.setObj v (some ⟨.newlyAdded, [], []⟩) }

/-- The cell is cleared. -/
def Shared.clear (s : Shared) (v : Vaddr) : Shared :=
  { s with toSpace := s.toSpace.setObj v none, freeing := none }

/-- The push of `adt_free`: whether the table was full. -/
def Shared.pushFree (s : Shared) (v : Vaddr) : Bool × Shared :=
  let stack := s.freeStack v.tableIndex
  (stack.isEmpty, s.setStack v.tableIndex (stack ++ [v.cellIndex]))

/-- A new table, in front of the free list. -/
def Shared.expand (s : Shared) : Shared :=
  { s.setStack s.bookLen (List.range s.tableCap) with
    bookLen := s.bookLen + 1
    freeList := s.bookLen :: s.freeList }

/-- `adt_validate_cell_ind`. -/
def adtValidateCellInd (cellInd : Nat) : Code Unit := do
  if (← gets (·.tableCap)) ≤ cellInd then halt

/-- `adt_validate_cell`: the error exit gives the lock back. -/
def adtValidateCell (v : Vaddr) : Code Unit := do
  if !(← gets (·.allocated v)) then
    release (.cell v)
    halt

/-- `adt_put_p` with a hold; `none` is `ADT_NO_SPACE`. -/
def adtPutP (tableIndex : Nat) : Code (Option (Nat × Bool)) := do
  wrlock (.freeStack tableIndex)
  let popped ← modifyGet (·.popFree tableIndex)
  release (.freeStack tableIndex)
  match popped with
  | none => return none
  | some (freeInd, newlyFull) =>
    wrlock (.cell ⟨tableIndex, freeInd⟩)
    modify (·.install ⟨tableIndex, freeInd⟩)
    return some (freeInd, newlyFull)

/-- `adt_get_read` and `adt_get_write`. -/
def adtGet (v : Vaddr) (wr : Bool) : Code Unit := do
  adtValidateCellInd v.cellIndex
  take (.cell v) wr
  adtValidateCell v

/-- `adt_try_get_write`. -/
def adtTryGetWrite (v : Vaddr) : Code Bool := do
  adtValidateCellInd v.cellIndex
  if ← trylock (.cell v) then
    adtValidateCell v
    return true
  else return false

/-- `adt_unlock`. -/
def adtUnlock (v : Vaddr) : Code Unit := do
  adtValidateCellInd v.cellIndex
  release (.cell v)

/-- `adt_free`: whether the code is `ADT_NEWLY_FREE`. -/
def adtFree (v : Vaddr) : Code Bool := do
  adtValidateCellInd v.cellIndex
  wrlock (.cell v)
  adtValidateCell v
  modify (·.clear v)
  release (.cell v)
  wrlock (.freeStack v.tableIndex)
  let newlyFree ← modifyGet (·.pushFree v)
  release (.freeStack v.tableIndex)
  return newlyFree

/-- One cell of `adt_foreach`; the consumer takes no lock. -/
def adtVisit {β : Type} (wr : Bool) (c : Vaddr → β → Shared → β × Shared) (ctx : β) (v : Vaddr) :
    Code β := do
  take (.cell v) wr
  let ctx ← modifyGet fun s => if s.allocated v then c v ctx s else (ctx, s)
  release (.cell v)
  return ctx

/-! ## The address book -/

/-- `adb_get_adt`. -/
def adbGetAdt (tableIndex : Nat) : Code Unit := do
  rdlock .adb
  let len ← gets (·.bookLen)
  release .adb
  if len ≤ tableIndex then halt

/-- `adb_try_expand`. -/
def adbTryExpand : Code Unit := do
  wrlock .adb
  if (← gets (·.freeList)).isEmpty then modify (·.expand)
  release .adb

/-- `adb_try_removal`. -/
def adbTryRemoval (entryIndex : Nat) : Code Unit := do
  wrlock .adb
  if (← gets (·.freeList)).contains entryIndex then
    rdlock (.freeStack entryIndex)
    modify fun s =>
      if (s.freeStack entryIndex).isEmpty then { s with freeList := s.freeList.erase entryIndex }
      else s
    release (.freeStack entryIndex)
  release .adb

/-- `adb_try_addition`. -/
def adbTryAddition (entryIndex : Nat) : Code Unit := do
  wrlock .adb
  if !(← gets (·.freeList)).contains entryIndex then
    rdlock (.freeStack entryIndex)
    modify fun s =>
      if (s.freeStack entryIndex).isEmpty then s
      else { s with freeList := entryIndex :: s.freeList }
    release (.freeStack entryIndex)
  release .adb

/-- One round of `adb_put_p` on the table the free list showed. -/
def adbPutTo (entryIndex : Nat) : Code (Unit ⊕ Vaddr) := do
  rdlock .adb
  release .adb
  match ← adtPutP entryIndex with
  | none => return .inl ()
  | some (cellIndex, newlyFull) =>
    if newlyFull then adbTryRemoval entryIndex
    return .inr ⟨entryIndex, cellIndex⟩

/-- `adb_put_p` with a hold. -/
def adbPutP : Code Vaddr :=
  loop (fun _ => do
    rdlock .adb
    let head ← gets (·.freeList.head?)
    release .adb
    match head with
    | none =>
      adbTryExpand
      return .inl ()
    | some entryIndex => adbPutTo entryIndex) ()

/-- `adb_get_read` and `adb_get_write`. -/
def adbGet (v : Vaddr) (wr : Bool) : Code Unit := do
  adbGetAdt v.tableIndex
  adtGet v wr

/-- `adb_try_get_write`. -/
def adbTryGetWrite (v : Vaddr) : Code Bool := do
  adbGetAdt v.tableIndex
  adtTryGetWrite v

/-- `adb_unlock`. -/
def adbUnlock (v : Vaddr) : Code Unit := do
  adbGetAdt v.tableIndex
  adtUnlock v

/-- `adb_move_p` without a lock of its own: the cell is locked already. The bytes it moves are not part
of the model. -/
def adbMoveP (v : Vaddr) : Code Unit := do
  adbGetAdt v.tableIndex
  adtValidateCellInd v.cellIndex
  if !(← gets (·.allocated v)) then halt

/-- `adb_free`. -/
def adbFree (v : Vaddr) : Code Unit := do
  adbGetAdt v.tableIndex
  if ← adtFree v then adbTryAddition v.tableIndex

/-- `adb_foreach`. -/
def adbForeach {β : Type} (wr : Bool) (c : Vaddr → β → Shared → β × Shared) (ctx : β) : Code β := do
  rdlock .adb
  let len ← gets (·.bookLen)
  release .adb
  let cap ← gets (·.tableCap)
  (List.range len).foldlM (fun ctx i => do
    rdlock .adb
    release .adb
    (List.range cap).foldlM (fun ctx j => adtVisit wr c ctx ⟨i, j⟩) ctx) ctx

/-! ## The memory blocks (`mb.c`) -/

/-- `mb_free`; the pieces are joined without a lock of their own. -/
def mbFree (mb : Nat) (v : Vaddr) : Code Unit := do
  modify fun s => { s with freeing := some v }
  wrlock (.mem mb)
  adbGet v false
  adbUnlock v
  adbFree v
  release (.mem mb)

/-- `mb_malloc_and_hold`; `none` is `NULL_VADDR`, when no free piece is large enough. -/
def mbMallocAndHold (mb : Nat) : Code (Option Vaddr) := do
  wrlock (.mem mb)
  if (← arbitrary) = 0 then
    release (.mem mb)
    return none
  else
    let v ← adbPutP
    release (.mem mb)
    return some v

/-- The search of `mb_try_shift`: the vaddr it locked. -/
def mbSeekShift : Code (Option Vaddr) :=
  loop (fun _ => do
    if (← arbitrary) = 0 then return .inr none
    else
      let v : Vaddr := ⟨← arbitrary, ← arbitrary⟩
      if ← adbTryGetWrite v then return .inr (some v)
      else return .inl ()) ()

/-- `mb_try_shift`: whether it is `MB_SHIFT_SUCCESS`. -/
def mbTryShift (mb : Nat) : Code Bool := do
  wrlock (.mem mb)
  match ← mbSeekShift with
  | none =>
    release (.mem mb)
    return false
  | some v =>
    adbMoveP v
    adbUnlock v
    release (.mem mb)
    return true

/-- `mb_try_full_shift`. -/
def mbTryFullShift (mb : Nat) : Code Unit :=
  loop (fun _ => do
    if ← mbTryShift mb then return .inl ()
    else return .inr ()) ()

/-! ## The memory space (`ms.c`) -/

/-- `ms_next_rnd`. -/
def msNextRnd : Code Nat := do
  wrlock .rnd
  let rnd ← arbitrary
  release .rnd
  return rnd

/-- `ms_interpret_malloc_res`: the block is written in front of the object. -/
def Shared.setMb (s : Shared) (v : Vaddr) (mb : Nat) : Shared :=
  { s with mbOf := Function.update s.mbOf v mb }

/-- The throws of `ms_malloc_p`. -/
def msThrow : Nat → Code (Option Vaddr)
  | 0 => return none
  | numThrows + 1 => do
    rdlock .mbList
    let rnd ← msNextRnd
    let mb ← gets fun s => s.mbList.getD (rnd % s.mbList.length) 0
    release .mbList
    match ← mbMallocAndHold mb with
    | none => msThrow numThrows
    | some v =>
      modify (·.setMb v mb)
      return some v

/-- The end of `ms_malloc_p`, with a new block. The first malloc there never fails; a null pointer
would be written through. -/
def msGrow : Code Vaddr := do
  let mb ← modifyGet fun s => (s.mbCount, { s with mbCount := s.mbCount + 1 })
  match ← mbMallocAndHold mb with
  | none => halt
  | some v =>
    modify (·.setMb v mb)
    wrlock .mbList
    modify fun s => { s with mbList := s.mbList ++ [mb] }
    release .mbList
    return v

/-- `ms_malloc_and_hold`; `SEARCH_DIV` is 3. -/
def msMallocAndHold : Code Vaddr := do
  rdlock .mbList
  let len ← gets (·.mbList.length)
  release .mbList
  match ← msThrow (if len / 3 = 0 then 1 else len / 3) with
  | some v => return v
  | none => msGrow

/-- `ms_free`. -/
def msFree (v : Vaddr) : Code Unit := do
  adbGet v false
  let mb ← gets (·.mbOf v)
  adbUnlock v
  mbFree mb v

/-- `ms_filter` with `obj_reachable`: the objects marked unvisited are freed, the last one first. -/
def msFilter : Code Unit := do
  let removeStack ← adbForeach false
    (fun v removeStack s =>
      (if s.status v = some .unvisited then removeStack ++ [v] else removeStack, s)) []
  removeStack.reverse.foldlM (fun _ v => msFree v) ()

/-- `ms_try_full_shift`. -/
def msTryFullShift : Code Unit := do
  rdlock .mbList
  let len ← gets (·.mbList.length)
  release .mbList
  (List.range len).foldlM (fun _ i => do
    rdlock .mbList
    let mb ← gets (·.mbList.getD i 0)
    release .mbList
    mbTryFullShift mb) ()

/-! ## The collected space (`cs.c`) -/

/-- A change of the space's own data. -/
def onSpace (f : Space → Space) : Code Unit := modify fun s => { s with toSpace := f s.toSpace }

/-- `cs_malloc_p` with a hold. -/
def csMallocAndHold (rtLen : Nat) (da : List UInt8) : Code Vaddr := do
  let v ← msMallocAndHold
  onSpace fun s => s.setObj v ((s.obj v).map fun _ => ⟨.newlyAdded, List.replicate rtLen nullVaddr, da⟩)
  return v

/-- `cs_malloc_object`. -/
def csMallocObject (rtLen : Nat) (da : List UInt8) : Code Unit := do
  let v ← csMallocAndHold rtLen da
  adbUnlock v

/-- `cs_root`. -/
def csRoot (v : Vaddr) : Code Unit := do
  wrlock .rootSet
  onSpace fun s => ((s.csRoot v).map Prod.snd).getD s
  release .rootSet

/-- `cs_malloc_root`. -/
def csMallocRoot (rtLen : Nat) (da : List UInt8) : Code Unit := do
  let v ← csMallocAndHold rtLen da
  csRoot v
  adbUnlock v

/-- `cs_deroot`. -/
def csDeroot (rootId : Nat) : Code Unit := do
  wrlock .rootSet
  onSpace fun s => (s.csDeroot rootId).2
  release .rootSet

/-- `cs_get_root_vaddr`. -/
def csGetRootVaddr (rootId : Nat) : Code Vaddr := do
  rdlock .rootSet
  let res ← gets (·.csGetRootVaddr rootId)
  release .rootSet
  return res.2

/-- `cs_get_read`. -/
def csGetRead (v : Vaddr) : Code Unit := adbGet v false

/-- `cs_visit_obj`. -/
def csVisitObj (v : Vaddr) : Code Unit := do
  wrlock .inProgressStack
  onSpace fun s => { s with inProgressStack := s.inProgressStack ++ s.refs v }
  release .inProgressStack
  onSpace (·.setStatus v .visited)

/-- `cs_paint_black_in_progress`. -/
def csPaintBlackInProgress : Code Bool := do
  rdlock .gcStat
  let paintBlack ← gets (·.paintBlackInProgress)
  release .gcStat
  return paintBlack

/-- `cs_set_paint_black_in_progress`. -/
def csSetPaintBlackInProgress (ip : Bool) : Code Unit := do
  wrlock .gcStat
  onSpace ({ · with paintBlackInProgress := ip })
  release .gcStat

/-- `cs_get_write`; the test of `obj_p_h` against `GC_NEWLY_ADDED` compares a pointer that is not
null. -/
def csGetWrite (v : Vaddr) : Code Unit := do
  adbGet v true
  if (← gets (·.status v)) = some .visited then return ()
  else if ← csPaintBlackInProgress then csVisitObj v

/-- `cs_unlock`. -/
def csUnlock (v : Vaddr) : Code Unit := adbUnlock v

/-- The inner loop of `cs_collect_garbage` on the in-progress stack; the answer is
`productive_iteration`. -/
def drainInProgress (productive : Bool) : Code Bool :=
  loop (fun productive => do
    wrlock .inProgressStack
    let top ← modifyGet fun s => (s.inProgressStack.getLast?,
      { s with inProgressStack := s.inProgressStack.dropLast })
    release .inProgressStack
    match top with
    | none => return .inr productive
    | some v =>
      adbGet v true
      onSpace fun s =>
        if s.status v = some .unvisited then
          { s.setStatus v .inProgress with visitStack := s.visitStack ++ [v] }
        else s
      adbUnlock v
      return .inl true) productive

/-- The inner loop on the visit stack. -/
def drainVisit (productive : Bool) : Code Bool :=
  loop (fun productive => do
    match ← modifyGet fun s => (s.visitStack.getLast?, { s with visitStack := s.visitStack.dropLast }) with
    | none => return .inr productive
    | some v =>
      adbGet v true
      if (← gets (·.status v)) = some .inProgress then csVisitObj v
      adbUnlock v
      return .inl true) productive

/-- `while (productive_iteration)`. -/
def markLoop : Code Unit :=
  loop (fun _ => do
    let productive ← drainInProgress false
    if ← drainVisit productive then return .inl ()
    else return .inr ()) ()

/-- The roots go on the in-progress stack, under the root-set lock. -/
def pushRoots : Code Unit := do
  rdlock .rootSet
  csSetPaintBlackInProgress true
  wrlock .inProgressStack
  onSpace fun s => { s with inProgressStack := s.inProgressStack ++ s.roots }
  release .inProgressStack
  release .rootSet

/-- `cs_collect_garbage`. -/
def csCollectGarbage : Code Unit := do
  wrlock .gcStat
  if ← gets (·.gcInProgress) then release .gcStat
  else
    onSpace ({ · with gcInProgress := true })
    release .gcStat
    adbForeach true
      (fun v _ s => ((), { s with toSpace := s.toSpace.setStatus v .unvisited })) ()
    pushRoots
    markLoop
    csSetPaintBlackInProgress false
    msFilter
    wrlock .gcStat
    onSpace ({ · with gcInProgress := false })
    release .gcStat

/-! ## The worker and the mutators -/

/-- The thread of the garbage-collection worker; every other thread is a mutator. -/
def worker : Tid := 0

/-- What the threads call. `storeRef` is a mutator's own write to an object it has locked. -/
inductive Call
  | collectGarbage
  | tryFullShift
  | mallocRoot (rtLen : Nat) (da : List UInt8)
  | mallocObject (rtLen : Nat) (da : List UInt8)
  | root (v : Vaddr)
  | deroot (rootId : Nat)
  | getRootVaddr (rootId : Nat)
  | getRead (v : Vaddr)
  | getWrite (v : Vaddr)
  | unlock (v : Vaddr)
  | storeRef (v : Vaddr) (i : Nat) (w : Vaddr)
deriving DecidableEq

def body : Call → Code Unit
  | .collectGarbage => csCollectGarbage
  | .tryFullShift => msTryFullShift
  | .mallocRoot rtLen da => csMallocRoot rtLen da
  | .mallocObject rtLen da => csMallocObject rtLen da
  | .root v => csRoot v
  | .deroot rootId => csDeroot rootId
  | .getRootVaddr rootId => do
    let _ ← csGetRootVaddr rootId
    return ()
  | .getRead v => csGetRead v
  | .getWrite v => csGetWrite v
  | .unlock v => csUnlock v
  | .storeRef v i w => onSpace (·.storeRef v i w)

/-- An object that can be reached from the root set. -/
def Shared.Reachable (s : Shared) : Vaddr → Prop :=
  Via s.edge (fun v => (s.obj v).isSome = true) (· ∈ s.roots)

/-- The cell lies in one of the tables. -/
def Shared.InTables (s : Shared) (v : Vaddr) : Prop :=
  v.tableIndex < s.bookLen ∧ v.cellIndex < s.tableCap

/-- The thread holds no object lock. -/
def Unlocked (s : Threads Lck Shared) (t : Tid) : Prop :=
  ∀ i < s.data.bookLen, ∀ j < s.data.tableCap, (s.lck (.cell ⟨i, j⟩)).holds t = false

/-- The worker collects and shifts. A mutator locks one object at a time, a reachable one; with the
lock it may write to the object, and with or without it malloc, root and deroot. -/
def Allowed (s : Threads Lck Shared) (t : Tid) : Call → Prop
  | .collectGarbage | .tryFullShift => t = worker
  | .getRead v | .getWrite v => t ≠ worker ∧ Unlocked s t ∧ s.data.Reachable v
  | .unlock v => t ≠ worker ∧ (s.lck (.cell v)).holds t = true
  | .storeRef v _ _ => t ≠ worker ∧ (s.lck (.cell v)).writer = some t
  | _ => t ≠ worker

/-- A new space, with nobody in a call. -/
def start (adbTCap : Nat) : Threads Lck Shared := .new (.new adbTCap)

end Chvm.Cs.Locking
