import Chvm.Lib.Run
import Chvm.Cs.Space

/-!
# The collector and the mutators as a system of threads

One collector thread runs `cs_collect_garbage` over and over, and any number of mutator threads
call the public functions. A step is one critical section: the section under an object lock, the
root-set lock, the in-progress stack lock or the status lock. A call made of several sections is
several steps, with a program counter between them:

* the collector's counter `GcPc` follows the source, one constructor for each place between two
  sections, with the loop variables and the local `vaddr` it holds there;
* a mutator has a counter only inside `cs_get_write`, which takes the object lock and looks at the
  status, then reads the paint-black flag, then visits the object. Its other calls are one section
  each; `cs_malloc_root` is `malloc`, `root` and `unlock`, and `cs_malloc_object` is `malloc` and
  `unlock`.

A lock that is not to be had, and a vaddr whose cell is not allocated (where the code logs an
error and exits), leave the step not enabled. A `cs_collect_garbage` that finds `gc_in_progress`
set returns 0 and changes nothing, so one collector counter stands for every thread that calls it.
-/

set_option autoImplicit false

namespace Chvm.Cs

open Chvm.Lib

/-- Where `cs_collect_garbage` stands. `len`, `i` and `j` are the loop variables of `adb_foreach`:
the book length it read, the table and the cell it comes to next. `productive` is
`productive_iteration`. -/
inductive GcPc
  | idle
  | paintLen
  | paint (len i j : Nat)
  | lockRoots
  | setFlag
  | pushRoots
  | popInProgress (productive : Bool)
  | popped (vaddr : Vaddr)
  | popVisit (productive : Bool)
  | poppedVisit (vaddr : Vaddr)
  | clearFlag
  | sweepLen
  | sweep (len i j : Nat) (removeStack : List Vaddr)
  | free (removeStack : List Vaddr) (filtered : Nat)
  | finish (filtered : Nat)
deriving DecidableEq, Repr

/-- Where a mutator stands: outside the calls, or inside `cs_get_write` with the object lock, before
it reads the flag or before it visits. -/
inductive UserPc
  | idle
  | checkFlag (vaddr : Vaddr)
  | visit (vaddr : Vaddr)
deriving DecidableEq, Repr

/-- The shared space, the counters, and the vaddrs each mutator has in its own variables. -/
structure State extends Space where
  gc : GcPc
  user : Tid → UserPc
  known : Tid → List Vaddr

/-- One step: `gc` is the collector's next section, the others are a mutator's. -/
inductive Act
  | gc
  | malloc (t : Tid) (v : Vaddr) (rtLen : Nat) (da : List UInt8)
  | root (t : Tid) (v : Vaddr)
  | deroot (t : Tid) (rootId : Nat)
  | getRootVaddr (t : Tid) (rootId : Nat)
  | getRead (t : Tid) (v : Vaddr)
  | getWrite (t : Tid) (v : Vaddr)
  | readFlag (t : Tid)
  | visit (t : Tid)
  | unlock (t : Tid) (v : Vaddr)
  | loadRef (t : Tid) (v : Vaddr) (i : Nat)
  | storeRef (t : Tid) (v : Vaddr) (i : Nat) (w : Vaddr)
  | storeByte (t : Tid) (v : Vaddr) (i : Nat) (b : UInt8)
  | forget (t : Tid) (v : Vaddr)
deriving DecidableEq, Repr

namespace State

/-- A fresh space, the collector not running and every mutator outside the calls. -/
def new (adbTCap : Nat) : State where
  toSpace := Space.new adbTCap
  gc := .idle
  user := fun _ => .idle
  known := fun _ => []

def setUser (s : State) (t : Tid) (pc : UserPc) : State :=
  { s with user := Function.update s.user t pc }

/-- The mutator keeps a copy of a vaddr. -/
def learn (s : State) (t : Tid) (v : Vaddr) : State :=
  { s with known := Function.update s.known t (v :: s.known t) }

/-- `root_set_lock` is held for reading by the collector. -/
def rootSetLocked (s : State) : Bool :=
  match s.gc with
  | .setFlag | .pushRoots => true
  | _ => false

/-- The collector's next section. -/
def gcStep (s : State) : Option State :=
  match s.gc with
  | .idle =>
    if s.gcInProgress then some s
    else some { s with gcInProgress := true, gc := .paintLen }
  -- Paint White: ms_foreach with obj_unvisit, under the write lock of each cell
  | .paintLen => some { s with gc := .paint s.bookLen 0 0 }
  | .paint len i j =>
    if i < len then
      if j < s.tableCap then
        if (s.lck ⟨i, j⟩).isFree then
          some { s with toSpace := s.toSpace.setStatus ⟨i, j⟩ .unvisited, gc := .paint len i (j + 1) }
        else none
      else some { s with gc := .paint len (i + 1) 0 }
    else some { s with gc := .lockRoots }
  | .lockRoots => some { s with gc := .setFlag }
  | .setFlag => some { s with paintBlackInProgress := true, gc := .pushRoots }
  | .pushRoots =>
    some { s with inProgressStack := s.inProgressStack ++ s.roots, gc := .popInProgress false }
  -- the marking loop
  | .popInProgress productive =>
    match s.inProgressStack.getLast? with
    | none => some { s with gc := .popVisit productive }
    | some v => some { s with inProgressStack := s.inProgressStack.dropLast, gc := .popped v }
  | .popped v =>
    match s.obj v with
    | none => none
    | some o =>
      if (s.lck v).isFree then
        if o.gcStatus = .unvisited then
          some { s with
            toSpace := { s.toSpace.setStatus v .inProgress with visitStack := s.visitStack ++ [v] }
            gc := .popInProgress true }
        else some { s with gc := .popInProgress true }
      else none
  | .popVisit productive =>
    match s.visitStack.getLast? with
    | some v => some { s with visitStack := s.visitStack.dropLast, gc := .poppedVisit v }
    | none =>
      if productive then some { s with gc := .popInProgress false }
      else some { s with gc := .clearFlag }
  | .poppedVisit v =>
    match s.obj v with
    | none => none
    | some o =>
      if (s.lck v).isFree then
        if o.gcStatus = .inProgress then
          some { s with toSpace := s.toSpace.csVisitObj v, gc := .popVisit true }
        else some { s with gc := .popVisit true }
      else none
  | .clearFlag => some { s with paintBlackInProgress := false, gc := .sweepLen }
  -- the sweep: ms_filter with obj_reachable, under the read lock of each cell
  | .sweepLen => some { s with gc := .sweep s.bookLen 0 0 [] }
  | .sweep len i j removeStack =>
    if i < len then
      if j < s.tableCap then
        if (s.lck ⟨i, j⟩).canRead then
          if s.status ⟨i, j⟩ = some .unvisited then
            some { s with gc := .sweep len i (j + 1) (removeStack ++ [⟨i, j⟩]) }
          else some { s with gc := .sweep len i (j + 1) removeStack }
        else none
      else some { s with gc := .sweep len (i + 1) 0 removeStack }
    else some { s with gc := .free removeStack 0 }
  -- ms_free of the top, which waits for the write lock of its cell
  | .free removeStack filtered =>
    match removeStack.getLast? with
    | none => some { s with gc := .finish filtered }
    | some v =>
      if (s.obj v).isSome && (s.lck v).isFree then
        some { s with
          toSpace := s.toSpace.setObj v none
          gc := .free removeStack.dropLast (filtered + 1) }
      else none
  | .finish _ => some { s with gcInProgress := false, gc := .idle }

/-- A section of a mutator that stands outside the calls. -/
def userStep (s : State) : Act → Option State
  | .gc | .readFlag _ | .visit _ => none
  | .malloc t v rtLen da =>
    if v.tableIndex ≤ s.bookLen ∧ v.cellIndex < s.tableCap ∧ v ≠ nullVaddr ∧ s.obj v = none ∧
        (s.lck v).isFree then
      some (State.learn { s with
        toSpace := (s.toSpace.csMallocP v rtLen da).setLck v ((s.lck v).acqWrite t) } t v)
    else none
  | .root _ v =>
    if s.rootSetLocked then none
    else (s.toSpace.csRoot v).map fun r => { s with toSpace := r.2 }
  | .deroot _ rootId =>
    if s.rootSetLocked then none else some { s with toSpace := (s.toSpace.csDeroot rootId).2 }
  | .getRootVaddr t rootId => some (s.learn t (s.toSpace.csGetRootVaddr rootId).2)
  | .getRead t v =>
    if (s.obj v).isSome ∧ (s.lck v).canRead then
      some { s with toSpace := s.toSpace.setLck v ((s.lck v).acqRead t) }
    else none
  -- obj_p_h == GC_NEWLY_ADDED compares the pointer, never null here, and not the status
  | .getWrite t v =>
    match s.obj v with
    | none => none
    | some o =>
      if (s.lck v).isFree then
        let s' := { s with toSpace := s.toSpace.setLck v ((s.lck v).acqWrite t) }
        if o.gcStatus = .visited then some s' else some (s'.setUser t (.checkFlag v))
      else none
  | .unlock t v =>
    if (s.lck v).holds t then
      some { s with toSpace := s.toSpace.setLck v ((s.lck v).release t) }
    else none
  | .loadRef t v i =>
    match s.obj v with
    | none => none
    | some o =>
      if (s.lck v).holds t then (o.rt[i]?).map fun w => s.learn t w else none
  | .storeRef t v i w =>
    match s.obj v with
    | none => none
    | some o =>
      if (s.lck v).writer = some t ∧ i < o.rt.length then
        some { s with toSpace := s.toSpace.storeRef v i w }
      else none
  | .storeByte t v i b =>
    if (s.lck v).writer = some t then some { s with toSpace := s.toSpace.storeByte v i b } else none
  | .forget t v => some { s with known := Function.update s.known t ((s.known t).erase v) }

end State

/-- The thread a mutator's step belongs to. -/
def Act.tid : Act → Option Tid
  | .gc => none
  | .malloc t .. | .root t _ | .deroot t _ | .getRootVaddr t _ | .getRead t _ | .getWrite t _
  | .readFlag t | .visit t | .unlock t _ | .loadRef t .. | .storeRef t .. | .storeByte t ..
  | .forget t _ => some t

/-- One step of the system. Inside `cs_get_write` a mutator can only go on with it. -/
def step (s : State) (a : Act) : Option State :=
  match a, a.tid with
  | .gc, _ => s.gcStep
  | .readFlag t, _ =>
    match s.user t with
    | .checkFlag v => some (s.setUser t (if s.paintBlackInProgress then .visit v else .idle))
    | _ => none
  | .visit t, _ =>
    match s.user t with
    | .visit v => some (State.setUser { s with toSpace := s.toSpace.csVisitObj v } t .idle)
    | _ => none
  | a, some t => if s.user t = .idle then s.userStep a else none
  | _, none => none

end Chvm.Cs
