import Chvm.Cs.Layout
import Chvm.Cs.Machine
import Chvm.Ms.Store

/-!
# The collected space on bytes

The system of threads of `cs.c` once more, on a memory space: an object is the bytes of its piece, behind
the pointer that `ms_get_read`, `ms_get_write` or `ms_foreach` gives, a reference is sixteen of them and a
status four. Each section does the loads and stores of the source. A section that works on no object is
the one of the machine of objects.
-/

set_option autoImplicit false

namespace Chvm.Cs.Raw

open Chvm.Lib Chvm.Virt Chvm.Mb Chvm.Ms

/-! ## Loads -/

/-- The word of `n` bytes at an address. -/
def loadWord (ms : MemSpace) (a n : Nat) : Option Nat := (window ms.getByte a n).map ofLe

/-- The `addr_book_vaddr` at an address. -/
def loadRef (ms : MemSpace) (a : Nat) : Option Vaddr :=
    (window ms.getByte a addrBookVaddrSize).map ofVaddrBytes

/-- `gc_status` of the object at `objPH`. -/
def loadStatus (ms : MemSpace) (objPH : Nat) : Option Nat := loadWord ms objPH objPreHeaderSize

/-- `rt_len` of the object at `objPH`. -/
def loadRtLen (ms : MemSpace) (objPH : Nat) : Option Nat := loadWord ms (objPH + objPreHeaderSize) 8

def storeStatus (ms : MemSpace) (objPH : Nat) (st : GcStatus) : Option MemSpace :=
  storeBytes ms objPH (le objPreHeaderSize st.code)

/-- Where the reference `rt[i]` of the object at `objPH` is. -/
def refAddr (objPH i : Nat) : Nat := objPH + rtOffset + i * addrBookVaddrSize

/-! ## The functions on an object -/

/-- `obj_unvisit`. -/
def objUnvisit (ms : MemSpace) (objPH : Nat) : Option MemSpace := storeStatus ms objPH .unvisited

/-- `obj_reachable`. -/
def objReachable (ms : MemSpace) (objPH : Nat) : Option Bool :=
  (loadStatus ms objPH).map (· ≠ GcStatus.unvisited.code)

/-- `cs_visit_obj`, with the in-progress stack that it pushes on. -/
def csVisitObj (ms : MemSpace) (inProgressStack : List Vaddr) (objPH : Nat) : Option
    (List Vaddr × MemSpace) := do
  let rtLen ← loadRtLen ms objPH
  let stack ← (List.range rtLen).foldlM (fun stack refI => do
    let ref ← loadRef ms (refAddr objPH refI)
    return if nullAdbAddr ref then stack else stack ++ [ref]) inProgressStack
  let ms ← storeStatus ms objPH .visited
  return (stack, ms)

/-- The transfer of the marking loop from the in-progress stack to the visit stack. -/
def markInProgress (ms : MemSpace) (objPH : Nat) : Option (Bool × MemSpace) := do
  let st ← loadStatus ms objPH
  if st = GcStatus.unvisited.code then
    let ms ← storeStatus ms objPH .inProgress
    return (true, ms)
  return (false, ms)

/-- The visit of the marking loop. -/
def visitInProgress (inProgressStack : List Vaddr) (ms : MemSpace) (objPH : Nat) :
    Option (List Vaddr × MemSpace) := do
  let st ← loadStatus ms objPH
  if st = GcStatus.inProgress.code then csVisitObj ms inProgressStack objPH
  else return (inProgressStack, ms)

/-! ## The threads -/

/-- The pointer that a thread got with a lock that it has not given back. -/
def pointer (s : MsSys) (t : Tid) (v : Vaddr) : Option Nat :=
  (s.grants.find? (isGrant t v)).map (·.paddr + mallocHeaderSize)

/-- `ms_get_write`, a section on the object, `ms_unlock`. -/
def withWrite {α : Type} (s : MsSys) (t : Tid) (v : Vaddr) (f : MemSpace → Nat → Option (α × MemSpace)) :
    Option (α × MsSys) := do
  let s ← msStep s (.getWrite t v)
  let objPH ← pointer s t v
  let (a, ms) ← f s.ms objPH
  let s ← msStep { s with ms := ms } (.unlock t v)
  return (a, s)

/-- The memory space with the pointers the threads hold, and what `cs.c` keeps outside of it: in `ctl` the
counters, the stacks, the root set and the flags. Its cells are not read, `State.shown` has those of `sys`. -/
structure State where
  sys : MsSys
  ctl : Cs.State

/-- What the users see of a cell of the memory space. -/
def cellOf : Option StoreCell → Cell
  | none => ⟨{}, none⟩
  | some c => ⟨c.lck, some (Obj.decode c.bytes)⟩

/-- The state in terms of objects. -/
def State.shown (s : State) : Cs.State :=
  { s.ctl with
    cells := fun v => cellOf (s.sys.store v)
    bookLen := s.sys.ms.adb.book.length
    tableCap := s.sys.ms.adb.tableCap }

/-- A section that is on no object. -/
def State.control (s : State) (a : Cs.Act) : Option State :=
  (Cs.step s.shown a).map fun ctl => { s with ctl := ctl }

inductive Act
  /-- The thread that runs the collector. -/
  | gc (t : Tid)
  /-- `addr` and `mem` are the buffer of the new block, should the call make one. -/
  | malloc (t : Tid) (rtLen daSize addr : Nat) (mem : Mem)
  | root (t : Tid) (v : Vaddr)
  | deroot (t : Tid) (rootId : Nat)
  | getRootVaddr (t : Tid) (rootId : Nat)
  | getRead (t : Tid) (v : Vaddr)
  | getWrite (t : Tid) (v : Vaddr)
  | readFlag (t : Tid)
  | visit (t : Tid)
  | unlock (t : Tid) (v : Vaddr)
  | loadRef (t : Tid) (v : Vaddr) (i : Nat)
  | storeRef (t : Tid) (v : Vaddr) (i : Nat) (w : Vaddr)
  | storeByte (t : Tid) (v : Vaddr) (i : Nat) (b : UInt8)
  | forget (t : Tid) (v : Vaddr)
  /-- `cs_try_full_shift`, by a mutator or between two collections of a worker. -/
  | tryFullShift (t : Tid) (fuel : Nat)

/-- The collector's next section. The cell of a walk is locked as `adt_foreach` does it, whether it is
allocated or not. -/
def State.gcStep (s : State) (t : Tid) : Option State :=
  match s.ctl.gc with
  | .paint len i j =>
    if i < len ∧ j < s.sys.ms.adb.tableCap then
      match s.sys.ms.adb.cell ⟨i, j⟩ with
      | none => none
      | some c =>
        if c.lck.isFree then
          (if c.allocated then objUnvisit s.sys.ms
            (c.paddr + mallocHeaderSize) else some s.sys.ms).map fun ms =>
            { sys := { s.sys with ms := ms }, ctl := { s.ctl with gc := .paint len i (j + 1) } }
        else none
    else s.control .gc
  | .popped v => do
    let (marked, sys) ← withWrite s.sys t v markInProgress
    return {
      sys := sys
      ctl := { s.ctl with
        visitStack := if marked then s.ctl.visitStack ++ [v] else s.ctl.visitStack
        gc := .popInProgress true } }
  | .poppedVisit v => do
    let (stack, sys) ← withWrite s.sys t v (visitInProgress s.ctl.inProgressStack)
    return { sys := sys, ctl := { s.ctl with inProgressStack := stack, gc := .popVisit true } }
  | .sweep len i j removeStack =>
    if i < len ∧ j < s.sys.ms.adb.tableCap then
      match s.sys.ms.adb.cell ⟨i, j⟩ with
      | none => none
      | some c =>
        if c.lck.canRead then
          (if c.allocated then objReachable s.sys.ms
            (c.paddr + mallocHeaderSize) else some true).map fun keep =>
            { s with ctl := { s.ctl with
              gc := .sweep len i (j + 1) (if keep then removeStack else removeStack ++ [⟨i, j⟩]) } }
        else none
    else s.control .gc
  | .free removeStack filtered =>
    match removeStack.getLast? with
    | none => s.control .gc
    | some v => (msStep s.sys (.free t v)).map fun sys =>
        { sys := sys, ctl := { s.ctl with gc := .free removeStack.dropLast (filtered + 1) } }
  | _ => s.control .gc

/-- A section of a mutator that stands outside the calls. The user's own loads and stores are through the
pointer that it got, at the places that `obj_h_to_index` gives. -/
def State.userStep (s : State) : Act → Option State
  | .malloc t rtLen daSize addr mem =>
    (csMallocP s.sys.ms t rtLen daSize true addr mem).map fun (res, ms) =>
      { sys := s.sys.malloced ms t (objBytes rtLen daSize) res, ctl := s.ctl.learn t res.vaddr }
  | .getRead t v => (msStep s.sys (.getRead t v)).map fun sys => { s with sys := sys }
  | .getWrite t v => do
    let sys ← msStep s.sys (.getWrite t v)
    let objPH ← pointer sys t v
    let st ← loadStatus sys.ms objPH
    -- the second test compares the pointer
    if st = GcStatus.visited.code ∨ objPH = GcStatus.newlyAdded.code then return { s with sys := sys }
    return { sys := sys, ctl := s.ctl.setUser t (.checkFlag v) }
  | .unlock t v => (msStep s.sys (.unlock t v)).map fun sys => { s with sys := sys }
  | .loadRef t v i => do
    let objPH ← pointer s.sys t v
    let rtLen ← loadRtLen s.sys.ms objPH
    if i < rtLen then
      let w ← loadRef s.sys.ms (refAddr objPH i)
      return { s with ctl := s.ctl.learn t w }
    none
  | .storeRef t v i w => do
    let objPH ← pointer s.sys t v
    let c ← s.sys.ms.adb.cell v
    let rtLen ← loadRtLen s.sys.ms objPH
    if c.lck.writer = some t ∧ i < rtLen then
      let ms ← storeBytes s.sys.ms (refAddr objPH i) (vaddrBytes w)
      return { s with sys := { s.sys with ms := ms } }
    none
  | .storeByte t v i b => do
    let objPH ← pointer s.sys t v
    let c ← s.sys.ms.adb.cell v
    let rtLen ← loadRtLen s.sys.ms objPH
    let daSize ← loadWord s.sys.ms (objPH + (objPreHeaderSize + 8)) 8
    if c.lck.writer = some t ∧ i < daSize then
      let ms ← s.sys.ms.setByte (refAddr objPH rtLen + i) b
      return { s with sys := { s.sys with ms := ms } }
    none
  | .root t v => s.control (.root t v)
  | .deroot t rootId => s.control (.deroot t rootId)
  | .getRootVaddr t rootId => s.control (.getRootVaddr t rootId)
  | .forget t v => s.control (.forget t v)
  | .tryFullShift t fuel => (msStep s.sys (.tryFullShift t fuel)).map fun sys => { s with sys := sys }
  | .gc _ | .readFlag _ | .visit _ => none

/-- The thread a step belongs to; the collector and a shift have no counter of a mutator. -/
def Act.tid : Act → Option Tid
  | .gc _ | .tryFullShift .. => none
  | .malloc t .. | .root t _ | .deroot t _ | .getRootVaddr t _ | .getRead t _ | .getWrite t _
  | .readFlag t | .visit t | .unlock t _ | .loadRef t .. | .storeRef t .. | .storeByte t ..
  | .forget t _ => some t

/-- One step of the system. -/
def step (s : State) (a : Act) : Option State :=
  match a with
  | .gc t => s.gcStep t
  | .readFlag t => s.control (.readFlag t)
  | .visit t =>
    match s.ctl.user t with
    | .visit v => do
      let objPH ← pointer s.sys t v
      let (stack, ms) ← csVisitObj s.sys.ms s.ctl.inProgressStack objPH
      return {
        sys := { s.sys with ms := ms }
        ctl := State.setUser { s.ctl with inProgressStack := stack } t .idle }
    | _ => none
  | a => if a.tid.all fun t => s.ctl.user t = .idle then s.userStep a else none

/-- A new collected space. -/
def State.new (ms : MemSpace) : State where
  sys := MsSys.new ms
  ctl := Cs.State.new ms.adb.tableCap

/-- The sizes of a new object add up to a word, its header's and its block's included, and a reference
that is stored is two words. -/
def Allowed : Act → Prop
  | .malloc _ rtLen daSize .. => totalSize rtLen daSize < 2 ^ 64
  | .storeRef _ _ _ w => Word w
  | _ => True

/-- The steps of the machine of objects that a step may be. -/
def isStep : Act → List Cs.Act → Prop
  | .gc _, acts => acts = [.gc]
  | .malloc t rtLen daSize _ _, acts => ∃ v da, da.length = daSize ∧ acts = [.malloc t v rtLen da]
  | .root t v, acts => acts = [.root t v]
  | .deroot t rootId, acts => acts = [.deroot t rootId]
  | .getRootVaddr t rootId, acts => acts = [.getRootVaddr t rootId]
  | .getRead t v, acts => acts = [.getRead t v]
  | .getWrite t v, acts => acts = [.getWrite t v]
  | .readFlag t, acts => acts = [.readFlag t]
  | .visit t, acts => acts = [.visit t]
  | .unlock t v, acts => acts = [.unlock t v]
  | .loadRef t v i, acts => acts = [.loadRef t v i]
  | .storeRef t v i w, acts => acts = [.storeRef t v i w]
  | .storeByte t v i b, acts => acts = [.storeByte t v i b]
  | .forget t v, acts => acts = [.forget t v]
  | .tryFullShift .., acts => acts = []

end Chvm.Cs.Raw
