import Chvm.Lib.RwLock
import Chvm.Virt.Vaddr
import Mathlib.Logic.Function.Basic

/-!
# The collected space (`cs.c`)

The shared data of a collected space and the functions that work on it: the objects, the root set,
the two marking stacks and the collector's flags.

A cell of the address book is shown with the object at its physical address in place of the
address: the memory blocks underneath keep the bytes of distinct live vaddrs apart and unchanged
across every malloc, free and shift, so an object is a value that belongs to its vaddr. A stack
(`util_bc` used at its back end) is a list whose last element is the top. An index that may be
`UINT64_MAX` is an `Option`.
-/

set_option autoImplicit false

namespace Chvm.Cs

open Chvm.Lib

/-- `gc_status_code`. -/
inductive GcStatus
  | newlyAdded
  | unvisited
  | inProgress
  | visited
deriving DecidableEq, Repr

/-- An object: `obj_pre_header`, `obj_header`, the reference table and the data array. `rt_len` and
`da_size` are the two lengths. -/
structure Obj where
  gcStatus : GcStatus
  rt : List Vaddr
  da : List UInt8
deriving DecidableEq, Repr

/-- `addr_table_cell`: its lock, and the object at `paddr` when `allocated` is set. -/
structure Cell where
  lck : RwLock
  obj : Option Obj
deriving DecidableEq, Repr

/-- `root_set_entry`: the union holds a vaddr when `allocated` is set, else a free link. -/
inductive RootSetEntry
  | free (nextFree : Option Nat)
  | allocated (vaddr : Vaddr)
deriving DecidableEq, Repr

/-- `next_free` as the union is read: an allocated entry shows its vaddr's first word there. -/
def RootSetEntry.nextFree : RootSetEntry → Option Nat
  | .free n => n
  | .allocated v => if v.tableIndex = uint64Max then none else some v.tableIndex

def RootSetEntry.vaddr? : RootSetEntry → Option Vaddr
  | .free _ => none
  | .allocated v => some v

/-- What the threads share: `collected_space_struct` with the cells of its address book. -/
structure Space where
  cells : Vaddr → Cell
  bookLen : Nat
  tableCap : Nat
  rootSet : List RootSetEntry
  freeHead : Option Nat
  gcInProgress : Bool
  paintBlackInProgress : Bool
  inProgressStack : List Vaddr
  visitStack : List Vaddr

namespace Space

/-- `new_collected_space_seed`: no tables yet, one free root-set entry. -/
def new (adbTCap : Nat) : Space where
  cells := fun _ => ⟨{}, none⟩
  bookLen := 0
  tableCap := adbTCap
  rootSet := [.free none]
  freeHead := some 0
  gcInProgress := false
  paintBlackInProgress := false
  inProgressStack := []
  visitStack := []

/-- The object at a vaddr, `none` when the cell is not allocated. -/
def obj (s : Space) (v : Vaddr) : Option Obj := (s.cells v).obj

/-- The cell's lock. -/
def lck (s : Space) (v : Vaddr) : RwLock := (s.cells v).lck

def status (s : Space) (v : Vaddr) : Option GcStatus := (s.obj v).map Obj.gcStatus

def setObj (s : Space) (v : Vaddr) (o : Option Obj) : Space :=
  { s with cells := Function.update s.cells v { s.cells v with obj := o } }

def setLck (s : Space) (v : Vaddr) (l : RwLock) : Space :=
  { s with cells := Function.update s.cells v { s.cells v with lck := l } }

/-- Write `gc_status` of the object at `v`; nothing is there to write when `v` is free. -/
def setStatus (s : Space) (v : Vaddr) (st : GcStatus) : Space :=
  s.setObj v ((s.obj v).map fun o => { o with gcStatus := st })

/-- The vaddrs in the allocated root-set entries, in order. -/
def roots (s : Space) : List Vaddr := s.rootSet.filterMap RootSetEntry.vaddr?

/-! ## The root set -/

/-- The growth step of `cs_root`: twice the entries, the new ones chained, the last link empty. -/
def growRootSet (s : Space) : Space :=
  let cap := s.rootSet.length
  { s with
    freeHead := some cap
    rootSet := s.rootSet ++ (List.range cap).map fun i =>
      .free (if i + 1 < cap then some (cap + i + 1) else none) }

/-- `cs_root`; `none` is a free list that leaves the array. -/
def csRoot (s : Space) (v : Vaddr) : Option (Nat × Space) :=
  let s := if s.freeHead.isNone then s.growRootSet else s
  match s.freeHead with
  | none => none
  | some rootInd =>
    match s.rootSet[rootInd]? with
    | none => none
    | some entry =>
      some (rootInd, { s with freeHead := entry.nextFree, rootSet := s.rootSet.set rootInd (.allocated v) })

/-- `cs_root_status_code`. -/
inductive RootStatusCode
  | success
  | rootIdOutOfBounds
  | rootIdNotAllocated
deriving DecidableEq, Repr

/-- `cs_deroot`. -/
def csDeroot (s : Space) (rootId : Nat) : RootStatusCode × Space :=
  match s.rootSet[rootId]? with
  | none => (.rootIdOutOfBounds, s)
  | some (.free _) => (.rootIdNotAllocated, s)
  | some (.allocated _) =>
    (.success, { s with rootSet := s.rootSet.set rootId (.free s.freeHead), freeHead := some rootId })

/-- `cs_get_root_vaddr`. -/
def csGetRootVaddr (s : Space) (rootId : Nat) : RootStatusCode × Vaddr :=
  match s.rootSet[rootId]? with
  | none => (.rootIdOutOfBounds, nullVaddr)
  | some (.free _) => (.rootIdNotAllocated, nullVaddr)
  | some (.allocated v) => (.success, v)

/-! ## Objects -/

/-- `cs_malloc_p` as the space sees it: the piece gets a free cell `v` (its table is new when the
book had no room), and the object is set up before anybody else can have its lock. The data array
is not initialised: `da` is what the memory held. -/
def csMallocP (s : Space) (v : Vaddr) (rtLen : Nat) (da : List UInt8) : Space :=
  { s.setObj v (some ⟨.newlyAdded, List.replicate rtLen nullVaddr, da⟩) with
    bookLen := max s.bookLen (v.tableIndex + 1) }

/-- The references of `v` that are not null, in table order. -/
def refs (s : Space) (v : Vaddr) : List Vaddr :=
  match s.obj v with
  | none => []
  | some o => o.rt.filter fun w => !nullAdbAddr w

/-- `cs_visit_obj`: push the references that are not null, then mark the object. -/
def csVisitObj (s : Space) (v : Vaddr) : Space :=
  { s.setStatus v .visited with inProgressStack := s.inProgressStack ++ s.refs v }

/-- Write one entry of the reference table of `v`. -/
def storeRef (s : Space) (v : Vaddr) (i : Nat) (w : Vaddr) : Space :=
  s.setObj v ((s.obj v).map fun o => { o with rt := o.rt.set i w })

/-- Write one byte of the data array of `v`. -/
def storeByte (s : Space) (v : Vaddr) (i : Nat) (b : UInt8) : Space :=
  s.setObj v ((s.obj v).map fun o => { o with da := o.da.set i b })

/-! ## What the functions change -/

@[simp] theorem obj_setObj (s : Space) (v : Vaddr) (o : Option Obj) (w : Vaddr) :
    (s.setObj v o).obj w = if w = v then o else s.obj w := by
  by_cases h : w = v <;> simp [obj, setObj, h]

@[simp] theorem lck_setObj (s : Space) (v : Vaddr) (o : Option Obj) (w : Vaddr) :
    (s.setObj v o).lck w = s.lck w := by
  by_cases h : w = v <;> simp [lck, setObj, h]

@[simp] theorem obj_setLck (s : Space) (v : Vaddr) (l : RwLock) (w : Vaddr) :
    (s.setLck v l).obj w = s.obj w := by
  by_cases h : w = v <;> simp [obj, setLck, h]

@[simp] theorem lck_setLck (s : Space) (v : Vaddr) (l : RwLock) (w : Vaddr) :
    (s.setLck v l).lck w = if w = v then l else s.lck w := by
  by_cases h : w = v <;> simp [lck, setLck, h]

@[simp] theorem obj_setStatus (s : Space) (v : Vaddr) (st : GcStatus) (w : Vaddr) :
    (s.setStatus v st).obj w =
      if w = v then (s.obj v).map fun o => { o with gcStatus := st } else s.obj w := by
  simp only [setStatus, obj_setObj]

@[simp] theorem lck_setStatus (s : Space) (v : Vaddr) (st : GcStatus) (w : Vaddr) :
    (s.setStatus v st).lck w = s.lck w := by
  simp only [setStatus, lck_setObj]

@[simp] theorem obj_csVisitObj (s : Space) (v w : Vaddr) :
    (s.csVisitObj v).obj w =
      if w = v then (s.obj v).map fun o => { o with gcStatus := .visited } else s.obj w :=
  obj_setStatus s v .visited w

@[simp] theorem lck_csVisitObj (s : Space) (v w : Vaddr) : (s.csVisitObj v).lck w = s.lck w :=
  lck_setStatus s v .visited w

@[simp] theorem obj_csMallocP (s : Space) (v : Vaddr) (n : Nat) (da : List UInt8) (w : Vaddr) :
    (s.csMallocP v n da).obj w =
      if w = v then some ⟨.newlyAdded, List.replicate n nullVaddr, da⟩ else s.obj w :=
  obj_setObj s v _ w

@[simp] theorem lck_csMallocP (s : Space) (v : Vaddr) (n : Nat) (da : List UInt8) (w : Vaddr) :
    (s.csMallocP v n da).lck w = s.lck w :=
  lck_setObj s v _ w

@[simp] theorem obj_storeRef (s : Space) (v : Vaddr) (i : Nat) (x w : Vaddr) :
    (s.storeRef v i x).obj w =
      if w = v then (s.obj v).map fun o => { o with rt := o.rt.set i x } else s.obj w := by
  simp only [storeRef, obj_setObj]

@[simp] theorem lck_storeRef (s : Space) (v : Vaddr) (i : Nat) (x w : Vaddr) :
    (s.storeRef v i x).lck w = s.lck w := by
  simp only [storeRef, lck_setObj]

@[simp] theorem obj_storeByte (s : Space) (v : Vaddr) (i : Nat) (b : UInt8) (w : Vaddr) :
    (s.storeByte v i b).obj w =
      if w = v then (s.obj v).map fun o => { o with da := o.da.set i b } else s.obj w := by
  simp only [storeByte, obj_setObj]

@[simp] theorem lck_storeByte (s : Space) (v : Vaddr) (i : Nat) (b : UInt8) (w : Vaddr) :
    (s.storeByte v i b).lck w = s.lck w := by
  simp only [storeByte, lck_setObj]

/-- What `cs_root` leaves alone. -/
structure SameObjects (s s' : Space) : Prop where
  cells : s'.cells = s.cells
  bookLen : s'.bookLen = s.bookLen
  tableCap : s'.tableCap = s.tableCap
  gcInProgress : s'.gcInProgress = s.gcInProgress
  paintBlackInProgress : s'.paintBlackInProgress = s.paintBlackInProgress
  inProgressStack : s'.inProgressStack = s.inProgressStack
  visitStack : s'.visitStack = s.visitStack

/-- `cs_root` allocates one entry, behind a growth by free ones when the free list is empty. -/
theorem csRoot_eq_some {s sp : Space} {v : Vaddr} {id : Nat} (h : s.csRoot v = some (id, sp)) :
    ∃ grown head,
      sp = { s with rootSet := (s.rootSet ++ grown).set id (.allocated v), freeHead := head } ∧
        (∀ w, RootSetEntry.allocated w ∉ grown) ∧
        grown.length = if s.freeHead.isNone then s.rootSet.length else 0 := by
  simp only [csRoot] at h
  split at h
  · cases h
  · split at h
    · cases h
    next entry hentry =>
      cases h
      split
      · refine ⟨_, _, rfl, fun w hw => ?_, by rw [List.length_map, List.length_range]⟩
        obtain ⟨i, -, hi⟩ := List.mem_map.mp hw
        cases hi
      · refine ⟨[], entry.nextFree, ?_, nofun, rfl⟩
        rw [List.append_nil]

theorem csRoot_sameObjects {s sp : Space} {v : Vaddr} {id : Nat} (h : s.csRoot v = some (id, sp)) :
    SameObjects s sp := by
  obtain ⟨grown, head, rfl, -⟩ := csRoot_eq_some h
  exact ⟨rfl, rfl, rfl, rfl, rfl, rfl, rfl⟩

theorem csDeroot_sameObjects (s : Space) (id : Nat) : SameObjects s (s.csDeroot id).2 := by
  unfold csDeroot
  split <;> exact ⟨rfl, rfl, rfl, rfl, rfl, rfl, rfl⟩

/-- Rooting gives the root set no vaddr but the one that is rooted. -/
theorem roots_csRoot {s sp : Space} {v w : Vaddr} {id : Nat} (h : s.csRoot v = some (id, sp))
    (hw : RootSetEntry.allocated w ∈ sp.rootSet) : w = v ∨ RootSetEntry.allocated w ∈ s.rootSet := by
  obtain ⟨grown, head, rfl, hfree, -⟩ := csRoot_eq_some h
  rcases List.mem_or_eq_of_mem_set hw with hw | hw
  · exact .inr ((List.mem_append.mp hw).resolve_right (hfree w))
  · exact .inl (RootSetEntry.allocated.inj hw)

theorem roots_csDeroot {s : Space} {id : Nat} {w : Vaddr}
    (hw : RootSetEntry.allocated w ∈ (s.csDeroot id).2.rootSet) :
    RootSetEntry.allocated w ∈ s.rootSet := by
  unfold csDeroot at hw
  split at hw
  · exact hw
  · exact hw
  · exact (List.mem_or_eq_of_mem_set hw).resolve_right (fun h => nomatch h)

theorem csGetRootVaddr_mem {s : Space} {id : Nat} (h : (s.csGetRootVaddr id).2 ≠ nullVaddr) :
    RootSetEntry.allocated (s.csGetRootVaddr id).2 ∈ s.rootSet := by
  unfold csGetRootVaddr at h ⊢
  split
  · simp_all
  · simp_all
  · rename_i v hv
    exact List.mem_of_getElem? hv

@[simp] theorem status_setLck (s : Space) (v : Vaddr) (l : RwLock) (w : Vaddr) :
    (s.setLck v l).status w = s.status w := by
  simp only [status, obj_setLck]

@[simp] theorem status_setStatus (s : Space) (v : Vaddr) (st : GcStatus) (w : Vaddr) :
    (s.setStatus v st).status w =
      if w = v then (s.status v).map fun _ => st else s.status w := by
  simp only [status, obj_setStatus]
  split <;> simp only [Option.map_map, Function.comp_def]

@[simp] theorem status_csVisitObj (s : Space) (v w : Vaddr) :
    (s.csVisitObj v).status w =
      if w = v then (s.status v).map fun _ => .visited else s.status w :=
  status_setStatus s v .visited w

theorem status_eq_some {s : Space} {v : Vaddr} {st : GcStatus} :
    s.status v = some st ↔ ∃ o, s.obj v = some o ∧ o.gcStatus = st := by
  simp only [status, Option.map_eq_some_iff]

theorem status_eq_none {s : Space} {v : Vaddr} : s.status v = none ↔ s.obj v = none := by
  simp only [status, Option.map_eq_none_iff]

theorem mem_roots {s : Space} {v : Vaddr} : v ∈ s.roots ↔ .allocated v ∈ s.rootSet := by
  simp only [roots, List.mem_filterMap]
  constructor
  · rintro ⟨e, he, hv⟩
    cases e with
    | free => cases hv
    | allocated w =>
      cases hv
      exact he
  · exact fun h => ⟨_, h, rfl⟩

end Space

end Chvm.Cs
