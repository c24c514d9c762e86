import Chvm.Cs.Marking
import Chvm.Cs.Sections

/-!
# The system on bytes is the system of objects

Each step of the threads on the bytes of a memory space is the step of the machine of objects that has its
name; a shift of the memory is none. So the laws of the collector hold of the bytes, whatever blocks and
seeds the space has and wherever the shifts move the objects.
-/

set_option autoImplicit false

namespace Chvm.Cs

open Chvm.Lib

/-! ## One cell of the machine of objects -/

section Cells

variable {s m : State} {v : Vaddr} {l : RwLock} {x : Option Obj}

theorem setObj_eq (h : s.cells v = ⟨l, x⟩) (y : Option Obj) :
    s.toSpace.setObj v y = { s.toSpace with cells := Function.update s.cells v ⟨l, y⟩ } := by
  unfold Space.setObj
  rw [h]

theorem setLck_eq (h : s.cells v = ⟨l, x⟩) (l' : RwLock) :
    s.toSpace.setLck v l' = { s.toSpace with cells := Function.update s.cells v ⟨l', x⟩ } := by
  unfold Space.setLck
  rw [h]

theorem csMallocP_eq (rtLen : Nat) (da : List UInt8) (l' : RwLock) :
    (s.toSpace.csMallocP v rtLen da).setLck v l' = { s.toSpace with
      cells := Function.update s.cells v ⟨l', some (newObj rtLen da)⟩
      bookLen := max s.bookLen (v.tableIndex + 1) } := by
  unfold Space.csMallocP Space.setLck Space.setObj
  simp only [Function.update_self, Function.update_idem]
  rfl

theorem obj_eq (h : s.cells v = ⟨l, x⟩) : s.obj v = x := congrArg Cell.obj h

theorem lck_eq (h : s.cells v = ⟨l, x⟩) : s.lck v = l := congrArg Cell.lck h

/-- The collector's next section is on a cell. -/
def onCell (tableCap : Nat) : GcPc → Prop
  | .paint len i j | .sweep len i j _ => i < len ∧ j < tableCap
  | .popped _ | .poppedVisit _ => True
  | .free removeStack _ => removeStack ≠ []
  | _ => False

/-- A section that is on no cell leaves the cells and their number. -/
structure SameCells (s m : State) : Prop where
  cells : m.cells = s.cells
  bookLen : m.bookLen = s.bookLen
  tableCap : m.tableCap = s.tableCap

theorem GcMove.sameCells (h : GcMove s m) (hnot : ¬onCell s.tableCap s.gc) : SameCells s m := by
  cases h with
  | paintCell hpc hi hj =>
    rw [hpc] at hnot
    exact absurd ⟨hi, hj⟩ hnot
  | grey hpc | visit hpc =>
    rw [hpc] at hnot
    exact absurd trivial hnot
  | free hpc =>
    rw [hpc] at hnot
    exact absurd (List.append_ne_nil_of_right_ne_nil _ (List.cons_ne_nil _ _)) hnot
  | _ => exact ⟨rfl, rfl, rfl⟩

/-- A mutator outside the calls. -/
theorem step_user {a : Act} {t : Tid} (htid : a.tid = some t) (hidle : s.user t = .idle) :
    step s a = s.userStep a := by
  cases a with
  | gc => cases htid
  | readFlag u | visit u =>
    cases htid
    simp only [step, hidle, State.userStep]
  | _ =>
    cases htid
    exact if_pos hidle

end Cells

namespace Raw

open Chvm.Virt Chvm.Mb Chvm.Ms

variable {s s' : State} {v : Vaddr} {c : AddrTableCell} {o : Obj} {t : Tid} {lck : RwLock} {sys' : MsSys}

/-! ## What is shown -/

theorem At.cells (h : At s.sys v c o) : s.shown.cells v = ⟨c.lck, some o⟩ := by
  show cellOf (s.sys.store v) = _
  rw [h.store, cellOf, Obj.decode_encode h.fits]

theorem cells_of_none (h : s.sys.ms.adb.entry v = none) : s.shown.cells v = ⟨{}, none⟩ := by
  show cellOf (s.sys.store v) = _
  rw [store_eq_none.mpr h, cellOf]

/-- An object that is shown has bytes. -/
theorem exists_at (h : Inv s.sys) (hobj : s.shown.obj v = some o) : ∃ c, At s.sys v c o := by
  cases hc : s.sys.ms.adb.entry v with
  | none =>
    rw [obj_eq (cells_of_none hc)] at hobj
    cases hobj
  | some c =>
    obtain ⟨o', hat⟩ := h.at hc
    rw [obj_eq hat.cells] at hobj
    cases hobj
    exact ⟨c, hat⟩

/-- One vaddr has changed. -/
theorem shown_update {x : Option StoreCell} (ctl : Cs.State)
    (hstore : sys'.store = Function.update s.sys.store v x) :
    State.shown ⟨sys', ctl⟩ = { ctl with
      cells := Function.update s.shown.cells v (cellOf x)
      bookLen := sys'.ms.adb.book.length
      tableCap := sys'.ms.adb.tableCap } := by
  have hcells : cellOf ∘ sys'.store = Function.update s.shown.cells v (cellOf x) := by
    rw [hstore, Function.comp_update]
    rfl
  rw [← hcells]
  rfl

theorem Changed.shown (h : Changed s.sys sys' v lck o) (ctl : Cs.State) :
    State.shown ⟨sys', ctl⟩ = { ctl with
      cells := Function.update s.shown.cells v ⟨lck, some o⟩
      bookLen := s.shown.bookLen
      tableCap := s.shown.tableCap } := by
  rw [shown_update ctl h.store, cellOf, Obj.decode_encode h.fits, h.size.1, h.size.2]
  rfl

theorem control_shown {act : Cs.Act} (hsame : ∀ m, Cs.step s.shown act = some m → SameCells s.shown m)
    (h : s.control act = some s') : s'.sys = s.sys ∧ Cs.step s.shown act = some s'.shown := by
  obtain ⟨m, hm, rfl⟩ := Option.map_eq_some_iff.mp h
  refine ⟨rfl, hm.trans (congrArg some ?_)⟩
  obtain ⟨hcells, hbook, hcap⟩ := hsame m hm
  show m = { m with cells := s.shown.cells, bookLen := s.shown.bookLen, tableCap := s.shown.tableCap }
  rw [← hcells, ← hbook, ← hcap]

theorem Emptied.shown (h : Emptied s.sys sys' v) (ctl : Cs.State) :
    State.shown ⟨sys', ctl⟩ = { ctl with
      cells := Function.update s.shown.cells v ⟨{}, none⟩
      bookLen := s.shown.bookLen
      tableCap := s.shown.tableCap } := by
  rw [shown_update ctl h.store, cellOf, h.size.1, h.size.2]
  rfl

/-! ## The collector -/

variable {len i j filtered : Nat} {removeStack : List Vaddr}

theorem gcStep_control (hnot : ¬onCell s.sys.ms.adb.tableCap s.ctl.gc) : s.gcStep t = s.control .gc := by
  unfold State.gcStep
  generalize s.ctl.gc = pc at hnot
  cases pc with
  | paint len i j | sweep len i j removeStack => exact if_neg hnot
  | popped v | poppedVisit v => exact absurd trivial hnot
  | free removeStack filtered =>
    obtain rfl : removeStack = [] := not_not.mp hnot
    rfl
  | _ => rfl

/-- A free cell is painted in no way. -/
theorem setStatus_none (hobj : s.shown.obj v = none) (st : GcStatus) :
    s.shown.toSpace.setStatus v st = s.shown.toSpace := by
  unfold Space.setStatus Space.setObj
  rw [hobj, Option.map_none, ← hobj, show { s.shown.cells v with obj := s.shown.obj v } =
    s.shown.cells v from rfl,
    Function.update_eq_self]

theorem paint_refines (h : Inv s.sys) (hpc : s.ctl.gc = .paint len i j) (hi : i < len)
    (hj : j < s.sys.ms.adb.tableCap) (hstep : s.gcStep t = some s') :
    Inv s'.sys ∧ Cs.step s.shown .gc = some s'.shown := by
  have hpc' : s.shown.gc = .paint len i j := hpc
  have hpaint : (s.shown.lck ⟨i, j⟩).isFree = true → Cs.step s.shown .gc = some { s.shown with
      toSpace := s.shown.toSpace.setStatus ⟨i, j⟩ .unvisited, gc := .paint len i (j + 1) } := fun hlck => by
    show s.shown.gcStep = _
    simp only [Cs.State.gcStep, hpc']
    rw [if_pos hi, if_pos (show j < s.shown.tableCap from hj), if_pos hlck]
  simp only [State.gcStep, hpc, if_pos (And.intro hi hj)] at hstep
  split at hstep
  · cases hstep
  next c hcell =>
    split at hstep
    next hlck =>
      obtain ⟨ms', hunvisit, rfl⟩ := Option.map_eq_some_iff.mp hstep
      cases hallocated : c.allocated with
      | true =>
        rw [if_pos hallocated] at hunvisit
        have hentry := AddrBook.entry_eq_some.mpr ⟨hcell, hallocated⟩
        obtain ⟨o, hat⟩ := h.at hentry
        obtain ⟨ms₁, hset, hre⟩ := hat.storeStatus h.sound .unvisited
        cases hset.symm.trans hunvisit
        have hchanged := hre.changed (hat.fits.mark .unvisited)
        refine ⟨hchanged.inv h, ?_⟩
        rw [hpaint (by rw [lck_eq hat.cells]; exact hlck), hchanged.shown, Space.setStatus, obj_eq hat.cells,
          setObj_eq hat.cells]
        rfl
      | false =>
        rw [if_neg (by rw [hallocated]; exact Bool.false_ne_true)] at hunvisit
        cases hunvisit
        have hentry : s.sys.ms.adb.entry ⟨i, j⟩ = none := by
          simp only [AddrBook.entry, hcell, Option.filter_some, hallocated, Bool.false_eq_true, if_false]
        have hcells := cells_of_none hentry
        refine ⟨h, ?_⟩
        rw [hpaint (by rw [lck_eq hcells]; rfl), setStatus_none (obj_eq hcells)]
        rfl
    next => cases hstep

theorem popped_refines (h : Inv s.sys) (hpc : s.ctl.gc = .popped v) (hstep : s.gcStep t = some s') :
    Inv s'.sys ∧ Cs.step s.shown .gc = some s'.shown := by
  have hpc' : s.shown.gc = .popped v := hpc
  simp only [State.gcStep, hpc] at hstep
  obtain ⟨⟨marked, sys'⟩, hrun, heq⟩ := Option.bind_eq_some_iff.mp hstep
  cases heq
  obtain ⟨c, hc, hlck⟩ := withWrite_entry h.sound hrun
  obtain ⟨o, hat⟩ := h.at hc
  obtain ⟨sys₁, hrun', hchanged⟩ := withWrite_at does_markInProgress h.sound hat hlck t
  cases hrun'.symm.trans hrun
  refine ⟨hchanged.inv h, ?_⟩
  show s.shown.gcStep = _
  simp only [Cs.State.gcStep, hpc', obj_eq hat.cells, lck_eq hat.cells, hlck, if_true]
  rw [hchanged.shown]
  unfold greyed
  by_cases hst : o.gcStatus = .unvisited
  · simp only [if_pos hst, if_true]
    rw [Space.setStatus, obj_eq hat.cells, setObj_eq hat.cells]
    rfl
  · simp only [if_neg hst, Bool.false_eq_true, if_false]
    rw [← hat.cells, Function.update_eq_self]
    rfl

theorem poppedVisit_refines (h : Inv s.sys) (hpc : s.ctl.gc = .poppedVisit v) (hstep : s.gcStep t = some s') :
    Inv s'.sys ∧ Cs.step s.shown .gc = some s'.shown := by
  have hpc' : s.shown.gc = .poppedVisit v := hpc
  simp only [State.gcStep, hpc] at hstep
  obtain ⟨⟨stack, sys'⟩, hrun, heq⟩ := Option.bind_eq_some_iff.mp hstep
  cases heq
  obtain ⟨c, hc, hlck⟩ := withWrite_entry h.sound hrun
  obtain ⟨o, hat⟩ := h.at hc
  obtain ⟨sys₁, hrun', hchanged⟩ := withWrite_at
    (does_visitInProgress s.ctl.inProgressStack) h.sound hat hlck t
  cases hrun'.symm.trans hrun
  refine ⟨hchanged.inv h, ?_⟩
  show s.shown.gcStep = _
  simp only [Cs.State.gcStep, hpc', obj_eq hat.cells, lck_eq hat.cells, hlck, if_true]
  rw [hchanged.shown]
  unfold blackened
  by_cases hst : o.gcStatus = .inProgress
  · simp only [if_pos hst]
    rw [Space.csVisitObj, Space.refs, Space.setStatus, obj_eq hat.cells, setObj_eq hat.cells]
    rfl
  · simp only [if_neg hst]
    rw [← hat.cells, Function.update_eq_self]
    rfl

theorem sweep_refines (h : Inv s.sys) (hpc : s.ctl.gc = .sweep len i j removeStack) (hi : i < len)
    (hj : j < s.sys.ms.adb.tableCap) (hstep : s.gcStep t = some s') :
    Inv s'.sys ∧ Cs.step s.shown .gc = some s'.shown := by
  have hpc' : s.shown.gc = .sweep len i j removeStack := hpc
  simp only [State.gcStep, hpc, if_pos (And.intro hi hj)] at hstep
  split at hstep
  · cases hstep
  next c hcell =>
    split at hstep
    next hlck =>
      obtain ⟨keep, hkeep, rfl⟩ := Option.map_eq_some_iff.mp hstep
      refine ⟨h, ?_⟩
      show s.shown.gcStep = _
      simp only [Cs.State.gcStep, hpc']
      rw [if_pos hi, if_pos (show j < s.shown.tableCap from hj)]
      cases hallocated : c.allocated with
      | true =>
        rw [if_pos hallocated] at hkeep
        obtain ⟨o, hat⟩ := h.at (AddrBook.entry_eq_some.mpr ⟨hcell, hallocated⟩)
        unfold objReachable at hkeep
        rw [hat.loadStatus h.sound, Option.map_some] at hkeep
        cases hkeep
        simp only [lck_eq hat.cells, hlck, if_true, Space.status, obj_eq hat.cells, Option.map_some,
          Option.some.injEq, ne_eq, GcStatus.code_eq_iff]
        by_cases hst : o.gcStatus = .unvisited
        · simp only [hst, if_true, not_true_eq_false, decide_false, Bool.false_eq_true, if_false]
          rfl
        · simp only [hst, if_false, not_false_eq_true, decide_true, if_true]
          rfl
      | false =>
        rw [if_neg (by rw [hallocated]; exact Bool.false_ne_true)] at hkeep
        cases hkeep
        have hentry : s.sys.ms.adb.entry ⟨i, j⟩ = none := by
          simp only [AddrBook.entry, hcell, Option.filter_some, hallocated, Bool.false_eq_true, if_false]
        have hcells := cells_of_none hentry
        simp only [lck_eq hcells, Space.status, obj_eq hcells, Option.map_none]
        rfl
    next => cases hstep

theorem free_refines (h : Inv s.sys) (hpc : s.ctl.gc = .free removeStack filtered)
    (hlast : removeStack.getLast? = some v) (hstep : s.gcStep t = some s') :
    Inv s'.sys ∧ Cs.step s.shown .gc = some s'.shown := by
  have hpc' : s.shown.gc = .free removeStack filtered := hpc
  simp only [State.gcStep, hpc, hlast] at hstep
  obtain ⟨sys', hfree, rfl⟩ := Option.map_eq_some_iff.mp hstep
  obtain ⟨c, hc, hlck⟩ := free_entry h.sound hfree
  obtain ⟨o, hat⟩ := h.at hc
  obtain ⟨sys₁, hfree', hempty⟩ := hat.free h.sound hlck t
  cases hfree'.symm.trans hfree
  refine ⟨hempty.inv h, ?_⟩
  show s.shown.gcStep = _
  simp only [Cs.State.gcStep, hpc', hlast, obj_eq hat.cells, lck_eq hat.cells, hlck, Option.isSome_some,
    Bool.and_self, if_true]
  rw [hempty.shown, setObj_eq hat.cells, RwLock.eq_of_isFree hlck]
  rfl

/-- **The collector.** Its section on the bytes is its section on the objects. -/
theorem gcStep_refines (h : Inv s.sys) (hstep : s.gcStep t = some s') :
    Inv s'.sys ∧ Cs.step s.shown .gc = some s'.shown := by
  by_cases hon : onCell s.sys.ms.adb.tableCap s.ctl.gc
  · cases hpc : s.ctl.gc with
    | paint len i j =>
      rw [hpc] at hon
      exact paint_refines h hpc hon.1 hon.2 hstep
    | popped v => exact popped_refines h hpc hstep
    | poppedVisit v => exact poppedVisit_refines h hpc hstep
    | sweep len i j removeStack =>
      rw [hpc] at hon
      exact sweep_refines h hpc hon.1 hon.2 hstep
    | free removeStack filtered =>
      rw [hpc] at hon
      exact free_refines h hpc (List.getLast?_eq_some_getLast hon) hstep
    | _ =>
      rw [hpc] at hon
      exact hon.elim
  · rw [gcStep_control hon] at hstep
    have hsame : ∀ m, Cs.step s.shown .gc = some m → SameCells s.shown m := fun m hm =>
      (gcStep_cases hm).sameCells hon
    obtain ⟨hsys, hshown⟩ := control_shown hsame hstep
    exact ⟨hsys ▸ h, hshown⟩

/-! ## The mutators -/

variable {w : Vaddr} {rtLen daSize addr : Nat} {mem : Mem} {b : UInt8}

/-- A step of a mutator that is on no object. -/
theorem userControl_refines (h : Inv s.sys) {act : Cs.Act}
    (hsame : ∀ m, UserMove s.shown act m → SameCells s.shown m)
    (hne : act ≠ .gc) (hstep : s.control act = some s') : Inv s'.sys ∧ Cs.step s.shown act =
      some s'.shown := by
  obtain ⟨hsys, hshown⟩ := control_shown
    (fun m hm => hsame m ((step_cases hm).resolve_left fun hgc => hne hgc.1)) hstep
  exact ⟨hsys ▸ h, hshown⟩

theorem malloc_refines (h : Inv s.sys) (htotal : totalSize rtLen daSize < 2 ^ 64)
    (hidle : s.shown.user t = .idle)
    (hstep : s.userStep (.malloc t rtLen daSize addr mem) = some s') :
    Inv s'.sys ∧ ∃ v da, da.length = daSize ∧ Cs.step s.shown (.malloc t v rtLen da) = some s'.shown := by
  obtain ⟨⟨res, ms'⟩, hrun, heq⟩ := Option.map_eq_some_iff.mp hstep
  cases heq
  obtain ⟨da, hm⟩ := csMallocP_object h.sound htotal hrun
  have hsize : rtLen < 2 ^ 64 ∧ da.length < 2 ^ 64 := hm.length ▸ lt_of_total htotal
  have hfits := fits_newObj hsize.1 hsize.2
  have hcells := cells_of_none (store_eq_none.mp hm.fresh)
  refine ⟨h.update hm.sound hfits hm.store, res.vaddr, da, hm.length, ?_⟩
  rw [step_user rfl hidle, shown_update _ hm.store, cellOf, Obj.decode_encode hfits, hm.grown.book,
    hm.grown.tableCap]
  have hguard : res.vaddr.tableIndex ≤ s.shown.bookLen ∧ res.vaddr.cellIndex < s.shown.tableCap ∧
      res.vaddr ≠ nullVaddr ∧ s.shown.obj res.vaddr = none ∧ (s.shown.lck res.vaddr).isFree := by
    rw [obj_eq hcells, lck_eq hcells]
    exact ⟨hm.grown.index, hm.inside, hm.ne_null, rfl, rfl⟩
  simp only [Cs.State.userStep]
  rw [if_pos hguard, csMallocP_eq, lck_eq hcells]
  rfl

theorem getRead_refines (h : Inv s.sys) (hidle : s.shown.user t = .idle)
    (hstep : s.userStep (.getRead t v) = some s') :
    Inv s'.sys ∧ Cs.step s.shown (.getRead t v) = some s'.shown := by
  obtain ⟨sys', hget, rfl⟩ := Option.map_eq_some_iff.mp hstep
  obtain ⟨c, hc, hlck⟩ := getRead_entry h.sound hget
  obtain ⟨o, hat⟩ := h.at hc
  obtain ⟨sys₁, hget', hchanged⟩ := hat.getRead h.sound hlck t
  cases hget'.symm.trans hget
  refine ⟨hchanged.inv h, ?_⟩
  rw [step_user rfl hidle, hchanged.shown]
  simp only [Cs.State.userStep, obj_eq hat.cells, lck_eq hat.cells, hlck, Option.isSome_some, and_self,
    if_true]
  rw [setLck_eq hat.cells]
  rfl

theorem getWrite_refines (h : Inv s.sys) (hidle : s.shown.user t = .idle)
    (hstep : s.userStep (.getWrite t v) = some s') :
    Inv s'.sys ∧ Cs.step s.shown (.getWrite t v) = some s'.shown := by
  obtain ⟨sys', hget, hrest⟩ := Option.bind_eq_some_iff.mp hstep
  obtain ⟨c, hc, hlck⟩ := getWrite_entry h.sound hget
  obtain ⟨o, hat⟩ := h.at hc
  obtain ⟨sys₁, hget', hchanged⟩ := hat.getWrite h.sound hlck t
  cases hget'.symm.trans hget
  obtain ⟨c₁, hat₁, hlck₁⟩ := hchanged.at
  have hholds : c₁.lck.holds t = true := hlck₁ ▸ (RwLock.holds_acqWrite hlck).mpr rfl
  simp only [hat₁.pointer hchanged.sound hholds, hat₁.loadStatus hchanged.sound, Option.bind_eq_bind,
    Option.bind_some] at hrest
  -- the pointer is behind a header
  have hne : c₁.paddr + mallocHeaderSize ≠ GcStatus.newlyAdded.code := by
    have hheader : mallocHeaderSize = 8 := rfl
    rw [hheader]
    exact Nat.succ_ne_zero _
  simp only [GcStatus.code_eq_iff, hne, or_false] at hrest
  rw [step_user rfl hidle]
  simp only [Cs.State.userStep, obj_eq hat.cells, lck_eq hat.cells, hlck, if_true]
  split at hrest
  next hst =>
    cases hrest
    refine ⟨hchanged.inv h, ?_⟩
    rw [if_pos hst, hchanged.shown, setLck_eq hat.cells]
    rfl
  next hst =>
    cases hrest
    refine ⟨hchanged.inv h, ?_⟩
    rw [if_neg hst, hchanged.shown, setLck_eq hat.cells]
    rfl

theorem unlock_refines (h : Inv s.sys) (hidle : s.shown.user t = .idle)
    (hstep : s.userStep (.unlock t v) = some s') :
    Inv s'.sys ∧ Cs.step s.shown (.unlock t v) = some s'.shown := by
  obtain ⟨sys', hunlock, rfl⟩ := Option.map_eq_some_iff.mp hstep
  obtain ⟨c, hc, hholds⟩ := unlock_entry h.sound hunlock
  obtain ⟨o, hat⟩ := h.at hc
  obtain ⟨sys₁, hunlock', hchanged⟩ := hat.unlock h.sound hholds
  cases hunlock'.symm.trans hunlock
  refine ⟨hchanged.inv h, ?_⟩
  rw [step_user rfl hidle, hchanged.shown]
  simp only [Cs.State.userStep, lck_eq hat.cells, hholds, if_true]
  rw [setLck_eq hat.cells]
  rfl

theorem loadRef_refines (h : Inv s.sys) (hidle : s.shown.user t = .idle)
    (hstep : s.userStep (.loadRef t v i) = some s') :
    Inv s'.sys ∧ Cs.step s.shown (.loadRef t v i) = some s'.shown := by
  obtain ⟨objPH, hpointer, hrest⟩ := Option.bind_eq_some_iff.mp hstep
  obtain ⟨c, o, hat, hholds, rfl⟩ := pointer_at h hpointer
  simp only [hat.loadRtLen h.sound, Option.bind_eq_bind, Option.bind_some] at hrest
  split at hrest
  next hi =>
    have hget : o.rt[i]? = some o.rt[i] := List.getElem?_eq_getElem hi
    rw [hat.loadRef h.sound hget] at hrest
    cases hrest
    refine ⟨h, ?_⟩
    rw [step_user rfl hidle]
    simp only [Cs.State.userStep, obj_eq hat.cells, lck_eq hat.cells, hholds, if_true, hget]
    rfl
  next => cases hrest

theorem storeRef_refines (h : Inv s.sys) (hword : Word w) (hidle : s.shown.user t = .idle)
    (hstep : s.userStep (.storeRef t v i w) = some s') :
    Inv s'.sys ∧ Cs.step s.shown (.storeRef t v i w) = some s'.shown := by
  obtain ⟨objPH, hpointer, hrest⟩ := Option.bind_eq_some_iff.mp hstep
  obtain ⟨c, o, hat, -, rfl⟩ := pointer_at h hpointer
  have hcell := (AddrBook.entry_eq_some.mp hat.entry).1
  simp only [hcell, hat.loadRtLen h.sound, Option.bind_eq_bind, Option.bind_some] at hrest
  split at hrest
  next hcond =>
    obtain ⟨ms', hset, hre⟩ := hat.storeRef h.sound hcond.2 w
    rw [hset] at hrest
    cases hrest
    have hchanged := hre.changed (hat.fits.storeRef hword)
    refine ⟨hchanged.inv h, ?_⟩
    rw [step_user rfl hidle, hchanged.shown]
    simp only [Cs.State.userStep, obj_eq hat.cells, lck_eq hat.cells]
    rw [if_pos hcond, Space.storeRef, obj_eq hat.cells, setObj_eq hat.cells]
    rfl
  next => cases hrest

theorem storeByte_refines (h : Inv s.sys) (hidle : s.shown.user t = .idle)
    (hstep : s.userStep (.storeByte t v i b) = some s') :
    Inv s'.sys ∧ Cs.step s.shown (.storeByte t v i b) = some s'.shown := by
  obtain ⟨objPH, hpointer, hrest⟩ := Option.bind_eq_some_iff.mp hstep
  obtain ⟨c, o, hat, -, rfl⟩ := pointer_at h hpointer
  have hcell := (AddrBook.entry_eq_some.mp hat.entry).1
  simp only [hcell, hat.loadRtLen h.sound, hat.loadDaSize h.sound, Option.bind_eq_bind,
    Option.bind_some] at hrest
  split at hrest
  next hcond =>
    obtain ⟨ms', hset, hre⟩ := hat.storeByte h.sound hcond.2 b
    rw [hset] at hrest
    cases hrest
    have hchanged := hre.changed hat.fits.storeByte
    refine ⟨hchanged.inv h, ?_⟩
    rw [step_user rfl hidle, hchanged.shown]
    simp only [Cs.State.userStep, lck_eq hat.cells]
    rw [if_pos hcond.1, Space.storeByte, obj_eq hat.cells, setObj_eq hat.cells]
    rfl
  next => cases hrest

/-- The visit at the end of `cs_get_write`. -/
theorem visit_refines (h : Inv s.sys) (hstep : step s (.visit t) = some s') :
    Inv s'.sys ∧ Cs.step s.shown (.visit t) = some s'.shown := by
  simp only [step] at hstep
  split at hstep
  next v hpc =>
    have hpc' : s.shown.user t = .visit v := hpc
    obtain ⟨objPH, hpointer, hrest⟩ := Option.bind_eq_some_iff.mp hstep
    obtain ⟨c, o, hat, -, rfl⟩ := pointer_at h hpointer
    obtain ⟨ms', hrun, hre⟩ := hat.csVisitObj h.sound s.ctl.inProgressStack
    rw [hrun] at hrest
    cases hrest
    have hchanged := hre.changed (hat.fits.mark .visited)
    refine ⟨hchanged.inv h, ?_⟩
    rw [hchanged.shown]
    simp only [Cs.step, hpc']
    rw [Space.csVisitObj, Space.refs, Space.setStatus, obj_eq hat.cells, setObj_eq hat.cells]
    rfl
  next => cases hstep

/-- **A mutator.** Its section on the bytes is its section on the objects. -/
theorem userStep_refines {a : Act} (h : Inv s.sys) (hok : Allowed a) (htid : a.tid = some t)
    (hidle : s.shown.user t = .idle) (hstep : s.userStep a = some s') :
    Inv s'.sys ∧ ∃ act, isStep a [act] ∧ Cs.step s.shown act = some s'.shown := by
  cases a with
  | gc | tryFullShift => cases htid
  | readFlag | visit => cases hstep
  | malloc u rtLen daSize addr mem =>
    cases htid
    obtain ⟨hinv, v, da, hlen, hshown⟩ := malloc_refines h hok hidle hstep
    exact ⟨hinv, _, ⟨v, da, hlen, rfl⟩, hshown⟩
  | root u v =>
    refine (userControl_refines h (fun m hm => ?_) Cs.Act.noConfusion hstep).imp_right fun hm => ⟨_, rfl, hm⟩
    cases hm with
    | root _ _ hroot =>
      have hsame := Space.csRoot_sameObjects hroot
      exact ⟨hsame.cells, hsame.bookLen, hsame.tableCap⟩
  | deroot u rootId =>
    refine (userControl_refines h (fun m hm => ?_) Cs.Act.noConfusion hstep).imp_right fun hm => ⟨_, rfl, hm⟩
    cases hm with
    | deroot =>
      have hsame := Space.csDeroot_sameObjects s.shown.toSpace rootId
      exact ⟨hsame.cells, hsame.bookLen, hsame.tableCap⟩
  | getRootVaddr u rootId =>
    refine (userControl_refines h (fun m hm => ?_) Cs.Act.noConfusion hstep).imp_right fun hm => ⟨_, rfl, hm⟩
    cases hm
    exact ⟨rfl, rfl, rfl⟩
  | forget u v =>
    refine (userControl_refines h (fun m hm => ?_) Cs.Act.noConfusion hstep).imp_right fun hm => ⟨_, rfl, hm⟩
    cases hm
    exact ⟨rfl, rfl, rfl⟩
  | getRead u v =>
    cases htid
    exact (getRead_refines h hidle hstep).imp_right fun hm => ⟨_, rfl, hm⟩
  | getWrite u v =>
    cases htid
    exact (getWrite_refines h hidle hstep).imp_right fun hm => ⟨_, rfl, hm⟩
  | unlock u v =>
    cases htid
    exact (unlock_refines h hidle hstep).imp_right fun hm => ⟨_, rfl, hm⟩
  | loadRef u v i =>
    cases htid
    exact (loadRef_refines h hidle hstep).imp_right fun hm => ⟨_, rfl, hm⟩
  | storeRef u v i w =>
    cases htid
    exact (storeRef_refines h hok hidle hstep).imp_right fun hm => ⟨_, rfl, hm⟩
  | storeByte u v i b =>
    cases htid
    exact (storeByte_refines h hidle hstep).imp_right fun hm => ⟨_, rfl, hm⟩

/-! ## The runs -/

theorem fullShift_refines {fuel : Nat} (h : Inv s.sys) (hstep : s.userStep (.tryFullShift t fuel) = some s') :
    Inv s'.sys ∧ s'.shown = s.shown := by
  obtain ⟨sys', hshift, rfl⟩ := Option.map_eq_some_iff.mp hstep
  obtain ⟨hsound, hsize, hstore⟩ := fullShift_same h.sound hshift
  refine ⟨⟨hsound, fun v d hd => h.objs v d (hstore ▸ hd)⟩, ?_⟩
  unfold State.shown
  rw [hstore, hsize.1, hsize.2]

/-- **Step lemma.** A step is the step of the machine of objects that has its name, or none. -/
theorem step_refines {a : Act} (h : Inv s.sys) (hok : Allowed a) (hstep : step s a = some s') :
    Inv s'.sys ∧ ((isStep a [] ∧ s'.shown = s.shown) ∨ ∃ act, isStep a [act] ∧ Cs.step s.shown act =
      some s'.shown) := by
  cases a with
  | gc t => exact (gcStep_refines h hstep).imp_right fun hm => .inr ⟨_, rfl, hm⟩
  | readFlag t =>
    refine (userControl_refines h (fun m hm => ?_) Cs.Act.noConfusion hstep).imp_right fun hm => .inr ⟨_,
      rfl, hm⟩
    cases hm
    exact ⟨rfl, rfl, rfl⟩
  | visit t => exact (visit_refines h hstep).imp_right fun hm => .inr ⟨_, rfl, hm⟩
  | tryFullShift t fuel =>
    simp only [step, Act.tid, Option.all_none, if_true] at hstep
    exact (fullShift_refines h hstep).imp_right fun hm => .inl ⟨rfl, hm⟩
  | _ =>
    simp only [step, Act.tid, Option.all_some, decide_eq_true_eq] at hstep
    split at hstep
    next hidle => exact (userStep_refines h hok rfl hidle hstep).imp_right .inr
    next => cases hstep

theorem step_simulates {R : Cs.State → Cs.Act → Prop} {a : Act} (h : Inv s.sys)
    (hok : Allowed a ∧ ∀ act, isStep a [act] → R s.shown act) (hstep : step s a = some s') :
    Inv s'.sys ∧ ∃ tr, Steps Cs.step R s.shown tr s'.shown ∧ isStep a (tr.map Prod.snd) := by
  obtain ⟨hinv, ⟨hnone, hsame⟩ | ⟨act, hact, hone⟩⟩ := step_refines h hok.1 hstep
  · exact ⟨hinv, [], hsame ▸ .nil, hnone⟩
  · exact ⟨hinv, [(s.shown, act)], .single (hok.2 act hact) hone, hact⟩

theorem newMemSpaceSeed_adb {seed adbTCap mbMBytes addr : Nat} {mem : Mem} {ms : MemSpace}
    (hnew : newMemSpaceSeed seed adbTCap mbMBytes addr mem = some ms) :
    ms.adb.tableCap = adbTCap ∧ ms.adb.book = [] := by
  obtain ⟨-, adb, hadb, rfl⟩ := newMemSpaceSeed_eq hnew
  obtain ⟨-, rfl⟩ := newAddrBook_eq_some.mp hadb
  exact ⟨rfl, rfl⟩

theorem inv_new {seed adbTCap mbMBytes addr : Nat} {mem : Mem} {ms : MemSpace}
    (hcap : adbTCap < 2 ^ 64) (hpad : mbMBytes + 33 < 2 ^ 64) (hfits : FitsBlock mbMBytes)
    (hnew : newMemSpaceSeed seed adbTCap mbMBytes addr mem = some ms) :
    Inv (State.new ms).sys ∧ (State.new ms).shown = Cs.State.new adbTCap := by
  obtain ⟨htable, hbook⟩ := newMemSpaceSeed_adb hnew
  refine ⟨⟨msSound_new hcap hpad hfits hnew, fun v d hd => ?_⟩, ?_⟩
  · rw [State.new, store_new hnew] at hd
    cases hd
  · show ({ Cs.State.new ms.adb.tableCap with
      cells := fun v => cellOf ((MsSys.new ms).store v)
      bookLen := ms.adb.book.length
      tableCap := ms.adb.tableCap } : Cs.State) = _
    rw [store_new hnew, htable, hbook]
    rfl

/-- The object of a vaddr is what its bytes are, behind the header of its piece. -/
theorem obj_iff_bytes (h : Inv s.sys) (v : Vaddr) (o : Obj) : s.shown.obj v = some o ↔
    ∃ c, s.sys.ms.adb.entry v = some c ∧ o.Fits ∧ o.encode.length = s.sys.request v ∧
      ∀ i < o.encode.length, s.sys.ms.getByte (c.paddr + mallocHeaderSize + i) = o.encode[i]? := by
  obtain ⟨owner, content, hinv⟩ := h.sound
  constructor
  · intro hobj
    obtain ⟨c, hat⟩ := exists_at h hobj
    exact ⟨c, hat.entry, hat.fits, hat.length.symm, hat.bytes ▸ hinv.getByte_bytes hat.entry⟩
  · rintro ⟨c, hc, hfits, hlen, hbytes⟩
    have hbytes' := hinv.getByte_bytes hc
    rw [length_bytes] at hbytes'
    have heq : s.sys.bytes v c.paddr = o.encode := by
      refine List.ext_getElem? fun i => ?_
      by_cases hi : i < s.sys.request v
      · rw [← hbytes' i hi, hbytes i (hlen ▸ hi)]
      · rw [List.getElem?_eq_none (by rw [length_bytes]; omega), List.getElem?_eq_none (by omega)]
    exact obj_eq (At.cells ⟨hc, heq, hfits⟩)

/-- **The bytes refine the objects.** Under every interleaving of collectors, mutators and shifts, whatever
blocks the space is made of, the sections on the bytes are a run of the machine of objects, under any rule
that they meet there; and an object is shown where its bytes lie behind the pointer in a cell. -/
theorem bytes_refine_objects {seed adbTCap mbMBytes addr : Nat} {mem : Mem} {ms : MemSpace}
    (hcap : adbTCap < 2 ^ 64) (hpad : mbMBytes + 33 < 2 ^ 64) (hfits : FitsBlock mbMBytes)
    (hnew : newMemSpaceSeed seed adbTCap mbMBytes addr mem = some ms) {R : Cs.State → Cs.Act → Prop}
    {tr : List (State × Act)}
    (h : Steps step (fun s a => Allowed a ∧ ∀ act, isStep a [act] → R s.shown act) (State.new ms) tr s) :
    (∃ tr', Steps Cs.step R (Cs.State.new adbTCap) tr' s.shown ∧
      Shows isStep (tr.map Prod.snd) (tr'.map Prod.snd)) ∧
    ∀ v o, s.shown.obj v = some o ↔ ∃ c, s.sys.ms.adb.entry v = some c ∧ o.Fits ∧
      o.encode.length = s.sys.request v ∧
      ∀ i < o.encode.length, s.sys.ms.getByte (c.paddr + mallocHeaderSize + i) = o.encode[i]? := by
  obtain ⟨hinv, hshown⟩ := inv_new hcap hpad hfits hnew
  have hstep : ∀ m a m', Inv m.sys → (Allowed a ∧ ∀ act, isStep a [act] → R m.shown act) → step m a =
    some m' →
      Inv m'.sys ∧ ∃ tr, Steps Cs.step R m.shown tr m'.shown ∧ isStep a (tr.map Prod.snd) :=
    fun _ _ _ => step_simulates
  obtain ⟨hinv', hrun⟩ := h.simulate hstep hinv
  rw [hshown] at hrun
  exact ⟨hrun, obj_iff_bytes hinv'⟩

/-- The conditions of the runs, decided; there is no rule. -/
def allowedCheck (_ : State) : Act → Bool
  | .malloc _ rtLen daSize .. => totalSize rtLen daSize < 2 ^ 64
  | .storeRef _ _ _ w => Word w
  | _ => true

theorem allowedCheck_sound (s : State) (a : Act) (h : allowedCheck s a = true) : Allowed a := by
  cases a with
  | malloc t rtLen daSize => exact (of_decide_eq_true h : totalSize rtLen daSize < 2 ^ 64)
  | storeRef t v i w => exact (of_decide_eq_true h : Word w)
  | _ => trivial

/-- A collection frees an object and leaves a rooted one, which a shift then moves over the hole: its bytes
are still those of the object that the machine of objects has. -/
theorem bytes_refine_objects_moved : ∃ (s : State) (c : AddrTableCell) (tr' : List (Cs.State × Cs.Act)),
    Steps Cs.step anyStep (Cs.State.new 2) tr' s.shown ∧ s.shown.obj ⟨0, 1⟩ = none ∧
    s.shown.obj ⟨0, 0⟩ = some ⟨.visited, [⟨0, 0⟩], [7]⟩ ∧ s.sys.ms.adb.entry ⟨0, 0⟩ = some c ∧
    s.sys.ms.getByte (c.paddr + mallocHeaderSize + 36) = some 7 := by
  obtain ⟨ms, s, hnew, hrun, hfreed, hobj⟩ : ∃ ms, ∃ s : State,
      newMemSpaceSeed 1 2 200 4096 ⟨fun _ => 0⟩ = some ms ∧
      exec step allowedCheck (State.new ms)
        ([.malloc 0 0 8 8192 ⟨fun _ => 0⟩, .malloc 0 1 1 8192 ⟨fun _ => 0⟩,
        .storeRef 0 ⟨0, 0⟩ 0 ⟨0, 0⟩, .storeByte 0 ⟨0, 0⟩ 0 7, .root 0 ⟨0, 0⟩, .unlock 0 ⟨0, 1⟩,
        .unlock 0 ⟨0, 0⟩] ++ List.replicate 30 (.gc 1) ++ [.tryFullShift 1 5]) = some s ∧
      s.shown.obj ⟨0, 1⟩ = none ∧ s.shown.obj ⟨0, 0⟩ = some ⟨.visited, [⟨0, 0⟩], [7]⟩ :=
    ⟨_, _, rfl, rfl, rfl, rfl⟩
  have hsound : ∀ (s : State) (a : Act), allowedCheck s a = true →
      Allowed a ∧ ∀ act, isStep a [act] → anyStep s.shown act :=
    fun s a h => ⟨allowedCheck_sound s a h, fun _ _ => trivial⟩
  obtain ⟨tr, -, hsteps⟩ := steps_of_exec hsound _ hrun
  obtain ⟨⟨tr', hrun', -⟩, hbytes⟩ := bytes_refine_objects (by decide) (by decide)
    (show FitsBlock 200 by decide)
    hnew hsteps
  obtain ⟨c, hc, -, -, hread⟩ := (hbytes ⟨0, 0⟩ _).mp hobj
  exact ⟨s, c, tr', hrun', hfreed, hobj, hc, hread 36 (by decide)⟩

end Raw

end Chvm.Cs
