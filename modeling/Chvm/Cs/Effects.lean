import Chvm.Cs.Moves

/-!
# What a step does to one cell

The object and the lock of a cell change in few ways. Each change is listed once here, with what
the step checked, and every invariant of the marking takes its cases from these lists.
-/

set_option autoImplicit false

namespace Chvm.Cs

open Chvm.Lib

/-- Change an object's status. -/
def Obj.mark (st : GcStatus) (o : Obj) : Obj := { o with gcStatus := st }

/-- The ways a step changes the object of the cell `w`, to `o'`. -/
inductive ObjChange (s : State) : Act → Vaddr → Option Obj → Prop
  | same {a : Act} {w : Vaddr} : ObjChange s a w (s.obj w)
  | added {t : Tid} {w : Vaddr} {n : Nat} {da : List UInt8} (hobj : s.obj w = none) :
      ObjChange s (.malloc t w n da) w (some ⟨.newlyAdded, List.replicate n nullVaddr, da⟩)
  | painted {len i j : Nat} (hpc : s.gc = .paint len i j) (hi : i < len) (hj : j < s.tableCap)
      (hfree : (s.lck ⟨i, j⟩).isFree = true) :
      ObjChange s .gc ⟨i, j⟩ ((s.obj ⟨i, j⟩).map (Obj.mark .unvisited))
  | greyed {w : Vaddr} (hpc : s.gc = .popped w) (hfree : (s.lck w).isFree = true)
      (hst : s.status w = some .unvisited) :
      ObjChange s .gc w ((s.obj w).map (Obj.mark .inProgress))
  | blackened {w : Vaddr} (hpc : s.gc = .poppedVisit w) (hfree : (s.lck w).isFree = true)
      (hst : s.status w = some .inProgress) :
      ObjChange s .gc w ((s.obj w).map (Obj.mark .visited))
  | visited {t : Tid} {w : Vaddr} (hpc : s.user t = .visit w) :
      ObjChange s (.visit t) w ((s.obj w).map (Obj.mark .visited))
  | storedRef {t : Tid} {w x : Vaddr} {i : Nat} {o : Obj} (hobj : s.obj w = some o)
      (hidle : s.user t = .idle) (hwriter : (s.lck w).writer = some t) (hi : i < o.rt.length) :
      ObjChange s (.storeRef t w i x) w (some { o with rt := o.rt.set i x })
  | storedByte {t : Tid} {w : Vaddr} {i : Nat} {b : UInt8} (hidle : s.user t = .idle)
      (hwriter : (s.lck w).writer = some t) :
      ObjChange s (.storeByte t w i b) w ((s.obj w).map fun o => { o with da := o.da.set i b })
  | freed {w : Vaddr} {rs : List Vaddr} {n : Nat} (hpc : s.gc = .free (rs ++ [w]) n)
      (hfree : (s.lck w).isFree = true) : ObjChange s .gc w none

/-- An update at the cell `v` is the identity at the others. -/
private theorem objChange_at {s : State} {a : Act} {v w : Vaddr} {o o' : Option Obj}
    (heq : o' = if w = v then o else s.obj w) (h : ObjChange s a v o) : ObjChange s a w o' := by
  subst heq
  split
  next heq => exact heq ▸ h
  next => exact .same

/-- A step that leaves the cells' objects alone. -/
private theorem objChange_same {s : State} {a : Act} {w : Vaddr} {o' : Option Obj}
    (heq : o' = s.obj w) : ObjChange s a w o' :=
  heq ▸ .same

theorem GcMove.obj_change {s s' : State} (h : GcMove s s') (w : Vaddr) :
    ObjChange s .gc w (s'.obj w) := by
  cases h with
  | paintCell hpc hi hj hfree =>
    exact objChange_at (Space.obj_setStatus s.toSpace _ .unvisited w) (.painted hpc hi hj hfree)
  | grey hpc hfree hst =>
    exact objChange_at (Space.obj_setStatus s.toSpace _ .inProgress w) (.greyed hpc hfree hst)
  | visit hpc hfree hst =>
    exact objChange_at (Space.obj_csVisitObj s.toSpace _ w) (.blackened hpc hfree hst)
  | free hpc _ hfree =>
    exact objChange_at (Space.obj_setObj s.toSpace _ none w) (.freed hpc hfree)
  | _ => exact objChange_same rfl

theorem UserMove.obj_change {s s' : State} {a : Act} (h : UserMove s a s') (w : Vaddr) :
    ObjChange s a w (s'.obj w) := by
  cases h with
  | malloc _ _ _ _ hobj _ =>
    exact objChange_at ((Space.obj_setLck _ _ _ w).trans (Space.obj_csMallocP s.toSpace _ _ _ w))
      (.added hobj)
  | root _ _ hroot =>
    exact objChange_same (congrArg (fun c => (c w).obj) (Space.csRoot_sameObjects hroot).cells)
  | deroot _ _ =>
    exact objChange_same
      (congrArg (fun c => (c w).obj) (Space.csDeroot_sameObjects s.toSpace _).cells)
  | getRead | getVisited | getUnvisited | unlock =>
    exact objChange_same (Space.obj_setLck s.toSpace _ _ w)
  | visit hpc => exact objChange_at (Space.obj_csVisitObj s.toSpace _ w) (.visited hpc)
  | storeRef hidle hobj hwriter hi =>
    refine objChange_at (Space.obj_storeRef s.toSpace _ _ _ w) ?_
    rw [hobj]
    exact .storedRef hobj hidle hwriter hi
  | storeByte hidle hwriter =>
    exact objChange_at (Space.obj_storeByte s.toSpace _ _ _ w) (.storedByte hidle hwriter)
  | _ => exact objChange_same rfl

/-- **What a step does to an object.** -/
theorem obj_change {s s' : State} {a : Act} (h : step s a = some s') (w : Vaddr) :
    ObjChange s a w (s'.obj w) := by
  rcases step_cases h with ⟨rfl, hm⟩ | hm
  · exact hm.obj_change w
  · exact hm.obj_change w

/-- The ways a step changes the lock of the cell `w`, to `l'`. -/
inductive LckChange (s : State) : Act → Vaddr → RwLock → Prop
  | same {a : Act} {w : Vaddr} : LckChange s a w (s.lck w)
  | added {t : Tid} {w : Vaddr} {n : Nat} {da : List UInt8} (hobj : s.obj w = none)
      (hfree : (s.lck w).isFree = true) :
      LckChange s (.malloc t w n da) w ((s.lck w).acqWrite t)
  | read {t : Tid} {w : Vaddr} (hobj : (s.obj w).isSome = true)
      (hread : (s.lck w).canRead = true) : LckChange s (.getRead t w) w ((s.lck w).acqRead t)
  | write {t : Tid} {w : Vaddr} (hobj : (s.obj w).isSome = true)
      (hfree : (s.lck w).isFree = true) : LckChange s (.getWrite t w) w ((s.lck w).acqWrite t)
  | released {t : Tid} {w : Vaddr} (hidle : s.user t = .idle)
      (hholds : (s.lck w).holds t = true) : LckChange s (.unlock t w) w ((s.lck w).release t)

private theorem lckChange_at {s : State} {a : Act} {v w : Vaddr} {l l' : RwLock}
    (heq : l' = if w = v then l else s.lck w) (h : LckChange s a v l) : LckChange s a w l' := by
  subst heq
  split
  next heq => exact heq ▸ h
  next => exact .same

private theorem lckChange_same {s : State} {a : Act} {w : Vaddr} {l' : RwLock}
    (heq : l' = s.lck w) : LckChange s a w l' :=
  heq ▸ .same

/-- The collector has given every lock back by the end of a section. -/
theorem GcMove.lck_eq {s s' : State} (h : GcMove s s') (w : Vaddr) : s'.lck w = s.lck w := by
  cases h with
  | paintCell => exact Space.lck_setStatus s.toSpace _ _ w
  | grey => exact Space.lck_setStatus s.toSpace _ _ w
  | visit => exact Space.lck_csVisitObj s.toSpace _ w
  | free => exact Space.lck_setObj s.toSpace _ _ w
  | _ => rfl

theorem isSome_of_status {s : Space} {v : Vaddr} {st : GcStatus} (h : s.status v = some st) :
    (s.obj v).isSome = true := by
  obtain ⟨o, ho, _⟩ := Space.status_eq_some.mp h
  simp only [ho, Option.isSome_some]

theorem UserMove.lck_change {s s' : State} {a : Act} (h : UserMove s a s') (w : Vaddr) :
    LckChange s a w (s'.lck w) := by
  cases h with
  | @malloc t v n da _ _ _ _ hobj hfree =>
    refine lckChange_at (l := (s.lck v).acqWrite t) ?_ (.added hobj hfree)
    refine (Space.lck_setLck _ _ _ w).trans ?_
    simp only [Space.lck_csMallocP]
  | root _ _ hroot =>
    exact lckChange_same (congrArg (fun c => (c w).lck) (Space.csRoot_sameObjects hroot).cells)
  | deroot _ _ =>
    exact lckChange_same
      (congrArg (fun c => (c w).lck) (Space.csDeroot_sameObjects s.toSpace _).cells)
  | getRead _ hobj hread =>
    exact lckChange_at (Space.lck_setLck s.toSpace _ _ w) (.read hobj hread)
  | getVisited _ hfree hst =>
    exact lckChange_at (Space.lck_setLck s.toSpace _ _ w) (.write (isSome_of_status hst) hfree)
  | getUnvisited _ hfree hst _ =>
    exact lckChange_at (Space.lck_setLck s.toSpace _ _ w) (.write (isSome_of_status hst) hfree)
  | unlock hidle hholds =>
    exact lckChange_at (Space.lck_setLck s.toSpace _ _ w) (.released hidle hholds)
  | visit => exact lckChange_same (Space.lck_csVisitObj s.toSpace _ w)
  | storeRef => exact lckChange_same (Space.lck_storeRef s.toSpace _ _ _ w)
  | storeByte => exact lckChange_same (Space.lck_storeByte s.toSpace _ _ _ w)
  | _ => exact lckChange_same rfl

/-- **What a step does to a lock.** -/
theorem lck_change {s s' : State} {a : Act} (h : step s a = some s') (w : Vaddr) :
    LckChange s a w (s'.lck w) := by
  rcases step_cases h with ⟨rfl, hm⟩ | hm
  · exact lckChange_same (hm.lck_eq w)
  · exact hm.lck_change w

/-! ## What the other parties' sections leave alone -/

/-- What a mutator's section leaves alone: the collector's own variables. -/
structure SameCollector (s s' : State) : Prop where
  gc : s'.gc = s.gc
  visitStack : s'.visitStack = s.visitStack
  paintBlackInProgress : s'.paintBlackInProgress = s.paintBlackInProgress
  gcInProgress : s'.gcInProgress = s.gcInProgress
  tableCap : s'.tableCap = s.tableCap

theorem UserMove.sameCollector {s s' : State} {a : Act} (h : UserMove s a s') :
    SameCollector s s' := by
  cases h with
  | root _ _ hroot =>
    have hsame := Space.csRoot_sameObjects hroot
    exact ⟨rfl, hsame.visitStack, hsame.paintBlackInProgress, hsame.gcInProgress, hsame.tableCap⟩
  | deroot _ _ =>
    have hsame := Space.csDeroot_sameObjects s.toSpace ‹Nat›
    exact ⟨rfl, hsame.visitStack, hsame.paintBlackInProgress, hsame.gcInProgress, hsame.tableCap⟩
  | _ => exact ⟨rfl, rfl, rfl, rfl, rfl⟩

theorem GcMove.user_eq {s s' : State} (h : GcMove s s') : s'.user = s.user := by
  cases h <;> rfl

theorem GcMove.known_eq {s s' : State} (h : GcMove s s') : s'.known = s.known := by
  cases h <;> rfl

theorem GcMove.rootSet_eq {s s' : State} (h : GcMove s s') : s'.rootSet = s.rootSet := by
  cases h <;> rfl

end Chvm.Cs
