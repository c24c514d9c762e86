import Chvm.Cs.Machine

/-!
# What a step can do

One constructor for each way a section can go, with the conditions the section checks and the state
it leaves. Every law about runs takes its cases from here, so that none unfolds the step function.
-/

set_option autoImplicit false

namespace Chvm.Cs

open Chvm.Lib

/-- The ways of the collector's next section. -/
inductive GcMove (s : State) : State → Prop
  | busy (hpc : s.gc = .idle) (hbusy : s.gcInProgress = true) : GcMove s s
  | start (hpc : s.gc = .idle) (hbusy : s.gcInProgress = false) :
      GcMove s { s with gcInProgress := true, gc := .paintLen }
  | paintLen (hpc : s.gc = .paintLen) : GcMove s { s with gc := .paint s.bookLen 0 0 }
  | paintCell {len i j : Nat} (hpc : s.gc = .paint len i j) (hi : i < len) (hj : j < s.tableCap)
      (hfree : (s.lck ⟨i, j⟩).isFree = true) :
      GcMove s { s with
        toSpace := s.toSpace.setStatus ⟨i, j⟩ .unvisited, gc := .paint len i (j + 1) }
  | paintTable {len i j : Nat} (hpc : s.gc = .paint len i j) (hi : i < len) (hj : ¬ j < s.tableCap) :
      GcMove s { s with gc := .paint len (i + 1) 0 }
  | paintDone {len i j : Nat} (hpc : s.gc = .paint len i j) (hi : ¬ i < len) :
      GcMove s { s with gc := .lockRoots }
  | lockRoots (hpc : s.gc = .lockRoots) : GcMove s { s with gc := .setFlag }
  | setFlag (hpc : s.gc = .setFlag) :
      GcMove s { s with paintBlackInProgress := true, gc := .pushRoots }
  | pushRoots (hpc : s.gc = .pushRoots) :
      GcMove s { s with
        inProgressStack := s.inProgressStack ++ s.roots, gc := .popInProgress false }
  | emptyInProgress {p : Bool} (hpc : s.gc = .popInProgress p) (hempty : s.inProgressStack = []) :
      GcMove s { s with gc := .popVisit p }
  | popInProgress {p : Bool} {rest : List Vaddr} {v : Vaddr} (hpc : s.gc = .popInProgress p)
      (hstack : s.inProgressStack = rest ++ [v]) :
      GcMove s { s with inProgressStack := rest, gc := .popped v }
  | grey {v : Vaddr} (hpc : s.gc = .popped v) (hfree : (s.lck v).isFree = true)
      (hst : s.status v = some .unvisited) :
      GcMove s { s with
        toSpace := { s.toSpace.setStatus v .inProgress with visitStack := s.visitStack ++ [v] }
        gc := .popInProgress true }
  | drop {v : Vaddr} {st : GcStatus} (hpc : s.gc = .popped v) (hst : s.status v = some st)
      (hne : st ≠ .unvisited) (hfree : (s.lck v).isFree = true) :
      GcMove s { s with gc := .popInProgress true }
  | popVisit {p : Bool} {rest : List Vaddr} {v : Vaddr} (hpc : s.gc = .popVisit p)
      (hstack : s.visitStack = rest ++ [v]) :
      GcMove s { s with visitStack := rest, gc := .poppedVisit v }
  | again (hpc : s.gc = .popVisit true) (hempty : s.visitStack = []) :
      GcMove s { s with gc := .popInProgress false }
  | exit (hpc : s.gc = .popVisit false) (hempty : s.visitStack = []) :
      GcMove s { s with gc := .clearFlag }
  | visit {v : Vaddr} (hpc : s.gc = .poppedVisit v) (hfree : (s.lck v).isFree = true)
      (hst : s.status v = some .inProgress) :
      GcMove s { s with toSpace := s.toSpace.csVisitObj v, gc := .popVisit true }
  | skip {v : Vaddr} {st : GcStatus} (hpc : s.gc = .poppedVisit v) (hst : s.status v = some st)
      (hne : st ≠ .inProgress) (hfree : (s.lck v).isFree = true) :
      GcMove s { s with gc := .popVisit true }
  | clearFlag (hpc : s.gc = .clearFlag) :
      GcMove s { s with paintBlackInProgress := false, gc := .sweepLen }
  | sweepLen (hpc : s.gc = .sweepLen) : GcMove s { s with gc := .sweep s.bookLen 0 0 [] }
  | condemn {len i j : Nat} {rs : List Vaddr} (hpc : s.gc = .sweep len i j rs) (hi : i < len)
      (hj : j < s.tableCap) (hst : s.status ⟨i, j⟩ = some .unvisited)
      (hread : (s.lck ⟨i, j⟩).canRead = true) :
      GcMove s { s with gc := .sweep len i (j + 1) (rs ++ [⟨i, j⟩]) }
  | spare {len i j : Nat} {rs : List Vaddr} (hpc : s.gc = .sweep len i j rs) (hi : i < len)
      (hj : j < s.tableCap) (hst : s.status ⟨i, j⟩ ≠ some .unvisited)
      (hread : (s.lck ⟨i, j⟩).canRead = true) :
      GcMove s { s with gc := .sweep len i (j + 1) rs }
  | sweepTable {len i j : Nat} {rs : List Vaddr} (hpc : s.gc = .sweep len i j rs) (hi : i < len)
      (hj : ¬ j < s.tableCap) : GcMove s { s with gc := .sweep len (i + 1) 0 rs }
  | sweepDone {len i j : Nat} {rs : List Vaddr} (hpc : s.gc = .sweep len i j rs) (hi : ¬ i < len) :
      GcMove s { s with gc := .free rs 0 }
  | free {rs : List Vaddr} {v : Vaddr} {n : Nat} (hpc : s.gc = .free (rs ++ [v]) n)
      (hobj : (s.obj v).isSome = true) (hfree : (s.lck v).isFree = true) :
      GcMove s { s with toSpace := s.toSpace.setObj v none, gc := .free rs (n + 1) }
  | freeDone {n : Nat} (hpc : s.gc = .free [] n) : GcMove s { s with gc := .finish n }
  | finish {n : Nat} (hpc : s.gc = .finish n) :
      GcMove s { s with gcInProgress := false, gc := .idle }

/-- The ways of a mutator's section. -/
inductive UserMove (s : State) : Act → State → Prop
  | malloc {t : Tid} {v : Vaddr} {rtLen : Nat} {da : List UInt8} (hidle : s.user t = .idle)
      (hi : v.tableIndex ≤ s.bookLen) (hj : v.cellIndex < s.tableCap) (hnull : v ≠ nullVaddr)
      (hobj : s.obj v = none) (hfree : (s.lck v).isFree = true) :
      UserMove s (.malloc t v rtLen da) (State.learn { s with
        toSpace := (s.toSpace.csMallocP v rtLen da).setLck v ((s.lck v).acqWrite t) } t v)
  | root {t : Tid} {v : Vaddr} {id : Nat} {sp : Space} (hidle : s.user t = .idle)
      (hlock : s.rootSetLocked = false) (hroot : s.toSpace.csRoot v = some (id, sp)) :
      UserMove s (.root t v) { s with toSpace := sp }
  | deroot {t : Tid} {id : Nat} (hidle : s.user t = .idle) (hlock : s.rootSetLocked = false) :
      UserMove s (.deroot t id) { s with toSpace := (s.toSpace.csDeroot id).2 }
  | getRootVaddr {t : Tid} {id : Nat} (hidle : s.user t = .idle) :
      UserMove s (.getRootVaddr t id) (s.learn t (s.toSpace.csGetRootVaddr id).2)
  | getRead {t : Tid} {v : Vaddr} (hidle : s.user t = .idle) (hobj : (s.obj v).isSome = true)
      (hread : (s.lck v).canRead = true) :
      UserMove s (.getRead t v) { s with toSpace := s.toSpace.setLck v ((s.lck v).acqRead t) }
  | getVisited {t : Tid} {v : Vaddr} (hidle : s.user t = .idle) (hfree : (s.lck v).isFree = true)
      (hst : s.status v = some .visited) :
      UserMove s (.getWrite t v) { s with toSpace := s.toSpace.setLck v ((s.lck v).acqWrite t) }
  | getUnvisited {t : Tid} {v : Vaddr} {st : GcStatus} (hidle : s.user t = .idle)
      (hfree : (s.lck v).isFree = true) (hst : s.status v = some st) (hne : st ≠ .visited) :
      UserMove s (.getWrite t v) (State.setUser
        { s with toSpace := s.toSpace.setLck v ((s.lck v).acqWrite t) } t (.checkFlag v))
  | readFlag {t : Tid} {v : Vaddr} (hpc : s.user t = .checkFlag v) :
      UserMove s (.readFlag t) (s.setUser t (if s.paintBlackInProgress then .visit v else .idle))
  | visit {t : Tid} {v : Vaddr} (hpc : s.user t = .visit v) :
      UserMove s (.visit t) (State.setUser { s with toSpace := s.toSpace.csVisitObj v } t .idle)
  | unlock {t : Tid} {v : Vaddr} (hidle : s.user t = .idle) (hholds : (s.lck v).holds t = true) :
      UserMove s (.unlock t v) { s with toSpace := s.toSpace.setLck v ((s.lck v).release t) }
  | loadRef {t : Tid} {v w : Vaddr} {i : Nat} {o : Obj} (hidle : s.user t = .idle)
      (hobj : s.obj v = some o) (hholds : (s.lck v).holds t = true) (hget : o.rt[i]? = some w) :
      UserMove s (.loadRef t v i) (s.learn t w)
  | storeRef {t : Tid} {v w : Vaddr} {i : Nat} {o : Obj} (hidle : s.user t = .idle)
      (hobj : s.obj v = some o) (hwriter : (s.lck v).writer = some t) (hi : i < o.rt.length) :
      UserMove s (.storeRef t v i w) { s with toSpace := s.toSpace.storeRef v i w }
  | storeByte {t : Tid} {v : Vaddr} {i : Nat} {b : UInt8} (hidle : s.user t = .idle)
      (hwriter : (s.lck v).writer = some t) :
      UserMove s (.storeByte t v i b) { s with toSpace := s.toSpace.storeByte v i b }
  | forget {t : Tid} {v : Vaddr} (hidle : s.user t = .idle) :
      UserMove s (.forget t v) { s with known := Function.update s.known t ((s.known t).erase v) }

/-- A list with a last element, taken apart. -/
theorem getLast?_eq_some_split {α : Type*} {l : List α} {a : α} (h : l.getLast? = some a) :
    l = l.dropLast ++ [a] :=
  (List.dropLast_append_getLast? a h).symm

theorem gcStep_cases {s s' : State} (h : s.gcStep = some s') : GcMove s s' := by
  unfold State.gcStep at h
  cases hpc : s.gc with
  | idle =>
    simp only [hpc] at h
    split at h <;> cases h
    · exact .busy hpc (by assumption)
    · exact .start hpc (by simpa using ‹¬ s.gcInProgress = true›)
  | paintLen =>
    simp only [hpc] at h
    cases h
    exact .paintLen hpc
  | paint len i j =>
    simp only [hpc] at h
    split at h
    · split at h
      · split at h <;> cases h
        exact .paintCell hpc (by assumption) (by assumption) (by assumption)
      · cases h
        exact .paintTable hpc (by assumption) (by assumption)
    · cases h
      exact .paintDone hpc (by assumption)
  | lockRoots =>
    simp only [hpc] at h
    cases h
    exact .lockRoots hpc
  | setFlag =>
    simp only [hpc] at h
    cases h
    exact .setFlag hpc
  | pushRoots =>
    simp only [hpc] at h
    cases h
    exact .pushRoots hpc
  | popInProgress p =>
    simp only [hpc] at h
    split at h <;> cases h
    · exact .emptyInProgress hpc (List.getLast?_eq_none_iff.mp (by assumption))
    · exact .popInProgress hpc (getLast?_eq_some_split (by assumption))
  | popped v =>
    simp only [hpc] at h
    split at h
    · cases h
    · rename_i o ho
      split at h
      · split at h <;> cases h
        · exact .grey hpc (by assumption) (Space.status_eq_some.mpr ⟨o, ho, by assumption⟩)
        · exact .drop hpc (Space.status_eq_some.mpr ⟨o, ho, rfl⟩) (by assumption) (by assumption)
      · cases h
  | popVisit p =>
    simp only [hpc] at h
    split at h
    · cases h
      exact .popVisit hpc (getLast?_eq_some_split (by assumption))
    · have hempty := List.getLast?_eq_none_iff.mp (by assumption)
      cases p with
      | true =>
        cases h
        exact .again hpc hempty
      | false =>
        cases h
        exact .exit hpc hempty
  | poppedVisit v =>
    simp only [hpc] at h
    split at h
    · cases h
    · rename_i o ho
      split at h
      · split at h <;> cases h
        · exact .visit hpc (by assumption) (Space.status_eq_some.mpr ⟨o, ho, by assumption⟩)
        · exact .skip hpc (Space.status_eq_some.mpr ⟨o, ho, rfl⟩) (by assumption) (by assumption)
      · cases h
  | clearFlag =>
    simp only [hpc] at h
    cases h
    exact .clearFlag hpc
  | sweepLen =>
    simp only [hpc] at h
    cases h
    exact .sweepLen hpc
  | sweep len i j rs =>
    simp only [hpc] at h
    split at h
    · split at h
      · split at h
        · split at h <;> cases h
          · exact .condemn hpc (by assumption) (by assumption) (by assumption) (by assumption)
          · exact .spare hpc (by assumption) (by assumption) (by assumption) (by assumption)
        · cases h
      · cases h
        exact .sweepTable hpc (by assumption) (by assumption)
    · cases h
      exact .sweepDone hpc (by assumption)
  | free rs n =>
    simp only [hpc] at h
    split at h
    · cases h
      have hnil : rs = [] := List.getLast?_eq_none_iff.mp (by assumption)
      exact .freeDone (hnil ▸ hpc)
    · rename_i v hv
      split at h <;> cases h
      rename_i hcond
      obtain ⟨hobj, hfree⟩ := Bool.and_eq_true_iff.mp hcond
      rw [getLast?_eq_some_split hv] at hpc
      exact .free hpc hobj hfree
  | finish n =>
    simp only [hpc] at h
    cases h
    exact .finish hpc

theorem userStep_cases {s s' : State} {a : Act} {t : Tid} (htid : a.tid = some t)
    (hidle : s.user t = .idle) (h : s.userStep a = some s') : UserMove s a s' := by
  cases a with
  | gc => cases h
  | readFlag => cases h
  | visit => cases h
  | malloc u v rtLen da =>
    cases htid
    simp only [State.userStep] at h
    split at h <;> cases h
    rename_i hcond
    obtain ⟨hi, hj, hnull, hobj, hfree⟩ := hcond
    exact .malloc hidle hi hj hnull hobj hfree
  | root u v =>
    cases htid
    simp only [State.userStep] at h
    split at h
    · cases h
    · obtain ⟨⟨id, sp⟩, hr, rfl⟩ := Option.map_eq_some_iff.mp h
      exact .root hidle (by simpa using ‹¬ s.rootSetLocked = true›) hr
  | deroot u id =>
    cases htid
    simp only [State.userStep] at h
    split at h <;> cases h
    exact .deroot hidle (by simpa using ‹¬ s.rootSetLocked = true›)
  | getRootVaddr u id =>
    cases htid
    cases h
    exact .getRootVaddr hidle
  | getRead u v =>
    cases htid
    simp only [State.userStep] at h
    split at h <;> cases h
    rename_i hcond
    exact .getRead hidle hcond.1 hcond.2
  | getWrite u v =>
    cases htid
    simp only [State.userStep] at h
    split at h
    · cases h
    · rename_i o ho
      split at h
      · split at h <;> cases h
        · exact .getVisited hidle (by assumption) (Space.status_eq_some.mpr ⟨o, ho, by assumption⟩)
        · exact .getUnvisited hidle (by assumption) (Space.status_eq_some.mpr ⟨o, ho, rfl⟩)
            (by assumption)
      · cases h
  | unlock u v =>
    cases htid
    simp only [State.userStep] at h
    split at h <;> cases h
    exact .unlock hidle (by assumption)
  | loadRef u v i =>
    cases htid
    simp only [State.userStep] at h
    split at h
    · cases h
    · split at h
      · obtain ⟨w, hw, rfl⟩ := Option.map_eq_some_iff.mp h
        exact .loadRef hidle (by assumption) (by assumption) hw
      · cases h
  | storeRef u v i w =>
    cases htid
    simp only [State.userStep] at h
    split at h
    · cases h
    · split at h <;> cases h
      rename_i o ho hcond
      exact .storeRef hidle ho hcond.1 hcond.2
  | storeByte u v i b =>
    cases htid
    simp only [State.userStep] at h
    split at h <;> cases h
    exact .storeByte hidle (by assumption)
  | forget u v =>
    cases htid
    cases h
    exact .forget hidle

/-- **What a step can do**: a way of the collector's section or of a mutator's. -/
theorem step_cases {s s' : State} {a : Act} (h : step s a = some s') :
    (a = .gc ∧ GcMove s s') ∨ UserMove s a s' := by
  unfold step at h
  split at h
  · exact .inl ⟨rfl, gcStep_cases h⟩
  · split at h <;> cases h
    exact .inr (.readFlag (by assumption))
  · split at h <;> cases h
    exact .inr (.visit (by assumption))
  · rename_i t htid
    split at h
    · exact .inr (userStep_cases htid (by assumption) h)
    · cases h
  · cases h

end Chvm.Cs
