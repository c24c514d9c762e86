import Chvm.Cs.Exact

/-!
# One thread

The public calls made one after the other by one thread, each run to its end before the next: a
call is the composition of its sections, and `cs_collect_garbage` runs the collector until it
returns. A collection then frees exactly the objects that cannot be reached, whatever the calls
before it built.
-/

set_option autoImplicit false

namespace Chvm.Cs

open Chvm.Lib

/-! ## The calls -/

/-- The collector is about to return. -/
def GcPc.returning : GcPc → Bool
  | .finish _ => true
  | _ => false

/-- `cs_collect_garbage` with nobody else running: the number it returns and the space after it. -/
def State.csCollectGarbage (s : State) (fuel : Nat) : Option (Nat × State) :=
  if s.gcInProgress then some (0, s)
  else
    (runUntil State.gcStep (fun m => m.gc.returning) fuel s).bind fun m =>
      m.gcStep.map fun s' => (m.gc.filtered, s')

/-- `cs_get_write`, all its sections. -/
def State.csGetWrite (s : State) (t : Tid) (v : Vaddr) : Option State :=
  (step s (.getWrite t v)).bind fun m =>
    match m.user t with
    | .idle => some m
    | _ =>
      (step m (.readFlag t)).bind fun m' =>
        match m'.user t with
        | .idle => some m'
        | _ => step m' (.visit t)

/-- The calls of the thread. The vaddr of a new object is the one the address book gives out. -/
inductive Call
  | csMallocObject (v : Vaddr) (rtLen : Nat) (da : List UInt8)
  | csMallocRoot (v : Vaddr) (rtLen : Nat) (da : List UInt8)
  | csRoot (v : Vaddr)
  | csDeroot (rootId : Nat)
  | writeRef (v : Vaddr) (i : Nat) (w : Vaddr)
  | csCollectGarbage (fuel : Nat)
deriving DecidableEq, Repr

/-- One call from beginning to end; `writeRef` is `cs_get_write`, the store and `cs_unlock`. -/
def callStep (s : State) : Call → Option State
  | .csMallocObject v rtLen da =>
    (step s (.malloc 0 v rtLen da)).bind fun m => step m (.unlock 0 v)
  | .csMallocRoot v rtLen da =>
    (step s (.malloc 0 v rtLen da)).bind fun m =>
      (step m (.root 0 v)).bind fun m' => step m' (.unlock 0 v)
  | .csRoot v => step s (.root 0 v)
  | .csDeroot rootId => step s (.deroot 0 rootId)
  | .writeRef v i w =>
    (s.csGetWrite 0 v).bind fun m =>
      (step m (.storeRef 0 v i w)).bind fun m' => step m' (.unlock 0 v)
  | .csCollectGarbage fuel => (s.csCollectGarbage fuel).map Prod.snd

variable {s s' : State}

/-- Inside a call that holds the lock of `v`. -/
structure Holding (v : Vaddr) (s : State) : Prop where
  coherent : Coherent s
  idle : s.gc = .idle
  outside : ∀ t, s.user t = .idle
  others : ∀ w, w ≠ v → (s.lck w).isFree = true
  writer : (s.lck v).writer = some 0
  inProgress : s.inProgressStack = []

theorem quiet_new (adbTCap : Nat) : Quiet (State.new adbTCap) where
  coherent := coherent_new adbTCap
  idle := rfl
  outside _ := rfl
  unlocked _ := rfl
  inProgress := rfl

theorem Quiet.malloc (hq : Quiet s) {v : Vaddr} {n : Nat} {da : List UInt8}
    (h : step s (.malloc 0 v n da) = some s') : Holding v s' := by
  have hc := hq.coherent.preserved h
  rcases step_cases h with ⟨h, -⟩ | hm
  · cases h
  · have hgc := hm.sameCollector.gc.trans hq.idle
    cases hm with
    | malloc =>
      have hlck : ∀ w, ((s.toSpace.csMallocP v n da).setLck v ((s.lck v).acqWrite 0)).lck w =
          if w = v then (s.lck v).acqWrite 0 else s.lck w := fun w => by
        rw [Space.lck_setLck, Space.lck_csMallocP]
      refine ⟨hc, hgc, hq.outside, fun w hw => ?_, ?_, hq.inProgress⟩
      · exact congrArg RwLock.isFree ((hlck w).trans (if_neg hw)) |>.trans (hq.unlocked w)
      · exact congrArg RwLock.writer ((hlck v).trans (if_pos rfl))

/-- The first section of `cs_get_write`. -/
theorem getWrite_effect {t : Tid} {v : Vaddr} (h : step s (.getWrite t v) = some s') :
    (s'.user = s.user ∨ s'.user = Function.update s.user t (.checkFlag v)) ∧
      s'.inProgressStack = s.inProgressStack ∧ s'.gc = s.gc ∧
      ∀ w, s'.lck w = if w = v then (s.lck v).acqWrite t else s.lck w := by
  rcases step_cases h with ⟨h, -⟩ | hm
  · cases h
  · have hgc := hm.sameCollector.gc
    cases hm with
    | getVisited => exact ⟨.inl rfl, rfl, hgc, Space.lck_setLck s.toSpace v _⟩
    | getUnvisited => exact ⟨.inr rfl, rfl, hgc, Space.lck_setLck s.toSpace v _⟩

/-- With the flag clear `cs_get_write` only takes the lock. -/
theorem Quiet.csGetWrite (hq : Quiet s) {v : Vaddr} (h : s.csGetWrite 0 v = some s') :
    Holding v s' := by
  obtain ⟨m, hget, hrest⟩ := Option.bind_eq_some_iff.mp h
  have hcm := hq.coherent.preserved hget
  obtain ⟨huser, hstack, hgc, hlck⟩ := getWrite_effect hget
  have hothers : ∀ w, w ≠ v → (m.lck w).isFree = true := fun w hw => by
    rw [hlck w, if_neg hw]
    exact hq.unlocked w
  have hwriter : (m.lck v).writer = some 0 := by
    rw [hlck v, if_pos rfl]
    rfl
  have hidle := hgc.trans hq.idle
  have hempty := hstack.trans hq.inProgress
  rcases huser with huser | huser
  · have houtside : ∀ t, m.user t = .idle := fun t => huser ▸ hq.outside t
    simp only [houtside 0] at hrest
    cases hrest
    exact ⟨hcm, hidle, houtside, hothers, hwriter, hempty⟩
  · have hin : m.user 0 = .checkFlag v := huser ▸ Function.update_self _ _ _
    simp only [hin] at hrest
    obtain ⟨m', hread, hlast⟩ := Option.bind_eq_some_iff.mp hrest
    have hflag : m.paintBlackInProgress = false := hcm.flag.trans (hidle ▸ rfl)
    have hcm' := hcm.preserved hread
    rcases step_cases hread with ⟨h, -⟩ | hm
    · cases h
    · cases hm with
      | @readFlag _ w _ =>
        have houtside : ∀ t, (m.setUser 0 (if m.paintBlackInProgress then .visit w else .idle)).user t =
            .idle := by
          intro t
          show Function.update m.user 0 _ t = .idle
          rw [hflag, huser, Function.update_idem]
          by_cases ht : t = 0
          · rw [ht, Function.update_self]
            rfl
          · rw [Function.update_of_ne ht]
            exact hq.outside t
        simp only [houtside 0] at hlast
        cases hlast
        exact ⟨hcm', hidle, houtside, hothers, hwriter, hempty⟩

theorem Holding.root {v w : Vaddr} (hi : Holding v s) (h : step s (.root 0 w) = some s') :
    Holding v s' := by
  have hc := hi.coherent.preserved h
  rcases step_cases h with ⟨h, -⟩ | hm
  · cases h
  · have hgc := hm.sameCollector.gc.trans hi.idle
    cases hm with
    | root _ _ hroot =>
      have hsame := Space.csRoot_sameObjects hroot
      have hlck : ∀ u, Space.lck _ u = s.lck u := fun u => congrArg (fun c => (c u).lck) hsame.cells
      refine ⟨hc, hgc, hi.outside, fun u hu => ?_, ?_, hsame.inProgressStack.trans hi.inProgress⟩
      · exact (congrArg RwLock.isFree (hlck u)).trans (hi.others u hu)
      · exact (congrArg RwLock.writer (hlck v)).trans hi.writer

theorem Holding.storeRef {v w : Vaddr} {i : Nat} (hi : Holding v s)
    (h : step s (.storeRef 0 v i w) = some s') : Holding v s' := by
  have hc := hi.coherent.preserved h
  rcases step_cases h with ⟨h, -⟩ | hm
  · cases h
  · have hgc := hm.sameCollector.gc.trans hi.idle
    cases hm with
    | storeRef =>
      have hlck := Space.lck_storeRef s.toSpace v i w
      refine ⟨hc, hgc, hi.outside, fun u hu => ?_, ?_, hi.inProgress⟩
      · exact (congrArg RwLock.isFree (hlck u)).trans (hi.others u hu)
      · exact (congrArg RwLock.writer (hlck v)).trans hi.writer

/-- The call gives its lock back. -/
theorem Holding.unlock {v : Vaddr} (hi : Holding v s) (h : step s (.unlock 0 v) = some s') :
    Quiet s' := by
  have hc := hi.coherent.preserved h
  rcases step_cases h with ⟨h, -⟩ | hm
  · cases h
  · have hgc := hm.sameCollector.gc.trans hi.idle
    cases hm with
    | unlock =>
      have hlck := Space.lck_setLck s.toSpace v ((s.lck v).release 0)
      refine ⟨hc, hgc, hi.outside, fun u => ?_, hi.inProgress⟩
      refine (congrArg RwLock.isFree (hlck u)).trans ?_
      split
      · refine RwLock.isFree_iff.mpr ?_
        simp only [RwLock.release, hi.writer, if_true]
        exact ⟨trivial, hi.coherent.alone v 0 hi.writer⟩
      next hne => exact hi.others u hne

/-- The collector's part of a collection that starts between two calls comes to its end. -/
theorem collecting_terminates {s0 : State} (hq : Quiet s0) (hd : NoDangling s0) :
    ∃ fuel m done, runUntil State.gcStep (fun m => m.gc.returning) fuel s0 = some m ∧
      Collecting s0 done m ∧ m.gc.returning = true := by
  have hstep : ∀ m, (∃ done, Collecting s0 done m) → m.gc.returning = false →
      ∃ m', m.gcStep = some m' ∧ (∃ done, Collecting s0 done m') ∧ RankLt m'.rank m.rank := by
    rintro m ⟨done, hi⟩ hgoing
    obtain ⟨m', hm'⟩ := hi.enabled
    have hst : step m .gc = some m' := hm'
    have hpc : ∀ n, m.gc ≠ .finish n := fun n hpc => by
      rw [hpc] at hgoing
      cases hgoing
    exact ⟨m', hm', ⟨_, hi.preserved hd hst hpc⟩, hi.rank_lt hst hpc⟩
  obtain ⟨fuel, m, hrun, ⟨done, hi⟩, hreturn⟩ :=
    runUntil_terminates rankLt_wf hstep ⟨[], collecting_start hq⟩
  exact ⟨fuel, m, done, hrun, hi, hreturn⟩

end Chvm.Cs
