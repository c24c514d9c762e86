import Chvm.Cs.Effects

/-!
# Marking work is accounted for

The coherence of the space's locks, counters and stacks in every reachable state, whatever the
mutators do: a locked cell is allocated, a mutator inside `cs_get_write` is the only holder of its
object, and `visit_stack` holds exactly the work that the statuses show. From it follow the laws of
the marking: statuses only move forward, each object is pushed on `visit_stack` and visited at most
once, and the loop leaves nothing in progress.
-/

set_option autoImplicit false

namespace Chvm.Cs

open Chvm.Lib

/-- The collector is between setting and clearing `paint_black_in_progress`. -/
def GcPc.paintBlack : GcPc → Bool
  | .pushRoots | .popInProgress _ | .popped _ | .popVisit _ | .poppedVisit _ | .clearFlag => true
  | _ => false

/-- A place where `visit_stack` is empty: everywhere but inside a productive iteration. -/
def GcPc.visitEmpty : GcPc → Bool
  | .popInProgress true | .popped _ | .popVisit true | .poppedVisit _ => false
  | _ => true

/-- The object whose `cs_get_write` a mutator is inside of. -/
def UserPc.entered : UserPc → Option Vaddr
  | .idle => none
  | .checkFlag v | .visit v => some v

/-- No restriction on the steps. -/
def anyStep (_ : State) (_ : Act) : Prop := True

/-! ## Statuses -/

/-- The ways a step changes the status of the cell `w`, to `st'`. -/
inductive StatusChange (s : State) : Act → Vaddr → Option GcStatus → Prop
  | same {a : Act} {w : Vaddr} : StatusChange s a w (s.status w)
  | added {t : Tid} {w : Vaddr} {n : Nat} {da : List UInt8} (hst : s.status w = none) :
      StatusChange s (.malloc t w n da) w (some .newlyAdded)
  | painted {len i j : Nat} {st : GcStatus} (hpc : s.gc = .paint len i j) (hi : i < len)
      (hj : j < s.tableCap) (hfree : (s.lck ⟨i, j⟩).isFree = true) (hst : s.status ⟨i, j⟩ = some st) :
      StatusChange s .gc ⟨i, j⟩ (some .unvisited)
  | greyed {w : Vaddr} (hpc : s.gc = .popped w) (hst : s.status w = some .unvisited)
      (hfree : (s.lck w).isFree = true) : StatusChange s .gc w (some .inProgress)
  | blackened {w : Vaddr} (hpc : s.gc = .poppedVisit w) (hst : s.status w = some .inProgress)
      (hfree : (s.lck w).isFree = true) : StatusChange s .gc w (some .visited)
  | visited {t : Tid} {w : Vaddr} {st : GcStatus} (hpc : s.user t = .visit w)
      (hst : s.status w = some st) : StatusChange s (.visit t) w (some .visited)
  | freed {w : Vaddr} {rs : List Vaddr} {n : Nat} (hpc : s.gc = .free (rs ++ [w]) n)
      (hfree : (s.lck w).isFree = true) : StatusChange s .gc w none

private theorem statusChange_mark {s : State} {a : Act} {w : Vaddr} {st' : GcStatus}
    (h : ∀ st, s.status w = some st → StatusChange s a w (some st')) :
    StatusChange s a w (((s.obj w).map (Obj.mark st')).map Obj.gcStatus) := by
  cases hobj : s.obj w with
  | none =>
    have hst : s.status w = none := Space.status_eq_none.mpr hobj
    show StatusChange s a w none
    rw [← hst]
    exact .same
  | some o => exact h _ (Space.status_eq_some.mpr ⟨o, hobj, rfl⟩)

/-- **What a step does to a status.** -/
theorem status_change {s s' : State} {a : Act} (h : step s a = some s') (w : Vaddr) :
    StatusChange s a w (s'.status w) := by
  have hobj := obj_change h w
  unfold Space.status
  generalize s'.obj w = o' at hobj
  cases hobj with
  | same => exact .same
  | added hnone => exact .added (Space.status_eq_none.mpr hnone)
  | painted hpc hi hj hfree => exact statusChange_mark fun _ hst => .painted hpc hi hj hfree hst
  | greyed hpc hfree hst => exact statusChange_mark fun _ _ => .greyed hpc hst hfree
  | blackened hpc hfree hst => exact statusChange_mark fun _ _ => .blackened hpc hst hfree
  | visited hpc => exact statusChange_mark fun _ hst => .visited hpc hst
  | @storedRef t w x i o hw _ _ _ =>
    have hst : s.status w = some o.gcStatus := Space.status_eq_some.mpr ⟨o, hw, rfl⟩
    exact (hst ▸ .same : StatusChange s (.storeRef t w i x) w (some o.gcStatus))
  | storedByte =>
    rw [Option.map_map]
    exact .same
  | freed hpc hfree => exact .freed hpc hfree

/-! ## Coherence -/

/-- What every reachable state has. -/
structure Coherent (s : State) : Prop where
  /-- A locked cell is allocated. -/
  inUse : ∀ v, (s.lck v).isFree = false → (s.obj v).isSome = true
  /-- An allocated cell is in the book. -/
  inBook : ∀ v, (s.obj v).isSome = true → v.tableIndex < s.bookLen ∧ v.cellIndex < s.tableCap
  /-- The null vaddr is nobody's. -/
  nullFree : s.obj nullVaddr = none
  /-- `gc_in_progress` is set while a collection runs. -/
  called : s.gcInProgress = (s.gc != .idle)
  /-- A writer holds the lock alone. -/
  alone : ∀ v t, (s.lck v).writer = some t → (s.lck v).readers = []
  /-- A mutator inside `cs_get_write` has the lock of an object that nobody has visited since. -/
  entering : ∀ t v, (s.user t).entered = some v →
    (s.lck v).writer = some t ∧ s.status v ≠ some .visited
  /-- The flag is set exactly during paint black. -/
  flag : s.paintBlackInProgress = s.gc.paintBlack
  /-- An object in progress is on `visit_stack` or has just been popped from it. -/
  grey : ∀ v, s.status v = some .inProgress → v ∈ s.visitStack ∨ s.gc = .poppedVisit v
  /-- What is on `visit_stack` is in progress or visited. -/
  stacked : ∀ v, v ∈ s.visitStack ∨ s.gc = .poppedVisit v →
    s.status v = some .inProgress ∨ s.status v = some .visited
  /-- `visit_stack` holds something only inside a productive iteration. -/
  empty : s.gc.visitEmpty = true → s.visitStack = []

theorem coherent_new (adbTCap : Nat) : Coherent (State.new adbTCap) where
  inUse _ h := nomatch h
  inBook _ h := nomatch h
  nullFree := rfl
  called := rfl
  alone _ _ h := nomatch h
  entering _ _ h := nomatch h
  flag := rfl
  grey _ h := nomatch h
  stacked _ h := h.elim (fun h => nomatch h) (fun h => nomatch h)
  empty _ := rfl

theorem not_isFree_of_writer {l : RwLock} {t : Tid} (h : l.writer = some t) : l.isFree = false := by
  simp only [RwLock.isFree, h, Option.isNone_some, Bool.false_and]

theorem entered_of_visit {s : State} {t : Tid} {v : Vaddr} (h : s.user t = .visit v) :
    (s.user t).entered = some v := by
  rw [h]
  rfl

/-- A mutator that is inside `cs_get_write` after a step was inside before, or has just entered. -/
theorem entered_change {s s' : State} {a : Act} (h : step s a = some s') {u : Tid} {v : Vaddr}
    (hin : (s'.user u).entered = some v) :
    ((s.user u).entered = some v ∧ a ≠ .visit u) ∨
      (a = .getWrite u v ∧ (s.lck v).isFree = true ∧ s.status v ≠ some .visited) := by
  rcases step_cases h with ⟨rfl, hm⟩ | hm
  · exact .inl ⟨hm.user_eq ▸ hin, nofun⟩
  · have updated : ∀ {t : Tid} {pc : UserPc},
        ((Function.update s.user t pc) u).entered = some v →
          (u = t ∧ pc.entered = some v) ∨ (u ≠ t ∧ (s.user u).entered = some v) := by
      intro t pc hu
      by_cases hut : u = t
      · subst hut
        rw [Function.update_self] at hu
        exact .inl ⟨rfl, hu⟩
      · rw [Function.update_of_ne hut] at hu
        exact .inr ⟨hut, hu⟩
    cases hm with
    | getUnvisited _ hfree hst hne =>
      rcases updated hin with ⟨rfl, hpc⟩ | ⟨_, hu⟩
      · cases hpc
        refine .inr ⟨rfl, hfree, ?_⟩
        rw [hst]
        exact fun h => hne (Option.some.inj h)
      · exact .inl ⟨hu, nofun⟩
    | @readFlag t w hpc =>
      rcases updated hin with ⟨rfl, hnew⟩ | ⟨_, hu⟩
      · refine .inl ⟨?_, nofun⟩
        rw [hpc]
        split at hnew
        · exact hnew
        · cases hnew
      · exact .inl ⟨hu, nofun⟩
    | visit _ =>
      rcases updated hin with ⟨_, hpc⟩ | ⟨hne, hu⟩
      · cases hpc
      · exact .inl ⟨hu, fun h => hne (Act.visit.inj h).symm⟩
    | _ => exact .inl ⟨hin, nofun⟩

/-- Nobody but the mutator inside takes part in its lock until it has left `cs_get_write`. -/
theorem Coherent.lck_entered {s s' : State} {a : Act} (hc : Coherent s) (h : step s a = some s')
    {u : Tid} {v : Vaddr} (hin : (s.user u).entered = some v) : s'.lck v = s.lck v := by
  obtain ⟨hwriter, -⟩ := hc.entering u v hin
  have hbusy := not_isFree_of_writer hwriter
  have hlck := lck_change h v
  generalize s'.lck v = l' at hlck ⊢
  cases hlck with
  | same => rfl
  | added _ hfree => exact absurd hfree (by simp only [hbusy, Bool.false_eq_true, not_false_eq_true])
  | read _ hread =>
    exact absurd (RwLock.canRead_iff.mp hread)
      (by simp only [hwriter, reduceCtorEq, not_false_eq_true])
  | write _ hfree => exact absurd hfree (by simp only [hbusy, Bool.false_eq_true, not_false_eq_true])
  | @released t _ hidle hholds =>
    -- the releasing thread is outside the calls, so it is not `u`, and `u` holds the lock alone
    rcases RwLock.holds_iff.mp hholds with ht | ht
    · have htu : u = t := Option.some.inj (hwriter.symm.trans ht)
      rw [htu, hidle] at hin
      cases hin
    · rw [hc.alone v u hwriter] at ht
      cases ht

theorem Coherent.step_inUse {s s' : State} {a : Act} (hc : Coherent s) (h : step s a = some s')
    (v : Vaddr) (hbusy : (s'.lck v).isFree = false) : (s'.obj v).isSome = true := by
  have hkept : (s.obj v).isSome = true → (s.lck v).isFree = false ∨ (a ≠ .gc) →
      (s'.obj v).isSome = true := by
    intro hsome hwho
    have hobj := obj_change h v
    generalize s'.obj v = o' at hobj ⊢
    cases hobj with
    | same => exact hsome
    | added => rfl
    | storedRef => rfl
    | freed _ hfree =>
      rcases hwho with hb | hb
      · rw [hfree] at hb
        cases hb
      · exact absurd rfl hb
    | _ => simpa only [Option.isSome_map] using hsome
  have hlck := lck_change h v
  generalize s'.lck v = l' at hlck hbusy
  cases hlck with
  | same => exact hkept (hc.inUse v hbusy) (.inl hbusy)
  | @added t _ n da _ _ =>
    rcases step_cases h with ⟨h, -⟩ | hm
    · cases h
    · cases hm with
      | malloc =>
        show (Space.obj ((s.toSpace.csMallocP v n da).setLck v _) v).isSome = true
        simp only [Space.obj_setLck, Space.obj_csMallocP, if_true, Option.isSome_some]
  | read hobj _ => exact hkept hobj (.inr nofun)
  | write hobj _ => exact hkept hobj (.inr nofun)
  | released _ hholds =>
    refine hkept (hc.inUse v ?_) (.inr nofun)
    by_contra hfree
    rw [Bool.not_eq_false] at hfree
    rw [RwLock.not_holds_of_isFree hfree] at hholds
    cases hholds

/-- The book never shrinks, and its tables keep their capacity. -/
theorem bookLen_le_of_step {s s' : State} {a : Act} (h : step s a = some s') :
    s.bookLen ≤ s'.bookLen ∧ s'.tableCap = s.tableCap := by
  rcases step_cases h with ⟨rfl, hm⟩ | hm
  · cases hm <;> exact ⟨Nat.le_refl _, rfl⟩
  · cases hm with
    | malloc => exact ⟨Nat.le_max_left _ _, rfl⟩
    | root _ _ hroot =>
      have hsame := Space.csRoot_sameObjects hroot
      exact ⟨Nat.le_of_eq hsame.bookLen.symm, hsame.tableCap⟩
    | deroot =>
      have hsame := Space.csDeroot_sameObjects s.toSpace ‹Nat›
      exact ⟨Nat.le_of_eq hsame.bookLen.symm, hsame.tableCap⟩
    | _ => exact ⟨Nat.le_refl _, rfl⟩

theorem Coherent.step_inBook {s s' : State} {a : Act} (hc : Coherent s) (h : step s a = some s')
    (v : Vaddr) (hsome : (s'.obj v).isSome = true) :
    v.tableIndex < s'.bookLen ∧ v.cellIndex < s'.tableCap := by
  obtain ⟨hlen, hcap⟩ := bookLen_le_of_step h
  have kept : (s.obj v).isSome = true → v.tableIndex < s'.bookLen ∧ v.cellIndex < s'.tableCap := by
    intro hold
    obtain ⟨hi, hj⟩ := hc.inBook v hold
    exact ⟨Nat.lt_of_lt_of_le hi hlen, hcap ▸ hj⟩
  have hobj := obj_change h v
  generalize s'.obj v = o' at hobj hsome
  cases hobj with
  | same => exact kept hsome
  | added =>
    rcases step_cases h with ⟨h, -⟩ | hm
    · cases h
    · cases hm with
      | malloc _ _ hj => exact ⟨Nat.lt_of_lt_of_le (Nat.lt_succ_self _) (Nat.le_max_right _ _), hj⟩
  | storedRef hold => exact kept (hold ▸ rfl)
  | freed => cases hsome
  | _ => exact kept (by simpa only [Option.isSome_map] using hsome)

theorem Coherent.step_nullFree {s s' : State} {a : Act} (hc : Coherent s)
    (h : step s a = some s') : s'.obj nullVaddr = none := by
  have hnull := hc.nullFree
  have hobj := obj_change h nullVaddr
  generalize hw : nullVaddr = w at hobj hnull ⊢
  generalize s'.obj w = o' at hobj ⊢
  cases hobj with
  | same => exact hnull
  | added =>
    rcases step_cases h with ⟨h, -⟩ | hm
    · cases h
    · cases hm with
      | malloc _ _ _ hne => exact absurd hw.symm hne
  | storedRef hold => cases hnull.symm.trans hold
  | freed => rfl
  | _ => rw [hnull]; rfl

theorem Coherent.step_called {s s' : State} {a : Act} (hc : Coherent s) (h : step s a = some s') :
    s'.gcInProgress = (s'.gc != .idle) := by
  have hcalled := hc.called
  rcases step_cases h with ⟨rfl, hm⟩ | hm
  · cases hm with
    | busy => exact hcalled
    | start => rfl
    | finish => rfl
    | _ =>
      rw [‹s.gc = _›] at hcalled
      exact hcalled
  · rw [hm.sameCollector.gc, hm.sameCollector.gcInProgress]
    exact hcalled

theorem Coherent.step_alone {s s' : State} {a : Act} (hc : Coherent s) (h : step s a = some s')
    (v : Vaddr) (t : Tid) (hw : (s'.lck v).writer = some t) : (s'.lck v).readers = [] := by
  have hlck := lck_change h v
  generalize s'.lck v = l' at hlck hw ⊢
  cases hlck with
  | same => exact hc.alone v t hw
  | added _ hfree => exact (RwLock.isFree_iff.mp hfree).2
  | read _ hread =>
    have hnone : (s.lck v).writer = some t := hw
    rw [RwLock.canRead_iff.mp hread] at hnone
    cases hnone
  | write _ hfree => exact (RwLock.isFree_iff.mp hfree).2
  | @released u _ _ _ =>
    have hold := hc.alone v t (RwLock.writer_of_writer_release hw)
    unfold RwLock.release
    split
    · exact hold
    · simp only [hold, List.erase_nil]

theorem Coherent.step_entering {s s' : State} {a : Act} (hc : Coherent s) (h : step s a = some s')
    (u : Tid) (v : Vaddr) (hin : (s'.user u).entered = some v) :
    (s'.lck v).writer = some u ∧ s'.status v ≠ some .visited := by
  rcases entered_change h hin with ⟨hold, hne⟩ | ⟨rfl, hfree, hst⟩
  · obtain ⟨hwriter, hst⟩ := hc.entering u v hold
    have hbusy := not_isFree_of_writer hwriter
    refine ⟨(hc.lck_entered h hold).symm ▸ hwriter, fun hvis => ?_⟩
    have hchange := status_change h v
    rw [hvis] at hchange
    generalize hst' : some GcStatus.visited = st' at hchange
    cases hchange with
    | same => exact hst hst'.symm
    | blackened _ _ hfree =>
      rw [hfree] at hbusy
      cases hbusy
    | @visited t _ _ hpc _ =>
      -- both mutators would be the writer
      have hw := (hc.entering t v (entered_of_visit hpc)).1
      have htu : u = t := Option.some.inj (hwriter.symm.trans hw)
      exact hne (htu ▸ rfl)
    | _ => cases hst'
  · rcases step_cases h with ⟨h, -⟩ | hm
    · cases h
    · have hstatus : s'.status v = s.status v := by
        cases hm <;> exact Space.status_setLck s.toSpace _ _ v
      have hlck : s'.lck v = (s.lck v).acqWrite u := by
        cases hm <;> exact (Space.lck_setLck s.toSpace _ _ v).trans (if_pos rfl)
      exact ⟨by rw [hlck]; rfl, by rw [hstatus]; exact hst⟩

theorem Coherent.step_flag {s s' : State} {a : Act} (hc : Coherent s) (h : step s a = some s') :
    s'.paintBlackInProgress = s'.gc.paintBlack := by
  have hflag := hc.flag
  rcases step_cases h with ⟨rfl, hm⟩ | hm
  · cases hm with
    | busy => exact hflag
    | setFlag => rfl
    | clearFlag => rfl
    | _ =>
      rw [‹s.gc = _›] at hflag
      exact hflag
  · rw [hm.sameCollector.gc, hm.sameCollector.paintBlackInProgress]
    exact hflag

/-- A status that a mutator's section leaves in progress was in progress before. -/
theorem UserMove.status_inProgress {s s' : State} {a : Act} (hm : UserMove s a s')
    (h : step s a = some s') {v : Vaddr} (hst : s'.status v = some .inProgress) :
    s.status v = some .inProgress := by
  have hchange := status_change h v
  generalize s'.status v = st' at hchange hst
  cases hchange with
  | same => exact hst
  | greyed => cases hm
  | _ => cases hst

theorem Coherent.step_grey {s s' : State} {a : Act} (hc : Coherent s) (h : step s a = some s')
    (v : Vaddr) (hst : s'.status v = some .inProgress) :
    v ∈ s'.visitStack ∨ s'.gc = .poppedVisit v := by
  rcases step_cases h with ⟨rfl, hm⟩ | hm
  · -- the moves that end the work on `v` change its status; the others keep or move the work
    have kept : ∀ {pc : GcPc}, s.gc = pc → (pc ≠ .poppedVisit v) → s.status v = some .inProgress →
        v ∈ s.visitStack := fun hpc hne hst =>
      (hc.grey v hst).resolve_right fun hpc' => hne (hpc.symm.trans hpc')
    cases hm with
    | busy => exact hc.grey v hst
    | @paintCell len i j hpc =>
      have hst := (Space.status_setStatus s.toSpace ⟨i, j⟩ .unvisited v).symm.trans hst
      split at hst
      · simp only [Option.map_eq_some_iff, reduceCtorEq, and_false, exists_false] at hst
      · exact .inl (kept hpc nofun hst)
    | @grey w hpc =>
      have hst := (Space.status_setStatus s.toSpace w .inProgress v).symm.trans hst
      refine .inl (List.mem_append.mpr ?_)
      split at hst
      next heq => exact .inr (List.mem_singleton.mpr heq)
      next => exact .inl (kept hpc nofun hst)
    | @popVisit p rest w hpc hstack =>
      have hmem := kept hpc nofun hst
      rw [hstack, List.mem_append, List.mem_singleton] at hmem
      exact hmem.imp_right fun heq => congrArg GcPc.poppedVisit heq.symm
    | @visit w hpc =>
      have hst := (Space.status_csVisitObj s.toSpace w v).symm.trans hst
      split at hst
      · simp only [Option.map_eq_some_iff, reduceCtorEq, and_false, exists_false] at hst
      next hne => exact .inl (kept hpc (fun heq => hne (GcPc.poppedVisit.inj heq).symm) hst)
    | @skip w st hpc hstw hne =>
      refine .inl (kept hpc (fun heq => ?_) hst)
      cases heq
      exact hne (Option.some.inj (hstw.symm.trans hst))
    | @free rs w n hpc =>
      obtain ⟨o, ho, hmark⟩ := Space.status_eq_some.mp hst
      have ho := (Space.obj_setObj s.toSpace w none v).symm.trans ho
      split at ho
      · cases ho
      · exact .inl (kept hpc nofun (Space.status_eq_some.mpr ⟨o, ho, hmark⟩))
    | _ =>
      have hpc := ‹s.gc = _›
      exact .inl (kept hpc nofun hst)
  · rw [hm.sameCollector.gc, hm.sameCollector.visitStack]
    exact hc.grey v (hm.status_inProgress h hst)

theorem Coherent.step_empty {s s' : State} {a : Act} (hc : Coherent s) (h : step s a = some s')
    (hpc' : s'.gc.visitEmpty = true) : s'.visitStack = [] := by
  rcases step_cases h with ⟨rfl, hm⟩ | hm
  · have kept : ∀ {pc : GcPc}, s.gc = pc → pc.visitEmpty = true → s.visitStack = [] :=
      fun hpc hempty => hc.empty (hpc ▸ hempty)
    cases hm with
    | busy => exact hc.empty hpc'
    | grey => cases hpc'
    | drop => cases hpc'
    | popVisit => cases hpc'
    | visit => cases hpc'
    | skip => cases hpc'
    | popInProgress => cases hpc'
    | again _ hempty => exact hempty
    | exit _ hempty => exact hempty
    | @emptyInProgress p hpc =>
      cases p with
      | true => cases hpc'
      | false => exact kept hpc rfl
    | _ =>
      have hpc := ‹s.gc = _›
      exact kept hpc rfl
  · rw [hm.sameCollector.visitStack]
    exact hc.empty (hm.sameCollector.gc ▸ hpc')

theorem Coherent.step_stacked {s s' : State} {a : Act} (hc : Coherent s) (h : step s a = some s')
    (v : Vaddr) (hv : v ∈ s'.visitStack ∨ s'.gc = .poppedVisit v) :
    s'.status v = some .inProgress ∨ s'.status v = some .visited := by
  have hempty := hc.step_empty h
  -- a status once in progress or visited stays so unless the object is painted or freed
  have kept : s.status v = some .inProgress ∨ s.status v = some .visited →
      (∀ len i j, s.gc ≠ .paint len i j) → (∀ rs n, s.gc ≠ .free rs n) →
      s'.status v = some .inProgress ∨ s'.status v = some .visited := by
    intro hold hpaint hfree
    have hchange := status_change h v
    generalize s'.status v = st' at hchange ⊢
    cases hchange with
    | same => exact hold
    | added hnone => rcases hold with hold | hold <;> rw [hnone] at hold <;> cases hold
    | painted hpc => exact absurd hpc (hpaint _ _ _)
    | greyed => exact .inl rfl
    | blackened => exact .inr rfl
    | visited => exact .inr rfl
    | freed hpc => exact absurd hpc (hfree _ _)
  rcases step_cases h with ⟨rfl, hm⟩ | hm
  · have quiet : ∀ {P : Prop}, s'.gc.visitEmpty = true → P := by
      intro P hq
      rcases hv with hv | hv
      · rw [hempty hq] at hv
        cases hv
      · rw [hv] at hq
        cases hq
    have still : ∀ {pc : GcPc}, s.gc = pc → (∀ len i j, pc ≠ .paint len i j) →
        (∀ rs n, pc ≠ .free rs n) → (v ∈ s.visitStack ∨ s.gc = .poppedVisit v) →
        s'.status v = some .inProgress ∨ s'.status v = some .visited :=
      fun hpc h1 h2 hv => kept (hc.stacked v hv) (hpc ▸ h1) (hpc ▸ h2)
    cases hm with
    | @grey w hpc _ hst =>
      by_cases heq : v = w
      · subst heq
        refine .inl ((Space.status_setStatus s.toSpace v .inProgress v).trans ?_)
        rw [if_pos rfl, hst]
        rfl
      · refine still hpc nofun nofun (.inl ?_)
        have hmem := hv.resolve_right nofun
        exact (List.mem_append.mp hmem).resolve_right fun h => heq (List.mem_singleton.mp h)
    | @popVisit p rest w hpc hstack =>
      refine still hpc nofun nofun (.inl ?_)
      rw [hstack, List.mem_append, List.mem_singleton]
      exact hv.imp_right fun h => (GcPc.poppedVisit.inj h).symm
    | popInProgress hpc => exact still hpc nofun nofun (.inl (hv.resolve_right nofun))
    | emptyInProgress hpc => exact still hpc nofun nofun (.inl (hv.resolve_right nofun))
    | drop hpc => exact still hpc nofun nofun (.inl (hv.resolve_right nofun))
    | visit hpc => exact still hpc nofun nofun (.inl (hv.resolve_right nofun))
    | skip hpc => exact still hpc nofun nofun (.inl (hv.resolve_right nofun))
    | busy hpc => exact quiet (hpc ▸ rfl)
    | _ => exact quiet rfl
  · have hgc := hm.sameCollector.gc
    rw [hgc, hm.sameCollector.visitStack] at hv
    have hbusy : s.gc.visitEmpty = false := by
      by_contra hq
      rw [Bool.not_eq_false] at hq
      rcases hv with hv | hv
      · rw [hc.empty hq] at hv
        cases hv
      · rw [hv] at hq
        cases hq
    refine kept (hc.stacked v hv) (fun _ _ _ hpc => ?_) (fun _ _ hpc => ?_) <;>
      · rw [hpc] at hbusy
        cases hbusy

theorem Coherent.preserved {s s' : State} {a : Act} (hc : Coherent s) (h : step s a = some s') :
    Coherent s' where
  inUse := hc.step_inUse h
  inBook := hc.step_inBook h
  nullFree := hc.step_nullFree h
  called := hc.step_called h
  alone := hc.step_alone h
  entering := hc.step_entering h
  flag := hc.step_flag h
  grey := hc.step_grey h
  stacked := hc.step_stacked h
  empty := hc.step_empty h

/-- The status changes of paint black. -/
inductive GcStatus.Forward : GcStatus → GcStatus → Prop
  | enter : Forward .unvisited .inProgress
  | leave : Forward .inProgress .visited
  | visitUnvisited : Forward .unvisited .visited
  | visitNewlyAdded : Forward .newlyAdded .visited

/-- The step runs `cs_visit_obj` on `v`, by the collector or by a mutator. -/
def visitsObj (v : Vaddr) (e : State × Act) : Bool :=
  match e.2 with
  | .gc => e.1.gc == .poppedVisit v && e.1.status v == some .inProgress
  | .visit t => e.1.user t == .visit v
  | _ => false

/-- During paint black no object is freed, and a status only moves forward. -/
theorem Coherent.status_forward {s s' : State} {a : Act} (hc : Coherent s)
    (h : step s a = some s') (hblack : s.paintBlackInProgress = true) {v : Vaddr} {st : GcStatus}
    (hst : s.status v = some st) : ∃ st', s'.status v = some st' ∧ (st' = st ∨ st.Forward st') := by
  have hpc : s.gc.paintBlack = true := hc.flag ▸ hblack
  have hchange := status_change h v
  generalize s'.status v = x at hchange
  cases hchange with
  | same => exact ⟨st, hst, .inl rfl⟩
  | added hnone =>
    rw [hnone] at hst
    cases hst
  | painted hpaint =>
    rw [hpaint] at hpc
    cases hpc
  | greyed _ hold =>
    cases hst.symm.trans hold
    exact ⟨_, rfl, .inr .enter⟩
  | blackened _ hold =>
    cases hst.symm.trans hold
    exact ⟨_, rfl, .inr .leave⟩
  | visited =>
    refine ⟨_, rfl, ?_⟩
    cases st with
    | newlyAdded => exact .inr .visitNewlyAdded
    | unvisited => exact .inr .visitUnvisited
    | inProgress => exact .inr .leave
    | visited => exact .inl rfl
  | freed hfree =>
    rw [hfree] at hpc
    cases hpc

/-- The places a collection passes before paint black. -/
def GcPc.painting : GcPc → Bool
  | .paintLen | .paint .. => true
  | _ => false

end Chvm.Cs
