import Chvm.Cs.Refines
import Chvm.Cs.Sequential

/-!
# What a section on the bytes waits for

A section on the bytes returns whenever the one on the objects does: it waits for the lock of the same
object and for nothing else, and no load or store leaves the memory. So a collection that starts between
two calls comes to its end on the bytes, and leaves there what it leaves of the objects.
-/

set_option autoImplicit false

namespace Chvm.Cs

open Chvm.Lib

/-- How many tables a walk has to go through. -/
def GcPc.walkLen : GcPc → Nat
  | .paint len _ _ | .sweep len _ _ _ => len
  | _ => 0

/-- The book has all the tables of a walk: it never shrinks. -/
theorem walkLen_le_of_step {s s' : State} {a : Act} (h : step s a = some s')
    (hle : s.gc.walkLen ≤ s.bookLen) :
    s'.gc.walkLen ≤ s'.bookLen := by
  rcases step_cases h with ⟨rfl, hm⟩ | hm
  · cases hm with
    | paintCell hpc | paintTable hpc | condemn hpc | spare hpc | sweepTable hpc =>
      rw [hpc] at hle
      exact hle
    | paintLen | sweepLen => exact Nat.le_refl _
    | busy => exact hle
    | _ => exact Nat.zero_le _
  · rw [hm.sameCollector.gc]
    exact Nat.le_trans hle (bookLen_le_of_step h).1

/-- What a collection that is over has freed. -/
theorem Collecting.done_iff {s0 s : State} {done : List Vaddr} (hi : Collecting s0 done s) {n : Nat}
    (hpc : s.gc = .finish n) (v : Vaddr) : v ∈ done ↔ s0.unreachable v := by
  refine ⟨hi.doneDead v, fun hv => ?_⟩
  by_contra hmem
  have hdoomed := hi.dead.doomed v ⟨hv, hmem⟩
  unfold State.doomed at hdoomed
  rw [hpc] at hdoomed
  exact hdoomed

/-- What it has left. -/
theorem Collecting.isSome_iff {s0 s : State} {done : List Vaddr} (hi : Collecting s0 done s) {n : Nat}
    (hpc : s.gc = .finish n) (v : Vaddr) : (s.obj v).isSome = true ↔ (s0.obj v).isSome = true ∧
      s0.Reachable v := by
  by_cases hmem : v ∈ done
  · have hdead := (hi.done_iff hpc v).mp hmem
    rw [hi.freed v hmem]
    exact ⟨fun h => absurd h Bool.false_ne_true, fun h => absurd h.2 hdead.2⟩
  · rw [hi.isSome_of_unfreed hmem]
    refine ⟨fun hsome => ⟨hsome, ?_⟩, And.left⟩
    by_contra hlost
    exact hmem ((hi.done_iff hpc v).mpr ⟨hsome, hlost⟩)

namespace Raw

open Chvm.Virt Chvm.Mb Chvm.Ms

/-- What every reachable state has. -/
structure Sound (s : State) : Prop where
  inv : Inv s.sys
  coherent : Coherent s.shown
  walk : s.shown.gc.walkLen ≤ s.shown.bookLen

variable {s s' : State} {m : Cs.State} {v w : Vaddr} {c : AddrTableCell} {o : Obj} {t : Tid} {act : Cs.Act}

theorem Sound.step {a : Act} (h : Sound s) (hok : Allowed a) (hstep : step s a = some s') : Sound s' := by
  obtain ⟨hinv, ⟨-, hsame⟩ | ⟨act, -, hact⟩⟩ := step_refines h.inv hok hstep
  · exact ⟨hinv, hsame ▸ h.coherent, hsame ▸ h.walk⟩
  · exact ⟨hinv, h.coherent.preserved hact, walkLen_le_of_step hact h.walk⟩

theorem sound_reach {seed adbTCap mbMBytes addr : Nat} {mem : Mem} {ms : MemSpace}
    (hcap : adbTCap < 2 ^ 64) (hpad : mbMBytes + 33 < 2 ^ 64) (hfits : FitsBlock mbMBytes)
    (hnew : newMemSpaceSeed seed adbTCap mbMBytes addr mem = some ms)
    (h : Reaches Raw.step (fun _ a => Allowed a) (State.new ms) s) : Sound s := by
  obtain ⟨hinv, hshown⟩ := inv_new hcap hpad hfits hnew
  refine h.invariant (fun _ _ _ hs hok hst => hs.step hok hst) ⟨hinv, ?_, ?_⟩
  · rw [hshown]
    exact coherent_new adbTCap
  · rw [hshown]
    exact Nat.zero_le _

/-! ## The collector -/

theorem Sound.exists_cell (h : Sound s) {len i j : Nat} (hlen : len ≤ s.shown.bookLen) (hi : i < len)
    (hj : j < s.sys.ms.adb.tableCap) : ∃ c, s.sys.ms.adb.cell ⟨i, j⟩ = some c := by
  obtain ⟨owner, content, hinv⟩ := h.inv.sound
  exact hinv.quiet.exists_cell (Nat.lt_of_lt_of_le hi hlen) hj

/-- The lock of a cell, allocated or not. -/
theorem lck_of_cell (h : Inv s.sys) (hcell : s.sys.ms.adb.cell v = some c) : s.shown.lck v = c.lck := by
  cases hallocated : c.allocated with
  | true =>
    obtain ⟨o, hat⟩ := h.at (AddrBook.entry_eq_some.mpr ⟨hcell, hallocated⟩)
    exact lck_eq hat.cells
  | false =>
    have hentry : s.sys.ms.adb.entry v = none := by
      simp only [AddrBook.entry, hcell, Option.filter_some, hallocated, Bool.false_eq_true, if_false]
    obtain ⟨owner, content, hinv⟩ := h.sound
    rw [lck_eq (cells_of_none hentry), RwLock.eq_of_isFree (hinv.quiet.unlocked v c hcell hallocated)]

/-- A test or a store on a cell that a walk has come to. -/
theorem walk_returns {α : Type} {f : MemSpace → Nat → Option α} (h : Inv s.sys) (x : α)
    (hcell : s.sys.ms.adb.cell v = some c)
    (hf : ∀ o, At s.sys v c o → ∃ y, f s.sys.ms (c.paddr + mallocHeaderSize) = some y) :
    ∃ y, (if c.allocated then f s.sys.ms (c.paddr + mallocHeaderSize) else some x) = some y := by
  split
  next hallocated =>
    obtain ⟨o, hat⟩ := h.at (AddrBook.entry_eq_some.mpr ⟨hcell, hallocated⟩)
    exact hf o hat
  next => exact ⟨x, rfl⟩

theorem withWrite_returns {α : Type} {f : MemSpace → Nat → Option (α × MemSpace)} {g : Obj → α × Obj}
    (hf : Does f g)
    (h : Inv s.sys) (hobj : s.shown.obj v = some o) (hlck : (s.shown.lck v).isFree = true) (t : Tid) :
    ∃ x, withWrite s.sys t v f = some x := by
  obtain ⟨c, hat⟩ := exists_at h hobj
  rw [lck_eq hat.cells] at hlck
  obtain ⟨s', hrun, -⟩ := withWrite_at hf h.sound hat hlck t
  exact ⟨_, hrun⟩

/-- The collector waits for what it waits for in the machine of objects. -/
theorem gcStep_returns (h : Sound s) (hm : Cs.step s.shown .gc = some m) (t : Tid) : ∃ s', s.gcStep t =
    some s' := by
  by_cases hon : onCell s.sys.ms.adb.tableCap s.ctl.gc
  · have hgc : s.shown.gc = s.ctl.gc := rfl
    have hmove : s.shown.gcStep = some m := hm
    unfold Cs.State.gcStep at hmove
    unfold State.gcStep
    rw [hgc] at hmove
    have hwalk := h.walk
    rw [hgc] at hwalk
    generalize s.ctl.gc = pc at *
    cases pc with
    | paint len i j =>
      have hij : i < len ∧ j < s.sys.ms.adb.tableCap := hon
      obtain ⟨c, hcell⟩ := h.exists_cell hwalk hij.1 hij.2
      simp only [if_pos hij.1, if_pos (show j < s.shown.tableCap from hij.2),
        lck_of_cell h.inv hcell] at hmove
      split at hmove
      next hlck =>
        obtain ⟨ms', hms'⟩ := walk_returns (f := objUnvisit) h.inv s.sys.ms hcell fun o hat =>
          (hat.storeStatus h.inv.sound .unvisited).imp fun _ h => h.1
        simp only [if_pos hij, hcell, if_pos hlck, hms']
        exact ⟨_, rfl⟩
      next => cases hmove
    | popped v =>
      simp only at hmove
      split at hmove
      · cases hmove
      next o hobj =>
        split at hmove
        next hlck =>
          obtain ⟨x, hx⟩ := withWrite_returns does_markInProgress h.inv hobj hlck t
          simp only [hx]
          exact ⟨_, rfl⟩
        next => cases hmove
    | poppedVisit v =>
      simp only at hmove
      split at hmove
      · cases hmove
      next o hobj =>
        split at hmove
        next hlck =>
          obtain ⟨x, hx⟩ := withWrite_returns (does_visitInProgress s.ctl.inProgressStack) h.inv hobj hlck t
          simp only [hx]
          exact ⟨_, rfl⟩
        next => cases hmove
    | sweep len i j removeStack =>
      have hij : i < len ∧ j < s.sys.ms.adb.tableCap := hon
      obtain ⟨c, hcell⟩ := h.exists_cell hwalk hij.1 hij.2
      simp only [if_pos hij.1, if_pos (show j < s.shown.tableCap from hij.2),
        lck_of_cell h.inv hcell] at hmove
      split at hmove
      next hlck =>
        obtain ⟨keep, hkeep⟩ := walk_returns (f := objReachable) h.inv true hcell fun o hat =>
          ⟨_, congrArg (Option.map _) (hat.loadStatus h.inv.sound)⟩
        simp only [if_pos hij, hcell, if_pos hlck, hkeep]
        exact ⟨_, rfl⟩
      next => cases hmove
    | free removeStack filtered =>
      have hlast : removeStack.getLast? = some (removeStack.getLast hon) := List.getLast?_eq_some_getLast hon
      simp only [hlast] at hmove ⊢
      split at hmove
      next hcond =>
        obtain ⟨hsome, hlck⟩ := Bool.and_eq_true_iff.mp hcond
        obtain ⟨o, hobj⟩ := Option.isSome_iff_exists.mp hsome
        obtain ⟨c, hat⟩ := exists_at h.inv hobj
        rw [lck_eq hat.cells] at hlck
        obtain ⟨s', hfree, -⟩ := hat.free h.inv.sound hlck t
        rw [hfree]
        exact ⟨_, rfl⟩
      next => cases hmove
    | _ => exact hon.elim
  · rw [gcStep_control hon, State.control, hm]
    exact ⟨_, rfl⟩

/-! ## The mutators -/

/-- What a step of the machine of objects needs, to be one on the bytes: the host's memory is not asked
for, a reference fits its sixteen bytes and a byte of data is inside. -/
def OnBytes (s : Cs.State) : Cs.Act → Prop
  | .malloc .. => False
  | .storeRef _ _ _ w => Word w
  | .storeByte _ v i _ => ∃ o, s.obj v = some o ∧ i < o.da.length
  | _ => True

/-- A mutator outside the calls. -/
theorem step_user {a : Act} (htid : a.tid = some t) (hidle : s.shown.user t = .idle) :
    Raw.step s a = s.userStep a := by
  have hidle' : s.ctl.user t = .idle := hidle
  cases a with
  | gc | tryFullShift => cases htid
  | readFlag u =>
    cases htid
    have hnone : Cs.step s.shown (.readFlag t) = none := by rw [Cs.step_user rfl hidle]; rfl
    exact congrArg (Option.map _) hnone
  | visit u =>
    cases htid
    simp only [Raw.step, hidle', State.userStep]
  | _ =>
    cases htid
    simp only [Raw.step, Act.tid, Option.all_some, hidle', decide_true, if_true]

theorem control_returns (hm : Cs.step s.shown act = some m) : ∃ s', s.control act = some s' :=
  ⟨_, congrArg (Option.map _) hm⟩

theorem getWrite_returns (h : Sound s) (hobj : s.shown.obj v = some o) (hlck : (s.shown.lck v).isFree = true)
    (t : Tid) : ∃ s', s.userStep (.getWrite t v) = some s' := by
  obtain ⟨c, hat⟩ := exists_at h.inv hobj
  rw [lck_eq hat.cells] at hlck
  obtain ⟨sys', hget, hchanged⟩ := hat.getWrite h.inv.sound hlck t
  obtain ⟨c₁, hat₁, hlck₁⟩ := hchanged.at
  have hholds : c₁.lck.holds t = true := hlck₁ ▸ (RwLock.holds_acqWrite hlck).mpr rfl
  simp only [State.userStep, hget, hat₁.pointer hchanged.sound hholds, hat₁.loadStatus hchanged.sound,
    Option.bind_eq_bind, Option.bind_some]
  split <;> exact ⟨_, rfl⟩

/-- A mutator waits for what it waits for in the machine of objects. -/
theorem userStep_returns (h : Sound s) (hm : Cs.step s.shown act = some m) (hmove : UserMove s.shown act m)
    (hon : OnBytes s.shown act) : ∃ a s', isStep a [act] ∧ Allowed a ∧ Raw.step s a = some s' := by
  cases hmove with
  | malloc => exact hon.elim
  | @root t v _ _ hidle =>
    obtain ⟨s', hs'⟩ := control_returns hm
    exact ⟨.root t v, s', rfl, trivial, (step_user rfl hidle).trans hs'⟩
  | @deroot t id hidle =>
    obtain ⟨s', hs'⟩ := control_returns hm
    exact ⟨.deroot t id, s', rfl, trivial, (step_user rfl hidle).trans hs'⟩
  | @getRootVaddr t id hidle =>
    obtain ⟨s', hs'⟩ := control_returns hm
    exact ⟨.getRootVaddr t id, s', rfl, trivial, (step_user rfl hidle).trans hs'⟩
  | @forget t v hidle =>
    obtain ⟨s', hs'⟩ := control_returns hm
    exact ⟨.forget t v, s', rfl, trivial, (step_user rfl hidle).trans hs'⟩
  | @readFlag t v =>
    obtain ⟨s', hs'⟩ := control_returns hm
    exact ⟨.readFlag t, s', rfl, trivial, hs'⟩
  | @getRead t v hidle hobj hread =>
    obtain ⟨o, ho⟩ := Option.isSome_iff_exists.mp hobj
    obtain ⟨c, hat⟩ := exists_at h.inv ho
    rw [lck_eq hat.cells] at hread
    obtain ⟨sys', hget, -⟩ := hat.getRead h.inv.sound hread t
    exact ⟨.getRead t v, _, rfl, trivial, (step_user rfl hidle).trans (congrArg (Option.map _) hget)⟩
  | @getVisited t v hidle hfree hst =>
    obtain ⟨o, ho, -⟩ := Space.status_eq_some.mp hst
    obtain ⟨s', hs'⟩ := getWrite_returns h ho hfree t
    exact ⟨.getWrite t v, s', rfl, trivial, (step_user rfl hidle).trans hs'⟩
  | @getUnvisited t v _ hidle hfree hst =>
    obtain ⟨o, ho, -⟩ := Space.status_eq_some.mp hst
    obtain ⟨s', hs'⟩ := getWrite_returns h ho hfree t
    exact ⟨.getWrite t v, s', rfl, trivial, (step_user rfl hidle).trans hs'⟩
  | @visit t v hpc =>
    -- the mutator has had the lock since it entered
    obtain ⟨hwriter, -⟩ := h.coherent.entering t v (entered_of_visit hpc)
    obtain ⟨o, ho⟩ := Option.isSome_iff_exists.mp (h.coherent.inUse v (not_isFree_of_writer hwriter))
    obtain ⟨c, hat⟩ := exists_at h.inv ho
    rw [lck_eq hat.cells] at hwriter
    have hpc' : s.ctl.user t = .visit v := hpc
    obtain ⟨ms', hrun, -⟩ := hat.csVisitObj h.inv.sound s.ctl.inProgressStack
    obtain ⟨s', hs'⟩ : ∃ s', Raw.step s (.visit t) = some s' := by
      simp only [Raw.step, hpc', hat.pointer h.inv.sound (RwLock.holds_iff.mpr (.inl hwriter)), hrun,
        Option.bind_eq_bind, Option.bind_some]
      exact ⟨_, rfl⟩
    exact ⟨.visit t, s', rfl, trivial, hs'⟩
  | @unlock t v hidle hholds =>
    obtain ⟨o, ho⟩ := Option.isSome_iff_exists.mp (h.coherent.inUse v (isFree_false_of_holds hholds))
    obtain ⟨c, hat⟩ := exists_at h.inv ho
    rw [lck_eq hat.cells] at hholds
    obtain ⟨sys', hunlock, -⟩ := hat.unlock h.inv.sound hholds
    exact ⟨.unlock t v, _, rfl, trivial, (step_user rfl hidle).trans (congrArg (Option.map _) hunlock)⟩
  | @loadRef t v w i o hidle hobj hholds hget =>
    obtain ⟨c, hat⟩ := exists_at h.inv hobj
    rw [lck_eq hat.cells] at hholds
    obtain ⟨s', hs'⟩ : ∃ s', s.userStep (.loadRef t v i) = some s' := by
      simp only [State.userStep, hat.pointer h.inv.sound hholds, hat.loadRtLen h.inv.sound,
        Option.bind_eq_bind,
        Option.bind_some, if_pos (List.getElem?_eq_some_iff.mp hget).1, hat.loadRef h.inv.sound hget]
      exact ⟨_, rfl⟩
    exact ⟨.loadRef t v i, s', rfl, trivial, (step_user rfl hidle).trans hs'⟩
  | @storeRef t v w i o hidle hobj hwriter hi =>
    obtain ⟨c, hat⟩ := exists_at h.inv hobj
    rw [lck_eq hat.cells] at hwriter
    obtain ⟨ms', hset, -⟩ := hat.storeRef h.inv.sound hi w
    obtain ⟨s', hs'⟩ : ∃ s', s.userStep (.storeRef t v i w) = some s' := by
      simp only [State.userStep, hat.pointer h.inv.sound (RwLock.holds_iff.mpr (.inl hwriter)),
        (AddrBook.entry_eq_some.mp hat.entry).1, hat.loadRtLen h.inv.sound, Option.bind_eq_bind,
          Option.bind_some,
        if_pos (And.intro hwriter hi), hset]
      exact ⟨_, rfl⟩
    exact ⟨.storeRef t v i w, s', rfl, hon, (step_user rfl hidle).trans hs'⟩
  | @storeByte t v i b hidle hwriter =>
    obtain ⟨o, hobj, hi⟩ := hon
    obtain ⟨c, hat⟩ := exists_at h.inv hobj
    rw [lck_eq hat.cells] at hwriter
    obtain ⟨ms', hset, -⟩ := hat.storeByte h.inv.sound hi b
    obtain ⟨s', hs'⟩ : ∃ s', s.userStep (.storeByte t v i b) = some s' := by
      simp only [State.userStep, hat.pointer h.inv.sound (RwLock.holds_iff.mpr (.inl hwriter)),
        (AddrBook.entry_eq_some.mp hat.entry).1, hat.loadRtLen h.inv.sound, hat.loadDaSize h.inv.sound,
        Option.bind_eq_bind, Option.bind_some, if_pos (And.intro hwriter hi), hset]
      exact ⟨_, rfl⟩
    exact ⟨.storeByte t v i b, s', rfl, trivial, (step_user rfl hidle).trans hs'⟩

/-- A step has one name, a malloc apart: the vaddr and the data are the space's choice. -/
theorem isStep_unique {a : Act} {act act' : Cs.Act} {m : Cs.State} (h : isStep a [act]) (hon : OnBytes m act)
    (h' : isStep a [act']) : act' = act := by
  cases a with
  | malloc =>
    obtain ⟨v, da, -, heq⟩ := h
    cases heq
    exact hon.elim
  | tryFullShift => cases h
  | _ =>
    cases h
    cases h'
    rfl

theorem not_isStep_nil {a : Act} (h : isStep a [act]) : ¬isStep a [] := by
  cases a with
  | malloc =>
    rintro ⟨v, da, -, heq⟩
    cases heq
  | tryFullShift => cases h
  | _ => exact fun h => by cases h

/-- **Nothing else is waited for.** In every reachable state on the bytes, a section that the machine of
objects can take can be taken on the bytes, and leads to the state that it leads to there. -/
theorem bytes_step_returns {seed adbTCap mbMBytes addr : Nat} {mem : Mem} {ms : MemSpace}
    (hcap : adbTCap < 2 ^ 64) (hpad : mbMBytes + 33 < 2 ^ 64) (hfits : FitsBlock mbMBytes)
    (hnew : newMemSpaceSeed seed adbTCap mbMBytes addr mem = some ms)
    (h : Reaches Raw.step (fun _ a => Allowed a) (State.new ms) s) (hon : OnBytes s.shown act)
    (hm : Cs.step s.shown act = some m) :
    ∃ a s', isStep a [act] ∧ Raw.step s a = some s' ∧ s'.shown = m := by
  have hsound := sound_reach hcap hpad hfits hnew h
  obtain ⟨a, s', hact, hok, hstep⟩ : ∃ a s', isStep a [act] ∧ Allowed a ∧ Raw.step s a = some s' := by
    rcases step_cases hm with ⟨rfl, -⟩ | hmove
    · obtain ⟨s', hs'⟩ := gcStep_returns hsound hm 0
      exact ⟨.gc 0, s', rfl, trivial, hs'⟩
    · exact userStep_returns hsound hm hmove hon
  refine ⟨a, s', hact, hstep, ?_⟩
  obtain ⟨-, ⟨hnone, -⟩ | ⟨act', hact', hm'⟩⟩ := step_refines hsound.inv hok hstep
  · exact absurd hnone (not_isStep_nil hact)
  · obtain rfl := isStep_unique hact hon hact'
    exact Option.some.inj (hm'.symm.trans hm)

/-- The thread that made an object can write its data. -/
theorem bytes_step_returns_write : ∃ (s s' : State) (a : Act), isStep a [.storeByte 0 ⟨0, 1⟩ 0 9] ∧
    Raw.step s a = some s' ∧ (s'.shown.obj ⟨0, 1⟩).map (·.da) = some [9] := by
  obtain ⟨ms, s, hnew, hrun, hobj, hidle, hwriter⟩ : ∃ ms, ∃ s : State,
      newMemSpaceSeed 1 2 200 4096 ⟨fun _ => 0⟩ = some ms ∧
      exec Raw.step allowedCheck (State.new ms) [.malloc 0 0 1 8192 ⟨fun _ => 0⟩] = some s ∧
      s.shown.obj ⟨0, 1⟩ = some ⟨.newlyAdded, [], [0]⟩ ∧ s.shown.user 0 = .idle ∧
      (s.shown.lck ⟨0, 1⟩).writer = some 0 := ⟨_, _, rfl, rfl, rfl, rfl, rfl⟩
  have hm : Cs.step s.shown (.storeByte 0 ⟨0, 1⟩ 0 9) = some { s.shown with
      toSpace := s.shown.toSpace.storeByte ⟨0, 1⟩ 0 9 } := (Cs.step_user rfl hidle).trans (if_pos hwriter)
  have hon : OnBytes s.shown (.storeByte 0 ⟨0, 1⟩ 0 9) := ⟨_, hobj, by decide⟩
  obtain ⟨a, s', hact, hstep, hshown⟩ := bytes_step_returns (by decide) (by decide)
    (show FitsBlock 200 by decide)
    hnew (reaches_of_exec allowedCheck_sound _ hrun) hon hm
  refine ⟨s, s', a, hact, hstep, ?_⟩
  rw [hshown, Space.obj_storeByte, if_pos rfl, hobj]
  rfl

/-! ## A collection -/

/-- `cs_collect_garbage` with nobody else running. -/
def State.csCollectGarbage (s : State) (t : Tid) (fuel : Nat) : Option (Nat × State) :=
  if s.ctl.gcInProgress then some (0, s)
  else
    (runUntil (·.gcStep t) (·.ctl.gc.returning) fuel s).bind fun m =>
      (m.gcStep t).map fun s' => (m.ctl.gc.filtered, s')

theorem gcStep_matches (h : Sound s) (hm : s.shown.gcStep = some m) (t : Tid) :
    ∃ s', s.gcStep t = some s' ∧ Sound s' ∧ s'.shown = m := by
  obtain ⟨s', hs'⟩ := gcStep_returns h hm t
  obtain ⟨-, hshown⟩ := gcStep_refines h.inv hs'
  refine ⟨s', hs', h.step (a := .gc t) trivial hs', ?_⟩
  exact Option.some.inj (hshown.symm.trans hm)

/-- A collection on the objects is one on the bytes. -/
theorem csCollectGarbage_matches (h : Sound s) {fuel n : Nat} (t : Tid)
    (hrun : s.shown.csCollectGarbage fuel = some (n, m)) :
    ∃ s', s.csCollectGarbage t fuel = some (n, s') ∧ Sound s' ∧ s'.shown = m := by
  unfold Cs.State.csCollectGarbage at hrun
  unfold State.csCollectGarbage
  have hbusy : s.shown.gcInProgress = s.ctl.gcInProgress := rfl
  rw [hbusy] at hrun
  split at hrun
  next hbusy =>
    cases hrun
    exact ⟨s, if_pos hbusy, h, rfl⟩
  next hbusy =>
    obtain ⟨m₁, hloop, hlast⟩ := Option.bind_eq_some_iff.mp hrun
    obtain ⟨m₂, hm₂, heq⟩ := Option.map_eq_some_iff.mp hlast
    cases heq
    have hstop : ∀ m : State, m.shown.gc.returning = m.ctl.gc.returning := fun _ => rfl
    have hnext : ∀ (m : State) (m' : Cs.State), Sound m → m.shown.gcStep = some m' →
        ∃ n, m.gcStep t = some n ∧ Sound n ∧ n.shown = m' := fun _ _ hs hm => gcStep_matches hs hm t
    obtain ⟨s₁, hs₁, hsound₁, rfl⟩ := runUntil_simulate State.shown hloop hstop hnext h
    obtain ⟨s₂, hs₂, hsound₂, rfl⟩ := gcStep_matches hsound₁ hm₂ t
    refine ⟨s₂, ?_, hsound₂, rfl⟩
    rw [if_neg hbusy, hs₁, Option.bind_some, hs₂, Option.map_some]
    rfl

theorem Sound.mem_live (h : Sound s) : v ∈ s.sys.live ↔ (s.shown.obj v).isSome = true := by
  obtain ⟨owner, content, hinv⟩ := h.inv.sound
  rw [← hinv.entries]
  cases hc : s.sys.ms.adb.entry v with
  | none =>
    rw [obj_eq (cells_of_none hc)]
    rfl
  | some c =>
    obtain ⟨o, hat⟩ := h.inv.at hc
    rw [obj_eq hat.cells]
    rfl

/-- Nothing is locked where nobody has a pointer. -/
theorem Sound.unlocked_iff (h : Sound s) : s.sys.grants = [] ↔ ∀ v, (s.shown.lck v).isFree = true := by
  obtain ⟨owner, content, hinv⟩ := h.inv.sound
  constructor
  · intro hnil v
    cases hc : s.sys.ms.adb.entry v with
    | none =>
      rw [lck_eq (cells_of_none hc)]
      rfl
    | some c =>
      obtain ⟨o, hat⟩ := h.inv.at hc
      rw [lck_eq hat.cells]
      refine RwLock.isFree_of_not_holds fun t => Bool.eq_false_iff.mpr fun hholds => ?_
      obtain ⟨g, hg⟩ := hinv.exists_grant hc hholds
      rw [hnil] at hg
      cases hg
  · intro hfree
    refine List.eq_nil_iff_forall_not_mem.mpr fun g hg => ?_
    obtain ⟨c, hc, -⟩ := hinv.grant_entry hg
    obtain ⟨d, hd, hholds, -⟩ := hinv.grant_bytes hg
    obtain ⟨c', hc', rfl⟩ := store_eq_some.mp hd
    cases hc.symm.trans hc'
    obtain ⟨o, hat⟩ := h.inv.at hc
    have hlck := hfree g.vaddr
    rw [lck_eq hat.cells] at hlck
    rw [RwLock.not_holds_of_isFree hlck] at hholds
    cases hholds

/-- The bytes behind the status are those of what a collection must not touch. -/
theorem store_of_content (h : Sound s) (h' : Sound s')
    (hsame : (s'.shown.obj v).map Obj.content = (s.shown.obj v).map Obj.content) :
    (s'.sys.store v).map (fun d => d.bytes.drop objPreHeaderSize) =
      (s.sys.store v).map fun d => d.bytes.drop objPreHeaderSize := by
  have hbytes : ∀ {s : State}, Sound s → (s.sys.store v).map (fun d => d.bytes.drop objPreHeaderSize) =
      ((s.shown.obj v).map Obj.content).map fun x =>
        le 8 x.1.length ++ (le 8 x.2.length ++ (x.1.flatMap vaddrBytes ++ x.2)) := by
    intro s h
    cases hc : s.sys.ms.adb.entry v with
    | none => rw [store_eq_none.mpr hc, obj_eq (cells_of_none hc)]; rfl
    | some c =>
      obtain ⟨o, hat⟩ := h.inv.at hc
      rw [hat.store, obj_eq hat.cells, Option.map_some, Option.map_some, Option.map_some, Obj.encode,
        List.drop_left' (length_le ..)]
      rfl
  rw [hbytes h, hbytes h', hsame]

/-- **A collection on the bytes is exact.** In every state that threads, collections and shifts lead to, once
nobody is inside a call or has a pointer and no root or reference dangles, `cs_collect_garbage` returns;
the memory space then has the vaddrs that are reachable through the bytes of the objects, the number it
returned is that of the vaddrs it gave back, and the bytes behind the status of every object are as they
were. -/
theorem bytes_collection_exact {seed adbTCap mbMBytes addr : Nat} {mem : Mem} {ms : MemSpace}
    (hcap : adbTCap < 2 ^ 64) (hpad : mbMBytes + 33 < 2 ^ 64) (hfits : FitsBlock mbMBytes)
    (hnew : newMemSpaceSeed seed adbTCap mbMBytes addr mem = some ms)
    (h : Reaches Raw.step (fun _ a => Allowed a) (State.new ms) s) (hidle : s.ctl.gc = .idle)
    (houtside : ∀ t, s.ctl.user t = .idle) (hgrants : s.sys.grants = []) (hstack : s.ctl.inProgressStack = [])
    (hd : NoDangling s.shown) (t : Tid) :
    ∃ fuel n s', s.csCollectGarbage t fuel = some (n, s') ∧
      (∀ v, v ∈ s'.sys.live ↔ v ∈ s.sys.live ∧ s.shown.Reachable v) ∧
      s'.sys.live.length + n = s.sys.live.length ∧ s'.sys.grants = [] ∧
      ∀ v ∈ s'.sys.live, (s'.sys.store v).map (fun d => d.bytes.drop objPreHeaderSize) =
        (s.sys.store v).map fun d => d.bytes.drop objPreHeaderSize := by
  have hsound := sound_reach hcap hpad hfits hnew h
  have hq : Quiet s.shown := ⟨hsound.coherent, hidle, houtside, hsound.unlocked_iff.mp hgrants, hstack⟩
  obtain ⟨fuel, m, done, hloop, hi, hreturn⟩ := collecting_terminates hq hd
  obtain ⟨n, hpc⟩ : ∃ n, m.gc = .finish n := by
    cases hgc : m.gc with
    | finish n => exact ⟨n, rfl⟩
    | _ =>
      rw [hgc] at hreturn
      cases hreturn
  -- the last section gives the call's answer
  have hlast : m.gcStep = some { m with gcInProgress := false, gc := .idle } := by
    unfold Cs.State.gcStep
    rw [hpc]
  have hfree : s.shown.gcInProgress = false := by
    rw [hsound.coherent.called, hq.idle]
    rfl
  have hfilter : m.gc.filtered = n := hpc ▸ rfl
  have hrun : s.shown.csCollectGarbage fuel = some (n, { m with gcInProgress := false, gc := .idle }) := by
    simp only [Cs.State.csCollectGarbage, hfree, Bool.false_eq_true, if_false, hloop, Option.bind_some, hlast,
      Option.map_some, hfilter]
  obtain ⟨s', hrun', hsound', hshown⟩ := csCollectGarbage_matches hsound t hrun
  have hobj : ∀ v, s'.shown.obj v = m.obj v := fun v => by rw [hshown]; rfl
  have hlive : ∀ v, v ∈ s'.sys.live ↔ v ∈ s.sys.live ∧ s.shown.Reachable v := fun v => by
    rw [hsound'.mem_live, hobj, hi.isSome_iff hpc, hsound.mem_live]
  refine ⟨fuel, n, s', hrun', hlive, ?_, ?_, fun v hv => store_of_content hsound hsound' ?_⟩
  · obtain ⟨owner, content, hinv⟩ := hsound.inv.sound
    obtain ⟨owner', content', hinv'⟩ := hsound'.inv.sound
    have hnodup : (s'.sys.live ++ done).Nodup := by
      refine List.nodup_append'.mpr ⟨hinv'.nodup, hi.nodup, fun v hv hmem => ?_⟩
      exact ((hi.done_iff hpc v).mp hmem).2 ((hlive v).mp hv).2
    have hperm : (s'.sys.live ++ done).Perm s.sys.live := by
      refine (List.perm_ext_iff_of_nodup hnodup hinv.nodup).mpr fun v => ?_
      rw [List.mem_append, hlive, hi.done_iff hpc, hsound.mem_live]
      refine ⟨fun h => h.elim And.left And.left, fun hv => ?_⟩
      by_cases hreach : s.shown.Reachable v
      · exact .inl ⟨hv, hreach⟩
      · exact .inr ⟨hv, hreach⟩
    rw [← hperm.length_eq, List.length_append, ← hi.count, hfilter]
  · refine hsound'.unlocked_iff.mpr fun v => ?_
    rw [hshown]
    exact hi.unlocked v
  · rw [hobj]
    exact hi.same v fun hmem => ((hi.done_iff hpc v).mp hmem).2 ((hlive v).mp hv).2

/-- Two objects without references, one of them rooted: the other is given back. -/
theorem bytes_collection_exact_pair : ∃ (s s' : State) (fuel n : Nat), s.csCollectGarbage 3 fuel = some
    (n, s') ∧
    s.sys.live = [⟨0, 0⟩, ⟨0, 1⟩] ∧ (∀ v, v ∈ s'.sys.live ↔ v = ⟨0, 0⟩) ∧ s'.sys.live.length + n = 2 ∧
    (s'.sys.store ⟨0, 0⟩).map (fun d => d.bytes.drop objPreHeaderSize) =
      some [0, 0, 0, 0, 0, 0, 0, 0, 1, 0, 0, 0, 0, 0, 0, 0, 7] := by
  obtain ⟨ms, s, hnew, hrun, hgc, huser, hgrants, hstack, hroots, hlive, hrefs, hrefs', hsize, hbytes⟩ :
      ∃ ms, ∃ s : State, newMemSpaceSeed 1 2 200 4096 ⟨fun _ => 0⟩ = some ms ∧
      exec Raw.step allowedCheck (State.new ms) [.malloc 0 0 1 8192 ⟨fun _ => 0⟩,
        .malloc 0 0 1 8192 ⟨fun _ => 0⟩,
        .storeByte 0 ⟨0, 0⟩ 0 7, .root 0 ⟨0, 0⟩, .unlock 0 ⟨0, 0⟩, .unlock 0 ⟨0, 1⟩] = some s ∧
      s.ctl.gc = .idle ∧ s.ctl.user = (fun _ => .idle) ∧ s.sys.grants = [] ∧ s.ctl.inProgressStack = [] ∧
      s.shown.roots = [⟨0, 0⟩] ∧ s.sys.live = [⟨0, 0⟩, ⟨0, 1⟩] ∧ s.shown.refs ⟨0, 0⟩ = [] ∧
      s.shown.refs ⟨0, 1⟩ = [] ∧ (s.shown.bookLen = 1 ∧ s.shown.tableCap = 2) ∧
      (s.sys.store ⟨0, 0⟩).map (fun d => d.bytes.drop objPreHeaderSize) =
        some [0, 0, 0, 0, 0, 0, 0, 0, 1, 0, 0, 0, 0, 0, 0, 0, 7] :=
    ⟨_, _, rfl, rfl, rfl, rfl, rfl, rfl, rfl, rfl, rfl, rfl, ⟨rfl, rfl⟩, rfl⟩
  have hreach : Reaches Raw.step (fun _ a => Allowed a) (State.new ms) s :=
    reaches_of_exec allowedCheck_sound _ hrun
  have hsound := sound_reach (by decide) (by decide) (show FitsBlock 200 by decide) hnew hreach
  have hedge : ∀ u v, ¬s.shown.edge u v := by
    intro u v huv
    obtain ⟨hi, hj⟩ := hsound.coherent.inBook u (Space.isSome_of_edge huv)
    rw [hsize.1] at hi
    rw [hsize.2] at hj
    obtain ⟨i, j⟩ := u
    have huv : v ∈ s.shown.refs ⟨i, j⟩ := huv
    obtain rfl : i = 0 := Nat.lt_one_iff.mp hi
    rcases (show j = 0 ∨ j = 1 from Nat.le_one_iff_eq_zero_or_eq_one.mp (Nat.le_of_lt_succ hj)) with rfl | rfl
    · rw [hrefs] at huv
      cases huv
    · rw [hrefs'] at huv
      cases huv
  have hlive₀ : (s.shown.obj ⟨0, 0⟩).isSome = true := by
    rw [← hsound.mem_live, hlive]
    exact List.mem_cons_self
  have hroot : ∀ v, s.shown.Reachable v ↔ v = ⟨0, 0⟩ := by
    refine fun v => ⟨fun hr => ?_, ?_⟩
    · refine hr.least (P := fun v => v = ⟨0, 0⟩) (fun v hv _ => ?_) fun u v _ _ huv _ => absurd huv
        (hedge u v)
      rw [hroots] at hv
      exact List.mem_singleton.mp hv
    · rintro rfl
      exact .base (hroots ▸ List.mem_singleton_self _) hlive₀
  have hd : NoDangling s.shown := by
    refine ⟨fun v hv => ?_, fun u v huv => absurd huv (hedge u v)⟩
    rw [hroots, List.mem_singleton] at hv
    exact hv ▸ hlive₀
  obtain ⟨fuel, n, s', hcollect, hmem, hcount, -, hsame⟩ := bytes_collection_exact (by decide) (by decide)
    (show FitsBlock 200 by decide) hnew hreach hgc (fun t => congrFun huser t) hgrants hstack hd 3
  have hleft : ∀ v, v ∈ s'.sys.live ↔ v = ⟨0, 0⟩ := by
    intro v
    rw [hmem, hroot, hlive]
    refine ⟨And.right, ?_⟩
    rintro rfl
    exact ⟨List.mem_cons_self, rfl⟩
  refine ⟨s, s', fuel, n, hcollect, hlive, hleft, ?_, (hsame _ ((hleft _).mpr rfl)).trans hbytes⟩
  rw [hcount, hlive]
  rfl

end Raw

end Chvm.Cs
