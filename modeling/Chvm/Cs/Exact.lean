import Chvm.Cs.Complete
import Mathlib.Algebra.Order.BigOperators.Group.List
import Mathlib.Algebra.Order.Ring.Nat

/-!
# A collection on its own

The collector's steps alone, from a state between two cycles in which no lock is held, nothing is
left on the stacks and no root or reference dangles. The run neither gets stuck nor goes on for
ever: each step lowers a lexicographic rank, in which the marking loop counts a white object twice
and a grey one once. At its end the objects that are not reachable are gone, and the others are as
they were but for their status.
-/

set_option autoImplicit false

namespace Chvm.Cs

open Chvm.Lib

/-- What a collection must not touch: the reference table and the data. -/
def Obj.content (o : Obj) : List Vaddr × List UInt8 := (o.rt, o.da)

/-- An allocated object that cannot be reached from the root set. -/
def State.unreachable (s : State) (v : Vaddr) : Prop := (s.obj v).isSome = true ∧ ¬ s.Reachable v

/-- Every rooted vaddr and every reference is that of an allocated object. -/
structure NoDangling (s : State) : Prop where
  roots : ∀ v ∈ s.roots, (s.obj v).isSome = true
  refs : ∀ u v, s.edge u v → (s.obj v).isSome = true

/-- Between two calls: nobody is inside one, nothing is locked and nothing is left on the stack. -/
structure Quiet (s : State) : Prop where
  coherent : Coherent s
  idle : s.gc = .idle
  outside : ∀ t, s.user t = .idle
  unlocked : ∀ v, (s.lck v).isFree = true
  inProgress : s.inProgressStack = []

/-- The count `ms_filter` has come to. -/
def GcPc.filtered : GcPc → Nat
  | .free _ n | .finish n => n
  | _ => 0

/-- What the collector's next section frees. -/
def GcPc.freeing : GcPc → List Vaddr
  | .free rs _ => rs.getLast?.toList
  | _ => []

/-- The sweep is looking for white objects. -/
def GcPc.sweeping : GcPc → Bool
  | .sweepLen | .sweep .. => true
  | _ => false

/-- How far paint white has come. -/
def State.painted (s : State) : Prop :=
  match s.gc with
  | .paint len i j =>
    len = s.bookLen ∧
      ∀ v st, s.status v = some st → Vaddr.before v i j → st = .unvisited
  | .lockRoots | .setFlag => ∀ v st, s.status v = some st → st = .unvisited
  | _ => True

/-- What every state of a collection from `s0` has that has freed the objects of `done`. -/
structure Collecting (s0 : State) (done : List Vaddr) (s : State) : Prop where
  coherent : Coherent s
  collected : Collected s.gc
  drained : Drained s
  unlocked : ∀ v, (s.lck v).isFree = true
  rootSet : s.rootSet = s0.rootSet
  same : ∀ v, v ∉ done → (s.obj v).map Obj.content = (s0.obj v).map Obj.content
  freed : ∀ v ∈ done, s.obj v = none
  nodup : done.Nodup
  dead : Isolated (fun v => s0.unreachable v ∧ v ∉ done) s
  doneDead : ∀ v ∈ done, s0.unreachable v
  condemned : ∀ v ∈ s.gc.removeStack, s0.unreachable v ∧ v ∉ done
  count : s.gc.filtered = done.length
  painted : s.painted
  marking : s.gc.paintBlack = true → Snapshot s0 s
  swept : s.gc.sweeping = true → ∀ v, s0.Reachable v → s.status v = some .visited
  pending : ∀ v, v ∈ s.inProgressStack ∨ v ∈ s.visitStack ∨ s.gc = .popped v ∨
    s.gc = .poppedVisit v → (s0.obj v).isSome = true

variable {s0 s s' : State} {done : List Vaddr}

/-! ## The state at the start -/

theorem Quiet.visitStack (hq : Quiet s) : s.visitStack = [] := hq.coherent.empty (hq.idle ▸ rfl)

theorem collecting_start (hq : Quiet s0) : Collecting s0 [] s0 where
  coherent := hq.coherent
  collected := .of_nil (hq.idle ▸ rfl)
  drained _ := hq.inProgress
  unlocked := hq.unlocked
  rootSet := rfl
  same _ _ := rfl
  freed _ h := nomatch h
  nodup := List.nodup_nil
  dead :=
    { allocated := fun _ hv => hv.1.1
      notRooted := fun _ hv hroot => hv.1.2 (.base hroot hv.1.1)
      notHeld := fun v _ => hq.unlocked v
      notPending := fun v _ => by
        rintro (⟨hp, -⟩ | hp | hp | hp | hp)
        · cases hq.idle.symm.trans hp
        · rw [hq.inProgress] at hp
          cases hp
        · rw [hq.visitStack] at hp
          cases hp
        · cases hq.idle.symm.trans hp
        · cases hq.idle.symm.trans hp
      noEdge := fun u v hv hedge => by
        have hu := Space.isSome_of_edge hedge
        exact ⟨⟨hu, fun hreach => hv.1.2 (.step hreach hedge hv.1.1)⟩, List.not_mem_nil⟩
      doomed := fun v _ => by
        unfold State.doomed
        rw [hq.idle]
        trivial }
  doneDead _ h := nomatch h
  condemned v h := by
    rw [hq.idle] at h
    cases h
  count := hq.idle ▸ rfl
  painted := by
    unfold State.painted
    rw [hq.idle]
    trivial
  marking h := by
    rw [hq.idle] at h
    cases h
  swept h := by
    rw [hq.idle] at h
    cases h
  pending v h := by
    rw [hq.inProgress, hq.visitStack, hq.idle] at h
    rcases h with h | h | h | h <;> cases h

/-! ## One step -/

theorem mem_freeing {v : Vaddr} : v ∈ s.gc.freeing ↔ freesObj v (s, .gc) = true := by
  unfold GcPc.freeing freesObj
  split <;> simp_all

theorem isSome_of_content {v : Vaddr}
    (h : (s.obj v).map Obj.content = (s0.obj v).map Obj.content) :
    (s.obj v).isSome = (s0.obj v).isSome := by
  have hsome := congrArg Option.isSome h
  simpa only [Option.isSome_map] using hsome

theorem refs_of_content {v : Vaddr}
    (h : (s.obj v).map Obj.content = (s0.obj v).map Obj.content) : s.refs v = s0.refs v := by
  refine Space.refs_congr ?_
  have hrt := congrArg (Option.map Prod.fst) h
  rw [Option.map_map, Option.map_map] at hrt
  exact hrt

/-- The collector changes no content. -/
theorem content_of_step (h : step s .gc = some s') {v : Vaddr}
    (hfree : freesObj v (s, .gc) = false) :
    (s'.obj v).map Obj.content = (s.obj v).map Obj.content := by
  have hobj := obj_change h v
  generalize s'.obj v = o' at hobj ⊢
  cases hobj with
  | same => rfl
  | freed hpc =>
    rw [frees_iff.mpr ⟨rfl, _, _, hpc⟩] at hfree
    cases hfree
  | _ => rw [Option.map_map]; rfl

theorem Collecting.same_of_step (hi : Collecting s0 done s) (h : step s .gc = some s') (v : Vaddr)
    (hv : v ∉ s.gc.freeing ++ done) :
    (s'.obj v).map Obj.content = (s0.obj v).map Obj.content := by
  rw [List.mem_append, not_or, mem_freeing, Bool.not_eq_true] at hv
  exact (content_of_step h hv.1).trans (hi.same v hv.2)

theorem Collecting.freed_of_step (hi : Collecting s0 done s) (h : step s .gc = some s') (v : Vaddr)
    (hv : v ∈ s.gc.freeing ++ done) : s'.obj v = none := by
  rcases List.mem_append.mp hv with hv | hv
  · exact obj_of_frees h (mem_freeing.mp hv)
  · have hnone := hi.freed v hv
    have hobj := obj_change h v
    generalize s'.obj v = o' at hobj ⊢
    cases hobj with
    | same => exact hnone
    | freed => rfl
    | _ => rw [hnone]; rfl

theorem Collecting.mem_removeStack (_hi : Collecting s0 done s) {v : Vaddr} (hv : v ∈ s.gc.freeing) :
    v ∈ s.gc.removeStack := by
  obtain ⟨-, rs, n, hpc⟩ := frees_iff.mp (mem_freeing.mp hv)
  rw [hpc]
  exact List.mem_append_right _ (List.mem_singleton_self v)

theorem Collecting.nodup_of_step (hi : Collecting s0 done s) : (s.gc.freeing ++ done).Nodup := by
  refine List.nodup_append.mpr ⟨?_, hi.nodup, fun v hv w hw heq => ?_⟩
  · unfold GcPc.freeing
    split
    · cases List.getLast? _ with
      | none => exact List.nodup_nil
      | some v => exact List.pairwise_singleton _ _
    · exact List.nodup_nil
  · subst heq
    exact (hi.condemned v (hi.mem_removeStack hv)).2 hw

theorem Collecting.dead_of_step (hi : Collecting s0 done s) (h : step s .gc = some s') :
    Isolated (fun v => s0.unreachable v ∧ v ∉ s.gc.freeing ++ done) s' := by
  have heq : (fun v => s0.unreachable v ∧ v ∉ s.gc.freeing ++ done) =
      unfreed (fun v => s0.unreachable v ∧ v ∉ done) (s, .gc) := by
    funext v
    simp only [unfreed, List.mem_append, not_or, mem_freeing, Bool.not_eq_true, eq_iff_iff]
    tauto
  rw [heq]
  exact hi.dead.preserved hi.coherent h trivial

theorem Collecting.isSome_of_unfreed (hi : Collecting s0 done s) {v : Vaddr} (hv : v ∉ done) :
    (s.obj v).isSome = (s0.obj v).isSome :=
  isSome_of_content (hi.same v hv)

theorem Collecting.not_done (hi : Collecting s0 done s) {v : Vaddr}
    (hv : (s.obj v).isSome = true) : v ∉ done := fun hmem => by
  rw [hi.freed v hmem] at hv
  cases hv

theorem Collecting.condemned_of_step (hi : Collecting s0 done s) (h : step s .gc = some s')
    (v : Vaddr) (hv : v ∈ s'.gc.removeStack) :
    s0.unreachable v ∧ v ∉ s.gc.freeing ++ done := by
  have old : s.gc.freeing = [] → v ∈ s.gc.removeStack →
      s0.unreachable v ∧ v ∉ s.gc.freeing ++ done := by
    intro hnil hmem
    rw [hnil]
    exact hi.condemned v hmem
  rcases step_cases h with ⟨-, hm⟩ | hm
  · cases hm with
    | busy hpc =>
      rw [hpc] at hv
      cases hv
    | @condemn len i j rs hpc _ _ hst =>
      have hnil : s.gc.freeing = [] := hpc ▸ rfl
      rcases List.mem_append.mp hv with hv | hv
      · exact old hnil (hpc ▸ hv)
      · -- a white object was not reachable: what is reachable is visited
        rw [List.mem_singleton] at hv
        subst hv
        have hsome := isSome_of_status hst
        have hndone := hi.not_done hsome
        refine ⟨⟨(hi.isSome_of_unfreed hndone).symm.trans hsome, fun hreach => ?_⟩, hnil ▸ hndone⟩
        cases hst.symm.trans (hi.swept (hpc ▸ rfl) _ hreach)
    | spare hpc => exact old (hpc ▸ rfl) (hpc ▸ hv)
    | sweepTable hpc => exact old (hpc ▸ rfl) (hpc ▸ hv)
    | sweepDone hpc => exact old (hpc ▸ rfl) (hpc ▸ hv)
    | @free rs w n hpc =>
      have hnodup := hi.collected.nodup
      rw [hpc] at hnodup
      obtain ⟨hdead, hndone⟩ := hi.condemned v (hpc ▸ List.mem_append_left _ hv)
      refine ⟨hdead, fun hmem => (List.mem_append.mp hmem).elim (fun hmem => ?_) hndone⟩
      have hvw : v = w := by
        rw [hpc] at hmem
        simpa only [GcPc.freeing, List.getLast?_concat, Option.toList_some, List.mem_singleton]
          using hmem
      exact (List.nodup_append.mp hnodup).2.2 v hv w (List.mem_singleton_self w) hvw
    | _ => cases hv
  · cases hm

theorem Collecting.count_of_step (hi : Collecting s0 done s) (h : step s .gc = some s')
    (hpc : ∀ n, s.gc ≠ .finish n) : s'.gc.filtered = (s.gc.freeing ++ done).length := by
  have hcount := hi.count
  rcases step_cases h with ⟨-, hm⟩ | hm
  · cases hm with
    | busy hpc' =>
      rw [hpc'] at hcount ⊢
      exact hcount
    | @free rs v n hpc' =>
      rw [hpc'] at hcount ⊢
      simp only [GcPc.filtered, GcPc.freeing, List.getLast?_concat, Option.toList_some,
        List.singleton_append, List.length_cons] at hcount ⊢
      rw [hcount]
    | finish hpc' => exact absurd hpc' (hpc _)
    | _ =>
      rw [‹s.gc = _›] at hcount ⊢
      exact hcount
  · cases hm

/-- Paint white leaves every object white. -/
theorem Collecting.painted_of_step (hi : Collecting s0 done s) (h : step s .gc = some s') :
    s'.painted := by
  have hold := hi.painted
  have hbook := fun v hv => hi.coherent.inBook v hv
  unfold State.painted at hold
  rcases step_cases h with ⟨-, hm⟩ | hm
  · cases hm with
    | busy => exact hi.painted
    | paintLen => exact ⟨rfl, fun v st _ hb => absurd hb (Vaddr.not_before_start v)⟩
    | @paintCell len i j hpc =>
      rw [hpc] at hold
      refine ⟨hold.1, fun v st hst hb => ?_⟩
      have hst := (Space.status_setStatus s.toSpace ⟨i, j⟩ .unvisited v).symm.trans hst
      split at hst
      · obtain ⟨_, -, heq⟩ := Option.map_eq_some_iff.mp hst
        exact heq.symm
      next hne => exact hold.2 v st hst (hb.of_next hne)
    | @paintTable len i j hpc _ hj =>
      rw [hpc] at hold
      refine ⟨hold.1, fun v st hst hb => hold.2 v st hst ?_⟩
      exact hb.of_nextTable (hbook v (isSome_of_status hst)).2 hj
    | @paintDone len i j hpc hlen =>
      rw [hpc] at hold
      refine fun v st hst => hold.2 v st hst (.inl ?_)
      have htable := (hbook v (isSome_of_status hst)).1
      omega
    | lockRoots hpc =>
      rw [hpc] at hold
      exact hold
    | _ => trivial
  · cases hm

/-- Before the sweep nothing is freed, so everything is as it was. -/
theorem Collecting.content_eq (hi : Collecting s0 done s) (hcount : s.gc.filtered = 0) (v : Vaddr) :
    (s.obj v).map Obj.content = (s0.obj v).map Obj.content := by
  have hnil : done = [] := List.length_eq_zero_iff.mp (hi.count.symm.trans hcount)
  exact hi.same v (hnil ▸ List.not_mem_nil)

theorem Snapshot.congr {s1 : State} (hsub : ∀ v, s0.Reachable v → s1.Reachable v)
    (hi : Snapshot s1 s) : Snapshot s0 s where
  coherent := hi.coherent
  black := hi.black
  found v hv := hi.found v (hsub v hv)
  guarded := hi.guarded
  done hpc v hv := hi.done hpc v (hsub v hv)

/-- Where the flag is set, the phase starts as the snapshot law asks. -/
theorem Collecting.snapshot_of_setFlag (hi : Collecting s0 done s) (hpc : s.gc = .setFlag)
    (h : step s .gc = some s') : Snapshot s0 s' := by
  rcases step_cases h with ⟨-, hm⟩ | hm
  · cases hm with
    | setFlag =>
      have hwhite := hi.painted
      unfold State.painted at hwhite
      rw [hpc] at hwhite
      have hcount : s.gc.filtered = 0 := hpc ▸ rfl
      refine Snapshot.congr (fun v hv => ?_) (StartsBlack.snapshot ⟨rfl, hwhite,
        hi.drained (hpc ▸ rfl), hi.coherent.empty (hpc ▸ rfl), hi.unlocked⟩ (hi.coherent.preserved h))
      · refine hv.mono (fun u w _ hedge => ?_) (fun u hu => ?_) fun u hu => ?_
        · show w ∈ s.refs u
          rw [refs_of_content (hi.content_eq hcount u)]
          exact hedge
        · exact (isSome_of_content (hi.content_eq hcount u)).trans hu
        · exact Space.mem_roots.mpr (hi.rootSet ▸ Space.mem_roots.mp hu)
    | _ => cases hpc.symm.trans ‹s.gc = _›
  · cases hm

theorem Collecting.marking_of_step (hi : Collecting s0 done s) (h : step s .gc = some s')
    (hblack : s'.gc.paintBlack = true) : Snapshot s0 s' := by
  rcases step_cases h with ⟨-, hm⟩ | hm
  · rcases hm.paintBlack_before hblack with hold | hpc
    · refine (hi.marking hold).preserved h fun hpc => ?_
      cases hm with
      | clearFlag => cases hblack
      | _ => cases hpc.symm.trans ‹s.gc = _›
    · exact hi.snapshot_of_setFlag hpc h
  · cases hm

theorem Collecting.swept_of_step (hi : Collecting s0 done s) (h : step s .gc = some s')
    (hsweep : s'.gc.sweeping = true) (v : Vaddr) (hv : s0.Reachable v) :
    s'.status v = some .visited := by
  rcases step_cases h with ⟨-, hm⟩ | hm
  · cases hm with
    | clearFlag hpc => exact (hi.marking (hpc ▸ rfl)).done (.inr hpc) v hv
    | sweepLen hpc => exact hi.swept (hpc ▸ rfl) v hv
    | condemn hpc => exact hi.swept (hpc ▸ rfl) v hv
    | spare hpc => exact hi.swept (hpc ▸ rfl) v hv
    | sweepTable hpc => exact hi.swept (hpc ▸ rfl) v hv
    | busy => exact hi.swept hsweep v hv
    | _ => cases hsweep
  · cases hm

/-- Only allocated objects come to the stacks. -/
theorem Collecting.pending_of_step (hd : NoDangling s0) (hi : Collecting s0 done s)
    (h : step s .gc = some s') (v : Vaddr) (hv : v ∈ s'.inProgressStack ∨ v ∈ s'.visitStack ∨
      s'.gc = .popped v ∨ s'.gc = .poppedVisit v) : (s0.obj v).isSome = true := by
  have hroots : ∀ v ∈ s.roots, (s0.obj v).isSome = true := fun v hroot =>
    hd.roots v (Space.mem_roots.mpr (hi.rootSet ▸ Space.mem_roots.mp hroot))
  rcases step_cases h with ⟨-, hm⟩ | hm
  · rcases hm.pending_source (.inr hv) with (⟨-, hroot⟩ | hold) | hroot | ⟨w, hpc, hedge⟩
    · exact hroots v hroot
    · exact hi.pending v hold
    · exact hroots v hroot
    · refine hd.refs w v ?_
      show v ∈ s0.refs w
      rw [← refs_of_content (hi.content_eq (hpc ▸ rfl) w)]
      exact hedge
  · cases hm

theorem Collecting.preserved (hd : NoDangling s0) (hi : Collecting s0 done s)
    (h : step s .gc = some s') (hpc : ∀ n, s.gc ≠ .finish n) :
    Collecting s0 (s.gc.freeing ++ done) s' where
  coherent := hi.coherent.preserved h
  collected := hi.collected.of_step h
  drained := hi.drained.of_step h id
  unlocked v := by
    rcases step_cases h with ⟨-, hm⟩ | hm
    · exact hm.lck_eq v ▸ hi.unlocked v
    · cases hm
  rootSet := by
    rcases step_cases h with ⟨-, hm⟩ | hm
    · exact hm.rootSet_eq.trans hi.rootSet
    · cases hm
  same := hi.same_of_step h
  freed := hi.freed_of_step h
  nodup := hi.nodup_of_step
  dead := hi.dead_of_step h
  doneDead v hv := (List.mem_append.mp hv).elim
    (fun hv => (hi.condemned v (hi.mem_removeStack hv)).1) (hi.doneDead v)
  condemned := hi.condemned_of_step h
  count := hi.count_of_step h hpc
  painted := hi.painted_of_step h
  marking := hi.marking_of_step h
  swept := hi.swept_of_step h
  pending := hi.pending_of_step hd h

/-! ## The run ends -/

/-- **The collector never gets stuck.** -/
theorem Collecting.enabled (hi : Collecting s0 done s) : ∃ s', s.gcStep = some s' := by
  have hobj : s.gc.filtered = 0 → ∀ v, (s0.obj v).isSome = true → ∃ o, s.obj v = some o := by
    intro hcount v hv
    exact Option.isSome_iff_exists.mp ((isSome_of_content (hi.content_eq hcount v)).trans hv)
  have hfree := hi.unlocked
  have hread : ∀ v, (s.lck v).canRead = true := fun v =>
    RwLock.canRead_iff.mpr (RwLock.writer_of_isFree (hfree v))
  unfold State.gcStep
  cases hpc : s.gc with
  | popped v =>
    obtain ⟨o, ho⟩ := hobj (hpc ▸ rfl) v (hi.pending v (.inr (.inr (.inl hpc))))
    simp only [ho, hfree v, if_true]
    split <;> exact ⟨_, rfl⟩
  | poppedVisit v =>
    obtain ⟨o, ho⟩ := hobj (hpc ▸ rfl) v (hi.pending v (.inr (.inr (.inr hpc))))
    simp only [ho, hfree v, if_true]
    split <;> exact ⟨_, rfl⟩
  | free rs n =>
    simp only
    split
    · exact ⟨_, rfl⟩
    · rename_i v hv
      obtain ⟨hdead, hndone⟩ := hi.condemned v (hpc ▸ List.mem_of_getLast? hv)
      have hsome := (hi.isSome_of_unfreed hndone).trans hdead.1
      simp only [hsome, hfree v, Bool.and_self, if_true]
      exact ⟨_, rfl⟩
  | paint len i j =>
    simp only [hfree, if_true]
    split
    · split <;> exact ⟨_, rfl⟩
    · exact ⟨_, rfl⟩
  | sweep len i j rs =>
    simp only [hread, if_true]
    split
    · split
      · split <;> exact ⟨_, rfl⟩
      · exact ⟨_, rfl⟩
    · exact ⟨_, rfl⟩
  | idle => simp only; split <;> exact ⟨_, rfl⟩
  | popInProgress p => simp only; split <;> exact ⟨_, rfl⟩
  | popVisit p =>
    simp only
    split
    · exact ⟨_, rfl⟩
    · split <;> exact ⟨_, rfl⟩
  | _ => exact ⟨_, rfl⟩

/-- The vaddrs of all cells of the book. -/
def Space.cellVaddrs (s : Space) : List Vaddr :=
  (List.range s.bookLen).flatMap fun i => (List.range s.tableCap).map (Vaddr.mk i)

/-- How often the marking loop can still change the status. -/
def GcStatus.work : GcStatus → Nat
  | .unvisited => 2
  | .inProgress => 1
  | _ => 0

def Space.work (s : Space) : Nat :=
  (s.cellVaddrs.map fun v => ((s.status v).map GcStatus.work).getD 0).sum

/-- What each step of a collection lowers: the phase, then the loop's own measure. In the marking
loop that is the work left on the statuses, what is on the stacks, and the place in the loop body. -/
def State.rank (s : State) : Nat × Nat × Nat × Nat :=
  let onStacks := s.inProgressStack.length + s.visitStack.length
  match s.gc with
  | .idle => (12, 0, 0, 0)
  | .paintLen => (11, 0, 0, 0)
  | .paint len i j => (10, len - i, s.tableCap - j, 0)
  | .lockRoots => (9, 0, 0, 0)
  | .setFlag => (8, 0, 0, 0)
  | .pushRoots => (7, 0, 0, 0)
  | .popInProgress productive => (6, s.work, onStacks, if productive then 4 else 2)
  | .popped _ => (6, s.work, onStacks, 5)
  | .popVisit productive => (6, s.work, onStacks, if productive then 3 else 1)
  | .poppedVisit _ => (6, s.work, onStacks, 5)
  | .clearFlag => (5, 0, 0, 0)
  | .sweepLen => (4, 0, 0, 0)
  | .sweep len i j _ => (3, len - i, s.tableCap - j, 0)
  | .free removeStack _ => (2, removeStack.length, 0, 0)
  | .finish _ => (1, 0, 0, 0)

def RankLt : Nat × Nat × Nat × Nat → Nat × Nat × Nat × Nat → Prop :=
  Prod.Lex (· < ·) (Prod.Lex (· < ·) (Prod.Lex (· < ·) (· < ·)))

theorem rankLt_wf : WellFounded RankLt :=
  WellFounded.prod_lex Nat.lt_wfRel.wf
    (WellFounded.prod_lex Nat.lt_wfRel.wf (WellFounded.prod_lex Nat.lt_wfRel.wf Nat.lt_wfRel.wf))

theorem mem_cellVaddrs {v : Vaddr} (hi : v.tableIndex < s.bookLen) (hj : v.cellIndex < s.tableCap) :
    v ∈ s.cellVaddrs := by
  refine List.mem_flatMap.mpr ⟨v.tableIndex, List.mem_range.mpr hi, List.mem_map.mpr ?_⟩
  exact ⟨v.cellIndex, List.mem_range.mpr hj, rfl⟩

/-- Moving one object's status on leaves less work. -/
theorem work_lt {sp : Space} (hc : Coherent s) {v : Vaddr} {st st' : GcStatus}
    (hold : s.status v = some st) (hlt : st'.work < st.work) (hlen : sp.bookLen = s.bookLen)
    (hcap : sp.tableCap = s.tableCap)
    (hnew : ∀ w, sp.status w = if w = v then (s.status v).map fun _ => st' else s.status w) :
    sp.work < s.work := by
  obtain ⟨hi, hj⟩ := hc.inBook v (isSome_of_status hold)
  have hcells : sp.cellVaddrs = s.cellVaddrs := by simp only [Space.cellVaddrs, hlen, hcap]
  unfold Space.work
  rw [hcells]
  refine List.sum_lt_sum _ _ (fun w _ => ?_) ⟨v, mem_cellVaddrs hi hj, ?_⟩
  · rw [hnew w]
    split
    next heq =>
      subst heq
      rw [hold]
      exact Nat.le_of_lt hlt
    next => exact Nat.le_refl _
  · rw [hnew v, if_pos rfl, hold]
    exact hlt

/-- **Each step lowers the rank.** -/
theorem Collecting.rank_lt (hi : Collecting s0 done s) (h : step s .gc = some s')
    (hpc : ∀ n, s.gc ≠ .finish n) : RankLt s'.rank s.rank := by
  unfold RankLt State.rank
  rcases step_cases h with ⟨-, hm⟩ | hm
  · cases hm with
    | busy hpc' hbusy =>
      have hcalled := hi.coherent.called
      rw [hpc', hbusy] at hcalled
      cases hcalled
    | finish hpc' => exact absurd hpc' (hpc _)
    | paintCell hpc' _ hj =>
      rw [hpc']
      exact .right _ (.right _ (.left _ _ (Nat.sub_succ_lt_self _ _ hj)))
    | paintTable hpc' hlt =>
      rw [hpc']
      exact .right _ (.left _ _ (Nat.sub_succ_lt_self _ _ hlt))
    | condemn hpc' _ hj =>
      rw [hpc']
      exact .right _ (.right _ (.left _ _ (Nat.sub_succ_lt_self _ _ hj)))
    | spare hpc' _ hj =>
      rw [hpc']
      exact .right _ (.right _ (.left _ _ (Nat.sub_succ_lt_self _ _ hj)))
    | sweepTable hpc' hlt =>
      rw [hpc']
      exact .right _ (.left _ _ (Nat.sub_succ_lt_self _ _ hlt))
    | @emptyInProgress p hpc' =>
      rw [hpc']
      refine .right _ (.right _ (.right _ ?_))
      cases p <;> decide
    | popInProgress hpc' hstack =>
      rw [hpc', hstack, List.length_append]
      refine .right _ (.right _ (.left _ _ ?_))
      simp only [List.length_singleton]
      omega
    | @grey v hpc' _ hst =>
      rw [hpc']
      have hlt : GcStatus.inProgress.work < GcStatus.unvisited.work := by decide
      refine .right _ (.left _ _ (work_lt hi.coherent hst hlt rfl rfl ?_))
      exact Space.status_setStatus s.toSpace v .inProgress
    | drop hpc' =>
      rw [hpc']
      exact .right _ (.right _ (.right _ (by decide)))
    | popVisit hpc' hstack =>
      rw [hpc', hstack, List.length_append]
      refine .right _ (.right _ (.left _ _ ?_))
      simp only [List.length_singleton]
      omega
    | again hpc' =>
      rw [hpc']
      exact .right _ (.right _ (.right _ (by decide)))
    | @visit v hpc' _ hst =>
      rw [hpc']
      have hlt : GcStatus.visited.work < GcStatus.inProgress.work := by decide
      refine .right _ (.left _ _ (work_lt hi.coherent hst hlt rfl rfl ?_))
      exact Space.status_csVisitObj s.toSpace v
    | skip hpc' =>
      rw [hpc']
      exact .right _ (.right _ (.right _ (by decide)))
    | free hpc' =>
      rw [hpc']
      refine .right _ (.left _ _ ?_)
      rw [List.length_append]
      exact Nat.lt_succ_self _
    | _ =>
      rw [‹s.gc = _›]
      exact .left _ _ (by decide)
  · cases hm

end Chvm.Cs
