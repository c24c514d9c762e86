import Chvm.Cs.Search

/-!
# The snapshot at the beginning of paint black

A paint-black phase that starts with every object white, the stacks empty and no object locked
marks everything that was reachable when it started, whatever the mutators store, root, deroot and
allocate meanwhile. The invariant is that what is not marked is still to be found; what carries it
is that a mutator which can write to an object has marked it.
-/

set_option autoImplicit false

namespace Chvm.Cs

open Chvm.Lib

/-- The step is not the one that clears `paint_black_in_progress`. -/
def staysBlack (s : State) (a : Act) : Prop := s.gc = .clearFlag → a ≠ .gc

/-- What every state of a paint-black phase from `s0` has. -/
structure Snapshot (s0 s : State) : Prop where
  coherent : Coherent s
  black : s.gc.paintBlack = true
  /-- What was reachable is marked or still to be found. -/
  found : ∀ v, s0.Reachable v → s.status v = some .visited ∨ s.ToFind v
  /-- A writer is inside `cs_get_write`, or its object is marked. -/
  guarded : ∀ v t, (s.lck v).writer = some t → (s.user t).entered = some v ∨ ¬ s.unmarked v
  /-- From the last look at the stacks on, everything is marked. -/
  done : s.gc = .popVisit false ∨ s.gc = .clearFlag →
    ∀ v, s0.Reachable v → s.status v = some .visited

theorem paintBlack_of_step {s s' : State} {a : Act} (h : step s a = some s')
    (hblack : s.gc.paintBlack = true) (hstay : staysBlack s a) : s'.gc.paintBlack = true := by
  rcases step_cases h with ⟨rfl, hm⟩ | hm
  · cases hm with
    | busy => exact hblack
    | clearFlag hpc => exact absurd rfl (hstay hpc)
    | pushRoots => rfl
    | emptyInProgress => rfl
    | popInProgress => rfl
    | grey => rfl
    | drop => rfl
    | popVisit => rfl
    | again => rfl
    | exit => rfl
    | visit => rfl
    | skip => rfl
    | _ =>
      rw [‹s.gc = _›] at hblack
      cases hblack
  · exact hm.sameCollector.gc ▸ hblack

/-- Paint black is entered by setting the flag only. -/
theorem GcMove.paintBlack_before {s s' : State} (hm : GcMove s s')
    (hblack : s'.gc.paintBlack = true) : s.gc.paintBlack = true ∨ s.gc = .setFlag := by
  cases hm with
  | setFlag hpc => exact .inr hpc
  | busy => exact .inl hblack
  | _ =>
    have hpc := ‹s.gc = _›
    first
    | exact .inl (by rw [hpc]; rfl)
    | cases hblack

/-- A visited object stays visited during paint black. -/
theorem Coherent.visited_of_step {s s' : State} {a : Act} (hc : Coherent s)
    (h : step s a = some s') (hblack : s.gc.paintBlack = true) {v : Vaddr}
    (hst : s.status v = some .visited) : s'.status v = some .visited := by
  obtain ⟨st', hst', rfl | hforward⟩ := hc.status_forward h (hc.flag ▸ hblack) hst
  · exact hst'
  · cases hforward

/-- While the flag is set, a mutator leaves `cs_get_write` by visiting its object. -/
theorem entered_of_step {s s' : State} {a : Act} (h : step s a = some s')
    (hflag : s.paintBlackInProgress = true) {t : Tid} {v : Vaddr}
    (hin : (s.user t).entered = some v) : (s'.user t).entered = some v ∨ a = .visit t := by
  rcases step_cases h with ⟨rfl, hm⟩ | hm
  · rw [hm.user_eq]
    exact .inl hin
  · cases hm with
    | @getUnvisited u w _ hidle =>
      refine .inl ?_
      have hne : t ≠ u := fun heq => by
        rw [heq, hidle] at hin
        cases hin
      exact (congrArg UserPc.entered (Function.update_of_ne hne _ _)).trans hin
    | @readFlag u w hpc =>
      by_cases heq : t = u
      · subst heq
        rw [hpc] at hin
        refine .inl ((congrArg UserPc.entered (Function.update_self t _ _)).trans ?_)
        rw [hflag]
        exact hin
      · exact .inl ((congrArg UserPc.entered (Function.update_of_ne heq _ _)).trans hin)
    | @visit u w hpc =>
      by_cases heq : t = u
      · exact .inr (congrArg Act.visit heq.symm)
      · exact .inl ((congrArg UserPc.entered (Function.update_of_ne heq _ _)).trans hin)
    | _ => exact .inl hin

theorem status_of_visit {s s' : State} {t : Tid} {v : Vaddr} (hc : Coherent s)
    (h : step s (.visit t) = some s') (hin : (s.user t).entered = some v) :
    s'.status v = some .visited := by
  rcases step_cases h with ⟨h, -⟩ | hm
  · cases h
  · cases hm with
    | @visit _ w hpc =>
      rw [hpc] at hin
      cases hin
      have hsome := hc.inUse v (not_isFree_of_writer (hc.entering t v (entered_of_visit hpc)).1)
      obtain ⟨o, ho⟩ := Option.isSome_iff_exists.mp hsome
      refine (Space.status_csVisitObj s.toSpace v v).trans ?_
      rw [if_pos rfl, Space.status, ho]
      rfl

theorem not_unmarked_of_visited {s : Space} {v : Vaddr} (h : s.status v = some .visited) :
    ¬ s.unmarked v := by
  rintro (hun | hun) <;> cases h.symm.trans hun

/-- Who can write to an object during paint black has marked it, or is about to. -/
theorem Snapshot.guarded_of_step {s0 s s' : State} {a : Act} (hi : Snapshot s0 s)
    (h : step s a = some s') (v : Vaddr) (t : Tid) (hw : (s'.lck v).writer = some t) :
    (s'.user t).entered = some v ∨ ¬ s'.unmarked v := by
  have hflag : s.paintBlackInProgress = true := hi.coherent.flag ▸ hi.black
  have hpaint := not_painting_of_paintBlack hi.black
  have kept : (s.lck v).writer = some t → (s'.user t).entered = some v ∨ ¬ s'.unmarked v := by
    intro hold
    rcases hi.guarded v t hold with hin | hmark
    · refine (entered_of_step h hflag hin).imp_right fun heq => ?_
      subst heq
      exact not_unmarked_of_visited (status_of_visit hi.coherent h hin)
    · exact .inr fun hun => hmark (unmarked_of_step h hpaint hun)
  have hlck := lck_change h v
  generalize s'.lck v = l' at hlck hw
  cases hlck with
  | same => exact kept hw
  | added hobj =>
    refine .inr fun hun => ?_
    rcases unmarked_of_step h hpaint hun with hst | hst <;>
      cases (Space.status_eq_none.mpr hobj).symm.trans hst
  | read => exact kept hw
  | @write u _ _ _ =>
    cases hw
    rcases step_cases h with ⟨h, -⟩ | hm
    · cases h
    · cases hm with
      | getVisited _ _ hst =>
        exact .inr fun hun => not_unmarked_of_visited hst (unmarked_of_step h hpaint hun)
      | getUnvisited =>
        refine .inl ?_
        show (Function.update s.user t (.checkFlag v) t).entered = some v
        rw [Function.update_self]
        rfl
  | released => exact kept (RwLock.writer_of_writer_release hw)

theorem Snapshot.not_storesUnmarked {s0 s s' : State} {a : Act} (hi : Snapshot s0 s)
    (h : step s a = some s') : ¬ storesUnmarked s a := by
  rcases step_cases h with ⟨rfl, -⟩ | hm
  · exact nofun
  · cases hm with
    | storeRef hidle _ hwriter =>
      intro hun
      rcases hi.guarded _ _ hwriter with hin | hmark
      · rw [hidle] at hin
        cases hin
      · exact hmark hun
    | _ => exact nofun

theorem Snapshot.found_of_step {s0 s s' : State} {a : Act} (hi : Snapshot s0 s)
    (h : step s a = some s') (v : Vaddr) (hv : s0.Reachable v) :
    s'.status v = some .visited ∨ s'.ToFind v := by
  rcases hi.found v hv with hst | hfind
  · exact .inl (hi.coherent.visited_of_step h hi.black hst)
  · have hfound := toFind_of_step hi.coherent h hi.black (hi.not_storesUnmarked h) hfind
    -- an unmarked object's status moves to one that is unmarked, or to visited
    have hflag : s.paintBlackInProgress = true := hi.coherent.flag ▸ hi.black
    rcases hfind.inside with hst | hst
    · obtain ⟨st', hst', rfl | hforward⟩ := hi.coherent.status_forward h hflag hst
      · exact .inr (hfound (.inl hst'))
      · cases hforward with
        | enter => exact .inr (hfound (.inr hst'))
        | visitUnvisited => exact .inl hst'
    · obtain ⟨st', hst', rfl | hforward⟩ := hi.coherent.status_forward h hflag hst
      · exact .inr (hfound (.inr hst'))
      · cases hforward
        exact .inl hst'

theorem Snapshot.done_of_step {s0 s s' : State} {a : Act} (hi : Snapshot s0 s)
    (h : step s a = some s') (hpc' : s'.gc = .popVisit false ∨ s'.gc = .clearFlag) (v : Vaddr)
    (hv : s0.Reachable v) : s'.status v = some .visited := by
  have kept : s.gc = .popVisit false ∨ s.gc = .clearFlag → s'.status v = some .visited :=
    fun hpc => hi.coherent.visited_of_step h hi.black (hi.done hpc v hv)
  rcases step_cases h with ⟨rfl, hm⟩ | hm
  · cases hm with
    | busy hpc => rcases hpc' with hp | hp <;> cases hpc.symm.trans hp
    | exit hpc => exact kept (.inl hpc)
    | @emptyInProgress p hpc hempty =>
      have hp : p = false := by
        rcases hpc' with hp | hp
        · exact GcPc.popVisit.inj hp
        · cases hp
      subst hp
      refine (hi.found_of_step h v hv).resolve_right ?_
      exact not_toFind_of_empty (hi.coherent.preserved h) rfl hempty v
    | _ => rcases hpc' with hp | hp <;> cases hp
  · exact kept (hm.sameCollector.gc ▸ hpc')

theorem Snapshot.preserved {s0 s s' : State} {a : Act} (hi : Snapshot s0 s)
    (h : step s a = some s') (hstay : staysBlack s a) : Snapshot s0 s' where
  coherent := hi.coherent.preserved h
  black := paintBlack_of_step h hi.black hstay
  found := hi.found_of_step h
  guarded := hi.guarded_of_step h
  done := hi.done_of_step h

/-- The state in which the phase starts. -/
structure StartsBlack (s : State) : Prop where
  pc : s.gc = .pushRoots
  white : ∀ v st, s.status v = some st → st = .unvisited
  inProgress : s.inProgressStack = []
  visit : s.visitStack = []
  unlocked : ∀ v, (s.lck v).isFree = true

theorem StartsBlack.snapshot {s0 : State} (h0 : StartsBlack s0) (hc : Coherent s0) :
    Snapshot s0 s0 where
  coherent := hc
  black := h0.pc ▸ rfl
  found v hv := by
    refine .inr (hv.mono (fun _ _ _ he => he) (fun u hu => ?_) fun u hu => .inl ⟨h0.pc, hu⟩)
    obtain ⟨o, ho⟩ := Option.isSome_iff_exists.mp hu
    have hst : s0.status u = some o.gcStatus := Space.status_eq_some.mpr ⟨o, ho, rfl⟩
    exact .inl (hst.trans (congrArg some (h0.white u _ hst)))
  guarded v t hw := by
    have hfree := h0.unlocked v
    rw [not_isFree_of_writer hw] at hfree
    cases hfree
  done hpc := by rcases hpc with hp | hp <;> cases h0.pc.symm.trans hp

end Chvm.Cs
