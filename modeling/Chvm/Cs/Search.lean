import Chvm.Cs.Refs

/-!
# What the marking still has to find

During paint black an object that is not marked is still to be found when the collector can get to
it from what it has yet to process, along references and through objects that are not marked. No
step loses such an object, unless a mutator rewrites the references of an object that is not marked.
-/

set_option autoImplicit false

namespace Chvm.Cs

open Chvm.Lib

/-- `GC_UNVISITED` or `GC_IN_PROGRESS`. -/
def Space.unmarked (s : Space) (v : Vaddr) : Prop :=
  s.status v = some .unvisited ∨ s.status v = some .inProgress

/-- What the collector has yet to process: the roots until they are pushed, the two stacks and the
vaddr it has popped. -/
def State.pending (s : State) (v : Vaddr) : Prop :=
  (s.gc = .pushRoots ∧ v ∈ s.roots) ∨ v ∈ s.inProgressStack ∨ v ∈ s.visitStack ∨
    s.gc = .popped v ∨ s.gc = .poppedVisit v

/-- What the marking gets to from there through unmarked objects. -/
def State.ToFind (s : State) : Vaddr → Prop := Via s.edge s.unmarked s.pending

/-- The step writes a reference into an unmarked object. -/
def storesUnmarked (s : State) : Act → Prop
  | .storeRef _ v _ _ => s.unmarked v
  | _ => False

theorem unmarked_of_step {s s' : State} {a : Act} (h : step s a = some s')
    (hpaint : s.gc.painting = false) {v : Vaddr} (hv : s'.unmarked v) : s.unmarked v := by
  have hchange := status_change h v
  unfold Space.unmarked at hv
  generalize s'.status v = st' at hchange hv
  cases hchange with
  | same => exact hv
  | painted hpc =>
    rw [hpc] at hpaint
    cases hpaint
  | greyed _ hst => exact .inl hst
  | _ => rcases hv with hv | hv <;> cases hv

theorem not_painting_of_paintBlack {pc : GcPc} (h : pc.paintBlack = true) : pc.painting = false := by
  cases pc <;> first | rfl | cases h

/-- An unmarked object that stays unmarked keeps its references. -/
theorem refs_of_unmarked {s s' : State} {a : Act} (h : step s a = some s')
    (hblack : s.gc.paintBlack = true) (hstore : ¬ storesUnmarked s a) {u : Vaddr}
    (hu : s.unmarked u) : s'.refs u = s.refs u := by
  have hrefs := refs_change h u
  generalize s'.refs u = l' at hrefs
  cases hrefs with
  | same => rfl
  | added hnone => rcases hu with hu | hu <;> rw [Space.status_eq_none.mpr hnone] at hu <;> cases hu
  | storedRef => exact absurd hu hstore
  | freed hpc =>
    rw [hpc] at hblack
    cases hblack

/-- A mutator's section that visits nothing leaves what is pending pending. -/
theorem UserMove.pending {s s' : State} {a : Act} (hm : UserMove s a s') (h : step s a = some s')
    (v : Vaddr) (hv : s.pending v) : s'.pending v := by
  have hsame := hm.sameCollector
  have hstack : s.inProgressStack ⊆ s'.inProgressStack := by
    cases hm with
    | root _ _ hroot => exact ((Space.csRoot_sameObjects hroot).inProgressStack ▸ List.Subset.refl _)
    | deroot =>
      exact ((Space.csDeroot_sameObjects s.toSpace _).inProgressStack ▸ List.Subset.refl _)
    | visit => exact List.subset_append_left _ _
    | _ => exact List.Subset.refl _
  unfold State.pending
  rw [hsame.gc, hsame.visitStack]
  refine hv.imp (fun ⟨hpc, hroot⟩ => ⟨hpc, ?_⟩) (.imp (fun hmem => hstack hmem) id)
  have hlock : s.rootSetLocked = true := by simp only [State.rootSetLocked, hpc]
  rw [Space.mem_roots, roots_of_locked h hlock]
  exact Space.mem_roots.mp hroot

/-- What the collector takes off a stack or the root set during paint black it still has at hand,
unless it drops a marked object. -/
theorem GcMove.pending {s s' : State} (hm : GcMove s s') (hc : Coherent s)
    (hblack : s.gc.paintBlack = true) (v : Vaddr) (hv : s.pending v) (hun : s.unmarked v) :
    s'.pending v ∨ visitsObj v (s, .gc) = true := by
  have other : ∀ {pc : GcPc}, s.gc = pc → pc ≠ .pushRoots → pc ≠ .popped v → pc ≠ .poppedVisit v →
      v ∈ s.inProgressStack ∨ v ∈ s.visitStack := by
    intro pc hpc h1 h2 h3
    rcases hv with ⟨hp, -⟩ | hv | hv | hp | hp
    · exact absurd (hpc.symm.trans hp) h1
    · exact .inl hv
    · exact .inr hv
    · exact absurd (hpc.symm.trans hp) h2
    · exact absurd (hpc.symm.trans hp) h3
  have onStacks : ∀ {s' : State}, (v ∈ s'.inProgressStack ∨ v ∈ s'.visitStack) → s'.pending v :=
    fun h => h.elim (fun h => .inr (.inl h)) fun h => .inr (.inr (.inl h))
  cases hm with
  | pushRoots hpc =>
    refine .inl (onStacks ?_)
    rcases hv with ⟨-, hroot⟩ | hv | hv | hp | hp
    · exact .inl (List.mem_append_right _ hroot)
    · exact .inl (List.mem_append_left _ hv)
    · exact .inr hv
    · cases hpc.symm.trans hp
    · cases hpc.symm.trans hp
  | @popInProgress p rest w hpc hstack =>
    rcases other hpc (by simp) (by simp) (by simp) with hmem | hmem
    · rw [hstack, List.mem_append, List.mem_singleton] at hmem
      rcases hmem with hmem | rfl
      · exact .inl (onStacks (.inl hmem))
      · exact .inl (.inr (.inr (.inr (.inl rfl))))
    · exact .inl (onStacks (.inr hmem))
  | @grey w hpc =>
    by_cases heq : v = w
    · subst heq
      exact .inl (onStacks (.inr (List.mem_append_right _ (List.mem_singleton_self _))))
    · rcases other hpc (by simp) (fun h => heq (GcPc.popped.inj h).symm) (by simp) with hmem | hmem
      · exact .inl (onStacks (.inl hmem))
      · exact .inl (onStacks (.inr (List.mem_append_left _ hmem)))
  | @drop w st hpc hst hne =>
    by_cases heq : v = w
    · -- the popped vaddr is dropped only when it is marked or on `visit_stack` already
      subst heq
      rcases hun with hun | hun
      · exact absurd (Option.some.inj (hst.symm.trans hun)) hne
      · refine .inl (onStacks (.inr ((hc.grey v hun).resolve_right fun hp => ?_)))
        cases hpc.symm.trans hp
    · exact .inl (onStacks (other hpc (by simp) (fun h => heq (GcPc.popped.inj h).symm) (by simp)))
  | @popVisit p rest w hpc hstack =>
    rcases other hpc (by simp) (by simp) (by simp) with hmem | hmem
    · exact .inl (onStacks (.inl hmem))
    · rw [hstack, List.mem_append, List.mem_singleton] at hmem
      rcases hmem with hmem | rfl
      · exact .inl (onStacks (.inr hmem))
      · exact .inl (.inr (.inr (.inr (.inr rfl))))
  | @visit w hpc _ hst =>
    by_cases heq : v = w
    · subst heq
      refine .inr ?_
      simp only [visitsObj, hpc, hst, beq_self_eq_true, Bool.and_self]
    · refine .inl ((other hpc (by simp) (by simp) fun h => heq (GcPc.poppedVisit.inj h).symm).elim
        (fun hmem => onStacks (.inl (List.mem_append_left _ hmem))) fun hmem => onStacks (.inr hmem))
  | @skip w st hpc hst hne =>
    by_cases heq : v = w
    · subst heq
      rcases hc.stacked v (.inr hpc) with hgrey | hvis
      · exact absurd (Option.some.inj (hst.symm.trans hgrey)) hne
      · rcases hun with hun | hun <;> cases hun.symm.trans hvis
    · exact .inl (onStacks (other hpc (by simp) (by simp) fun h => heq (GcPc.poppedVisit.inj h).symm))
  | emptyInProgress hpc => exact .inl (onStacks (other hpc (by simp) (by simp) (by simp)))
  | again hpc => exact .inl (onStacks (other hpc (by simp) (by simp) (by simp)))
  | exit hpc => exact .inl (onStacks (other hpc (by simp) (by simp) (by simp)))
  | clearFlag hpc => exact .inl (onStacks (other hpc (by simp) (by simp) (by simp)))
  | _ =>
    rw [‹s.gc = _›] at hblack
    cases hblack

/-- What is pending behind a collector's section was pending, is a root, or is a reference of the
object that was visited. -/
theorem GcMove.pending_source {s s' : State} (hm : GcMove s s') {v : Vaddr} (hv : s'.pending v) :
    s.pending v ∨ v ∈ s.roots ∨ ∃ w, s.gc = .poppedVisit w ∧ s.edge w v := by
  have stacked : v ∈ s.inProgressStack ∨ v ∈ s.visitStack → s.pending v := fun h =>
    h.elim (fun h => .inr (.inl h)) fun h => .inr (.inr (.inl h))
  cases hm with
  | busy => exact .inl hv
  | setFlag =>
    rcases hv with ⟨-, hp⟩ | hp | hp | hp | hp
    · exact .inr (.inl hp)
    · exact .inl (stacked (.inl hp))
    · exact .inl (stacked (.inr hp))
    · cases hp
    · cases hp
  | pushRoots =>
    rcases hv with ⟨hp, -⟩ | hp | hp | hp | hp
    · cases hp
    · exact (List.mem_append.mp hp).imp (fun hp => stacked (.inl hp)) .inl
    · exact .inl (stacked (.inr hp))
    · cases hp
    · cases hp
  | @popInProgress p rest w hpc hstack =>
    rcases hv with ⟨hp, -⟩ | hp | hp | hp | hp
    · cases hp
    · exact .inl (stacked (.inl (hstack ▸ List.mem_append_left _ hp)))
    · exact .inl (stacked (.inr hp))
    · cases hp
      exact .inl (stacked (.inl (hstack ▸ List.mem_append_right _ (List.mem_singleton_self _))))
    · cases hp
  | @grey w hpc =>
    rcases hv with ⟨hp, -⟩ | hp | hp | hp | hp
    · cases hp
    · exact .inl (stacked (.inl hp))
    · refine (List.mem_append.mp hp).elim (fun hp => .inl (stacked (.inr hp))) fun hp => ?_
      rw [List.mem_singleton.mp hp]
      exact .inl (.inr (.inr (.inr (.inl hpc))))
    · cases hp
    · cases hp
  | @popVisit p rest w hpc hstack =>
    rcases hv with ⟨hp, -⟩ | hp | hp | hp | hp
    · cases hp
    · exact .inl (stacked (.inl hp))
    · exact .inl (stacked (.inr (hstack ▸ List.mem_append_left _ hp)))
    · cases hp
    · cases hp
      exact .inl (stacked (.inr (hstack ▸ List.mem_append_right _ (List.mem_singleton_self _))))
  | @visit w hpc =>
    rcases hv with ⟨hp, -⟩ | hp | hp | hp | hp
    · cases hp
    · exact (List.mem_append.mp hp).imp (fun hp => stacked (.inl hp)) fun hedge => .inr ⟨w, hpc, hedge⟩
    · exact .inl (stacked (.inr hp))
    · cases hp
    · cases hp
  | _ =>
    rcases hv with ⟨hp, -⟩ | hp | hp | hp | hp
    · cases hp
    · exact .inl (stacked (.inl hp))
    · exact .inl (stacked (.inr hp))
    · cases hp
    · cases hp

/-- An object that a step of paint black marks has its references pushed. -/
theorem pushed_of_marked {s s' : State} {a : Act} (h : step s a = some s')
    (hblack : s.gc.paintBlack = true) {u v : Vaddr} (hun : s.unmarked u) (hmark : ¬ s'.unmarked u)
    (hedge : s.edge u v) : v ∈ s'.inProgressStack := by
  have hchange := status_change h u
  unfold Space.unmarked at hmark
  generalize s'.status u = st' at hchange hmark
  cases hchange with
  | same => exact absurd hun hmark
  | added hnone => rcases hun with hun | hun <;> cases hnone.symm.trans hun
  | painted => exact absurd (.inl rfl) hmark
  | greyed => exact absurd (.inr rfl) hmark
  | freed hpc =>
    rw [hpc] at hblack
    cases hblack
  | blackened hpc hst =>
    rcases step_cases h with ⟨-, hm⟩ | hm
    · cases hm with
      | visit hpc' =>
        cases hpc.symm.trans hpc'
        exact List.mem_append_right _ hedge
      | skip hpc' hst' hne =>
        cases hpc.symm.trans hpc'
        exact absurd (Option.some.inj (hst'.symm.trans hst)) hne
      | _ => cases hpc.symm.trans ‹s.gc = _›
    · cases hm
  | visited hpc =>
    rcases step_cases h with ⟨h, -⟩ | hm
    · cases h
    · cases hm with
      | visit hpc' =>
        cases hpc.symm.trans hpc'
        exact List.mem_append_right _ hedge

theorem not_unmarked_of_visitsObj {s s' : State} (h : step s .gc = some s') {v : Vaddr}
    (hvisit : visitsObj v (s, .gc) = true) : ¬ s'.unmarked v := by
  simp only [visitsObj, Bool.and_eq_true, beq_iff_eq] at hvisit
  obtain ⟨hpc, hst⟩ := hvisit
  have hvisited : s'.status v = some .visited := by
    rcases step_cases h with ⟨-, hm⟩ | hm
    · cases hm with
      | visit hpc' =>
        cases hpc.symm.trans hpc'
        refine (Space.status_csVisitObj s.toSpace v v).trans ?_
        rw [if_pos rfl, hst]
        rfl
      | skip hpc' hst' hne =>
        cases hpc.symm.trans hpc'
        exact absurd (Option.some.inj (hst'.symm.trans hst)) hne
      | _ => cases hpc.symm.trans ‹s.gc = _›
    · cases hm
  rintro (hun | hun) <;> cases hvisited.symm.trans hun

/-- What is pending is still pending after a step of paint black, or marked by it. -/
theorem pending_of_step {s s' : State} {a : Act} (hc : Coherent s) (h : step s a = some s')
    (hblack : s.gc.paintBlack = true) {v : Vaddr} (hv : s.pending v) (hun : s.unmarked v)
    (hun' : s'.unmarked v) : s'.pending v := by
  rcases step_cases h with ⟨rfl, hm⟩ | hm
  · exact (hm.pending hc hblack v hv hun).resolve_right fun hvisit =>
      not_unmarked_of_visitsObj h hvisit hun'
  · exact hm.pending h v hv

/-- **No step loses what is to be found**: a step of paint black that stores nothing into an
unmarked object marks what was to be found, or leaves it to be found. -/
theorem toFind_of_step {s s' : State} {a : Act} (hc : Coherent s) (h : step s a = some s')
    (hblack : s.gc.paintBlack = true) (hstore : ¬ storesUnmarked s a) {v : Vaddr}
    (hv : s.ToFind v) : s'.unmarked v → s'.ToFind v := by
  refine hv.least (P := fun v => s'.unmarked v → s'.ToFind v)
    (fun v hsrc hun hun' => .base (pending_of_step hc h hblack hsrc hun hun') hun')
    fun u v hu hun hedge _ hun' => ?_
  -- the last edge of the path is kept, or its source was just scanned and its target pushed
  by_cases hu' : s'.unmarked u
  · refine .step (hu hu') ?_ hun'
    unfold Space.edge
    rw [refs_of_unmarked h hblack hstore hun]
    exact hedge
  · exact .base (.inr (.inl (pushed_of_marked h hblack hun hu' hedge))) hun'

/-- When the loop is left nothing is to be found. -/
theorem not_toFind_of_empty {s : State} (hc : Coherent s) (hpc : s.gc = .popVisit false)
    (hempty : s.inProgressStack = []) (v : Vaddr) : ¬ s.ToFind v := by
  have hvisit : s.visitStack = [] := hc.empty (hpc ▸ rfl)
  refine not_via_of_no_src fun v hv => ?_
  rcases hv with ⟨hp, -⟩ | hv | hv | hp | hp
  · cases hpc.symm.trans hp
  · rw [hempty] at hv
    cases hv
  · rw [hvisit] at hv
    cases hv
  · cases hpc.symm.trans hp
  · cases hpc.symm.trans hp

end Chvm.Cs
