import Chvm.Cs.Safety

/-!
# Garbage stays garbage, and is swept

A set of allocated cells is isolated when no root, lock, stack entry or reference from outside
leads into it. As long as the mutators use no vaddr of the set, a step keeps the set isolated and
takes out only what it frees: nothing in it is marked after paint white, the sweep collects all of
it, and when the sweep is over the set is empty.
-/

set_option autoImplicit false

namespace Chvm.Cs

open Chvm.Lib

/-- How far the collection is with a cell it will free: painted white once `adb_foreach` has passed
it, white from then on, collected once the sweep has passed it, freed at the end. -/
def State.doomed (s : State) (v : Vaddr) : Prop :=
  match s.gc with
  | .idle | .paintLen => True
  | .paint len i j => v.tableIndex < len ∧ (Vaddr.before v i j → s.status v = some .unvisited)
  | .sweep len i j rs =>
    s.status v = some .unvisited ∧ v.tableIndex < len ∧ (Vaddr.before v i j → v ∈ rs)
  | .free rs _ => v ∈ rs
  | .finish _ => False
  | _ => s.status v = some .unvisited

structure Isolated (D : Vaddr → Prop) (s : State) : Prop where
  allocated : ∀ v, D v → (s.obj v).isSome = true
  notRooted : ∀ v, D v → v ∉ s.roots
  notHeld : ∀ v, D v → (s.lck v).isFree = true
  notPending : ∀ v, D v → ¬ s.pending v
  noEdge : ∀ u v, D v → s.edge u v → D u
  doomed : ∀ v, D v → s.doomed v

/-- The step uses no vaddr of `D`. -/
def avoids (D : Vaddr → Prop) : Act → Prop
  | .root _ v | .getRead _ v | .getWrite _ v | .storeRef _ _ _ v => ¬ D v
  | _ => True

/-- What is left of `D` after a step. -/
def unfreed (D : Vaddr → Prop) (e : State × Act) (v : Vaddr) : Prop :=
  D v ∧ freesObj v e = false

variable {D : Vaddr → Prop} {s s' : State} {a : Act}

/-- The collector's section that frees an object. -/
theorem frees_iff {v : Vaddr} :
    freesObj v (s, a) = true ↔ a = .gc ∧ ∃ rs n, s.gc = .free (rs ++ [v]) n := by
  constructor
  · intro h
    simp only [freesObj] at h
    split at h
    next rs n hpc =>
      rw [getLast?_eq_some_split (beq_iff_eq.mp h)] at hpc
      exact ⟨rfl, _, _, hpc⟩
    next => cases h
  · rintro ⟨rfl, rs, n, hpc⟩
    simp only [freesObj, hpc, List.getLast?_concat, beq_self_eq_true]

theorem obj_of_frees (h : step s a = some s') {v : Vaddr} (hfree : freesObj v (s, a) = true) :
    s'.obj v = none := by
  obtain ⟨rfl, rs, n, hpc⟩ := frees_iff.mp hfree
  rcases step_cases h with ⟨-, hm⟩ | hm
  · cases hm with
    | @free rs' w _ hpc' =>
      have heq := List.append_inj' (GcPc.free.inj (hpc.symm.trans hpc')).1 rfl
      have hvw : v = w := List.singleton_inj.mp heq.2
      subst hvw
      exact (Space.obj_setObj s.toSpace v none v).trans (if_pos rfl)
    | freeDone hpc' => exact absurd (GcPc.free.inj (hpc.symm.trans hpc')).1 (by simp)
    | _ => cases hpc.symm.trans ‹s.gc = _›
  · cases hm

theorem Isolated.status_isSome (hi : Isolated D s) {v : Vaddr} (hv : D v) :
    ∃ st, s.status v = some st := by
  obtain ⟨o, ho⟩ := Option.isSome_iff_exists.mp (hi.allocated v hv)
  exact ⟨_, Space.status_eq_some.mpr ⟨o, ho, rfl⟩⟩

/-- A status in an isolated set changes only by being painted. -/
theorem Isolated.status_of_step (hi : Isolated D s) (hc : Coherent s) (h : step s a = some s')
    {v : Vaddr} (hv : unfreed D (s, a) v) :
    s'.status v = s.status v ∨ (a = .gc ∧ s'.status v = some .unvisited) := by
  obtain ⟨hv, hfree⟩ := hv
  obtain ⟨st, hst⟩ := hi.status_isSome hv
  have hchange := status_change h v
  generalize s'.status v = st' at hchange ⊢
  cases hchange with
  | same => exact .inl rfl
  | added hnone => cases hst.symm.trans hnone
  | painted => exact .inr ⟨rfl, rfl⟩
  | greyed hpc => exact absurd (.inr (.inr (.inr (.inl hpc)))) (hi.notPending v hv)
  | blackened hpc => exact absurd (.inr (.inr (.inr (.inr hpc)))) (hi.notPending v hv)
  | @visited t _ _ hpc =>
    have hbusy := not_isFree_of_writer (hc.entering t v (entered_of_visit hpc)).1
    rw [hi.notHeld v hv] at hbusy
    cases hbusy
  | freed hpc =>
    simp only [freesObj, hpc, List.getLast?_concat, beq_self_eq_true, Bool.true_eq_false] at hfree

theorem Isolated.allocated_of_step (hi : Isolated D s) (hc : Coherent s) (h : step s a = some s')
    (v : Vaddr) (hv : unfreed D (s, a) v) : (s'.obj v).isSome = true := by
  obtain ⟨st, hst⟩ := hi.status_isSome hv.1
  rcases hi.status_of_step hc h hv with hst' | ⟨-, hst'⟩
  · exact isSome_of_status (hst'.trans hst)
  · exact isSome_of_status hst'

theorem Isolated.notRooted_of_step (hi : Isolated D s) (h : step s a = some s')
    (havoid : avoids D a) (v : Vaddr) (hv : unfreed D (s, a) v) : v ∉ s'.roots := by
  intro hroot
  rcases roots_change h hroot with hold | ⟨t, rfl, -⟩
  · exact hi.notRooted v hv.1 hold
  · exact havoid hv.1

theorem Isolated.notHeld_of_step (hi : Isolated D s) (h : step s a = some s') (havoid : avoids D a)
    (v : Vaddr) (hv : unfreed D (s, a) v) : (s'.lck v).isFree = true := by
  have hfree := hi.notHeld v hv.1
  have hlck := lck_change h v
  generalize s'.lck v = l' at hlck ⊢
  cases hlck with
  | same => exact hfree
  | added hobj =>
    have hsome := hi.allocated v hv.1
    rw [hobj] at hsome
    cases hsome
  | read => exact absurd hv.1 havoid
  | write => exact absurd hv.1 havoid
  | released _ hholds =>
    rw [RwLock.not_holds_of_isFree hfree] at hholds
    cases hholds

theorem Isolated.noEdge_of_step (hi : Isolated D s) (h : step s a = some s') (havoid : avoids D a)
    (u v : Vaddr) (hv : unfreed D (s, a) v) (hedge : s'.edge u v) : unfreed D (s, a) u := by
  have hlost : freesObj u (s, a) ≠ true := fun hfree => by
    unfold Space.edge at hedge
    rw [Space.refs_of_none (obj_of_frees h hfree)] at hedge
    cases hedge
  have hrefs := refs_change h u
  unfold Space.edge at hedge
  generalize s'.refs u = l' at hrefs hedge
  cases hrefs with
  | same =>
    refine ⟨hi.noEdge u v hv.1 hedge, ?_⟩
    by_contra hfree
    exact hlost (by simpa only [Bool.not_eq_false] using hfree)
  | added => cases hedge
  | freed => cases hedge
  | @storedRef t u x i o hobj _ hwriter _ =>
    have hu : ¬ D u := fun hu => by
      have hfree := hi.notHeld u hu
      rw [not_isFree_of_writer hwriter] at hfree
      cases hfree
    obtain ⟨hmem, hnull⟩ := List.mem_filter.mp hedge
    rcases List.mem_or_eq_of_mem_set hmem with hold | rfl
    · refine absurd (hi.noEdge u v hv.1 ?_) hu
      show v ∈ s.refs u
      rw [Space.refs_of_obj hobj]
      exact List.mem_filter.mpr ⟨hold, hnull⟩
    · exact absurd hv.1 havoid

/-- What is pending is a root, was pending, or is a reference of an object that is. -/
theorem Isolated.notPending_of_step (hi : Isolated D s) (hc : Coherent s)
    (h : step s a = some s') (havoid : avoids D a) (v : Vaddr) (hv : unfreed D (s, a) v) :
    ¬ s'.pending v := by
  have hold := hi.notPending v hv.1
  rcases step_cases h with ⟨rfl, hm⟩ | hm
  · intro hp
    rcases hm.pending_source hp with hp | hroot | ⟨w, hpc, hedge⟩
    · exact hold hp
    · exact hi.notRooted v hv.1 hroot
    · exact hi.notPending w (hi.noEdge w v hv.1 hedge) (.inr (.inr (.inr (.inr hpc))))
  · -- a mutator's section pushes the references of an object it holds
    have hroot := hi.notRooted_of_step h havoid v hv
    have hin : v ∉ s.inProgressStack := fun hmem => hold (.inr (.inl hmem))
    have hvisit : v ∉ s.visitStack := fun hmem => hold (.inr (.inr (.inl hmem)))
    have hstack : v ∉ s'.inProgressStack := by
      cases hm with
      | root _ _ hr => exact (Space.csRoot_sameObjects hr).inProgressStack ▸ hin
      | deroot => exact (Space.csDeroot_sameObjects s.toSpace _).inProgressStack ▸ hin
      | @visit t u hpc =>
        intro hmem
        have hu := hi.noEdge u v hv.1 ((List.mem_append.mp hmem).resolve_left hin)
        have hbusy := not_isFree_of_writer (hc.entering t u (entered_of_visit hpc)).1
        rw [hi.notHeld u hu] at hbusy
        cases hbusy
      | _ => exact hin
    have hsame := hm.sameCollector
    rintro (⟨-, hp⟩ | hp | hp | hp | hp)
    · exact hroot hp
    · exact hstack hp
    · exact hvisit (hsame.visitStack ▸ hp)
    · exact hold (.inr (.inr (.inr (.inl (hsame.gc ▸ hp)))))
    · exact hold (.inr (.inr (.inr (.inr (hsame.gc ▸ hp)))))

/-- **The collection closes in on an isolated cell.** -/
theorem Isolated.doomed_of_step (hi : Isolated D s) (hc : Coherent s) (h : step s a = some s')
    (v : Vaddr) (hv : unfreed D (s, a) v) : s'.doomed v := by
  have hold := hi.doomed v hv.1
  obtain ⟨htable, hcell⟩ := hc.inBook v (hi.allocated v hv.1)
  have white : s.status v = some .unvisited → s'.status v = some .unvisited := fun hst =>
    (hi.status_of_step hc h hv).elim (fun heq => heq.trans hst) And.right
  unfold State.doomed at hold
  rcases step_cases h with ⟨rfl, hm⟩ | hm
  · cases hm with
    | busy => exact hi.doomed v hv.1
    | start => trivial
    | paintLen hpc => exact ⟨htable, fun hb => absurd hb (Vaddr.not_before_start v)⟩
    | @paintCell len i j hpc =>
      rw [hpc] at hold
      refine ⟨hold.1, fun hb => ?_⟩
      by_cases heq : v = ⟨i, j⟩
      · subst heq
        obtain ⟨st, hst⟩ := hi.status_isSome hv.1
        refine (Space.status_setStatus s.toSpace _ .unvisited _).trans ?_
        rw [if_pos rfl, hst]
        rfl
      · exact white (hold.2 (hb.of_next heq))
    | @paintTable len i j hpc _ hj =>
      rw [hpc] at hold
      exact ⟨hold.1, fun hb => white (hold.2 (hb.of_nextTable hcell hj))⟩
    | @paintDone len i j hpc hlen =>
      rw [hpc] at hold
      exact white (hold.2 (.inl (by omega)))
    | @sweepLen hpc =>
      rw [hpc] at hold
      exact ⟨hold, htable, fun hb => absurd hb (Vaddr.not_before_start v)⟩
    | @condemn len i j rs hpc =>
      rw [hpc] at hold
      refine ⟨hold.1, hold.2.1, fun hb => ?_⟩
      by_cases heq : v = ⟨i, j⟩
      · exact List.mem_append_right _ (List.mem_singleton.mpr heq)
      · exact List.mem_append_left _ (hold.2.2 (hb.of_next heq))
    | @spare len i j rs hpc _ _ hst =>
      rw [hpc] at hold
      have hne : v ≠ ⟨i, j⟩ := fun heq => hst (heq ▸ hold.1)
      exact ⟨hold.1, hold.2.1, fun hb => hold.2.2 (hb.of_next hne)⟩
    | @sweepTable len i j rs hpc _ hj =>
      rw [hpc] at hold
      exact ⟨hold.1, hold.2.1, fun hb => hold.2.2 (hb.of_nextTable hcell hj)⟩
    | @sweepDone len i j rs hpc hlen =>
      rw [hpc] at hold
      exact hold.2.2 (.inl (by omega))
    | @free rs w n hpc =>
      rw [hpc] at hold
      refine (List.mem_append.mp hold).resolve_right fun hw => ?_
      have hfree := hv.2
      rw [List.mem_singleton.mp hw] at hfree
      rw [frees_iff.mpr ⟨rfl, rs, n, hpc⟩] at hfree
      cases hfree
    | freeDone hpc =>
      rw [hpc] at hold
      cases hold
    | finish hpc =>
      rw [hpc] at hold
      exact hold.elim
    | _ =>
      have hpc := ‹s.gc = _›
      rw [hpc] at hold
      exact white hold
  · unfold State.doomed
    rw [hm.sameCollector.gc]
    have hst : s'.status v = s.status v :=
      (hi.status_of_step hc h hv).resolve_right fun hgc => by
        obtain ⟨rfl, -⟩ := hgc
        cases hm
    rw [hst]
    exact hold

theorem Isolated.preserved (hi : Isolated D s) (hc : Coherent s) (h : step s a = some s')
    (havoid : avoids D a) : Isolated (unfreed D (s, a)) s' where
  allocated := hi.allocated_of_step hc h
  notRooted := hi.notRooted_of_step h havoid
  notHeld := hi.notHeld_of_step h havoid
  notPending := hi.notPending_of_step hc h havoid
  noEdge := hi.noEdge_of_step h havoid
  doomed := hi.doomed_of_step hc h

end Chvm.Cs
