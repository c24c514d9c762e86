import Chvm.Lib.Via
import Chvm.Cs.Marking

/-!
# References and what is live

The edges of the object graph are the references that are not null. A vaddr is live when it can be
reached from a root, from an object some mutator has locked, or from an extra source; what the
mutators can get at without a fresh allocation only shrinks, as long as they use live vaddrs.
-/

set_option autoImplicit false

namespace Chvm.Cs

open Chvm.Lib

/-- `u` has a reference to `v`. -/
def Space.edge (s : Space) (u v : Vaddr) : Prop := v ∈ s.refs u

theorem Space.refs_of_obj {s : Space} {v : Vaddr} {o : Obj} (h : s.obj v = some o) :
    s.refs v = o.rt.filter fun w => !nullAdbAddr w := by
  simp only [refs, h]

theorem Space.refs_of_none {s : Space} {v : Vaddr} (h : s.obj v = none) : s.refs v = [] := by
  simp only [refs, h]

/-- Only an allocated object has references. -/
theorem Space.isSome_of_edge {s : Space} {u v : Vaddr} (h : s.edge u v) :
    (s.obj u).isSome = true := by
  by_contra hnone
  rw [Bool.not_eq_true, Option.isSome_eq_false_iff, Option.isNone_iff_eq_none] at hnone
  unfold edge at h
  rw [refs_of_none hnone] at h
  cases h

theorem Space.refs_congr {s s' : Space} {v : Vaddr}
    (h : (s'.obj v).map Obj.rt = (s.obj v).map Obj.rt) : s'.refs v = s.refs v := by
  unfold refs
  cases hs : s.obj v with
  | none =>
    rw [hs] at h
    rw [Option.map_eq_none_iff.mp h]
  | some o =>
    rw [hs] at h
    obtain ⟨o', ho', hrt⟩ := Option.map_eq_some_iff.mp h
    simp only [ho', hrt]

/-- A new object has no references. -/
theorem filter_replicate_null (n : Nat) :
    (List.replicate n nullVaddr).filter (fun w => !nullAdbAddr w) = [] := by
  have hnull : nullAdbAddr nullVaddr = true := rfl
  simp only [List.filter_replicate, hnull, Bool.not_true, Bool.false_eq_true, if_false]

/-- The ways a step changes the references of the cell `w`, to `l`. -/
inductive RefsChange (s : State) : Act → Vaddr → List Vaddr → Prop
  | same {a : Act} {w : Vaddr} : RefsChange s a w (s.refs w)
  | added {t : Tid} {w : Vaddr} {n : Nat} {da : List UInt8} (hobj : s.obj w = none) :
      RefsChange s (.malloc t w n da) w []
  | storedRef {t : Tid} {w x : Vaddr} {i : Nat} {o : Obj} (hobj : s.obj w = some o)
      (hidle : s.user t = .idle) (hwriter : (s.lck w).writer = some t) (hi : i < o.rt.length) :
      RefsChange s (.storeRef t w i x) w ((o.rt.set i x).filter fun w => !nullAdbAddr w)
  | freed {w : Vaddr} {rs : List Vaddr} {n : Nat} (hpc : s.gc = .free (rs ++ [w]) n)
      (hfree : (s.lck w).isFree = true) : RefsChange s .gc w []

/-- **What a step does to the references of an object.** -/
theorem refs_change {s s' : State} {a : Act} (h : step s a = some s') (w : Vaddr) :
    RefsChange s a w (s'.refs w) := by
  have hobj := obj_change h w
  generalize heq : s'.obj w = o' at hobj
  have kept : ∀ b, o'.map Obj.rt = (s.obj w).map Obj.rt → RefsChange s b w (s'.refs w) := by
    intro b hrt
    rw [Space.refs_congr (heq ▸ hrt)]
    exact .same
  cases hobj with
  | same => exact kept _ rfl
  | added hnone =>
    rw [Space.refs_of_obj heq, filter_replicate_null]
    exact .added hnone
  | storedRef hold hidle hwriter hi =>
    rw [Space.refs_of_obj heq]
    exact .storedRef hold hidle hwriter hi
  | freed hpc hfree =>
    rw [Space.refs_of_none heq]
    exact .freed hpc hfree
  | _ => exact kept _ (by rw [Option.map_map]; rfl)

/-! ## The root set -/

/-- The ways a step changes the vaddrs of the root set. -/
theorem roots_change {s s' : State} {a : Act} (h : step s a = some s') {v : Vaddr}
    (hv : v ∈ s'.roots) :
    v ∈ s.roots ∨ ∃ t, a = .root t v ∧ s.rootSetLocked = false := by
  rcases step_cases h with ⟨rfl, hm⟩ | hm
  · refine .inl (Space.mem_roots.mpr ?_)
    rw [← hm.rootSet_eq]
    exact Space.mem_roots.mp hv
  · cases hm with
    | root _ hlock hroot =>
      rcases Space.roots_csRoot hroot (Space.mem_roots.mp hv) with rfl | hold
      · exact .inr ⟨_, rfl, hlock⟩
      · exact .inl (Space.mem_roots.mpr hold)
    | deroot => exact .inl (Space.mem_roots.mpr (Space.roots_csDeroot (Space.mem_roots.mp hv)))
    | _ => exact .inl hv

/-- While the collector holds the root-set lock the root set does not change. -/
theorem roots_of_locked {s s' : State} {a : Act} (h : step s a = some s')
    (hlock : s.rootSetLocked = true) : s'.rootSet = s.rootSet := by
  rcases step_cases h with ⟨rfl, hm⟩ | hm
  · exact hm.rootSet_eq
  · cases hm with
    | root _ hlock' =>
      rw [hlock] at hlock'
      cases hlock'
    | deroot _ hlock' =>
      rw [hlock] at hlock'
      cases hlock'
    | _ => rfl

/-! ## What is live -/

/-- An object that can be reached from the allocated root-set entries. -/
def State.Reachable (s : State) : Vaddr → Prop :=
  Via s.edge (fun v => (s.obj v).isSome = true) (· ∈ s.roots)

/-- What can be reached from the roots, the locked objects and the sources of `extra`. -/
def State.Live (s : State) (extra : Vaddr → Prop) : Vaddr → Prop :=
  Via s.edge (fun _ => True) fun v => v ∈ s.roots ∨ (s.lck v).isFree = false ∨ extra v

/-- The step roots, locks and stores live vaddrs only. -/
def usesLive (s : State) (extra : Vaddr → Prop) : Act → Prop
  | .root _ v | .getRead _ v | .getWrite _ v => s.Live extra v
  | .storeRef _ _ _ w => w = nullVaddr ∨ s.Live extra w
  | _ => True

theorem State.Live.root {s : State} {extra : Vaddr → Prop} {v : Vaddr} (h : v ∈ s.roots) :
    s.Live extra v :=
  .base (.inl h) trivial

theorem State.Live.held {s : State} {extra : Vaddr → Prop} {v : Vaddr}
    (h : (s.lck v).isFree = false) : s.Live extra v :=
  .base (.inr (.inl h)) trivial

theorem State.Live.extra {s : State} {extra : Vaddr → Prop} {v : Vaddr} (h : extra v) :
    s.Live extra v :=
  .base (.inr (.inr h)) trivial

/-- A step whose vaddrs are live makes nothing live but the object it allocates. -/
theorem live_of_live_step {s s' : State} {a : Act} {extra extra' : Vaddr → Prop}
    (h : step s a = some s') (huse : usesLive s extra a)
    (hextra : ∀ v, extra' v → s.Live extra v ∨ ∃ t n da, a = .malloc t v n da) {v : Vaddr}
    (hv : s'.Live extra' v) : s.Live extra v ∨ ∃ t n da, a = .malloc t v n da := by
  refine hv.least (P := fun v => s.Live extra v ∨ ∃ t n da, a = .malloc t v n da)
    (fun v hsrc _ => ?_) fun u v hu _ hedge _ => ?_
  · rcases hsrc with hroot | hheld | hextra'
    · rcases roots_change h hroot with hold | ⟨t, rfl, -⟩
      · exact .inl (State.Live.root hold)
      · exact .inl huse
    · have hlck := lck_change h v
      generalize s'.lck v = l' at hlck hheld
      cases hlck with
      | same => exact .inl (State.Live.held hheld)
      | added => exact .inr ⟨_, _, _, rfl⟩
      | read => exact .inl huse
      | write => exact .inl huse
      | released _ hholds =>
        refine .inl (State.Live.held ?_)
        by_contra hfree
        rw [Bool.not_eq_false] at hfree
        rw [RwLock.not_holds_of_isFree hfree] at hholds
        cases hholds
    · exact hextra v hextra'
  · have hrefs := refs_change h u
    unfold Space.edge at hedge
    generalize s'.refs u = l' at hrefs hedge
    cases hrefs with
    | same =>
      rcases hu with hu | ⟨t, n, da, rfl⟩
      · exact .inl (.step hu hedge trivial)
      · -- the cell of the new object was free
        rcases step_cases h with ⟨h, -⟩ | hm
        · cases h
        · cases hm with
          | malloc _ _ _ _ hobj =>
            rw [Space.refs_of_none hobj] at hedge
            cases hedge
    | added => cases hedge
    | @storedRef t u x i o hobj _ hwriter _ =>
      obtain ⟨hmem, hnull⟩ := List.mem_filter.mp hedge
      rcases List.mem_or_eq_of_mem_set hmem with hold | rfl
      · refine .inl (.step (State.Live.held (not_isFree_of_writer hwriter)) ?_ trivial)
        show v ∈ s.refs u
        rw [Space.refs_of_obj hobj]
        exact List.mem_filter.mpr ⟨hold, hnull⟩
      · rcases huse with rfl | hlive
        · cases hnull
        · exact .inl hlive
    | freed => cases hedge

end Chvm.Cs
