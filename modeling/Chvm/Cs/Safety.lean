import Chvm.Cs.Snapshot

/-!
# What the sweep frees

A free is safe when the object is not reachable from the root set at that step. The written
argument for it covers the writes of paint black, where a mutator can write to visited objects
only; it leaves out two things that happen at the borders of the phases. A newly added object is
never scanned, so a reference moved into it between paint white and the root snapshot is hidden
from the marking; and a write lock taken before the flag is set is a lock on an object that is not
visited, whose references its holder can move during paint black.

Where no step hides an object in one of these ways, everything that is live and unmarked stays to
be found, the marking leaves nothing live unmarked, and the sweep frees only what is not live.
-/

set_option autoImplicit false

namespace Chvm.Cs

open Chvm.Lib

/-- No extra sources. -/
def nowhere (_ : Vaddr) : Prop := False

/-- A mutator roots, locks and stores a vaddr only if it is reachable from the root set, or is that
of an object whose lock the mutator holds. -/
def allowed (s : State) : Act → Prop
  | .root t v | .getRead t v | .getWrite t v => s.Reachable v ∨ (s.lck v).holds t = true
  | .storeRef t _ _ w => w = nullVaddr ∨ s.Reachable w ∨ (s.lck w).holds t = true
  | _ => True

/-- Setting the flag hides an object: it is live and not marked, but every way to it from the roots
leads through a marked object, which is not scanned again. -/
def hidesAtFlag (s : State) : Prop :=
  ∃ v, s.unmarked v ∧ s.Live nowhere v ∧ ¬ Via s.edge s.unmarked (· ∈ s.roots) v

/-- A store during paint black hides an object: it takes a reference out of an unmarked object, and
something unmarked behind that reference stays live. -/
def hidesByStore (s : State) (v : Vaddr) (i : Nat) (w : Vaddr) : Prop :=
  s.gc.paintBlack = true ∧ s.unmarked v ∧ ∃ x y, s.edge v x ∧ ¬ (s.storeRef v i w).edge v x ∧
    Via s.edge s.unmarked (· = x) y ∧
    State.Live { s with toSpace := s.toSpace.storeRef v i w } nowhere y

def hides (s : State) : Act → Prop
  | .gc => s.gc = .setFlag ∧ hidesAtFlag s
  | .storeRef _ v i w => hidesByStore s v i w
  | _ => False

/-- The step frees the object at `v`. -/
def freesObj (v : Vaddr) (e : State × Act) : Bool :=
  match e.2, e.1.gc with
  | .gc, .free rs _ => rs.getLast? == some v
  | _, _ => false

/-- The places from the last look at the stacks to the last free. -/
def GcPc.settled : GcPc → Bool
  | .popVisit false | .clearFlag | .sweepLen | .sweep .. | .free .. => true
  | _ => false

/-- The vaddrs `ms_filter` has collected. -/
def GcPc.removeStack : GcPc → List Vaddr
  | .sweep _ _ _ rs | .free rs _ => rs
  | _ => []

/-- `adb_foreach` has passed the cell. -/
def Vaddr.before (v : Vaddr) (i j : Nat) : Prop :=
  v.tableIndex < i ∨ (v.tableIndex = i ∧ v.cellIndex < j)

/-- The collected vaddrs are distinct, and the sweep has passed them. -/
structure Collected (pc : GcPc) : Prop where
  nodup : pc.removeStack.Nodup
  passed : ∀ len i j rs, pc = .sweep len i j rs → ∀ v ∈ rs, Vaddr.before v i j

theorem Collected.of_nil {pc : GcPc} (h : pc.removeStack = []) : Collected pc where
  nodup := h ▸ List.nodup_nil
  passed len i j rs hpc v hv := by
    subst hpc
    have hnil : rs = [] := h
    rw [hnil] at hv
    cases hv

theorem Vaddr.before.mono {v : Vaddr} {i j i' j' : Nat} (h : Vaddr.before v i j)
    (hle : i < i' ∨ (i = i' ∧ j ≤ j')) : Vaddr.before v i' j' := by
  unfold Vaddr.before at h ⊢
  omega

theorem Vaddr.not_before_start (v : Vaddr) : ¬ Vaddr.before v 0 0 := by
  unfold Vaddr.before
  omega

/-- The walk goes on by one cell. -/
theorem Vaddr.before.of_next {v : Vaddr} {i j : Nat} (h : Vaddr.before v i (j + 1)) (hne : v ≠ ⟨i, j⟩) :
    Vaddr.before v i j := by
  obtain ⟨vi, vj⟩ := v
  simp only [ne_eq, Vaddr.mk.injEq, Vaddr.before] at hne h ⊢
  omega

/-- The walk goes on to the next table, behind the last cell. -/
theorem Vaddr.before.of_nextTable {v : Vaddr} {i j cap : Nat} (h : Vaddr.before v (i + 1) 0)
    (hcell : v.cellIndex < cap) (hj : ¬ j < cap) : Vaddr.before v i j := by
  unfold Vaddr.before at h ⊢
  omega

theorem Collected.of_step {s s' : State} {a : Act} (hi : Collected s.gc) (h : step s a = some s') :
    Collected s'.gc := by
  rcases step_cases h with ⟨rfl, hm⟩ | hm
  · obtain ⟨hnodup, hpassed⟩ := hi
    cases hm with
    | busy => exact ⟨hnodup, hpassed⟩
    | @condemn len i j rs hpc =>
      rw [hpc] at hnodup
      have hbefore := hpassed _ _ _ _ hpc
      refine ⟨List.nodup_append.mpr ⟨hnodup, List.pairwise_singleton _ _, fun v hv w hw => ?_⟩, ?_⟩
      · rintro rfl
        rw [List.mem_singleton] at hw
        subst hw
        have hv := hbefore _ hv
        unfold Vaddr.before at hv
        simp only [Nat.lt_irrefl, and_false, or_self] at hv
      · rintro _ _ _ _ ⟨⟩ v hv
        rcases List.mem_append.mp hv with hv | hv
        · exact (hbefore v hv).mono (.inr ⟨rfl, Nat.le_succ j⟩)
        · rw [List.mem_singleton] at hv
          subst hv
          exact .inr ⟨rfl, Nat.lt_succ_self j⟩
    | @spare len i j rs hpc =>
      rw [hpc] at hnodup
      refine ⟨hnodup, ?_⟩
      rintro _ _ _ _ ⟨⟩ v hv
      exact (hpassed _ _ _ _ hpc v hv).mono (.inr ⟨rfl, Nat.le_succ j⟩)
    | @sweepTable len i j rs hpc =>
      rw [hpc] at hnodup
      refine ⟨hnodup, ?_⟩
      rintro _ _ _ _ ⟨⟩ v hv
      exact (hpassed _ _ _ _ hpc v hv).mono (.inl (Nat.lt_succ_self i))
    | sweepDone hpc =>
      rw [hpc] at hnodup
      exact ⟨hnodup, nofun⟩
    | free hpc =>
      rw [hpc] at hnodup
      exact ⟨(List.nodup_append.mp hnodup).1, nofun⟩
    | _ => exact .of_nil rfl
  · exact hm.sameCollector.gc ▸ hi

/-- What every state of a run has in which no step hides an object. -/
structure Safe (s : State) : Prop where
  coherent : Coherent s
  collected : Collected s.gc
  /-- During paint black what is live and not marked is still to be found. -/
  search : s.gc.paintBlack = true → ∀ v, s.Live nowhere v → s.unmarked v → s.ToFind v
  /-- After the last look at the stacks everything live is marked. -/
  marked : s.gc.settled = true → ∀ v, s.Live nowhere v → ¬ s.unmarked v
  /-- What is to be freed is allocated and not live. -/
  condemned : ∀ v ∈ s.gc.removeStack, (s.obj v).isSome = true ∧ ¬ s.Live nowhere v

theorem State.Reachable.live {s : State} {extra : Vaddr → Prop} {v : Vaddr} (h : s.Reachable v) :
    s.Live extra v :=
  h.mono (fun _ _ _ he => he) (fun _ _ => trivial) fun _ hroot => .inl hroot

theorem isFree_false_of_holds {l : RwLock} {t : Tid} (h : l.holds t = true) : l.isFree = false := by
  by_contra hfree
  rw [Bool.not_eq_false] at hfree
  rw [RwLock.not_holds_of_isFree hfree] at h
  cases h

theorem usesLive_of_allowed {s : State} {a : Act} (h : allowed s a) : usesLive s nowhere a := by
  have live : ∀ {t : Tid} {v : Vaddr}, s.Reachable v ∨ (s.lck v).holds t = true →
      s.Live nowhere v := fun h =>
    h.elim State.Reachable.live fun h => State.Live.held (isFree_false_of_holds h)
  cases a with
  | root => exact live h
  | getRead => exact live h
  | getWrite => exact live h
  | storeRef => exact h.imp_right live
  | _ => trivial

/-- The object a mutator has just allocated is not unmarked. -/
theorem not_unmarked_malloc {s s' : State} {t : Tid} {v : Vaddr} {n : Nat} {da : List UInt8}
    (h : step s (.malloc t v n da) = some s') : ¬ s'.unmarked v := by
  have hst : s'.status v = some .newlyAdded := by
    rcases step_cases h with ⟨h, -⟩ | hm
    · cases h
    · cases hm with
      | malloc =>
        have hobj := (Space.obj_csMallocP s.toSpace v n da v).trans (if_pos rfl)
        exact Space.status_eq_some.mpr ⟨_, (Space.obj_setLck _ _ _ v).trans hobj, rfl⟩
  rintro (hun | hun) <;> cases hst.symm.trans hun

/-- What is live and unmarked after an allowed step was so before. -/
theorem live_unmarked_of_step {s s' : State} {a : Act} (h : step s a = some s') (ha : allowed s a)
    (hpaint : s.gc.painting = false) {v : Vaddr} (hlive : s'.Live nowhere v)
    (hun : s'.unmarked v) : s.Live nowhere v ∧ s.unmarked v := by
  refine ⟨(live_of_live_step h (usesLive_of_allowed ha) (fun _ h => nomatch h) hlive).resolve_right ?_,
    unmarked_of_step h hpaint hun⟩
  rintro ⟨t, n, da, rfl⟩
  exact not_unmarked_malloc h hun

/-- A store that hides nothing leaves what is live and unmarked to be found. -/
theorem toFind_of_store {s s' : State} {t : Tid} {u w : Vaddr} {i : Nat}
    (h : step s (.storeRef t u i w) = some s') (hblack : s.gc.paintBlack = true)
    (hhide : ¬ hidesByStore s u i w) (hun : s.unmarked u) {v : Vaddr}
    (hlive : s'.Live nowhere v) (hfind : s.ToFind v) : s'.ToFind v := by
  rcases step_cases h with ⟨h, -⟩ | hm
  · cases h
  · cases hm with
    | @storeRef _ _ _ _ o hidle hobj hwriter hi =>
      have hstatus : ∀ x, s.unmarked x → (s.storeRef u i w).unmarked x := by
        intro x hx
        unfold Space.unmarked Space.status at hx ⊢
        rw [Space.obj_storeRef]
        split
        next heq =>
          subst heq
          rw [Option.map_map]
          exact hx
        next => exact hx
      have hedge : ∀ x y, x ≠ u → s.edge x y → (s.storeRef u i w).edge x y := by
        intro x y hne hxy
        unfold Space.edge
        rw [Space.refs_congr (s := s.toSpace)]
        · exact hxy
        · rw [Space.obj_storeRef, if_neg hne]
      -- follow the way to `v`: it is kept up to the last reference it loses, if it loses one
      have hway : State.ToFind { s with toSpace := s.toSpace.storeRef u i w } v ∨
          ∃ x, s.edge u x ∧ ¬ (s.storeRef u i w).edge u x ∧ Via s.edge s.unmarked (· = x) v := by
        refine hfind.least (P := fun v =>
            State.ToFind { s with toSpace := s.toSpace.storeRef u i w } v ∨
            ∃ x, s.edge u x ∧ ¬ (s.storeRef u i w).edge u x ∧ Via s.edge s.unmarked (· = x) v)
          (fun y hsrc hy => .inl (.base hsrc (hstatus y hy))) fun x y hx _ hxy hy => ?_
        rcases hx with hx | ⟨z, hz, hlost, hvia⟩
        · by_cases heq : x = u
          · subst heq
            by_cases hkept : (s.storeRef x i w).edge x y
            · exact .inl (.step hx hkept (hstatus y hy))
            · exact .inr ⟨y, hxy, hkept, .base rfl hy⟩
          · exact .inl (.step hx (hedge x y heq hxy) (hstatus y hy))
        · exact .inr ⟨z, hz, hlost, .step hvia hxy hy⟩
      refine hway.resolve_right fun ⟨x, hux, hlost, hvia⟩ => ?_
      exact hhide ⟨hblack, hun, x, v, hux, hlost, hvia, hlive⟩

theorem Safe.search_of_step {s s' : State} {a : Act} (hi : Safe s) (h : step s a = some s')
    (ha : allowed s a) (hhide : ¬ hides s a) (hblack' : s'.gc.paintBlack = true) (v : Vaddr)
    (hlive : s'.Live nowhere v) (hun : s'.unmarked v) : s'.ToFind v := by
  have found : s.gc.paintBlack = true → s'.ToFind v := by
    intro hblack
    obtain ⟨hlive0, hun0⟩ :=
      live_unmarked_of_step h ha (not_painting_of_paintBlack hblack) hlive hun
    have hfind := hi.search hblack v hlive0 hun0
    by_cases hstore : storesUnmarked s a
    · cases a with
      | storeRef t u i w => exact toFind_of_store h hblack hhide hstore hlive hfind
      | _ => cases hstore
    · exact toFind_of_step hi.coherent h hblack hstore hfind hun
  rcases step_cases h with ⟨rfl, hm⟩ | hm
  · rcases hm.paintBlack_before hblack' with hblack | hpc
    · exact found hblack
    · cases hm with
      | setFlag =>
        have hvia : Via s.edge s.unmarked (· ∈ s.roots) v := by
          by_contra hlost
          exact hhide ⟨hpc, v, hun, hlive, hlost⟩
        exact hvia.mono (fun _ _ _ he => he) (fun _ hu => hu) fun _ hroot => .inl ⟨rfl, hroot⟩
      | _ => cases hpc.symm.trans ‹s.gc = _›
  · exact found (hm.sameCollector.gc ▸ hblack')

theorem Safe.marked_of_step {s s' : State} {a : Act} (hi : Safe s) (h : step s a = some s')
    (ha : allowed s a) (hhide : ¬ hides s a) (hset' : s'.gc.settled = true) (v : Vaddr)
    (hlive : s'.Live nowhere v) : ¬ s'.unmarked v := by
  intro hun
  have kept : s.gc.settled = true → False := by
    intro hset
    have hpaint : s.gc.painting = false := by
      cases hpc : s.gc <;> rw [hpc] at hset <;> first | rfl | cases hset
    obtain ⟨hlive0, hun0⟩ := live_unmarked_of_step h ha hpaint hlive hun
    exact hi.marked hset v hlive0 hun0
  have hsearch := hi.search_of_step h ha hhide
  have hc' := hi.coherent.preserved h
  rcases step_cases h with ⟨rfl, hm⟩ | hm
  · cases hm with
    | @emptyInProgress p hpc hempty =>
      cases p with
      | true => cases hset'
      | false => exact not_toFind_of_empty hc' rfl hempty v (hsearch rfl v hlive hun)
    | busy => exact kept hset'
    | _ =>
      have hpc := ‹s.gc = _›
      first
      | exact kept (by rw [hpc]; rfl)
      | cases hset'
  · exact kept (hm.sameCollector.gc ▸ hset')

theorem Safe.condemned_of_step {s s' : State} {a : Act} (hi : Safe s) (h : step s a = some s')
    (ha : allowed s a) (v : Vaddr) (hv : v ∈ s'.gc.removeStack) :
    (s'.obj v).isSome = true ∧ ¬ s'.Live nowhere v := by
  -- a collected object stays allocated until it is taken off the list, and nothing revives it
  have kept : (s.obj v).isSome = true → ¬ s.Live nowhere v → freesObj v (s, a) = false →
      (s'.obj v).isSome = true ∧ ¬ s'.Live nowhere v := by
    intro hsome hdead hfrees
    constructor
    · have hobj := obj_change h v
      generalize s'.obj v = o' at hobj ⊢
      cases hobj with
      | same => exact hsome
      | added => rfl
      | storedRef => rfl
      | freed hpc =>
        simp only [freesObj, hpc, List.getLast?_concat, beq_self_eq_true, Bool.true_eq_false] at hfrees
      | _ => simpa only [Option.isSome_map] using hsome
    · intro hlive
      refine hdead ((live_of_live_step h (usesLive_of_allowed ha) (fun _ h => nomatch h)
        hlive).resolve_right ?_)
      rintro ⟨t, n, da, rfl⟩
      rcases step_cases h with ⟨h, -⟩ | hm
      · cases h
      · cases hm with
        | malloc _ _ _ _ hnone =>
          rw [hnone] at hsome
          cases hsome
  have old : v ∈ s.gc.removeStack → freesObj v (s, a) = false →
      (s'.obj v).isSome = true ∧ ¬ s'.Live nowhere v := fun hmem hfrees =>
    kept (hi.condemned v hmem).1 (hi.condemned v hmem).2 hfrees
  rcases step_cases h with ⟨rfl, hm⟩ | hm
  · cases hm with
    | busy hpc => exact old hv (by simp only [freesObj, hpc])
    | @condemn len i j rs hpc _ _ hst _ =>
      have hnot : freesObj v (s, .gc) = false := by simp only [freesObj, hpc]
      rcases List.mem_append.mp hv with hv | hv
      · exact old (hpc ▸ hv) hnot
      · rw [List.mem_singleton] at hv
        subst hv
        exact kept (isSome_of_status hst) (fun hlive => hi.marked (hpc ▸ rfl) _ hlive (.inl hst)) hnot
    | spare hpc => exact old (hpc ▸ hv) (by simp only [freesObj, hpc])
    | sweepTable hpc => exact old (hpc ▸ hv) (by simp only [freesObj, hpc])
    | sweepDone hpc => exact old (hpc ▸ hv) (by simp only [freesObj, hpc])
    | @free rs w n hpc =>
      have hnodup := hi.collected.nodup
      rw [hpc] at hnodup
      have hne : v ≠ w := fun heq => (List.nodup_append.mp hnodup).2.2 v hv w
        (List.mem_singleton_self w) heq
      refine old (hpc ▸ List.mem_append_left _ hv) ?_
      simp only [freesObj, hpc, List.getLast?_concat, beq_eq_false_iff_ne, ne_eq, Option.some.injEq]
      exact fun heq => hne heq.symm
    | _ => cases hv
  · refine old (hm.sameCollector.gc ▸ hv) ?_
    cases hm <;> rfl

theorem Safe.preserved {s s' : State} {a : Act} (hi : Safe s) (h : step s a = some s')
    (ha : allowed s a) (hhide : ¬ hides s a) : Safe s' where
  coherent := hi.coherent.preserved h
  collected := hi.collected.of_step h
  search := hi.search_of_step h ha hhide
  marked := hi.marked_of_step h ha hhide
  condemned := hi.condemned_of_step h ha

/-- The rule of `allowed` as a check: what it accepts is a root or an object the mutator holds. -/
def allowedCheck (s : State) : Act → Bool
  | .root t v | .getRead t v | .getWrite t v =>
    (s.roots.contains v && (s.obj v).isSome) || (s.lck v).holds t
  | .storeRef t _ _ w =>
    nullAdbAddr w || (s.roots.contains w && (s.obj w).isSome) || (s.lck w).holds t
  | _ => true

theorem allowedCheck_sound (s : State) (a : Act) (h : allowedCheck s a = true) : allowed s a := by
  have sound : ∀ {t : Tid} {v : Vaddr},
      ((s.roots.contains v && (s.obj v).isSome) || (s.lck v).holds t) = true →
      s.Reachable v ∨ (s.lck v).holds t = true := by
    intro t v hv
    simp only [Bool.or_eq_true, Bool.and_eq_true, List.contains_iff_mem] at hv
    exact hv.imp_left fun ⟨hroot, hsome⟩ => .base hroot hsome
  cases a with
  | root => exact sound h
  | getRead => exact sound h
  | getWrite => exact sound h
  | storeRef =>
    rw [allowedCheck, Bool.or_assoc, Bool.or_eq_true] at h
    exact h.imp nullAdbAddr_iff.mp sound
  | _ => trivial

end Chvm.Cs
