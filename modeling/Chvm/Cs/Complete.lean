import Chvm.Cs.Garbage

/-!
# What a collection leaves behind

A collection frees everything that is garbage when it starts, provided the in-progress stack is
empty then: an entry left over from an earlier cycle is marked from like a root. The stack is empty
at the start of every cycle exactly when no mutator pushes a reference after the collector's last
look at it. A mutator can: inside `cs_get_write` it reads the flag, and visits the object later,
when the collector may have found the stack empty, or have cleared the flag.
-/

set_option autoImplicit false

namespace Chvm.Cs

open Chvm.Lib

/-- Some mutator has `v` in a variable. -/
def State.knownBy (s : State) (v : Vaddr) : Prop := ∃ t, v ∈ s.known t

/-- The mutators use only vaddrs they have. -/
def usesKnown (s : State) : Act → Prop
  | .root _ v | .getRead _ v | .getWrite _ v => s.knownBy v
  | .storeRef _ _ _ w => w = nullVaddr ∨ s.knownBy w
  | _ => True

/-- The collector will look at `in_progress_stack` again in this cycle. -/
def GcPc.looping : GcPc → Bool
  | .pushRoots | .popInProgress _ | .popped _ | .popVisit true | .poppedVisit _ => true
  | _ => false

/-- A mutator visits an object that has references when the collector has looked at
`in_progress_stack` for the last time. -/
def pushesLate (s : State) : Act → Prop
  | .visit t => s.gc.looping = false ∧ ∃ v, s.user t = .visit v ∧ s.refs v ≠ []
  | _ => False

variable {s s' : State} {a : Act}

/-! ## The in-progress stack between two cycles -/

/-- Outside the loop the stack is empty. -/
def Drained (s : State) : Prop := s.gc.looping = false → s.inProgressStack = []

/-- How a mutator's section changes the in-progress stack. -/
theorem UserMove.inProgressStack (hm : UserMove s a s') :
    s'.inProgressStack = s.inProgressStack ∨
      ∃ t v, a = .visit t ∧ s.user t = .visit v ∧
        s'.inProgressStack = s.inProgressStack ++ s.refs v := by
  cases hm with
  | root _ _ hroot => exact .inl (Space.csRoot_sameObjects hroot).inProgressStack
  | deroot => exact .inl (Space.csDeroot_sameObjects s.toSpace _).inProgressStack
  | visit hpc => exact .inr ⟨_, _, rfl, hpc, rfl⟩
  | _ => exact .inl rfl

theorem Drained.of_step (hi : Drained s) (h : step s a = some s') (hlate : ¬ pushesLate s a) :
    Drained s' := by
  intro hloop
  rcases step_cases h with ⟨rfl, hm⟩ | hm
  · cases hm with
    | busy => exact hi hloop
    | emptyInProgress _ hempty => exact hempty
    | setFlag => cases hloop
    | pushRoots => cases hloop
    | popInProgress => cases hloop
    | grey => cases hloop
    | drop => cases hloop
    | popVisit => cases hloop
    | again => cases hloop
    | visit => cases hloop
    | skip => cases hloop
    | _ =>
      have hpc := ‹s.gc = _›
      exact hi (hpc ▸ rfl)
  · have hgc := hm.sameCollector.gc
    rw [hgc] at hloop
    rcases hm.inProgressStack with hsame | ⟨t, v, rfl, hpc, hpush⟩
    · exact hsame.trans (hi hloop)
    · have hrefs : s.refs v = [] := by
        by_contra hne
        exact hlate ⟨hloop, v, hpc, hne⟩
      rw [hpush, hi hloop, hrefs]
      rfl

/-- The places after the last look at the stack, up to the next cycle. -/
def GcPc.after : GcPc → Bool
  | .popVisit false | .clearFlag | .sweepLen | .sweep .. | .free .. | .finish _ | .idle => true
  | _ => false

/-- Isolated, and no mutator has a vaddr of the set. -/
structure Lost (D : Vaddr → Prop) (s : State) : Prop where
  coherent : Coherent s
  isolated : Isolated D s
  unknown : ∀ v, D v → ¬ s.knownBy v

variable {D : Vaddr → Prop}

theorem Lost.not_null (hi : Lost D s) : ¬ D nullVaddr := fun hnull => by
  have hsome := hi.isolated.allocated _ hnull
  rw [hi.coherent.nullFree] at hsome
  cases hsome

theorem Lost.avoids (hi : Lost D s) (huse : usesKnown s a) : avoids D a := by
  cases a with
  | root => exact fun hv => hi.unknown _ hv huse
  | getRead => exact fun hv => hi.unknown _ hv huse
  | getWrite => exact fun hv => hi.unknown _ hv huse
  | storeRef =>
    intro hv
    rcases huse with rfl | hknown
    · exact hi.not_null hv
    · exact hi.unknown _ hv hknown
  | _ => trivial

/-- A mutator comes to know what it allocates, a root, and what an object it holds refers to. -/
theorem Lost.unknown_of_step (hi : Lost D s) (h : step s a = some s') (v : Vaddr)
    (hv : unfreed D (s, a) v) : ¬ s'.knownBy v := by
  rintro ⟨u, hmem⟩
  have hold : ∀ t, v ∉ s.known t := fun t hmem => hi.unknown v hv.1 ⟨t, hmem⟩
  have learnt : ∀ {t : Tid} {w : Vaddr},
      v ∈ Function.update s.known t (w :: s.known t) u → ¬ D w → False := by
    intro t w hmem hw
    by_cases heq : u = t
    · subst heq
      rw [Function.update_self] at hmem
      rcases List.mem_cons.mp hmem with rfl | hmem
      · exact hw hv.1
      · exact hold u hmem
    · rw [Function.update_of_ne heq] at hmem
      exact hold u hmem
  rcases step_cases h with ⟨rfl, hm⟩ | hm
  · exact hold u (hm.known_eq ▸ hmem)
  · cases hm with
    | malloc _ _ _ _ hobj =>
      refine learnt hmem fun hw => ?_
      have hsome := hi.isolated.allocated _ hw
      rw [hobj] at hsome
      cases hsome
    | @getRootVaddr t id =>
      refine learnt hmem fun hw => ?_
      by_cases hnull : (s.csGetRootVaddr id).2 = nullVaddr
      · exact hi.not_null (hnull ▸ hw)
      · exact hi.isolated.notRooted _ hw (Space.mem_roots.mpr (Space.csGetRootVaddr_mem hnull))
    | @loadRef t u' w i o _ hobj hholds hget =>
      refine learnt hmem fun hw => ?_
      have hedge : s.edge u' w := by
        show w ∈ s.refs u'
        rw [Space.refs_of_obj hobj]
        refine List.mem_filter.mpr ⟨List.mem_of_getElem? hget, ?_⟩
        cases hnull : nullAdbAddr w with
        | false => rfl
        | true => exact absurd (nullAdbAddr_iff.mp hnull ▸ hw) hi.not_null
      have hfree := hi.isolated.notHeld _ (hi.isolated.noEdge _ _ hw hedge)
      rw [isFree_false_of_holds hholds] at hfree
      cases hfree
    | @forget t w =>
      have hmem : v ∈ Function.update s.known t ((s.known t).erase w) u := hmem
      by_cases heq : u = t
      · subst heq
        rw [Function.update_self] at hmem
        exact hold u (List.mem_of_mem_erase hmem)
      · rw [Function.update_of_ne heq] at hmem
        exact hold u hmem
    | _ => exact hold u hmem

theorem Lost.preserved (hi : Lost D s) (h : step s a = some s') (huse : usesKnown s a) :
    Lost (unfreed D (s, a)) s' where
  coherent := hi.coherent.preserved h
  isolated := hi.isolated.preserved hi.coherent h (hi.avoids huse)
  unknown := hi.unknown_of_step h

end Chvm.Cs
