import Chvm.Cs.Buffers
import Chvm.Cs.Moves
import Chvm.Cs.Worker

/-!
# The accounts of a collected space

The system of the collector and the mutators, the life of its workers, and beside them the memory
channels. A step goes as in `Cs.Machine` or `Cs.Worker`, and does what its section asks of the
channels: a malloc may add a block and a table, a push on a stack a table, a root doubles the array.
A sweep has a stack of its own, and `cs_start_gc` makes an argument that the worker frees.

Of the other functions, `cs_try_full_shift` among them, none calls `mem.c`. Which throw of
`ms_malloc_p` is a success depends on the seed and on the blocks; it is an input here.
-/

set_option autoImplicit false

namespace Chvm.Cs

open Chvm.Core Chvm.Lib Chvm.Util HeapM

/-- The buffers of a space, of the sweep (`remove_stack` of `ms_filter`), and the arguments that the
workers have not freed, each with its worker. -/
structure Held where
  cs : CsBuffers
  removeStack : Option BcBuffers
  args : List (Nat × Nat)

namespace Held

def onCs (b : Held) (x : HeapM CsBuffers) : HeapM Held := do
  let cs ← x
  return { b with cs }

/-- `ms_filter` makes its stack. -/
def newRemoveStack (b : Held) : HeapM Held := do
  let chnl ← getChnl b.cs.ms.addr
  let removeStack ← BcBuffers.newBrokenCollection chnl addrBookVaddrSize 30
  return { b with removeStack := some removeStack }

/-- `ms_foreach_mp_filter` pushes a vaddr. -/
def pushRemove (b : Held) : HeapM Held :=
  match b.removeStack with
  | none => throw .fault
  | some removeStack => do
    let removeStack ← removeStack.bcPushBack
    return { b with removeStack := some removeStack }

/-- `ms_filter` pops a vaddr, and deletes its stack when there is none. -/
def popRemove (b : Held) : HeapM Held :=
  match b.removeStack with
  | none => throw .fault
  | some removeStack =>
    if removeStack.bcEmpty then do
      removeStack.deleteBrokenCollection
      return { b with removeStack := none }
    else do
      let removeStack ← removeStack.bcPopBack
      return { b with removeStack := some removeStack }

def ptrs (b : Held) : List Nat :=
  b.cs.ptrs ++ (b.removeStack.elim [] BcBuffers.ptrs ++ b.args.map Prod.snd)

end Held

/-- Pop, unless there is nothing. -/
def tryPop (bc : BcBuffers) : HeapM BcBuffers := if bc.bcEmpty then return bc else bc.bcPopBack

/-- What the collector's next section asks for. -/
def gcBuffers (s : State) (b : Held) : HeapM Held :=
  match s.gc with
  | .pushRoots => b.onCs (b.cs.onInProgress (BcBuffers.bcPushBacks s.roots.length))
  | .popInProgress _ => b.onCs (b.cs.onInProgress tryPop)
  | .popped v =>
    if s.status v = some .unvisited then b.onCs (b.cs.onVisit BcBuffers.bcPushBack) else return b
  | .popVisit _ => b.onCs (b.cs.onVisit tryPop)
  | .poppedVisit v =>
    if s.status v = some .inProgress then
      b.onCs (b.cs.onInProgress (BcBuffers.bcPushBacks (s.refs v).length))
    else return b
  | .sweepLen => b.newRemoveStack
  | .sweep len i j _ =>
    if i < len ∧ j < s.tableCap ∧ s.status ⟨i, j⟩ = some .unvisited then b.pushRemove else return b
  | .free _ _ => b.popRemove
  | _ => return b

/-- What a section asks for. -/
def actBuffers (s : State) (a : Act) (success : Bool) (b : Held) : HeapM Held :=
  match a with
  | .gc => gcBuffers s b
  | .malloc _ v rtLen da =>
    b.onCs (b.cs.csMallocP rtLen da.length success (v.tableIndex = s.bookLen))
  | .root _ _ => b.onCs (b.cs.csRoot s.freeHead.isNone)
  | .visit t =>
    match s.user t with
    | .visit v => b.onCs (b.cs.onInProgress (BcBuffers.bcPushBacks (s.refs v).length))
    | _ => return b
  | _ => return b

/-- `cs_start_gc` makes the argument of the worker it creates. -/
def lifeBuffers (s : Life Tid) (a : LifeAct Tid) (b : Held) : HeapM Held :=
  match a with
  | .create _ => do
    let chnl ← getChnl b.cs.addr
    let gcArg ← safeMalloc chnl gcWorkerArgSize
    return { b with args := (s.workers.length, gcArg) :: b.args }
  | _ => return b

/-- `cs_gc_worker` frees its argument. -/
def takeArg (worker : Nat) (b : Held) : HeapM Held :=
  match b.args.find? (·.1 = worker) with
  | none => throw .fault
  | some e => do
    safeFree e.2
    return { b with args := b.args.erase e }

/-! ## The system -/

/-- The space with its collector and its mutators, its workers, the memory channels and the buffers. -/
structure Res where
  space : State
  life : Life Tid
  run : ChnlRun
  held : Held

/-- A section of the collector or of a mutator, a step of a worker's life, or the worker's free of its
argument; the first two with the host's answers. -/
inductive ResAct
  | space (a : Act) (success : Bool) (answers : List Nat)
  | life (a : LifeAct Tid) (answers : List Nat)
  | take (worker : Nat)

def ResAct.answers : ResAct → List Nat
  | .space _ _ answers | .life _ answers => answers
  | .take _ => []

namespace Res

/-- A space between `new_collected_space_seed` and the first call. -/
def new (p : Params) (cs : CsBuffers) (run : ChnlRun) : Res where
  space := State.new p.adbTCap
  life := Life.new Tid
  run := run
  held := ⟨cs, none, []⟩

/-- What the threads do. The worker frees its argument before it looks at the status. -/
def moves (r : Res) : ResAct → Option (State × Life Tid)
  | .space a _ _ => (step r.space a).map fun s => (s, r.life)
  | .life (.look w) _ =>
    if ∀ e ∈ r.held.args, e.1 ≠ w then (lifeStep r.life (.look w)).map fun l => (r.space, l) else none
  | .life a _ => (lifeStep r.life a).map fun l => (r.space, l)
  | .take w => if ∃ e ∈ r.held.args, e.1 = w then some (r.space, r.life) else none

/-- What they ask of the memory channels. -/
def asks (r : Res) : ResAct → HeapM Held
  | .space a success _ => actBuffers r.space a success r.held
  | .life a _ => lifeBuffers r.life a r.held
  | .take w => takeArg w r.held

end Res

/-- One step. The process ends when the host has no memory. -/
def resStep (r : Res) (a : ResAct) : Option Res :=
  match r.moves a, r.asks a ⟨r.run, a.answers, []⟩ with
  | some (space, life), .ok (held, h) => some { space, life, run := h.run, held }
  | _, _ => none

/-- No size that the step asks for wraps. -/
def SizesFit (r : Res) : ResAct → Prop
  | .space (.malloc _ _ rtLen da) _ _ => r.held.cs.ms.Fits (objBytes rtLen da.length)
  | .space (.root _ _) _ _ => r.held.cs.rootSetCap * 2 * rootSetEntrySize + 1 < 2 ^ 64
  | _ => True

/-! ## The buffers follow the threads -/

/-- The sweep's stack is there from `ms_filter`'s first section to its last. -/
def RemoveShape (removeStack : Option BcBuffers) : GcPc → Prop
  | .sweep _ _ _ stack | .free stack _ => ∃ bc, removeStack = some bc ∧ bc.Holds stack.length
  | _ => removeStack = none

/-- The buffers are those of what the space holds. -/
structure Held.Shape (b : Held) (adbTCap : Nat) (s : State) : Prop where
  cs : b.cs.Shape adbTCap s.bookLen s.rootSet.length s.inProgressStack.length s.visitStack.length
  remove : RemoveShape b.removeStack s.gc

variable {b : Held} {s s' : State} {cap : Nat} {chnl : UInt8} {base : List (Nat × UInt8)}
  {x : HeapM CsBuffers} {success : Bool} {a : Act}

/-- A change of the space's own buffers. -/
theorem triple_onCs {A : CsBuffers → Prop}
    (hx : ∀ rest, Triple OutOfMemory (Owned chnl base (b.cs.ptrs ++ rest)) x
      fun cs h => A cs ∧ Owned chnl base (cs.ptrs ++ rest) h)
    (hshape : ∀ cs, A cs → Held.Shape { b with cs } cap s') :
    Triple OutOfMemory (Owned chnl base b.ptrs) (b.onCs x)
      fun b' h => (b'.Shape cap s' ∧ b'.args = b.args) ∧ Owned chnl base b'.ptrs h := by
  refine (hx _).bind fun cs => ?_
  rintro h ⟨hA, hown⟩
  exact ⟨⟨hshape cs hA, rfl⟩, hown⟩

theorem triple_same (hshape : b.Shape cap s') :
    Triple OutOfMemory (Owned chnl base b.ptrs) (pure b)
      fun b' h => (b'.Shape cap s' ∧ b'.args = b.args) ∧ Owned chnl base b'.ptrs h :=
  fun _ hown => ⟨⟨hshape, rfl⟩, hown⟩

theorem triple_tryPop {bc : BcBuffers} {stops : HeapStop → Prop} {n : Nat} (hbc : bc.Holds n)
    (rest : List Nat) : Triple stops (Owned chnl base (bc.ptrs ++ rest)) (tryPop bc)
      fun bc h => bc.Holds (n - 1) ∧ Owned chnl base (bc.ptrs ++ rest) h := by
  unfold tryPop
  cases n with
  | zero =>
    rw [if_pos (hbc.empty_iff.mpr rfl)]
    exact fun _ hown => ⟨hbc, hown⟩
  | succ n =>
    rw [if_neg fun hempty => Nat.succ_ne_zero n (hbc.empty_iff.mp hempty)]
    exact BcBuffers.triple_bcPopBack hbc

/-- The sweep's stack, beside the other buffers. -/
theorem focus_remove {bc : BcBuffers} (hsome : b.removeStack = some bc) (h : Heap)
    (hown : Owned chnl base b.ptrs h) :
    Owned chnl base (bc.ptrs ++ (b.cs.ptrs ++ b.args.map Prod.snd)) h := by
  refine hown.perm (List.perm_iff_count.mpr fun a => ?_)
  simp only [Held.ptrs, hsome, Option.elim_some, List.count_append]
  omega

theorem unfocus_remove {bc : BcBuffers} (h : Heap)
    (hown : Owned chnl base (bc.ptrs ++ (b.cs.ptrs ++ b.args.map Prod.snd)) h) :
    Owned chnl base (Held.ptrs { b with removeStack := some bc }) h := by
  refine hown.perm (List.perm_iff_count.mpr fun a => ?_)
  simp only [Held.ptrs, Option.elim_some, List.count_append]
  omega

theorem triple_newRemoveStack (hb : b.Shape cap s) (hpc : s.gc = .sweepLen) :
    Triple OutOfMemory (Owned chnl base b.ptrs) b.newRemoveStack fun b' h =>
      (b'.Shape cap { s with gc := .sweep s.bookLen 0 0 [] } ∧ b'.args = b.args) ∧
        Owned chnl base b'.ptrs h := by
  have hnone : b.removeStack = none := by
    have hremove := hb.remove
    rw [hpc] at hremove
    exact hremove
  have hms : b.cs.ms.addr ∈ b.ptrs :=
    List.mem_append_left _ (List.mem_cons_of_mem _ (List.mem_cons_of_mem _
      (List.mem_append_left _ List.mem_cons_self)))
  refine (triple_getChnl hms).bind fun chnl' => Triple.of_fact ?_
  rintro rfl
  refine (BcBuffers.triple_newBrokenCollection (by decide) (by decide) (by decide)).bind fun bc => ?_
  rintro h ⟨hbc, hown⟩
  refine ⟨⟨⟨hb.cs, bc, rfl, hbc⟩, rfl⟩, unfocus_remove h (hown.perm ?_)⟩
  have hptrs : b.ptrs = b.cs.ptrs ++ b.args.map Prod.snd := by
    rw [Held.ptrs, hnone]
    rfl
  rw [hptrs]

theorem triple_pushRemove {bc : BcBuffers} {n : Nat} (hsome : b.removeStack = some bc) (hbc : bc.Holds n)
    (hshape : ∀ bc' : BcBuffers, bc'.Holds (n + 1) →
      Held.Shape { b with removeStack := some bc' } cap s') :
    Triple OutOfMemory (Owned chnl base b.ptrs) b.pushRemove
      fun b' h => (b'.Shape cap s' ∧ b'.args = b.args) ∧ Owned chnl base b'.ptrs h := by
  unfold Held.pushRemove
  rw [hsome]
  refine ((BcBuffers.triple_bcPushBack hbc).pre (focus_remove hsome)).bind fun bc' => ?_
  rintro h ⟨hbc', hown⟩
  exact ⟨⟨hshape bc' hbc', rfl⟩, unfocus_remove h hown⟩

theorem triple_popRemove {bc : BcBuffers} {n : Nat} (hsome : b.removeStack = some bc)
    (hbc : bc.Holds (n + 1))
    (hshape : ∀ bc' : BcBuffers, bc'.Holds n → Held.Shape { b with removeStack := some bc' } cap s') :
    Triple OutOfMemory (Owned chnl base b.ptrs) b.popRemove
      fun b' h => (b'.Shape cap s' ∧ b'.args = b.args) ∧ Owned chnl base b'.ptrs h := by
  unfold Held.popRemove
  rw [hsome]
  show Triple _ _ (if bc.bcEmpty then _ else _) _
  rw [if_neg fun hempty => Nat.succ_ne_zero n (hbc.empty_iff.mp hempty)]
  refine ((BcBuffers.triple_bcPopBack hbc).pre (focus_remove hsome)).bind fun bc' => ?_
  rintro h ⟨hbc', hown⟩
  exact ⟨⟨hshape bc' hbc', rfl⟩, unfocus_remove h hown⟩

/-- The sweep's stack is deleted when it is empty. -/
theorem triple_deleteRemove {bc : BcBuffers} (hsome : b.removeStack = some bc) (hbc : bc.Holds 0)
    (hshape : Held.Shape { b with removeStack := none } cap s') :
    Triple OutOfMemory (Owned chnl base b.ptrs) b.popRemove
      fun b' h => (b'.Shape cap s' ∧ b'.args = b.args) ∧ Owned chnl base b'.ptrs h := by
  unfold Held.popRemove
  rw [hsome]
  show Triple _ _ (if bc.bcEmpty then _ else _) _
  rw [if_pos (hbc.empty_iff.mpr rfl), BcBuffers.deleteBrokenCollection_eq]
  have hdelete : Triple OutOfMemory (Owned chnl base b.ptrs) (bc.deleteOrder.forM safeFree)
      fun _ => Owned chnl base (b.cs.ptrs ++ b.args.map Prod.snd) := by
    intro h hown
    have hown' := (focus_remove hsome h hown).perm (bc.deleteOrder_perm.symm.append_right _)
    obtain ⟨u, h', heq, -, hrest⟩ := (triple_freeAll bc.deleteOrder).total ⟨rfl, hown'⟩
    rw [heq]
    exact hrest
  refine hdelete.bind fun _ => ?_
  intro h hown
  exact ⟨⟨hshape, rfl⟩, hown⟩

theorem Held.Shape.remove_at (hb : b.Shape cap s) {pc : GcPc} (hpc : s.gc = pc) :
    RemoveShape b.removeStack pc :=
  hpc ▸ hb.remove

/-- A section that changes the in-progress stack, and no other length. -/
theorem triple_inProgress {f : BcBuffers → HeapM BcBuffers} {n : Nat} (hb : b.Shape cap s)
    (hf : ∀ rest, Triple OutOfMemory (Owned chnl base (b.cs.inProgressStack.ptrs ++ rest))
      (f b.cs.inProgressStack) fun bc h => bc.Holds n ∧ Owned chnl base (bc.ptrs ++ rest) h)
    (hlen : s'.inProgressStack.length = n) (hbook : s'.bookLen = s.bookLen) (hroots : s'.rootSet = s.rootSet)
    (hvisit : s'.visitStack = s.visitStack) (hremove : RemoveShape b.removeStack s'.gc) :
    Triple OutOfMemory (Owned chnl base b.ptrs) (b.onCs (b.cs.onInProgress f))
      fun b' h => (b'.Shape cap s' ∧ b'.args = b.args) ∧ Owned chnl base b'.ptrs h := by
  have hcs := hb.cs
  rw [← hbook, ← hroots, ← hvisit] at hcs
  subst hlen
  exact triple_onCs (fun rest => CsBuffers.triple_onInProgress hcs hf) fun cs hcs' => ⟨hcs', hremove⟩

/-- A section that changes the visit stack, and no other length. -/
theorem triple_visit {f : BcBuffers → HeapM BcBuffers} {n : Nat} (hb : b.Shape cap s)
    (hf : ∀ rest, Triple OutOfMemory (Owned chnl base (b.cs.visitStack.ptrs ++ rest)) (f b.cs.visitStack)
      fun bc h => bc.Holds n ∧ Owned chnl base (bc.ptrs ++ rest) h)
    (hlen : s'.visitStack.length = n) (hbook : s'.bookLen = s.bookLen) (hroots : s'.rootSet = s.rootSet)
    (hinProgress : s'.inProgressStack = s.inProgressStack) (hremove : RemoveShape b.removeStack s'.gc) :
    Triple OutOfMemory (Owned chnl base b.ptrs) (b.onCs (b.cs.onVisit f))
      fun b' h => (b'.Shape cap s' ∧ b'.args = b.args) ∧ Owned chnl base b'.ptrs h := by
  have hcs := hb.cs
  rw [← hbook, ← hroots, ← hinProgress] at hcs
  subst hlen
  exact triple_onCs (fun rest => CsBuffers.triple_onVisit hcs hf) fun cs hcs' => ⟨hcs', hremove⟩

/-- The references of a visited object go on the in-progress stack. -/
theorem triple_pushRefs {vs : List Vaddr} (hb : b.Shape cap s)
    (hpush : s'.inProgressStack = s.inProgressStack ++ vs) (hbook : s'.bookLen = s.bookLen)
    (hroots : s'.rootSet = s.rootSet) (hvisit : s'.visitStack = s.visitStack)
    (hremove : RemoveShape b.removeStack s'.gc) :
    Triple OutOfMemory (Owned chnl base b.ptrs)
      (b.onCs (b.cs.onInProgress (BcBuffers.bcPushBacks vs.length)))
      fun b' h => (b'.Shape cap s' ∧ b'.args = b.args) ∧ Owned chnl base b'.ptrs h := by
  have hlen : s'.inProgressStack.length = s.inProgressStack.length + vs.length := by
    rw [hpush, List.length_append]
  exact triple_inProgress hb (fun rest => BcBuffers.triple_bcPushBacks hb.cs.inProgressStack) hlen hbook
    hroots hvisit hremove

/-- **The collector's section** leaves the buffers of what the space then holds. -/
theorem triple_gcBuffers (hmove : GcMove s s') (hb : b.Shape cap s) :
    Triple OutOfMemory (Owned chnl base b.ptrs) (gcBuffers s b)
      fun b' h => (b'.Shape cap s' ∧ b'.args = b.args) ∧ Owned chnl base b'.ptrs h := by
  unfold gcBuffers
  cases hmove with
  | busy hpc hbusy =>
    rw [hpc]
    exact triple_same hb
  | start hpc | paintLen hpc | paintCell hpc | paintTable hpc | paintDone hpc | lockRoots hpc
  | setFlag hpc | clearFlag hpc | finish hpc =>
    rw [hpc]
    have hremove := hb.remove_at hpc
    exact triple_same ⟨hb.cs, hremove⟩
  | pushRoots hpc =>
    rw [hpc]
    have hremove := hb.remove_at hpc
    exact triple_pushRefs hb rfl rfl rfl rfl hremove
  | emptyInProgress hpc hempty =>
    rw [hpc]
    have hremove := hb.remove_at hpc
    have hlen := hb.cs.inProgressStack
    rw [hempty] at hlen
    exact triple_inProgress hb (triple_tryPop hlen) (congrArg List.length hempty) rfl rfl rfl hremove
  | popInProgress hpc hstack =>
    rw [hpc]
    have hremove := hb.remove_at hpc
    have hlen := hb.cs.inProgressStack
    rw [hstack, List.length_append] at hlen
    exact triple_inProgress hb (triple_tryPop hlen) rfl rfl rfl rfl hremove
  | @grey v hpc hfree hst =>
    rw [hpc]
    have hremove := hb.remove_at hpc
    show Triple _ _ (if s.status v = some .unvisited then _ else _) _
    rw [if_pos hst]
    exact triple_visit hb (fun rest => BcBuffers.triple_bcPushBack hb.cs.visitStack) List.length_append
      rfl rfl rfl hremove
  | @drop v st hpc hst hne =>
    rw [hpc]
    have hremove := hb.remove_at hpc
    show Triple _ _ (if s.status v = some .unvisited then _ else _) _
    rw [if_neg fun heq => hne (Option.some.inj (hst.symm.trans heq))]
    exact triple_same ⟨hb.cs, hremove⟩
  | popVisit hpc hstack =>
    rw [hpc]
    have hremove := hb.remove_at hpc
    have hlen := hb.cs.visitStack
    rw [hstack, List.length_append] at hlen
    exact triple_visit hb (triple_tryPop hlen) rfl rfl rfl rfl hremove
  | again hpc hempty | exit hpc hempty =>
    rw [hpc]
    have hremove := hb.remove_at hpc
    have hlen := hb.cs.visitStack
    rw [hempty] at hlen
    exact triple_visit hb (triple_tryPop hlen) (congrArg List.length hempty) rfl rfl rfl hremove
  | @visit v hpc hfree hst =>
    rw [hpc]
    have hremove := hb.remove_at hpc
    show Triple _ _ (if s.status v = some .inProgress then _ else _) _
    rw [if_pos hst]
    exact triple_pushRefs hb rfl rfl rfl rfl hremove
  | @skip v st hpc hst hne =>
    rw [hpc]
    have hremove := hb.remove_at hpc
    show Triple _ _ (if s.status v = some .inProgress then _ else _) _
    rw [if_neg fun heq => hne (Option.some.inj (hst.symm.trans heq))]
    exact triple_same ⟨hb.cs, hremove⟩
  | sweepLen hpc =>
    rw [hpc]
    exact triple_newRemoveStack hb hpc
  | @condemn len i j rs hpc hi hj hst =>
    obtain ⟨bc, hsome, hbc⟩ := hb.remove_at hpc
    rw [hpc]
    show Triple _ _ (if i < len ∧ j < s.tableCap ∧ s.status ⟨i, j⟩ = some .unvisited then _ else _) _
    rw [if_pos ⟨hi, hj, hst⟩]
    refine triple_pushRemove hsome hbc fun bc' hbc' => ⟨hb.cs, bc', rfl, ?_⟩
    rw [List.length_append]
    exact hbc'
  | @spare len i j rs hpc hi hj hst =>
    rw [hpc]
    have hremove := hb.remove_at hpc
    show Triple _ _ (if i < len ∧ j < s.tableCap ∧ s.status ⟨i, j⟩ = some .unvisited then _ else _) _
    rw [if_neg fun hall => hst hall.2.2]
    exact triple_same ⟨hb.cs, hremove⟩
  | @sweepTable len i j rs hpc hi hj =>
    rw [hpc]
    have hremove := hb.remove_at hpc
    show Triple _ _ (if i < len ∧ j < s.tableCap ∧ s.status ⟨i, j⟩ = some .unvisited then _ else _) _
    rw [if_neg fun hall => hj hall.2.1]
    exact triple_same ⟨hb.cs, hremove⟩
  | @sweepDone len i j rs hpc hi =>
    rw [hpc]
    have hremove := hb.remove_at hpc
    show Triple _ _ (if i < len ∧ j < s.tableCap ∧ s.status ⟨i, j⟩ = some .unvisited then _ else _) _
    rw [if_neg fun hall => hi hall.1]
    exact triple_same ⟨hb.cs, hremove⟩
  | @free rs v n hpc =>
    obtain ⟨bc, hsome, hbc⟩ := hb.remove_at hpc
    rw [hpc]
    rw [List.length_append] at hbc
    exact triple_popRemove hsome hbc fun bc' hbc' => ⟨hb.cs, bc', rfl, hbc'⟩
  | freeDone hpc =>
    obtain ⟨bc, hsome, hbc⟩ := hb.remove_at hpc
    rw [hpc]
    exact triple_deleteRemove hsome hbc ⟨hb.cs, rfl⟩

/-- The length of the root set after `cs_root`. -/
theorem length_csRoot {sp sp' : Space} {v : Vaddr} {id : Nat} (h : sp.csRoot v = some (id, sp')) :
    sp'.rootSet.length = if sp.freeHead.isNone then sp.rootSet.length * 2 else sp.rootSet.length := by
  obtain ⟨grown, head, rfl, -, hlen⟩ := Space.csRoot_eq_some h
  rw [List.length_set, List.length_append, hlen]
  split
  next => omega
  next => rfl

theorem length_csDeroot (sp : Space) (id : Nat) :
    (sp.csDeroot id).2.rootSet.length = sp.rootSet.length := by
  unfold Space.csDeroot
  split
  · rfl
  · rfl
  · exact List.length_set

/-- **A mutator's section** leaves the buffers of what the space then holds. -/
theorem triple_userBuffers {l : Life Tid} {run : ChnlRun} {answers : List Nat} (hmove : UserMove s a s')
    (hb : b.Shape cap s) (hfits : SizesFit ⟨s, l, run, b⟩ (.space a success answers)) :
    Triple OutOfMemory (Owned chnl base b.ptrs) (actBuffers s a success b)
      fun b' h => (b'.Shape cap s' ∧ b'.args = b.args) ∧ Owned chnl base b'.ptrs h := by
  cases hmove with
  | @malloc t v rtLen da hidle hi =>
    refine triple_onCs (fun rest => CsBuffers.triple_csMallocP hb.cs hfits)
      fun cs hcs => ⟨?_, hb.remove⟩
    have hlen : s.bookLen + (decide (v.tableIndex = s.bookLen)).toNat =
        max s.bookLen (v.tableIndex + 1) := by
      by_cases heq : v.tableIndex = s.bookLen
      · rw [decide_eq_true heq, heq, Nat.max_eq_right (Nat.le_succ _)]
        rfl
      · rw [decide_eq_false heq, Nat.max_eq_left (by omega)]
        rfl
    rw [hlen] at hcs
    exact hcs
  | root _ _ hroot =>
    have hsame := Space.csRoot_sameObjects hroot
    refine triple_onCs (fun rest => CsBuffers.triple_csRoot hb.cs hfits) fun cs hcs => ⟨?_, hb.remove⟩
    show cs.Shape cap _ _ _ _
    rw [hsame.bookLen, hsame.inProgressStack, hsame.visitStack, length_csRoot hroot]
    exact hcs
  | @deroot t id =>
    have hsame := Space.csDeroot_sameObjects s.toSpace id
    refine triple_same ⟨?_, hb.remove⟩
    show b.cs.Shape cap _ _ _ _
    rw [hsame.bookLen, hsame.inProgressStack, hsame.visitStack, length_csDeroot]
    exact hb.cs
  | @visit t v hpc =>
    show Triple _ _ (match s.user t with | .visit v => _ | _ => _) _
    rw [hpc]
    exact triple_pushRefs hb rfl rfl rfl rfl hb.remove
  | _ => exact triple_same ⟨hb.cs, hb.remove⟩

/-! ## The invariant -/

/-- The accounts, the shape of the buffers, and the workers of the arguments, which have not come to
the end of a cycle. -/
structure ResInv (p : Params) (base : List (Nat × UInt8)) (r : Res) : Prop where
  owned : Owns p.chnl base r.held.ptrs r.run
  shape : r.held.Shape p.adbTCap r.space
  args : ∀ e ∈ r.held.args, r.life.workers[e.1]? = some .collecting

variable {p : Params} {r r' : Res} {m : ResAct} {l : Life Tid} {cs : CsBuffers}

/-- The argument's worker stays in its loop while another step of a life is taken. -/
theorem lifeStep_collecting {l l' : Life Tid} {a : LifeAct Tid} {w : Nat} (hstep : lifeStep l a = some l')
    (hlook : a ≠ .look w) (hw : l.workers[w]? = some .collecting) :
    l'.workers[w]? = some .collecting := by
  have hset : ∀ {w' : Nat} {pc pc' : WorkerPc}, l.workers[w']? = some pc → pc ≠ .collecting →
      (l.workers.set w' pc')[w]? = some .collecting := by
    intro w' pc pc' hw' hne
    rw [List.getElem?_set_ne fun heq => hne ?_]
    · exact hw
    · rw [heq, hw] at hw'
      exact (Option.some.inj hw').symm
  cases lifeMove hstep with
  | leave => exact (List.getElem?_set_ne fun heq => hlook (congrArg LifeAct.look heq)).trans hw
  | publish hpc => exact hset hpc nofun
  | exit hpc => exact hset hpc nofun
  | create => exact (List.getElem?_append_left (List.getElem?_eq_some_iff.mp hw).1).trans hw
  | _ => exact hw

/-- A worker that has an argument has not looked at the status. -/
theorem moves_life {a : LifeAct Tid} {answers : List Nat}
    (h : r.moves (.life a answers) = some (s', l)) :
    s' = r.space ∧ lifeStep r.life a = some l ∧
      ∀ e ∈ r.held.args, a ≠ .look e.1 := by
  cases a with
  | look w =>
    simp only [Res.moves] at h
    split at h
    · rename_i hargs
      obtain ⟨l', hstep, heq⟩ := Option.map_eq_some_iff.mp h
      cases heq
      exact ⟨rfl, hstep, fun e he heq => hargs e he (LifeAct.look.inj heq).symm⟩
    · cases h
  | _ =>
    obtain ⟨l', hstep, heq⟩ := Option.map_eq_some_iff.mp h
    cases heq
    exact ⟨rfl, hstep, fun _ _ => nofun⟩

theorem triple_lifeBuffers {l : Life Tid} {l' : Life Tid} {a : LifeAct Tid} (hb : b.Shape cap s)
    (hstep : lifeStep l a = some l') (hargs : ∀ e ∈ b.args, l'.workers[e.1]? = some .collecting) :
    Triple OutOfMemory (Owned chnl base b.ptrs) (lifeBuffers l a b)
      fun b' h => (b'.Shape cap s ∧ ∀ e ∈ b'.args, l'.workers[e.1]? = some .collecting) ∧
        Owned chnl base b'.ptrs h := by
  cases a with
  | create c =>
    have haddr : b.cs.addr ∈ b.ptrs := List.mem_append_left _ List.mem_cons_self
    refine (triple_getChnl haddr).bind fun chnl' => Triple.of_fact ?_
    rintro rfl
    refine (triple_safeMalloc (by decide)).bind fun gcArg => ?_
    intro h hown
    refine ⟨⟨⟨hb.cs, hb.remove⟩, ?_⟩, hown.perm (List.perm_iff_count.mpr fun a => ?_)⟩
    · intro e he
      rcases List.mem_cons.mp he with rfl | he
      · cases lifeMove hstep
        exact List.getElem?_concat_length
      · exact hargs e he
    · simp only [Held.ptrs, List.map_cons, List.count_append, List.count_cons]
      omega
  | _ => exact fun h hown => ⟨⟨hb, hargs⟩, hown⟩

/-- The worker frees its argument. -/
theorem triple_takeArg {w : Nat} (hmem : ∃ e ∈ b.args, e.1 = w) (hb : b.Shape cap s)
    (hargs : ∀ e ∈ b.args, l.workers[e.1]? = some .collecting) :
    Triple OutOfMemory (Owned chnl base b.ptrs) (takeArg w b)
      fun b' h => (b'.Shape cap s ∧ ∀ e ∈ b'.args, l.workers[e.1]? = some .collecting) ∧
        Owned chnl base b'.ptrs h := by
  unfold takeArg
  cases hfind : b.args.find? (·.1 = w) with
  | none =>
    obtain ⟨e, he, heq⟩ := hmem
    exact absurd (decide_eq_true heq) (List.find?_eq_none.mp hfind e he)
  | some e =>
    have he := List.mem_of_find?_eq_some hfind
    have hfree : Triple OutOfMemory (Owned chnl base b.ptrs) (safeFree e.2) fun _ =>
        Owned chnl base (Held.ptrs { b with args := b.args.erase e }) := by
      intro h hown
      have hperm : b.ptrs.Perm (e.2 :: Held.ptrs { b with args := b.args.erase e }) := by
        have hargs := List.perm_iff_count.mp ((List.perm_cons_erase he).map Prod.snd)
        apply List.perm_iff_count.mpr
        intro a
        have hcount := hargs a
        simp only [List.map_cons, List.count_cons] at hcount
        simp only [Held.ptrs, List.count_append, List.count_cons]
        omega
      obtain ⟨u, h', heq, -, hown'⟩ := triple_safeFree.total ⟨rfl, hown.perm hperm⟩
      rw [heq]
      exact hown'
    refine hfree.bind fun _ => ?_
    intro h hown
    exact ⟨⟨⟨hb.cs, hb.remove⟩, fun e' he' => hargs e' (List.mem_of_mem_erase he')⟩, hown⟩

/-- **What a step asks for** is had or the host has no memory, and is what the threads then hold. -/
theorem triple_asks (h : ResInv p base r) (hfits : SizesFit r m) (hmoves : r.moves m = some (s', l)) :
    Triple OutOfMemory (Owned p.chnl base r.held.ptrs) (r.asks m)
      fun b h => (b.Shape p.adbTCap s' ∧ ∀ e ∈ b.args, l.workers[e.1]? = some .collecting) ∧
        Owned p.chnl base b.ptrs h := by
  cases m with
  | space a success answers =>
    obtain ⟨s'', hstep, heq⟩ := Option.map_eq_some_iff.mp hmoves
    cases heq
    have hbuffers : Triple OutOfMemory (Owned p.chnl base r.held.ptrs)
        (actBuffers r.space a success r.held) fun b' h =>
          (b'.Shape p.adbTCap s' ∧ b'.args = r.held.args) ∧ Owned p.chnl base b'.ptrs h := by
      rcases step_cases hstep with ⟨rfl, hmove⟩ | hmove
      · exact triple_gcBuffers hmove h.shape
      · exact triple_userBuffers hmove h.shape hfits
    refine hbuffers.post ?_
    rintro b' h' ⟨⟨hshape, hargs⟩, hown⟩
    exact ⟨⟨hshape, hargs ▸ h.args⟩, hown⟩
  | life a answers =>
    obtain ⟨rfl, hstep, hlook⟩ := moves_life hmoves
    exact triple_lifeBuffers h.shape hstep fun e he => lifeStep_collecting hstep (hlook e he) (h.args e he)
  | take w =>
    simp only [Res.moves] at hmoves
    split at hmoves
    · rename_i hmem
      cases hmoves
      exact triple_takeArg hmem h.shape h.args
    · cases hmoves

/-- **A step keeps the accounts.** -/
theorem ResInv.step (h : ResInv p base r) (hfits : SizesFit r m) (hstep : resStep r m = some r') :
    ResInv p base r' := by
  unfold resStep at hstep
  cases hmoves : r.moves m with
  | none =>
    rw [hmoves] at hstep
    cases hstep
  | some next =>
    rw [hmoves] at hstep
    cases hasks : r.asks m ⟨r.run, m.answers, []⟩ with
    | error e =>
      rw [hasks] at hstep
      cases hstep
    | ok res =>
      rw [hasks] at hstep
      cases hstep
      obtain ⟨⟨hshape, hargs⟩, hown⟩ := (triple_asks h hfits hmoves).ok h.owned hasks
      exact ⟨hown, hshape, hargs⟩

/-- No collection runs and every worker has ended, as `delete_collected_space` wants it. -/
def Stopped (r : Res) : Prop := r.space.gc = .idle ∧ ∀ pc ∈ r.life.workers, pc = .exited

theorem ResInv.stopped (h : ResInv p base r) (hstopped : Stopped r) :
    r.held.removeStack = none ∧ r.held.args = [] := by
  refine ⟨h.shape.remove_at hstopped.1, List.eq_nil_iff_forall_not_mem.mpr fun e he => ?_⟩
  have hpc := hstopped.2 _ (List.mem_of_getElem? (h.args e he))
  cases hpc

end Chvm.Cs
