import Mathlib.Data.List.Perm.Basic
import Chvm.Core.Mem
import Chvm.Lib.Triple

/-!
# Programs over the memory channels

A function that allocates is a program over the accounts of `Core.Mem`. It stops when the host has no
memory, and it faults when it frees, reallocates or asks for the channel of what is not allocated.

`Owns` says which pointers a component has on its channel, beside the live pointers of everybody
else. No program has to name the addresses: each function takes the pointers it was given and gives
back the pointers it leaves.
-/

set_option autoImplicit false

namespace Chvm.Core

open Chvm.Lib

/-- Why a program stops: the host has no memory, the program ends the process (`error_logf`), or it
uses a pointer that is not allocated. -/
inductive HeapStop
  | noMemory
  | errorExit
  | fault
deriving DecidableEq, Repr

/-- The accounts, the addresses the host will answer with, and the pointers given to `safe_free`. -/
structure Heap where
  run : ChnlRun
  answers : List Nat
  freed : List Nat

abbrev HeapM := StateT Heap (Except HeapStop)

/-- The host may answer with `raw`: no block is there, but for the one it is about to take back. -/
def ChnlRun.admits (s : ChnlRun) (old : Option Nat) (raw : Nat) : Bool :=
  0 < raw && raw < 2 ^ 64 && (old = some raw || (s.core.heap raw).isNone)

namespace HeapM

/-- The host's next answer. An address in use is none. -/
def answer (old : Option Nat) : HeapM Nat := fun h =>
  match h.answers with
  | [] => .error .noMemory
  | raw :: answers =>
    if h.run.admits old raw then .ok (raw, { h with answers := answers }) else .error .noMemory

/-- A call on the accounts. -/
def call (a : ChnlAct) : HeapM PUnit := fun h =>
  match chnlStep h.run a with
  | none => .error .fault
  | some run => .ok (.unit, { h with run := run })

/-- `safe_malloc`. What the host leaves in the bytes is of no account here. -/
def safeMalloc (chnl : UInt8) (size : Nat) : HeapM Nat := do
  let raw ← answer none
  call (.malloc chnl size (hostAt raw))
  return raw + 1

/-- `safe_realloc`. -/
def safeRealloc (ptr size : Nat) : HeapM Nat := do
  let raw ← answer (some (ptr - 1))
  call (.realloc ptr size (hostAt raw))
  return raw + 1

/-- `safe_free`. -/
def safeFree (ptr : Nat) : HeapM PUnit := do
  call (.free ptr)
  modify fun h => { h with freed := h.freed ++ [ptr] }

/-- `get_chnl`. -/
def getChnl (ptr : Nat) : HeapM UInt8 := fun h =>
  match h.run.core.getChnl ptr with
  | none => .error .fault
  | some chnl => .ok (chnl, h)

end HeapM

/-! ## Ownership -/

/-- A component has `ptrs` on the channel `chnl`, and the others have `base`. -/
structure Owns (chnl : UInt8) (base : List (Nat × UInt8)) (ptrs : List Nat) (s : ChnlRun) : Prop where
  inv : ChnlInv s
  bound : chnl < s.core.numMemChnls
  live : s.live.Perm (ptrs.map (·, chnl) ++ base)

/-- The assertion of a program. -/
abbrev Owned (chnl : UInt8) (base : List (Nat × UInt8)) (ptrs : List Nat) (h : Heap) : Prop :=
  Owns chnl base ptrs h.run

variable {chnl : UInt8} {base : List (Nat × UInt8)} {ptrs ptrs' : List Nat} {s : ChnlRun}
  {ptr raw size : Nat} {old : Option Nat}

theorem Owns.perm (h : Owns chnl base ptrs s) (hperm : ptrs.Perm ptrs') : Owns chnl base ptrs' s where
  inv := h.inv
  bound := h.bound
  live := h.live.trans ((hperm.map _).append_right base)

theorem Owns.mem_live (h : Owns chnl base ptrs s) (hptr : ptr ∈ ptrs) : (ptr, chnl) ∈ s.live := by
  apply h.live.mem_iff.mpr
  exact List.mem_append_left _ (List.mem_map.mpr ⟨ptr, hptr, rfl⟩)

/-- The pointers are distinct. -/
theorem Owns.nodup (h : Owns chnl base ptrs s) : ptrs.Nodup := by
  have hlive : ((ptrs.map (·, chnl) ++ base).map Prod.fst).Nodup := (h.live.map _).nodup_iff.mp h.inv.nodup
  rw [List.map_append, List.map_map] at hlive
  have hfst : ptrs.map (Prod.fst ∘ (·, chnl)) = ptrs := List.map_id ptrs
  exact hfst ▸ (List.nodup_append.mp hlive).1

/-- The counter of the channel. -/
theorem Owns.counts (h : Owns chnl base ptrs s) :
    s.core.memChnls[chnl.toNat]? = some (base.countP (·.2 = chnl) + ptrs.length) := by
  rw [h.inv.counts chnl h.bound, h.live.countP_eq, List.countP_append, List.countP_map, Nat.add_comm]
  have hall : ptrs.countP ((fun e : Nat × UInt8 => decide (e.2 = chnl)) ∘ (·, chnl)) = ptrs.length :=
    List.countP_eq_length.mpr fun _ _ => decide_eq_true rfl
  rw [hall]

/-- The block of an owned pointer. -/
theorem Owns.find (h : Owns chnl base ptrs s) (hptr : ptr ∈ ptrs) :
    s.live.find? (·.1 = ptr) = some (ptr, chnl) := by
  have hmem := h.mem_live hptr
  obtain ⟨e, hfind, he, heq⟩ := find_live ⟨_, hmem, rfl⟩
  rw [hfind, h.inv.eq_of_mem he hmem heq]

/-- The live pointers without an owned one. -/
theorem Owns.erase (h : Owns chnl base (ptr :: ptrs) s) :
    (s.live.erase (ptr, chnl)).Perm (ptrs.map (·, chnl) ++ base) := by
  have hperm := h.live.erase (ptr, chnl)
  rwa [List.map_cons, List.cons_append, List.erase_cons_head] at hperm

/-! ## The calls -/

theorem Owns.malloc (h : Owns chnl base ptrs s) (hraw : s.admits none raw = true)
    (hsize : size + 1 < 2 ^ 64) :
    ∃ s', chnlStep s (.malloc chnl size (hostAt raw)) = some s' ∧ Owns chnl base ((raw + 1) :: ptrs) s' := by
  simp only [ChnlRun.admits, Bool.and_eq_true, Bool.or_eq_true, decide_eq_true_eq, reduceCtorEq,
    false_or, Option.isNone_iff_eq_none] at hraw
  obtain ⟨⟨hpos, hlt⟩, hnone⟩ := hraw
  have hhost : HostOk (hostAt raw) fun raw => (s.core.heap raw).isSome = true :=
    hostOk_hostAt ⟨hpos, hlt⟩ (by rw [hnone]; nofun)
  obtain ⟨s', hstep, hnum, hlive⟩ : ∃ s', chnlStep s (.malloc chnl size (hostAt raw)) = some s' ∧
      s'.core.numMemChnls = s.core.numMemChnls ∧ s'.live = (raw + 1, chnl) :: s.live :=
    ⟨_, rfl, rfl, rfl⟩
  refine ⟨s', hstep, h.inv.malloc hsize ⟨h.bound, hhost⟩ hstep, hnum ▸ h.bound, ?_⟩
  rw [hlive]
  exact h.live.cons _

theorem Owns.realloc (h : Owns chnl base (ptr :: ptrs) s) (hraw : s.admits (some (ptr - 1)) raw = true)
    (hsize : size + 1 < 2 ^ 64) :
    ∃ s', chnlStep s (.realloc ptr size (hostAt raw)) = some s' ∧
      Owns chnl base ((raw + 1) :: ptrs) s' := by
  simp only [ChnlRun.admits, Bool.and_eq_true, Bool.or_eq_true, decide_eq_true_eq, Option.some.injEq,
    Option.isNone_iff_eq_none] at hraw
  obtain ⟨⟨hpos, hlt⟩, hfree⟩ := hraw
  have hhost : HostOk (hostAt raw) fun raw => raw ≠ ptr - 1 ∧ (s.core.heap raw).isSome = true := by
    refine hostOk_hostAt ⟨hpos, hlt⟩ ?_
    rintro ⟨hne, hsome⟩
    rcases hfree with heq | hnone
    · exact hne heq.symm
    · rw [hnone] at hsome
      cases hsome
  obtain ⟨s', hstep, hnum, hlive⟩ : ∃ s', chnlStep s (.realloc ptr size (hostAt raw)) = some s' ∧
      s'.core.numMemChnls = s.core.numMemChnls ∧
      s'.live = (raw + 1, chnl) :: s.live.erase (ptr, chnl) := by
    simp only [chnlStep, h.find List.mem_cons_self, CoreMem.trySafeRealloc, hostAt]
    exact ⟨_, rfl, rfl, rfl⟩
  have hmem : ∃ e ∈ s.live, e.1 = ptr := ⟨_, h.mem_live List.mem_cons_self, rfl⟩
  refine ⟨s', hstep, h.inv.realloc hsize ⟨hmem, hhost⟩ hstep, hnum ▸ h.bound, ?_⟩
  rw [hlive]
  exact h.erase.cons _

theorem Owns.free (h : Owns chnl base (ptr :: ptrs) s) :
    ∃ s', chnlStep s (.free ptr) = some s' ∧ Owns chnl base ptrs s' := by
  have hmem := h.mem_live List.mem_cons_self
  obtain ⟨s', hstep, hnum, hlive⟩ : ∃ s', chnlStep s (.free ptr) = some s' ∧
      s'.core.numMemChnls = s.core.numMemChnls ∧ s'.live = s.live.erase (ptr, chnl) := by
    simp only [chnlStep, h.find List.mem_cons_self, CoreMem.safeFree, (h.inv.blocks _ hmem).2.2.2,
      Option.map_some]
    exact ⟨_, rfl, rfl, rfl⟩
  refine ⟨s', hstep, h.inv.free ⟨_, hmem, rfl⟩ hstep, hnum ▸ h.bound, ?_⟩
  rw [hlive]
  exact h.erase

/-! ## The triples -/

/-- The one reason a program that allocates may stop for. -/
def OutOfMemory (e : HeapStop) : Prop := e = .noMemory

theorem triple_answer {P : ChnlRun → Prop} : Triple OutOfMemory (fun h => P h.run) (HeapM.answer old)
    fun raw h => h.run.admits old raw = true ∧ P h.run := by
  intro h hP
  show Ends _ _ (HeapM.answer old h)
  unfold HeapM.answer
  split
  · exact rfl
  · split
    next hadmits => exact ⟨hadmits, hP⟩
    next => exact rfl

theorem triple_call {stops : HeapStop → Prop} {P Q : ChnlRun → Prop} {a : ChnlAct}
    (hstep : ∀ s, P s → ∃ s', chnlStep s a = some s' ∧ Q s') :
    Triple stops (fun h => P h.run) (HeapM.call a) fun _ h => Q h.run := by
  intro h hP
  obtain ⟨s', heq, hQ⟩ := hstep h.run hP
  show Ends _ _ (HeapM.call a h)
  unfold HeapM.call
  rw [heq]
  exact hQ

theorem triple_safeMalloc (hsize : size + 1 < 2 ^ 64) : Triple OutOfMemory (Owned chnl base ptrs)
    (HeapM.safeMalloc chnl size) fun ptr => Owned chnl base (ptr :: ptrs) := by
  refine (triple_answer (P := Owns chnl base ptrs)).bind fun raw => ?_
  have hcall : Triple OutOfMemory (fun h => h.run.admits none raw = true ∧ Owned chnl base ptrs h)
      (HeapM.call (.malloc chnl size (hostAt raw))) fun _ => Owned chnl base ((raw + 1) :: ptrs) :=
    triple_call (P := fun s => s.admits none raw = true ∧ Owns chnl base ptrs s)
      fun s hs => hs.2.malloc hs.1 hsize
  exact hcall.bind fun _ => Triple.pure (Q := fun ptr => Owned chnl base (ptr :: ptrs)) (raw + 1)

theorem triple_safeRealloc (hsize : size + 1 < 2 ^ 64) :
    Triple OutOfMemory (Owned chnl base (ptr :: ptrs)) (HeapM.safeRealloc ptr size)
      fun ptr' => Owned chnl base (ptr' :: ptrs) := by
  refine (triple_answer (P := Owns chnl base (ptr :: ptrs))).bind fun raw => ?_
  have hcall : Triple OutOfMemory
      (fun h => h.run.admits (some (ptr - 1)) raw = true ∧ Owned chnl base (ptr :: ptrs) h)
      (HeapM.call (.realloc ptr size (hostAt raw))) fun _ => Owned chnl base ((raw + 1) :: ptrs) :=
    triple_call (P := fun s => s.admits (some (ptr - 1)) raw = true ∧ Owns chnl base (ptr :: ptrs) s)
      fun s hs => hs.2.realloc hs.1 hsize
  exact hcall.bind fun _ => Triple.pure (Q := fun ptr' => Owned chnl base (ptr' :: ptrs)) (raw + 1)

/-- A free of an owned pointer never stops; it is put down. -/
theorem triple_safeFree {freed : List Nat} : Triple (fun _ => False)
    (fun h => h.freed = freed ∧ Owned chnl base (ptr :: ptrs) h) (HeapM.safeFree ptr)
    fun _ h => h.freed = freed ++ [ptr] ∧ Owned chnl base ptrs h := by
  rintro h ⟨hfreed, hown⟩
  obtain ⟨s', hstep, hown'⟩ := hown.free
  have hcall : HeapM.call (.free ptr) h = .ok (.unit, { h with run := s' }) := by
    unfold HeapM.call
    rw [hstep]
  show Ends _ _ ((HeapM.call (.free ptr) h).bind _)
  rw [hcall]
  exact ⟨congrArg (· ++ [ptr]) hfreed, hown'⟩

/-- **Each pointer of a list is freed, once and in order.** -/
theorem triple_freeAll {freed : List Nat} (ptrs : List Nat) : Triple (fun _ => False)
    (fun h => h.freed = freed ∧ Owned chnl base (ptrs ++ ptrs') h) (ptrs.forM HeapM.safeFree)
    fun _ h => h.freed = freed ++ ptrs ∧ Owned chnl base ptrs' h := by
  induction ptrs generalizing freed with
  | nil =>
    refine (Triple.pure (Q := fun _ h => h.freed = freed ∧ Owned chnl base ptrs' h) PUnit.unit).post ?_
    rintro - h ⟨hfreed, hown⟩
    exact ⟨hfreed.trans (List.append_nil _).symm, hown⟩
  | cons ptr ptrs ih =>
    refine triple_safeFree.bind fun _ => ih.post ?_
    rintro - h ⟨hfreed, hown⟩
    rw [List.append_assoc] at hfreed
    exact ⟨hfreed, hown⟩

theorem triple_getChnl {stops : HeapStop → Prop} (hptr : ptr ∈ ptrs) :
    Triple stops (Owned chnl base ptrs) (HeapM.getChnl ptr)
      fun chnl' h => chnl' = chnl ∧ Owned chnl base ptrs h := by
  intro h hown
  have htag := (hown.inv.blocks _ (hown.mem_live hptr)).2.2.2
  show Ends _ _ (HeapM.getChnl ptr h)
  unfold HeapM.getChnl
  rw [htag]
  exact ⟨rfl, hown⟩

/-- A block on the channel of a pointer that is owned. -/
theorem triple_mallocBeside (hptr : ptr ∈ ptrs) (hsize : size + 1 < 2 ^ 64) :
    Triple OutOfMemory (Owned chnl base ptrs)
      (HeapM.getChnl ptr >>= fun chnl => HeapM.safeMalloc chnl size)
      fun ptr' => Owned chnl base (ptr' :: ptrs) := by
  refine (triple_getChnl hptr).bind fun chnl' => Triple.of_fact ?_
  rintro rfl
  exact triple_safeMalloc hsize

end Chvm.Core
