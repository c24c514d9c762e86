import Chvm.Ms.Store

/-!
# The calls taken apart

`ms_malloc_p`, `ms_free` and `ms_try_full_shift` are not one step: they let `mb_list_lck` go between two
throws, before a block is tried or shifted and before a new block is put on the list, and `ms_free` lets
the lock of its vaddr go before it frees. Here the sections of the calls of different threads come in any
order. A block is on the heap before it is on `mb_list`; `mbList` of the space is the blocks on the heap,
in the order they were made, and `list` is `mb_list`.

`mem_lck` of a block is taken and given back within one section, but by `mb_free`: `mb_free_unsafe` waits
for the lock of the vaddr with `mem_lck` taken, and so long every other call waits that needs the block.
-/

set_option autoImplicit false

namespace Chvm.Ms

open Chvm.Lib Chvm.Virt Chvm.Mb

/-! ## The sections -/

/-- Where a thread is in a call, with the call's variables. -/
inductive MsPc
  | idle
  /-- `ms_malloc_p`, with `throws` to come. -/
  | throwing (minBytes : Nat) (hold : Bool) (throws : Nat)
  | trying (minBytes : Nat) (hold : Bool) (throws : Nat) (mb : Nat)
  /-- The new block is in use and not on the list. -/
  | publishing (mb : Nat)
  /-- `ms_free`, before the header is locked, while it is, in `mb_free` and, with `mem_lck`, in
  `mb_free_unsafe`. -/
  | locking (vaddr : Vaddr)
  | reading (vaddr : Vaddr) (paddr : Nat)
  | freeing (vaddr : Vaddr) (mb : Nat)
  | freeingUnsafe (vaddr : Vaddr) (mb : Nat)
  /-- `ms_try_full_shift`, before a block is read off the list, and in `mb_try_full_shift`. -/
  | shifting (i len : Nat)
  | shiftingIn (i len : Nat) (mb : Nat)
deriving DecidableEq

structure MsThreads where
  sys : MsSys
  list : List Nat
  pc : Tid → MsPc
  /-- Who has `mem_lck` of a block, between two sections. -/
  memLck : Nat → Option Tid

/-- A section is named with the values that its thread goes in with. -/
inductive MsSection
  | callMalloc (t : Tid) (minBytes : Nat) (hold : Bool)
  | throwDart (t : Tid) (minBytes : Nat) (hold : Bool) (throws : Nat)
  | mallocIn (t : Tid) (minBytes : Nat) (hold : Bool) (throws : Nat) (mb : Nat)
  /-- `addr` and `mem` are the buffer of the new block. -/
  | create (t : Tid) (minBytes : Nat) (hold : Bool) (addr : Nat) (mem : Mem)
  | publish (t : Tid) (mb : Nat)
  | callFree (t : Tid) (vaddr : Vaddr)
  | lockHeader (t : Tid) (vaddr : Vaddr)
  | readHeader (t : Tid) (vaddr : Vaddr) (paddr : Nat)
  | lockMem (t : Tid) (vaddr : Vaddr) (mb : Nat)
  | freeIn (t : Tid) (vaddr : Vaddr) (mb : Nat)
  | callFullShift (t : Tid)
  | nextBlock (t : Tid) (i len : Nat)
  | tryShift (t : Tid) (i len : Nat) (mb : Nat)
  /-- A lock operation or a write. -/
  | user (t : Tid) (a : MsAct)

/-- A new space: its one block is on the list. -/
def MsThreads.new (ms : MemSpace) : MsThreads where
  sys := .new ms
  list := ms.mbList.map (·.addr)
  pc := fun _ => .idle
  memLck := fun _ => none

def MsThreads.goto (s : MsThreads) (t : Tid) (pc : MsPc) : MsThreads :=
  { s with pc := Function.update s.pc t pc }

def paddedBytes (minBytes : Nat) : Nat := (minBytes + mallocHeaderSize) % 2 ^ 64

/-- The malloc in the block that a dart hit. -/
def msMallocAt (ms : MemSpace) (t : Tid) (mb paddedBytes : Nat) (hold : Bool) :
    Option (MallocRes × MemSpace) :=
  let i := ms.mbList.findIdx (·.addr = mb)
  match ms.mbList[i]? with
  | none => none
  | some b => (msMallocIn ms.adb t b paddedBytes hold).map fun (res, b, adb) =>
      (res, { ms with adb := adb, mbList := ms.mbList.set i b })

/-- The malloc in a new block, which the list has no room made for yet. -/
def msCreate (ms : MemSpace) (t : Tid) (paddedBytes : Nat) (hold : Bool) (addr : Nat) (mem : Mem) :
    Option (MallocRes × MemSpace) :=
  (msGrow ms t paddedBytes hold addr mem).map fun (res, ms') => (res, { ms' with mbListCap := ms.mbListCap })

/-- `mb_free_unsafe` through a pointer. -/
def msFreeIn (ms : MemSpace) (t : Tid) (v : Vaddr) (mb : Nat) : Option MemSpace :=
  let i := ms.mbList.findIdx (·.addr = mb)
  match ms.mbList[i]? with
  | none => none
  | some b => (mbFree b.mb ms.adb t v).map fun (mb, adb) =>
      { ms with adb := adb, mbList := ms.mbList.set i { b with mb := mb } }

/-- `mb_try_shift` through a pointer. -/
def msTryShift (ms : MemSpace) (t : Tid) (mb : Nat) : Option (MbShiftRes × MemSpace) :=
  let i := ms.mbList.findIdx (·.addr = mb)
  match ms.mbList[i]? with
  | none => none
  | some b => (mbTryShift b.mb ms.adb t).map fun (res, mb, adb) =>
      (res, { ms with adb := adb, mbList := ms.mbList.set i { b with mb := mb } })

/-- A step of a thread that is in no call. -/
def MsAct.byUser (t : Tid) : MsAct → Bool
  | .getRead u _ | .getWrite u _ | .unlock u _ | .write u .. => u = t
  | _ => false

/-- One section. -/
def sectionStep (s : MsThreads) : MsSection → Option MsThreads
  | .callMalloc t n hold =>
    if s.pc t = .idle then
      -- the empty request gets its answer here
      if n = 0 then some s
      else some (s.goto t (.throwing n hold
        (if s.list.length / searchDiv = 0 then 1 else s.list.length / searchDiv)))
    else none
  | .throwDart t n hold throws =>
    if s.pc t = .throwing n hold (throws + 1) then
      let (rnd, ms) := msNextRnd s.sys.ms
      (s.list[rnd % s.list.length]?).map fun mb =>
        { s with sys := { s.sys with ms := ms } }.goto t (.trying n hold throws mb)
    else none
  | .mallocIn t n hold throws mb =>
    if s.pc t = .trying n hold throws mb ∧ s.memLck mb = none then
      (msMallocAt s.sys.ms t mb (paddedBytes n) hold).map fun (res, ms) =>
        if res.vaddr = nullVaddr then { s with sys := { s.sys with ms := ms } }.goto t
          (.throwing n hold throws)
        else { s with sys := s.sys.malloced ms t n res }.goto t .idle
    else none
  | .create t n hold addr mem =>
    if s.pc t = .throwing n hold 0 then
      -- `mem_lck` of the new block is free, as no other thread has the pointer
      (msCreate s.sys.ms t (paddedBytes n) hold addr mem).map fun (res, ms) =>
        { s with sys := s.sys.malloced ms t n res }.goto t (.publishing addr)
    else none
  | .publish t mb =>
    if s.pc t = .publishing mb then
      let cap := if s.list.length = s.sys.ms.mbListCap then s.sys.ms.mbListCap * 2 else s.sys.ms.mbListCap
      some ({ s with
        sys := { s.sys with ms := { s.sys.ms with mbListCap := cap } }
        list := s.list ++ [mb] }.goto t .idle)
    else none
  | .callFree t v => if s.pc t = .idle then some (s.goto t (.locking v)) else none
  | .lockHeader t v =>
    if s.pc t = .locking v then
      (s.sys.ms.adb.adbGetRead t v).map fun (paddr, adb) =>
        { s with sys := { s.sys with
          ms := { s.sys.ms with adb := adb }, grants := ⟨t, v, paddr⟩ :: s.sys.grants } }.goto t
            (.reading v paddr)
    else none
  | .readHeader t v paddr =>
    if s.pc t = .reading v paddr then
      match msHeader s.sys.ms paddr, s.sys.ms.adb.adbUnlock t v with
      | some mb, some adb => some ({ s with sys := { s.sys with
          ms := { s.sys.ms with adb := adb }
          grants := s.sys.grants.eraseP (isGrant t v) } }.goto t (.freeing v mb))
      | _, _ => none
    else none
  | .lockMem t v mb =>
    if s.pc t = .freeing v mb ∧ s.memLck mb = none then
      some ({ s with memLck := Function.update s.memLck mb (some t) }.goto t (.freeingUnsafe v mb))
    else none
  | .freeIn t v mb =>
    if s.pc t = .freeingUnsafe v mb then
      (msFreeIn s.sys.ms t v mb).map fun ms => { s with
        sys := { s.sys with ms := ms, live := s.sys.live.filter (· ≠ v), frees := s.sys.frees + 1 }
        memLck := Function.update s.memLck mb none }.goto t .idle
    else none
  | .callFullShift t => if s.pc t = .idle then some (s.goto t (.shifting 0 s.list.length)) else none
  | .nextBlock t i len =>
    if s.pc t = .shifting i len then
      if i < len then (s.list[i]?).map fun mb => s.goto t (.shiftingIn i len mb) else some (s.goto t .idle)
    else none
  | .tryShift t i len mb =>
    if s.pc t = .shiftingIn i len mb ∧ s.memLck mb = none then
      (msTryShift s.sys.ms t mb).map fun (res, ms) =>
        { s with sys := { s.sys with ms := ms } }.goto t
          (if res = MbShiftRes.success then .shiftingIn i len mb else .shifting (i + 1) len)
    else none
  | .user t a =>
    if s.pc t = .idle ∧ a.byUser t = true then (msStep s.sys a).map fun sys => { s with sys := sys } else none

/-- The vaddr that a thread is freeing. -/
def MsPc.frees : MsPc → Option Vaddr
  | .locking v | .reading v _ | .freeing v _ | .freeingUnsafe v _ => some v
  | _ => none

/-- The rule of the calls, as for whole calls; a vaddr is freed by one call. -/
def sectionRule (s : MsThreads) : MsSection → Prop
  | .callMalloc _ n _ => n + mallocHeaderSize + 33 < 2 ^ 64 ∧ FitsBlock (n + mallocHeaderSize)
  | .callFree _ v => v ∈ s.sys.live ∧ ∀ u, (s.pc u).frees ≠ some v
  | .user _ a => usesLive s.sys a
  | _ => True

/-! ## The list of the blocks -/

/-- The pointer to a block that is not on the list yet. -/
def MsPc.unlisted : MsPc → Option Nat
  | .publishing mb => some mb
  | _ => none

/-- The block whose `mem_lck` a thread has. -/
def MsPc.memLck : MsPc → Option Nat
  | .freeingUnsafe _ mb => some mb
  | _ => none

/-- A place without a block of its own and without `mem_lck`. -/
def MsPc.Plain (p : MsPc) : Prop := p.unlisted = none ∧ p.memLck = none

/-- Every block on the heap is on the list, once, or one thread is about to put it there. -/
structure Listed (blocks list : List Nat) (pc : Tid → MsPc) : Prop where
  nonempty : list ≠ []
  nodup : list.Nodup
  mem : ∀ mb ∈ list, mb ∈ blocks
  unlisted : ∀ t mb, (pc t).unlisted = some mb → mb ∈ blocks ∧ mb ∉ list
  once : ∀ t u mb, (pc t).unlisted = some mb → (pc u).unlisted = some mb → t = u
  covered : ∀ mb ∈ blocks, mb ∈ list ∨ ∃ t, (pc t).unlisted = some mb

section
variable {blocks list : List Nat} {pc : Tid → MsPc} {p : MsPc} {t : Tid} {mb : Nat}

/-- A thread goes on without a new block. -/
theorem Listed.goto (h : Listed blocks list pc) (hold : (pc t).unlisted = none) (hnew : p.unlisted = none) :
    Listed blocks list (Function.update pc t p) := by
  have hunlisted : ∀ u, (Function.update pc t p u).unlisted = (pc u).unlisted := by
    intro u
    by_cases hu : u = t
    · rw [hu, Function.update_self, hnew, hold]
    · rw [Function.update_of_ne hu]
  refine ⟨h.nonempty, h.nodup, h.mem, fun u a hu => ?_, fun u w a hu hw => ?_, fun a ha => ?_⟩
  · rw [hunlisted] at hu
    exact h.unlisted u a hu
  · rw [hunlisted] at hu hw
    exact h.once u w a hu hw
  · simp only [hunlisted]
    exact h.covered a ha

/-- A new block. -/
theorem Listed.create (h : Listed blocks list pc) (hold : (pc t).unlisted = none) (hfresh : mb ∉ blocks) :
    Listed (blocks ++ [mb]) list (Function.update pc t (.publishing mb)) := by
  have hother : ∀ u a, u ≠ t → (Function.update pc t (.publishing mb) u).unlisted = some a →
      (pc u).unlisted = some a ∧ a ≠ mb := by
    intro u a hu hua
    rw [Function.update_of_ne hu] at hua
    exact ⟨hua, fun heq => hfresh (heq ▸ (h.unlisted u a hua).1)⟩
  have hself : ∀ a, (Function.update pc t (.publishing mb) t).unlisted = some a → a = mb := by
    intro a ha
    rw [Function.update_self] at ha
    exact (Option.some.inj ha).symm
  refine ⟨h.nonempty, h.nodup, fun a ha => List.mem_append_left _ (h.mem a ha), fun u a hu => ?_,
    fun u w a hu hw => ?_, fun a ha => ?_⟩
  · by_cases heq : u = t
    · rw [hself a (heq ▸ hu)]
      exact ⟨List.mem_append_right _ (List.mem_singleton_self _), fun hmem => hfresh (h.mem mb hmem)⟩
    · obtain ⟨hmem, hnot⟩ := h.unlisted u a (hother u a heq hu).1
      exact ⟨List.mem_append_left _ hmem, hnot⟩
  · by_cases hut : u = t
    · by_cases hwt : w = t
      · rw [hut, hwt]
      · exact absurd (hself a (hut ▸ hu)) (hother w a hwt hw).2
    · by_cases hwt : w = t
      · exact absurd (hself a (hwt ▸ hw)) (hother u a hut hu).2
      · exact h.once u w a (hother u a hut hu).1 (hother w a hwt hw).1
  · rcases List.mem_append.mp ha with ha | ha
    · rcases h.covered a ha with hlist | ⟨u, hu⟩
      · exact .inl hlist
      · refine .inr ⟨u, ?_⟩
        rw [Function.update_of_ne]
        · exact hu
        · rintro rfl
          rw [hold] at hu
          cases hu
    · refine .inr ⟨t, ?_⟩
      rw [Function.update_self, List.mem_singleton.mp ha]
      rfl

/-- The new block is put on the list. -/
theorem Listed.publish (h : Listed blocks list pc) (hpc : (pc t).unlisted = some mb) :
    Listed blocks (list ++ [mb]) (Function.update pc t .idle) := by
  obtain ⟨hmem, hnot⟩ := h.unlisted t mb hpc
  have hother : ∀ u a, (Function.update pc t .idle u).unlisted = some a → u ≠ t ∧ (pc u).unlisted =
    some a := by
    intro u a hu
    by_cases heq : u = t
    · rw [heq, Function.update_self] at hu
      cases hu
    · rw [Function.update_of_ne heq] at hu
      exact ⟨heq, hu⟩
  refine ⟨List.append_ne_nil_of_left_ne_nil h.nonempty _, ?_, fun a ha => ?_, fun u a hu => ?_,
    fun u w a hu hw => ?_, fun a ha => ?_⟩
  · rw [List.nodup_append]
    refine ⟨h.nodup, List.nodup_singleton _, fun a ha b hb heq => hnot ?_⟩
    rwa [← List.mem_singleton.mp hb, ← heq]
  · rcases List.mem_append.mp ha with ha | ha
    · exact h.mem a ha
    · rw [List.mem_singleton.mp ha]
      exact hmem
  · obtain ⟨hne, hu⟩ := hother u a hu
    obtain ⟨hblock, hlist⟩ := h.unlisted u a hu
    refine ⟨hblock, ?_⟩
    rw [List.mem_append, List.mem_singleton]
    rintro (ha | rfl)
    · exact hlist ha
    · exact hne (h.once u t a hu hpc)
  · exact h.once u w a (hother u a hu).2 (hother w a hw).2
  · rcases h.covered a ha with hlist | ⟨u, hu⟩
    · exact .inl (List.mem_append_left _ hlist)
    · by_cases heq : u = t
      · rw [heq, hpc] at hu
        cases hu
        exact .inl (List.mem_append_right _ (List.mem_singleton_self _))
      · refine .inr ⟨u, ?_⟩
        rw [Function.update_of_ne heq]
        exact hu

/-- Once no thread has a block of its own, the list is the blocks on the heap. -/
theorem Listed.perm (h : Listed blocks list pc) (hblocks : blocks.Nodup)
    (hnone : ∀ t, (pc t).unlisted = none) :
    list.Perm blocks := by
  rw [List.perm_ext_iff_of_nodup h.nodup hblocks]
  refine fun a => ⟨h.mem a, fun ha => (h.covered a ha).resolve_right ?_⟩
  rintro ⟨t, ht⟩
  rw [hnone] at ht
  cases ht

end

/-! ## `mem_lck` -/

/-- `mem_lck` of a block is with the thread that is in `mb_free_unsafe` of it. -/
def MemLocked (memLck : Nat → Option Tid) (pc : Tid → MsPc) : Prop :=
  ∀ mb t, memLck mb = some t ↔ (pc t).memLck = some mb

section
variable {memLck : Nat → Option Tid} {pc : Tid → MsPc} {p : MsPc} {t : Tid} {mb : Nat} {v : Vaddr}

theorem MemLocked.goto (h : MemLocked memLck pc) (hsame : p.memLck = (pc t).memLck) :
    MemLocked memLck (Function.update pc t p) := by
  intro a u
  by_cases hu : u = t
  · rw [hu, Function.update_self, hsame]
    exact h a t
  · rw [Function.update_of_ne hu]
    exact h a u

/-- A thread takes `mem_lck`. -/
theorem MemLocked.lock (h : MemLocked memLck pc) (hnone : memLck mb = none) (hpc : (pc t).memLck = none) :
    MemLocked (Function.update memLck mb (some t)) (Function.update pc t (.freeingUnsafe v mb)) := by
  intro a u
  by_cases hu : u = t
  · subst hu
    rw [Function.update_self]
    by_cases ha : a = mb
    · rw [ha, Function.update_self]
      exact iff_of_true rfl rfl
    · rw [Function.update_of_ne ha, h a u, hpc]
      exact iff_of_false nofun fun heq => ha (Option.some.inj heq).symm
  · rw [Function.update_of_ne hu, ← h a u]
    by_cases ha : a = mb
    · rw [ha, Function.update_self, hnone]
      exact iff_of_false (fun heq => hu (Option.some.inj heq).symm) nofun
    · rw [Function.update_of_ne ha]

/-- A thread gives it back. -/
theorem MemLocked.unlock (h : MemLocked memLck pc) (hpc : (pc t).memLck = some mb) (hnew : p.memLck = none) :
    MemLocked (Function.update memLck mb none) (Function.update pc t p) := by
  have hheld := (h mb t).mpr hpc
  intro a u
  by_cases hu : u = t
  · subst hu
    rw [Function.update_self, hnew]
    by_cases ha : a = mb
    · rw [ha, Function.update_self]
      exact iff_of_false nofun nofun
    · rw [Function.update_of_ne ha, h a u, hpc]
      exact iff_of_false (fun heq => ha (Option.some.inj heq).symm) nofun
  · rw [Function.update_of_ne hu, ← h a u]
    by_cases ha : a = mb
    · rw [ha, Function.update_self, hheld]
      exact iff_of_false nofun fun heq => hu (Option.some.inj heq).symm
    · rw [Function.update_of_ne ha]

end

/-! ## What a thread relies on between its sections -/

/-- The pointers of the blocks on the heap. -/
def MsSys.blocks (s : MsSys) : List Nat := s.ms.mbList.map (·.addr)

/-- What holds of a thread at a place in a call, whatever the others do. -/
def MsPc.Ok (s : MsSys) (list : List Nat) (owner : Vaddr → Nat) (t : Tid) : MsPc → Prop
  | .idle | .publishing _ => True
  | .throwing n .. => 0 < n ∧ n + mallocHeaderSize + 33 < 2 ^ 64 ∧ FitsBlock (n + mallocHeaderSize)
  | .trying n _ _ mb =>
    (0 < n ∧ n + mallocHeaderSize + 33 < 2 ^ 64 ∧ FitsBlock (n + mallocHeaderSize)) ∧ mb ∈ s.blocks
  | .locking v => v ∈ s.live
  | .reading v paddr => v ∈ s.live ∧ ⟨t, v, paddr⟩ ∈ s.grants
  | .freeing v mb | .freeingUnsafe v mb => v ∈ s.live ∧ owner v = mb
  | .shifting _ len => len ≤ list.length
  | .shiftingIn _ len mb => len ≤ list.length ∧ mb ∈ s.blocks

structure MsThreads.Inv (s : MsThreads) (owner : Vaddr → Nat) (content : Vaddr → Nat → Option UInt8) :
    Prop where
  space : MsInv s.sys owner content
  listed : Listed s.sys.blocks s.list s.pc
  locked : MemLocked s.memLck s.pc
  ok : ∀ t, (s.pc t).Ok s.sys s.list owner t
  frees : ∀ t u v, (s.pc t).frees = some v → (s.pc u).frees = some v → t = u

/-- What a section of a thread leaves to the others. -/
structure Aside (s : MsThreads) (t : Tid) (owner : Vaddr → Nat) (sys' : MsSys) (owner' : Vaddr → Nat) :
    Prop where
  blocks : ∀ mb ∈ s.sys.blocks, mb ∈ sys'.blocks
  live : ∀ v ∈ s.sys.live, (s.pc t).frees ≠ some v → v ∈ sys'.live
  owner : ∀ v ∈ s.sys.live, v ∈ sys'.live → owner' v = owner v
  grants : ∀ g ∈ s.sys.grants, g.tid ≠ t → g ∈ sys'.grants

variable {s : MsThreads} {sys' : MsSys} {list' : List Nat} {memLck' : Nat → Option Tid}
  {owner owner' : Vaddr → Nat}
  {content content' : Vaddr → Nat → Option UInt8} {p : MsPc} {t u : Tid} {v : Vaddr}

theorem Aside.refl : Aside s t owner s.sys owner :=
  ⟨fun _ h => h, fun _ h _ => h, fun _ _ _ => rfl, fun _ h _ => h⟩

theorem live_of_frees (h : p.Ok s.sys s.list owner t) (hv : p.frees = some v) : v ∈ s.sys.live := by
  cases p with
  | locking =>
    cases hv
    exact h
  | reading | freeing | freeingUnsafe =>
    cases hv
    exact h.1
  | _ => cases hv

/-- **Interference.** What a thread relies on is not broken by the sections of the others. -/
theorem MsPc.Ok.aside (h : p.Ok s.sys s.list owner u) (haside : Aside s t owner sys' owner') (hne : u ≠ t)
    (hlen : s.list.length ≤ list'.length) (hfrees : ∀ v, p.frees = some v → (s.pc t).frees ≠ some v) :
    p.Ok sys' list' owner' u := by
  have hlive : ∀ v, p.frees = some v → v ∈ sys'.live := fun v hv =>
    haside.live v (live_of_frees h hv) (hfrees v hv)
  cases p with
  | idle | publishing => trivial
  | throwing => exact h
  | trying => exact ⟨h.1, haside.blocks _ h.2⟩
  | locking v => exact hlive v rfl
  | reading v paddr => exact ⟨hlive v rfl, haside.grants _ h.2 hne⟩
  | freeing v mb | freeingUnsafe v mb =>
    exact ⟨hlive v rfl, (haside.owner v h.1 (hlive v rfl)).trans h.2⟩
  | shifting => exact Nat.le_trans h hlen
  | shiftingIn => exact ⟨Nat.le_trans h.1 hlen, haside.blocks _ h.2⟩

/-- What a section has to show. -/
theorem MsThreads.Inv.next (h : s.Inv owner content) (hspace : MsInv sys' owner' content')
    (haside : Aside s t owner sys' owner') (hlen : s.list.length ≤ list'.length)
    (hlisted : Listed sys'.blocks list' (Function.update s.pc t p))
    (hlocked : MemLocked memLck' (Function.update s.pc t p)) (hok : p.Ok sys' list' owner' t)
    (hfrees : ∀ v, p.frees = some v → (s.pc t).frees = some v ∨ ∀ u, (s.pc u).frees ≠ some v) :
    MsThreads.Inv ⟨sys', list', Function.update s.pc t p, memLck'⟩ owner' content' := by
  -- a vaddr that the thread frees is freed by no other
  have hother : ∀ u v, u ≠ t → p.frees = some v → (s.pc u).frees ≠ some v := by
    intro u v hu hp hv
    rcases hfrees v hp with ht | hnone
    · exact hu (h.frees u t v hv ht)
    · exact hnone u hv
  refine ⟨hspace, hlisted, hlocked, fun u => ?_, fun u w v hu hw => ?_⟩
  · show (Function.update s.pc t p u).Ok sys' list' owner' u
    by_cases heq : u = t
    · rw [heq, Function.update_self]
      exact hok
    · rw [Function.update_of_ne heq]
      exact (h.ok u).aside haside heq hlen fun v hu ht => heq (h.frees u t v hu ht)
  · simp only [Function.update_apply] at hu hw
    split at hu
    next hut =>
      split at hw
      next hwt => rw [hut, hwt]
      next hwt => exact absurd hw (hother w v hwt hu)
    next hut =>
      split at hw
      next => exact absurd hu (hother u v hut hw)
      next => exact h.frees u w v hu hw

/-! ## The sections on the space -/

section
variable {s s' : MsSys} {ms' : MemSpace} {owner owner' : Vaddr → Nat}
  {content content' : Vaddr → Nat → Option UInt8} {t u : Tid} {v : Vaddr} {mb n i : Nat} {b b' : SpaceBlock}
  {hold : Bool} {res : MallocRes} {adb' : AddrBook}

theorem MsInv.owner_lt (h : MsInv s owner content) (hv : v ∈ s.live) : owner v < 2 ^ 64 := by
  obtain ⟨b, hb, howner⟩ := h.owned v hv
  have hbuffer := (h.placed.buffer b hb).2.1
  omega

/-- The content of a vaddr says which block it is in. -/
theorem MsInv.owner_eq (h : MsInv s owner content) (h' : MsInv s' owner' content') (hv : v ∈ s.live)
    (hv' : v ∈ s'.live) (hcontent : content' v = content v) : owner' v = owner v := by
  let mem : Mem := ⟨fun k => (content v k).getD 0⟩
  have hold : mem.load64 0 = owner v := load64_of_bytes (h.owner_lt hv) fun k hk => by
    show (content v (0 + k)).getD 0 = _
    rw [Nat.zero_add, h.header v hv k hk]
    rfl
  have hnew : mem.load64 0 = owner' v := load64_of_bytes (h'.owner_lt hv') fun k hk => by
    show (content v (0 + k)).getD 0 = _
    rw [Nat.zero_add, ← hcontent, h'.header v hv' k hk]
    rfl
  rw [← hold, ← hnew]

theorem MsInv.nodup_blocks (h : MsInv s owner content) : s.blocks.Nodup := by
  rw [MsSys.blocks, List.nodup_iff_getElem?_ne_getElem?]
  intro i j hij hj heq
  rw [List.length_map] at hj
  rw [List.getElem?_map, List.getElem?_map, List.getElem?_eq_getElem hj,
    List.getElem?_eq_getElem (Nat.lt_trans hij hj), Option.map_some, Option.map_some,
      Option.some.injEq] at heq
  have hsame := h.placed.index_eq_of_addr (List.getElem?_eq_getElem (Nat.lt_trans hij hj))
    (List.getElem?_eq_getElem hj) heq
  omega

/-- The block behind a pointer. -/
theorem MsInv.block_at (h : MsInv s owner content) (hmb : mb ∈ s.blocks) :
    ∃ i b, s.ms.mbList[i]? = some b ∧ b.addr = mb ∧ s.ms.mbList.findIdx (·.addr = mb) = i := by
  obtain ⟨b, hb, rfl⟩ := List.mem_map.mp hmb
  obtain ⟨i, hi⟩ := List.mem_iff_getElem?.mp hb
  exact ⟨i, b, hi, rfl, h.placed.findIdx_addr hi⟩

/-- A block that is changed keeps its pointer. -/
theorem map_addr_set {bs : List SpaceBlock} (hb : bs[i]? = some b) (haddr : b'.addr = b.addr) :
    (bs.set i b').map (·.addr) = bs.map (·.addr) := by
  obtain ⟨hi, rfl⟩ := List.getElem?_eq_some_iff.mp hb
  have hself := List.set_getElem_self (show i < (bs.map (·.addr)).length by rwa [List.length_map])
  rw [List.getElem_map] at hself
  rw [List.map_set, haddr, hself]

/-- **The malloc of a throw.** -/
theorem MsInv.msMallocAt (h : MsInv s owner content) (hmb : mb ∈ s.blocks)
    (hn : n + mallocHeaderSize + 33 < 2 ^ 64)
    (hres : msMallocAt s.ms t mb (n + mallocHeaderSize) hold = some (res, ms')) :
    ms'.mbList.map (·.addr) = s.blocks ∧
      ((res.vaddr = nullVaddr ∧ ms' = s.ms) ∨ Malloced s content ms' t n hold res) := by
  obtain ⟨i, b, hb, rfl, hi⟩ := h.block_at hmb
  unfold Ms.msMallocAt at hres
  simp only [hi, hb] at hres
  obtain ⟨⟨res', b', adb'⟩, hin, heq⟩ := Option.map_eq_some_iff.mp hres
  cases heq
  obtain ⟨ps, l, hinv⟩ := h.parts b (List.mem_of_getElem? hb)
  rcases msMallocIn_cases hinv rfl hn (Nat.le_add_left _ _) hin with ⟨rfl, rfl, rfl⟩ | hmalloced
  · have hself : s.ms.mbList.set i b' = s.ms.mbList := set_self hb
    exact ⟨congrArg _ hself, .inl ⟨rfl, congrArg (fun bs => { s.ms with mbList := bs }) hself⟩⟩
  · exact ⟨map_addr_set hb hmalloced.same.1, .inr (h.mallocAt _ hb rfl rfl hmalloced)⟩

/-- A change of the list's capacity. -/
theorem MsInv.recap (h : MsInv s owner content) (cap : Nat) :
    MsInv { s with ms := { s.ms with mbListCap := cap } } owner content :=
  ⟨h.fits, h.nonempty, h.placed, h.quiet, h.parts, h.owned, h.grants, h.entries, h.nodup, h.count,
    h.header, h.body⟩

theorem Malloced.recap (h : Malloced s content ms' t n hold res) (cap : Nat) :
    Malloced s content { ms' with mbListCap := cap } t n hold res := by
  obtain ⟨owner', content', hinv, hkept⟩ := h.kept
  have hinv' := hinv.recap cap
  exact ⟨h.ne_null, h.entry, ⟨owner', content', hinv'⟩, ⟨owner', content', hinv', hkept⟩, h.fresh, h.others,
    h.lck, h.grown⟩

theorem msInterpretMallocRes_addr {adb : AddrBook} {res' : MallocRes}
    (h : msInterpretMallocRes adb t b res hold = some (res', b', adb')) : b'.addr = b.addr := by
  unfold msInterpretMallocRes at h
  split at h
  · cases h
  · split at h
    · cases h
      rfl
    · obtain ⟨adb₁, -, heq⟩ := Option.map_eq_some_iff.mp h
      cases heq
      rfl

/-- **The malloc in a new block.** -/
theorem MsInv.msCreate (h : MsInv s owner content) (hn : n + mallocHeaderSize + 33 < 2 ^ 64)
    (hfits : FitsBlock (n + mallocHeaderSize)) {addr : Nat} {mem : Mem}
    (hres : msCreate s.ms t (n + mallocHeaderSize) hold addr mem = some (res, ms')) :
    ms'.mbList.map (·.addr) = s.blocks ++ [addr] ∧ Malloced s content ms' t n hold res := by
  obtain ⟨⟨res', ms₁⟩, hgrow, heq⟩ := Option.map_eq_some_iff.mp hres
  cases heq
  refine ⟨?_, (h.grow hn hfits hgrow).recap _⟩
  unfold msGrow at hgrow
  generalize (if n + mallocHeaderSize > s.ms.mbMinBytes then n + mallocHeaderSize
    else s.ms.mbMinBytes) = reqBytes at hgrow
  simp only at hgrow
  split at hgrow
  · split at hgrow
    · cases hgrow
    · split at hgrow
      · cases hgrow
      next hinterpret =>
        cases hgrow
        have haddr := msInterpretMallocRes_addr hinterpret
        simp only [List.map_append, List.map_cons, List.map_nil, haddr]
        rfl
  · cases hgrow

/-- The header of a live vaddr is the pointer to its block. -/
theorem MsInv.msHeader_eq (h : MsInv s owner content) (hv : v ∈ s.live) {c : AddrTableCell}
    (hc : s.ms.adb.entry v = some c) : msHeader s.ms c.paddr = some (owner v) := by
  obtain ⟨i, b, ps, l, p, d, hb, howner, hinv, hp, hkind, hd, hpaddr, -⟩ := h.piece hv
  rw [hc] at hd
  cases hd
  obtain ⟨hcontains, hload⟩ := h.header_eq (List.mem_of_getElem? hb) howner hv hinv hp hkind
  unfold msHeader
  rw [hpaddr, h.placed.find (List.mem_of_getElem? hb) hcontains, Option.map_some, hload, howner]

/-- The look at the header that comes first in `ms_free` leaves no trace. -/
theorem MsInv.msFree_eq_freeIn (h : MsInv s owner content) (hv : v ∈ s.live) {c : AddrTableCell}
    (hc : s.ms.adb.entry v = some c) (hlck : c.lck.isFree = true) (t : Tid) :
    msFree s.ms t v = msFreeIn s.ms t v (owner v) := by
  obtain ⟨adb₁, adb₂, hget, hunlock⟩ := read_unlock_isSome h.quiet hc hlck t
  have hsame := read_unlock_eq hget hunlock
  subst hsame
  unfold msFree
  rw [hget]
  simp only [h.msHeader_eq hv hc, hunlock]
  rfl

/-- The pointer that `ms_free` read names the block to free in still. -/
theorem MsInv.msFreeIn (h : MsInv s owner content) (hv : v ∈ s.live) (howner : owner v = mb)
    (hfree : msFreeIn s.ms t v mb = some ms') : msFree s.ms t v = some ms' := by
  have hin := hfree
  unfold Ms.msFreeIn at hin
  simp only at hin
  split at hin
  · cases hin
  next b hb =>
    obtain ⟨⟨mb', adb'⟩, hmb, -⟩ := Option.map_eq_some_iff.mp hin
    obtain ⟨⟨c, hc, hlck⟩, -⟩ := mbFree_book h.quiet hmb
    rw [h.msFree_eq_freeIn hv hc hlck, howner]
    exact hfree

/-- **One shift of one block.** -/
theorem MsInv.msTryShift (h : MsInv s owner content) (hmb : mb ∈ s.blocks) {res : MbShiftRes}
    (hshift : msTryShift s.ms t mb = some (res, ms')) :
    MsInv { s with ms := ms' } owner content ∧ ms'.mbList.map (·.addr) = s.blocks ∧
      MsSys.store { s with ms := ms' } = s.store := by
  obtain ⟨i, b, hb, rfl, hi⟩ := h.block_at hmb
  unfold Ms.msTryShift at hshift
  simp only [hi, hb] at hshift
  obtain ⟨⟨res', mb', adb'⟩, hone, heq⟩ := Option.map_eq_some_iff.mp hshift
  cases heq
  obtain ⟨ps, l, hinv⟩ := h.parts b (List.mem_of_getElem? hb)
  have hin := mbTryShift_in hinv hone
  have h' := h.shifted hb hin
  exact ⟨h', map_addr_set hb rfl, funext fun w => h.store_same h' (hin.locks w) rfl fun _ => rfl⟩

/-- A step that makes no vaddr leaves the vaddrs in their blocks. -/
theorem MsInv.step (h : MsInv s owner content) {a : MsAct} (hlive : usesLive s a)
    (hnot : ∀ t n hold addr mem, a ≠ .malloc t n hold addr mem) (hstep : msStep s a = some s') :
    ∃ content', MsInv s' owner content' := by
  cases a with
  | malloc t n hold addr mem => exact absurd rfl (hnot t n hold addr mem)
  | free t v =>
    obtain ⟨ms', hfree, rfl⟩ := Option.map_eq_some_iff.mp hstep
    exact ⟨content, h.free hlive hfree⟩
  | tryFullShift t fuel =>
    obtain ⟨ms', hshift, rfl⟩ := Option.map_eq_some_iff.mp hstep
    exact ⟨content, h.fullShift hshift⟩
  | getRead t v =>
    obtain ⟨⟨paddr, adb'⟩, hget, rfl⟩ := Option.map_eq_some_iff.mp hstep
    obtain ⟨c, hc, -, rfl, hassigned⟩ := AddrBook.adbGetRead_eq_some h.quiet hget
    exact ⟨content, h.get hlive hc hassigned fun u => RwLock.heldBy_acqRead ..⟩
  | getWrite t v =>
    obtain ⟨⟨paddr, adb'⟩, hget, rfl⟩ := Option.map_eq_some_iff.mp hstep
    obtain ⟨c, hc, hfree, rfl, hassigned⟩ := AddrBook.adbGetWrite_eq_some h.quiet hget
    refine ⟨content, h.get hlive hc hassigned fun u => ?_⟩
    rw [RwLock.heldBy_acqWrite hfree, RwLock.heldBy_of_isFree hfree, Nat.zero_add]
  | unlock t v =>
    obtain ⟨adb', hunlock, rfl⟩ := Option.map_eq_some_iff.mp hstep
    obtain ⟨c, hc, hholds, hassigned⟩ := AddrBook.adbUnlock_eq_some h.quiet hunlock
    exact ⟨content, h.unlock hlive hc hholds hassigned⟩
  | write t v off byte =>
    simp only [msStep] at hstep
    split at hstep
    next c g hc hg =>
      split at hstep
      next hcond =>
        obtain ⟨ms', hwrite, rfl⟩ := Option.map_eq_some_iff.mp hstep
        have hgv : g.vaddr = v := (isGrant_iff.mp (List.find?_some hg)).2
        exact h.write (List.mem_of_find?_eq_some hg) (hgv ▸ hcond.2) hwrite
      next => cases hstep
    next => cases hstep

/-- What the steps of a user do to the rest of the state. -/
theorem user_step {a : MsAct} (huser : a.byUser t = true) (hstep : msStep s a = some s') :
    s'.live = s.live ∧ s'.blocks = s.blocks ∧ ∀ g ∈ s.grants, g.tid ≠ t → g ∈ s'.grants := by
  cases a with
  | malloc | free | tryFullShift => cases huser
  | getRead u v | getWrite u v =>
    obtain ⟨⟨paddr, adb'⟩, -, rfl⟩ := Option.map_eq_some_iff.mp hstep
    exact ⟨rfl, rfl, fun g hg _ => List.mem_cons_of_mem _ hg⟩
  | unlock u v =>
    obtain rfl : u = t := of_decide_eq_true huser
    obtain ⟨adb', -, rfl⟩ := Option.map_eq_some_iff.mp hstep
    refine ⟨rfl, rfl, fun g hg hne => ?_⟩
    exact (List.mem_eraseP_of_neg fun h => hne (isGrant_iff.mp h).1).mpr hg
  | write u v off byte =>
    simp only [msStep] at hstep
    split at hstep
    next c g hc hg =>
      split at hstep
      next =>
        obtain ⟨ms', hwrite, rfl⟩ := Option.map_eq_some_iff.mp hstep
        unfold MemSpace.setByte at hwrite
        obtain ⟨b, hb, rfl⟩ := Option.map_eq_some_iff.mp hwrite
        exact ⟨rfl, map_addr_set hb rfl, fun g hg _ => hg⟩
      next => cases hstep
    next => cases hstep

/-- The blocks after a free. -/
theorem map_addr_msFreeIn (h : Ms.msFreeIn s.ms t v mb = some ms') : ms'.mbList.map (·.addr) = s.blocks := by
  unfold Ms.msFreeIn at h
  simp only at h
  split at h
  · cases h
  next b hb =>
    obtain ⟨⟨mb', adb'⟩, -, rfl⟩ := Option.map_eq_some_iff.mp h
    exact map_addr_set hb rfl

end

end Chvm.Ms
