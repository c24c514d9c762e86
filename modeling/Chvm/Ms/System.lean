import Chvm.Lib.Run
import Chvm.Ms.Space

/-!
# Threads on one memory space

Any number of threads call `ms_malloc_p`, `ms_free` and `ms_try_full_shift`, lock and unlock live
vaddrs, and write into the bytes they asked for while they hold the write lock.

The blocks lie in buffers that do not overlap: an address is in one block, and a pointer names one.
-/

set_option autoImplicit false

namespace Chvm.Ms

open Chvm.Lib Chvm.Virt Chvm.Mb

/-- The space, and what the threads have seen: the vaddrs they may still use with the sizes they asked
for, the header addresses they got with a lock they have not given back, and how many calls of
`ms_malloc_p` gave a vaddr and how many of `ms_free` returned. -/
structure MsSys where
  ms : MemSpace
  live : List Vaddr
  request : Vaddr → Nat
  grants : List Grant
  mallocs : Nat
  frees : Nat

inductive MsAct
  /-- `addr` and `mem` are the buffer of the new block, should the call make one. -/
  | malloc (t : Tid) (minBytes : Nat) (hold : Bool) (addr : Nat) (mem : Mem)
  | free (t : Tid) (vaddr : Vaddr)
  | tryFullShift (t : Tid) (fuel : Nat)
  | getRead (t : Tid) (vaddr : Vaddr)
  | getWrite (t : Tid) (vaddr : Vaddr)
  | unlock (t : Tid) (vaddr : Vaddr)
  /-- The byte at an offset into the user's bytes. -/
  | write (t : Tid) (vaddr : Vaddr) (off : Nat) (byte : UInt8)

/-- A new space. -/
def MsSys.new (ms : MemSpace) : MsSys where
  ms := ms
  live := []
  request := fun _ => 0
  grants := []
  mallocs := 0
  frees := 0

/-- A byte is written at an address in one of the blocks. -/
def MemSpace.setByte (ms : MemSpace) (a : Nat) (byte : UInt8) : Option MemSpace :=
  let i := ms.mbList.findIdx (·.contains a)
  (ms.mbList[i]?).map fun b =>
    { ms with mbList := ms.mbList.set i { b with mb := { b.mb with mem := b.mb.mem.setByte a byte } } }

/-- A thread got a vaddr, and with a hold its lock. -/
def MsSys.malloced (s : MsSys) (ms : MemSpace) (t : Tid) (minBytes : Nat) (res : MallocRes) : MsSys where
  ms := ms
  live := res.vaddr :: s.live
  request := Function.update s.request res.vaddr minBytes
  grants := match res.paddr with
    | some paddr => ⟨t, res.vaddr, paddr - mallocHeaderSize⟩ :: s.grants
    | none => s.grants
  mallocs := s.mallocs + 1
  frees := s.frees

/-- One step: a call, from its call to its return, with no other thread inside a call. A call that has to wait
is no step; what a free that waits keeps from the others is in `sectionStep`. -/
def msStep (s : MsSys) : MsAct → Option MsSys
  | .malloc t minBytes hold addr mem =>
    match msMallocP s.ms t minBytes hold addr mem with
    | none => none
    | some (res, ms) =>
      some (if res.vaddr = nullVaddr then { s with ms := ms } else s.malloced ms t minBytes res)
  | .free t v => (msFree s.ms t v).map fun ms =>
      { s with ms := ms, live := s.live.filter (· ≠ v), frees := s.frees + 1 }
  | .tryFullShift t fuel => (msTryFullShift s.ms t fuel).map fun ms => { s with ms := ms }
  | .getRead t v => (s.ms.adb.adbGetRead t v).map fun (paddr, adb) =>
      { s with ms := { s.ms with adb := adb }, grants := ⟨t, v, paddr⟩ :: s.grants }
  | .getWrite t v => (s.ms.adb.adbGetWrite t v).map fun (paddr, adb) =>
      { s with ms := { s.ms with adb := adb }, grants := ⟨t, v, paddr⟩ :: s.grants }
  | .unlock t v => (s.ms.adb.adbUnlock t v).map fun adb =>
      { s with ms := { s.ms with adb := adb }, grants := s.grants.eraseP (isGrant t v) }
  | .write t v off byte =>
    match s.ms.adb.cell v, s.grants.find? (isGrant t v) with
    | some c, some g =>
      if c.lck.writer = some t ∧ off < s.request v then
        (s.ms.setByte (g.paddr + mallocHeaderSize + off) byte).map fun ms => { s with ms := ms }
      else none
    | _, _ => none

/-- The padding of a request, the header of the space added, does not wrap, and a vaddr is used while
it is live only. -/
def usesLive (s : MsSys) : MsAct → Prop
  | .malloc _ minBytes .. => minBytes + mallocHeaderSize + 33 < 2 ^ 64
  | .free _ v | .getRead _ v | .getWrite _ v | .unlock _ v => v ∈ s.live
  | _ => True

/-- The bytes of a block for a request of this size, its header included, fit a word. -/
def FitsBlock (minBytes : Nat) : Prop := memBlockHeaderSize + padNumBytes minBytes < 2 ^ 64

instance (minBytes : Nat) : Decidable (FitsBlock minBytes) :=
  inferInstanceAs (Decidable (memBlockHeaderSize + padNumBytes minBytes < 2 ^ 64))

/-- A block for the request fits a word. -/
def requestFits : MsAct → Prop
  | .malloc _ minBytes .. => FitsBlock (minBytes + mallocHeaderSize)
  | _ => True

/-! ## The buffers -/

/-- A block lies in its buffer, behind its header, and the buffers do not overlap. -/
structure Placed (bs : List SpaceBlock) : Prop where
  buffer : ∀ b ∈ bs, 0 < b.addr ∧ b.addr + b.size < 2 ^ 64 ∧
    b.mb.start = b.addr + memBlockHeaderSize ∧ b.mb.stop = b.addr + b.size
  apart : bs.Pairwise fun b c => b.addr + b.size ≤ c.addr ∨ c.addr + c.size ≤ b.addr

/-- A block after a call on it: the same buffer. -/
def SameBuffer (b b' : SpaceBlock) : Prop :=
  b'.addr = b.addr ∧ b'.size = b.size ∧ b'.mb.start = b.mb.start ∧ b'.mb.cap = b.mb.cap

variable {bs : List SpaceBlock} {b b' c : SpaceBlock} {i j a : Nat}

theorem contains_iff : b.contains a = true ↔ b.addr ≤ a ∧ a < b.addr + b.size := by
  simp only [SpaceBlock.contains, Bool.and_eq_true, decide_eq_true_eq]

theorem Placed.contains_addr (h : Placed bs) (hb : b ∈ bs) : b.contains b.addr = true := by
  obtain ⟨-, -, hstart, hstop⟩ := h.buffer b hb
  unfold MemBlock.stop at hstop
  have hheader : memBlockHeaderSize = 224 := rfl
  exact contains_iff.mpr (by omega)

/-- An address lies in one buffer. -/
theorem Placed.index_eq (h : Placed bs) (hb : bs[i]? = some b) (hc : bs[j]? = some c)
    (hab : b.contains a = true) (hac : c.contains a = true) : i = j := by
  obtain ⟨hi, rfl⟩ := List.getElem?_eq_some_iff.mp hb
  obtain ⟨hj, rfl⟩ := List.getElem?_eq_some_iff.mp hc
  rw [contains_iff] at hab hac
  have hapart := List.pairwise_iff_getElem.mp h.apart
  rcases Nat.lt_trichotomy i j with hlt | heq | hlt
  · have hor := hapart i j hi hj hlt
    omega
  · exact heq
  · have hor := hapart j i hj hi hlt
    omega

theorem Placed.eq_of_contains (h : Placed bs) (hb : b ∈ bs) (hc : c ∈ bs)
    (hab : b.contains a = true) (hac : c.contains a = true) : b = c := by
  obtain ⟨i, hi⟩ := List.mem_iff_getElem?.mp hb
  obtain ⟨j, hj⟩ := List.mem_iff_getElem?.mp hc
  rw [h.index_eq hi hj hab hac, hj] at hi
  cases hi
  rfl

/-- The block that an address is read in. -/
theorem Placed.find (h : Placed bs) (hb : b ∈ bs) (hab : b.contains a = true) :
    bs.find? (·.contains a) = some b := by
  cases hfind : bs.find? (·.contains a) with
  | none => exact absurd hab (List.find?_eq_none.mp hfind b hb)
  | some c =>
    have hac : c.contains a = true := List.find?_some (p := fun c : SpaceBlock => c.contains a) hfind
    rw [h.eq_of_contains (List.mem_of_find?_eq_some hfind) hb hac hab]

/-- A test that only the block at `i` passes finds `i`. -/
theorem findIdx_of_unique {p : SpaceBlock → Bool} (hb : bs[i]? = some b) (hp : p b = true)
    (hunique : ∀ j c, bs[j]? = some c → p c = true → j = i) : bs.findIdx p = i := by
  obtain ⟨hi, rfl⟩ := List.getElem?_eq_some_iff.mp hb
  apply (List.findIdx_eq hi).mpr
  refine ⟨hp, fun j hj => Bool.eq_false_iff.mpr fun hpj => ?_⟩
  exact absurd (hunique j _ (List.getElem?_eq_getElem (Nat.lt_trans hj hi)) hpj) (Nat.ne_of_lt hj)

theorem Placed.findIdx_contains (h : Placed bs) (hb : bs[i]? = some b) (hab : b.contains a = true) :
    bs.findIdx (·.contains a) = i :=
  findIdx_of_unique hb hab fun _ _ hc hac => h.index_eq hc hb hac hab

theorem Placed.index_eq_of_addr (h : Placed bs) (hb : bs[i]? = some b) (hc : bs[j]? = some c)
    (haddr : b.addr = c.addr) : i = j :=
  h.index_eq hb hc (h.contains_addr (List.mem_of_getElem? hb))
    (haddr ▸ h.contains_addr (List.mem_of_getElem? hc))

/-- The block that a pointer names. -/
theorem Placed.findIdx_addr (h : Placed bs) (hb : bs[i]? = some b) :
    bs.findIdx (·.addr = b.addr) = i :=
  findIdx_of_unique hb (decide_eq_true rfl) fun _ _ hc haddr =>
    h.index_eq_of_addr hc hb (of_decide_eq_true haddr)

/-- What is in the list after a block is changed. -/
theorem mem_set_cases (hb : bs[i]? = some b) (hc : c ∈ bs.set i b') :
    c = b' ∨ ∃ j ≠ i, bs[j]? = some c := by
  obtain ⟨j, hj⟩ := List.mem_iff_getElem?.mp hc
  rw [List.getElem?_set] at hj
  split at hj
  next heq =>
    rw [if_pos (heq ▸ (List.getElem?_eq_some_iff.mp hb).1)] at hj
    cases hj
    exact .inl rfl
  next hne => exact .inr ⟨j, Ne.symm hne, hj⟩

theorem Placed.set (h : Placed bs) (hb : bs[i]? = some b) (hsame : SameBuffer b b') :
    Placed (bs.set i b') := by
  obtain ⟨haddr, hsize, hstart, hcap⟩ := hsame
  refine ⟨fun c hc => ?_, ?_⟩
  · rcases mem_set_cases hb hc with rfl | ⟨j, -, hj⟩
    · have hbuffer := h.buffer b (List.mem_of_getElem? hb)
      unfold MemBlock.stop at hbuffer ⊢
      rw [haddr, hsize, hstart, hcap]
      exact hbuffer
    · exact h.buffer c (List.mem_of_getElem? hj)
  · have hkeys : (bs.set i b').map (fun c => (c.addr, c.size)) = bs.map fun c => (c.addr, c.size) := by
      apply List.ext_getElem?
      intro k
      rw [List.getElem?_map, List.getElem?_map, List.getElem?_set]
      split
      next heq =>
        subst heq
        rw [if_pos (List.getElem?_eq_some_iff.mp hb).1, hb, Option.map_some, Option.map_some, haddr, hsize]
      next => rfl
    have hapart : (bs.map fun c => (c.addr, c.size)).Pairwise fun p q => p.1 + p.2 ≤ q.1 ∨ q.1 + q.2 ≤ p.1 :=
      List.pairwise_map.mpr h.apart
    rw [← hkeys] at hapart
    exact List.pairwise_map.mp hapart

theorem memBlockBytes_eq {n : Nat} (h : FitsBlock n) :
    memBlockBytes n = memBlockHeaderSize + padNumBytes n := Nat.mod_eq_of_lt h

/-- A new block in a buffer the host gives. -/
theorem placed_new {addr n : Nat} (mem : Mem) (hfits : FitsBlock n)
    (hgives : HostGives bs addr (memBlockBytes n)) :
    0 < addr ∧ addr + (newSpaceBlock addr mem n).size < 2 ^ 64 ∧
      (newSpaceBlock addr mem n).mb.stop = addr + (newSpaceBlock addr mem n).size := by
  refine ⟨hgives.1, hgives.2.1, ?_⟩
  show addr + memBlockHeaderSize + padNumBytes n = addr + memBlockBytes n
  rw [memBlockBytes_eq hfits]
  exact Nat.add_assoc ..

theorem Placed.push (h : Placed bs) {addr n : Nat} (mem : Mem) (hfits : FitsBlock n)
    (hgives : HostGives bs addr (memBlockBytes n)) : Placed (bs ++ [newSpaceBlock addr mem n]) := by
  obtain ⟨hpos, hlt, hstop⟩ := placed_new mem hfits hgives
  refine ⟨fun b hb => ?_, List.pairwise_append.mpr ⟨h.apart, List.pairwise_singleton _ _, ?_⟩⟩
  · rcases List.mem_append.mp hb with hb | hb
    · exact h.buffer b hb
    · rw [List.mem_singleton.mp hb]
      exact ⟨hpos, hlt, rfl, hstop⟩
  · intro b hb c hc
    rw [List.mem_singleton.mp hc]
    exact (hgives.2.2 b hb).symm

end Chvm.Ms
