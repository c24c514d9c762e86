import Chvm.Mb.Memory
import Chvm.Virt.Map

/-!
# The memory space (`ms.c`)

A list of memory blocks on one address book. A block is made in a buffer of its own, and the host
gives disjoint buffers, so each block keeps its own bytes; an address is read and written in the
block whose buffer it lies in, and a `mem_block` pointer, the buffer's address, names its block.

A call is one function: between calls nothing is pending. `none` is a call that waits for a cell
lock, an error exit, or a step outside the blocks.
-/

set_option autoImplicit false

namespace Chvm.Ms

open Chvm.Lib Chvm.Virt Chvm.Mb

/-- `sizeof(mem_block_header)`: three words and the lock, on the platform whose `pthread_rwlock_t`
`mb.c` includes. -/
def memBlockHeaderSize : Nat := 224

/-- `sizeof(mem_space_malloc_header)`: the `mem_block` pointer. -/
def mallocHeaderSize : Nat := 8

/-- A block and the buffer `safe_malloc` gave for it. -/
structure SpaceBlock where
  addr : Nat
  size : Nat
  mb : MemBlock

/-- The address lies in the block's buffer. -/
def SpaceBlock.contains (b : SpaceBlock) (a : Nat) : Bool := b.addr ≤ a && a < b.addr + b.size

/-- The bytes `new_mem_block` asks for, in 64-bit arithmetic. -/
def memBlockBytes (minBytes : Nat) : Nat := (memBlockHeaderSize + padNumBytes minBytes) % 2 ^ 64

/-- `new_mem_block`, in a buffer at `addr` that holds the bytes of `mem`. -/
def newSpaceBlock (addr : Nat) (mem : Mem) (minBytes : Nat) : SpaceBlock where
  addr := addr
  size := memBlockBytes minBytes
  mb := newMemBlock (addr + memBlockHeaderSize) mem minBytes

/-- The host gives a buffer beside the ones that are there. -/
def HostGives (bs : List SpaceBlock) (addr size : Nat) : Prop :=
  0 < addr ∧ addr + size < 2 ^ 64 ∧ ∀ b ∈ bs, addr + size ≤ b.addr ∨ b.addr + b.size ≤ addr

instance (bs : List SpaceBlock) (addr size : Nat) : Decidable (HostGives bs addr size) :=
  inferInstanceAs (Decidable (0 < addr ∧ addr + size < 2 ^ 64 ∧
    ∀ b ∈ bs, addr + size ≤ b.addr ∨ b.addr + b.size ≤ addr))

/-- `mem_space`; `mb_list_len` is the length of `mbList`. The capacity is not a word here: the blocks
have disjoint buffers, so there are far fewer than 2^63. -/
structure MemSpace where
  adb : AddrBook
  mbMinBytes : Nat
  seed : Nat
  mbListCap : Nat
  mbList : List SpaceBlock

/-- `new_mem_space_seed`, with the buffer of its first block; `none` is `NULL`, also for the book. -/
def newMemSpaceSeed (seed adbTCap mbMBytes addr : Nat) (mem : Mem) : Option MemSpace :=
  if mbMBytes = 0 then none
  else
    match newAddrBook adbTCap with
    | none => none
    | some adb =>
      if HostGives [] addr (memBlockBytes mbMBytes) then
        some {
          adb := adb
          mbMinBytes := mbMBytes
          seed := seed
          mbListCap := 2
          mbList := [newSpaceBlock addr mem mbMBytes] }
      else none

theorem newMemSpaceSeed_eq {seed adbTCap mbMBytes addr : Nat} {mem : Mem} {ms : MemSpace}
    (h : newMemSpaceSeed seed adbTCap mbMBytes addr mem = some ms) :
    HostGives [] addr (memBlockBytes mbMBytes) ∧ ∃ adb, newAddrBook adbTCap = some adb ∧ ms =
      { adb := adb, mbMinBytes := mbMBytes, seed := seed, mbListCap := 2,
        mbList := [newSpaceBlock addr mem mbMBytes] } := by
  unfold newMemSpaceSeed at h
  split at h
  · cases h
  · split at h
    · cases h
    next adb hadb =>
      split at h
      next hgives => exact ⟨hgives, adb, hadb, (Option.some.inj h).symm⟩
      next => cases h

/-- `ms_next_rnd`. -/
def msNextRnd (ms : MemSpace) : Nat × MemSpace :=
  let next := (ms.seed + 1) % 2 ^ 64
  let currSeed := if next = 0 then 1 else next
  let a := currSeed * 15485863 % 2 ^ 64
  let b := currSeed * 2038074743 % 2 ^ 64
  ((a * a * a + b * b) % 2 ^ 64, { ms with seed := currSeed })

/-- `ms_interpret_malloc_res`: the block's address is written in front of the user's bytes. -/
def msInterpretMallocRes (adb : AddrBook) (t : Tid) (b : SpaceBlock) (res : MallocRes) (hold : Bool) :
    Option (MallocRes × SpaceBlock × AddrBook) :=
  match res.paddr with
  | none => none
  | some paddr =>
    let b := { b with mb := { b.mb with mem := b.mb.mem.store64 paddr b.addr } }
    if hold then some (⟨some (paddr + mallocHeaderSize), res.vaddr⟩, b, adb)
    else (adb.adbUnlock t res.vaddr).map fun adb => (⟨none, res.vaddr⟩, b, adb)

/-- `mb_malloc_and_hold` in a block, and `ms_interpret_malloc_res` when it was a success. -/
def msMallocIn (adb : AddrBook) (t : Tid) (b : SpaceBlock) (paddedBytes : Nat) (hold : Bool) :
    Option (MallocRes × SpaceBlock × AddrBook) :=
  match mbMallocP b.mb adb t paddedBytes true with
  | none => none
  | some (res, mb, adb) =>
    if res.vaddr = nullVaddr then some (res, { b with mb := mb }, adb)
    else msInterpretMallocRes adb t { b with mb := mb } res hold

/-- The throws of `ms_malloc_p`; the result is null when no throw finds space. -/
def msThrow (t : Tid) (paddedBytes : Nat) (hold : Bool) : Nat → MemSpace → Option (MallocRes × MemSpace)
  | 0, ms => some (⟨none, nullVaddr⟩, ms)
  | numThrows + 1, ms =>
    let (rnd, ms) := msNextRnd ms
    let dart := rnd % ms.mbList.length
    match ms.mbList[dart]? with
    | none => none
    | some b =>
      match msMallocIn ms.adb t b paddedBytes hold with
      | none => none
      | some (res, b, adb) =>
        let ms := { ms with adb := adb, mbList := ms.mbList.set dart b }
        if res.vaddr = nullVaddr then msThrow t paddedBytes hold numThrows ms else some (res, ms)

/-- The end of `ms_malloc_p`: a new block, in the buffer the host gives, and a malloc there. -/
def msGrow (ms : MemSpace) (t : Tid) (paddedBytes : Nat) (hold : Bool) (addr : Nat) (mem : Mem) :
    Option (MallocRes × MemSpace) :=
  let reqBytes := if paddedBytes > ms.mbMinBytes then paddedBytes else ms.mbMinBytes
  if HostGives ms.mbList addr (memBlockBytes reqBytes) then
    let b := newSpaceBlock addr mem reqBytes
    match mbMallocP b.mb ms.adb t paddedBytes true with
    | none => none
    | some (res, mb, adb) =>
      match msInterpretMallocRes adb t { b with mb := mb } res hold with
      | none => none
      | some (res, b, adb) =>
        some (res, { ms with
          adb := adb
          mbListCap := if ms.mbList.length = ms.mbListCap then ms.mbListCap * 2 else ms.mbListCap
          mbList := ms.mbList ++ [b] })
  else none

/-- `SEARCH_DIV`. -/
def searchDiv : Nat := 3

/-- `ms_malloc_p`, with the buffer the host gives should it make a block. -/
def msMallocP (ms : MemSpace) (t : Tid) (minBytes : Nat) (hold : Bool) (addr : Nat) (mem : Mem) :
    Option (MallocRes × MemSpace) :=
  let paddedBytes := (minBytes + mallocHeaderSize) % 2 ^ 64
  if minBytes = 0 then some (⟨none, nullVaddr⟩, ms)
  else
    let numThrows := if ms.mbList.length / searchDiv = 0 then 1 else ms.mbList.length / searchDiv
    match msThrow t paddedBytes hold numThrows ms with
    | none => none
    | some (res, ms) =>
      if res.vaddr = nullVaddr then msGrow ms t paddedBytes hold addr mem else some (res, ms)

/-- The `mem_block` pointer at an address. -/
def msHeader (ms : MemSpace) (paddr : Nat) : Option Nat :=
  (ms.mbList.find? (·.contains paddr)).map (·.mb.mem.load64 paddr)

/-- `ms_free`. -/
def msFree (ms : MemSpace) (t : Tid) (v : Vaddr) : Option MemSpace :=
  match ms.adb.adbGetRead t v with
  | none => none
  | some (paddr, adb) =>
    match msHeader ms paddr, adb.adbUnlock t v with
    | some mb, some adb =>
      let i := ms.mbList.findIdx (·.addr = mb)
      match ms.mbList[i]? with
      | none => none
      | some b => (mbFree b.mb adb t v).map fun (mb, adb) =>
          { ms with adb := adb, mbList := ms.mbList.set i { b with mb := mb } }
    | _, _ => none

/-- `mb_try_full_shift`: a call that returns does so with some fuel. -/
def mbTryFullShift (t : Tid) : Nat → MemBlock → AddrBook → Option (MemBlock × AddrBook)
  | 0, _, _ => none
  | fuel + 1, mb, adb =>
    match mbTryShift mb adb t with
    | none => none
    | some (.success, mb, adb) => mbTryFullShift t fuel mb adb
    | some (_, mb, adb) => some (mb, adb)

/-- One turn of the loop of `ms_try_full_shift`. -/
def msShiftBlock (t : Tid) (fuel : Nat) (ms : MemSpace) (i : Nat) : Option MemSpace :=
  match ms.mbList[i]? with
  | none => none
  | some b => (mbTryFullShift t fuel b.mb ms.adb).map fun (mb, adb) =>
      { ms with adb := adb, mbList := ms.mbList.set i { b with mb := mb } }

/-- `ms_try_full_shift`. -/
def msTryFullShift (ms : MemSpace) (t : Tid) (fuel : Nat) : Option MemSpace :=
  (List.range ms.mbList.length).foldlM (msShiftBlock t fuel) ms

/-- `ms_foreach`; `none` waits for a cell's lock. -/
def msForeach {σ : Type} (ms : MemSpace) (c : Vaddr → Nat → σ → σ) (ctx : σ) (wr : Bool) : Option σ :=
  ms.adb.adbForeach (fun v paddr => c v (paddr + mallocHeaderSize)) ctx wr

/-- `ms_count`. -/
def msCount (ms : MemSpace) : Option Nat := msForeach ms (fun _ _ count => count + 1) 0 false

end Chvm.Ms
