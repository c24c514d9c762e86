import Chvm.Core.Heap
import Chvm.Ms.System

/-!
# The buffers of a memory space (`virt.c`, `mb.c`, `ms.c`)

What the address book, the memory blocks and the memory space ask of the memory channels. A capacity
or a block size of 0 gives no space (`new_addr_book` and `new_mem_space_seed` return `NULL`) and is
left to those who call. The sizes are those of the platform whose lock `virt.c` includes; a product
that does not fit a word is the same for `safe_malloc` as its remainder.
-/

set_option autoImplicit false

namespace Chvm.Ms

open Chvm.Core Chvm.Lib HeapM

/-! ## The address book -/

/-- `addr_book`, the array of its entries, and its tables; `book_len` is their number. -/
structure BookBuffers where
  addr : Nat
  tableCap : Nat
  bookCap : Nat
  book : Nat
  tables : List Nat

/-- `sizeof(addr_book)`. -/
def addrBookSize : Nat := 240

/-- `sizeof(addr_book_entry)`. -/
def addrBookEntrySize : Nat := 32

namespace BookBuffers

/-- `new_addr_table`. -/
def newAddrTable (chnl : UInt8) (cap : Nat) : HeapM Nat :=
  if cap = 0 then throw .errorExit else safeMalloc chnl (Virt.addrTableBytes cap)

/-- `new_addr_book`, for a capacity that is not 0. -/
def newAddrBook (chnl : UInt8) (tableCap : Nat) : HeapM BookBuffers := do
  let addr ← safeMalloc chnl addrBookSize
  let book ← safeMalloc chnl (addrBookEntrySize * 1)
  return { addr, tableCap, bookCap := 1, book, tables := [] }

/-- `adb_try_expand` makes room for an entry. -/
def growBook (adb : BookBuffers) : HeapM BookBuffers :=
  if adb.tables.length = adb.bookCap then do
    let book ← safeRealloc adb.book (addrBookEntrySize * (adb.bookCap * 2))
    return { adb with book, bookCap := adb.bookCap * 2 }
  else return adb

/-- `adb_try_expand`, when it finds no free table. -/
def adbTryExpand (adb : BookBuffers) : HeapM BookBuffers := do
  let adb ← adb.growBook
  let chnl ← getChnl adb.addr
  let table ← newAddrTable chnl adb.tableCap
  return { adb with tables := adb.tables ++ [table] }

def ptrs (adb : BookBuffers) : List Nat := adb.addr :: adb.book :: adb.tables

end BookBuffers

/-! ## The memory space -/

/-- `mem_space`, its book, the array of its blocks, and the blocks; `mb_list_len` is their number. -/
structure MemSpaceBuffers where
  addr : Nat
  adb : BookBuffers
  mbMinBytes : Nat
  mbListCap : Nat
  mbList : Nat
  blocks : List Nat

/-- `sizeof(mem_space)`. -/
def memSpaceSize : Nat := 312

/-- `sizeof(mem_block *)`. -/
def memBlockPtrSize : Nat := 8

/-- `new_mem_block`. -/
def newMemBlockBuffer (chnl : UInt8) (minBytes : Nat) : HeapM Nat := safeMalloc chnl (memBlockBytes minBytes)

namespace MemSpaceBuffers

/-- `new_mem_space_seed`, for a block size that is not 0. The seed is of no account. -/
def newMemSpaceSeed (chnl : UInt8) (adbTCap mbMBytes : Nat) : HeapM MemSpaceBuffers := do
  let addr ← safeMalloc chnl memSpaceSize
  let adb ← BookBuffers.newAddrBook chnl adbTCap
  let mbList ← safeMalloc chnl (memBlockPtrSize * 2)
  let block ← newMemBlockBuffer chnl mbMBytes
  return { addr, adb, mbMinBytes := mbMBytes, mbListCap := 2, mbList, blocks := [block] }

/-- `adb_put_p`, which expands the book when it has no room. -/
def adbPut (ms : MemSpaceBuffers) (expands : Bool) : HeapM MemSpaceBuffers :=
  if expands then do
    let adb ← ms.adb.adbTryExpand
    return { ms with adb }
  else return ms

/-- `req_bytes` of `ms_malloc_p`. -/
def reqBytes (ms : MemSpaceBuffers) (minBytes : Nat) : Nat :=
  let paddedBytes := (minBytes + mallocHeaderSize) % 2 ^ 64
  if paddedBytes > ms.mbMinBytes then paddedBytes else ms.mbMinBytes

/-- `ms_malloc_p` makes room for a block in `mb_list`. -/
def growMbList (ms : MemSpaceBuffers) : HeapM MemSpaceBuffers :=
  if ms.blocks.length = ms.mbListCap then do
    let mbList ← safeRealloc ms.mbList (memBlockPtrSize * (ms.mbListCap * 2))
    return { ms with mbList, mbListCap := ms.mbListCap * 2 }
  else return ms

/-- `ms_malloc_p`: a throw was a success, or a block is made. Whether the piece's vaddr needs a new
table is the book's matter. -/
def msMallocP (ms : MemSpaceBuffers) (minBytes : Nat) (success expands : Bool) : HeapM MemSpaceBuffers :=
  if success then ms.adbPut expands
  else do
    let chnl ← getChnl ms.addr
    let block ← newMemBlockBuffer chnl (ms.reqBytes minBytes)
    let ms ← ms.adbPut expands
    let ms ← ms.growMbList
    return { ms with blocks := ms.blocks ++ [block] }

def ptrs (ms : MemSpaceBuffers) : List Nat := ms.addr :: ms.mbList :: (ms.blocks ++ ms.adb.ptrs)

end MemSpaceBuffers

variable {chnl : UInt8} {base : List (Nat × UInt8)} {rest : List Nat}

/-! ## What the book does -/

namespace BookBuffers

variable {adb : BookBuffers} {tableCap : Nat}

/-- No size of the book wraps. -/
structure Fits (adb : BookBuffers) : Prop where
  cap : adb.tableCap ≠ 0
  table : Virt.FitsTable adb.tableCap
  book : addrBookEntrySize * (adb.bookCap * 2) + 1 < 2 ^ 64

/-- The array of entries is moved, and is still one buffer. -/
theorem triple_growBook (hfits : adb.Fits) :
    Triple OutOfMemory (Owned chnl base (adb.ptrs ++ rest)) adb.growBook
      fun adb' h => (adb'.addr = adb.addr ∧ adb'.tableCap = adb.tableCap ∧ adb'.tables = adb.tables) ∧
        Owned chnl base (adb'.ptrs ++ rest) h := by
  unfold growBook
  split
  next =>
    have hswap : ∀ h, Owned chnl base (adb.ptrs ++ rest) h →
        Owned chnl base (adb.book :: adb.addr :: (adb.tables ++ rest)) h :=
      fun h hown => hown.perm (List.Perm.swap ..)
    refine ((triple_safeRealloc hfits.book).pre hswap).bind fun book => ?_
    intro h hown
    exact ⟨⟨rfl, rfl, rfl⟩, hown.perm (List.Perm.swap ..)⟩
  next => exact fun h hown => ⟨⟨rfl, rfl, rfl⟩, hown⟩

/-- An expansion adds one table. -/
theorem triple_adbTryExpand (hfits : adb.Fits) :
    Triple OutOfMemory (Owned chnl base (adb.ptrs ++ rest)) adb.adbTryExpand
      fun adb' h => (adb'.tableCap = adb.tableCap ∧ adb'.tables.length = adb.tables.length + 1) ∧
        Owned chnl base (adb'.ptrs ++ rest) h := by
  refine (triple_growBook hfits).bind fun adb₁ => Triple.of_fact ?_
  rintro ⟨-, hcap, htables⟩
  refine (triple_getChnl List.mem_cons_self).bind fun chnl' => Triple.of_fact ?_
  rintro rfl
  have htable : Triple OutOfMemory (Owned chnl' base (adb₁.ptrs ++ rest))
      (newAddrTable chnl' adb₁.tableCap)
      fun table => Owned chnl' base (table :: (adb₁.ptrs ++ rest)) := by
    unfold newAddrTable
    rw [hcap, if_neg hfits.cap]
    refine triple_safeMalloc ?_
    rw [Virt.addrTableBytes_eq hfits.table]
    exact hfits.table
  refine htable.bind fun table => ?_
  intro h hown
  refine ⟨⟨hcap, ?_⟩, hown.perm ?_⟩
  · show (adb₁.tables ++ [table]).length = adb.tables.length + 1
    rw [List.length_append, htables]
    rfl
  · apply List.perm_iff_count.mpr
    intro a
    simp only [ptrs, List.count_append, List.count_cons, List.count_nil]
    omega

/-- The order of `delete_addr_book`. -/
def deleteOrder (adb : BookBuffers) : List Nat := adb.tables ++ [adb.book, adb.addr]

theorem deleteOrder_perm (adb : BookBuffers) : adb.deleteOrder.Perm adb.ptrs := by
  apply List.perm_iff_count.mpr
  intro a
  simp only [deleteOrder, ptrs, List.count_append, List.count_cons, List.count_nil]
  omega

end BookBuffers

/-! ## What the memory space does -/

namespace MemSpaceBuffers

variable {ms : MemSpaceBuffers} {adbTCap mbMBytes minBytes : Nat} {success expands : Bool}

/-- What a malloc keeps, and the table it may add. -/
structure Grown (ms ms' : MemSpaceBuffers) (expands : Bool) : Prop where
  tableCap : ms'.adb.tableCap = ms.adb.tableCap
  mbMinBytes : ms'.mbMinBytes = ms.mbMinBytes
  tables : ms'.adb.tables.length = ms.adb.tables.length + expands.toNat

/-- The bytes of a block and its channel fit a word when the bytes of the block do, which are even. -/
theorem memBlockBytes_lt (h : FitsBlock minBytes) : memBlockBytes minBytes + 1 < 2 ^ 64 := by
  rw [memBlockBytes_eq h]
  have hpad := (Mb.padNumBytes_fit minBytes).1
  unfold FitsBlock at h
  have hheader : memBlockHeaderSize = 224 := rfl
  omega

theorem triple_adbPut (hfits : ms.adb.Fits) :
    Triple OutOfMemory (Owned chnl base (ms.ptrs ++ rest)) (ms.adbPut expands)
      fun ms' h => (ms'.addr = ms.addr ∧ ms'.mbListCap = ms.mbListCap ∧ ms'.blocks = ms.blocks ∧
        ms.Grown ms' expands) ∧ Owned chnl base (ms'.ptrs ++ rest) h := by
  unfold adbPut
  split
  next hexpands =>
    have hfocus : ∀ h, Owned chnl base (ms.ptrs ++ rest) h →
        Owned chnl base (ms.adb.ptrs ++ (ms.addr :: ms.mbList :: (ms.blocks ++ rest))) h := by
      refine fun h hown => hown.perm (List.perm_iff_count.mpr fun a => ?_)
      simp only [ptrs, List.count_append, List.count_cons]
      omega
    refine ((BookBuffers.triple_adbTryExpand hfits).pre hfocus).bind fun adb => ?_
    rintro h ⟨⟨hcap, htables⟩, hown⟩
    refine ⟨⟨rfl, rfl, rfl, hcap, rfl, ?_⟩, hown.perm (List.perm_iff_count.mpr fun a => ?_)⟩
    · rw [hexpands]
      exact htables
    · simp only [ptrs, List.count_append, List.count_cons]
      omega
  next hexpands =>
    intro h hown
    rw [Bool.not_eq_true] at hexpands
    exact ⟨⟨rfl, rfl, rfl, rfl, rfl, hexpands ▸ rfl⟩, hown⟩

theorem triple_growMbList (hfits : memBlockPtrSize * (ms.mbListCap * 2) + 1 < 2 ^ 64) :
    Triple OutOfMemory (Owned chnl base (ms.ptrs ++ rest)) ms.growMbList
      fun ms' h => (ms'.adb = ms.adb ∧ ms'.mbMinBytes = ms.mbMinBytes ∧ ms'.blocks = ms.blocks) ∧
        Owned chnl base (ms'.ptrs ++ rest) h := by
  unfold growMbList
  split
  next =>
    have hswap : ∀ h, Owned chnl base (ms.ptrs ++ rest) h →
        Owned chnl base (ms.mbList :: ms.addr :: ((ms.blocks ++ ms.adb.ptrs) ++ rest)) h :=
      fun h hown => hown.perm (List.Perm.swap ..)
    refine ((triple_safeRealloc hfits).pre hswap).bind fun mbList => ?_
    intro h hown
    exact ⟨⟨rfl, rfl, rfl⟩, hown.perm (List.Perm.swap ..)⟩
  next => exact fun h hown => ⟨⟨rfl, rfl, rfl⟩, hown⟩

/-- No size of a malloc of `minBytes` wraps. -/
structure Fits (ms : MemSpaceBuffers) (minBytes : Nat) : Prop where
  adb : ms.adb.Fits
  block : FitsBlock (ms.reqBytes minBytes)
  mbList : memBlockPtrSize * (ms.mbListCap * 2) + 1 < 2 ^ 64

/-- **A malloc** owns what it adds: a block, and a table of the book. -/
theorem triple_msMallocP (hfits : ms.Fits minBytes) :
    Triple OutOfMemory (Owned chnl base (ms.ptrs ++ rest)) (ms.msMallocP minBytes success expands)
      fun ms' h => ms.Grown ms' expands ∧ Owned chnl base (ms'.ptrs ++ rest) h := by
  unfold msMallocP
  split
  next => exact (triple_adbPut hfits.adb).post fun ms' h hpost => ⟨hpost.1.2.2.2, hpost.2⟩
  next =>
    refine (triple_getChnl List.mem_cons_self).bind fun chnl' => Triple.of_fact ?_
    rintro rfl
    refine (triple_safeMalloc (memBlockBytes_lt hfits.block)).bind fun block => ?_
    have hframe : ∀ h, Owned chnl' base (block :: (ms.ptrs ++ rest)) h →
        Owned chnl' base (ms.ptrs ++ (block :: rest)) h :=
      fun h hown => hown.perm List.perm_middle.symm
    refine ((triple_adbPut hfits.adb).pre hframe).bind fun ms₁ => Triple.of_fact ?_
    rintro ⟨-, hcap, -, hgrown⟩
    refine (triple_growMbList (hcap ▸ hfits.mbList)).bind fun ms₂ => ?_
    rintro h ⟨⟨hadb, hmin, -⟩, hown⟩
    have hlast : Grown ms ms₂ expands :=
      { tableCap := hadb ▸ hgrown.tableCap
        mbMinBytes := hmin.trans hgrown.mbMinBytes
        tables := hadb ▸ hgrown.tables }
    refine ⟨⟨hlast.tableCap, hlast.mbMinBytes, hlast.tables⟩, ?_⟩
    refine hown.perm (List.perm_iff_count.mpr fun a => ?_)
    simp only [ptrs, List.count_append, List.count_cons, List.count_nil]
    omega

/-- The order of `delete_mem_space`. -/
def deleteOrder (ms : MemSpaceBuffers) : List Nat :=
  ms.blocks ++ (ms.mbList :: (ms.adb.deleteOrder ++ [ms.addr]))

theorem deleteOrder_perm (ms : MemSpaceBuffers) : ms.deleteOrder.Perm ms.ptrs := by
  have hadb := List.perm_iff_count.mp ms.adb.deleteOrder_perm
  apply List.perm_iff_count.mpr
  intro a
  simp only [deleteOrder, ptrs, List.count_append, List.count_cons, List.count_nil, hadb a]
  omega

end MemSpaceBuffers

end Chvm.Ms
