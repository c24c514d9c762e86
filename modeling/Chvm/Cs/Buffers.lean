import Chvm.Ms.Buffers
import Chvm.Util.Buffers

/-!
# The buffers of a collected space (`cs.c`)

What a collected space keeps on its memory channel between two calls, and how the functions that
allocate change it. `Shape` ties the buffers to the lengths of what they hold.
-/

set_option autoImplicit false

namespace Chvm.Cs

open Chvm.Core Chvm.Lib Chvm.Ms Chvm.Util HeapM

/-- The arguments of `new_collected_space_seed`. With a capacity or a block size of 0 the space has no
book or no memory space, and with a size that wraps too small a buffer. -/
structure Params where
  chnl : UInt8
  adbTCap : Nat
  mbMBytes : Nat
  adbTCap_ne : adbTCap ≠ 0
  mbMBytes_ne : mbMBytes ≠ 0
  table_fits : Virt.FitsTable adbTCap
  block_fits : FitsBlock mbMBytes

/-- `collected_space`, with the buffers of its fields. -/
structure CsBuffers where
  addr : Nat
  ms : MemSpaceBuffers
  inProgressStack : BcBuffers
  visitStack : BcBuffers
  rootSetCap : Nat
  rootSet : Nat

/-- `sizeof(root_set_entry)`. -/
def rootSetEntrySize : Nat := 24

/-- `sizeof(addr_book_vaddr)`. -/
def addrBookVaddrSize : Nat := 16

/-- `sizeof(cs_gc_worker_arg)`. -/
def gcWorkerArgSize : Nat := 16

/-- The bytes `cs_malloc_p` asks the memory space for: the two headers, the references, the data. -/
def objBytes (rtLen daSize : Nat) : Nat := (4 + 16 + addrBookVaddrSize * rtLen + daSize) % 2 ^ 64

namespace CsBuffers

/-- `cs_malloc_p`. -/
def csMallocP (cs : CsBuffers) (rtLen daSize : Nat) (success expands : Bool) : HeapM CsBuffers := do
  let ms ← cs.ms.msMallocP (objBytes rtLen daSize) success expands
  return { cs with ms }

/-- `cs_root`: the array is doubled when the free list is empty. -/
def csRoot (cs : CsBuffers) (full : Bool) : HeapM CsBuffers :=
  if full then do
    let rootSet ← safeRealloc cs.rootSet (cs.rootSetCap * 2 * rootSetEntrySize)
    return { cs with rootSet, rootSetCap := cs.rootSetCap * 2 }
  else return cs

/-- A change of `in_progress_stack`. -/
def onInProgress (cs : CsBuffers) (f : BcBuffers → HeapM BcBuffers) : HeapM CsBuffers := do
  let inProgressStack ← f cs.inProgressStack
  return { cs with inProgressStack }

/-- A change of `visit_stack`. -/
def onVisit (cs : CsBuffers) (f : BcBuffers → HeapM BcBuffers) : HeapM CsBuffers := do
  let visitStack ← f cs.visitStack
  return { cs with visitStack }

/-- The pointers of the space. -/
def ptrs (cs : CsBuffers) : List Nat :=
  cs.addr :: cs.rootSet :: (cs.ms.ptrs ++ (cs.inProgressStack.ptrs ++ cs.visitStack.ptrs))

/-- The space, its memory space, the book with its array and its tables, the block list and its blocks,
the two stacks and the root array. -/
def count (cs : CsBuffers) : Nat :=
  1 + 1 + (2 + cs.ms.adb.tables.length) + (1 + cs.ms.blocks.length) +
    (cs.inProgressStack.count + cs.visitStack.count) + 1

/-- The space has `tables` tables, `roots` root-set entries, and so many vaddrs on its stacks. -/
structure Shape (cs : CsBuffers) (adbTCap tables roots inProgress visit : Nat) : Prop where
  tableCap : cs.ms.adb.tableCap = adbTCap
  tables : cs.ms.adb.tables.length = tables
  rootSetCap : cs.rootSetCap = roots
  inProgressStack : cs.inProgressStack.Holds inProgress
  visitStack : cs.visitStack.Holds visit

variable {cs : CsBuffers} {cap tables roots inProgress visit n rtLen daSize : Nat} {p : Params}
  {chnl : UInt8} {base : List (Nat × UInt8)} {rest : List Nat} {success expands full : Bool}
  {f : BcBuffers → HeapM BcBuffers}

theorem triple_csMallocP (hcs : cs.Shape cap tables roots inProgress visit)
    (hfits : cs.ms.Fits (objBytes rtLen daSize)) :
    Triple OutOfMemory (Owned chnl base (cs.ptrs ++ rest)) (cs.csMallocP rtLen daSize success expands)
      fun cs h => cs.Shape cap (tables + expands.toNat) roots inProgress visit ∧
        Owned chnl base (cs.ptrs ++ rest) h := by
  have hfocus : ∀ h, Owned chnl base (cs.ptrs ++ rest) h → Owned chnl base (cs.ms.ptrs ++
      (cs.addr :: cs.rootSet :: (cs.inProgressStack.ptrs ++ (cs.visitStack.ptrs ++ rest)))) h := by
    refine fun h hown => hown.perm (List.perm_iff_count.mpr fun a => ?_)
    simp only [ptrs, List.count_append, List.count_cons]
    omega
  refine ((MemSpaceBuffers.triple_msMallocP hfits).pre hfocus).bind fun ms => ?_
  rintro h ⟨hgrown, hown⟩
  refine ⟨?_, hown.perm (List.perm_iff_count.mpr fun a => ?_)⟩
  · exact
      { tableCap := hgrown.tableCap.trans hcs.tableCap
        tables := hcs.tables ▸ hgrown.tables
        rootSetCap := hcs.rootSetCap
        inProgressStack := hcs.inProgressStack
        visitStack := hcs.visitStack }
  · simp only [ptrs, List.count_append, List.count_cons]
    omega

theorem triple_csRoot (hcs : cs.Shape cap tables roots inProgress visit)
    (hfits : cs.rootSetCap * 2 * rootSetEntrySize + 1 < 2 ^ 64) :
    Triple OutOfMemory (Owned chnl base (cs.ptrs ++ rest)) (cs.csRoot full)
      fun cs h => cs.Shape cap tables (if full then roots * 2 else roots) inProgress visit ∧
        Owned chnl base (cs.ptrs ++ rest) h := by
  unfold csRoot
  split
  next =>
    have hfocus : ∀ h, Owned chnl base (cs.ptrs ++ rest) h → Owned chnl base (cs.rootSet :: cs.addr ::
        (cs.ms.ptrs ++ (cs.inProgressStack.ptrs ++ cs.visitStack.ptrs) ++ rest)) h :=
      fun h hown => hown.perm (List.Perm.swap ..)
    refine ((triple_safeRealloc hfits).pre hfocus).bind fun rootSet => ?_
    intro h hown
    refine ⟨?_, hown.perm (List.Perm.swap ..)⟩
    exact ⟨hcs.tableCap, hcs.tables, congrArg (· * 2) hcs.rootSetCap, hcs.inProgressStack, hcs.visitStack⟩
  next => exact fun h hown => ⟨hcs, hown⟩

theorem triple_onInProgress (hcs : cs.Shape cap tables roots inProgress visit)
    (hf : ∀ rest, Triple OutOfMemory (Owned chnl base (cs.inProgressStack.ptrs ++ rest))
      (f cs.inProgressStack) fun bc h => bc.Holds n ∧ Owned chnl base (bc.ptrs ++ rest) h) :
    Triple OutOfMemory (Owned chnl base (cs.ptrs ++ rest)) (cs.onInProgress f)
      fun cs h => cs.Shape cap tables roots n visit ∧ Owned chnl base (cs.ptrs ++ rest) h := by
  have hfocus : ∀ h, Owned chnl base (cs.ptrs ++ rest) h → Owned chnl base (cs.inProgressStack.ptrs ++
      (cs.addr :: cs.rootSet :: (cs.ms.ptrs ++ (cs.visitStack.ptrs ++ rest)))) h := by
    refine fun h hown => hown.perm (List.perm_iff_count.mpr fun a => ?_)
    simp only [ptrs, List.count_append, List.count_cons]
    omega
  refine ((hf _).pre hfocus).bind fun bc => ?_
  rintro h ⟨hbc, hown⟩
  refine ⟨⟨hcs.tableCap, hcs.tables, hcs.rootSetCap, hbc, hcs.visitStack⟩, ?_⟩
  refine hown.perm (List.perm_iff_count.mpr fun a => ?_)
  simp only [ptrs, List.count_append, List.count_cons]
  omega

theorem triple_onVisit (hcs : cs.Shape cap tables roots inProgress visit)
    (hf : ∀ rest, Triple OutOfMemory (Owned chnl base (cs.visitStack.ptrs ++ rest))
      (f cs.visitStack) fun bc h => bc.Holds n ∧ Owned chnl base (bc.ptrs ++ rest) h) :
    Triple OutOfMemory (Owned chnl base (cs.ptrs ++ rest)) (cs.onVisit f)
      fun cs h => cs.Shape cap tables roots inProgress n ∧ Owned chnl base (cs.ptrs ++ rest) h := by
  have hfocus : ∀ h, Owned chnl base (cs.ptrs ++ rest) h → Owned chnl base (cs.visitStack.ptrs ++
      (cs.addr :: cs.rootSet :: (cs.ms.ptrs ++ (cs.inProgressStack.ptrs ++ rest)))) h := by
    refine fun h hown => hown.perm (List.perm_iff_count.mpr fun a => ?_)
    simp only [ptrs, List.count_append, List.count_cons]
    omega
  refine ((hf _).pre hfocus).bind fun bc => ?_
  rintro h ⟨hbc, hown⟩
  refine ⟨⟨hcs.tableCap, hcs.tables, hcs.rootSetCap, hcs.inProgressStack, hbc⟩, ?_⟩
  refine hown.perm (List.perm_iff_count.mpr fun a => ?_)
  simp only [ptrs, List.count_append, List.count_cons]
  omega

/-- The order of `delete_collected_space`. -/
def deleteOrder (cs : CsBuffers) : List Nat :=
  cs.inProgressStack.deleteOrder ++ (cs.visitStack.deleteOrder ++
    (cs.rootSet :: (cs.ms.deleteOrder ++ [cs.addr])))

theorem deleteOrder_perm (cs : CsBuffers) : cs.deleteOrder.Perm cs.ptrs := by
  have hms := List.perm_iff_count.mp cs.ms.deleteOrder_perm
  have hin := List.perm_iff_count.mp cs.inProgressStack.deleteOrder_perm
  have hvisit := List.perm_iff_count.mp cs.visitStack.deleteOrder_perm
  apply List.perm_iff_count.mpr
  intro a
  simp only [deleteOrder, ptrs, List.count_append, List.count_cons, List.count_nil, hms a, hin a,
    hvisit a]
  omega

end CsBuffers

end Chvm.Cs
