import Chvm.Lib.Bytes
import Chvm.Virt.View

/-!
# A memory block (`mb.c`)

The block's memory is a byte memory at absolute addresses. A piece starts and ends with a tag, its
size and its `alloc` bit; a free piece holds the links of the size free list in its body, an
allocated one its vaddr, and behind the vaddr the bytes of the user.

Every call holds `mem_lck` from its first to its last access, so a call is one function from the
block and the address book to the block and the address book. `none` is a call that waits for a
cell lock, an error exit, or a loop that runs out of fuel.
-/

set_option autoImplicit false

namespace Chvm.Mb

open Chvm.Lib Chvm.Virt

/-! ## Pieces -/

/-- `MP_PADDING`. -/
def mpPadding : Nat := 16

/-- `MFP_PADDING`. -/
def mfpPadding : Nat := mpPadding + 16

/-- `MAP_PADDING`. -/
def mapPadding : Nat := mpPadding + 16

/-- `MP_MIN_SIZE`. -/
def mpMinSize : Nat := mfpPadding + 2

/-- `size | alloc`, for a size whose first bit is clear. -/
def mpTag (size : Nat) (alloc : Bool) : Nat := size + alloc.toNat

/-- `tag & MP_SIZE_MASK`: all bits but the first. -/
def tagSize (tag : Nat) : Nat := tag - tag % 2

/-- `tag & MP_ALLOC_MASK`: the first bit. -/
def tagAlloc (tag : Nat) : Bool := tag % 2 = 1

/-- `mp_init`. -/
def mpInit (mem : Mem) (mp size : Nat) (alloc : Bool) : Mem :=
  let tag := mpTag size alloc
  (mem.store64 mp tag).store64 (mp + size - 8) tag

def mpSize (mem : Mem) (mp : Nat) : Nat := tagSize (mem.load64 mp)

def mpAlloc (mem : Mem) (mp : Nat) : Bool := tagAlloc (mem.load64 mp)

def mpBody (mp : Nat) : Nat := mp + 8

/-- `mp_b_to_mp`. -/
def mpBToMp (mpB : Nat) : Nat := mpB - 8

def mpNext (mem : Mem) (mp : Nat) : Nat := mp + mpSize mem mp

def mpPrevSize (mem : Mem) (mp : Nat) : Nat := tagSize (mem.load64 (mp - 8))

def mpPrev (mem : Mem) (mp : Nat) : Nat := mp - mpPrevSize mem mp

/-- `map_b_to_mp`. -/
def mapBToMp (mapB : Nat) : Nat := mpBToMp (mapB - 16)

/-- `mp_to_map_b`. -/
def mpToMapB (mp : Nat) : Nat := mpBody mp + 16

/-- The vaddr in the body of an allocated piece. -/
def loadVaddr (mem : Mem) (mapH : Nat) : Vaddr := ⟨mem.load64 mapH, mem.load64 (mapH + 8)⟩

def storeVaddr (mem : Mem) (mapH : Nat) (v : Vaddr) : Mem :=
  (mem.store64 mapH v.tableIndex).store64 (mapH + 8) v.cellIndex

/-- A word as a pointer; 0 is `NULL`. -/
def toPtr (w : Nat) : Option Nat := if w = 0 then none else some w

def sizeFreePrev (mem : Mem) (f : Nat) : Option Nat := toPtr (mem.load64 f)

def sizeFreeNext (mem : Mem) (f : Nat) : Option Nat := toPtr (mem.load64 (f + 8))

def setSizeFreePrev (mem : Mem) (f : Nat) (p : Option Nat) : Mem := mem.store64 f (p.getD 0)

def setSizeFreeNext (mem : Mem) (f : Nat) (p : Option Nat) : Mem := mem.store64 (f + 8) (p.getD 0)

/-- `round_num_bytes`, in 64-bit arithmetic. -/
def roundNumBytes (numBytes : Nat) : Nat :=
  if numBytes % 2 ≠ 0 then (numBytes + 1) % 2 ^ 64 else numBytes

/-- `pad_num_bytes`, in 64-bit arithmetic. -/
def padNumBytes (numBytes : Nat) : Nat :=
  let mapSize := (roundNumBytes numBytes + mapPadding) % 2 ^ 64
  if mapSize < mpMinSize then mpMinSize else mapSize

/-! ## The block -/

/-- `mem_block_header` and the memory; the pieces start at `start`. -/
structure MemBlock where
  start : Nat
  cap : Nat
  sizeFreeList : Option Nat
  mem : Mem

namespace MemBlock

def stop (mb : MemBlock) : Nat := mb.start + mb.cap

end MemBlock

/-- `new_mem_block`, on a buffer whose pieces will start at `start` and whose bytes are those of
`mem`. -/
def newMemBlock (start : Nat) (mem : Mem) (minBytes : Nat) : MemBlock :=
  let paddedCap := padNumBytes minBytes
  let mem := mpInit mem start paddedCap false
  let mem := setSizeFreePrev (setSizeFreeNext mem (mpBody start) none) (mpBody start) none
  { start := start, cap := paddedCap, sizeFreeList := some (mpBody start), mem := mem }

/-- `mb_free_space`. -/
def mbFreeSpace (mb : MemBlock) : Nat :=
  match mb.sizeFreeList with
  | some h => mpSize mb.mem (mpBToMp h) - mapPadding
  | none => 0

/-- The pieces that `iter = mp_next(iter)` comes to before the end of the block. -/
def mbWalk (mb : MemBlock) : Nat → Nat → Option (List Nat)
  | 0, _ => none
  | fuel + 1, iter =>
    if iter < mb.stop then (mbWalk mb fuel (mpNext mb.mem iter)).map (iter :: ·) else some []

/-- `mb_count`. -/
def mbCount (mb : MemBlock) : Option Nat :=
  (mbWalk mb (mb.cap + 1) mb.start).map (·.countP (mpAlloc mb.mem))

/-- `if (n) n->size_free_prev = p`. -/
def linkPrev (mb : MemBlock) (n p : Option Nat) : MemBlock :=
  match n with
  | some n => { mb with mem := setSizeFreePrev mb.mem n p }
  | none => mb

/-- `if (p) p->size_free_next = n; else mb_h->size_free_list = n`. -/
def linkNext (mb : MemBlock) (p n : Option Nat) : MemBlock :=
  match p with
  | some p => { mb with mem := setSizeFreeNext mb.mem p n }
  | none => { mb with sizeFreeList := n }

/-- `mb_remove_from_size_unsafe`. -/
def mbRemoveFromSize (mb : MemBlock) (mfpH : Nat) : MemBlock :=
  let mb := linkPrev mb (sizeFreeNext mb.mem mfpH) (sizeFreePrev mb.mem mfpH)
  linkNext mb (sizeFreePrev mb.mem mfpH) (sizeFreeNext mb.mem mfpH)

/-- The loop of `mb_add_to_size_unsafe`: the piece before which (`true`) or behind which (`false`)
a piece of the size is inserted. -/
def mbSeekSize (mem : Mem) (size : Nat) : Nat → Nat → Option (Nat × Bool)
  | 0, _ => none
  | fuel + 1, iter =>
    if mpSize mem (mpBToMp iter) > size then
      match sizeFreeNext mem iter with
      | none => some (iter, false)
      | some nextIter => mbSeekSize mem size fuel nextIter
    else some (iter, true)

/-- `mb_add_to_size_unsafe`. -/
def mbAddToSize (mb : MemBlock) (mp : Nat) : Option MemBlock :=
  let mfpH := mpBody mp
  match mb.sizeFreeList with
  | none =>
    some { mb with
      sizeFreeList := some mfpH
      mem := setSizeFreeNext (setSizeFreePrev mb.mem mfpH none) mfpH none }
  | some iter =>
    match mbSeekSize mb.mem (mpSize mb.mem mp) mb.cap iter with
    | none => none
    | some (iter, false) =>
      let mem := setSizeFreeNext mb.mem iter (some mfpH)
      some { mb with mem := setSizeFreeNext (setSizeFreePrev mem mfpH (some iter)) mfpH none }
    | some (iter, true) =>
      let mb := linkNext mb (sizeFreePrev mb.mem iter) (some mfpH)
      let mem := setSizeFreeNext mb.mem mfpH (some iter)
      let mem := setSizeFreePrev mem mfpH (sizeFreePrev mem iter)
      some { mb with mem := setSizeFreePrev mem iter (some mfpH) }

/-- The piece in front of `mp`, when there is one and it is free. -/
def mbPrevFree (mb : MemBlock) (mp : Nat) : Option Nat :=
  if mb.start < mp then
    if mpAlloc mb.mem (mpPrev mb.mem mp) then none else some (mpPrev mb.mem mp)
  else none

/-- The piece behind `mp`, when there is one and it is free. -/
def mbNextFree (mb : MemBlock) (mp : Nat) : Option Nat :=
  if mpNext mb.mem mp < mb.stop then
    if mpAlloc mb.mem (mpNext mb.mem mp) then none else some (mpNext mb.mem mp)
  else none

/-- A free neighbour leaves the size free list, and its size is added. -/
def mbAbsorb (mb : MemBlock) (newSize : Nat) : Option Nat → MemBlock × Nat
  | some mp =>
    let mb := mbRemoveFromSize mb (mpBody mp)
    (mb, newSize + mpSize mb.mem mp)
  | none => (mb, newSize)

/-- `mb_coalesce_unsafe`. -/
def mbCoalesce (mb : MemBlock) (mp : Nat) : Option MemBlock :=
  let prev := mbPrevFree mb mp
  let next := mbNextFree mb mp
  let (mb, newSize) := mbAbsorb mb (mpSize mb.mem mp) prev
  let (mb, newSize) := mbAbsorb mb newSize next
  let newFree := prev.getD mp
  mbAddToSize { mb with mem := mpInit mb.mem newFree newSize false } newFree

/-- `mb_free`. -/
def mbFree (mb : MemBlock) (adb : AddrBook) (t : Tid) (v : Vaddr) : Option (MemBlock × AddrBook) :=
  match adb.adbGetRead t v with
  | none => none
  | some (paddr, adb) =>
    match (adb.adbUnlock t v).bind (·.adbFree v) with
    | none => none
    | some adb => (mbCoalesce mb (mapBToMp paddr)).map fun mb => (mb, adb)

/-- `malloc_res`. -/
structure MallocRes where
  paddr : Option Nat
  vaddr : Vaddr
deriving DecidableEq, Repr

/-- The pop of `mb_malloc_p` off the front of the size free list. -/
def mbPopFront (mb : MemBlock) (bigFreeH : Nat) : MemBlock :=
  let mb := { mb with sizeFreeList := sizeFreeNext mb.mem bigFreeH }
  linkPrev mb (sizeFreeNext mb.mem bigFreeH) none

/-- The cut of `mb_malloc_p`: the popped piece is divided when the rest is large enough to be one. -/
def mbCut (mb : MemBlock) (bigFree bigFreeSize minSize : Nat) : Option MemBlock :=
  let cutSize := bigFreeSize - minSize
  if cutSize < mpMinSize then some { mb with mem := mpInit mb.mem bigFree bigFreeSize true }
  else
    let newFree := bigFree + minSize
    (mbAddToSize { mb with mem := mpInit mb.mem newFree cutSize false } newFree).map fun mb =>
      { mb with mem := mpInit mb.mem bigFree minSize true }

/-- `mb_malloc_p`. -/
def mbMallocP (mb : MemBlock) (adb : AddrBook) (t : Tid) (minBytes : Nat) (hold : Bool) :
    Option (MallocRes × MemBlock × AddrBook) :=
  if minBytes = 0 then some (⟨none, nullVaddr⟩, mb, adb)
  else
    let minSize := padNumBytes minBytes
    match mb.sizeFreeList with
    | none => some (⟨none, nullVaddr⟩, mb, adb)
    | some bigFreeH =>
      let bigFree := mpBToMp bigFreeH
      let bigFreeSize := mpSize mb.mem bigFree
      if bigFreeSize < minSize then some (⟨none, nullVaddr⟩, mb, adb)
      else
        match mbCut (mbPopFront mb bigFreeH) bigFree bigFreeSize minSize,
          adb.adbPutP t (mpToMapB bigFree) hold 2 with
        | some mb, some (vaddr, adb) =>
          some (⟨if hold then some (mpToMapB bigFree) else none, vaddr⟩,
            { mb with mem := storeVaddr mb.mem (mpBody bigFree) vaddr }, adb)
        | _, _ => none

/-- `mb_shift_res`. -/
inductive MbShiftRes
  | notNeeded
  | busy
  | success
deriving DecidableEq, Repr

/-- The search of `mb_try_shift` along the free list; `some none` is a search that locked nothing. -/
def mbSeekShift (mb : MemBlock) (adb : AddrBook) (t : Tid) :
    Nat → Option Nat → Option (Option (Nat × Vaddr × AddrBook))
  | 0, _ => none
  | _ + 1, none => some none
  | fuel + 1, some ogFreeH =>
    let ogNext := mpNext mb.mem (mpBToMp ogFreeH)
    if ogNext < mb.stop && mpAlloc mb.mem ogNext then
      let vaddr := loadVaddr mb.mem (mpBody ogNext)
      match adb.adbTryGetWrite t vaddr with
      | none => none
      | some (some (_, adb)) => some (some (ogFreeH, vaddr, adb))
      | some none => mbSeekShift mb adb t fuel (sizeFreeNext mb.mem ogFreeH)
    else mbSeekShift mb adb t fuel (sizeFreeNext mb.mem ogFreeH)

/-- The end of `mb_try_shift`, with the moved piece's new free piece: it is merged with the piece
behind it, or takes the place of the old one in the free list. -/
def mbShiftFree (mb : MemBlock) (newFree ogFreeSize ogNextNext : Nat) (prevH nextH : Option Nat) :
    Option MemBlock :=
  if ogNextNext < mb.stop && !mpAlloc mb.mem ogNextNext then
    let size := ogFreeSize + mpSize mb.mem ogNextNext
    let mb := mbRemoveFromSize mb (mpBody ogNextNext)
    mbAddToSize { mb with mem := mpInit mb.mem newFree size false } newFree
  else
    let newFreeH := mpBody newFree
    let mem := mpInit mb.mem newFree ogFreeSize false
    let mem := setSizeFreeNext (setSizeFreePrev mem newFreeH prevH) newFreeH nextH
    let mb := linkNext { mb with mem := mem } prevH (some newFreeH)
    some (linkPrev mb nextH (some newFreeH))

/-- `mb_try_shift`. -/
def mbTryShift (mb : MemBlock) (adb : AddrBook) (t : Tid) :
    Option (MbShiftRes × MemBlock × AddrBook) :=
  match mb.sizeFreeList with
  | none => some (.notNeeded, mb, adb)
  | some h =>
    if sizeFreeNext mb.mem h = none ∧ mb.stop ≤ mpNext mb.mem (mpBToMp h) then
      some (.notNeeded, mb, adb)
    else
      match mbSeekShift mb adb t (mb.cap + 1) (some h) with
      | none => none
      | some none => some (.busy, mb, adb)
      | some (some (ogFreeH, vaddr, adb)) =>
        let ogFree := mpBToMp ogFreeH
        let ogNext := mpNext mb.mem ogFree
        let ogFreeSize := mpSize mb.mem ogFree
        let ogNextSize := mpSize mb.mem ogNext
        let ogNextNext := mpNext mb.mem ogNext
        let nextH := sizeFreeNext mb.mem ogFreeH
        let prevH := sizeFreePrev mb.mem ogFreeH
        let mb := mbRemoveFromSize mb ogFreeH
        match adb.adbMoveP mb.mem vaddr (ogFreeH + 16) (ogNextSize - mapPadding) with
        | none => none
        | some (mem, adb) =>
          match adb.adbUnlock t vaddr with
          | none => none
          | some adb =>
            let mem := mpInit mem ogFree ogNextSize true
            let newFree := mpNext mem ogFree
            (mbShiftFree { mb with mem := mem } newFree ogFreeSize ogNextNext prevH nextH).map
              fun mb => (.success, mb, adb)

end Chvm.Mb
