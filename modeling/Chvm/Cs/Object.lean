import Chvm.Lib.Wire
import Chvm.Cs.Buffers
import Chvm.Ms.Owner

/-!
# An object in its piece (`cs_malloc_p`)

The size of an object is added up in `cs.c`, `ms.c` and `mb.c`, in 64-bit arithmetic that nobody
checks. Here `cs_malloc_p` runs on the bytes of the memory space, and its object lies in the piece it
got exactly when the whole sum, the header of a block included, fits a word.
-/

set_option autoImplicit false

namespace Chvm.Cs

open Chvm.Lib Chvm.Virt Chvm.Mb Chvm.Ms

/-! ## `cs_malloc_p` -/

/-- Bytes are written behind each other; `none` leaves the blocks. -/
def storeBytes : MemSpace → Nat → List UInt8 → Option MemSpace
  | ms, _, [] => some ms
  | ms, a, byte :: bytes => (ms.setByte a byte).bind fun ms => storeBytes ms (a + 1) bytes

/-- What `cs_malloc_p` writes: `GC_NEWLY_ADDED`, the two lengths, and `NULL_VADDR` in each reference. -/
def objInit (rtLen daSize : Nat) : List UInt8 :=
  le 4 0 ++ (le 8 rtLen ++ (le 8 daSize ++ List.replicate (addrBookVaddrSize * rtLen) 255))

/-- `cs_malloc_p`, with the buffer of a new block; `none` also stands for the null pointer it writes
through when the memory space was asked for nothing. -/
def csMallocP (ms : MemSpace) (t : Tid) (rtLen daSize : Nat) (hold : Bool) (addr : Nat) (mem : Mem) :
    Option (MallocRes × MemSpace) :=
  match msMallocP ms t (objBytes rtLen daSize) true addr mem with
  | some (⟨some paddr, vaddr⟩, ms) =>
    match storeBytes ms paddr (objInit rtLen daSize) with
    | none => none
    | some ms =>
      if hold then some (⟨some paddr, vaddr⟩, ms)
      else (ms.adb.adbUnlock t vaddr).map fun adb => (⟨none, vaddr⟩, { ms with adb := adb })
  | _ => none

/-! ## What is promised -/

/-- The bytes of an object, with its pre-header. -/
def objSize (rtLen daSize : Nat) : Nat := 4 + 16 + addrBookVaddrSize * rtLen + daSize

/-- All that is added to them on the way to the host: the header of `ms.c`, the rounding and the padding
of `mb.c`, and the header of a new block. -/
def totalSize (rtLen daSize : Nat) : Nat :=
  let n := objSize rtLen daSize + mallocHeaderSize
  memBlockHeaderSize + (n + n % 2 + mapPadding)

/-- The byte at an address in one of the blocks. -/
def byteAt (ms : MemSpace) (a : Nat) : Option UInt8 :=
  (ms.mbList[ms.mbList.findIdx (·.contains a)]?).map (·.mb.mem.byte a)

/-- The object of `v` at `paddr` lies in the piece `mp` that `mb_malloc_p` made in the block `b`, behind
the header of the memory space, and nothing else was written after that (`ms'`). -/
structure ObjectIn (ms ms' : MemSpace) (v : Vaddr) (paddr rtLen daSize : Nat) (b : SpaceBlock) (mp : Nat) :
    Prop where
  mem : b ∈ ms.mbList
  cell : ∃ c, ms.adb.entry v = some c ∧ c.paddr = mpToMapB mp
  header : paddr = mpToMapB mp + mallocHeaderSize
  piece : b.addr + memBlockHeaderSize ≤ mp ∧ mp + mpSize b.mb.mem mp ≤ b.addr + b.size
  room : mallocHeaderSize + objSize rtLen daSize ≤ mpSize b.mb.mem mp - mapPadding
  writes : ∀ a, a < paddr ∨ paddr + objSize rtLen daSize ≤ a → byteAt ms' a = byteAt ms a

variable {ms ms' ms₁ : MemSpace} {bs : List SpaceBlock} {b b' : SpaceBlock} {adb adb' : AddrBook} {t : Tid}
  {v : Vaddr} {n a rtLen daSize : Nat} {hold : Bool} {res : MallocRes} {s : MsSys}

/-! ## The bytes that are written -/

/-- A block that is changed inside its buffer is found where it was. -/
theorem findIdx_set (b' : SpaceBlock) {i : Nat} (hb : bs[i]? = some b) (haddr : b'.addr = b.addr)
    (hsize : b'.size = b.size)
    (a : Nat) : (bs.set i b').findIdx (·.contains a) = bs.findIdx (·.contains a) := by
  have hcontains : b'.contains a = b.contains a := by
    unfold SpaceBlock.contains
    rw [haddr, hsize]
  have hmap : (bs.set i b').map (·.contains a) = bs.map (·.contains a) := by
    rw [List.map_set, hcontains]
    apply List.ext_getElem?
    intro j
    rw [List.getElem?_set]
    split
    next heq =>
      subst heq
      rw [List.getElem?_map, hb, if_pos]
      · rfl
      · rw [List.length_map]
        exact (List.getElem?_eq_some_iff.mp hb).1
    next => rfl
  have hid : ∀ l : List SpaceBlock, l.findIdx (·.contains a) = (l.map (·.contains a)).findIdx id :=
    fun l => (List.findIdx_map l _ id).symm
  rw [hid, hid, hmap]

theorem byteAt_setByte {byte : UInt8} {x : Nat} (h : ms.setByte a byte = some ms') (hne : x ≠ a) :
    byteAt ms' x = byteAt ms x := by
  unfold MemSpace.setByte at h
  obtain ⟨b, hb, rfl⟩ := Option.map_eq_some_iff.mp h
  have hfind := findIdx_set { b with mb := { b.mb with mem := b.mb.mem.setByte a byte } } hb rfl rfl x
  unfold byteAt
  simp only
  rw [hfind, List.getElem?_set]
  split
  next heq =>
    rw [← heq, hb, if_pos (List.getElem?_eq_some_iff.mp hb).1]
    simp only [Option.map_some, Mem.byte_setByte, if_neg hne]
  next => rfl

theorem byteAt_storeBytes {bytes : List UInt8} {x : Nat} (h : storeBytes ms a bytes = some ms')
    (hx : x < a ∨ a + bytes.length ≤ x) : byteAt ms' x = byteAt ms x := by
  induction bytes generalizing ms a with
  | nil =>
    cases h
    rfl
  | cons byte bytes ih =>
    obtain ⟨ms₁, hset, hrest⟩ := Option.bind_eq_some_iff.mp h
    rw [List.length_cons] at hx
    rw [ih hrest (by omega), byteAt_setByte hset (by omega)]

theorem length_objInit : (objInit rtLen daSize).length = 4 + 16 + addrBookVaddrSize * rtLen := by
  simp only [objInit, List.length_append, length_le, List.length_replicate]
  omega

/-! ## The buffers of the blocks -/

/-- The buffers lie in the address space. -/
def InSpace (bs : List SpaceBlock) : Prop := ∀ b ∈ bs, 0 < b.addr ∧ b.addr + b.size < 2 ^ 64

theorem InSpace.set (h : InSpace bs) {i : Nat} (hb : bs[i]? = some b) (haddr : b'.addr = b.addr)
    (hsize : b'.size = b.size) : InSpace (bs.set i b') := by
  intro c hc
  rcases mem_set_cases hb hc with rfl | ⟨j, -, hj⟩
  · rw [haddr, hsize]
    exact h b (List.mem_of_getElem? hb)
  · exact h c (List.mem_of_getElem? hj)

theorem msInterpretMallocRes_buffer {res' : MallocRes}
    (h : msInterpretMallocRes adb t b res hold = some (res', b', adb')) :
    b'.addr = b.addr ∧ b'.size = b.size := by
  unfold msInterpretMallocRes at h
  split at h
  · cases h
  · split at h
    · cases h
      exact ⟨rfl, rfl⟩
    · obtain ⟨adb₁, -, heq⟩ := Option.map_eq_some_iff.mp h
      cases heq
      exact ⟨rfl, rfl⟩

theorem msMallocIn_buffer (h : msMallocIn adb t b n hold = some (res, b', adb')) :
    b'.addr = b.addr ∧ b'.size = b.size := by
  unfold msMallocIn at h
  split at h
  · cases h
  · split at h
    · cases h
      exact ⟨rfl, rfl⟩
    · obtain ⟨haddr, hsize⟩ := msInterpretMallocRes_buffer h
      exact ⟨haddr, hsize⟩

theorem msThrow_inSpace {numThrows : Nat} (hspace : InSpace ms.mbList)
    (h : msThrow t n hold numThrows ms = some (res, ms')) : InSpace ms'.mbList := by
  induction numThrows generalizing ms with
  | zero =>
    cases h
    exact hspace
  | succ numThrows ih =>
    unfold msThrow at h
    obtain ⟨rnd, seed, hrnd⟩ : ∃ rnd seed, msNextRnd ms = (rnd, { ms with seed := seed }) := ⟨_, _, rfl⟩
    rw [hrnd] at h
    simp only at h
    split at h
    · cases h
    next b hb =>
      split at h
      · cases h
      next res₁ b₁ adb₁ hin =>
        obtain ⟨haddr, hsize⟩ := msMallocIn_buffer hin
        have hset : InSpace (ms.mbList.set (rnd % ms.mbList.length) b₁) := hspace.set hb haddr hsize
        split at h
        · exact ih hset h
        · cases h
          exact hset

theorem msGrow_inSpace {addr : Nat} {mem : Mem} (hspace : InSpace ms.mbList)
    (h : msGrow ms t n hold addr mem = some (res, ms')) : InSpace ms'.mbList := by
  unfold msGrow at h
  generalize (if n > ms.mbMinBytes then n else ms.mbMinBytes) = reqBytes at h
  simp only at h
  split at h
  next hgives =>
    split at h
    · cases h
    next res₁ mb adb₁ hmalloc =>
      split at h
      · cases h
      next res₂ b adb₂ hinterpret =>
        cases h
        obtain ⟨haddr, hsize⟩ := msInterpretMallocRes_buffer hinterpret
        intro c hc
        rcases List.mem_append.mp hc with hc | hc
        · exact hspace c hc
        · rw [List.mem_singleton.mp hc, haddr, hsize]
          exact ⟨hgives.1, hgives.2.1⟩
  next => cases h

/-- A malloc of any size, also of one that wraps. -/
theorem msMallocP_inSpace {addr : Nat} {mem : Mem} (hspace : InSpace ms.mbList)
    (h : msMallocP ms t n hold addr mem = some (res, ms')) : InSpace ms'.mbList := by
  unfold msMallocP at h
  simp only at h
  split at h
  · cases h
    exact hspace
  · split at h
    · cases h
    next res₁ ms₁ hthrow =>
      have hspace₁ := msThrow_inSpace hspace hthrow
      split at h
      · exact msGrow_inSpace hspace₁ h
      · cases h
        exact hspace₁

/-! ## The object and its piece -/

theorem mpSize_even (mem : Mem) (mp : Nat) : mpSize mem mp % 2 = 0 := by
  unfold mpSize tagSize
  omega

/-- A piece with room for the object bounds the whole sum. -/
theorem ObjectIn.total_lt {paddr mp : Nat} (h : ObjectIn ms ms' v paddr rtLen daSize b mp)
    (hspace : InSpace ms.mbList) : totalSize rtLen daSize < 2 ^ 64 := by
  obtain ⟨hpos, hlt⟩ := hspace b h.mem
  have heven := mpSize_even b.mb.mem mp
  have hpiece := h.piece
  have hroom := h.room
  have hheader : mallocHeaderSize = 8 := rfl
  have hpad : mapPadding = 32 := rfl
  have hblock : memBlockHeaderSize = 224 := rfl
  unfold totalSize
  simp only
  omega

theorem objSize_pos : 20 ≤ objSize rtLen daSize := by
  unfold objSize
  omega

/-- A sum that fits a word wraps nowhere. -/
theorem fits_of_total (h : totalSize rtLen daSize < 2 ^ 64) :
    objBytes rtLen daSize = objSize rtLen daSize ∧ objSize rtLen daSize + mallocHeaderSize + 33 < 2 ^ 64 ∧
      FitsBlock (objSize rtLen daSize + mallocHeaderSize) := by
  have hheader : mallocHeaderSize = 8 := rfl
  have hpad : mapPadding = 32 := rfl
  have hblock : memBlockHeaderSize = 224 := rfl
  have hpos : 20 ≤ objSize rtLen daSize := objSize_pos
  unfold totalSize at h
  simp only at h
  refine ⟨Nat.mod_eq_of_lt (show objSize rtLen daSize < 2 ^ 64 by omega), by omega, ?_⟩
  have hpadded : padNumBytes (objSize rtLen daSize + mallocHeaderSize) =
      objSize rtLen daSize + mallocHeaderSize + (objSize rtLen daSize + mallocHeaderSize) % 2 + 32 := by
    unfold padNumBytes roundNumBytes mpMinSize mapPadding mfpPadding mpPadding
    simp only
    split <;> split <;> omega
  unfold FitsBlock
  rw [hpadded]
  omega

/-- What `cs_malloc_p` did: it got a piece, and wrote the object's start in it. -/
theorem csMallocP_cases {addr : Nat} {mem : Mem}
    (h : csMallocP ms t rtLen daSize hold addr mem = some (res, ms')) :
    ∃ paddr ms₁ ms₂, msMallocP ms t (objBytes rtLen daSize) true addr mem =
        some (⟨some paddr, res.vaddr⟩, ms₁) ∧
      storeBytes ms₁ paddr (objInit rtLen daSize) = some ms₂ ∧ ms'.mbList = ms₂.mbList := by
  unfold csMallocP at h
  split at h
  next paddr vaddr ms₁ hmalloc =>
    split at h
    · cases h
    next ms₂ hstore =>
      split at h
      · cases h
        exact ⟨paddr, ms₁, ms', hmalloc, hstore, rfl⟩
      · obtain ⟨adb, -, heq⟩ := Option.map_eq_some_iff.mp h
        cases heq
        exact ⟨paddr, ms₁, ms₂, hmalloc, hstore, rfl⟩
  · cases h

/-- **Objects fit in their allocation.** In every reachable state, whenever `cs_malloc_p` returns the
object lies in its piece, and is all that was written, exactly when the sum of the sizes fits a word. -/
theorem objects_fit {seed adbTCap mbMBytes addr₀ addr : Nat} {mem₀ mem : Mem} {ms₀ : MemSpace}
    (hcap : adbTCap < 2 ^ 64) (hpad : mbMBytes + 33 < 2 ^ 64) (hblock : FitsBlock mbMBytes)
    (hnew : newMemSpaceSeed seed adbTCap mbMBytes addr₀ mem₀ = some ms₀)
    (hreach : Reaches msStep (fun s a => Ms.usesLive s a ∧ requestFits a) (MsSys.new ms₀) s)
    (h : csMallocP s.ms t rtLen daSize hold addr mem = some (res, ms')) :
    ∃ paddr ms₁, msMallocP s.ms t (objBytes rtLen daSize) true addr mem =
        some (⟨some paddr, res.vaddr⟩, ms₁) ∧
      ((∃ b mp, ObjectIn ms₁ ms' res.vaddr paddr rtLen daSize b mp) ↔ totalSize rtLen daSize < 2 ^ 64) := by
  obtain ⟨owner, content, hinv⟩ := msSound_reach hcap hpad hblock hnew hreach
  obtain ⟨paddr, ms₁, ms₂, hmalloc, hstore, hlist⟩ := csMallocP_cases h
  have hplaced : InSpace s.ms.mbList := fun b hb =>
    ⟨(hinv.placed.buffer b hb).1, (hinv.placed.buffer b hb).2.1⟩
  refine ⟨paddr, ms₁, hmalloc, fun ⟨b, mp, hobj⟩ => hobj.total_lt (msMallocP_inSpace hplaced hmalloc),
    fun htotal => ?_⟩
  obtain ⟨hbytes, hn, hfits⟩ := fits_of_total htotal
  rw [hbytes] at hmalloc
  have hpos : 20 ≤ objSize rtLen daSize := objSize_pos
  rcases hinv.malloc hn hfits hmalloc with ⟨hzero, -⟩ | hmalloced
  · omega
  obtain ⟨c, hc, hpaddr⟩ := hmalloced.entry
  obtain ⟨owner', content', hinv'⟩ := hmalloced.sound
  obtain ⟨i, b, ps, l, p, c', hb, -, hpart, hp, hkind, hc', hpaddr', hroom⟩ :=
    hinv'.piece (v := res.vaddr) List.mem_cons_self
  cases hc.symm.trans hc'
  have hmem : p ∈ ps ++ [] := List.mem_append_left _ hp
  have hsize := (hpart.block.laid.kept p hmem).size (hpart.block.laid.fit p hmem)
  obtain ⟨-, -, hstart, hstop⟩ := hinv'.placed.buffer b (List.mem_of_getElem? hb)
  obtain ⟨hlow, -, hhigh⟩ := hpart.block.laid.tiles.mem hp
  have hmb : (MsSys.part (s.malloced ms₁ t (objSize rtLen daSize) ⟨some paddr, res.vaddr⟩) owner' content'
    b).mb = b.mb := rfl
  rw [hmb] at hsize hlow hhigh
  unfold MsSys.malloced at hroom
  simp only [Function.update_self] at hroom
  refine ⟨b, p.addr, List.mem_of_getElem? hb, ⟨c, hc, hpaddr'⟩, ?_, ?_, ?_, fun a ha => ?_⟩
  · rw [if_pos rfl] at hpaddr
    rw [← hpaddr']
    exact Option.some.inj hpaddr
  · rw [hsize]
    unfold Span.stop at hhigh
    omega
  · rw [hsize]
    omega
  · have hbyte := byteAt_storeBytes hstore (x := a) (by
      rw [length_objInit]
      unfold objSize at ha
      omega)
    unfold byteAt at hbyte ⊢
    rw [hlist]
    exact hbyte

/-- An object with one reference and four bytes, in a new space with blocks of 100 bytes. -/
theorem objects_fit_fresh : ∃ ms₀ res ms' paddr ms₁ b mp,
    newMemSpaceSeed 1 2 100 4096 ⟨fun _ => 0⟩ = some ms₀ ∧
    csMallocP ms₀ 0 1 4 true 8192 ⟨fun _ => 0⟩ = some (res, ms') ∧
    msMallocP ms₀ 0 (objBytes 1 4) true 8192 ⟨fun _ => 0⟩ = some (⟨some paddr, res.vaddr⟩, ms₁) ∧
    ObjectIn ms₁ ms' res.vaddr paddr 1 4 b mp := by
  obtain ⟨ms₀, res, ms', hnew, hmalloc⟩ : ∃ ms₀ res ms',
      newMemSpaceSeed 1 2 100 4096 ⟨fun _ => 0⟩ = some ms₀ ∧
      csMallocP ms₀ 0 1 4 true 8192 ⟨fun _ => 0⟩ = some (res, ms') := ⟨_, _, _, rfl, rfl⟩
  obtain ⟨paddr, ms₁, hms, hiff⟩ := objects_fit (by decide) (by decide) (show FitsBlock 100 by decide) hnew
    (.refl _) hmalloc
  obtain ⟨b, mp, hobj⟩ := hiff.mpr (by decide)
  exact ⟨ms₀, res, ms', paddr, ms₁, b, mp, hnew, hmalloc, hms, hobj⟩

/-- An object with no reference and 2^64 - 1 bytes of data gets a piece for 19: the sum has wrapped. -/
theorem wrapped_object : ∃ ms₀ res ms' paddr ms₁,
    newMemSpaceSeed 1 2 100 4096 ⟨fun _ => 0⟩ = some ms₀ ∧
    csMallocP ms₀ 0 0 (2 ^ 64 - 1) true 8192 ⟨fun _ => 0⟩ = some (res, ms') ∧
    objBytes 0 (2 ^ 64 - 1) = 19 ∧
    msMallocP ms₀ 0 19 true 8192 ⟨fun _ => 0⟩ = some (⟨some paddr, res.vaddr⟩, ms₁) ∧
    ms₁.mbList.map (·.size) = [356] ∧ ¬∃ b mp, ObjectIn ms₁ ms' res.vaddr paddr 0 (2 ^ 64 - 1) b mp := by
  have hbytes : objBytes 0 (2 ^ 64 - 1) = 19 := by decide
  have hinit : objInit 0 (2 ^ 64 - 1) = List.replicate 12 0 ++ List.replicate 8 255 := by decide
  obtain ⟨ms₀, v, paddr, ms₁, ms', hnew, hms, hsizes, hstore⟩ : ∃ ms₀ v paddr ms₁ ms',
      newMemSpaceSeed 1 2 100 4096 ⟨fun _ => 0⟩ = some ms₀ ∧
      msMallocP ms₀ 0 19 true 8192 ⟨fun _ => 0⟩ = some (⟨some paddr, v⟩, ms₁) ∧
      ms₁.mbList.map (·.size) = [356] ∧
      storeBytes ms₁ paddr (List.replicate 12 0 ++ List.replicate 8 255) = some ms' :=
    ⟨_, _, _, _, _, rfl, rfl, rfl, rfl⟩
  have hmalloc : csMallocP ms₀ 0 0 (2 ^ 64 - 1) true 8192 ⟨fun _ => 0⟩ = some (⟨some paddr, v⟩, ms') := by
    unfold csMallocP
    rw [hbytes, hinit, hms]
    simp only [hstore, if_true]
  refine ⟨ms₀, ⟨some paddr, v⟩, ms', paddr, ms₁, hnew, hmalloc, hbytes, hms, hsizes, ?_⟩
  rintro ⟨b, mp, hobj⟩
  have hmem : b.size ∈ ms₁.mbList.map (·.size) := List.mem_map.mpr ⟨b, hobj.mem, rfl⟩
  rw [hsizes, List.mem_singleton] at hmem
  have hroom := hobj.room
  have hpiece := hobj.piece
  have hsize : objSize 0 (2 ^ 64 - 1) = 2 ^ 64 + 19 := rfl
  omega

end Chvm.Cs
