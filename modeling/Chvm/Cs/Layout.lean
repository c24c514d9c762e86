import Chvm.Lib.Cells
import Chvm.Cs.Object
import Chvm.Cs.Space
import Chvm.Ms.Filter

/-!
# The bytes of an object

`obj_pre_header`, `obj_header`, the reference table and the data array lie behind each other without
padding: the status in four bytes, the two lengths in eight each, sixteen bytes for a reference. Here
the bytes are read back as the object, and each write of `cs.c` and of a user changes the one field that
it is meant for.
-/

set_option autoImplicit false

namespace Chvm.Cs

open Chvm.Lib Chvm.Ms

/-- The value of a `gc_status_code`. -/
def GcStatus.code : GcStatus → Nat
  | .newlyAdded => 0
  | .unvisited => 1
  | .inProgress => 2
  | .visited => 3

/-- The status of a value; `cs.c` writes no other than the four. -/
def GcStatus.ofCode : Nat → GcStatus
  | 0 => .newlyAdded
  | 1 => .unvisited
  | 2 => .inProgress
  | _ => .visited

/-- `sizeof(obj_pre_header)`, where the `obj_header` is. -/
def objPreHeaderSize : Nat := 4

/-- Where the reference table is. -/
def rtOffset : Nat := objPreHeaderSize + 16

/-- Where the data array is. -/
def daOffset (rtLen : Nat) : Nat := rtOffset + rtLen * addrBookVaddrSize

/-- The object as it lies in memory. -/
def Obj.encode (o : Obj) : List UInt8 :=
  le objPreHeaderSize o.gcStatus.code ++ (le 8 o.rt.length ++ (le 8 o.da.length ++
    (o.rt.flatMap vaddrBytes ++ o.da)))

/-- The two lengths in the `obj_header`. -/
def rtLenOf (bytes : List UInt8) : Nat := ofLe ((bytes.drop objPreHeaderSize).take 8)

def daSizeOf (bytes : List UInt8) : Nat := ofLe ((bytes.drop (objPreHeaderSize + 8)).take 8)

/-- The object in those bytes. -/
def Obj.decode (bytes : List UInt8) : Obj where
  gcStatus := .ofCode (ofLe (bytes.take objPreHeaderSize))
  rt := (cellsOf addrBookVaddrSize (rtLenOf bytes) (bytes.drop rtOffset)).map ofVaddrBytes
  da := (bytes.drop (daOffset (rtLenOf bytes))).take (daSizeOf bytes)

/-- The indices of a vaddr are words. -/
def Word (v : Vaddr) : Prop := v.tableIndex < 2 ^ 64 ∧ v.cellIndex < 2 ^ 64

instance (v : Vaddr) : Decidable (Word v) :=
  inferInstanceAs (Decidable (v.tableIndex < 2 ^ 64 ∧ v.cellIndex < 2 ^ 64))

/-- The numbers of the object are words. -/
structure Obj.Fits (o : Obj) : Prop where
  rt : o.rt.length < 2 ^ 64
  da : o.da.length < 2 ^ 64
  refs : ∀ v ∈ o.rt, Word v

variable {o : Obj} {i rtLen daSize : Nat} {v : Vaddr} {b : UInt8} {bytes : List UInt8} {st : GcStatus}

@[simp] theorem GcStatus.ofCode_code (st : GcStatus) : ofCode st.code = st := by
  cases st <;> rfl

theorem GcStatus.code_lt (st : GcStatus) : st.code < 256 ^ objPreHeaderSize := by
  cases st <;> decide

/-- The test of a status is one of its code. -/
theorem GcStatus.code_eq_iff {st st' : GcStatus} : st.code = st'.code ↔ st = st' := by
  refine ⟨fun h => ?_, fun h => h ▸ rfl⟩
  rw [← GcStatus.ofCode_code st, h, GcStatus.ofCode_code]

theorem Obj.Fits.mark (h : o.Fits) (st : GcStatus) : Obj.Fits
    { o with gcStatus := st } := ⟨h.rt, h.da, h.refs⟩

theorem Obj.Fits.storeRef (h : o.Fits) (hv : Word v) : Obj.Fits { o with rt := o.rt.set i v } := by
  refine ⟨?_, h.da, fun w hw => ?_⟩
  · rw [List.length_set]
    exact h.rt
  · rcases List.mem_or_eq_of_mem_set hw with hw | rfl
    · exact h.refs w hw
    · exact hv

theorem Obj.Fits.storeByte (h : o.Fits) : Obj.Fits { o with da := o.da.set i b } := by
  refine ⟨h.rt, ?_, h.refs⟩
  rw [List.length_set]
  exact h.da

/-- The two lengths of an object whose sizes add up to a word. -/
theorem lt_of_total (h : totalSize rtLen daSize < 2 ^ 64) : rtLen < 2 ^ 64 ∧ daSize < 2 ^ 64 := by
  have hvaddr : addrBookVaddrSize = 16 := rfl
  unfold totalSize objSize at h
  rw [hvaddr] at h
  simp only at h
  omega

theorem length_refs (rt : List Vaddr) : (rt.flatMap vaddrBytes).length = rt.length * addrBookVaddrSize :=
  length_flatMap_const fun v _ => length_vaddrBytes v

theorem length_encode (o : Obj) : o.encode.length = objSize o.rt.length o.da.length := by
  simp only [Obj.encode, List.length_append, length_le, length_refs, objPreHeaderSize, objSize]
  rw [Nat.mul_comm addrBookVaddrSize]
  omega

/-- The bytes behind the headers. -/
theorem drop_rtOffset (o : Obj) : o.encode.drop rtOffset = o.rt.flatMap vaddrBytes ++ o.da := by
  rw [show rtOffset = objPreHeaderSize + (8 + 8) from rfl, ← List.drop_drop, ← List.drop_drop, Obj.encode,
    List.drop_left' (length_le ..), List.drop_left' (length_le ..), List.drop_left' (length_le ..)]

theorem take_status (o : Obj) : o.encode.take objPreHeaderSize = le objPreHeaderSize o.gcStatus.code :=
  List.take_left' (length_le ..)

theorem rtLenOf_encode (h : o.rt.length < 2 ^ 64) : rtLenOf o.encode = o.rt.length := by
  rw [rtLenOf, Obj.encode, List.drop_left' (length_le ..), List.take_left' (length_le ..)]
  exact ofLe_le h

theorem daSizeOf_encode (h : o.da.length < 2 ^ 64) : daSizeOf o.encode = o.da.length := by
  rw [daSizeOf, ← List.drop_drop, Obj.encode, List.drop_left' (length_le ..), List.drop_left' (length_le ..),
    List.take_left' (length_le ..)]
  exact ofLe_le h

/-- The bytes of a reference. -/
theorem cellAt_encode (hv : o.rt[i]? = some v) :
    cellAt addrBookVaddrSize (o.encode.drop rtOffset) i = vaddrBytes v := by
  have hblock := cellAt_flatMap (k := addrBookVaddrSize) length_vaddrBytes hv
  have hlt := (List.getElem?_eq_some_iff.mp hv).1
  have hle : (i + 1) * addrBookVaddrSize ≤ o.rt.length * addrBookVaddrSize := Nat.mul_le_mul_right _ hlt
  rw [Nat.succ_mul] at hle
  rw [drop_rtOffset, ← hblock, cellAt, cellAt, List.drop_append_of_le_length (by rw [length_refs]; omega),
    List.take_append_of_le_length (by rw [List.length_drop, length_refs]; omega)]

/-- **Round trip.** -/
theorem Obj.decode_encode (h : o.Fits) : Obj.decode o.encode = o := by
  have hrt : (cellsOf addrBookVaddrSize o.rt.length (o.encode.drop rtOffset)).map ofVaddrBytes = o.rt := by
    refine List.ext_getElem? fun i => ?_
    rw [List.getElem?_map]
    by_cases hi : i < o.rt.length
    · have hv : o.rt[i]? = some o.rt[i] := List.getElem?_eq_getElem hi
      rw [getElem?_cellsOf hi, Option.map_some, cellAt_encode hv, hv,
        ofVaddrBytes_vaddrBytes (h.refs _ (List.getElem_mem hi))]
    · rw [List.getElem?_eq_none (by rw [length_cellsOf]; omega), List.getElem?_eq_none (by omega)]
      rfl
  have hda : (o.encode.drop (daOffset o.rt.length)).take o.da.length = o.da := by
    rw [daOffset, ← List.drop_drop, drop_rtOffset, List.drop_left' (length_refs _), List.take_length]
  unfold Obj.decode
  rw [rtLenOf_encode h.rt, daSizeOf_encode h.da, hrt, hda, take_status, ofLe_le o.gcStatus.code_lt,
    GcStatus.ofCode_code]

/-! ## The writes -/

/-- A write of the status. -/
theorem splice_status (o : Obj) (st : GcStatus) :
    splice o.encode 0 (le objPreHeaderSize st.code) = { o with gcStatus := st }.encode := by
  rw [Obj.encode, splice_append_left (by rw [length_le, length_le]; exact Nat.le_of_eq (Nat.zero_add _)),
    splice_all (by rw [length_le, length_le])]
  rfl

/-- A write behind the headers. -/
theorem splice_rtOffset (o : Obj) (off : Nat) (src : List UInt8) :
    splice o.encode (rtOffset + off) src = le objPreHeaderSize o.gcStatus.code ++ (le 8 o.rt.length ++
      (le 8 o.da.length ++ splice (o.rt.flatMap vaddrBytes ++ o.da) off src)) := by
  have hoff : rtOffset + off = (le objPreHeaderSize o.gcStatus.code).length + ((le 8 o.rt.length).length +
      ((le 8 o.da.length).length + off)) := by
    simp only [length_le, rtOffset]
    omega
  rw [hoff, Obj.encode, splice_append_right, splice_append_right, splice_append_right]

/-- A write of a reference. -/
theorem splice_ref (hi : i < o.rt.length) (v : Vaddr) :
    splice o.encode (rtOffset + i * addrBookVaddrSize) (vaddrBytes v) =
      { o with rt := o.rt.set i v }.encode := by
  have hle : (i + 1) * addrBookVaddrSize ≤ o.rt.length * addrBookVaddrSize := Nat.mul_le_mul_right _ hi
  rw [Nat.succ_mul] at hle
  rw [splice_rtOffset, splice_append_left (by rw [length_refs, length_vaddrBytes]; exact hle),
    splice_flatMap (k := addrBookVaddrSize) length_vaddrBytes hi, Obj.encode, List.length_set]

/-- A write of a byte of the data. -/
theorem set_byte (hi : i < o.da.length) (b : UInt8) :
    o.encode.set (daOffset o.rt.length + i) b = { o with da := o.da.set i b }.encode := by
  have hlen : daOffset o.rt.length + i < o.encode.length := by
    rw [length_encode, objSize, daOffset, Nat.mul_comm addrBookVaddrSize]
    simp only [rtOffset, objPreHeaderSize]
    omega
  rw [set_eq_splice hlen, daOffset, Nat.add_assoc, splice_rtOffset, ← length_refs, splice_append_right,
    ← set_eq_splice hi, Obj.encode, List.length_set]

/-- The bytes of a `NULL_VADDR`. -/
theorem flatMap_null (n : Nat) :
    (List.replicate n nullVaddr).flatMap vaddrBytes = List.replicate (addrBookVaddrSize * n) 255 := by
  induction n with
  | zero => rfl
  | succ n ih =>
    rw [List.replicate_succ, List.flatMap_cons, ih, Nat.mul_succ, Nat.add_comm, List.replicate_add]
    rfl

theorem length_da (hlen : bytes.length = objSize rtLen daSize) :
    (bytes.drop (daOffset rtLen)).length = daSize := by
  rw [List.length_drop, hlen, objSize, daOffset, Nat.mul_comm addrBookVaddrSize]
  simp only [rtOffset, objPreHeaderSize]
  omega

/-- The object that `cs_malloc_p` makes; nobody has written its data. -/
def newObj (rtLen : Nat) (da : List UInt8) : Obj := ⟨.newlyAdded, List.replicate rtLen nullVaddr, da⟩

theorem fits_newObj {da : List UInt8} (hrt : rtLen < 2 ^ 64) (hda : da.length < 2 ^ 64) :
    (newObj rtLen da).Fits := by
  refine ⟨?_, hda, fun w hw => ?_⟩
  · rw [newObj, List.length_replicate]
    exact hrt
  · rw [List.eq_of_mem_replicate hw]
    decide

/-- What `cs_malloc_p` writes makes an object of any bytes: the data array is what was there. -/
theorem splice_objInit (hlen : bytes.length = objSize rtLen daSize) :
    splice bytes 0 (objInit rtLen daSize) = (newObj rtLen (bytes.drop (daOffset rtLen))).encode := by
  have hinit : 0 + (objInit rtLen daSize).length = daOffset rtLen := by
    rw [length_objInit, daOffset, Nat.mul_comm addrBookVaddrSize]
    simp only [rtOffset, objPreHeaderSize]
    omega
  rw [splice, hinit, newObj, Obj.encode, flatMap_null, length_da hlen, List.length_replicate, objInit]
  simp only [List.take_zero, List.nil_append, List.append_assoc]
  rfl

/-- **The format of an object.** An object whose numbers are words is read back from its bytes, a write of
the status, of a reference or of a byte changes that and nothing else, and what `cs_malloc_p` writes into
any bytes of the right number is the new object. -/
theorem object_format (h : o.Fits) :
    o.encode.length = objSize o.rt.length o.da.length ∧ Obj.decode o.encode = o ∧
    (∀ st : GcStatus, Obj.decode (splice o.encode 0 (le objPreHeaderSize st.code)) =
      { o with gcStatus := st }) ∧
    (∀ i < o.rt.length, ∀ v, Word v →
      Obj.decode (splice o.encode (rtOffset + i * addrBookVaddrSize) (vaddrBytes v)) =
        { o with rt := o.rt.set i v }) ∧
    (∀ i < o.da.length, ∀ b, Obj.decode (o.encode.set (daOffset o.rt.length + i) b) =
      { o with da := o.da.set i b }) ∧
    ∀ bytes : List UInt8, bytes.length = objSize o.rt.length o.da.length →
      Obj.decode (splice bytes 0 (objInit o.rt.length o.da.length)) =
        newObj o.rt.length (bytes.drop (daOffset o.rt.length)) := by
  refine ⟨length_encode o, Obj.decode_encode h, fun st => ?_, fun i hi v hv => ?_, fun i hi b => ?_,
    fun bytes hlen => ?_⟩
  · rw [splice_status]
    exact Obj.decode_encode (h.mark st)
  · rw [splice_ref hi]
    exact Obj.decode_encode (h.storeRef hv)
  · rw [set_byte hi]
    exact Obj.decode_encode h.storeByte
  · rw [splice_objInit hlen]
    exact Obj.decode_encode (fits_newObj h.rt ((length_da hlen).symm ▸ h.da))

/-- The second of two references is overwritten. -/
theorem object_format_ref :
    Obj.decode (splice (Obj.encode ⟨.visited, [⟨0, 3⟩, ⟨1, 4⟩], [5, 6]⟩) 36 (vaddrBytes ⟨7, 8⟩)) =
      ⟨.visited, [⟨0, 3⟩, ⟨7, 8⟩], [5, 6]⟩ := by
  have hfits : Obj.Fits ⟨.visited, [⟨0, 3⟩, ⟨1, 4⟩], [5, 6]⟩ := ⟨by decide, by decide, by decide⟩
  obtain ⟨-, -, -, href, -⟩ := object_format hfits
  exact href 1 (by decide) ⟨7, 8⟩ (by decide)

end Chvm.Cs
