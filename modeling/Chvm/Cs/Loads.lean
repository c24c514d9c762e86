import Chvm.Cs.Raw

/-!
# Loads and stores on an object

Where every live vaddr holds the bytes of an object, a load reads the object's field and a store makes the
object with that field. A section of `cs.c` under a lock is a change of one object, by the loads and stores
that it is made of.
-/

set_option autoImplicit false

namespace Chvm.Cs.Raw

open Chvm.Lib Chvm.Virt Chvm.Mb Chvm.Ms

/-- The memory space is sound, and each live vaddr holds an object whose numbers are words. -/
structure Inv (s : MsSys) : Prop where
  sound : MsSound s
  objs : ∀ v d, s.store v = some d → ∃ o : Obj, o.Fits ∧ d.bytes = o.encode

/-- The object of a live vaddr. -/
structure At (s : MsSys) (v : Vaddr) (c : AddrTableCell) (o : Obj) : Prop where
  entry : s.ms.adb.entry v = some c
  bytes : s.bytes v c.paddr = o.encode
  fits : o.Fits

/-- The object of `v` is now `o'`, in the same place and under the same lock. -/
structure Rewritten (s : MsSys) (ms' : MemSpace) (v : Vaddr) (c : AddrTableCell) (o' : Obj) : Prop where
  adb : ms'.adb = s.ms.adb
  sound : MsSound { s with ms := ms' }
  store : MsSys.store { s with ms := ms' } = Function.update s.store v (some ⟨c.lck, o'.encode⟩)

variable {s s' : MsSys} {v : Vaddr} {c : AddrTableCell} {o o' : Obj} {t : Tid} {ms' : MemSpace}
  {i off n : Nat}
  {d : StoreCell}

theorem Inv.at (h : Inv s) (hc : s.ms.adb.entry v = some c) : ∃ o, At s v c o := by
  obtain ⟨o, hfits, hbytes⟩ := h.objs v _ (store_eq_some.mpr ⟨c, hc, rfl⟩)
  exact ⟨o, hc, hbytes, hfits⟩

theorem At.store (h : At s v c o) : s.store v = some ⟨c.lck, o.encode⟩ :=
  store_eq_some.mpr ⟨c, h.entry, by rw [h.bytes]⟩

/-- A vaddr that is given another object keeps the invariant. -/
theorem Inv.update (h : Inv s) (hsound : MsSound s') (hfits : o'.Fits) {lck : RwLock}
    (hstore : s'.store = Function.update s.store v (some ⟨lck, o'.encode⟩)) : Inv s' := by
  refine ⟨hsound, fun w d hd => ?_⟩
  rw [hstore] at hd
  by_cases heq : w = v
  · subst heq
    rw [Function.update_self] at hd
    cases hd
    exact ⟨o', hfits, rfl⟩
  · rw [Function.update_of_ne heq] at hd
    exact h.objs w d hd

/-! ## Loads -/

theorem At.window (h : At s v c o) (hsound : MsSound s) (hle : off + n ≤ o.encode.length) :
    window s.ms.getByte (c.paddr + mallocHeaderSize + off) n = some ((o.encode.drop off).take n) := by
  obtain ⟨owner, content, hinv⟩ := hsound
  have hbyte := hinv.getByte_bytes h.entry
  rw [h.bytes] at hbyte
  exact window_eq hbyte hle

theorem At.loadStatus (h : At s v c o) (hsound : MsSound s) :
    Raw.loadStatus s.ms (c.paddr + mallocHeaderSize) = some o.gcStatus.code := by
  have hlen : 0 + objPreHeaderSize ≤ o.encode.length := by
    rw [length_encode, objSize, objPreHeaderSize]
    omega
  have hwin := h.window hsound hlen
  rw [Nat.add_zero, List.drop_zero, take_status] at hwin
  unfold Raw.loadStatus loadWord
  rw [hwin, Option.map_some, ofLe_le o.gcStatus.code_lt]

theorem At.loadRtLen (h : At s v c o) (hsound : MsSound s) :
    Raw.loadRtLen s.ms (c.paddr + mallocHeaderSize) = some o.rt.length := by
  have hlen : objPreHeaderSize + 8 ≤ o.encode.length := by
    rw [length_encode, objSize, objPreHeaderSize]
    omega
  unfold Raw.loadRtLen loadWord
  rw [h.window hsound hlen, Option.map_some]
  exact congrArg some (rtLenOf_encode h.fits.rt)

theorem At.loadDaSize (h : At s v c o) (hsound : MsSound s) :
    loadWord s.ms (c.paddr + mallocHeaderSize + (objPreHeaderSize + 8)) 8 = some o.da.length := by
  have hlen : objPreHeaderSize + 8 + 8 ≤ o.encode.length := by
    rw [length_encode, objSize, objPreHeaderSize]
    omega
  unfold loadWord
  rw [h.window hsound hlen, Option.map_some]
  exact congrArg some (daSizeOf_encode h.fits.da)

/-- The last byte of a reference is inside. -/
theorem ref_inside (hi : i < o.rt.length) :
    rtOffset + i * addrBookVaddrSize + addrBookVaddrSize ≤ o.encode.length := by
  have hle : (i + 1) * addrBookVaddrSize ≤ o.rt.length * addrBookVaddrSize := Nat.mul_le_mul_right _ hi
  rw [Nat.succ_mul] at hle
  rw [length_encode, objSize, Nat.mul_comm addrBookVaddrSize, rtOffset, objPreHeaderSize]
  omega

theorem At.loadRef (h : At s v c o) (hsound : MsSound s) {w : Vaddr} (hw : o.rt[i]? = some w) :
    Raw.loadRef s.ms (refAddr (c.paddr + mallocHeaderSize) i) = some w := by
  obtain ⟨hi, rfl⟩ := List.getElem?_eq_some_iff.mp hw
  have hwin := h.window hsound (ref_inside hi)
  have hcell := cellAt_encode hw
  rw [cellAt, List.drop_drop] at hcell
  unfold Raw.loadRef refAddr
  rw [Nat.add_assoc, hwin, hcell, Option.map_some, ofVaddrBytes_vaddrBytes
    (h.fits.refs _ (List.getElem_mem hi))]

/-! ## Stores -/

/-- Bytes stored behind each other are a write of a part. -/
theorem storeBytes_eq (h : MsSound s) (hc : s.ms.adb.entry v = some c) {src : List UInt8}
    (hle : off + src.length ≤ s.request v) :
    ∃ ms', storeBytes s.ms (c.paddr + mallocHeaderSize + off) src = some ms' ∧ ms'.adb = s.ms.adb ∧
      MsSound { s with ms := ms' } ∧ MsSys.store { s with ms := ms' } =
        Function.update s.store v (some ⟨c.lck, splice (s.bytes v c.paddr) off src⟩) := by
  induction src generalizing s off with
  | nil =>
    refine ⟨s.ms, rfl, rfl, h, ?_⟩
    have hsame : splice (s.bytes v c.paddr) off [] = s.bytes v c.paddr := by
      rw [splice, List.length_nil, Nat.add_zero, List.nil_append, List.take_append_drop]
    rw [hsame, ← store_eq_some.mpr ⟨c, hc, rfl⟩, Function.update_eq_self]
  | cons b src ih =>
    rw [List.length_cons] at hle
    obtain ⟨owner, content, hinv⟩ := h
    obtain ⟨ms₁, hset, hadb, hsound₁, hstore₁⟩ := hinv.store_write hc (show off < s.request v by omega) b
    have hc₁ : ms₁.adb.entry v = some c := by rw [hadb, hc]
    obtain ⟨ms', hrest, hadb', hsound', hstore'⟩ := ih hsound₁ hc₁
      (show off + 1 + src.length ≤ s.request v by omega)
    -- the bytes after the first store
    have hbytes : MsSys.bytes { s with ms := ms₁ } v c.paddr = (s.bytes v c.paddr).set off b := by
      have hv := congrFun hstore₁ v
      rw [Function.update_self, store_eq_some] at hv
      obtain ⟨c', hc', heq⟩ := hv
      cases hc₁.symm.trans hc'
      exact (congrArg StoreCell.bytes heq).symm
    refine ⟨ms', ?_, hadb'.trans hadb, hsound', ?_⟩
    · rw [storeBytes, hset, Option.bind_some]
      exact hrest
    · rw [hbytes, splice_set (by rw [length_bytes]; omega), hstore₁, Function.update_idem] at hstore'
      exact hstore'

theorem At.length (h : At s v c o) : s.request v = o.encode.length := by
  rw [← h.bytes, length_bytes]

theorem At.storeStatus (h : At s v c o) (hsound : MsSound s) (st : GcStatus) :
    ∃ ms', Raw.storeStatus s.ms (c.paddr + mallocHeaderSize) st = some ms' ∧
      Rewritten s ms' v c { o with gcStatus := st } := by
  have hle : 0 + (le objPreHeaderSize st.code).length ≤ s.request v := by
    rw [h.length, length_encode, length_le, objSize, objPreHeaderSize]
    omega
  obtain ⟨ms', hset, hadb, hsound', hstore⟩ := storeBytes_eq hsound h.entry hle
  rw [h.bytes, splice_status] at hstore
  exact ⟨ms', hset, hadb, hsound', hstore⟩

theorem At.storeRef (h : At s v c o) (hsound : MsSound s) (hi : i < o.rt.length) (w : Vaddr) :
    ∃ ms', storeBytes s.ms (refAddr (c.paddr + mallocHeaderSize) i) (vaddrBytes w) = some ms' ∧
      Rewritten s ms' v c { o with rt := o.rt.set i w } := by
  have hle : rtOffset + i * addrBookVaddrSize + (vaddrBytes w).length ≤ s.request v := by
    rw [h.length, length_vaddrBytes]
    exact ref_inside hi
  obtain ⟨ms', hset, hadb, hsound', hstore⟩ := storeBytes_eq hsound h.entry hle
  rw [h.bytes, splice_ref hi] at hstore
  rw [← Nat.add_assoc] at hset
  exact ⟨ms', hset, hadb, hsound', hstore⟩

theorem At.storeByte (h : At s v c o) (hsound : MsSound s) (hi : i < o.da.length) (b : UInt8) :
    ∃ ms', s.ms.setByte (refAddr (c.paddr + mallocHeaderSize) o.rt.length + i) b = some ms' ∧
      Rewritten s ms' v c { o with da := o.da.set i b } := by
  obtain ⟨owner, content, hinv⟩ := hsound
  have hlt : daOffset o.rt.length + i < s.request v := by
    rw [h.length, length_encode, objSize, daOffset, rtOffset, objPreHeaderSize,
      Nat.mul_comm addrBookVaddrSize]
    omega
  obtain ⟨ms', hset, hadb, hsound', hstore⟩ := hinv.store_write h.entry hlt b
  rw [h.bytes, set_byte hi] at hstore
  rw [daOffset, ← Nat.add_assoc, ← Nat.add_assoc] at hset
  exact ⟨ms', hset, hadb, hsound', hstore⟩

/-! ## The functions on an object -/

/-- Nothing is stored. -/
theorem At.same (h : At s v c o) (hsound : MsSound s) : Rewritten s s.ms v c o :=
  ⟨rfl, hsound, by rw [← h.store, Function.update_eq_self]⟩

/-- The pushes of `cs_visit_obj`, up to a reference. -/
theorem At.pushRefs (h : At s v c o) (hsound : MsSound s) (stack : List Vaddr) (hn : n ≤ o.rt.length) :
    (List.range n).foldlM (fun stack refI => do
      let ref ← Raw.loadRef s.ms (refAddr (c.paddr + mallocHeaderSize) refI)
      return if nullAdbAddr ref then stack else stack ++ [ref]) stack =
      some (stack ++ (o.rt.take n).filter fun w => !nullAdbAddr w) := by
  induction n with
  | zero =>
    rw [List.take_zero, List.filter_nil, List.append_nil]
    rfl
  | succ n ih =>
    have hlt : n < o.rt.length := hn
    have hget : o.rt[n]? = some o.rt[n] := List.getElem?_eq_getElem hlt
    rw [List.range_succ, List.foldlM_append, ih (Nat.le_of_lt hlt), List.take_add_one, hget,
      Option.toList_some,
      List.filter_append, ← List.append_assoc]
    simp only [Option.bind_eq_bind, Option.bind_some, List.foldlM_cons, List.foldlM_nil,
      h.loadRef hsound hget,
      List.filter_cons, List.filter_nil, Bool.not_eq_true']
    cases nullAdbAddr o.rt[n] with
    | true => simp only [if_true, Bool.true_eq_false, if_false, List.append_nil]; rfl
    | false => rfl

theorem At.csVisitObj (h : At s v c o) (hsound : MsSound s) (stack : List Vaddr) :
    ∃ ms', Raw.csVisitObj s.ms stack (c.paddr + mallocHeaderSize) =
        some (stack ++ o.rt.filter fun w => !nullAdbAddr w, ms') ∧
      Rewritten s ms' v c { o with gcStatus := .visited } := by
  obtain ⟨ms', hset, hre⟩ := h.storeStatus hsound .visited
  have hpush := h.pushRefs hsound stack (Nat.le_refl _)
  rw [List.take_length] at hpush
  refine ⟨ms', ?_, hre⟩
  unfold Raw.csVisitObj
  rw [h.loadRtLen hsound, Option.bind_eq_bind, Option.bind_some, hpush, Option.bind_eq_bind, Option.bind_some,
    hset]
  rfl

end Chvm.Cs.Raw
