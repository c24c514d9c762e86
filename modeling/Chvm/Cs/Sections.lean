import Chvm.Cs.Loads

/-!
# Sections on an object

A lock operation, a section under a lock, `cs_malloc_p` and a free, each as what it does to the objects
of the memory space: one vaddr has another object or another lock, and no other vaddr is changed. Each
returns when the lock can be had.
-/

set_option autoImplicit false

namespace Chvm.Cs.Raw

open Chvm.Lib Chvm.Virt Chvm.Mb Chvm.Ms

/-- The object of `v` is now `o` under the lock `lck`, and nothing else has changed. -/
structure Changed (s s' : MsSys) (v : Vaddr) (lck : RwLock) (o : Obj) : Prop where
  fits : o.Fits
  sound : MsSound s'
  size : s.ms.adb.SameSize s'.ms.adb
  store : s'.store = Function.update s.store v (some ⟨lck, o.encode⟩)

variable {s s₁ s' : MsSys} {v : Vaddr} {c : AddrTableCell} {o o' : Obj} {t : Tid} {ms' : MemSpace}
  {lck lck' : RwLock}
  {a : Nat}

theorem Changed.trans (h : Changed s s₁ v lck o) (h' : Changed s₁ s' v lck' o') : Changed s s' v lck' o' := by
  refine ⟨h'.fits, h'.sound, h.size.trans h'.size, ?_⟩
  rw [h'.store, h.store, Function.update_idem]

theorem Changed.inv (h : Changed s s' v lck o) (hinv : Inv s) : Inv s' := hinv.update h.sound h.fits h.store

theorem Changed.at (h : Changed s s' v lck o) : ∃ c, At s' v c o ∧ c.lck = lck := by
  have hstore := congrFun h.store v
  rw [Function.update_self, store_eq_some] at hstore
  obtain ⟨c, hc, heq⟩ := hstore
  obtain ⟨hlck, hbytes⟩ := StoreCell.mk.inj heq
  exact ⟨c, ⟨hc, hbytes.symm, h.fits⟩, hlck.symm⟩

theorem Rewritten.changed (h : Rewritten s ms' v c o') (hfits : o'.Fits) :
    Changed s { s with ms := ms' } v c.lck o' :=
  ⟨hfits, h.sound, h.adb ▸ .refl _, h.store⟩

theorem At.live (h : At s v c o) (hsound : MsSound s) : v ∈ s.live := by
  obtain ⟨owner, content, hinv⟩ := hsound
  exact mem_live_of_entry hinv h.entry

/-! ## The locks -/

/-- What a call on the store is when it changes the lock of an object. -/
theorem At.lock (h : At s v c o) (call : StoreAct) (hsound : MsSound s) {act : MsAct}
    (hstep : msStep s act = some s') (hcall : ∀ acts, isCall act acts → acts = [call])
    (hlive : Ms.usesLive s act) (hfits : requestFits act)
    (hact : storeStep s.store call = some (Function.update s.store v (some ⟨lck, o.encode⟩)))
    (hsize : s.ms.adb.SameSize s'.ms.adb) : Changed s s' v lck o := by
  refine ⟨h.fits, msStep_sound hsound hlive hfits hstep, hsize, ?_⟩
  obtain ⟨acts, hacts, ⟨rfl, -⟩ | ⟨call', rfl, hstore⟩⟩ := msStep_store hsound hlive hfits hstep
  · cases hcall _ hacts
  · cases hcall _ hacts
    rw [hact] at hstore
    exact (Option.some.inj hstore).symm

/-- `ms_get_read`. -/
theorem At.getRead (h : At s v c o) (hsound : MsSound s) (hlck : c.lck.canRead = true) (t : Tid) :
    ∃ s', msStep s (.getRead t v) = some s' ∧ Changed s s' v (c.lck.acqRead t) o := by
  have hget := AddrBook.adbGetRead_isSome h.entry hlck t
  have hstep : msStep s (.getRead t v) = some _ := congrArg (Option.map _) hget
  refine ⟨_, hstep, h.lock (.getRead t v) hsound hstep (fun _ h => h) (h.live hsound) trivial ?_
    (AddrBook.sameSize_adbGetRead hget)⟩
  exact Store.modify_eq_some h.store (if_pos hlck)

/-- `ms_get_write`. -/
theorem At.getWrite (h : At s v c o) (hsound : MsSound s) (hlck : c.lck.isFree = true) (t : Tid) :
    ∃ s', msStep s (.getWrite t v) = some s' ∧ Changed s s' v (c.lck.acqWrite t) o := by
  have hget := AddrBook.adbGetWrite_isSome h.entry hlck t
  have hstep : msStep s (.getWrite t v) = some _ := congrArg (Option.map _) hget
  refine ⟨_, hstep, h.lock (.getWrite t v) hsound hstep (fun _ h => h) (h.live hsound) trivial ?_
    (AddrBook.sameSize_adbGetWrite hget)⟩
  exact Store.modify_eq_some h.store (if_pos hlck)

/-- `ms_unlock`. -/
theorem At.unlock (h : At s v c o) (hsound : MsSound s) (hholds : c.lck.holds t = true) :
    ∃ s', msStep s (.unlock t v) = some s' ∧ Changed s s' v (c.lck.release t) o := by
  obtain ⟨owner, content, hinv⟩ := hsound
  obtain ⟨adb', hunlock, -⟩ := AddrBook.adbUnlock_isSome hinv.quiet h.entry hholds
  have hstep : msStep s (.unlock t v) = some _ := congrArg (Option.map _) hunlock
  refine ⟨_, hstep, h.lock (.unlock t v) ⟨owner, content, hinv⟩ hstep (fun _ h => h)
    (mem_live_of_entry hinv h.entry) trivial ?_ (AddrBook.sameSize_adbUnlock hunlock)⟩
  exact Store.modify_eq_some h.store (if_pos hholds)

theorem getRead_entry (h : MsSound s) (hstep : msStep s (.getRead t v) = some s') :
    ∃ c, s.ms.adb.entry v = some c ∧ c.lck.canRead = true := by
  obtain ⟨⟨paddr, adb'⟩, hget, -⟩ := Option.map_eq_some_iff.mp hstep
  obtain ⟨owner, content, hinv⟩ := h
  obtain ⟨c, hc, hlck, -⟩ := AddrBook.adbGetRead_eq_some hinv.quiet hget
  exact ⟨c, hc, hlck⟩

theorem getWrite_entry (h : MsSound s) (hstep : msStep s (.getWrite t v) = some s') :
    ∃ c, s.ms.adb.entry v = some c ∧ c.lck.isFree = true := by
  obtain ⟨⟨paddr, adb'⟩, hget, -⟩ := Option.map_eq_some_iff.mp hstep
  obtain ⟨owner, content, hinv⟩ := h
  obtain ⟨c, hc, hlck, -⟩ := AddrBook.adbGetWrite_eq_some hinv.quiet hget
  exact ⟨c, hc, hlck⟩

theorem unlock_entry (h : MsSound s) (hstep : msStep s (.unlock t v) = some s') :
    ∃ c, s.ms.adb.entry v = some c ∧ c.lck.holds t = true := by
  obtain ⟨adb', hunlock, -⟩ := Option.map_eq_some_iff.mp hstep
  obtain ⟨owner, content, hinv⟩ := h
  obtain ⟨c, hc, hholds, -⟩ := AddrBook.adbUnlock_eq_some hinv.quiet hunlock
  exact ⟨c, hc, hholds⟩

/-! ## The pointers -/

/-- A thread has a pointer where it holds a lock, and it is to the object. -/
theorem pointer_at (h : Inv s) (hpointer : pointer s t v = some a) :
    ∃ c o, At s v c o ∧ c.lck.holds t = true ∧ a = c.paddr + mallocHeaderSize := by
  obtain ⟨g, hfind, rfl⟩ := Option.map_eq_some_iff.mp hpointer
  obtain ⟨rfl, rfl⟩ := isGrant_iff.mp (List.find?_some hfind)
  have hmem := List.mem_of_find?_eq_some hfind
  obtain ⟨owner, content, hinv⟩ := h.sound
  obtain ⟨c, hc, hpaddr⟩ := hinv.grant_entry hmem
  obtain ⟨d, hd, hholds, -⟩ := hinv.grant_bytes hmem
  obtain ⟨c', hc', rfl⟩ := store_eq_some.mp hd
  cases hc.symm.trans hc'
  obtain ⟨o, hat⟩ := h.at hc
  exact ⟨c, o, hat, hholds, congrArg (· + mallocHeaderSize) hpaddr⟩

theorem At.pointer (h : At s v c o) (hsound : MsSound s) (hholds : c.lck.holds t = true) :
    Raw.pointer s t v = some (c.paddr + mallocHeaderSize) := by
  obtain ⟨owner, content, hinv⟩ := hsound
  obtain ⟨g, hfind⟩ := hinv.exists_grant h.entry hholds
  obtain ⟨-, hv⟩ := isGrant_iff.mp (List.find?_some hfind)
  obtain ⟨c', hc', hpaddr⟩ := hinv.grant_entry (List.mem_of_find?_eq_some hfind)
  rw [hv, h.entry] at hc'
  cases hc'
  unfold Raw.pointer
  rw [hfind, Option.map_some, hpaddr]

/-! ## A section under the write lock -/

/-- What a section does with the object that it is on: what it answers, and the object it leaves. -/
def Does {α : Type} (f : MemSpace → Nat → Option (α × MemSpace)) (g : Obj → α × Obj) : Prop :=
  ∀ (s : MsSys) (v : Vaddr) (c : AddrTableCell) (o : Obj), MsSound s → At s v c o → (g o).2.Fits ∧
    ∃ ms', f s.ms (c.paddr + mallocHeaderSize) = some ((g o).1, ms') ∧ Rewritten s ms' v c (g o).2

/-- A section that can have the lock. -/
theorem withWrite_at {α : Type} {f : MemSpace → Nat → Option (α × MemSpace)} {g : Obj → α × Obj}
    (hf : Does f g)
    (h : MsSound s) (hat : At s v c o) (hlck : c.lck.isFree = true) (t : Tid) :
    ∃ s', withWrite s t v f = some ((g o).1, s') ∧ Changed s s' v c.lck (g o).2 := by
  obtain ⟨s₁, hget, hchanged⟩ := hat.getWrite h hlck t
  obtain ⟨c₁, hat₁, hlck₁⟩ := hchanged.at
  have hholds : c₁.lck.holds t = true := hlck₁ ▸ (RwLock.holds_acqWrite hlck).mpr rfl
  obtain ⟨hfits, ms₂, hrun, hre⟩ := hf s₁ v c₁ o hchanged.sound hat₁
  have hchanged₂ := hre.changed hfits
  obtain ⟨c₂, hat₂, hlck₂⟩ := hchanged₂.at
  obtain ⟨s', hunlock, hchanged₃⟩ := hat₂.unlock hchanged₂.sound (hlck₂ ▸ hholds)
  have hlast : c₂.lck.release t = c.lck := by rw [hlck₂, hlck₁, RwLock.release_acqWrite hlck]
  refine ⟨s', ?_, hlast ▸ (hchanged.trans hchanged₂).trans hchanged₃⟩
  unfold withWrite
  rw [hget, Option.bind_eq_bind, Option.bind_some, hat₁.pointer hchanged.sound hholds, Option.bind_eq_bind,
    Option.bind_some, hrun, Option.bind_eq_bind, Option.bind_some]
  exact Option.bind_eq_some_iff.mpr ⟨s', hunlock, rfl⟩

theorem withWrite_entry {α : Type} {f : MemSpace → Nat → Option (α × MemSpace)} {x : α × MsSys}
    (h : MsSound s)
    (hrun : withWrite s t v f = some x) : ∃ c, s.ms.adb.entry v = some c ∧ c.lck.isFree = true := by
  obtain ⟨s₁, hget, -⟩ := Option.bind_eq_some_iff.mp hrun
  exact getWrite_entry h hget

/-- What the collector does with an object that it has popped from the in-progress stack. -/
def greyed (o : Obj) : Bool × Obj :=
  if o.gcStatus = .unvisited then (true, { o with gcStatus := .inProgress }) else (false, o)

/-- What it does with one from the visit stack. -/
def blackened (inProgressStack : List Vaddr) (o : Obj) : List Vaddr × Obj :=
  if o.gcStatus = .inProgress then
    (inProgressStack ++ o.rt.filter fun w => !nullAdbAddr w, { o with gcStatus := .visited })
  else (inProgressStack, o)

theorem does_markInProgress : Does markInProgress greyed := by
  intro s v c o hsound hat
  unfold markInProgress greyed
  rw [hat.loadStatus hsound, Option.bind_eq_bind, Option.bind_some]
  simp only [GcStatus.code_eq_iff]
  split
  · obtain ⟨ms', hset, hre⟩ := hat.storeStatus hsound .inProgress
    exact ⟨hat.fits.mark _, ms', Option.bind_eq_some_iff.mpr ⟨ms', hset, rfl⟩, hre⟩
  · exact ⟨hat.fits, s.ms, rfl, hat.same hsound⟩

theorem does_visitInProgress (inProgressStack : List Vaddr) :
    Does (visitInProgress inProgressStack) (blackened inProgressStack) := by
  intro s v c o hsound hat
  unfold visitInProgress blackened
  rw [hat.loadStatus hsound, Option.bind_eq_bind, Option.bind_some]
  simp only [GcStatus.code_eq_iff]
  split
  · obtain ⟨ms', hrun, hre⟩ := hat.csVisitObj hsound inProgressStack
    exact ⟨hat.fits.mark _, ms', hrun, hre⟩
  · exact ⟨hat.fits, s.ms, rfl, hat.same hsound⟩

/-! ## Malloc, free and shift -/

/-- What a call of `cs_malloc_p` that holds on to the object does. -/
structure MallocedObj (s s' : MsSys) (t : Tid) (v : Vaddr) (rtLen daSize : Nat) (da : List UInt8) : Prop where
  ne_null : v ≠ nullVaddr
  fresh : s.store v = none
  length : da.length = daSize
  grown : s.ms.adb.Grown s'.ms.adb v
  inside : v.cellIndex < s.ms.adb.tableCap
  sound : MsSound s'
  store : s'.store = Function.update s.store v (some ⟨RwLock.acqWrite {} t, (newObj rtLen da).encode⟩)

/-- `cs_malloc_p`. -/
theorem csMallocP_object {rtLen daSize addr : Nat} {mem : Mem} {res : MallocRes} (h : MsSound s)
    (htotal : totalSize rtLen daSize < 2 ^ 64)
    (hrun : csMallocP s.ms t rtLen daSize true addr mem = some (res, ms')) :
    ∃ da, MallocedObj s (s.malloced ms' t (objBytes rtLen daSize) res) t res.vaddr rtLen daSize da := by
  obtain ⟨owner, content, hinv⟩ := h
  obtain ⟨hbytes, hn, hblock⟩ := fits_of_total htotal
  unfold csMallocP at hrun
  split at hrun
  next paddr v ms₁ hmalloc =>
    split at hrun
    · cases hrun
    next ms₂ hstore =>
      cases hrun
      rw [hbytes] at hmalloc ⊢
      have hpos : 20 ≤ objSize rtLen daSize := objSize_pos
      rcases hinv.malloc hn hblock hmalloc with ⟨hzero, -⟩ | hm
      · omega
      obtain ⟨hnone, bytes, hlen, hput⟩ := hinv.store_malloced hm
      obtain ⟨c, hc, hpaddr⟩ := hm.entry
      rw [if_pos rfl] at hpaddr
      cases hpaddr
      -- the object is written over the bytes of the piece
      have hcell := congrFun hput v
      rw [Function.update_self, store_eq_some] at hcell
      obtain ⟨c', hc', heq⟩ := hcell
      cases hc.symm.trans hc'
      obtain ⟨hlck, rfl⟩ := StoreCell.mk.inj heq
      have hle : 0 + (objInit rtLen daSize).length ≤ objSize rtLen daSize := by
        rw [length_objInit, objSize]
        omega
      rw [← hlen, length_bytes] at hle
      obtain ⟨ms₃, hset, hadb, hsound, hwritten⟩ := storeBytes_eq hm.sound hc hle
      cases hstore.symm.trans hset
      rw [splice_objInit hlen, hput, Function.update_idem, ← hlck] at hwritten
      have hda := length_da hlen
      obtain ⟨owner', content', hinv'⟩ := hsound
      have hinside := (hinv'.quiet.index_lt (AddrBook.entry_eq_some.mp (hadb ▸ hc)).1).2
      have hgrown : s.ms.adb.Grown ms'.adb v := hadb ▸ hm.grown
      exact ⟨_, hm.ne_null, hnone, hda, hgrown, hgrown.tableCap ▸ hinside, ⟨owner', content', hinv'⟩,
        hwritten⟩
  · cases hrun

/-- The vaddr `v` is given back, and nothing else has changed. -/
structure Emptied (s s' : MsSys) (v : Vaddr) : Prop where
  sound : MsSound s'
  size : s.ms.adb.SameSize s'.ms.adb
  store : s'.store = Function.update s.store v none

theorem Emptied.inv (h : Emptied s s' v) (hinv : Inv s) : Inv s' := by
  refine ⟨h.sound, fun w d hd => ?_⟩
  rw [h.store] at hd
  by_cases heq : w = v
  · rw [heq, Function.update_self] at hd
    cases hd
  · rw [Function.update_of_ne heq] at hd
    exact hinv.objs w d hd

/-- `ms_free`. -/
theorem At.free (h : At s v c o) (hsound : MsSound s) (hlck : c.lck.isFree = true) (t : Tid) :
    ∃ s', msStep s (.free t v) = some s' ∧ Emptied s s' v := by
  have hlive := h.live hsound
  obtain ⟨owner, content, hinv⟩ := hsound
  obtain ⟨ms', hfree⟩ := Option.isSome_iff_exists.mp (hinv.msFree_isSome hlive h.entry hlck t)
  obtain ⟨-, hsize, -⟩ := hinv.msFree_entry hfree
  obtain ⟨-, hstore⟩ := hinv.store_free hlive hfree
  exact ⟨_, congrArg (Option.map _) hfree, ⟨owner, content, hinv.free hlive hfree⟩, hsize, hstore⟩

theorem free_entry (h : MsSound s) (hstep : msStep s (.free t v) = some s') :
    ∃ c, s.ms.adb.entry v = some c ∧ c.lck.isFree = true := by
  obtain ⟨ms', hfree, -⟩ := Option.map_eq_some_iff.mp hstep
  obtain ⟨owner, content, hinv⟩ := h
  exact (hinv.msFree_entry hfree).1

/-- `ms_try_full_shift`: no object is changed. -/
theorem fullShift_same {fuel : Nat} (h : MsSound s) (hstep : msStep s (.tryFullShift t fuel) = some s') :
    MsSound s' ∧ s.ms.adb.SameSize s'.ms.adb ∧ s'.store = s.store := by
  obtain ⟨ms', hshift, rfl⟩ := Option.map_eq_some_iff.mp hstep
  obtain ⟨owner, content, hinv⟩ := h
  exact ⟨⟨owner, content, hinv.fullShift hshift⟩, (hinv.fullShift_locks hshift).2,
    hinv.store_fullShift hshift⟩

end Chvm.Cs.Raw
