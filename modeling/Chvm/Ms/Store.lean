import Chvm.Lib.Simulation
import Chvm.Ms.Owner

/-!
# What a memory space is for

A user of a memory space sees a store: each live vaddr has a lock and the bytes that were asked for. The
blocks, the pieces, their headers, the address book and the moves of the pieces are not seen. Here each
call is shown to be one step of the store, or none at all when it only moves pieces.
-/

set_option autoImplicit false

namespace Chvm.Ms

open Chvm.Lib Chvm.Virt Chvm.Mb

/-! ## The store -/

/-- What the users see of a live vaddr. -/
structure StoreCell where
  lck : RwLock
  bytes : List UInt8
deriving DecidableEq

abbrev Store := Vaddr → Option StoreCell

inductive StoreAct
  | malloc (t : Tid) (v : Vaddr) (hold : Bool) (bytes : List UInt8)
  | free (v : Vaddr)
  | getRead (t : Tid) (v : Vaddr)
  | getWrite (t : Tid) (v : Vaddr)
  | unlock (t : Tid) (v : Vaddr)
  | write (t : Tid) (v : Vaddr) (off : Nat) (byte : UInt8)
deriving DecidableEq

/-- A step on the cell of a live vaddr. -/
def Store.modify (s : Store) (v : Vaddr) (f : StoreCell → Option (Option StoreCell)) : Option Store :=
  ((s v).bind f).map (Function.update s v)

/-- One step of the store. A new vaddr is any that is not live, and its bytes are any. -/
def storeStep (s : Store) : StoreAct → Option Store
  | .malloc t v hold bytes =>
    if s v = none ∧ v ≠ nullVaddr ∧ bytes ≠ [] then
      some (Function.update s v (some ⟨if hold then RwLock.acqWrite {} t else {}, bytes⟩))
    else none
  | .free v => s.modify v fun c => if c.lck.isFree then some none else none
  | .getRead t v => s.modify v fun c =>
      if c.lck.canRead then some (some { c with lck := c.lck.acqRead t }) else none
  | .getWrite t v => s.modify v fun c =>
      if c.lck.isFree then some (some { c with lck := c.lck.acqWrite t }) else none
  | .unlock t v => s.modify v fun c =>
      if c.lck.holds t then some (some { c with lck := c.lck.release t }) else none
  | .write t v off byte => s.modify v fun c =>
      if c.lck.writer = some t ∧ off < c.bytes.length then
        some (some { c with bytes := c.bytes.set off byte })
      else none

/-- The steps of the store that a call may be. -/
def isCall : MsAct → List StoreAct → Prop
  | .malloc t minBytes hold _ _, acts => (minBytes = 0 ∧ acts = []) ∨
      ∃ v bytes, bytes.length = minBytes ∧ acts = [.malloc t v hold bytes]
  | .free _ v, acts => acts = [.free v]
  | .tryFullShift .., acts => acts = []
  | .getRead t v, acts => acts = [.getRead t v]
  | .getWrite t v, acts => acts = [.getWrite t v]
  | .unlock t v, acts => acts = [.unlock t v]
  | .write t v off byte, acts => acts = [.write t v off byte]

/-! ## The store of a memory space -/

/-- The byte at an address in one of the blocks. -/
def MemSpace.getByte (ms : MemSpace) (a : Nat) : Option UInt8 :=
  (ms.mbList.find? (·.contains a)).map (·.mb.mem.byte a)

/-- The bytes asked for, in the piece at `paddr`. -/
def MsSys.bytes (s : MsSys) (v : Vaddr) (paddr : Nat) : List UInt8 :=
  (List.range (s.request v)).map fun i => (s.ms.getByte (paddr + mallocHeaderSize + i)).getD 0

def MsSys.store (s : MsSys) : Store := fun v =>
  (s.ms.adb.entry v).map fun c => ⟨c.lck, s.bytes v c.paddr⟩

variable {s s' : MsSys} {owner owner' : Vaddr → Nat} {content content' : Vaddr → Nat → Option UInt8}
  {t : Tid} {v w : Vaddr} {c : AddrTableCell} {d : StoreCell} {adb' : AddrBook} {ms' : MemSpace} {n : Nat}
  {hold : Bool} {res : MallocRes}

theorem Store.modify_eq_some {f : StoreCell → Option (Option StoreCell)} {st : Store} {x : Option StoreCell}
    (hd : st v = some d) (hf : f d = some x) : st.modify v f = some (Function.update st v x) := by
  unfold Store.modify
  rw [hd, Option.bind_some, hf, Option.map_some]

theorem mem_live_of_entry (h : MsInv s owner content) (hc : s.ms.adb.entry v = some c) : v ∈ s.live :=
  (h.entries v).mp (Option.isSome_iff_exists.mpr ⟨c, hc⟩)

theorem store_eq_some : s.store v = some d ↔
    ∃ c, s.ms.adb.entry v = some c ∧ d = ⟨c.lck, s.bytes v c.paddr⟩ := by
  unfold MsSys.store
  rw [Option.map_eq_some_iff]
  exact exists_congr fun c => and_congr_right fun _ => eq_comm

theorem store_eq_none : s.store v = none ↔ s.ms.adb.entry v = none := Option.map_eq_none_iff

@[simp] theorem length_bytes (paddr : Nat) : (s.bytes v paddr).length = s.request v := by
  rw [MsSys.bytes, List.length_map, List.length_range]

/-- A byte of the content lies behind the cell's address. -/
theorem MsInv.getByte (h : MsInv s owner content) (hc : s.ms.adb.entry v = some c) {off : Nat} {b : UInt8}
    (hb : content v off = some b) : s.ms.getByte (c.paddr + off) = some b := by
  obtain ⟨i, bl, ps, l, p, d, hbl, -, hinv, hp, hkind, hd, hpaddr, -⟩ := h.piece (mem_live_of_entry h hc)
  rw [hc] at hd
  cases hd
  obtain ⟨hsize, hbyte⟩ := hinv.content p hp v off b hkind hb
  have hmem := List.mem_of_getElem? hbl
  obtain ⟨-, -, hstart, hstop⟩ := h.placed.buffer bl hmem
  have hinside := hinv.block.laid.tiles.mem hp
  have hlow : bl.mb.start ≤ p.addr := hinside.1
  have hhigh : p.stop ≤ bl.mb.stop := hinside.2.2
  have hrange := user_byte_inside hsize
  have hcontains : bl.contains (c.paddr + off) = true := contains_iff.mpr (by omega)
  unfold MemSpace.getByte
  rw [h.placed.find hmem hcontains, Option.map_some, hpaddr]
  exact congrArg some hbyte

/-- The bytes of a live vaddr are those of its content. -/
theorem MsInv.bytes_eq (h : MsInv s owner content) (hc : s.ms.adb.entry v = some c) :
    s.bytes v c.paddr =
      (List.range (s.request v)).map fun i => (content v (mallocHeaderSize + i)).getD 0 := by
  refine List.map_congr_left fun i hi => ?_
  have hlt := List.mem_range.mp hi
  obtain ⟨b, hb⟩ := Option.isSome_iff_exists.mp
    (h.body v (mem_live_of_entry h hc) (mallocHeaderSize + i) (by omega))
  have hbyte := h.getByte hc hb
  rw [← Nat.add_assoc] at hbyte
  rw [hbyte, hb]

/-- The bytes of a live vaddr lie behind its header. -/
theorem MsInv.getByte_bytes (h : MsInv s owner content) (hc : s.ms.adb.entry v = some c) :
    ∀ i < (s.bytes v c.paddr).length, s.ms.getByte (c.paddr + mallocHeaderSize + i) =
      (s.bytes v c.paddr)[i]? := by
  intro i hi
  rw [length_bytes] at hi
  obtain ⟨b, hb⟩ := Option.isSome_iff_exists.mp
    (h.body v (mem_live_of_entry h hc) (mallocHeaderSize + i) (by omega))
  have hbyte := h.getByte hc hb
  rw [← Nat.add_assoc] at hbyte
  rw [hbyte, h.bytes_eq hc, List.getElem?_map, List.getElem?_range hi, Option.map_some, hb]
  rfl

/-- A vaddr whose lock, size and content are as they were. -/
theorem MsInv.store_same (h : MsInv s owner content) (h' : MsInv s' owner' content')
    (hlck : (s'.ms.adb.entry v).map (·.lck) = (s.ms.adb.entry v).map (·.lck))
    (hrequest : s'.request v = s.request v) (hcontent : v ∈ s.live → content' v = content v) :
    s'.store v = s.store v := by
  cases hc : s.ms.adb.entry v with
  | none =>
    rw [hc, Option.map_none, Option.map_eq_none_iff] at hlck
    rw [store_eq_none.mpr hc, store_eq_none.mpr hlck]
  | some c =>
    rw [hc, Option.map_some, Option.map_eq_some_iff] at hlck
    obtain ⟨c', hc', hlck⟩ := hlck
    rw [store_eq_some.mpr ⟨c, hc, rfl⟩, store_eq_some.mpr ⟨c', hc', rfl⟩, h.bytes_eq hc, h'.bytes_eq hc',
      hlck, hrequest, hcontent (mem_live_of_entry h hc)]

/-! ## What the calls do to the store -/

/-- **Malloc.** -/
theorem MsInv.store_malloced (h : MsInv s owner content) (hm : Malloced s content ms' t n hold res) :
    s.store res.vaddr = none ∧ ∃ bytes, bytes.length = n ∧ (s.malloced ms' t n res).store =
      Function.update s.store res.vaddr (some ⟨if hold then RwLock.acqWrite {} t else {}, bytes⟩) := by
  obtain ⟨owner', content', h', hkept⟩ := hm.kept
  have hnone : s.ms.adb.entry res.vaddr = none := by
    cases hc : s.ms.adb.entry res.vaddr with
    | none => rfl
    | some c => exact absurd (mem_live_of_entry h hc) hm.fresh
  obtain ⟨c, hc, hlck⟩ := Option.map_eq_some_iff.mp hm.lck
  refine ⟨store_eq_none.mpr hnone, (s.malloced ms' t n res).bytes res.vaddr c.paddr, ?_, funext fun w => ?_⟩
  · rw [length_bytes]
    exact Function.update_self ..
  · by_cases heq : w = res.vaddr
    · subst heq
      rw [Function.update_self, store_eq_some]
      exact ⟨c, hc, by rw [hlck]⟩
    · rw [Function.update_of_ne heq]
      have hentry : ms'.adb.entry w = s.ms.adb.entry w := hm.others w heq
      have hrequest : (s.malloced ms' t n res).request w = s.request w := Function.update_of_ne heq _ _
      exact h.store_same h' (congrArg _ hentry) hrequest (hkept w)

/-- **Free.** -/
theorem MsInv.store_free (h : MsInv s owner content) (hv : v ∈ s.live) (hfree : msFree s.ms t v = some ms') :
    (∃ d, s.store v = some d ∧ d.lck.isFree = true) ∧
      MsSys.store { s with ms := ms', live := s.live.filter (· ≠ v), frees := s.frees + 1 } =
        Function.update s.store v none := by
  obtain ⟨⟨c, hc, hlck⟩, -, hentry⟩ := h.msFree_entry hfree
  have h' := h.free hv hfree
  refine ⟨⟨_, store_eq_some.mpr ⟨c, hc, rfl⟩, hlck⟩, funext fun w => ?_⟩
  by_cases heq : w = v
  · subst heq
    rw [Function.update_self, store_eq_none]
    exact (hentry w).trans (if_pos rfl)
  · rw [Function.update_of_ne heq]
    refine h.store_same h' ?_ rfl fun _ => rfl
    rw [show ms'.adb.entry w = _ from hentry w, if_neg heq]

/-- **Shift.** -/
theorem MsInv.store_fullShift (h : MsInv s owner content) {fuel : Nat}
    (hshift : msTryFullShift s.ms t fuel = some ms') : MsSys.store { s with ms := ms' } = s.store :=
  funext fun w => h.store_same (h.fullShift hshift) ((h.fullShift_locks hshift).1 w) rfl fun _ => rfl

/-- A lock operation. -/
theorem MsInv.store_lock (h : MsInv s owner content) {grants : List Grant} {lck : RwLock}
    (hc : s.ms.adb.entry v = some c) (hassigned : s.ms.adb.Assigned adb' v { c with lck := lck })
    (h' : MsInv { s with ms := { s.ms with adb := adb' }, grants := grants } owner content) :
    MsSys.store { s with ms := { s.ms with adb := adb' }, grants := grants } =
      Function.update s.store v (some ⟨lck, s.bytes v c.paddr⟩) := by
  funext w
  by_cases heq : w = v
  · subst heq
    rw [Function.update_self, store_eq_some]
    refine ⟨{ c with lck := lck }, hassigned.self, ?_⟩
    rw [h.bytes_eq hc, h'.bytes_eq (c := { c with lck := lck }) hassigned.self]
  · rw [Function.update_of_ne heq]
    refine h.store_same h' ?_ rfl fun _ => rfl
    rw [show AddrBook.entry adb' w = _ from hassigned.entry w, if_neg heq]

/-- **Write.** -/
theorem MsInv.store_write (h : MsInv s owner content) (hc : s.ms.adb.entry v = some c) {off : Nat}
    (hoff : off < s.request v) (byte : UInt8) :
    ∃ ms', s.ms.setByte (c.paddr + mallocHeaderSize + off) byte = some ms' ∧ ms'.adb = s.ms.adb ∧
      MsSound { s with ms := ms' } ∧ MsSys.store { s with ms := ms' } =
        Function.update s.store v (some ⟨c.lck, (s.bytes v c.paddr).set off byte⟩) := by
  obtain ⟨ms', hset, hadb, h'⟩ := h.writeAt (mem_live_of_entry h hc) hc hoff byte
  refine ⟨ms', hset, hadb, ⟨owner, _, h'⟩, funext fun w => ?_⟩
  have hentry : ms'.adb.entry w = s.ms.adb.entry w := by rw [hadb]
  by_cases heq : w = v
  · subst heq
    rw [Function.update_self, store_eq_some]
    refine ⟨c, hentry.trans hc, ?_⟩
    rw [h.bytes_eq hc, h'.bytes_eq (hentry.trans hc)]
    refine congrArg _ (List.ext_getElem? fun i => ?_)
    rw [List.getElem?_set, List.getElem?_map, List.getElem?_map, List.length_map, List.length_range,
      if_pos hoff]
    by_cases hi : i < s.request w
    · rw [List.getElem?_range hi, Option.map_some, Option.map_some, Function.update_self]
      by_cases hoi : off = i
      · rw [hoi, if_pos rfl, Function.update_self]
        rfl
      · rw [if_neg hoi, Function.update_of_ne (by omega)]
    · rw [List.getElem?_eq_none (by rw [List.length_range]; omega), if_neg (by omega)]
      rfl
  · rw [Function.update_of_ne heq]
    exact h.store_same h' (congrArg _ hentry) rfl fun _ => Function.update_of_ne heq _ _

/-! ## The steps -/

/-- **Step lemma.** A step is one step of the store, the one its call is, or none. -/
theorem msStep_store {a : MsAct} (h : MsSound s) (hlive : usesLive s a) (hfits : requestFits a)
    (hstep : msStep s a = some s') :
    ∃ acts, isCall a acts ∧ ((acts = [] ∧ s'.store = s.store) ∨
      ∃ act, acts = [act] ∧ storeStep s.store act = some s'.store) := by
  obtain ⟨owner, content, h⟩ := h
  cases a with
  | malloc t n hold addr mem =>
    simp only [msStep] at hstep
    split at hstep
    · cases hstep
    next res ms' hres =>
      rcases h.malloc hlive hfits hres with ⟨hzero, hnull, rfl⟩ | hm
      · rw [if_pos hnull] at hstep
        cases hstep
        exact ⟨[], .inl ⟨hzero, rfl⟩, .inl ⟨rfl, rfl⟩⟩
      · rw [if_neg hm.ne_null] at hstep
        cases hstep
        obtain ⟨hnone, bytes, hlen, hstore⟩ := h.store_malloced hm
        refine ⟨_, .inr ⟨res.vaddr, bytes, hlen, rfl⟩, .inr ⟨_, rfl, ?_⟩⟩
        have hne : bytes ≠ [] := by
          rintro rfl
          obtain rfl : n = 0 := hlen.symm
          rw [msMallocP_zero] at hres
          cases hres
          exact hm.ne_null rfl
        rw [storeStep, if_pos ⟨hnone, hm.ne_null, hne⟩, hstore]
  | free t v =>
    obtain ⟨ms', hfree, rfl⟩ := Option.map_eq_some_iff.mp hstep
    obtain ⟨⟨d, hd, hlck⟩, hstore⟩ := h.store_free hlive hfree
    refine ⟨_, rfl, .inr ⟨_, rfl, ?_⟩⟩
    rw [hstore]
    exact Store.modify_eq_some hd (if_pos hlck)
  | tryFullShift t fuel =>
    obtain ⟨ms', hshift, rfl⟩ := Option.map_eq_some_iff.mp hstep
    exact ⟨[], rfl, .inl ⟨rfl, h.store_fullShift hshift⟩⟩
  | getRead t v =>
    obtain ⟨⟨paddr, adb'⟩, hget, rfl⟩ := Option.map_eq_some_iff.mp hstep
    obtain ⟨c, hc, hlck, rfl, hassigned⟩ := AddrBook.adbGetRead_eq_some h.quiet hget
    have h' := h.get hlive hc hassigned fun u => RwLock.heldBy_acqRead ..
    refine ⟨_, rfl, .inr ⟨_, rfl, ?_⟩⟩
    rw [h.store_lock hc hassigned h']
    exact Store.modify_eq_some (store_eq_some.mpr ⟨c, hc, rfl⟩) (if_pos hlck)
  | getWrite t v =>
    obtain ⟨⟨paddr, adb'⟩, hget, rfl⟩ := Option.map_eq_some_iff.mp hstep
    obtain ⟨c, hc, hlck, rfl, hassigned⟩ := AddrBook.adbGetWrite_eq_some h.quiet hget
    have h' := h.get hlive hc hassigned fun u => by
      rw [RwLock.heldBy_acqWrite hlck, RwLock.heldBy_of_isFree hlck, Nat.zero_add]
    refine ⟨_, rfl, .inr ⟨_, rfl, ?_⟩⟩
    rw [h.store_lock hc hassigned h']
    exact Store.modify_eq_some (store_eq_some.mpr ⟨c, hc, rfl⟩) (if_pos hlck)
  | unlock t v =>
    obtain ⟨adb', hunlock, rfl⟩ := Option.map_eq_some_iff.mp hstep
    obtain ⟨c, hc, hholds, hassigned⟩ := AddrBook.adbUnlock_eq_some h.quiet hunlock
    refine ⟨_, rfl, .inr ⟨_, rfl, ?_⟩⟩
    rw [h.store_lock hc hassigned (h.unlock hlive hc hholds hassigned)]
    exact Store.modify_eq_some (store_eq_some.mpr ⟨c, hc, rfl⟩) (if_pos hholds)
  | write t v off byte =>
    simp only [msStep] at hstep
    split at hstep
    next c g hcell hg =>
      split at hstep
      next hcond =>
        obtain ⟨ms', hwrite, rfl⟩ := Option.map_eq_some_iff.mp hstep
        have hgv : g.vaddr = v := (isGrant_iff.mp (List.find?_some hg)).2
        subst hgv
        obtain ⟨d, hd, hpaddr⟩ := h.grant_entry (List.mem_of_find?_eq_some hg)
        rw [(AddrBook.entry_eq_some.mp hd).1] at hcell
        cases hcell
        obtain ⟨ms₁, hset, -, -, hstore⟩ := h.store_write hd hcond.2 byte
        rw [hpaddr, hset] at hwrite
        cases hwrite
        refine ⟨_, rfl, .inr ⟨_, rfl, ?_⟩⟩
        rw [hstore]
        refine Store.modify_eq_some (store_eq_some.mpr ⟨_, hd, rfl⟩) (if_pos ⟨hcond.1, ?_⟩)
        rw [length_bytes]
        exact hcond.2
      next => cases hstep
    next => cases hstep

theorem msStep_simulates {a : MsAct} (h : MsSound s) (hok : usesLive s a ∧ requestFits a)
    (hstep : msStep s a = some s') : MsSound s' ∧ ∃ tr, Steps storeStep
      (fun _ _ => True) s.store tr s'.store ∧
      isCall a (tr.map Prod.snd) := by
  refine ⟨msStep_sound h hok.1 hok.2 hstep, ?_⟩
  obtain ⟨acts, hcall, ⟨rfl, hsame⟩ | ⟨act, rfl, hact⟩⟩ := msStep_store h hok.1 hok.2 hstep
  · exact ⟨[], hsame ▸ .nil, hcall⟩
  · exact ⟨[(s.store, act)], .single trivial hact, hcall⟩

theorem store_new {seed adbTCap mbMBytes addr : Nat} {mem : Mem} {ms : MemSpace}
    (hnew : newMemSpaceSeed seed adbTCap mbMBytes addr mem = some ms) :
    (MsSys.new ms).store = fun _ => none := by
  funext v
  rw [store_eq_none]
  obtain ⟨-, adb, hadb, rfl⟩ := newMemSpaceSeed_eq hnew
  obtain ⟨-, rfl⟩ := newAddrBook_eq_some.mp hadb
  rfl

/-- Between two calls the holders of a lock find the bytes of the store where they were told to. -/
theorem MsInv.grant_bytes (h : MsInv s owner content) {g : Grant} (hg : g ∈ s.grants) :
    ∃ d, s.store g.vaddr = some d ∧ d.lck.holds g.tid = true ∧
      ∀ i < d.bytes.length, s.ms.getByte (g.paddr + mallocHeaderSize + i) = d.bytes[i]? := by
  have hv := h.grants g hg
  obtain ⟨b, hb, howner⟩ := h.owned _ hv
  obtain ⟨ps, l, hinv⟩ := h.parts b hb
  obtain ⟨c, hc, hpaddr⟩ := h.grant_entry hg
  have hcount := hinv.held g.vaddr (mem_part_live.mpr ⟨hv, howner⟩) c hc g.tid
  have hpos : 0 < c.lck.heldBy g.tid := by
    rw [← hcount]
    refine List.countP_pos_iff.mpr ⟨g, ?_, isGrant_iff.mpr ⟨rfl, rfl⟩⟩
    exact List.mem_filter.mpr ⟨hg, decide_eq_true howner⟩
  refine ⟨_, store_eq_some.mpr ⟨c, hc, rfl⟩, RwLock.holds_iff_heldBy_pos.mpr hpos, ?_⟩
  rw [hpaddr]
  exact h.getByte_bytes hc

/-- **The space refines the store.** Under every interleaving, whatever the blocks, the seeds and the
shifts do, the calls on a memory space are the steps of a store, and a holder of a lock reads the bytes of
the store behind the pointer it got. -/
theorem space_refines_store {seed adbTCap mbMBytes addr : Nat} {mem : Mem} {ms : MemSpace}
    (hcap : adbTCap < 2 ^ 64) (hpad : mbMBytes + 33 < 2 ^ 64) (hfits : FitsBlock mbMBytes)
    (hnew : newMemSpaceSeed seed adbTCap mbMBytes addr mem = some ms) {tr : List (MsSys × MsAct)}
    (h : Steps msStep (fun s a => usesLive s a ∧ requestFits a) (MsSys.new ms) tr s) :
    (∃ tr', Steps storeStep (fun _ _ => True) (fun _ => none) tr' s.store ∧
      Shows isCall (tr.map Prod.snd) (tr'.map Prod.snd)) ∧
    ∀ g ∈ s.grants, ∃ d, s.store g.vaddr = some d ∧ d.lck.holds g.tid = true ∧
      ∀ i < d.bytes.length, s.ms.getByte (g.paddr + mallocHeaderSize + i) = d.bytes[i]? := by
  have hstep : ∀ m a m', MsSound m → usesLive m a ∧ requestFits a → msStep m a = some m' → MsSound m' ∧
      ∃ tr, Steps storeStep (fun _ _ => True) m.store tr m'.store ∧ isCall a (tr.map Prod.snd) :=
    fun _ _ _ => msStep_simulates
  obtain ⟨⟨owner, content, hinv⟩, hrun⟩ := h.simulate hstep (msSound_new hcap hpad hfits hnew)
  rw [store_new hnew] at hrun
  exact ⟨hrun, fun g hg => hinv.grant_bytes hg⟩

/-- The rule of the runs, decided. -/
def ruleCheck (s : MsSys) : MsAct → Bool
  | .malloc _ minBytes .. => minBytes + mallocHeaderSize + 33 < 2 ^ 64 && FitsBlock
      (minBytes + mallocHeaderSize)
  | .free _ v | .getRead _ v | .getWrite _ v | .unlock _ v => s.live.contains v
  | _ => true

theorem ruleCheck_sound (s : MsSys) (a : MsAct) (h : ruleCheck s a = true) : usesLive s a ∧
    requestFits a := by
  cases a with
  | malloc t n =>
    obtain ⟨hpad, hfits⟩ := Bool.and_eq_true_iff.mp h
    have hpad' : n + mallocHeaderSize + 33 < 2 ^ 64 := of_decide_eq_true hpad
    have hfits' : FitsBlock (n + mallocHeaderSize) := of_decide_eq_true hfits
    exact ⟨hpad', hfits'⟩
  | free t v | getRead t v | getWrite t v | unlock t v => exact ⟨List.contains_iff_mem.mp h, trivial⟩
  | tryFullShift | write => exact ⟨trivial, trivial⟩

/-- A byte is written, its piece is moved over a freed one, and a thread that locks the vaddr finds the
byte behind the pointer that it gets. -/
theorem space_refines_store_moved : ∃ (s : MsSys) (g : Grant) (acts : List MsAct)
    (tr' : List (Store × StoreAct)),
    s.grants = [g] ∧ Shows isCall acts (tr'.map Prod.snd) ∧ acts.length = 7 ∧
    Steps storeStep (fun _ _ => True) (fun _ => none) tr' s.store ∧
    s.ms.getByte (g.paddr + mallocHeaderSize + 3) = some 7 := by
  obtain ⟨ms, s, hnew, hrun, hgrants, hbyte⟩ : ∃ ms, ∃ s : MsSys,
      newMemSpaceSeed 1 2 100 4096 ⟨fun _ => 0⟩ = some ms ∧
      exec msStep ruleCheck (MsSys.new ms)
        [.malloc 0 8 false 8192 ⟨fun _ => 0⟩, .malloc 0 8 true 8192 ⟨fun _ => 0⟩, .write 0 ⟨0, 0⟩ 3 7,
          .unlock 0 ⟨0, 0⟩, .free 1 ⟨0, 1⟩, .tryFullShift 1 3, .getRead 1 ⟨0, 0⟩] = some s ∧
      s.grants = [⟨1, ⟨0, 0⟩, 4344⟩] ∧ (s.store ⟨0, 0⟩).map (·.bytes) = some [0, 0, 0, 7, 0, 0, 0, 0] :=
    ⟨_, _, rfl, rfl, rfl, rfl⟩
  obtain ⟨tr, hacts, hsteps⟩ := steps_of_exec ruleCheck_sound _ hrun
  obtain ⟨⟨tr', hstore, hshows⟩, hread⟩ := space_refines_store (by decide) (by decide)
    (show FitsBlock 100 by decide) hnew hsteps
  rw [hacts] at hshows
  obtain ⟨d, hd, -, hbytes⟩ := hread ⟨1, ⟨0, 0⟩, 4344⟩ (by rw [hgrants]; exact List.mem_cons_self)
  rw [hd, Option.map_some, Option.some.injEq] at hbyte
  refine ⟨s, _, _, tr', hgrants, hshows, rfl, hstore, ?_⟩
  rw [hbytes 3 (by rw [hbyte]; decide), hbyte]
  rfl

/-! ## What the store allows -/

/-- A writer has a pointer. -/
theorem MsInv.exists_grant (h : MsInv s owner content) (hc : s.ms.adb.entry v = some c)
    (hholds : c.lck.holds t = true) : ∃ g, s.grants.find? (isGrant t v) = some g := by
  have hv := mem_live_of_entry h hc
  obtain ⟨b, hb, howner⟩ := h.owned _ hv
  obtain ⟨ps, l, hinv⟩ := h.parts b hb
  have hcount := hinv.held v (mem_part_live.mpr ⟨hv, howner⟩) c hc t
  have hpos := RwLock.holds_iff_heldBy_pos.mp hholds
  rw [← hcount] at hpos
  obtain ⟨g, hg, hgrant⟩ := List.countP_pos_iff.mp hpos
  obtain ⟨g', hfind⟩ := Option.isSome_iff_exists.mp
    (List.find?_isSome.mpr ⟨g, (List.mem_filter.mp hg).1, hgrant⟩)
  exact ⟨g', hfind⟩

/-- **Nothing else is waited for.** A lock operation, a free or a write that the store allows is a call on
the space that returns, in every reachable state; it does what the store says. -/
theorem store_step_returns {seed adbTCap mbMBytes addr : Nat} {mem : Mem} {ms : MemSpace}
    (hcap : adbTCap < 2 ^ 64) (hpad : mbMBytes + 33 < 2 ^ 64) (hfits : FitsBlock mbMBytes)
    (hnew : newMemSpaceSeed seed adbTCap mbMBytes addr mem = some ms)
    (h : Reaches msStep (fun s a => usesLive s a ∧ requestFits a) (MsSys.new ms) s) {act : StoreAct}
    {st : Store} (hact : storeStep s.store act = some st) :
    (∃ t v hold bytes, act = .malloc t v hold bytes) ∨
      ∃ a s', isCall a [act] ∧ usesLive s a ∧ msStep s a = some s' ∧ s'.store = st := by
  obtain ⟨owner, content, hinv⟩ := msSound_reach hcap hpad hfits hnew h
  -- a call that returns does what the store says
  have hdone : ∀ a, (∀ acts, isCall a acts ↔ acts = [act]) → usesLive s a → requestFits a →
      (msStep s a).isSome = true → ∃ a s', isCall a [act] ∧ usesLive s a ∧ msStep s a = some s' ∧ s'.store =
        st := by
    intro a hcall hlive hreq hsome
    obtain ⟨s', hs'⟩ := Option.isSome_iff_exists.mp hsome
    refine ⟨a, s', (hcall _).mpr rfl, hlive, hs', ?_⟩
    obtain ⟨acts, hacts, ⟨rfl, -⟩ | ⟨act', rfl, hact'⟩⟩ := msStep_store ⟨owner, content, hinv⟩ hlive hreq hs'
    · cases (hcall _).mp hacts
    · cases (hcall _).mp hacts
      rw [hact] at hact'
      exact (Option.some.inj hact').symm
  -- the cell that the step is on
  have hcell : ∀ {v f}, s.store.modify v f = some st →
      ∃ c, s.ms.adb.entry v = some c ∧ v ∈ s.live ∧ (f ⟨c.lck, s.bytes v c.paddr⟩).isSome = true := by
    intro v f hf
    obtain ⟨x, hx, -⟩ := Option.map_eq_some_iff.mp hf
    obtain ⟨d, hd, hfd⟩ := Option.bind_eq_some_iff.mp hx
    obtain ⟨c, hc, rfl⟩ := store_eq_some.mp hd
    exact ⟨c, hc, mem_live_of_entry hinv hc, Option.isSome_iff_exists.mpr ⟨x, hfd⟩⟩
  have hguard : ∀ {p : Prop} [Decidable p] {x : Option StoreCell},
      (if p then some x else none).isSome = true → p := fun h => by
    by_contra hp
    rw [if_neg hp] at h
    cases h
  cases act with
  | malloc t v hold bytes => exact .inl ⟨t, v, hold, bytes, rfl⟩
  | free v =>
    obtain ⟨c, hc, hv, hsome⟩ := hcell hact
    refine .inr (hdone (.free 0 v) (fun _ => Iff.rfl) hv trivial ?_)
    have hfree := hinv.msFree_isSome hv hc (hguard hsome) 0
    simp only [msStep, Option.isSome_map, hfree]
  | getRead t v =>
    obtain ⟨c, hc, hv, hsome⟩ := hcell hact
    refine .inr (hdone (.getRead t v) (fun _ => Iff.rfl) hv trivial ?_)
    have hget := AddrBook.adbGetRead_isSome hc (hguard hsome) t
    simp only [msStep, hget, Option.map_some, Option.isSome_some]
  | getWrite t v =>
    obtain ⟨c, hc, hv, hsome⟩ := hcell hact
    refine .inr (hdone (.getWrite t v) (fun _ => Iff.rfl) hv trivial ?_)
    have hget := AddrBook.adbGetWrite_isSome hc (hguard hsome) t
    simp only [msStep, hget, Option.map_some, Option.isSome_some]
  | unlock t v =>
    obtain ⟨c, hc, hv, hsome⟩ := hcell hact
    refine .inr (hdone (.unlock t v) (fun _ => Iff.rfl) hv trivial ?_)
    obtain ⟨adb', hunlock, -⟩ := AddrBook.adbUnlock_isSome hinv.quiet hc (hguard hsome)
    simp only [msStep, hunlock, Option.map_some, Option.isSome_some]
  | write t v off byte =>
    obtain ⟨c, hc, hv, hsome⟩ := hcell hact
    refine .inr (hdone (.write t v off byte) (fun _ => Iff.rfl) trivial trivial ?_)
    obtain ⟨hwriter, hoff⟩ := hguard hsome
    rw [length_bytes] at hoff
    obtain ⟨g, hg⟩ := hinv.exists_grant hc (RwLock.holds_iff.mpr (.inl hwriter))
    have hgv : g.vaddr = v := (isGrant_iff.mp (List.find?_some hg)).2
    obtain ⟨d, hd, hpaddr⟩ := hinv.grant_entry (List.mem_of_find?_eq_some hg)
    rw [hgv, hc] at hd
    cases hd
    obtain ⟨ms', hset, -⟩ := hinv.store_write hc hoff byte
    simp only [msStep, (AddrBook.entry_eq_some.mp hc).1, hg, if_pos (And.intro hwriter hoff), hpaddr, hset,
      Option.map_some, Option.isSome_some]

/-- The store lets the thread that made a vaddr write its last byte, and the space does. -/
theorem store_step_returns_write : ∃ (s s' : MsSys) (a : MsAct), s.live = [⟨0, 1⟩] ∧
    isCall a [.write 0 ⟨0, 1⟩ 7 9] ∧ msStep s a = some s' ∧
    (s'.store ⟨0, 1⟩).map (·.bytes) = some [0, 0, 0, 0, 0, 0, 0, 9] := by
  obtain ⟨ms, s, st, hnew, hrun, hlive, hact, hbytes⟩ : ∃ ms, ∃ s : MsSys, ∃ st : Store,
      newMemSpaceSeed 1 2 100 4096 ⟨fun _ => 0⟩ = some ms ∧
      exec msStep ruleCheck (MsSys.new ms) [.malloc 0 8 true 8192 ⟨fun _ => 0⟩] = some s ∧
      s.live = [⟨0, 1⟩] ∧ storeStep s.store (.write 0 ⟨0, 1⟩ 7 9) = some st ∧
      (st ⟨0, 1⟩).map (·.bytes) = some [0, 0, 0, 0, 0, 0, 0, 9] :=
    ⟨_, _, _, rfl, rfl, rfl, rfl, rfl⟩
  rcases store_step_returns (by decide) (by decide) (show FitsBlock 100 by decide) hnew
    (reaches_of_exec ruleCheck_sound _ hrun) hact with ⟨_, _, _, _, hmalloc⟩ | ⟨a, s', hcall, -, hstep, rfl⟩
  · cases hmalloc
  · exact ⟨s, s', a, hlive, hcall, hstep, hbytes⟩

end Chvm.Ms
