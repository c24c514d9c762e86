import Chvm.Ms.Malloc

/-!
# Every piece is in one block

In every reachable state the header of a live vaddr names the block of the list that its piece lies
in, `ms_free` frees it there and nowhere else, a request gets a vaddr with room for it, and `ms_count`
is the number of live vaddrs.
-/

set_option autoImplicit false

namespace Chvm.Ms

open Chvm.Lib Chvm.Virt Chvm.Mb

variable {s s' : MsSys} {owner : Vaddr → Nat} {content : Vaddr → Nat → Option UInt8} {t : Tid} {v : Vaddr}

/-- **Step lemma.** -/
theorem msStep_sound {a : MsAct} (h : MsSound s) (hlive : usesLive s a) (hfits : requestFits a)
    (hstep : msStep s a = some s') : MsSound s' := by
  obtain ⟨owner, content, h⟩ := h
  cases a with
  | malloc t n hold addr mem =>
    simp only [msStep] at hstep
    split at hstep
    · cases hstep
    next res ms' hres =>
      rcases h.malloc hlive hfits hres with ⟨-, hnull, rfl⟩ | hmalloced
      · rw [if_pos hnull] at hstep
        cases hstep
        exact ⟨owner, content, h⟩
      · rw [if_neg hmalloced.ne_null] at hstep
        cases hstep
        exact hmalloced.sound
  | free t v =>
    obtain ⟨ms', hfree, rfl⟩ := Option.map_eq_some_iff.mp hstep
    exact ⟨owner, content, h.free hlive hfree⟩
  | tryFullShift t fuel =>
    obtain ⟨ms', hshift, rfl⟩ := Option.map_eq_some_iff.mp hstep
    exact ⟨owner, content, h.fullShift hshift⟩
  | getRead t v =>
    obtain ⟨⟨paddr, adb'⟩, hget, rfl⟩ := Option.map_eq_some_iff.mp hstep
    obtain ⟨c, hc, -, rfl, hassigned⟩ := AddrBook.adbGetRead_eq_some h.quiet hget
    exact ⟨owner, content, h.get hlive hc hassigned fun u => RwLock.heldBy_acqRead ..⟩
  | getWrite t v =>
    obtain ⟨⟨paddr, adb'⟩, hget, rfl⟩ := Option.map_eq_some_iff.mp hstep
    obtain ⟨c, hc, hfree, rfl, hassigned⟩ := AddrBook.adbGetWrite_eq_some h.quiet hget
    refine ⟨owner, content, h.get hlive hc hassigned fun u => ?_⟩
    rw [RwLock.heldBy_acqWrite hfree, RwLock.heldBy_of_isFree hfree, Nat.zero_add]
  | unlock t v =>
    obtain ⟨adb', hunlock, rfl⟩ := Option.map_eq_some_iff.mp hstep
    obtain ⟨c, hc, hholds, hassigned⟩ := AddrBook.adbUnlock_eq_some h.quiet hunlock
    exact ⟨owner, content, h.unlock hlive hc hholds hassigned⟩
  | write t v off byte =>
    simp only [msStep] at hstep
    split at hstep
    next c g hc hg =>
      split at hstep
      next hcond =>
        obtain ⟨ms', hwrite, rfl⟩ := Option.map_eq_some_iff.mp hstep
        have hgv : g.vaddr = v := (isGrant_iff.mp (List.find?_some hg)).2
        obtain ⟨content', hinv⟩ := h.write (List.mem_of_find?_eq_some hg) (hgv ▸ hcond.2) hwrite
        exact ⟨owner, content', hinv⟩
      next => cases hstep
    next => cases hstep

/-- The tables of the book have one size. -/
theorem msStep_tableCap {a : MsAct} (h : MsSound s) (hlive : usesLive s a) (hfits : requestFits a)
    (hstep : msStep s a = some s') : s'.ms.adb.tableCap = s.ms.adb.tableCap := by
  obtain ⟨owner, content, h⟩ := h
  cases a with
  | malloc t n hold addr mem =>
    simp only [msStep] at hstep
    split at hstep
    · cases hstep
    next res ms' hres =>
      rcases h.malloc hlive hfits hres with ⟨-, hnull, rfl⟩ | hmalloced
      · rw [if_pos hnull] at hstep
        cases hstep
        rfl
      · rw [if_neg hmalloced.ne_null] at hstep
        cases hstep
        exact hmalloced.grown.tableCap
  | free t v =>
    obtain ⟨ms', hfree, rfl⟩ := Option.map_eq_some_iff.mp hstep
    exact (h.msFree_entry hfree).2.1.1
  | tryFullShift t fuel =>
    obtain ⟨ms', hshift, rfl⟩ := Option.map_eq_some_iff.mp hstep
    exact (h.fullShift_locks hshift).2.1
  | getRead t v =>
    obtain ⟨⟨paddr, adb'⟩, hget, rfl⟩ := Option.map_eq_some_iff.mp hstep
    exact (AddrBook.sameSize_adbGetRead hget).1
  | getWrite t v =>
    obtain ⟨⟨paddr, adb'⟩, hget, rfl⟩ := Option.map_eq_some_iff.mp hstep
    exact (AddrBook.sameSize_adbGetWrite hget).1
  | unlock t v =>
    obtain ⟨adb', hunlock, rfl⟩ := Option.map_eq_some_iff.mp hstep
    exact (AddrBook.sameSize_adbUnlock hunlock).1
  | write t v off byte =>
    simp only [msStep] at hstep
    split at hstep
    · split at hstep
      · obtain ⟨ms', hwrite, rfl⟩ := Option.map_eq_some_iff.mp hstep
        unfold MemSpace.setByte at hwrite
        obtain ⟨i, -, rfl⟩ := Option.map_eq_some_iff.mp hwrite
        rfl
      · cases hstep
    · cases hstep

/-- A new space. -/
theorem msSound_new {seed adbTCap mbMBytes addr : Nat} {mem : Mem} {ms : MemSpace}
    (hcap : adbTCap < 2 ^ 64) (hpad : mbMBytes + 33 < 2 ^ 64) (hfits : FitsBlock mbMBytes)
    (hnew : newMemSpaceSeed seed adbTCap mbMBytes addr mem = some ms) : MsSound (MsSys.new ms) := by
  obtain ⟨hgives, adb, hadb, rfl⟩ := newMemSpaceSeed_eq hnew
  have hquiet := AddrBook.quiet_new hadb hcap
  have hplaced : Placed [] := ⟨nofun, .nil⟩
  refine ⟨fun _ => 0, fun _ _ => none, ⟨hpad, hfits⟩, List.cons_ne_nil _ _,
    hplaced.push mem hfits hgives, hquiet, fun b hb => ?_, nofun, nofun, fun v => ?_,
    List.nodup_nil, rfl, nofun, nofun⟩
  · rw [List.mem_singleton.mp hb]
    exact part_new mem hquiet hfits hgives nofun nofun
  · obtain ⟨-, rfl⟩ := newAddrBook_eq_some.mp hadb
    exact iff_of_false Bool.false_ne_true nofun

/-- **Run lemma.** -/
theorem msSound_reach {seed adbTCap mbMBytes addr : Nat} {mem : Mem} {ms : MemSpace}
    (hcap : adbTCap < 2 ^ 64) (hpad : mbMBytes + 33 < 2 ^ 64) (hfits : FitsBlock mbMBytes)
    (hnew : newMemSpaceSeed seed adbTCap mbMBytes addr mem = some ms)
    (h : Reaches msStep (fun s a => usesLive s a ∧ requestFits a) (MsSys.new ms) s) : MsSound s := by
  have hstep : ∀ m a m', MsSound m → usesLive m a ∧ requestFits a → msStep m a = some m' → MsSound m' :=
    fun _ _ _ hm hok hst => msStep_sound hm hok.1 hok.2 hst
  exact h.invariant hstep (msSound_new hcap hpad hfits hnew)

theorem tableCap_reach {seed adbTCap mbMBytes addr : Nat} {mem : Mem} {ms : MemSpace}
    (hcap : adbTCap < 2 ^ 64) (hpad : mbMBytes + 33 < 2 ^ 64) (hfits : FitsBlock mbMBytes)
    (hnew : newMemSpaceSeed seed adbTCap mbMBytes addr mem = some ms)
    (h : Reaches msStep (fun s a => usesLive s a ∧ requestFits a) (MsSys.new ms) s) :
    s.ms.adb.tableCap = adbTCap := by
  obtain ⟨tr, hrun⟩ := h
  induction hrun with
  | nil =>
    obtain ⟨-, adb, hadb, rfl⟩ := newMemSpaceSeed_eq hnew
    obtain ⟨-, rfl⟩ := newAddrBook_eq_some.mp hadb
    rfl
  | @snoc tr m m' a hrun hok hstep ih =>
    exact (msStep_tableCap (msSound_reach hcap hpad hfits hnew ⟨tr, hrun⟩) hok.1 hok.2 hstep).trans ih

/-! ## What the threads see -/

/-- The piece of a vaddr, its header at `paddr`: the header names the block, the piece lies in the
block's buffer and touches no other, and behind the header there are at least `n` bytes. -/
structure Owned (ms : MemSpace) (v : Vaddr) (n : Nat) (b : SpaceBlock) (paddr : Nat) : Prop where
  mem : b ∈ ms.mbList
  cell : ∃ c, ms.adb.entry v = some c ∧ c.paddr = paddr
  header : msHeader ms paddr = some b.addr
  inside : b.addr + memBlockHeaderSize ≤ paddr ∧ paddr + bodySize b.mb.mem paddr ≤ b.addr + b.size
  only : ∀ c ∈ ms.mbList, ∀ x, paddr ≤ x → x < paddr + bodySize b.mb.mem paddr → c.contains x = true →
    c = b
  room : n + mallocHeaderSize ≤ bodySize b.mb.mem paddr

theorem MsInv.owned_piece (h : MsInv s owner content) (hv : v ∈ s.live) :
    ∃ b paddr, Owned s.ms v (s.request v) b paddr ∧ owner v = b.addr := by
  obtain ⟨i, b, ps, l, p, c, hi, howner, hinv, hp, hkind, hc, hpaddr, hroom⟩ := h.piece hv
  have hb := List.mem_of_getElem? hi
  obtain ⟨hcontains, hload⟩ := h.header_eq hb howner hv hinv hp hkind
  obtain ⟨-, -, hstart, hend⟩ := h.placed.buffer b hb
  have hinside := hinv.block.laid.tiles.mem hp
  have hlow : b.mb.start ≤ p.addr := hinside.1
  have hhigh : p.stop ≤ b.mb.stop := hinside.2.2
  have hbody : bodySize b.mb.mem (mpToMapB p.addr) = p.size - mapPadding := (hinv.block.body hp).1
  have hpad : mapPadding = 32 := rfl
  have haddr : mpToMapB p.addr = p.addr + 24 := rfl
  have hstop := p.stop_eq
  refine ⟨b, mpToMapB p.addr, ⟨hb, ⟨c, hc, hpaddr⟩, ?_, ?_, fun d hd x hle hlt hdx => ?_, ?_⟩, howner⟩
  · unfold msHeader
    rw [h.placed.find hb hcontains, Option.map_some, hload]
  · omega
  · have hbx : b.contains x = true := contains_iff.mpr (by omega)
    exact h.placed.eq_of_contains hd hb hdx hbx
  · omega

/-- The calls of the consumer of `ms_foreach` are on the live vaddrs. -/
theorem MsInv.perm_calls (h : MsInv s owner content) : (s.ms.adb.calls.map (·.1)).Perm s.live := by
  have hnodup : (s.ms.adb.calls.map (·.1)).Nodup := by
    refine (AddrBook.nodup_calls h.quiet).map_on fun p hp q hq heq => ?_
    obtain ⟨c, hc, hpc⟩ := (AddrBook.mem_calls h.quiet).mp hp
    obtain ⟨d, hd, hqd⟩ := (AddrBook.mem_calls h.quiet).mp hq
    rw [heq, hd] at hc
    cases hc
    exact Prod.ext heq (hpc.symm.trans hqd)
  apply (List.perm_ext_iff_of_nodup hnodup h.nodup).mpr
  intro w
  rw [← h.entries, List.mem_map]
  constructor
  · rintro ⟨p, hp, rfl⟩
    obtain ⟨c, hc, -⟩ := (AddrBook.mem_calls h.quiet).mp hp
    exact Option.isSome_iff_exists.mpr ⟨c, hc⟩
  · intro hw
    obtain ⟨c, hc⟩ := Option.isSome_iff_exists.mp hw
    exact ⟨(w, c.paddr), (AddrBook.mem_calls h.quiet).mpr ⟨c, hc, rfl⟩, rfl⟩

theorem MsInv.length_calls (h : MsInv s owner content) : s.ms.adb.calls.length = s.live.length := by
  rw [← h.perm_calls.length_eq, List.length_map]

/-- A loop that counts its turns. -/
theorem foldl_count {α : Type*} (xs : List α) (n : Nat) :
    xs.foldl (fun count _ => count + 1) n = n + xs.length := by
  induction xs generalizing n with
  | nil => rfl
  | cons x xs ih =>
    rw [List.foldl_cons, ih, List.length_cons]
    omega

/-- When no cell's lock is waited for, `ms_count` counts the live vaddrs. -/
theorem MsInv.msCount_eq (h : MsInv s owner content)
    (hlck : ∀ v c, s.ms.adb.cell v = some c → c.lck.canRead = true) :
    msCount s.ms = some s.live.length := by
  unfold msCount msForeach
  rw [AddrBook.adbForeach_eq h.quiet (by simpa using hlck), foldl_count, Nat.zero_add, h.length_calls]

/-- What `ms.c` promises of a state between two calls. -/
structure SpaceSound (s : MsSys) : Prop where
  /-- A live vaddr is in one block, and its header names it. -/
  live : ∀ v ∈ s.live, ∃ b paddr, Owned s.ms v (s.request v) b paddr
  /-- With host memory for a block and for a table of the book, should the call make them, a request gets a
  vaddr, with its bytes behind the header and with the lock for a hold. -/
  malloc : ∀ (t : Tid) (n : Nat) (hold : Bool) (addr : Nat) (mem : Mem), 0 < n →
    n + mallocHeaderSize + 33 < 2 ^ 64 → FitsBlock (n + mallocHeaderSize) → s.ms.Buffer n addr →
    (s.ms.adb.freeList = none → s.ms.adb.book.length + 1 < 2 ^ 64) → ∃ res ms' b paddr,
      msMallocP s.ms t n hold addr mem = some (res, ms') ∧
      res.vaddr ≠ nullVaddr ∧ Owned ms' res.vaddr n b paddr ∧
      res.paddr = if hold then some (paddr + mallocHeaderSize) else none
  /-- A free is `mb_free` in the vaddr's block, and the other blocks are as they were. -/
  free : ∀ (t : Tid) (v : Vaddr) (ms' : MemSpace), v ∈ s.live → msFree s.ms t v = some ms' →
    ∃ (i : Nat) (b : SpaceBlock) (paddr : Nat) (adb adb' : AddrBook) (mb' : MemBlock),
      s.ms.mbList[i]? = some b ∧ Owned s.ms v (s.request v) b paddr ∧
      (∀ w, adb.entry w = s.ms.adb.entry w) ∧ mbFree b.mb adb t v = some (mb', adb') ∧
      ms' = { s.ms with adb := adb', mbList := s.ms.mbList.set i { b with mb := mb' } }
  /-- Only the lock of the vaddr keeps a free from returning. -/
  freeReturns : ∀ (t : Tid) (v : Vaddr) (c : AddrTableCell), v ∈ s.live → s.ms.adb.entry v = some c →
    c.lck.isFree = true → (msFree s.ms t v).isSome = true
  /-- When no cell's lock is waited for, the count is the mallocs less the frees. -/
  count : (∀ v c, s.ms.adb.cell v = some c → c.lck.canRead = true) →
    ∃ count, msCount s.ms = some count ∧ count + s.frees = s.mallocs

/-- **Every piece is in one block.** In a run on blocks and tables whose bytes fit a word, from any seed and
any bytes the host's buffers hold, every state is sound. -/
theorem pieces_owned {seed adbTCap mbMBytes addr : Nat} {mem : Mem} {ms : MemSpace}
    (hcap : FitsTable adbTCap) (hpad : mbMBytes + 33 < 2 ^ 64) (hfits : FitsBlock mbMBytes)
    (hnew : newMemSpaceSeed seed adbTCap mbMBytes addr mem = some ms)
    (h : Reaches msStep (fun s a => usesLive s a ∧ requestFits a) (MsSys.new ms) s) : SpaceSound s := by
  obtain ⟨owner, content, hinv⟩ := msSound_reach hcap.lt hpad hfits hnew h
  have htable : FitsTable s.ms.adb.tableCap := (tableCap_reach hcap.lt hpad hfits hnew h).symm ▸ hcap
  refine ⟨fun v hv => ?_, fun t n hold addr mem hpos hn hfits' hgives hroom => ?_,
    fun t v ms' hv hfree => ?_, fun t v c hv hc hlck => hinv.msFree_isSome hv hc hlck t,
    fun hlck => ⟨_, hinv.msCount_eq hlck, hinv.count⟩⟩
  · obtain ⟨b, paddr, howned, -⟩ := hinv.owned_piece hv
    exact ⟨b, paddr, howned⟩
  · obtain ⟨res, ms', hres⟩ := hinv.malloc_isSome hpos hn hfits' t hold mem hgives
      fun hnone => ⟨hroom hnone, htable⟩
    rcases hinv.malloc hn hfits' hres with ⟨hzero, -⟩ | hmalloced
    · omega
    · obtain ⟨owner', content', hinv'⟩ := hmalloced.sound
      obtain ⟨b, paddr, howned, -⟩ := hinv'.owned_piece (v := res.vaddr) List.mem_cons_self
      obtain ⟨c, hc, hpaddr⟩ := hmalloced.entry
      obtain ⟨d, hd, rfl⟩ := howned.cell
      have hsame : ms'.adb.entry res.vaddr = some d := hd
      rw [hc] at hsame
      cases hsame
      unfold MsSys.malloced at howned
      simp only [Function.update_self] at howned
      exact ⟨res, ms', b, c.paddr, hres, hmalloced.ne_null, howned, hpaddr⟩
  · obtain ⟨i, b, adb, mb', adb', hb, howner, -, hsame, hmb, heq⟩ := hinv.msFree_eq hv hfree
    obtain ⟨b', paddr, howned, howner'⟩ := hinv.owned_piece hv
    have hbb : b = b' := by
      obtain ⟨j, hj⟩ := List.mem_iff_getElem?.mp howned.mem
      cases hinv.placed.index_eq_of_addr hb hj (howner.symm.trans howner')
      rw [hb] at hj
      cases hj
      rfl
    exact ⟨i, b, paddr, adb, adb', mb', hb, hbb ▸ howned, hsame, hmb, heq⟩

/-- A new space with blocks of 100 bytes meets a request for 16, held. -/
theorem pieces_owned_fresh : ∃ ms res ms' b paddr,
    newMemSpaceSeed 1 2 100 4096 ⟨fun _ => 0⟩ = some ms ∧
    msMallocP ms 0 16 true 8192 ⟨fun _ => 0⟩ = some (res, ms') ∧ res.vaddr ≠ nullVaddr ∧
    Owned ms' res.vaddr 16 b paddr ∧ res.paddr = some (paddr + mallocHeaderSize) := by
  obtain ⟨ms, hnew⟩ : ∃ ms, newMemSpaceSeed 1 2 100 4096 ⟨fun _ => 0⟩ = some ms := ⟨_, rfl⟩
  have hsound := pieces_owned (by decide) (by decide) (show FitsBlock 100 by decide) hnew (.refl _)
  have hbuffer : ms.Buffer 16 8192 ∧ (ms.adb.freeList = none → ms.adb.book.length + 1 < 2 ^ 64) := by
    cases hnew
    exact ⟨by unfold MemSpace.Buffer; decide, fun _ => by decide⟩
  obtain ⟨res, ms', b, paddr, hres, hne, howned, hpaddr⟩ := hsound.malloc 0 16 true 8192 ⟨fun _ => 0⟩
    (by decide) (by decide) (by decide) hbuffer.1 hbuffer.2
  exact ⟨ms, res, ms', b, paddr, hnew, hres, hne, howned, hpaddr⟩

/-- The block for a request of 2^64 - 100 bytes gets a buffer of 164 bytes, less than its header, since
`sizeof(mem_block_header) + padded_cap` wraps: the vaddr's piece is not in the buffer. -/
theorem wrapped_block_overrun : ∃ ms res ms', newMemSpaceSeed 1 2 100 4096 ⟨fun _ => 0⟩ = some ms ∧
    2 ^ 64 - 100 + mallocHeaderSize + 33 < 2 ^ 64 ∧ ms.Buffer (2 ^ 64 - 100) 8192 ∧ ms.adb.TableRoom ∧
    msMallocP ms 0 (2 ^ 64 - 100) false 8192 ⟨fun _ => 0⟩ = some (res, ms') ∧
    res.vaddr ≠ nullVaddr ∧ ms'.mbList.map (·.size) = [356, 164] ∧
    ¬∃ b paddr, Owned ms' res.vaddr (2 ^ 64 - 100) b paddr := by
  obtain ⟨ms, res, ms', hnew, hpad, hbuffer, hroom, hres, hne, hsizes⟩ : ∃ ms res ms',
      newMemSpaceSeed 1 2 100 4096 ⟨fun _ => 0⟩ = some ms ∧
      2 ^ 64 - 100 + mallocHeaderSize + 33 < 2 ^ 64 ∧ ms.Buffer (2 ^ 64 - 100) 8192 ∧ ms.adb.TableRoom ∧
      msMallocP ms 0 (2 ^ 64 - 100) false 8192 ⟨fun _ => 0⟩ = some (res, ms') ∧
      res.vaddr ≠ nullVaddr ∧ ms'.mbList.map (·.size) = [356, 164] :=
    ⟨_, _, _, rfl, by decide, by unfold MemSpace.Buffer; decide, fun _ => by decide, rfl, by decide, rfl⟩
  refine ⟨ms, res, ms', hnew, hpad, hbuffer, hroom, hres, hne, hsizes, ?_⟩
  rintro ⟨b, paddr, howned⟩
  have hmem : b.size ∈ ms'.mbList.map (·.size) := List.mem_map.mpr ⟨b, howned.mem, rfl⟩
  rw [hsizes, List.mem_cons, List.mem_singleton] at hmem
  have hinside := howned.inside
  have hlarge := howned.room
  omega

end Chvm.Ms
