import Chvm.Mb.System

/-!
# What holds in every reachable state

Any interleaving of the calls on a block, of the lock operations and of the writes of lock holders
leaves the block well formed between two calls, keeps the bodies of the live vaddrs apart and where
their lock holders know them, and keeps the bytes last written. The calls return, and `mb_malloc_p`
gives out what `mb_free_space` promises unless the padded size wraps.
-/

set_option autoImplicit false

namespace Chvm.Mb

open Chvm.Lib Chvm.Virt

variable {mem : Mem} {mb mb' : MemBlock} {adb adb' : AddrBook} {ps l : List Piece} {s : MemSys}
  {start minBytes : Nat}

/-! ## The walk over the pieces -/

/-- The walk visits the pieces in the order of their addresses. -/
theorem mbWalk_eq {a fuel : Nat} (htiles : Tiles a ps mb.stop) (hfit : ∀ p ∈ ps, Fit p)
    (hkept : ∀ p ∈ ps, Kept mb.mem p) (hfuel : ps.length < fuel) :
    mbWalk mb fuel a = some (ps.map (·.addr)) := by
  induction ps generalizing a fuel with
  | nil =>
    obtain ⟨fuel, rfl⟩ := Nat.exists_eq_succ_of_ne_zero (Nat.ne_zero_of_lt hfuel)
    have hstop : a = mb.stop := htiles
    exact if_neg (by omega)
  | cons p ps ih =>
    obtain ⟨fuel, rfl⟩ := Nat.exists_eq_succ_of_ne_zero (Nat.ne_zero_of_lt hfuel)
    obtain ⟨rfl, hsize, hrest⟩ := htiles
    have hle := hrest.le
    have hstop := p.stop_eq
    have hnext := (hkept p List.mem_cons_self).next (hfit p List.mem_cons_self)
    rw [mbWalk, if_pos (by omega), hnext,
      ih hrest (fun q hq => hfit q (List.mem_cons_of_mem p hq))
        (fun q hq => hkept q (List.mem_cons_of_mem p hq)) (Nat.lt_of_succ_lt_succ hfuel)]
    rfl

theorem Block.length_lt (h : Block mb adb ps l) : ps.length < mb.cap + 1 := by
  have hlen := h.laid.tiles.length_le fun p hp => (h.laid.fit p (List.mem_append_left _ hp)).size_ge
  unfold MemBlock.stop at hlen
  omega

/-- `mb_count` counts the allocated pieces. -/
theorem Block.count (h : Block mb adb ps l) :
    mbCount mb = some (ps.countP (·.kind.isSome)) := by
  have hmem : ∀ p ∈ ps, p ∈ ps ++ [] := fun p hp => List.mem_append_left _ hp
  have hwalk := mbWalk_eq h.laid.tiles (fun p hp => h.laid.fit p (hmem p hp))
    (fun p hp => h.laid.kept p (hmem p hp)) h.length_lt
  rw [mbCount, hwalk, Option.map_some, List.countP_map]
  refine congrArg some (List.countP_congr fun p hp => ?_)
  rw [Function.comp_apply, (h.laid.kept p (hmem p hp)).alloc (h.laid.fit p (hmem p hp))]

/-! ## The representation -/

/-- The pieces `ps`, in the order of their addresses, and the free list `l` that a block represents
together with its address book. -/
structure WellFormed (mb : MemBlock) (adb : AddrBook) (ps l : List Piece) : Prop where
  walk : mbWalk mb (mb.cap + 1) mb.start = some (ps.map (·.addr))
  tiles : Tiles mb.start ps (mb.start + mb.cap)
  next : ∀ p ∈ ps, mpNext mb.mem p.addr = p.stop
  sizes : ∀ p ∈ ps, p.size % 2 = 0 ∧ mpMinSize ≤ p.size
  tags : ∀ p ∈ ps, mb.mem.load64 p.addr = mpTag p.size p.kind.isSome ∧
    mb.mem.load64 (p.stop - 8) = mpTag p.size p.kind.isSome
  coalesced : ps.IsChain fun p q => p.kind.isSome = true ∨ q.kind.isSome = true
  linked : Linked (sizeFreeNext mb.mem) (sizeFreePrev mb.mem) mb.sizeFreeList (l.map node)
  listed : l.Nodup ∧ ∀ p, p ∈ l ↔ p ∈ ps ∧ p.kind = none
  sorted : l.Pairwise fun p q => q.size ≤ p.size
  vaddrs : ∀ p ∈ ps, ∀ v, p.kind = some v → loadVaddr mb.mem (mpBody p.addr) = v ∧
    ∃ c, adb.entry v = some c ∧ c.paddr = mpToMapB p.addr
  distinct : ∀ p ∈ ps, ∀ q ∈ ps, ∀ v, p.kind = some v → q.kind = some v → p = q

theorem Block.wellFormed (h : Block mb adb ps l) : WellFormed mb adb ps l := by
  have hmem : ∀ p ∈ ps, p ∈ ps ++ [] := fun p hp => List.mem_append_left _ hp
  have hfit : ∀ p ∈ ps, Fit p := fun p hp => h.laid.fit p (hmem p hp)
  have hkept : ∀ p ∈ ps, Kept mb.mem p := fun p hp => h.laid.kept p (hmem p hp)
  refine {
    walk := mbWalk_eq h.laid.tiles hfit hkept h.length_lt
    tiles := h.laid.tiles
    next := fun p hp => (hkept p hp).next (hfit p hp)
    sizes := fun p hp => ⟨(hfit p hp).even, (hfit p hp).large⟩
    tags := fun p hp => ⟨(hkept p hp).header, (hkept p hp).footer⟩
    coalesced := h.coalesced
    linked := h.laid.linked
    listed := ⟨h.laid.listed.nodup_iff.mpr (h.laid.nodup.filter _), fun p => ?_⟩
    sorted := h.laid.sorted
    vaddrs := fun p hp v hv => ⟨(hkept p hp).vaddr v hv, h.entries p hp v hv⟩
    distinct := fun p hp q hq v hpv hqv => h.vaddr_inj hp hq hpv hqv }
  rw [h.laid.mem_listed, List.append_nil]

theorem fields_memStep {s' : MemSys} {a : MemAct} (hinv : MemSound s)
    (hok : usesLive s a) (hstep : memStep s a = some s') :
    s'.mb.start = s.mb.start ∧ s'.mb.cap = s.mb.cap := by
  obtain ⟨ps, l, h⟩ := hinv
  cases a with
  | malloc t minBytes hold =>
    simp only [memStep] at hstep
    split at hstep
    · cases hstep
    next res mb adb hres =>
      have hfields : mb.start = s.mb.start ∧ mb.cap = s.mb.cap := by
        rcases mbMallocP_cases h.block hres with ⟨_, rfl, _⟩ | ⟨_, _, _, _, _, _, _, hchanged, _⟩
        · exact ⟨rfl, rfl⟩
        · exact hchanged.fields
      split at hstep <;> cases hstep <;> exact hfields
  | free t v =>
    simp only [memStep] at hstep
    split at hstep
    · cases hstep
    next mb adb hfree =>
      cases hstep
      obtain ⟨p, hp, hkind, -⟩ := h.piece hok
      obtain ⟨_, _, _, _, hchanged, _⟩ := mbFree_cases h.block hp hkind hfree
      exact hchanged.fields
  | tryShift t =>
    simp only [memStep] at hstep
    split at hstep
    · cases hstep
    next res mb adb hshift =>
      cases hstep
      obtain ⟨_, _, _, heq, hspec⟩ := mbTryShift_eq h.block t
      rw [hshift] at heq
      cases heq
      rcases hspec with ⟨rfl, _⟩ | ⟨_, _, _, _, _, _, _, hshifted⟩
      · exact ⟨rfl, rfl⟩
      · exact hshifted.changed.fields
  | getRead t v | getWrite t v | unlock t v =>
    simp only [memStep] at hstep
    split at hstep
    · cases hstep
    · cases hstep
      exact ⟨rfl, rfl⟩
  | write t v off b =>
    simp only [memStep] at hstep
    split at hstep
    · split at hstep
      · cases hstep
        exact ⟨rfl, rfl⟩
      · cases hstep
    · cases hstep

/-- A block stays where it is, and has the room it was made with. -/
theorem fields_reach (hstart : 0 < start) (hstop : start + padNumBytes minBytes < 2 ^ 64)
    (hquiet : adb.Quiet) (h : Reaches memStep usesLive (MemSys.new start mem minBytes adb) s) :
    s.mb.start = start ∧ s.mb.cap = padNumBytes minBytes := by
  have hstep : ∀ m a m', ((m.mb.start = start ∧ m.mb.cap = padNumBytes minBytes) ∧ MemSound m) →
      usesLive m a → memStep m a = some m' →
      (m'.mb.start = start ∧ m'.mb.cap = padNumBytes minBytes) ∧ MemSound m' := by
    rintro m a m' ⟨⟨hstart, hcap⟩, hinv⟩ hok hm
    obtain ⟨hstart', hcap'⟩ := fields_memStep hinv hok hm
    exact ⟨⟨hstart'.trans hstart, hcap'.trans hcap⟩, memStep_inv hinv hok hm⟩
  exact (h.invariant hstep ⟨⟨rfl, rfl⟩, memInv_new mem minBytes hstart hstop hquiet⟩).1

/-- **The representation invariant.** -/
theorem block_well_formed (hstart : 0 < start) (hstop : start + padNumBytes minBytes < 2 ^ 64)
    (hquiet : adb.Quiet) (h : Reaches memStep usesLive (MemSys.new start mem minBytes adb) s) :
    s.mb.start = start ∧ s.mb.cap = padNumBytes minBytes ∧ ∃ ps l, WellFormed s.mb s.adb ps l := by
  obtain ⟨hs, hc⟩ := fields_reach hstart hstop hquiet h
  obtain ⟨ps, l, hinv⟩ := memInv_reach hstart hstop hquiet h
  exact ⟨hs, hc, ps, l, hinv.block.wellFormed⟩

/-- A block of 100 bytes, in which one thread allocated two pieces, freed the first, and moved the
second down. -/
theorem block_well_formed_shifted : ∃ s : MemSys, s.live = [⟨0, 0⟩] ∧
    mbWalk s.mb 200 64 = some [64, 104] ∧ ∃ ps l, WellFormed s.mb s.adb ps l := by
  obtain ⟨adb, s, hnew, hrun, hlive, hwalk⟩ : ∃ adb, ∃ s : MemSys, newAddrBook 2 = some adb ∧
      exec memStep usesLiveCheck (MemSys.new 64 ⟨fun _ => 0⟩ 100 adb)
        [.malloc 0 8 true, .unlock 0 ⟨0, 1⟩, .malloc 0 8 false, .free 0 ⟨0, 1⟩, .tryShift 0] =
          some s ∧
      s.live = [⟨0, 0⟩] ∧ mbWalk s.mb 200 64 = some [64, 104] :=
    ⟨_, _, rfl, rfl, rfl, rfl⟩
  have hreach : Reaches memStep usesLive (MemSys.new 64 ⟨fun _ => 0⟩ 100 adb) s :=
    reaches_of_exec usesLiveCheck_sound _ hrun
  exact ⟨s, hlive, hwalk, (block_well_formed (by decide) (by decide)
    (AddrBook.quiet_new hnew (by decide)) hreach).2.2⟩

/-! ## The memory behind the vaddrs -/

/-- The body of a piece. -/
theorem Block.body (h : Block mb adb ps l) {p : Piece} (hp : p ∈ ps) :
    bodySize mb.mem (mpToMapB p.addr) = p.size - mapPadding ∧ mb.start ≤ mpToMapB p.addr ∧
      mpToMapB p.addr + (p.size - mapPadding) ≤ p.stop ∧ p.stop ≤ mb.stop := by
  have hmem : p ∈ ps ++ [] := List.mem_append_left _ hp
  have hfit := h.laid.fit p hmem
  have hsize := hfit.size_ge
  obtain ⟨hstart, -, hend⟩ := h.laid.tiles.mem hp
  have hstop := p.stop_eq
  have hpad : mapPadding = 32 := rfl
  have hbody : mpToMapB p.addr = p.addr + 24 := rfl
  refine ⟨?_, by omega, by omega, hend⟩
  rw [bodySize, mapBToMp_mpToMapB, (h.laid.kept p hmem).size hfit]

/-- **Stable, isolated memory.** -/
theorem stable_memory (hstart : 0 < start) (hstop : start + padNumBytes minBytes < 2 ^ 64)
    (hquiet : adb.Quiet) (h : Reaches memStep usesLive (MemSys.new start mem minBytes adb) s) :
    (∀ v ∈ s.live, ∃ c, s.adb.entry v = some c ∧ s.mb.start ≤ c.paddr ∧
      c.paddr + bodySize s.mb.mem c.paddr ≤ s.mb.stop) ∧
    (∀ v ∈ s.live, ∀ w ∈ s.live, v ≠ w → ∀ c d, s.adb.entry v = some c → s.adb.entry w = some d →
      c.paddr + bodySize s.mb.mem c.paddr ≤ d.paddr ∨
        d.paddr + bodySize s.mb.mem d.paddr ≤ c.paddr) ∧
    (∀ g ∈ s.grants, ∃ c, s.adb.entry g.vaddr = some c ∧ c.paddr = g.paddr) ∧
    ∀ v ∈ s.live, ∀ c, s.adb.entry v = some c → ∀ off b, s.content v off = some b →
      s.mb.mem.byte (c.paddr + off) = b := by
  obtain ⟨ps, l, hinv⟩ := memInv_reach hstart hstop hquiet h
  -- the piece that the cell of a live vaddr points to
  have hcell : ∀ v ∈ s.live, ∀ c, s.adb.entry v = some c →
      ∃ p ∈ ps, p.kind = some v ∧ c.paddr = mpToMapB p.addr := by
    intro v hv c hc
    obtain ⟨p, hp, hkind, d, hd, hpaddr⟩ := hinv.piece hv
    rw [hc] at hd
    cases hd
    exact ⟨p, hp, hkind, hpaddr⟩
  refine ⟨fun v hv => ?_, fun v hv w hw hne c d hc hd => ?_, fun g hg => ?_,
    fun v hv c hc off b hcontent => ?_⟩
  · obtain ⟨p, hp, -, c, hc, hpaddr⟩ := hinv.piece hv
    obtain ⟨hsize, hlow, hhigh, hend⟩ := hinv.block.body hp
    refine ⟨c, hc, hpaddr ▸ hlow, ?_⟩
    rw [hpaddr, hsize]
    exact Nat.le_trans hhigh hend
  · obtain ⟨p, hp, hpv, hcp⟩ := hcell v hv c hc
    obtain ⟨q, hq, hqw, hdq⟩ := hcell w hw d hd
    obtain ⟨hpsize, -, hphigh, -⟩ := hinv.block.body hp
    obtain ⟨hqsize, -, hqhigh, -⟩ := hinv.block.body hq
    have hbody : ∀ a, mpToMapB a = a + 24 := fun _ => rfl
    have hpbody := hbody p.addr
    have hqbody := hbody q.addr
    rw [hcp, hdq, hpsize, hqsize]
    rcases Tiles.apart hinv.block.laid.tiles hp hq with rfl | hle | hle
    · rw [hpv] at hqw
      cases hqw
      exact absurd rfl hne
    · exact .inl (by omega)
    · exact .inr (by omega)
  · obtain ⟨hlive, hsame⟩ := hinv.grants g hg
    obtain ⟨-, -, -, c, hc, -⟩ := hinv.piece hlive
    exact ⟨c, hc, (hsame c hc).symm⟩
  · obtain ⟨p, hp, hkind, hpaddr⟩ := hcell v hv c hc
    rw [hpaddr]
    exact (hinv.content p hp v off b hkind hcontent).2

/-- A thread writes a byte into its piece, which is then moved over the freed piece in front of it,
and a thread that locks the vaddr finds the byte at the new address. -/
theorem stable_memory_moved : ∃ s : MemSys, s.grants = [⟨1, ⟨0, 0⟩, 88⟩] ∧
    s.mb.mem.byte (88 + 3) = 7 := by
  obtain ⟨adb, s, hnew, hrun, hgrants, hlive, hcontent⟩ : ∃ adb, ∃ s : MemSys,
      newAddrBook 2 = some adb ∧
      exec memStep usesLiveCheck (MemSys.new 64 ⟨fun _ => 0⟩ 100 adb)
        [.malloc 0 8 false, .malloc 0 8 true, .write 0 ⟨0, 0⟩ 3 7, .unlock 0 ⟨0, 0⟩,
          .free 1 ⟨0, 1⟩, .tryShift 1, .getRead 1 ⟨0, 0⟩] = some s ∧
      s.grants = [⟨1, ⟨0, 0⟩, 88⟩] ∧ s.live = [⟨0, 0⟩] ∧ s.content ⟨0, 0⟩ 3 = some 7 :=
    ⟨_, _, rfl, rfl, rfl, rfl, rfl⟩
  have hreach : Reaches memStep usesLive (MemSys.new 64 ⟨fun _ => 0⟩ 100 adb) s :=
    reaches_of_exec usesLiveCheck_sound _ hrun
  obtain ⟨-, -, hgot, hbytes⟩ := stable_memory (by decide) (by decide)
    (AddrBook.quiet_new hnew (by decide)) hreach
  obtain ⟨c, hc, hpaddr⟩ := hgot ⟨1, ⟨0, 0⟩, 88⟩ (by rw [hgrants]; exact List.mem_cons_self)
  refine ⟨s, hgrants, ?_⟩
  have hbyte := hbytes ⟨0, 0⟩ (by rw [hlive]; exact List.mem_cons_self) c hc 3 7 hcontent
  rw [hpaddr] at hbyte
  exact hbyte

/-! ## The calls return -/

/-- No call runs for ever: what keeps one from returning is the lock of the vaddr to free, or a book without
room for a table. -/
theorem calls_return (hstart : 0 < start) (hstop : start + padNumBytes minBytes < 2 ^ 64)
    (hquiet : adb.Quiet) (h : Reaches memStep usesLive (MemSys.new start mem minBytes adb) s)
    (t : Tid) :
    (∀ n hold, s.adb.TableRoom →
      (memStep s (.malloc t n hold)).isSome = true) ∧
    (∀ v ∈ s.live, (∀ c, s.adb.entry v = some c → c.lck.isFree = true) →
      (memStep s (.free t v)).isSome = true) ∧
    (memStep s (.tryShift t)).isSome = true := by
  obtain ⟨ps, l, hinv⟩ := memInv_reach hstart hstop hquiet h
  refine ⟨fun n hold hroom => ?_, fun v hv hfree => ?_, ?_⟩
  · obtain ⟨res, mb', adb', hres⟩ : ∃ res mb' adb',
        mbMallocP s.mb s.adb t n hold = some (res, mb', adb') := by
      by_cases hfits : Fits s.mb n
      · obtain ⟨res, mb', adb', hres, -⟩ := mbMallocP_of_fits hinv.block hfits t hold hroom
        exact ⟨res, mb', adb', hres⟩
      · exact ⟨_, _, _, mbMallocP_of_not_fits hfits s.adb t hold⟩
    simp only [memStep, hres]
    split <;> rfl
  · obtain ⟨p, hp, hkind, c, hc, -⟩ := hinv.piece hv
    obtain ⟨⟨mb', adb'⟩, hsome⟩ := Option.isSome_iff_exists.mp
      (mbFree_isSome hinv.block hp hkind hc (hfree c hc) t)
    simp only [memStep, hsome, Option.isSome_some]
  · obtain ⟨res, mb', adb', hshift, -⟩ := mbTryShift_eq hinv.block t
    simp only [memStep, hshift, Option.isSome_some]

/-! ## The largest request -/

/-- What `mb_free_space` promises of a request: it is met exactly when it is not larger, a met one
gets its bytes, and one that is not met changes nothing. -/
structure Threshold (mb : MemBlock) (adb : AddrBook) (n : Nat) (res : MallocRes) (mb' : MemBlock)
    (adb' : AddrBook) : Prop where
  exact : res.vaddr ≠ nullVaddr ↔ 0 < n ∧ n ≤ mbFreeSpace mb
  room : res.vaddr ≠ nullVaddr → ∃ c, adb'.entry res.vaddr = some c ∧ n ≤ bodySize mb'.mem c.paddr
  failed : res.vaddr = nullVaddr → mb' = mb ∧ adb' = adb

/-- The padded size of a request that does not wrap. -/
theorem padNumBytes_le {n k : Nat} (hn : n + 33 < 2 ^ 64) (hk : k % 2 = 0) (hmin : mpMinSize ≤ k) :
    padNumBytes n ≤ k ↔ n ≤ k - mapPadding := by
  unfold mpMinSize mfpPadding mpPadding at hmin
  unfold padNumBytes roundNumBytes mpMinSize mapPadding mfpPadding mpPadding
  simp only
  split <;> split <;> omega

/-- The padded size of a request that wraps. -/
theorem padNumBytes_wraps {n : Nat} (hn : n < 2 ^ 64) (hwraps : 2 ^ 64 ≤ n + 33) :
    padNumBytes n = mpMinSize := by
  unfold padNumBytes roundNumBytes mpMinSize mapPadding mfpPadding mpPadding
  simp only
  split <;> split <;> omega

/-- The first piece of the free list. -/
theorem Block.first_free (h : Block mb adb ps l) {f : Nat} (hlist : mb.sizeFreeList = some f) :
    ∃ p ∈ ps, Fit p ∧ p.stop < 2 ^ 64 ∧ mpSize mb.mem (mpBToMp f) = p.size := by
  obtain ⟨p, A, B, -, rfl, rfl, hfit, -, hsize, -⟩ := h.pop_front hlist
  have hp : p ∈ A ++ p :: B := List.mem_append_right _ List.mem_cons_self
  have hinside := h.laid.tiles.mem hp
  have hrange := h.laid.range.2
  refine ⟨p, hp, hfit, by omega, ?_⟩
  rw [mpBToMp_node, hsize]

/-- A request fits exactly when `mb_free_space` is not smaller, unless its padded size wraps. -/
theorem Block.fits_iff (h : Block mb adb ps l) {n : Nat} (hn : n + 33 < 2 ^ 64) :
    Fits mb n ↔ 0 < n ∧ n ≤ mbFreeSpace mb := by
  unfold Fits mbFreeSpace
  cases hlist : mb.sizeFreeList with
  | none =>
    simp only [reduceCtorEq, false_and, exists_false, and_false, false_iff]
    omega
  | some f =>
    obtain ⟨p, -, hfit, -, hsize⟩ := h.first_free hlist
    simp only [Option.some.injEq, exists_eq_left', hsize, padNumBytes_le hn hfit.even hfit.large,
      Nat.pos_iff_ne_zero]

/-- What a call that made a piece has promised, when the padded size did not wrap. -/
theorem Block.malloc_room (h : Block mb adb ps l) {t : Tid} {n : Nat} {hold : Bool} {res : MallocRes}
    (hres : mbMallocP mb adb t n hold = some (res, mb', adb')) (hne : res.vaddr ≠ nullVaddr)
    (hn : n + 33 < 2 ^ 64) : ∃ c, adb'.entry res.vaddr = some c ∧ n ≤ bodySize mb'.mem c.paddr := by
  rcases mbMallocP_cases h hres with ⟨rfl, -, -⟩ |
    ⟨q, ps', l', hkind, -, hsize, hblock, hchanged, -, -⟩
  · exact absurd rfl hne
  · have hq : q ∈ ps' := (hchanged.pieces q (by rw [hkind]; rfl)).mpr (.inl rfl)
    have hfit := hblock.laid.fit q (List.mem_append_left _ hq)
    obtain ⟨c, hc, hpaddr⟩ := hblock.entries q hq _ hkind
    refine ⟨c, hc, ?_⟩
    rw [hpaddr, (hblock.body hq).1]
    exact (padNumBytes_le hn hfit.even hfit.large).mp hsize

/-- **The malloc threshold.** In every reachable state a call with a 64-bit request returns, and does
what `mb_free_space` promises exactly when the padded size of the request does not wrap or nothing is
free. -/
theorem free_space_threshold (hstart : 0 < start) (hstop : start + padNumBytes minBytes < 2 ^ 64)
    (hquiet : adb.Quiet) (h : Reaches memStep usesLive (MemSys.new start mem minBytes adb) s)
    (t : Tid) {n : Nat} (hn : n < 2 ^ 64) (hold : Bool)
    (hroom : s.adb.TableRoom) :
    ∃ res mb' adb', mbMallocP s.mb s.adb t n hold = some (res, mb', adb') ∧
      (Threshold s.mb s.adb n res mb' adb' ↔ n + 33 < 2 ^ 64 ∨ mbFreeSpace s.mb = 0) := by
  obtain ⟨ps, l, hinv⟩ := memInv_reach hstart hstop hquiet h
  have hblock := hinv.block
  by_cases hfits : Fits s.mb n
  · obtain ⟨res, mb', adb', hres, hne⟩ := mbMallocP_of_fits hblock hfits t hold hroom
    refine ⟨res, mb', adb', hres, fun hthreshold => ?_, fun hcond => ?_⟩
    · by_contra hcond
      rw [not_or, Nat.not_lt] at hcond
      -- a request that wraps is larger than any piece
      obtain ⟨f, hlist, -⟩ := hfits.2
      obtain ⟨p, hp, -, hend, hsize⟩ := hblock.first_free hlist
      have hle := (hthreshold.exact.mp hne).2
      have hfree : mbFreeSpace s.mb = p.size - mapPadding := by
        rw [mbFreeSpace, hlist]
        simp only [hsize]
      have hpad : mapPadding = 32 := rfl
      have hpstop := p.stop_eq
      have hinside := hblock.laid.range.1
      have hge := (hblock.laid.tiles.mem hp).1
      omega
    · have hsmall : n + 33 < 2 ^ 64 := by
        refine hcond.elim id fun hzero => ?_
        obtain ⟨f, hlist, -⟩ := hfits.2
        obtain ⟨p, -, hfit, -, hsize⟩ := hblock.first_free hlist
        have hge := hfit.size_ge
        rw [mbFreeSpace, hlist] at hzero
        simp only [hsize, mapPadding, mpPadding] at hzero
        omega
      exact ⟨⟨fun _ => (hblock.fits_iff hsmall).mp hfits, fun _ => hne⟩,
        fun _ => hblock.malloc_room hres hne hsmall, fun hnull => absurd hnull hne⟩
  · refine ⟨_, _, _, mbMallocP_of_not_fits hfits s.adb t hold, fun _ => ?_, fun hcond => ?_⟩
    · by_contra hcond
      rw [not_or, Nat.not_lt] at hcond
      refine hfits ⟨by omega, ?_⟩
      cases hlist : s.mb.sizeFreeList with
      | none =>
        rw [mbFreeSpace, hlist] at hcond
        exact absurd rfl hcond.2
      | some f =>
        obtain ⟨p, -, hfit, -, hsize⟩ := hblock.first_free hlist
        refine ⟨f, rfl, ?_⟩
        rw [hsize, padNumBytes_wraps hn hcond.1]
        exact hfit.large
    · refine ⟨⟨fun hne => absurd rfl hne, fun hle => ?_⟩, fun hne => absurd rfl hne, fun _ => ⟨rfl, rfl⟩⟩
      rcases hcond with hsmall | hzero
      · exact absurd ((hblock.fits_iff hsmall).mpr hle) hfits
      · omega

/-- A new block of 100 bytes gives all of them to a request for 100. -/
theorem free_space_threshold_fresh : ∃ adb, newAddrBook 2 = some adb ∧
    ∃ res mb' adb', mbMallocP (newMemBlock 64 ⟨fun _ => 0⟩ 100) adb 0 100 true = some (res, mb', adb') ∧
      res.vaddr ≠ nullVaddr := by
  obtain ⟨adb, hnew⟩ : ∃ adb, newAddrBook 2 = some adb := ⟨_, rfl⟩
  have hroom : adb.TableRoom := by
    cases hnew
    exact fun _ => by decide
  obtain ⟨res, mb', adb', hres, hiff⟩ := free_space_threshold (show 0 < 64 by decide)
    (show 64 + padNumBytes 100 < 2 ^ 64 by decide) (AddrBook.quiet_new hnew (by decide))
    (Reaches.refl (MemSys.new 64 ⟨fun _ => 0⟩ 100 adb)) 0 (show 100 < 2 ^ 64 by decide) true hroom
  have hle : 0 < 100 ∧ 100 ≤ mbFreeSpace (newMemBlock 64 ⟨fun _ => 0⟩ 100) := by decide
  exact ⟨adb, hnew, res, mb', adb', hres, (hiff.mpr (.inl (by decide))).exact.mpr hle⟩

/-- The same block meets a request for 2^64 - 1 bytes, with a body of two. -/
theorem wrapped_request_met : ∃ adb res mb' adb' c, newAddrBook 2 = some adb ∧
    mbMallocP (newMemBlock 64 ⟨fun _ => 0⟩ 100) adb 0 (2 ^ 64 - 1) true = some (res, mb', adb') ∧
      res.vaddr ≠ nullVaddr ∧ mbFreeSpace (newMemBlock 64 ⟨fun _ => 0⟩ 100) = 100 ∧
      adb'.entry res.vaddr = some c ∧ bodySize mb'.mem c.paddr = 2 :=
  ⟨_, _, _, _, _, rfl, rfl, by decide, rfl, rfl, rfl⟩

end Chvm.Mb
