import Chvm.Mb.Memory
import Chvm.Ms.Space

/-!
# What compacting does to the layout

`mb_try_shift` decides by the free list, which is ordered by size; what it promises is about the pieces
in the order of their addresses. The two agree: a call is not needed exactly when no free piece lies
before an allocated one, and busy exactly when all the pieces it could move are locked. Each success
lowers the sum of the addresses of the allocated pieces, so `mb_try_full_shift` ends, and it ends with
the free space at the end of the block or in front of locked pieces.
-/

set_option autoImplicit false

namespace Chvm.Mb

open Chvm.Lib Chvm.Virt Chvm.Ms

/-- What `mb_print` shows of a piece. -/
def mbPiece (mem : Mem) (mp : Nat) : Piece :=
  ⟨mp, mpSize mem mp, if mpAlloc mem mp then some (loadVaddr mem (mpBody mp)) else none⟩

/-- The pieces that the loop of `mb_print` comes to. -/
def mbPieces (mb : MemBlock) : Option (List Piece) :=
  (mbWalk mb (mb.cap + 1) mb.start).map (·.map (mbPiece mb.mem))

/-- `mb_try_shift` with `mem_lck`, which it gives back in front of each `return`. -/
def mbTryShiftLck (memLck : RwLock) (mb : MemBlock) (adb : AddrBook) (t : Tid) :
    Option (MbShiftRes × RwLock × MemBlock × AddrBook) :=
  if memLck.isFree then
    let memLck := memLck.acqWrite t
    (mbTryShift mb adb t).map fun (res, mb, adb) => (res, memLck.release t, mb, adb)
  else none

/-- The bytes of the free pieces. -/
def freeSize (ps : List Piece) : Nat := ((ps.filter (·.kind.isNone)).map (·.size)).sum

variable {mem : Mem} {mb mb' mb'' : MemBlock} {adb adb' adb'' : AddrBook} {A B l ps ps' ps'' : List Piece}
  {p q q' : Piece} {t : Tid} {v : Vaddr} {c : AddrTableCell} {s : MemSys} {start minBytes : Nat}

/-! ## The pieces in memory -/

theorem Kept.piece (h : Kept mb.mem p) (hfit : Fit p) : mbPiece mb.mem p.addr = p := by
  unfold mbPiece
  rw [h.size hfit, h.alloc hfit]
  cases hkind : p.kind with
  | none =>
    rw [Option.isSome_none, if_neg Bool.false_ne_true, ← hkind]
  | some v =>
    rw [Option.isSome_some, if_pos rfl, h.vaddr v hkind, ← hkind]

theorem Block.pieces (h : Block mb adb ps l) : mbPieces mb = some ps := by
  have hmem : ∀ p ∈ ps, p ∈ ps ++ [] := fun p hp => List.mem_append_left _ hp
  have hwalk := mbWalk_eq h.laid.tiles (fun p hp => h.laid.fit p (hmem p hp))
    (fun p hp => h.laid.kept p (hmem p hp)) h.length_lt
  unfold mbPieces
  rw [hwalk, Option.map_some, List.map_map]
  refine congrArg some ((List.map_congr_left fun p hp => ?_).trans (List.map_id _))
  exact (h.laid.kept p (hmem p hp)).piece (h.laid.fit p (hmem p hp))

/-- The free space is what the first piece of the free list has, the largest one. -/
theorem Block.free_space (h : Block mb adb ps l) :
    mbFreeSpace mb = (l.head?.elim 0 (·.size)) - mapPadding := by
  have hhead := h.laid.linked.head
  unfold mbFreeSpace
  cases l with
  | nil =>
    rw [hhead]
    rfl
  | cons p l =>
    obtain ⟨hp, -⟩ := h.laid.mem_listed.mp List.mem_cons_self
    rw [hhead]
    simp only [List.map_cons, List.head?_cons, mpBToMp_node, Option.elim_some,
      (h.laid.kept p hp).size (h.laid.fit p hp)]

/-! ## One call -/

/-- With a free `mem_lck` the call does what it does under it, and leaves it free. -/
theorem mbTryShiftLck_eq {memLck : RwLock} (hfree : memLck.isFree = true) (mb : MemBlock) (adb : AddrBook)
    (t : Tid) : mbTryShiftLck memLck mb adb t =
      (mbTryShift mb adb t).map fun r => (r.1, memLck, r.2.1, r.2.2) := by
  unfold mbTryShiftLck
  rw [if_pos hfree]
  simp only [RwLock.release_acqWrite hfree]

/-- The locks of a book, whatever the addresses are. -/
def SameLocks (adb adb' : AddrBook) : Prop :=
  ∀ w, (adb'.entry w).map (·.lck) = (adb.entry w).map (·.lck)

theorem SameLocks.locked (h : SameLocks adb adb') : Locked adb' v ↔ Locked adb v := by
  have hiff : ∀ adb : AddrBook, Locked adb v ↔
      ∃ lck, (adb.entry v).map (·.lck) = some lck ∧ lck.isFree = false := by
    intro adb
    simp only [Locked, Option.map_eq_some_iff]
    constructor
    · rintro ⟨c, hc, hlck⟩
      exact ⟨c.lck, ⟨c, hc, rfl⟩, hlck⟩
    · rintro ⟨-, ⟨c, hc, rfl⟩, hlck⟩
      exact ⟨c, hc, hlck⟩
  rw [hiff, hiff, h v]

theorem Shifted.sameLocks (h : Shifted mb mb' adb adb' ps ps' q q' v c) : SameLocks adb adb' := by
  intro w
  rw [h.entries]
  split
  next heq =>
    rw [heq, h.entry]
    rfl
  next => rfl

/-- **`mb_try_shift`'s result is exact.** -/
theorem try_shift_exact (hstart : 0 < start) (hstop : start + padNumBytes minBytes < 2 ^ 64)
    (hquiet : adb.Quiet) (h : Reaches memStep usesLive (MemSys.new start mem minBytes adb) s) (t : Tid)
    {memLck : RwLock} (hlck : memLck.isFree = true) :
    ∃ ps res mb' adb', mbPieces s.mb = some ps ∧
      mbTryShiftLck memLck s.mb s.adb t = some (res, memLck, mb', adb') ∧
      (res = .notNeeded ↔ ¬FreeBefore ps) ∧
      (res = .busy ↔ FreeBefore ps ∧
        ∀ A p q B v, ps = A ++ p :: q :: B → p.kind = none → q.kind = some v → Locked s.adb v) ∧
      (res ≠ .success → mb' = s.mb ∧ adb' = s.adb) ∧
      SameLocks s.adb adb' ∧
      (res = .success → ∃ A p q B v n B', ps = A ++ p :: q :: B ∧ p.kind = none ∧ q.kind = some v ∧
        ¬Locked s.adb v ∧ n.kind = none ∧ Merged p.size B n B' ∧
        mbPieces mb' = some (A ++ { q with addr := q.addr - p.size } :: n :: B')) := by
  obtain ⟨ps, l, hinv⟩ := memInv_reach hstart hstop hquiet h
  have hblock := hinv.block
  rcases mbTryShift_cases hblock t with ⟨heq, hnot⟩ | ⟨heq, hbefore, hlocked⟩ |
    ⟨mb', adb', A, p, q, q', B, v, c, l', n, B', heq, hps, hkind, hblock', hshifted, haddr, hnkind, hmerged⟩
  · refine ⟨ps, .notNeeded, s.mb, s.adb, hblock.pieces, ?_, iff_of_true rfl hnot,
      iff_of_false nofun fun hand => hnot hand.1, fun _ => ⟨rfl, rfl⟩, fun w => rfl, nofun⟩
    rw [mbTryShiftLck_eq hlck, heq]
    rfl
  · refine ⟨ps, .busy, s.mb, s.adb, hblock.pieces, ?_, iff_of_false nofun fun hnot => hnot hbefore,
      iff_of_true rfl ⟨hbefore, hlocked⟩, fun _ => ⟨rfl, rfl⟩, fun w => rfl, nofun⟩
    rw [mbTryShiftLck_eq hlck, heq]
    rfl
  · obtain ⟨hq, hqaddr, hqsize⟩ := hblock.next_mem hps
    have hunlocked : ¬Locked s.adb v := by
      rintro ⟨d, hd, hheld⟩
      rw [hshifted.entry] at hd
      cases hd
      rw [hshifted.free] at hheld
      cases hheld
    have hp : p ∈ ps := hps ▸ List.mem_append_right _ List.mem_cons_self
    have hbefore : FreeBefore ps := by
      have hpsize := (hblock.laid.tiles.mem hp).2.1
      have hpstop := p.stop_eq
      exact ⟨p, hp, q, hq, hkind, by rw [hshifted.kind]; rfl, by omega⟩
    have hq' : q' = { q with addr := q.addr - p.size } := by
      have hpstop := p.stop_eq
      have heqaddr : q'.addr = q.addr - p.size := by omega
      have heqsize := hshifted.size
      have heqkind := hshifted.kind'.trans hshifted.kind.symm
      cases q'
      cases heqaddr
      cases heqsize
      cases heqkind
      rfl
    refine ⟨ps, .success, mb', adb', hblock.pieces, ?_, iff_of_false nofun fun hnot => hnot hbefore,
      iff_of_false nofun fun hand => hunlocked (hand.2 A p q B v hps hkind hshifted.kind),
        fun hne => absurd rfl hne,
      hshifted.sameLocks, fun _ => ⟨A, p, q, B, v, n, B', hps, hkind, hshifted.kind, hunlocked, hnkind,
        hmerged, hq' ▸ hblock'.pieces⟩⟩
    rw [mbTryShiftLck_eq hlck, heq]
    rfl

/-- A block whose only piece to move is locked: a call is busy, though a free piece lies before it. -/
theorem try_shift_exact_busy : ∃ s : MemSys, ∃ ps, mbPieces s.mb = some ps ∧ FreeBefore ps ∧
    mbTryShiftLck {} s.mb s.adb 0 = some (.busy, {}, s.mb, s.adb) := by
  obtain ⟨adb, s, hnew, hrun, hshift⟩ : ∃ adb, ∃ s : MemSys, newAddrBook 2 = some adb ∧
      exec memStep usesLiveCheck (MemSys.new 64 ⟨fun _ => 0⟩ 100 adb)
        [.malloc 0 8 false, .malloc 1 8 true, .free 0 ⟨0, 1⟩] = some s ∧
      mbTryShiftLck {} s.mb s.adb 0 = some (.busy, {}, s.mb, s.adb) := ⟨_, _, rfl, rfl, rfl⟩
  obtain ⟨ps, res, mb', adb', hps, heq, -, hbusy, -⟩ := try_shift_exact (by decide) (by decide)
    (AddrBook.quiet_new hnew (by decide)) (reaches_of_exec usesLiveCheck_sound _ hrun) 0
    (show (RwLock.isFree {}) = true from rfl)
  rw [hshift] at heq
  cases heq
  exact ⟨s, ps, hps, (hbusy.mp rfl).1, hshift⟩

/-! ## The whole loop -/

/-- The free bytes are those that are not allocated. -/
theorem freeSize_add (ps : List Piece) :
    freeSize ps + ((allocs ps).map (·.size)).sum = (ps.map (·.size)).sum := by
  induction ps with
  | nil => rfl
  | cons p ps ih =>
    cases hkind : p.kind with
    | none =>
      have hfree : freeSize (p :: ps) = p.size + freeSize ps := by
        unfold freeSize
        rw [List.filter_cons_of_pos (by rw [hkind]; rfl)]
        rfl
      rw [hfree, allocs_cons_free hkind, List.map_cons, List.sum_cons]
      omega
    | some v =>
      have hfree : freeSize (p :: ps) = freeSize ps := by
        unfold freeSize
        rw [List.filter_cons_of_neg (by rw [hkind]; exact Bool.false_ne_true)]
      rw [hfree, allocs_cons (by rw [hkind]; rfl)]
      simp only [List.map_cons, List.sum_cons]
      omega

/-- What no number of shifts changes, and what they do to the address book: the vaddrs of the allocated
pieces in the order of their addresses, and the sizes and the user's bytes behind them. -/
structure Slid (mb mb' : MemBlock) (adb adb' : AddrBook) (ps ps' : List Piece) : Prop where
  fields : mb'.start = mb.start ∧ mb'.cap = mb.cap
  order : (allocs ps').map (fun q => (q.kind, q.size)) = (allocs ps).map fun q => (q.kind, q.size)
  bytes : ∀ q ∈ ps, ∀ q' ∈ ps', ∀ v, q.kind = some v → q'.kind = some v →
    ∀ i, i + mapPadding < q.size → mb'.mem.byte (mpToMapB q'.addr + i) = mb.mem.byte (mpToMapB q.addr + i)
  still : ∀ q ∈ ps, ∀ v, q.kind = some v → Locked adb v → q ∈ ps'
  locks : SameLocks adb adb'

theorem Block.slid_refl (h : Block mb adb ps l) : Slid mb mb adb adb ps ps where
  fields := ⟨rfl, rfl⟩
  order := rfl
  bytes q hq q' hq' v hv hv' i hi := by rw [h.vaddr_inj hq hq' hv hv']
  still q hq v hv hlocked := hq
  locks w := rfl

/-- A piece of a vaddr is found again. -/
theorem Slid.find (h : Slid mb mb' adb adb' ps ps') (hq : q ∈ ps) (hkind : q.kind = some v) :
    ∃ q' ∈ ps', q'.kind = some v ∧ q'.size = q.size := by
  have hmem : (q.kind, q.size) ∈ (allocs ps').map fun q => (q.kind, q.size) := by
    rw [h.order]
    exact List.mem_map.mpr ⟨q, mem_allocs.mpr ⟨hq, by rw [hkind]; rfl⟩, rfl⟩
  obtain ⟨q', hq', heq⟩ := List.mem_map.mp hmem
  obtain ⟨hkind', hsize⟩ := Prod.mk.inj heq
  exact ⟨q', (mem_allocs.mp hq').1, hkind'.trans hkind, hsize⟩

theorem Slid.trans (h : Slid mb mb' adb adb' ps ps') (h' : Slid mb' mb'' adb' adb'' ps' ps'') :
    Slid mb mb'' adb adb'' ps ps'' where
  fields := ⟨h'.fields.1.trans h.fields.1, h'.fields.2.trans h.fields.2⟩
  order := h'.order.trans h.order
  bytes q hq q'' hq'' v hv hv'' i hi := by
    obtain ⟨q', hq', hv', hsize⟩ := h.find hq hv
    exact (h'.bytes q' hq' q'' hq'' v hv' hv'' i (hsize ▸ hi)).trans (h.bytes q hq q' hq' v hv hv' i hi)
  still q hq v hv hlocked := h'.still q (h.still q hq v hv hlocked) v hv (h.locks.locked.mpr hlocked)
  locks w := (h'.locks w).trans (h.locks w)

/-- The addresses of the allocated pieces, added up: what a shift lowers. -/
def addrSum (ps : List Piece) : Nat := ((allocs ps).map (·.addr)).sum

/-- One shift, in the layout. -/
theorem Shifted.slid {l' : List Piece} {n : Piece} {B' : List Piece} (h : Block mb adb (A ++ p :: q :: B) l)
    (h' : Block mb' adb' (A ++ q' :: n :: B') l')
    (hs : Shifted mb mb' adb adb' (A ++ p :: q :: B) (A ++ q' :: n :: B') q q' v c) (hp : p.kind = none)
    (haddr : q'.addr = p.addr) (hn : n.kind = none) (hmerged : Merged p.size B n B') :
    Slid mb mb' adb adb' (A ++ p :: q :: B) (A ++ q' :: n :: B') ∧
      addrSum (A ++ q' :: n :: B') < addrSum (A ++ p :: q :: B) := by
  have hq : q.kind.isSome = true := by rw [hs.kind]; rfl
  have hq' : q'.kind.isSome = true := by rw [hs.kind']; rfl
  have hallocs : allocs (A ++ p :: q :: B) = allocs A ++ q :: allocs B := by
    rw [allocs_append, allocs_cons_free hp, allocs_cons hq]
  have hallocs' : allocs (A ++ q' :: n :: B') = allocs A ++ q' :: allocs B := by
    rw [allocs_append, allocs_cons hq', allocs_cons_free hn, hmerged.allocs]
  refine ⟨⟨hs.changed.fields, ?_, fun r hr r' hr' w hw hw' i hi => ?_, fun r hr w hw hlocked => ?_,
    hs.sameLocks⟩, ?_⟩
  · rw [hallocs, hallocs']
    simp only [List.map_append, List.map_cons, hs.kind, hs.kind', hs.size]
  · by_cases hrq : r = q
    · have hwv : w = v := Option.some.inj (hw.symm.trans (hrq ▸ hs.kind))
      have hr'q : r' = q' :=
        h'.vaddr_inj hr' (List.mem_append_right _ List.mem_cons_self) hw' (hwv ▸ hs.kind')
      rw [hr'q, hrq]
      exact hs.bytes i (hrq ▸ hi)
    · have hmem : r ∈ A ++ q' :: n :: B' := (hs.changed.pieces r (by rw [hw]; rfl)).mpr (.inr ⟨hr, hrq⟩)
      rw [h'.vaddr_inj hr' hmem hw' hw]
      have hinside := user_byte_inside hi
      exact hs.changed.bytes r (by rw [hw]; rfl) hr hrq _ hinside.1 hinside.2
  · refine (hs.changed.pieces r (by rw [hw]; rfl)).mpr (.inr ⟨hr, ?_⟩)
    rintro rfl
    obtain ⟨d, hd, hheld⟩ := hlocked
    rw [hs.kind] at hw
    cases hw
    rw [hs.entry] at hd
    cases hd
    rw [hs.free] at hheld
    cases hheld
  · obtain ⟨-, hqaddr, -⟩ := h.next_mem rfl
    have hpsize := (h.laid.tiles.mem (List.mem_append_right A List.mem_cons_self)).2.1
    have hpstop := p.stop_eq
    unfold addrSum
    rw [hallocs, hallocs']
    simp only [List.map_append, List.map_cons, List.sum_append, List.sum_cons]
    omega

/-- Every free piece ends the block, or has a locked piece right behind it. -/
def Packed (mb : MemBlock) (adb : AddrBook) (ps : List Piece) : Prop :=
  ∀ p ∈ ps, p.kind = none →
    p.stop = mb.stop ∨ ∃ A q B v, ps = A ++ p :: q :: B ∧ q.kind = some v ∧ Locked adb v

/-- Where a call moves nothing, the block is packed. -/
theorem Block.packed (h : Block mb adb ps l)
    (hstuck : ¬FreeBefore ps ∨
      ∀ A p q B v, ps = A ++ p :: q :: B → p.kind = none → q.kind = some v → Locked adb v) :
    Packed mb adb ps := by
  intro p hp hkind
  rcases Nat.eq_or_lt_of_le (h.laid.tiles.mem hp).2.2 with heq | hlt
  · exact .inl heq
  · obtain ⟨A, q, B, v, hps, hv⟩ := h.behind_free hp hkind hlt
    rcases hstuck with hnot | hlocked
    · exact absurd (h.freeBefore_iff.mpr ⟨p, hp, hkind, hlt⟩) hnot
    · exact .inr ⟨A, q, B, v, hps, hv, hlocked A p q B v hps hkind hv⟩

/-- The loop ends: the addresses of the allocated pieces cannot sink for ever. -/
theorem fullShift_run (h : Block mb adb ps l) (t : Tid) :
    ∃ fuel mb' adb' ps' l', (∀ k, fuel ≤ k → mbTryFullShift t k mb adb = some (mb', adb')) ∧
      Block mb' adb' ps' l' ∧ Slid mb mb' adb adb' ps ps' ∧ Packed mb' adb' ps' := by
  induction hn : addrSum ps using Nat.strong_induction_on generalizing mb adb ps l with
  | h n ih =>
    have hstay : ∀ res, mbTryShift mb adb t = some (res, mb, adb) → res ≠ .success →
        ∀ k, 1 ≤ k → mbTryFullShift t k mb adb = some (mb, adb) := by
      intro res hres hne k hk
      obtain ⟨k, rfl⟩ := Nat.exists_eq_add_of_le' hk
      unfold mbTryFullShift
      rw [hres]
      cases res with
      | success => exact absurd rfl hne
      | busy | notNeeded => rfl
    rcases mbTryShift_cases h t with ⟨heq, hnot⟩ | ⟨heq, -, hlocked⟩ |
      ⟨mb₁, adb₁, A, p, q, q', B, v, c, l₁, n₁, B', heq, rfl, hkind, hblock₁, hshifted, haddr, hnkind,
        hmerged⟩
    · exact ⟨1, mb, adb, ps, l, hstay _ heq nofun, h, h.slid_refl, h.packed (.inl hnot)⟩
    · exact ⟨1, mb, adb, ps, l, hstay _ heq nofun, h, h.slid_refl, h.packed (.inr hlocked)⟩
    · obtain ⟨hslid, hlt⟩ := hshifted.slid h hblock₁ hkind haddr hnkind hmerged
      obtain ⟨fuel, mb', adb', ps', l', hrun, hblock', hslid', hpacked⟩ := ih _ (hn ▸ hlt) hblock₁ rfl
      refine ⟨fuel + 1, mb', adb', ps', l', fun k hk => ?_, hblock', hslid.trans hslid', hpacked⟩
      obtain ⟨k, rfl⟩ := Nat.exists_eq_add_of_le' (Nat.le_of_add_left_le hk)
      unfold mbTryFullShift
      rw [heq]
      exact hrun k (by omega)

theorem Slid.freeSize_eq (h : Slid mb mb' adb adb' ps ps') {l' : List Piece} (hblock : Block mb adb ps l)
    (hblock' : Block mb' adb' ps' l') : freeSize ps' = freeSize ps := by
  have hsum : mb.start + (ps.map (·.size)).sum = mb.stop := hblock.laid.tiles.sum_size
  have hsum' : mb'.start + (ps'.map (·.size)).sum = mb'.stop := hblock'.laid.tiles.sum_size
  have hfree := freeSize_add ps
  have hfree' := freeSize_add ps'
  have hallocs : (allocs ps').map (·.size) = (allocs ps).map (·.size) := by
    have horder := congrArg (List.map Prod.snd) h.order
    rw [List.map_map, List.map_map] at horder
    exact horder
  have hstop : mb'.stop = mb.stop := by
    unfold MemBlock.stop
    rw [h.fields.1, h.fields.2]
  rw [hallocs] at hfree'
  have hstart := h.fields.1
  omega

/-- A packed block without locks: the allocated pieces, and at most one free piece behind them. -/
theorem Packed.contiguous (h : Packed mb adb ps) (hblock : Block mb adb ps l)
    (hfree : ∀ q ∈ ps, ∀ v, q.kind = some v → ¬Locked adb v) :
    ∃ rest, ps = allocs ps ++ rest ∧ (rest = [] ∨ ∃ p, rest = [p] ∧ p.kind = none) ∧
      mbFreeSpace mb = freeSize ps - mapPadding := by
  have hlast : ∀ p ∈ ps, p.kind = none → p.stop = mb.stop := by
    intro p hp hkind
    refine (h p hp hkind).resolve_right ?_
    rintro ⟨A, q, B, v, hps, hv, hlocked⟩
    exact hfree q (hps ▸ List.mem_append_right _ (List.mem_cons_of_mem p List.mem_cons_self)) v hv hlocked
  have hspace := hblock.free_space
  by_cases hany : ∃ p ∈ ps, p.kind = none
  · obtain ⟨p, hp, hkind⟩ := hany
    obtain ⟨A, C, rfl⟩ := List.append_of_mem hp
    obtain ⟨hfront, hback, hsize⟩ := Tiles.cut hblock.laid.tiles
    rw [hlast p hp hkind] at hback
    have hC : C = [] := hback.eq_nil
    subst hC
    have hA : allocs A = A := by
      apply List.filter_eq_self.mpr
      intro q hq
      have hqin := hfront.mem hq
      have hpstop := p.stop_eq
      have hpin := hblock.laid.tiles.mem hp
      cases hqkind : q.kind with
      | some v => rfl
      | none =>
        have hqstop := hlast q (List.mem_append_left _ hq) hqkind
        omega
    have hallocs : allocs (A ++ [p]) = A := by
      rw [allocs_append, allocs_cons_free hkind, hA]
      exact List.append_nil A
    have hlisted : (A ++ [p]).filter (·.kind.isNone) = [p] := by
      rw [List.filter_append, List.filter_cons_of_pos (by rw [hkind]; rfl), List.filter_nil]
      have hnone : A.filter (·.kind.isNone) = [] := by
        refine List.filter_eq_nil_iff.mpr fun q hq => ?_
        rw [← hA] at hq
        have hsome := (mem_allocs.mp hq).2
        rw [Option.isNone_iff_eq_none]
        intro hnone
        rw [hnone] at hsome
        cases hsome
      rw [hnone]
      rfl
    have hl : l = [p] := by
      have hperm := hblock.laid.listed
      rw [List.append_nil, hlisted] at hperm
      exact List.perm_singleton.mp hperm
    refine ⟨[p], by rw [hallocs], .inr ⟨p, rfl, hkind⟩, ?_⟩
    rw [hspace, hl]
    unfold freeSize
    rw [hlisted]
    rfl
  · have hnone : ps.filter (·.kind.isNone) = [] := by
      refine List.filter_eq_nil_iff.mpr fun p hp hkind => hany ⟨p, hp, Option.isNone_iff_eq_none.mp hkind⟩
    have hallocs : allocs ps = ps := by
      refine List.filter_eq_self.mpr fun p hp => ?_
      rw [Option.isSome_iff_ne_none]
      exact fun hkind => hany ⟨p, hp, hkind⟩
    have hl : l = [] := by
      have hperm := hblock.laid.listed
      rw [List.append_nil, hnone] at hperm
      exact List.perm_nil.mp hperm
    refine ⟨[], by rw [hallocs, List.append_nil], .inl rfl, ?_⟩
    rw [hspace, hl]
    unfold freeSize
    rw [hnone]
    rfl

/-- **Full compaction terminates and compacts.** -/
theorem full_shift_compacts (hstart : 0 < start) (hstop : start + padNumBytes minBytes < 2 ^ 64)
    (hquiet : adb.Quiet) (h : Reaches memStep usesLive (MemSys.new start mem minBytes adb) s) (t : Tid) :
    ∃ ps fuel mb' adb' ps', mbPieces s.mb = some ps ∧
      (∀ k, fuel ≤ k → mbTryFullShift t k s.mb s.adb = some (mb', adb')) ∧ mbPieces mb' = some ps' ∧
      Tiles s.mb.start ps' s.mb.stop ∧ Slid s.mb mb' s.adb adb' ps ps' ∧ freeSize ps' = freeSize ps ∧
      (∀ p ∈ ps', p.kind = none → p.stop = s.mb.stop ∨
        ∃ A q B v, ps' = A ++ p :: q :: B ∧ q.kind = some v ∧ v ∈ s.live ∧ Locked s.adb v) ∧
      ((∀ v ∈ s.live, ¬Locked s.adb v) →
        ∃ rest, ps' = allocs ps' ++ rest ∧ (rest = [] ∨ ∃ p, rest = [p] ∧ p.kind = none) ∧
          mbFreeSpace mb' = freeSize ps - mapPadding) := by
  obtain ⟨ps, l, hinv⟩ := memInv_reach hstart hstop hquiet h
  obtain ⟨fuel, mb', adb', ps', l', hrun, hblock', hslid, hpacked⟩ := fullShift_run hinv.block t
  have hfree := hslid.freeSize_eq hinv.block hblock'
  have hend : mb'.stop = s.mb.stop := by
    unfold MemBlock.stop
    rw [hslid.fields.1, hslid.fields.2]
  -- the vaddr of a piece was live before
  have hlive : ∀ q ∈ ps', ∀ v, q.kind = some v → v ∈ s.live := by
    intro q hq v hv
    have hmem : (q.kind, q.size) ∈ (allocs ps).map fun q => (q.kind, q.size) := by
      rw [← hslid.order]
      exact List.mem_map.mpr ⟨q, mem_allocs.mpr ⟨hq, by rw [hv]; rfl⟩, rfl⟩
    obtain ⟨r, hr, heq⟩ := List.mem_map.mp hmem
    exact (hinv.live v).mpr ⟨r, (mem_allocs.mp hr).1, (Prod.mk.inj heq).1.trans hv⟩
  refine ⟨ps, fuel, mb', adb', ps', hinv.block.pieces, hrun, hblock'.pieces, ?_, hslid, hfree,
    fun p hp hkind => ?_, fun hnone => ?_⟩
  · have htiles := hblock'.laid.tiles
    rw [hslid.fields.1, hend] at htiles
    exact htiles
  · rw [← hend]
    refine (hpacked p hp hkind).imp_right ?_
    rintro ⟨A, q, B, v, hps, hv, hlocked⟩
    have hq : q ∈ ps' := hps ▸ List.mem_append_right _ (List.mem_cons_of_mem p List.mem_cons_self)
    exact ⟨A, q, B, v, hps, hv, hlive q hq v hv, hslid.locks.locked.mp hlocked⟩
  · rw [← hfree]
    exact hpacked.contiguous hblock' fun q hq v hv hlocked =>
      hnone v (hlive q hq v hv) (hslid.locks.locked.mp hlocked)

/-- A block with two pieces of which the first was freed: the other one moves, and all but it is free. -/
theorem full_shift_compacts_moved : ∃ s : MemSys, s.live = [⟨0, 0⟩] ∧
    ∃ fuel mb' adb', (∀ k, fuel ≤ k → mbTryFullShift 0 k s.mb s.adb = some (mb', adb')) ∧
      mbFreeSpace mb' = 60 := by
  obtain ⟨adb, s, ps, hnew, hrun, hlive, hlocks, hpieces, hsize⟩ : ∃ adb, ∃ s : MemSys, ∃ ps,
      newAddrBook 2 = some adb ∧
      exec memStep usesLiveCheck (MemSys.new 64 ⟨fun _ => 0⟩ 100 adb)
        [.malloc 0 8 false, .malloc 1 8 false, .free 0 ⟨0, 1⟩] = some s ∧ s.live = [⟨0, 0⟩] ∧
      (s.adb.entry ⟨0, 0⟩).all (·.lck.isFree) = true ∧ mbPieces s.mb = some ps ∧
      freeSize ps - mapPadding = 60 := ⟨_, _, _, rfl, rfl, rfl, rfl, rfl, rfl⟩
  obtain ⟨ps', fuel, mb', adb', ps'', hps', hfuel, -, -, -, -, -, hspace⟩ := full_shift_compacts (by decide)
    (by decide) (AddrBook.quiet_new hnew (by decide)) (reaches_of_exec usesLiveCheck_sound _ hrun) 0
  rw [hpieces] at hps'
  cases hps'
  obtain ⟨-, -, -, hspace⟩ := hspace fun v hv ⟨c, hc, hheld⟩ => by
    rw [hlive] at hv
    rw [List.mem_singleton.mp hv] at hc
    rw [hc, Option.all_some, hheld] at hlocks
    cases hlocks
  exact ⟨s, hlive, fuel, mb', adb', hfuel, hspace.trans hsize⟩

end Chvm.Mb
