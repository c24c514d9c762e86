import Chvm.Lib.Run
import Chvm.Mb.Shift

/-!
# Threads on one block

Any number of threads call `mb_malloc_p`, `mb_free` and `mb_try_shift`, lock and unlock vaddrs, and
write bytes into the pieces they hold for writing. A call on the block is one step, since it holds
`mem_lck` throughout; a lock that is not to be had leaves a step not enabled.

The state remembers what the threads have seen: the vaddrs they may still use, the addresses they
got with a lock they have not given back, and the bytes last written through each vaddr.
-/

set_option autoImplicit false

namespace Chvm.Mb

open Chvm.Lib Chvm.Virt

/-- An address that a thread got with the lock of a vaddr. -/
structure Grant where
  tid : Tid
  vaddr : Vaddr
  paddr : Nat
deriving DecidableEq, Repr

structure MemSys where
  mb : MemBlock
  adb : AddrBook
  live : List Vaddr
  grants : List Grant
  content : Vaddr → Nat → Option UInt8

inductive MemAct
  | malloc (t : Tid) (minBytes : Nat) (hold : Bool)
  | free (t : Tid) (vaddr : Vaddr)
  | tryShift (t : Tid)
  | getRead (t : Tid) (vaddr : Vaddr)
  | getWrite (t : Tid) (vaddr : Vaddr)
  | unlock (t : Tid) (vaddr : Vaddr)
  /-- The byte at an offset into the body. -/
  | write (t : Tid) (vaddr : Vaddr) (off : Nat) (byte : UInt8)
deriving DecidableEq, Repr

/-- A new block on a book. -/
def MemSys.new (start : Nat) (mem : Mem) (minBytes : Nat) (adb : AddrBook) : MemSys where
  mb := newMemBlock start mem minBytes
  adb := adb
  live := []
  grants := []
  content := fun _ _ => none

def isGrant (t : Tid) (v : Vaddr) (g : Grant) : Bool := g.tid = t && g.vaddr = v

/-- The size of a body, from the tag in front of it. -/
def bodySize (mem : Mem) (paddr : Nat) : Nat := mpSize mem (mapBToMp paddr) - mapPadding

/-- One step. -/
def memStep (s : MemSys) : MemAct → Option MemSys
  | .malloc t minBytes hold =>
    match mbMallocP s.mb s.adb t minBytes hold with
    | none => none
    | some (res, mb, adb) =>
      if res.vaddr = nullVaddr then some { s with mb := mb, adb := adb }
      else some {
        mb := mb
        adb := adb
        live := res.vaddr :: s.live
        grants := match res.paddr with
          | some paddr => ⟨t, res.vaddr, paddr⟩ :: s.grants
          | none => s.grants
        content := Function.update s.content res.vaddr fun _ => none }
  | .free t v =>
    match mbFree s.mb s.adb t v with
    | none => none
    | some (mb, adb) => some { s with mb := mb, adb := adb, live := s.live.filter (· ≠ v) }
  | .tryShift t =>
    match mbTryShift s.mb s.adb t with
    | none => none
    | some (_, mb, adb) => some { s with mb := mb, adb := adb }
  | .getRead t v =>
    match s.adb.adbGetRead t v with
    | none => none
    | some (paddr, adb) => some { s with adb := adb, grants := ⟨t, v, paddr⟩ :: s.grants }
  | .getWrite t v =>
    match s.adb.adbGetWrite t v with
    | none => none
    | some (paddr, adb) => some { s with adb := adb, grants := ⟨t, v, paddr⟩ :: s.grants }
  | .unlock t v =>
    match s.adb.adbUnlock t v with
    | none => none
    | some adb => some { s with adb := adb, grants := s.grants.eraseP (isGrant t v) }
  | .write t v off b =>
    match s.adb.cell v, s.grants.find? (isGrant t v) with
    | some c, some g =>
      if c.lck.writer = some t ∧ off < bodySize s.mb.mem g.paddr then
        some { s with
          mb := { s.mb with mem := s.mb.mem.setByte (g.paddr + off) b }
          content := Function.update s.content v (Function.update (s.content v) off (some b)) }
      else none
    | _, _ => none

/-- A vaddr is freed, locked or unlocked while it is live only. -/
def usesLive (s : MemSys) : MemAct → Prop
  | .free _ v | .getRead _ v | .getWrite _ v | .unlock _ v => v ∈ s.live
  | _ => True

/-! ## What every step keeps -/

/-- The pieces behind the live vaddrs, the locks behind the grants, and the bytes behind the
content. -/
structure MemInv (s : MemSys) (ps l : List Piece) : Prop where
  block : Block s.mb s.adb ps l
  live : ∀ v, v ∈ s.live ↔ ∃ p ∈ ps, p.kind = some v
  held : ∀ v ∈ s.live, ∀ c, s.adb.entry v = some c →
    ∀ t, s.grants.countP (isGrant t v) = c.lck.heldBy t
  grants : ∀ g ∈ s.grants, g.vaddr ∈ s.live ∧ ∀ c, s.adb.entry g.vaddr = some c → g.paddr = c.paddr
  content : ∀ p ∈ ps, ∀ v off b, p.kind = some v → s.content v off = some b →
    off + mapPadding < p.size ∧ s.mb.mem.byte (mpToMapB p.addr + off) = b

def MemSound (s : MemSys) : Prop := ∃ ps l, MemInv s ps l

variable {s s' : MemSys} {ps l : List Piece} {t : Tid} {v : Vaddr} {adb' : AddrBook}
  {c : AddrTableCell}

theorem isGrant_iff {g : Grant} : isGrant t v g = true ↔ g.tid = t ∧ g.vaddr = v := by
  simp only [isGrant, Bool.and_eq_true, decide_eq_true_eq]

/-- A live vaddr has a piece and a cell. -/
theorem MemInv.piece (h : MemInv s ps l) (hv : v ∈ s.live) :
    ∃ p ∈ ps, p.kind = some v ∧ ∃ c, s.adb.entry v = some c ∧ c.paddr = mpToMapB p.addr := by
  obtain ⟨p, hp, hkind⟩ := (h.live v).mp hv
  exact ⟨p, hp, hkind, h.block.entries p hp v hkind⟩

/-- Nobody has a grant on a vaddr whose lock is free. -/
theorem MemInv.no_grant (h : MemInv s ps l) (hentry : s.adb.entry v = some c)
    (hfree : c.lck.isFree = true) : ∀ g ∈ s.grants, g.vaddr ≠ v := by
  rintro g hg rfl
  have hcount := h.held g.vaddr (h.grants g hg).1 c hentry g.tid
  rw [RwLock.heldBy_of_isFree hfree] at hcount
  exact List.countP_eq_zero.mp hcount g hg (isGrant_iff.mpr ⟨rfl, rfl⟩)

/-- The user's bytes of a piece lie in the piece. -/
theorem user_byte_inside {p : Piece} {off : Nat} (h : off + mapPadding < p.size) :
    p.addr ≤ mpToMapB p.addr + off ∧ mpToMapB p.addr + off < p.stop := by
  have hpad : mapPadding = 32 := rfl
  have hbody : mpToMapB p.addr = p.addr + 24 := rfl
  have hstop := p.stop_eq
  omega

/-- A step that keeps the pieces of the other vaddrs keeps their content. -/
theorem MemInv.content_kept (h : MemInv s ps l) {mb' : MemBlock} {ps' : List Piece}
    {gone came : Piece → Prop} (hchanged : Changed s.mb mb' ps ps' gone came) {p : Piece}
    (hp : p ∈ ps) (hnot : ¬gone p) (hkind : p.kind = some v) {off : Nat} {b : UInt8}
    (hcontent : s.content v off = some b) :
    off + mapPadding < p.size ∧ mb'.mem.byte (mpToMapB p.addr + off) = b := by
  obtain ⟨hoff, hbyte⟩ := h.content p hp v off b hkind hcontent
  have hinside := user_byte_inside hoff
  have hsame := hchanged.bytes p (by rw [hkind]; rfl) hp hnot
  exact ⟨hoff, (hsame _ hinside.1 hinside.2).trans hbyte⟩

/-- A lock operation on one live vaddr. -/
theorem MemInv.lock (h : MemInv s ps l) (hv : v ∈ s.live) (hentry : s.adb.entry v = some c)
    {lck : RwLock} (hassigned : s.adb.Assigned adb' v { c with lck := lck }) {grants : List Grant}
    (hheld : ∀ u, grants.countP (isGrant u v) = lck.heldBy u)
    (hothers : ∀ w ≠ v, ∀ u, grants.countP (isGrant u w) = s.grants.countP (isGrant u w))
    (hgrants : ∀ g ∈ grants, g ∈ s.grants ∨ g.vaddr = v ∧ g.paddr = c.paddr) :
    MemInv { s with adb := adb', grants := grants } ps l := by
  have hpaddr : ∀ w d, adb'.entry w = some d → ∃ d', s.adb.entry w = some d' ∧ d.paddr = d'.paddr := by
    intro w d hd
    rw [hassigned.entry] at hd
    split at hd
    next heq =>
      cases hd
      exact ⟨c, heq ▸ hentry, rfl⟩
    next => exact ⟨d, hd, rfl⟩
  refine ⟨h.block.of_book hassigned.quiet fun p hp w d hkind hd => ?_, h.live,
    fun w hw d hd u => ?_, fun g hg => ?_, h.content⟩
  · rw [hassigned.entry]
    split
    next heq =>
      rw [heq, hentry] at hd
      cases hd
      exact ⟨_, rfl, rfl⟩
    next => exact ⟨d, hd, rfl⟩
  · rw [hassigned.entry] at hd
    split at hd
    next heq =>
      cases hd
      exact heq ▸ hheld u
    next hne => exact (hothers w hne u).trans (h.held w hw d hd u)
  · rcases hgrants g hg with hg | ⟨rfl, hgpaddr⟩
    · refine ⟨(h.grants g hg).1, fun d hd => ?_⟩
      obtain ⟨d', hd', hsame⟩ := hpaddr _ d hd
      exact ((h.grants g hg).2 d' hd').trans hsame.symm
    · refine ⟨hv, fun d hd => ?_⟩
      obtain ⟨d', hd', hsame⟩ := hpaddr _ d hd
      rw [hentry] at hd'
      cases hd'
      exact hgpaddr.trans hsame.symm

/-- A thread gets a lock that nobody else's hold excludes. -/
theorem MemInv.get (h : MemInv s ps l) (hv : v ∈ s.live) (hentry : s.adb.entry v = some c)
    {lck : RwLock} (hassigned : s.adb.Assigned adb' v { c with lck := lck })
    (hheld : ∀ u, lck.heldBy u = c.lck.heldBy u + if t = u then 1 else 0) :
    MemInv { s with adb := adb', grants := ⟨t, v, c.paddr⟩ :: s.grants } ps l := by
  refine h.lock hv hentry hassigned (fun u => ?_) (fun w hne u => ?_) fun g hg => ?_
  · rw [List.countP_cons, h.held v hv c hentry u, hheld]
    simp only [isGrant_iff, and_true]
  · rw [List.countP_cons, if_neg fun hg => hne (isGrant_iff.mp hg).2.symm, Nat.add_zero]
  · exact (List.mem_cons.mp hg).elim (fun heq => .inr (heq ▸ ⟨rfl, rfl⟩)) .inl

/-- A thread gives a lock back. -/
theorem MemInv.unlock (h : MemInv s ps l) (hv : v ∈ s.live) (hentry : s.adb.entry v = some c)
    (hholds : c.lck.holds t = true)
    (hassigned : s.adb.Assigned adb' v { c with lck := c.lck.release t }) :
    MemInv { s with adb := adb', grants := s.grants.eraseP (isGrant t v) } ps l := by
  have hcount := h.held v hv c hentry
  have hrelease := RwLock.heldBy_release hholds
  obtain ⟨g, hg, hgrant⟩ : ∃ g ∈ s.grants, isGrant t v g = true := by
    refine List.countP_pos_iff.mp ?_
    have hself := hrelease t
    rw [if_pos rfl] at hself
    rw [hcount]
    omega
  obtain ⟨a, l₁, l₂, -, ha, hsplit, herase⟩ := List.exists_of_eraseP hg hgrant
  have hsum : ∀ u w, (s.grants.eraseP (isGrant t v)).countP (isGrant u w) +
      (if isGrant u w a then 1 else 0) = s.grants.countP (isGrant u w) := by
    intro u w
    rw [herase, hsplit, List.countP_append, List.countP_append, List.countP_cons]
    omega
  obtain ⟨hatid, havaddr⟩ := isGrant_iff.mp ha
  refine h.lock hv hentry hassigned (fun u => ?_) (fun w hne u => ?_) fun g hg => ?_
  · have hsumu := hsum u v
    have hrelu := hrelease u
    rw [hcount] at hsumu
    simp only [isGrant_iff, hatid, havaddr, and_true] at hsumu
    omega
  · have hsumu := hsum u w
    rw [if_neg fun hgr => hne (havaddr.symm.trans (isGrant_iff.mp hgr).2).symm] at hsumu
    exact hsumu
  · exact .inl (List.mem_of_mem_eraseP hg)

/-- A new vaddr, with the lock or without it. -/
theorem MemInv.malloc (h : MemInv s ps l) {minBytes : Nat} {hold : Bool} {res : MallocRes}
    {mb' : MemBlock} (hres : mbMallocP s.mb s.adb t minBytes hold = some (res, mb', adb')) :
    res = ⟨none, nullVaddr⟩ ∧ mb' = s.mb ∧ adb' = s.adb ∨
    res.vaddr ≠ nullVaddr ∧ ∃ ps' l', MemInv {
      mb := mb'
      adb := adb'
      live := res.vaddr :: s.live
      grants := match res.paddr with
        | some paddr => ⟨t, res.vaddr, paddr⟩ :: s.grants
        | none => s.grants
      content := Function.update s.content res.vaddr fun _ => none } ps' l' := by
  rcases mbMallocP_cases h.block hres with hnull |
    ⟨q, ps', l', hkind, hpaddr, -, hblock, hchanged, hnone, hentry⟩
  · exact .inl hnull
  · have hnew := hentry res.vaddr
    rw [if_pos rfl] at hnew
    have hold' : ∀ w ∈ s.live, w ≠ res.vaddr := by
      rintro w hw rfl
      obtain ⟨-, -, -, d, hd, -⟩ := h.piece hw
      rw [hnone] at hd
      cases hd
    have hno : ∀ u, s.grants.countP (isGrant u res.vaddr) = 0 := fun u =>
      List.countP_eq_zero.mpr fun g hg hgr =>
        hold' g.vaddr (h.grants g hg).1 (isGrant_iff.mp hgr).2
    have hpieces : ∀ p ∈ ps', ∀ w, p.kind = some w → p = q ∨ p ∈ ps := by
      intro p hp w hw
      exact ((hchanged.pieces p (by rw [hw]; rfl)).mp hp).imp_right And.left
    refine .inr ⟨hblock.quiet.ne_null (AddrBook.entry_eq_some.mp hnew).1, ps', l', hblock, fun w => ?_,
      fun w hw d hd u => ?_, fun g hg => ?_, fun p hp w off b hw hcontent => ?_⟩
    · constructor
      · intro hw
        rcases List.mem_cons.mp hw with rfl | hw
        · exact ⟨q, (hchanged.pieces q (by rw [hkind]; rfl)).mpr (.inl rfl), hkind⟩
        · obtain ⟨p, hp, hpw, -⟩ := h.piece hw
          exact ⟨p, (hchanged.pieces p (by rw [hpw]; rfl)).mpr (.inr ⟨hp, not_false⟩), hpw⟩
      · rintro ⟨p, hp, hpw⟩
        rcases hpieces p hp w hpw with rfl | hp
        · rw [hkind] at hpw
          cases hpw
          exact List.mem_cons_self
        · exact List.mem_cons_of_mem _ ((h.live w).mpr ⟨p, hp, hpw⟩)
    · simp only [hpaddr]
      rcases List.mem_cons.mp hw with rfl | hw
      · rw [hnew] at hd
        cases hd
        cases hold
        · exact hno u
        · simp only [if_true, List.countP_cons, hno, isGrant_iff, and_true, Nat.zero_add]
          exact (RwLock.heldBy_acqWrite rfl).symm
      · rw [hentry, if_neg (hold' w hw)] at hd
        have hcount := h.held w hw d hd u
        cases hold
        · exact hcount
        · simp only [if_true, List.countP_cons, isGrant_iff, (hold' w hw).symm, and_false, if_false]
          exact hcount
    · have hgrant : g ∈ s.grants ∨ g.vaddr = res.vaddr ∧ g.paddr = mpToMapB q.addr := by
        simp only [hpaddr] at hg
        cases hold
        · exact .inl hg
        · exact (List.mem_cons.mp hg).elim (fun heq => .inr (heq ▸ ⟨rfl, rfl⟩)) .inl
      rcases hgrant with hg | ⟨hgv, hgp⟩
      · obtain ⟨hlive, hsame⟩ := h.grants g hg
        refine ⟨List.mem_cons_of_mem _ hlive, fun d hd => hsame d ?_⟩
        rw [← hd, hentry, if_neg (hold' _ hlive)]
      · refine ⟨hgv ▸ List.mem_cons_self, fun d hd => ?_⟩
        rw [hgv, hnew] at hd
        cases hd
        exact hgp
    · rcases hpieces p hp w hw with rfl | hp
      · rw [hkind] at hw
        cases hw
        simp only [Function.update_self, reduceCtorEq] at hcontent
      · have hne := hold' w ((h.live w).mpr ⟨p, hp, hw⟩)
        simp only [Function.update_of_ne hne] at hcontent
        exact h.content_kept hchanged hp not_false hw hcontent

/-- A vaddr that was live and not locked goes. -/
theorem MemInv.free (h : MemInv s ps l) (hv : v ∈ s.live) {mb' : MemBlock}
    (hfree : mbFree s.mb s.adb t v = some (mb', adb')) :
    ∃ ps' l', MemInv { s with mb := mb', adb := adb', live := s.live.filter (· ≠ v) } ps' l' := by
  obtain ⟨p, hp, hkind, -⟩ := h.piece hv
  obtain ⟨⟨c, hc, hlck⟩, ps', l', hblock, hchanged, hentry⟩ := mbFree_cases h.block hp hkind hfree
  have hlive : ∀ w, w ∈ s.live.filter (· ≠ v) ↔ w ∈ s.live ∧ w ≠ v := fun w => by
    rw [List.mem_filter, decide_eq_true_eq]
  have hpieces : ∀ q ∈ ps', ∀ w, q.kind = some w → q ∈ ps ∧ q ≠ p := by
    intro q hq w hw
    exact ((hchanged.pieces q (by rw [hw]; rfl)).mp hq).resolve_left not_false
  have hne : ∀ q ∈ ps', ∀ w, q.kind = some w → w ≠ v := by
    rintro q hq w hw rfl
    obtain ⟨hqps, hqp⟩ := hpieces q hq w hw
    exact hqp (h.block.vaddr_inj hqps hp hw hkind)
  refine ⟨ps', l', hblock, fun w => ?_, fun w hw d hd u => ?_, fun g hg => ?_,
    fun q hq w off b hw hcontent => ?_⟩
  · rw [hlive]
    constructor
    · rintro ⟨hw, hwv⟩
      obtain ⟨q, hq, hqw, -⟩ := h.piece hw
      refine ⟨q, (hchanged.pieces q (by rw [hqw]; rfl)).mpr (.inr ⟨hq, ?_⟩), hqw⟩
      rintro rfl
      rw [hkind] at hqw
      cases hqw
      exact hwv rfl
    · rintro ⟨q, hq, hqw⟩
      exact ⟨(h.live w).mpr ⟨q, (hpieces q hq w hqw).1, hqw⟩, hne q hq w hqw⟩
  · obtain ⟨hw, hwv⟩ := (hlive w).mp hw
    rw [hentry, if_neg hwv] at hd
    exact h.held w hw d hd u
  · obtain ⟨hglive, hsame⟩ := h.grants g hg
    have hgv := h.no_grant hc hlck g hg
    refine ⟨(hlive _).mpr ⟨hglive, hgv⟩, fun d hd => hsame d ?_⟩
    rw [← hd, hentry, if_neg hgv]
  · obtain ⟨hqps, hqp⟩ := hpieces q hq w hw
    exact h.content_kept hchanged hqps hqp hw hcontent

/-- A piece moves, and its bytes with it. -/
theorem MemInv.shift (h : MemInv s ps l) {mb' : MemBlock} {res : MbShiftRes}
    (hshift : mbTryShift s.mb s.adb t = some (res, mb', adb')) :
    ∃ ps' l', MemInv { s with mb := mb', adb := adb' } ps' l' := by
  obtain ⟨res', mb'', adb'', heq, hspec⟩ := mbTryShift_eq h.block t
  rw [hshift] at heq
  cases heq
  rcases hspec with ⟨rfl, rfl⟩ | ⟨q, q', v, c, ps', l', hblock, hq⟩
  · exact ⟨ps, l, h⟩
  · have hchanged := hq.changed
    have hpieces : ∀ p ∈ ps', ∀ w, p.kind = some w → p = q' ∨ p ∈ ps ∧ p ≠ q := fun p hp w hw =>
      (hchanged.pieces p (by rw [hw]; rfl)).mp hp
    have hvlive : v ∈ s.live := (h.live v).mpr ⟨q, hq.mem, hq.kind⟩
    have hgv := h.no_grant hq.entry hq.free
    refine ⟨ps', l', hblock, fun w => ?_, fun w hw d hd u => ?_, fun g hg => ?_,
      fun p hp w off b hw hcontent => ?_⟩
    · rw [h.live]
      constructor
      · rintro ⟨p, hp, hw⟩
        by_cases hpq : p = q
        · refine ⟨q', (hchanged.pieces q' (by rw [hq.kind']; rfl)).mpr (.inl rfl), ?_⟩
          rw [hq.kind', ← hq.kind, ← hpq, hw]
        · exact ⟨p, (hchanged.pieces p (by rw [hw]; rfl)).mpr (.inr ⟨hp, hpq⟩), hw⟩
      · rintro ⟨p, hp, hw⟩
        rcases hpieces p hp w hw with rfl | ⟨hp, -⟩
        · exact ⟨q, hq.mem, hq.kind.trans (hq.kind'.symm.trans hw)⟩
        · exact ⟨p, hp, hw⟩
    · rw [hq.entries] at hd
      split at hd
      next heq =>
        cases hd
        exact h.held w hw c (heq ▸ hq.entry) u
      next => exact h.held w hw d hd u
    · obtain ⟨hglive, hsame⟩ := h.grants g hg
      refine ⟨hglive, fun d hd => hsame d ?_⟩
      rw [← hd, hq.entries, if_neg (hgv g hg)]
    · rcases hpieces p hp w hw with rfl | ⟨hp, hpq⟩
      · have hwv : w = v := Option.some_inj.mp (hw.symm.trans hq.kind')
        obtain ⟨hoff, hbyte⟩ := h.content q hq.mem w off b (hwv ▸ hq.kind) hcontent
        exact ⟨hq.size ▸ hoff, (hq.bytes off hoff).trans hbyte⟩
      · exact h.content_kept hchanged hp hpq hw hcontent

/-- A write into the body of a live vaddr, behind its vaddr. -/
theorem MemInv.poke (h : MemInv s ps l) {p : Piece} (hp : p ∈ ps) (hkind : p.kind = some v) {mem : Mem}
    (hfront : Mem.SameOn s.mb.mem mem s.mb.start (mpToMapB p.addr))
    (hback : Mem.SameOn s.mb.mem mem (p.stop - 8) s.mb.stop) {f : Nat → Option UInt8}
    (hf : ∀ off b, f off = some b →
      off + mapPadding < p.size ∧ mem.byte (mpToMapB p.addr + off) = b) :
    MemInv { s with
      mb := { s.mb with mem := mem }, content := Function.update s.content v f } ps l := by
  obtain ⟨hblock, hothers⟩ := h.block.poke hp hkind hfront hback
  refine ⟨hblock, h.live, h.held, h.grants, fun q hq w off b hw hcontent => ?_⟩
  by_cases hqp : q = p
  · subst hqp
    rw [hkind] at hw
    cases hw
    simp only [Function.update_self] at hcontent
    exact hf off b hcontent
  · have hne : w ≠ v := by
      rintro rfl
      exact hqp (h.block.vaddr_inj hq hp hw hkind)
    simp only [Function.update_of_ne hne] at hcontent
    obtain ⟨hoffq, hbyte⟩ := h.content q hq w off b hw hcontent
    obtain ⟨hlow, hhigh⟩ := user_byte_inside hoffq
    exact ⟨hoffq, (hothers q hq hqp _ hlow hhigh).trans hbyte⟩

/-- The body of a live vaddr, where a holder of its lock knows it. -/
theorem MemInv.body (h : MemInv s ps l) {g : Grant} (hg : g ∈ s.grants) :
    ∃ p ∈ ps, p.kind = some g.vaddr ∧ g.paddr = mpToMapB p.addr ∧
      bodySize s.mb.mem g.paddr = p.size - mapPadding := by
  obtain ⟨hlive, hsame⟩ := h.grants g hg
  obtain ⟨p, hp, hkind, c, hc, hpaddr⟩ := h.piece hlive
  have hgp : g.paddr = mpToMapB p.addr := (hsame c hc).trans hpaddr
  have hmem : p ∈ ps ++ [] := List.mem_append_left _ hp
  refine ⟨p, hp, hkind, hgp, ?_⟩
  rw [bodySize, hgp, mapBToMp_mpToMapB, (h.block.laid.kept p hmem).size (h.block.laid.fit p hmem)]

/-- A holder of the write lock writes a byte. -/
theorem MemInv.write (h : MemInv s ps l) {g : Grant} {off : Nat} {b : UInt8} (hg : g ∈ s.grants)
    (hoff : off < bodySize s.mb.mem g.paddr) :
    MemInv { s with
      mb := { s.mb with mem := s.mb.mem.setByte (g.paddr + off) b }
      content := Function.update s.content g.vaddr
        (Function.update (s.content g.vaddr) off (some b)) } ps l := by
  obtain ⟨p, hp, hkind, hgp, hsize⟩ := h.body hg
  have hoff' : off + mapPadding < p.size := by
    rw [hsize] at hoff
    omega
  have hpad : mapPadding = 32 := rfl
  have hbody : mpToMapB p.addr = p.addr + 24 := rfl
  have hstop := p.stop_eq
  have hfront : Mem.SameOn s.mb.mem (s.mb.mem.setByte (g.paddr + off) b) s.mb.start
      (mpToMapB p.addr) := Mem.sameOn_setByte (.inl (by omega))
  apply h.poke hp hkind hfront (Mem.sameOn_setByte (.inr (by omega)))
  intro off' b' hcontent
  rw [Mem.byte_setByte, hgp]
  by_cases heq : off' = off
  · rw [heq, Function.update_self] at hcontent
    cases hcontent
    exact ⟨heq ▸ hoff', if_pos (by rw [heq])⟩
  · rw [Function.update_of_ne heq] at hcontent
    rw [if_neg (by omega)]
    exact h.content p hp g.vaddr off' b' hkind hcontent

/-- A step elsewhere that leaves the cells of the live vaddrs and their content alone. -/
theorem MemInv.frame (h : MemInv s ps l) (hquiet : adb'.Quiet)
    (hentries : ∀ w ∈ s.live, adb'.entry w = s.adb.entry w) {content : Vaddr → Nat → Option UInt8}
    (hcontent : ∀ w ∈ s.live, content w = s.content w) :
    MemInv { s with adb := adb', content := content } ps l := by
  refine ⟨h.block.of_book hquiet fun p hp w d hkind hd => ?_, h.live, fun w hw d hd => ?_,
    fun g hg => ?_, fun p hp w off b hkind hb => ?_⟩
  · exact ⟨d, (hentries w ((h.live w).mpr ⟨p, hp, hkind⟩)).trans hd, rfl⟩
  · exact h.held w hw d ((hentries w hw).symm.trans hd)
  · obtain ⟨hlive, hsame⟩ := h.grants g hg
    exact ⟨hlive, fun d hd => hsame d ((hentries _ hlive).symm.trans hd)⟩
  · have hw : w ∈ s.live := (h.live w).mpr ⟨p, hp, hkind⟩
    exact h.content p hp w off b hkind ((congrFun (hcontent w hw) off).symm.trans hb)

/-- **Step lemma.** -/
theorem memStep_inv {a : MemAct} (h : MemSound s) (hok : usesLive s a)
    (hstep : memStep s a = some s') : MemSound s' := by
  obtain ⟨ps, l, h⟩ := h
  cases a with
  | malloc t minBytes hold =>
    simp only [memStep] at hstep
    split at hstep
    · cases hstep
    next res mb adb hres =>
      rcases h.malloc hres with ⟨rfl, rfl, rfl⟩ | ⟨hne, hinv⟩
      · rw [if_pos rfl] at hstep
        cases hstep
        exact ⟨ps, l, h⟩
      · rw [if_neg hne] at hstep
        cases hstep
        exact hinv
  | free t v =>
    simp only [memStep] at hstep
    split at hstep
    · cases hstep
    next mb adb hfree =>
      cases hstep
      exact h.free hok hfree
  | tryShift t =>
    simp only [memStep] at hstep
    split at hstep
    · cases hstep
    next res mb adb hshift =>
      cases hstep
      exact h.shift hshift
  | getRead t v =>
    simp only [memStep] at hstep
    split at hstep
    · cases hstep
    next paddr adb hget =>
      cases hstep
      obtain ⟨c, hentry, -, rfl, hassigned⟩ := AddrBook.adbGetRead_eq_some h.block.quiet hget
      exact ⟨ps, l, h.get hok hentry hassigned fun u => RwLock.heldBy_acqRead ..⟩
  | getWrite t v =>
    simp only [memStep] at hstep
    split at hstep
    · cases hstep
    next paddr adb hget =>
      cases hstep
      obtain ⟨c, hentry, hfree, rfl, hassigned⟩ := AddrBook.adbGetWrite_eq_some h.block.quiet hget
      refine ⟨ps, l, h.get hok hentry hassigned fun u => ?_⟩
      rw [RwLock.heldBy_acqWrite hfree, RwLock.heldBy_of_isFree hfree, Nat.zero_add]
  | unlock t v =>
    simp only [memStep] at hstep
    split at hstep
    · cases hstep
    next adb hunlock =>
      cases hstep
      obtain ⟨c, hentry, hholds, hassigned⟩ := AddrBook.adbUnlock_eq_some h.block.quiet hunlock
      exact ⟨ps, l, h.unlock hok hentry hholds hassigned⟩
  | write t v off b =>
    simp only [memStep] at hstep
    split at hstep
    next c g hc hg =>
      split at hstep
      next hcond =>
        cases hstep
        have hgv : g.vaddr = v := (isGrant_iff.mp (List.find?_some hg)).2
        subst hgv
        exact ⟨ps, l, h.write (List.mem_of_find?_eq_some hg) hcond.2⟩
      next => cases hstep
    next => cases hstep

/-- A new block with nothing in it. -/
theorem memInv_new {start : Nat} (mem : Mem) (minBytes : Nat) {adb : AddrBook} (hstart : 0 < start)
    (hstop : start + padNumBytes minBytes < 2 ^ 64) (hquiet : adb.Quiet) :
    MemSound (MemSys.new start mem minBytes adb) := by
  refine ⟨_, _, block_new mem minBytes hstart hstop hquiet, fun v => ⟨nofun, ?_⟩, nofun, nofun, ?_⟩
  · rintro ⟨p, hp, hkind⟩
    rw [List.mem_singleton.mp hp] at hkind
    cases hkind
  · intro p hp v off b hkind
    rw [List.mem_singleton.mp hp] at hkind
    cases hkind

/-- **Run lemma.** -/
theorem memInv_reach {start : Nat} {mem : Mem} {minBytes : Nat} {adb : AddrBook} (hstart : 0 < start)
    (hstop : start + padNumBytes minBytes < 2 ^ 64) (hquiet : adb.Quiet)
    (h : Reaches memStep usesLive (MemSys.new start mem minBytes adb) s) : MemSound s :=
  h.invariant (fun _ _ _ => memStep_inv) (memInv_new mem minBytes hstart hstop hquiet)

/-! ## Runs of the model -/

/-- `usesLive`, decided. -/
def usesLiveCheck (s : MemSys) : MemAct → Bool
  | .free _ v | .getRead _ v | .getWrite _ v | .unlock _ v => s.live.contains v
  | _ => true

theorem usesLiveCheck_sound (s : MemSys) (a : MemAct) (h : usesLiveCheck s a = true) : usesLive s a := by
  cases a with
  | free t v | getRead t v | getWrite t v | unlock t v => exact List.contains_iff_mem.mp h
  | malloc | tryShift | write => trivial

end Chvm.Mb
