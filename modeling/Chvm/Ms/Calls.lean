import Chvm.Ms.Parts

/-!
# The calls on the space

`ms_try_full_shift`, `ms_free`, the lock operations and a user's write: each works on the part of one
block at a time and frames the others. `ms_free` frees in the block that the header names.
-/

set_option autoImplicit false

namespace Chvm.Ms

open Chvm.Lib Chvm.Virt Chvm.Mb

variable {bs : List SpaceBlock} {b b' c : SpaceBlock} {i : Nat} {s : MsSys} {owner : Vaddr → Nat}
  {content content' : Vaddr → Nat → Option UInt8} {ps l : List Piece} {t : Tid} {v : Vaddr}
  {adb adb' : AddrBook} {σ : MemSys}

/-- A change of the seed. -/
theorem MsInv.reseed (h : MsInv s owner content) (seed : Nat) :
    MsInv { s with ms := { s.ms with seed := seed } } owner content :=
  ⟨h.fits, h.nonempty, h.placed, h.quiet, h.parts, h.owned, h.grants, h.entries, h.nodup, h.count,
    h.header, h.body⟩

theorem set_ne_nil (hne : bs ≠ []) : bs.set i b' ≠ [] := by
  intro heq
  have hlen := congrArg List.length heq
  rw [List.length_set] at hlen
  exact hne (List.length_eq_zero_iff.mp hlen)

/-- The block that a changed list holds for an address. -/
theorem exists_set (hb : bs[i]? = some b) (haddr : b'.addr = b.addr) (hc : c ∈ bs) :
    ∃ d ∈ bs.set i b', c.addr = d.addr := by
  obtain ⟨j, hj⟩ := List.mem_iff_getElem?.mp hc
  by_cases heq : i = j
  · subst heq
    rw [hb] at hj
    cases hj
    exact ⟨b', List.mem_set (List.getElem?_eq_some_iff.mp hb).1 b', haddr.symm⟩
  · refine ⟨c, List.mem_iff_getElem?.mpr ⟨j, ?_⟩, rfl⟩
    rw [List.getElem?_set_ne heq]
    exact hj

/-- A call on the block at `i` that keeps the live vaddrs, their owners and the grants elsewhere. -/
theorem MsInv.local (h : MsInv s owner content) (hb : s.ms.mbList[i]? = some b) {ms' : MemSpace}
    {grants : List Grant} (hmin : ms'.mbMinBytes = s.ms.mbMinBytes)
    (hset : ms'.mbList = s.ms.mbList.set i b') (hsame : SameBuffer b b') (hquiet : ms'.adb.Quiet)
    (hpart : ∃ ps l, MemInv { (s.part owner content b) with
      mb := b'.mb, adb := ms'.adb, grants := grants.filter (owner ·.vaddr = b.addr)
      content := content' } ps l)
    (hgrants : ∀ g ∈ grants, g.vaddr ∈ s.live)
    (hgrants' : ∀ a ≠ b.addr, grants.filter (owner ·.vaddr = a) = s.grants.filter (owner ·.vaddr = a))
    (hentries : ∀ w, (ms'.adb.entry w).isSome = (s.ms.adb.entry w).isSome)
    (hothers : ∀ w ∈ s.live, owner w ≠ b.addr →
      ms'.adb.entry w = s.ms.adb.entry w ∧ content' w = content w)
    (hheader : ∀ w ∈ s.live, ∀ k < 8, content' w k = content w k)
    (hbody : ∀ w ∈ s.live, ∀ off, (content w off).isSome = true → (content' w off).isSome = true) :
    MsInv { s with ms := ms', grants := grants } owner content' := by
  refine ⟨by rw [hmin]; exact h.fits, ?_, ?_, hquiet, ?_, fun w hw => ?_, hgrants, fun w => ?_, h.nodup,
    h.count, fun w hw k hk => (hheader w hw k hk).trans (h.header w hw k hk),
    fun w hw off hoff => hbody w hw off (h.body w hw off hoff)⟩
  · show ms'.mbList ≠ []
    rw [hset]
    exact set_ne_nil h.nonempty
  · show Placed ms'.mbList
    rw [hset]
    exact h.placed.set hb hsame
  · refine h.parts_set { s with ms := ms', grants := grants } hb hset hquiet ?_ (fun _ _ => rfl) hgrants'
      hothers
    rw [MsSys.part, hsame.1]
    exact hpart
  · obtain ⟨c, hc, howner⟩ := h.owned w hw
    obtain ⟨d, hd, haddr⟩ := exists_set hb hsame.1 hc
    exact ⟨d, hset ▸ hd, howner.trans haddr⟩
  · exact (Bool.eq_iff_iff.mp (hentries w)).trans (h.entries w)

/-- The block at `i` after shifts in it. -/
theorem MsInv.shifted (h : MsInv s owner content) (hb : s.ms.mbList[i]? = some b) {mb' : MemBlock}
    (hin : ShiftedIn (s.part owner content b) mb' adb') :
    MsInv { s with ms := { s.ms with adb := adb', mbList := s.ms.mbList.set i { b with mb := mb' } } } owner
      content := by
  obtain ⟨ps', l', hpart⟩ := hin.part
  exact h.local hb rfl rfl ⟨rfl, rfl, hin.fields⟩ hpart.block.quiet ⟨ps', l', hpart⟩ h.grants
    (fun _ _ => rfl) hin.entries
    (fun w _ hne => ⟨hin.others w fun hw => hne (mem_part_live.mp hw).2, rfl⟩)
    (fun _ _ _ _ => rfl) fun _ _ _ hsome => hsome

/-- `ms_try_full_shift`, one block. -/
theorem MsInv.shiftBlock (h : MsInv s owner content) {fuel : Nat} {ms' : MemSpace}
    (hshift : msShiftBlock t fuel s.ms i = some ms') :
    MsInv { s with ms := ms' } owner content := by
  unfold msShiftBlock at hshift
  split at hshift
  · cases hshift
  next b hb =>
    obtain ⟨⟨mb', adb'⟩, hfull, heq⟩ := Option.map_eq_some_iff.mp hshift
    cases heq
    obtain ⟨ps, l, hinv⟩ := h.parts b (List.mem_of_getElem? hb)
    exact h.shifted hb (mbTryFullShift_in hinv hfull)

theorem MsInv.fullShift (h : MsInv s owner content) {fuel : Nat} {ms' : MemSpace}
    (hshift : msTryFullShift s.ms t fuel = some ms') : MsInv { s with ms := ms' } owner content := by
  unfold msTryFullShift at hshift
  generalize List.range s.ms.mbList.length = is at hshift
  induction is generalizing s with
  | nil =>
    cases hshift
    exact h
  | cons i is ih =>
    rw [List.foldlM_cons] at hshift
    obtain ⟨ms₁, hone, hrest⟩ := Option.bind_eq_some_iff.mp hshift
    have h₁ := h.shiftBlock hone
    have h₂ := ih h₁ hrest
    exact h₂

/-- What the shifts of one block leave of the book. -/
theorem MsInv.shiftBlock_locks (h : MsInv s owner content) {fuel : Nat} {ms' : MemSpace}
    (hshift : msShiftBlock t fuel s.ms i = some ms') :
    SameLocks s.ms.adb ms'.adb ∧ s.ms.adb.SameSize ms'.adb := by
  unfold msShiftBlock at hshift
  split at hshift
  · cases hshift
  next b hb =>
    obtain ⟨⟨mb', adb'⟩, hfull, heq⟩ := Option.map_eq_some_iff.mp hshift
    cases heq
    obtain ⟨ps, l, hinv⟩ := h.parts b (List.mem_of_getElem? hb)
    have hin := mbTryFullShift_in hinv hfull
    exact ⟨hin.locks, hin.size⟩

theorem MsInv.fullShift_locks (h : MsInv s owner content) {fuel : Nat} {ms' : MemSpace}
    (hshift : msTryFullShift s.ms t fuel = some ms') :
    SameLocks s.ms.adb ms'.adb ∧ s.ms.adb.SameSize ms'.adb := by
  unfold msTryFullShift at hshift
  generalize List.range s.ms.mbList.length = is at hshift
  induction is generalizing s with
  | nil =>
    cases hshift
    exact ⟨fun _ => rfl, .refl _⟩
  | cons i is ih =>
    rw [List.foldlM_cons] at hshift
    obtain ⟨ms₁, hone, hrest⟩ := Option.bind_eq_some_iff.mp hshift
    obtain ⟨hlocks, hsize⟩ := h.shiftBlock_locks hone
    obtain ⟨hlocks', hsize'⟩ := ih (h.shiftBlock hone) hrest
    exact ⟨fun w => (hlocks' w).trans (hlocks w), hsize.trans hsize'⟩

/-- The header of a live vaddr holds the pointer to the block that its piece lies in. -/
theorem MsInv.header_eq (h : MsInv s owner content) (hb : b ∈ s.ms.mbList) (howner : owner v = b.addr)
    (hv : v ∈ s.live) (hinv : MemInv (s.part owner content b) ps l) {p : Piece} (hp : p ∈ ps)
    (hkind : p.kind = some v) :
    b.contains (mpToMapB p.addr) = true ∧ b.mb.mem.load64 (mpToMapB p.addr) = b.addr := by
  obtain ⟨-, hlt, hstart, hstop⟩ := h.placed.buffer b hb
  have hinside := hinv.block.laid.tiles.mem hp
  have hlow : b.mb.start ≤ p.addr := hinside.1
  have hhigh : p.stop ≤ b.mb.stop := hinside.2.2
  have hsize := (hinv.block.laid.fit p (List.mem_append_left _ hp)).size_ge
  have hend := p.stop_eq
  have hbody : mpToMapB p.addr = p.addr + 24 := rfl
  refine ⟨contains_iff.mpr (by omega), load64_of_bytes (by omega) fun k hk => ?_⟩
  have hbyte := (hinv.content p hp v k _ hkind (h.header v hv k hk)).2
  rw [howner] at hbyte
  exact hbyte

/-- A free that returns is `mb_free` in the block that the vaddr lies in. -/
theorem MsInv.msFree_eq (h : MsInv s owner content) (hv : v ∈ s.live) {ms' : MemSpace}
    (hfree : msFree s.ms t v = some ms') :
    ∃ (i : Nat) (b : SpaceBlock) (adb₂ : AddrBook) (mb' : MemBlock) (adb' : AddrBook),
      s.ms.mbList[i]? = some b ∧ owner v = b.addr ∧ adb₂.Quiet ∧
      (∀ w, adb₂.entry w = s.ms.adb.entry w) ∧ mbFree b.mb adb₂ t v = some (mb', adb') ∧
      ms' = { s.ms with adb := adb', mbList := s.ms.mbList.set i { b with mb := mb' } } := by
  obtain ⟨i, b, ps, l, p, c, hb, howner, hinv, hp, hkind, hc, hpaddr, -⟩ := h.piece hv
  obtain ⟨hcontains, hload⟩ := h.header_eq (List.mem_of_getElem? hb) howner hv hinv hp hkind
  unfold msFree at hfree
  split at hfree
  · cases hfree
  next paddr adb₁ hget =>
    split at hfree
    next ptr adb₂ hheader hunlock =>
      obtain ⟨c', hc', rfl, hquiet, hsame⟩ := read_unlock h.quiet hget hunlock
      rw [hc] at hc'
      cases hc'
      unfold msHeader at hheader
      rw [hpaddr, h.placed.find (List.mem_of_getElem? hb) hcontains, Option.map_some, hload] at hheader
      cases hheader
      simp only [h.placed.findIdx_addr hb, hb] at hfree
      obtain ⟨⟨mb', adb'⟩, hmb, heq⟩ := Option.map_eq_some_iff.mp hfree
      exact ⟨i, b, adb₂, mb', adb', hb, howner, hquiet, hsame, hmb, heq.symm⟩
    next => cases hfree

/-- Nothing but the lock of the vaddr keeps `ms_free` from returning. -/
theorem MsInv.msFree_isSome (h : MsInv s owner content) (hv : v ∈ s.live) {c : AddrTableCell}
    (hc : s.ms.adb.entry v = some c) (hlck : c.lck.isFree = true) (t : Tid) :
    (msFree s.ms t v).isSome = true := by
  obtain ⟨i, b, ps, l, p, d, hb, howner, hinv, hp, hkind, hd, hpaddr, -⟩ := h.piece hv
  obtain ⟨hcontains, hload⟩ := h.header_eq (List.mem_of_getElem? hb) howner hv hinv hp hkind
  rw [hc] at hd
  cases hd
  obtain ⟨adb₁, adb₂, hget, hunlock⟩ := read_unlock_isSome h.quiet hc hlck t
  obtain ⟨c', hc', -, hquiet, hsame⟩ := read_unlock h.quiet hget hunlock
  have hinv₂ : MemInv { s.part owner content b with adb := adb₂ } ps l :=
    hinv.frame hquiet (fun w _ => hsame w) fun _ _ => rfl
  have hmb := mbFree_isSome hinv₂.block hp hkind ((hsame v).trans hc) hlck t
  obtain ⟨⟨mb', adb'⟩, hmb⟩ := Option.isSome_iff_exists.mp hmb
  have hheader : msHeader s.ms c.paddr = some b.addr := by
    unfold msHeader
    rw [hpaddr, h.placed.find (List.mem_of_getElem? hb) hcontains, Option.map_some, hload]
  unfold msFree
  rw [hget]
  simp only [hheader, hunlock, h.placed.findIdx_addr hb, hb]
  rw [show mbFree b.mb adb₂ t v = some (mb', adb') from hmb]
  rfl

/-- The cells after a free that returned. -/
theorem MsInv.msFree_entry (h : MsInv s owner content) {ms' : MemSpace} (hfree : msFree s.ms t v = some ms') :
    (∃ c, s.ms.adb.entry v = some c ∧ c.lck.isFree = true) ∧ s.ms.adb.SameSize ms'.adb ∧
      ∀ w, ms'.adb.entry w = if w = v then none else s.ms.adb.entry w := by
  unfold msFree at hfree
  split at hfree
  · cases hfree
  next paddr adb₁ hget =>
    split at hfree
    next ptr adb₂ hheader hunlock =>
      obtain ⟨-, -, -, hquiet, hsame⟩ := read_unlock h.quiet hget hunlock
      have hsize := (AddrBook.sameSize_adbGetRead hget).trans (AddrBook.sameSize_adbUnlock hunlock)
      simp only at hfree
      split at hfree
      · cases hfree
      next b hb =>
        obtain ⟨⟨mb', adb'⟩, hmb, heq⟩ := Option.map_eq_some_iff.mp hfree
        cases heq
        obtain ⟨⟨c, hc, hlck⟩, hsize', hentry⟩ := mbFree_book hquiet hmb
        refine ⟨⟨c, (hsame v).symm.trans hc, hlck⟩, hsize.trans hsize', fun w => ?_⟩
        rw [show adb'.entry w = _ from hentry w, hsame]
    next => cases hfree

/-- **Free.** -/
theorem MsInv.free (h : MsInv s owner content) (hv : v ∈ s.live) {ms' : MemSpace}
    (hfree : msFree s.ms t v = some ms') : MsInv { s with
      ms := ms', live := s.live.filter (· ≠ v), frees := s.frees + 1 } owner content := by
  obtain ⟨i, b, adb₂, mb', adb', hb, howner, hquiet, hsame, hmb, rfl⟩ := h.msFree_eq hv hfree
  obtain ⟨ps, l, hinv⟩ := h.parts b (List.mem_of_getElem? hb)
  have hinv₂ : MemInv { s.part owner content b with adb := adb₂ } ps l :=
    hinv.frame hquiet (fun w _ => hsame w) fun _ _ => rfl
  have hvpart : v ∈ (s.part owner content b).live := mem_part_live.mpr ⟨hv, howner⟩
  have hpart := hinv₂.free hvpart hmb
  obtain ⟨p, hp, hkind, -⟩ := hinv₂.piece hvpart
  obtain ⟨⟨c, hc, hlck⟩, ps', l', hblock, hchanged, hentry⟩ := mbFree_cases hinv₂.block hp hkind hmb
  have hlive : ∀ w, w ∈ s.live.filter (· ≠ v) ↔ w ∈ s.live ∧ w ≠ v := fun w => by
    rw [List.mem_filter, decide_eq_true_eq]
  have hgrant : ∀ g ∈ s.grants, g.vaddr ≠ v := by
    rintro g hg rfl
    exact hinv₂.no_grant hc hlck g (List.mem_filter.mpr ⟨hg, decide_eq_true howner⟩) rfl
  refine ⟨h.fits, set_ne_nil h.nonempty, h.placed.set hb ⟨rfl, rfl, hchanged.fields⟩, hblock.quiet, ?_,
    fun w hw => ?_, fun g hg => (hlive _).mpr ⟨h.grants g hg, hgrant g hg⟩, fun w => ?_,
    h.nodup.filter _, ?_, fun w hw => h.header w ((hlive w).mp hw).1,
    fun w hw => h.body w ((hlive w).mp hw).1⟩
  · refine h.parts_set { s with
      ms := { s.ms with adb := adb', mbList := s.ms.mbList.set i { b with mb := mb' } }
      live := s.live.filter (· ≠ v), frees := s.frees + 1 } hb rfl hblock.quiet ?_ (fun a ha => ?_)
      (fun _ _ => rfl) fun w hw hne => ⟨?_, rfl⟩
    · rw [MsSys.part, List.filter_comm]
      exact hpart
    · rw [List.filter_filter]
      apply List.filter_congr
      intro w _
      by_cases heq : w = v
      · simp only [heq, howner, ha.symm, decide_false, Bool.false_and]
      · simp only [heq, ne_eq, not_false_eq_true, decide_true, Bool.and_true]
    · rw [show adb'.entry w = _ from hentry w, if_neg, hsame]
      rintro rfl
      exact hne howner
  · obtain ⟨c, hc, hwc⟩ := h.owned w ((hlive w).mp hw).1
    obtain ⟨d, hd, hcd⟩ := exists_set hb (show ({ b with mb := mb' } : SpaceBlock).addr = b.addr from rfl) hc
    exact ⟨d, hd, hwc.trans hcd⟩
  · show (adb'.entry w).isSome = true ↔ w ∈ s.live.filter (· ≠ v)
    rw [hlive, hentry]
    split
    next heq => exact iff_of_false Bool.false_ne_true fun hw => hw.2 heq
    next hne =>
      rw [hsame, h.entries]
      exact (and_iff_left hne).symm
  · have hlen := List.length_erase_of_mem hv
    have hpos := List.length_pos_of_mem hv
    have hcount := h.count
    have hfilter : s.live.filter (· ≠ v) = s.live.erase v := by
      rw [h.nodup.erase_eq_filter]
      exact List.filter_congr fun w _ => Bool.eq_iff_iff.mpr (by rw [decide_eq_true_eq, bne_iff_ne])
    show (s.live.filter (· ≠ v)).length + (s.frees + 1) = s.mallocs
    rw [hfilter, hlen]
    omega

/-! ## Locks and writes -/

theorem set_self (hb : bs[i]? = some b) : bs.set i b = bs := by
  obtain ⟨hi, rfl⟩ := List.getElem?_eq_some_iff.mp hb
  exact List.set_getElem_self hi

/-- A lock operation on a live vaddr. -/
theorem MsInv.lock (h : MsInv s owner content) (ps l : List Piece) (hb : s.ms.mbList[i]? = some b)
    (howner : owner v = b.addr)
    {c d : AddrTableCell} (hc : s.ms.adb.entry v = some c) (hassigned : s.ms.adb.Assigned adb' v d)
    {grants : List Grant} (hpart : MemInv { (s.part owner content b) with
      adb := adb', grants := grants.filter (owner ·.vaddr = b.addr) } ps l)
    (hgrants : ∀ g ∈ grants, g.vaddr ∈ s.live)
    (hgrants' : ∀ a ≠ b.addr, grants.filter (owner ·.vaddr = a) = s.grants.filter (owner ·.vaddr = a)) :
    MsInv { s with ms := { s.ms with adb := adb' }, grants := grants } owner content := by
  refine h.local hb rfl (set_self hb).symm ⟨rfl, rfl, rfl, rfl⟩ hassigned.quiet ⟨ps, l, hpart⟩ hgrants
    hgrants' (fun w => ?_) (fun w hw hne => ⟨?_, rfl⟩) (fun _ _ _ _ => rfl) fun _ _ _ hsome => hsome
  · rw [hassigned.entry]
    split
    next heq =>
      rw [heq, hc]
      rfl
    next => rfl
  · rw [hassigned.entry, if_neg]
    rintro rfl
    exact hne howner

/-- A thread gets a lock that nobody else's hold excludes. -/
theorem MsInv.get (h : MsInv s owner content) (hv : v ∈ s.live) {c : AddrTableCell} {lck : RwLock}
    (hc : s.ms.adb.entry v = some c) (hassigned : s.ms.adb.Assigned adb' v { c with lck := lck })
    (hheld : ∀ u, lck.heldBy u = c.lck.heldBy u + if t = u then 1 else 0) :
    MsInv { s with ms := { s.ms with adb := adb' }, grants := ⟨t, v, c.paddr⟩ :: s.grants } owner
      content := by
  obtain ⟨b, hb, howner⟩ := h.owned v hv
  obtain ⟨i, hi⟩ := List.mem_iff_getElem?.mp hb
  obtain ⟨ps, l, hinv⟩ := h.parts b hb
  have hpart := hinv.get (mem_part_live.mpr ⟨hv, howner⟩) hc hassigned hheld
  refine h.lock ps l hi howner hc hassigned ?_ (fun g hg => ?_) fun a ha => ?_
  · rw [List.filter_cons, if_pos (decide_eq_true howner)]
    exact hpart
  · rcases List.mem_cons.mp hg with rfl | hg
    · exact hv
    · exact h.grants g hg
  · rw [List.filter_cons, if_neg]
    rw [howner]
    exact fun heq => ha (of_decide_eq_true heq).symm

/-- Erasing outside a filter. -/
theorem filter_eraseP {p q : Grant → Bool} {gs : List Grant} (h : ∀ g, p g = true → q g = false) :
    (gs.eraseP p).filter q = gs.filter q := by
  induction gs with
  | nil => rfl
  | cons g gs ih =>
    cases hp : p g with
    | true =>
      rw [List.eraseP_cons_of_pos hp, List.filter_cons, if_neg (by rw [h g hp]; exact Bool.false_ne_true)]
    | false =>
      rw [List.eraseP_cons_of_neg (by rw [hp]; exact Bool.false_ne_true), List.filter_cons,
        List.filter_cons, ih]

/-- A thread gives a lock back. -/
theorem MsInv.unlock (h : MsInv s owner content) (hv : v ∈ s.live) {c : AddrTableCell}
    (hc : s.ms.adb.entry v = some c) (hholds : c.lck.holds t = true)
    (hassigned : s.ms.adb.Assigned adb' v { c with lck := c.lck.release t }) :
    MsInv { s with ms := { s.ms with adb := adb' }, grants := s.grants.eraseP (isGrant t v) } owner
      content := by
  obtain ⟨b, hb, howner⟩ := h.owned v hv
  obtain ⟨i, hi⟩ := List.mem_iff_getElem?.mp hb
  obtain ⟨ps, l, hinv⟩ := h.parts b hb
  have hpart := hinv.unlock (mem_part_live.mpr ⟨hv, howner⟩) hc hholds hassigned
  refine h.lock ps l hi howner hc hassigned ?_
    (fun g hg => h.grants g (List.mem_of_mem_eraseP hg)) fun a ha => ?_
  · have hfilter : (s.grants.filter (owner ·.vaddr = b.addr)).eraseP (isGrant t v) =
        (s.grants.eraseP (isGrant t v)).filter (owner ·.vaddr = b.addr) := by
      rw [List.eraseP_filter]
      congr 2
      funext g
      cases hg : isGrant t v g with
      | false => rfl
      | true => rw [(isGrant_iff.mp hg).2, howner, decide_eq_true rfl, Bool.and_self]
    rw [← hfilter]
    exact hpart
  · apply filter_eraseP
    intro g hg
    rw [(isGrant_iff.mp hg).2, howner]
    exact decide_eq_false ha.symm

/-- One of the bytes the user asked for is written in the piece of the vaddr. -/
theorem MsInv.writeAt (h : MsInv s owner content) (hv : v ∈ s.live) {d : AddrTableCell}
    (hd : s.ms.adb.entry v = some d) {off : Nat} (hoff : off < s.request v) (byte : UInt8) :
    ∃ ms', s.ms.setByte (d.paddr + mallocHeaderSize + off) byte = some ms' ∧ ms'.adb = s.ms.adb ∧
      MsInv { s with ms := ms' } owner (Function.update content v
        (Function.update (content v) (mallocHeaderSize + off) (some byte))) := by
  obtain ⟨i, b, ps, l, p, c, hb, howner, hinv, hp, hkind, hc, hpaddr, hroom⟩ := h.piece hv
  rw [hd] at hc
  cases hc
  have hpad : mapPadding = 32 := rfl
  have hheader : mallocHeaderSize = 8 := rfl
  have hbody : mpToMapB p.addr = p.addr + 24 := rfl
  have hstop := p.stop_eq
  obtain ⟨-, -, hstart, hend⟩ := h.placed.buffer b (List.mem_of_getElem? hb)
  have hinside := hinv.block.laid.tiles.mem hp
  have hlow : b.mb.start ≤ p.addr := hinside.1
  have hhigh : p.stop ≤ b.mb.stop := hinside.2.2
  have hcontains : b.contains (d.paddr + mallocHeaderSize + off) = true := contains_iff.mpr (by omega)
  have hfront : Mem.SameOn b.mb.mem (b.mb.mem.setByte (d.paddr + mallocHeaderSize + off) byte) b.mb.start
      (mpToMapB p.addr) := Mem.sameOn_setByte (.inl (by omega))
  have hback : Mem.SameOn b.mb.mem (b.mb.mem.setByte (d.paddr + mallocHeaderSize + off) byte) (p.stop - 8)
      b.mb.stop := Mem.sameOn_setByte (.inr (by omega))
  have hpart := hinv.poke hp hkind hfront hback
    (f := Function.update (content v) (mallocHeaderSize + off) (some byte)) fun k x hx => by
      by_cases heq : k = mallocHeaderSize + off
      · rw [heq, Function.update_self] at hx
        cases hx
        exact ⟨by omega, by rw [Mem.byte_setByte, if_pos (by omega)]⟩
      · rw [Function.update_of_ne heq] at hx
        obtain ⟨hsize, hbyte⟩ := hinv.content p hp v k x hkind hx
        refine ⟨hsize, ?_⟩
        rw [Mem.byte_setByte, if_neg (by omega)]
        exact hbyte
  have hset : s.ms.setByte (d.paddr + mallocHeaderSize + off) byte = some { s.ms with
      mbList := s.ms.mbList.set i { b with mb := { b.mb with
        mem := b.mb.mem.setByte (d.paddr + mallocHeaderSize + off) byte } } } := by
    unfold MemSpace.setByte
    simp only [h.placed.findIdx_contains hb hcontains, hb, Option.map_some]
  refine ⟨_, hset, rfl, h.local hb rfl rfl ⟨rfl, rfl, rfl, rfl⟩ h.quiet ⟨ps, l, hpart⟩ h.grants
    (fun _ _ => rfl) (fun _ => rfl) (fun w _ hne => ⟨rfl, ?_⟩) (fun w _ k hk => ?_) fun w _ k hsome => ?_⟩
  · apply Function.update_of_ne
    rintro rfl
    exact hne howner
  · by_cases heq : w = v
    · rw [heq, Function.update_self, Function.update_of_ne (by omega)]
    · rw [Function.update_of_ne heq]
  · by_cases heq : w = v
    · rw [heq, Function.update_self]
      by_cases hk : k = mallocHeaderSize + off
      · rw [hk, Function.update_self]
        rfl
      · rw [Function.update_of_ne hk]
        exact heq ▸ hsome
    · rw [Function.update_of_ne heq]
      exact hsome

/-- A thread that has a lock knows where the piece is. -/
theorem MsInv.grant_entry (h : MsInv s owner content) {g : Grant} (hg : g ∈ s.grants) :
    ∃ c, s.ms.adb.entry g.vaddr = some c ∧ g.paddr = c.paddr := by
  have hv := h.grants g hg
  obtain ⟨b, hb, howner⟩ := h.owned _ hv
  obtain ⟨ps, l, hinv⟩ := h.parts b hb
  obtain ⟨c, hc⟩ := Option.isSome_iff_exists.mp ((h.entries _).mpr hv)
  have hgpart : g ∈ (s.part owner content b).grants := List.mem_filter.mpr ⟨hg, decide_eq_true howner⟩
  exact ⟨c, hc, (hinv.grants g hgpart).2 c hc⟩

/-- A holder of the write lock writes one of the bytes the user asked for. -/
theorem MsInv.write (h : MsInv s owner content) {g : Grant} (hg : g ∈ s.grants) {off : Nat}
    (hoff : off < s.request g.vaddr) {byte : UInt8} {ms' : MemSpace}
    (hwrite : s.ms.setByte (g.paddr + mallocHeaderSize + off) byte = some ms') :
    ∃ content', MsInv { s with ms := ms' } owner content' := by
  obtain ⟨c, hc, hpaddr⟩ := h.grant_entry hg
  obtain ⟨ms₁, hset, -, hinv⟩ := h.writeAt (h.grants g hg) hc hoff byte
  rw [hpaddr, hset] at hwrite
  cases hwrite
  exact ⟨_, hinv⟩

end Chvm.Ms
