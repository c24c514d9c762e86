import Chvm.Mb.Compact
import Chvm.Ms.System

/-!
# The part of one block

The part of the state that belongs to one block, with the vaddrs whose header names the block, is a
state of threads on that block. A call on the space is calls on blocks: a block's own laws say what
becomes of its part, and the other parts are framed.
-/

set_option autoImplicit false

namespace Chvm.Ms

open Chvm.Lib Chvm.Virt Chvm.Mb

variable {bs : List SpaceBlock} {b b' c : SpaceBlock} {i j a : Nat}

/-! ## What every step keeps -/

/-- The part of the state that belongs to one block: `owner` says which block a vaddr is in. -/
def MsSys.part (s : MsSys) (owner : Vaddr → Nat) (content : Vaddr → Nat → Option UInt8)
    (b : SpaceBlock) : MemSys where
  mb := b.mb
  adb := s.ms.adb
  live := s.live.filter (owner · = b.addr)
  grants := s.grants.filter (owner ·.vaddr = b.addr)
  content := content

/-- Each block's part is sound, and the content of a live vaddr is the pointer to its block and the
bytes the user asked for. -/
structure MsInv (s : MsSys) (owner : Vaddr → Nat) (content : Vaddr → Nat → Option UInt8) : Prop where
  fits : s.ms.mbMinBytes + 33 < 2 ^ 64 ∧ FitsBlock s.ms.mbMinBytes
  nonempty : s.ms.mbList ≠ []
  placed : Placed s.ms.mbList
  quiet : s.ms.adb.Quiet
  parts : ∀ b ∈ s.ms.mbList, ∃ ps l, MemInv (s.part owner content b) ps l
  owned : ∀ v ∈ s.live, ∃ b ∈ s.ms.mbList, owner v = b.addr
  grants : ∀ g ∈ s.grants, g.vaddr ∈ s.live
  entries : ∀ v, (s.ms.adb.entry v).isSome = true ↔ v ∈ s.live
  nodup : s.live.Nodup
  count : s.live.length + s.frees = s.mallocs
  header : ∀ v ∈ s.live, ∀ k < 8, content v k = some (UInt8.ofNat (owner v / 2 ^ (8 * k)))
  body : ∀ v ∈ s.live, ∀ off < s.request v + mallocHeaderSize, (content v off).isSome = true

def MsSound (s : MsSys) : Prop := ∃ owner content, MsInv s owner content

variable {s s' : MsSys} {owner owner' : Vaddr → Nat} {content content' : Vaddr → Nat → Option UInt8}
  {ps l : List Piece} {t : Tid} {v : Vaddr} {adb adb' : AddrBook} {σ : MemSys}

theorem mem_part_live : v ∈ (s.part owner content b).live ↔ v ∈ s.live ∧ owner v = b.addr := by
  rw [MsSys.part, List.mem_filter, decide_eq_true_eq]

/-- The parts after a call on the block at `i`: its own is given, the others are as they were. -/
theorem MsInv.parts_set (h : MsInv s owner content) (s' : MsSys) (hb : s.ms.mbList[i]? = some b)
    (hset : s'.ms.mbList = s.ms.mbList.set i b') (hquiet : s'.ms.adb.Quiet)
    (hpart : ∃ ps l, MemInv (s'.part owner' content' b') ps l)
    (hlive : ∀ a ≠ b.addr, s'.live.filter (owner' · = a) = s.live.filter (owner · = a))
    (hgrants : ∀ a ≠ b.addr, s'.grants.filter (owner' ·.vaddr = a) = s.grants.filter (owner ·.vaddr = a))
    (hothers : ∀ w ∈ s.live, owner w ≠ b.addr →
      s'.ms.adb.entry w = s.ms.adb.entry w ∧ content' w = content w) :
    ∀ c ∈ s'.ms.mbList, ∃ ps l, MemInv (s'.part owner' content' c) ps l := by
  intro c hc
  rw [hset] at hc
  rcases mem_set_cases hb hc with rfl | ⟨j, hne, hj⟩
  · exact hpart
  · have haddr : c.addr ≠ b.addr := fun heq => hne (h.placed.index_eq_of_addr hj hb heq)
    obtain ⟨ps, l, hinv⟩ := h.parts c (List.mem_of_getElem? hj)
    have hother : ∀ w ∈ (s.part owner content c).live,
        s'.ms.adb.entry w = s.ms.adb.entry w ∧ content' w = content w := by
      intro w hw
      obtain ⟨hw, howner⟩ := mem_part_live.mp hw
      exact hothers w hw fun heq => haddr (howner.symm.trans heq)
    have hframe := hinv.frame hquiet (fun w hw => (hother w hw).1) fun w hw => (hother w hw).2
    refine ⟨ps, l, ?_⟩
    rw [MsSys.part, hlive _ haddr, hgrants _ haddr]
    exact hframe

/-- A word whose bytes are known. -/
theorem load64_of_bytes {mem : Mem} {a w : Nat} (hlt : w < 2 ^ 64)
    (h : ∀ k < 8, mem.byte (a + k) = UInt8.ofNat (w / 2 ^ (8 * k))) : mem.load64 a = w := by
  have hsame : Mem.SameOn (mem.store64 a w) mem a (a + 8) := by
    intro x hle hxlt
    obtain ⟨k, rfl⟩ := Nat.exists_eq_add_of_le hle
    have hk : k < 8 := by omega
    rw [h k hk]
    apply UInt8.toNat_inj.mp
    rw [Mem.byte_store64 hk, UInt8.toNat_ofNat']
  rw [Mem.load64_congr hsame, Mem.load64_store64 hlt]

/-- The block and the piece of a live vaddr. -/
theorem MsInv.piece (h : MsInv s owner content) (hv : v ∈ s.live) :
    ∃ (i : Nat) (b : SpaceBlock) (ps l : List Piece) (p : Piece) (c : AddrTableCell),
      s.ms.mbList[i]? = some b ∧ owner v = b.addr ∧
      MemInv (s.part owner content b) ps l ∧ p ∈ ps ∧ p.kind = some v ∧
      s.ms.adb.entry v = some c ∧ c.paddr = mpToMapB p.addr ∧
      s.request v + mallocHeaderSize + mapPadding ≤ p.size := by
  obtain ⟨b, hb, howner⟩ := h.owned v hv
  obtain ⟨i, hi⟩ := List.mem_iff_getElem?.mp hb
  obtain ⟨ps, l, hinv⟩ := h.parts b hb
  obtain ⟨p, hp, hkind, c, hc, hpaddr⟩ := hinv.piece (mem_part_live.mpr ⟨hv, howner⟩)
  refine ⟨i, b, ps, l, p, c, hi, howner, hinv, hp, hkind, hc, hpaddr, ?_⟩
  have hheader : mallocHeaderSize = 8 := rfl
  obtain ⟨x, hx⟩ := Option.isSome_iff_exists.mp (h.body v hv (s.request v + 7) (by omega))
  have hoff := (hinv.content p hp v _ x hkind hx).1
  omega

/-! ## The size of the book -/

theorem grown_mbMallocP (h : Block σ.mb σ.adb ps l) {n : Nat} {hold : Bool} {res : MallocRes} {mb' : MemBlock}
    (hres : mbMallocP σ.mb σ.adb t n hold = some (res, mb', adb')) (hne : res.vaddr ≠ nullVaddr) :
    σ.adb.Grown adb' res.vaddr := by
  unfold mbMallocP at hres
  split at hres
  · cases hres
    exact absurd rfl hne
  simp only at hres
  split at hres
  · cases hres
    exact absurd rfl hne
  next f hlist =>
    split at hres
    · cases hres
      exact absurd rfl hne
    · split at hres
      next hput =>
        cases hres
        exact AddrBook.grown_adbPutP h.quiet hput
      next => cases hres

/-- What a free does to the book. -/
theorem mbFree_book {mb mb' : MemBlock} (hquiet : adb.Quiet) (h : mbFree mb adb t v = some (mb', adb')) :
    (∃ c, adb.entry v = some c ∧ c.lck.isFree = true) ∧ adb.SameSize adb' ∧
      ∀ w, adb'.entry w = if w = v then none else adb.entry w := by
  unfold mbFree at h
  split at h
  · cases h
  next paddr adb₁ hget =>
    split at h
    · cases h
    next adb₃ hbind =>
      obtain ⟨adb₂, hunlock, hfree⟩ := Option.bind_eq_some_iff.mp hbind
      obtain ⟨mb₁, -, heq⟩ := Option.map_eq_some_iff.mp h
      cases heq
      obtain ⟨-, -, -, hquiet₂, hsame⟩ := read_unlock hquiet hget hunlock
      obtain ⟨⟨c, hc, hlck⟩, -, hentry⟩ := AddrBook.adbFree_eq_some hquiet₂ hfree
      have hread := (AddrBook.sameSize_adbGetRead hget).trans (AddrBook.sameSize_adbUnlock hunlock)
      refine ⟨⟨c, (hsame v).symm.trans hc, hlck⟩, hread.trans (AddrBook.size_adbFree hfree), fun w => ?_⟩
      rw [hentry, hsame]

theorem sameSize_mbSeekShift {mb : MemBlock} {fuel : Nat} {f : Option Nat} {h : Nat}
    (hseek : mbSeekShift mb adb t fuel f = some (some (h, v, adb'))) : adb.SameSize adb' := by
  induction fuel generalizing f with
  | zero => cases hseek
  | succ fuel ih =>
    cases f with
    | none => cases hseek
    | some f =>
      simp only [mbSeekShift] at hseek
      split at hseek
      · split at hseek
        · cases hseek
        next htry =>
          cases hseek
          exact AddrBook.sameSize_adbTryGetWrite htry
        next => exact ih hseek
      · exact ih hseek

theorem sameSize_mbTryShift {mb mb' : MemBlock} {res : MbShiftRes}
    (h : mbTryShift mb adb t = some (res, mb', adb')) : adb.SameSize adb' := by
  unfold mbTryShift at h
  split at h
  · cases h
    exact .refl adb
  · split at h
    · cases h
      exact .refl adb
    · split at h
      · cases h
      · cases h
        exact .refl adb
      next hseek =>
        simp only at h
        split at h
        · cases h
        next hmove =>
          split at h
          · cases h
          next hunlock =>
            obtain ⟨mb₁, -, heq⟩ := Option.map_eq_some_iff.mp h
            cases heq
            have hlocked := (sameSize_mbSeekShift hseek).trans (AddrBook.sameSize_adbMoveP hmove)
            exact hlocked.trans (AddrBook.sameSize_adbUnlock hunlock)

/-! ## Calls on one block -/

/-- A malloc in a block that was a success: one more vaddr in its part, whose content starts with the
pointer to the block. -/
structure MallocedIn (σ : MemSys) (t : Tid) (b : SpaceBlock) (paddedBytes : Nat) (hold : Bool)
    (res : MallocRes) (b' : SpaceBlock) (adb' : AddrBook) : Prop where
  ne_null : res.vaddr ≠ nullVaddr
  same : SameBuffer b b'
  fresh : σ.adb.entry res.vaddr = none
  entry : ∃ c, adb'.entry res.vaddr = some c ∧
    res.paddr = if hold then some (c.paddr + mallocHeaderSize) else none
  others : ∀ w ≠ res.vaddr, adb'.entry w = σ.adb.entry w
  lck : (adb'.entry res.vaddr).map (·.lck) = some (if hold then RwLock.acqWrite {} t else {})
  grown : σ.adb.Grown adb' res.vaddr
  quiet : adb'.Quiet
  part : ∃ (f : Nat → Option UInt8) (ps l : List Piece), MemInv {
      mb := b'.mb
      adb := adb'
      live := res.vaddr :: σ.live
      grants := match res.paddr with
        | some paddr => ⟨t, res.vaddr, paddr - mallocHeaderSize⟩ :: σ.grants
        | none => σ.grants
      content := Function.update σ.content res.vaddr f } ps l ∧
    (∀ off < paddedBytes, (f off).isSome = true) ∧
    ∀ k < 8, f k = some (UInt8.ofNat (b.addr / 2 ^ (8 * k)))

/-- The pointer is written at the start of a body that is large enough. -/
theorem poke_header {mem : Mem} {p : Piece} {n : Nat} (addr : Nat) (h : MemInv σ ps l) (hp : p ∈ ps)
    (hkind : p.kind = some v) (hmem : mem = σ.mb.mem.store64 (mpToMapB p.addr) addr)
    (hheader : mallocHeaderSize ≤ n) (hroom : n + mapPadding ≤ p.size) :
    ∃ f : Nat → Option UInt8, MemInv { σ with
        mb := { σ.mb with mem := mem }, content := Function.update σ.content v f } ps l ∧
      (∀ off < n, (f off).isSome = true) ∧ ∀ k < 8, f k = some (UInt8.ofNat (addr / 2 ^ (8 * k))) := by
  have hpad : mapPadding = 32 := rfl
  have hsize : mallocHeaderSize = 8 := rfl
  have hbody : mpToMapB p.addr = p.addr + 24 := rfl
  have hstop := p.stop_eq
  refine ⟨fun off => if off < n then some (mem.byte (mpToMapB p.addr + off)) else none,
    h.poke hp hkind ?_ ?_ fun off x hx => ?_, fun off hoff => ?_, fun k hk => ?_⟩
  · exact hmem ▸ Mem.sameOn_store64 (.inl (by omega))
  · exact hmem ▸ Mem.sameOn_store64 (.inr (by omega))
  · split at hx
    next hoff =>
      cases hx
      exact ⟨by omega, rfl⟩
    next => cases hx
  · simp only [if_pos hoff, Option.isSome_some]
  · simp only [if_pos (show k < n by omega)]
    rw [hmem, Mem.store64, Mem.byte_blit, if_pos (by omega), Nat.add_sub_cancel_left]

theorem msMallocIn_cases {n : Nat} {hold : Bool} {res : MallocRes} (h : MemInv σ ps l)
    (hmb : σ.mb = b.mb) (hn : n + 33 < 2 ^ 64) (hheader : mallocHeaderSize ≤ n)
    (hin : msMallocIn σ.adb t b n hold = some (res, b', adb')) :
    (res = ⟨none, nullVaddr⟩ ∧ b' = b ∧ adb' = σ.adb) ∨ MallocedIn σ t b n hold res b' adb' := by
  unfold msMallocIn at hin
  rw [← hmb] at hin
  split at hin
  · cases hin
  next res₁ mb₁ adb₁ hres =>
    rcases h.malloc hres with ⟨rfl, rfl, rfl⟩ | ⟨hne, ps₁, l₁, h₁⟩
    · rw [if_pos rfl, hmb] at hin
      cases hin
      exact .inl ⟨rfl, rfl, rfl⟩
    · rw [if_neg hne] at hin
      rcases mbMallocP_cases h.block hres with ⟨rfl, -⟩ |
        ⟨q, ps', l', -, hpaddr, -, -, hchanged, hnone, hentry⟩
      · exact absurd rfl hne
      obtain ⟨paddr, v⟩ := res₁
      rw [if_pos rfl] at hpaddr
      cases hpaddr
      -- the body of the new vaddr
      obtain ⟨p, hp, hkind, hgp, hbody⟩ := h₁.body List.mem_cons_self
      obtain ⟨c, hc, hroom⟩ := h.block.malloc_room hres hne hn
      rw [← (h₁.grants _ List.mem_cons_self).2 c hc] at hroom
      have hpad : mapPadding = 32 := rfl
      have hsize : mallocHeaderSize = 8 := rfl
      have hlarge : n + mapPadding ≤ p.size := by
        simp only at hbody hroom
        omega
      obtain ⟨f, h₂, hbytes, hpointer⟩ := poke_header b.addr h₁ hp hkind rfl hheader hlarge
      rw [Function.update_idem] at h₂
      have hsame : SameBuffer b { b with mb := { mb₁ with
          mem := mb₁.mem.store64 (mpToMapB p.addr) b.addr } } :=
        ⟨rfl, rfl, hmb ▸ hchanged.fields.1, hmb ▸ hchanged.fields.2⟩
      have hothers : ∀ w ≠ v, adb₁.entry w = σ.adb.entry w := fun w hw => by rw [hentry, if_neg hw]
      have hlck : (adb₁.entry v).map (·.lck) = some (RwLock.acqWrite {} t) := by
        rw [hentry, if_pos rfl]
        rfl
      have hgrown : σ.adb.Grown adb₁ v := grown_mbMallocP h.block hres hne
      unfold msInterpretMallocRes at hin
      rw [← hgp] at hsame h₂
      simp only at hin
      cases hold with
      | true =>
        rw [if_pos rfl] at hin
        cases hin
        refine .inr ⟨hne, hsame, hnone, ⟨c, hc, ?_⟩, hothers, hlck, hgrown, h₁.block.quiet, f, ps₁, l₁, ?_,
          hbytes, hpointer⟩
        · rw [← (h₁.grants _ List.mem_cons_self).2 c hc]
          rfl
        · simp only [Nat.add_sub_cancel]
          exact h₂
      | false =>
        rw [if_neg Bool.false_ne_true] at hin
        obtain ⟨adb₂, hunlock, heq⟩ := Option.map_eq_some_iff.mp hin
        cases heq
        obtain ⟨d, hd, hholds, hassigned⟩ := AddrBook.adbUnlock_eq_some h₁.block.quiet hunlock
        have h₃ := h₂.unlock List.mem_cons_self hd hholds hassigned
        have herase : (⟨t, v, mpToMapB q.addr⟩ :: σ.grants).eraseP (isGrant t v) = σ.grants :=
          List.eraseP_cons_of_pos (isGrant_iff.mpr ⟨rfl, rfl⟩)
        rw [herase] at h₃
        refine .inr ⟨hne, hsame, hnone, ⟨_, hassigned.self, rfl⟩, fun w hw => ?_, ?_,
          hgrown.unlock hunlock, hassigned.quiet, f, ps₁, l₁, h₃, hbytes, hpointer⟩
        · rw [hassigned.entry, if_neg hw, hothers w hw]
        · have hwriter : d.lck = RwLock.acqWrite {} t := by
            rw [hd] at hlck
            exact Option.some.inj hlck
          rw [hassigned.self, Option.map_some, hwriter]
          exact congrArg some (RwLock.release_acqWrite rfl)

/-- What a shift or a full shift leaves as it was: the buffer, the cells of the vaddrs elsewhere, which
vaddrs are allocated, their locks, and the size of the book. -/
structure ShiftedIn (σ : MemSys) (mb' : MemBlock) (adb' : AddrBook) : Prop where
  fields : mb'.start = σ.mb.start ∧ mb'.cap = σ.mb.cap
  part : ∃ ps l, MemInv { σ with mb := mb', adb := adb' } ps l
  others : ∀ w, w ∉ σ.live → adb'.entry w = σ.adb.entry w
  entries : ∀ w, (adb'.entry w).isSome = (σ.adb.entry w).isSome
  locks : SameLocks σ.adb adb'
  size : σ.adb.SameSize adb'

theorem mbTryShift_in {mb' : MemBlock} {res : MbShiftRes} (h : MemInv σ ps l)
    (hshift : mbTryShift σ.mb σ.adb t = some (res, mb', adb')) : ShiftedIn σ mb' adb' := by
  have hpart := h.shift hshift
  have hsize := sameSize_mbTryShift hshift
  obtain ⟨res', mb'', adb'', heq, hspec⟩ := mbTryShift_eq h.block t
  rw [hshift] at heq
  cases heq
  rcases hspec with ⟨rfl, rfl⟩ | ⟨q, q', v, c, ps', l', -, hq⟩
  · exact ⟨⟨rfl, rfl⟩, hpart, fun _ _ => rfl, fun _ => rfl, fun _ => rfl, hsize⟩
  · refine ⟨hq.changed.fields, hpart, fun w hw => ?_, fun w => ?_, hq.sameLocks, hsize⟩
    · rw [hq.entries, if_neg]
      rintro rfl
      exact hw ((h.live w).mpr ⟨q, hq.mem, hq.kind⟩)
    · rw [hq.entries]
      split
      next heq =>
        rw [heq, hq.entry]
        rfl
      next => rfl

theorem mbTryFullShift_in {fuel : Nat} {mb' : MemBlock} (h : MemInv σ ps l)
    (hshift : mbTryFullShift t fuel σ.mb σ.adb = some (mb', adb')) : ShiftedIn σ mb' adb' := by
  induction fuel generalizing σ ps l with
  | zero => cases hshift
  | succ fuel ih =>
    unfold mbTryFullShift at hshift
    split at hshift
    · cases hshift
    next mb₁ adb₁ hone =>
      have h₁ := mbTryShift_in h hone
      obtain ⟨ps₁, l₁, hpart⟩ := h₁.part
      have h₂ := ih hpart hshift
      exact ⟨⟨h₂.fields.1.trans h₁.fields.1, h₂.fields.2.trans h₁.fields.2⟩, h₂.part,
        fun w hw => (h₂.others w hw).trans (h₁.others w hw),
        fun w => (h₂.entries w).trans (h₁.entries w), fun w => (h₂.locks w).trans (h₁.locks w),
        h₁.size.trans h₂.size⟩
    next hone =>
      cases hshift
      exact mbTryShift_in h hone

end Chvm.Ms
