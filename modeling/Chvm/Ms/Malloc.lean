import Chvm.Ms.Calls

/-!
# `ms_malloc_p`

A throw finds a block, or a new block is made and holds the piece: either way a call that returns has
made one more live vaddr. Nothing but the host's memory keeps a call from returning.
-/

set_option autoImplicit false

namespace Chvm.Ms

open Chvm.Lib Chvm.Virt Chvm.Mb

variable {bs : List SpaceBlock} {b b' c : SpaceBlock} {i : Nat} {s : MsSys} {owner : Vaddr → Nat}
  {content content' : Vaddr → Nat → Option UInt8} {ps l : List Piece} {t : Tid} {v : Vaddr}
  {adb adb' : AddrBook} {σ : MemSys}

/-- What a call of `ms_malloc_p` that was a success has done. -/
structure Malloced (s : MsSys) (content : Vaddr → Nat → Option UInt8) (ms' : MemSpace) (t : Tid)
    (minBytes : Nat) (hold : Bool) (res : MallocRes) : Prop where
  ne_null : res.vaddr ≠ nullVaddr
  entry : ∃ c, ms'.adb.entry res.vaddr = some c ∧
    res.paddr = if hold then some (c.paddr + mallocHeaderSize) else none
  sound : MsSound (s.malloced ms' t minBytes res)
  kept : ∃ owner' content', MsInv (s.malloced ms' t minBytes res) owner' content' ∧
    ∀ w ∈ s.live, content' w = content w
  fresh : res.vaddr ∉ s.live
  others : ∀ w ≠ res.vaddr, ms'.adb.entry w = s.ms.adb.entry w
  lck : (ms'.adb.entry res.vaddr).map (·.lck) = some (if hold then RwLock.acqWrite {} t else {})
  grown : s.ms.adb.Grown ms'.adb res.vaddr

/-- The seed and the list of the blocks before the call are not part of it. -/
theorem Malloced.of_ms {ms₁ ms' : MemSpace} {n : Nat} {hold : Bool} {res : MallocRes}
    (h : Malloced { s with ms := ms₁ } content ms' t n hold res) (hadb : ms₁.adb = s.ms.adb) :
    Malloced s content ms' t n hold res :=
  ⟨h.ne_null, h.entry, h.sound, h.kept, h.fresh, hadb ▸ h.others, h.lck, hadb ▸ h.grown⟩

/-- A malloc in the block at `i`. -/
theorem MsInv.mallocAt (h : MsInv s owner content) (ms' : MemSpace) (hb : s.ms.mbList[i]? = some b)
    {n : Nat} {hold : Bool} {res : MallocRes} (hmin : ms'.mbMinBytes = s.ms.mbMinBytes)
    (hset : ms'.mbList = s.ms.mbList.set i b')
    (hin : MallocedIn (s.part owner content b) t b (n + mallocHeaderSize) hold res b' ms'.adb) :
    Malloced s content ms' t n hold res := by
  have hnew : res.vaddr ∉ s.live := by
    intro hmem
    have hsome := (h.entries _).mpr hmem
    rw [show s.ms.adb.entry res.vaddr = none from hin.fresh] at hsome
    cases hsome
  suffices hkept : ∃ owner' content', MsInv (s.malloced ms' t n res) owner' content' ∧
      ∀ w ∈ s.live, content' w = content w by
    have hsound : MsSound (s.malloced ms' t n res) := hkept.imp fun _ h => h.imp fun _ h => h.1
    exact ⟨hin.ne_null, hin.entry, hsound, hkept, hnew, hin.others, hin.lck, hin.grown⟩
  obtain ⟨f, ps, l, hpart, hbytes, hpointer⟩ := hin.part
  have hne : ∀ w ∈ s.live, w ≠ res.vaddr := fun w hw heq => hnew (heq ▸ hw)
  have howner : ∀ w ∈ s.live, Function.update owner res.vaddr b.addr w = owner w := fun w hw =>
    Function.update_of_ne (hne w hw) _ _
  have hlive : ∀ a, s.live.filter (Function.update owner res.vaddr b.addr · = a) =
      s.live.filter (owner · = a) := fun a => List.filter_congr fun w hw => by rw [howner w hw]
  have hgrants : ∀ a, s.grants.filter (Function.update owner res.vaddr b.addr ·.vaddr = a) =
      s.grants.filter (owner ·.vaddr = a) := fun a =>
    List.filter_congr fun g hg => by rw [howner _ (h.grants g hg)]
  have hself : Function.update owner res.vaddr b.addr res.vaddr = b.addr := Function.update_self ..
  have haddr := hin.same.1
  refine ⟨Function.update owner res.vaddr b.addr, Function.update content res.vaddr f, ⟨?_, ?_, ?_,
    hin.quiet, ?_, fun w hw => ?_, fun g hg => ?_, fun w => ?_,
    List.nodup_cons.mpr ⟨hnew, h.nodup⟩, ?_, fun w hw k hk => ?_, fun w hw off hoff => ?_⟩,
    fun w hw => Function.update_of_ne (hne w hw) _ _⟩
  · show ms'.mbMinBytes + 33 < 2 ^ 64 ∧ FitsBlock ms'.mbMinBytes
    rw [hmin]
    exact h.fits
  · show ms'.mbList ≠ []
    rw [hset]
    exact set_ne_nil h.nonempty
  · show Placed ms'.mbList
    rw [hset]
    exact h.placed.set hb hin.same
  · refine h.parts_set (s.malloced ms' t n res) hb hset hin.quiet ⟨ps, l, ?_⟩ (fun a ha => ?_)
      (fun a ha => ?_)
      fun w hw _ => ⟨hin.others w (hne w hw), Function.update_of_ne (hne w hw) _ _⟩
    · unfold MsSys.part MsSys.malloced at *
      rw [haddr, List.filter_cons, if_pos (decide_eq_true hself), hlive]
      cases hpaddr : res.paddr with
      | none =>
        rw [hpaddr] at hpart
        simp only [hgrants]
        exact hpart
      | some paddr =>
        rw [hpaddr] at hpart
        simp only
        rw [List.filter_cons, if_pos (decide_eq_true hself), hgrants]
        exact hpart
    · unfold MsSys.malloced
      rw [List.filter_cons_of_neg (by rw [hself]; exact fun heq => ha (of_decide_eq_true heq).symm), hlive]
    · unfold MsSys.malloced
      cases res.paddr with
      | none => exact hgrants a
      | some paddr =>
        rw [List.filter_cons_of_neg (by rw [hself]; exact fun heq => ha (of_decide_eq_true heq).symm)]
        exact hgrants a
  · show ∃ c ∈ ms'.mbList, _
    rw [hset]
    rcases List.mem_cons.mp hw with rfl | hw
    · exact ⟨b', List.mem_set (List.getElem?_eq_some_iff.mp hb).1 b', hself.trans haddr.symm⟩
    · obtain ⟨c, hc, hwc⟩ := h.owned w hw
      obtain ⟨d, hd, hcd⟩ := exists_set hb haddr hc
      exact ⟨d, hd, (howner w hw).trans (hwc.trans hcd)⟩
  · unfold MsSys.malloced at hg ⊢
    cases hpaddr : res.paddr with
    | none =>
      rw [hpaddr] at hg
      exact List.mem_cons_of_mem _ (h.grants g hg)
    | some paddr =>
      rw [hpaddr] at hg
      rcases List.mem_cons.mp hg with rfl | hg
      · exact List.mem_cons_self
      · exact List.mem_cons_of_mem _ (h.grants g hg)
  · show (ms'.adb.entry w).isSome = true ↔ w ∈ res.vaddr :: s.live
    by_cases heq : w = res.vaddr
    · subst heq
      obtain ⟨c, hc, -⟩ := hin.entry
      exact iff_of_true (Option.isSome_iff_exists.mpr ⟨c, hc⟩) List.mem_cons_self
    · rw [hin.others w heq, List.mem_cons, or_iff_right heq]
      exact h.entries w
  · show s.live.length + 1 + s.frees = s.mallocs + 1
    have hcount := h.count
    omega
  · rcases List.mem_cons.mp hw with rfl | hw
    · rw [Function.update_self, hself]
      exact hpointer k hk
    · rw [Function.update_of_ne (hne w hw), howner w hw]
      exact h.header w hw k hk
  · unfold MsSys.malloced at hoff
    rcases List.mem_cons.mp hw with rfl | hw
    · rw [Function.update_self]
      simp only [Function.update_self] at hoff
      exact hbytes off hoff
    · rw [Function.update_of_ne (hne w hw)]
      simp only [Function.update_of_ne (hne w hw)] at hoff
      exact h.body w hw off hoff

/-- The part of a new block: nothing is in it. -/
theorem part_new {addr n : Nat} (mem : Mem) (hquiet : s.ms.adb.Quiet) (hfits : FitsBlock n)
    (hgives : HostGives bs addr (memBlockBytes n)) (hlive : ∀ w ∈ s.live, owner w ≠ addr)
    (hgrants : ∀ g ∈ s.grants, owner g.vaddr ≠ addr) :
    ∃ ps l, MemInv (s.part owner content (newSpaceBlock addr mem n)) ps l := by
  obtain ⟨hpos, hlt, hstop⟩ := placed_new mem hfits hgives
  have hstop' : addr + memBlockHeaderSize + padNumBytes n < 2 ^ 64 := by
    show (newSpaceBlock addr mem n).mb.stop < 2 ^ 64
    rw [hstop]
    exact hlt
  obtain ⟨ps, l, hinv⟩ := memInv_new mem n (Nat.add_pos_left hpos _) hstop' hquiet
  have hlive' : s.live.filter (owner · = addr) = [] :=
    List.filter_eq_nil_iff.mpr fun w hw heq => hlive w hw (of_decide_eq_true heq)
  have hgrants' : s.grants.filter (owner ·.vaddr = addr) = [] :=
    List.filter_eq_nil_iff.mpr fun g hg heq => hgrants g hg (of_decide_eq_true heq)
  have hframe : MemInv { MemSys.new (addr + memBlockHeaderSize) mem n s.ms.adb with
      content := content } ps l := hinv.frame hquiet nofun nofun
  unfold MsSys.part newSpaceBlock
  simp only [hlive', hgrants']
  exact ⟨ps, l, hframe⟩

/-- A new block, before anything is in it. -/
theorem MsInv.push (h : MsInv s owner content) {addr n : Nat} (mem : Mem) (cap : Nat)
    (hfits : FitsBlock n) (hgives : HostGives s.ms.mbList addr (memBlockBytes n)) :
    MsInv { s with ms := { s.ms with
      mbListCap := cap, mbList := s.ms.mbList ++ [newSpaceBlock addr mem n] } } owner content := by
  have hnone : ∀ w ∈ s.live, owner w ≠ addr := by
    intro w hw heq
    obtain ⟨c, hc, howner⟩ := h.owned w hw
    have hcontains := contains_iff.mp (h.placed.contains_addr hc)
    have hapart := hgives.2.2 c hc
    have hheader : memBlockHeaderSize = 224 := rfl
    rw [memBlockBytes_eq hfits] at hapart
    omega
  refine ⟨h.fits, List.append_ne_nil_of_left_ne_nil h.nonempty _, h.placed.push mem hfits hgives, h.quiet,
    fun b hb => ?_, fun w hw => ?_, h.grants, h.entries, h.nodup, h.count, h.header, h.body⟩
  · rcases List.mem_append.mp hb with hb | hb
    · exact h.parts b hb
    · rw [List.mem_singleton.mp hb]
      exact part_new mem h.quiet hfits hgives hnone fun g hg => hnone _ (h.grants g hg)
  · obtain ⟨c, hc, howner⟩ := h.owned w hw
    exact ⟨c, List.mem_append_left _ hc, howner⟩

/-- The throws find nothing and change the seed only, or find a block. -/
theorem MsInv.throw (h : MsInv s owner content) {n : Nat} (hn : n + mallocHeaderSize + 33 < 2 ^ 64)
    {hold : Bool} {numThrows : Nat} {res : MallocRes} {ms' : MemSpace}
    (hthrow : msThrow t (n + mallocHeaderSize) hold numThrows s.ms = some (res, ms')) :
    (res.vaddr = nullVaddr ∧ ∃ seed, ms' = { s.ms with seed := seed }) ∨
      Malloced s content ms' t n hold res := by
  induction numThrows generalizing s with
  | zero =>
    cases hthrow
    exact .inl ⟨rfl, s.ms.seed, rfl⟩
  | succ numThrows ih =>
    unfold msThrow at hthrow
    obtain ⟨rnd, seed, hrnd⟩ : ∃ rnd seed, msNextRnd s.ms = (rnd, { s.ms with seed := seed }) :=
      ⟨_, _, rfl⟩
    rw [hrnd] at hthrow
    simp only at hthrow
    have h₁ := h.reseed seed
    split at hthrow
    · cases hthrow
    next b hb =>
      split at hthrow
      · cases hthrow
      next res₁ b₁ adb₁ hin =>
        obtain ⟨ps, l, hinv⟩ := h₁.parts b (List.mem_of_getElem? hb)
        rcases msMallocIn_cases hinv rfl hn (Nat.le_add_left _ _) hin with ⟨rfl, rfl, rfl⟩ | hmalloced
        · have hset : s.ms.mbList.set (rnd % s.ms.mbList.length) b₁ = s.ms.mbList := by
            obtain ⟨hlt, rfl⟩ := List.getElem?_eq_some_iff.mp hb
            exact List.set_getElem_self hlt
          rw [if_pos rfl, hset] at hthrow
          rcases ih h₁ hthrow with ⟨hnull, seed', rfl⟩ | hsome
          · exact .inl ⟨hnull, seed', rfl⟩
          · exact .inr (hsome.of_ms rfl)
        · rw [if_neg hmalloced.ne_null] at hthrow
          cases hthrow
          have h₂ := h₁.mallocAt { s.ms with
            seed := seed, adb := adb₁, mbList := s.ms.mbList.set (rnd % s.ms.mbList.length) b₁ } hb rfl rfl
            hmalloced
          exact .inr (h₂.of_ms rfl)

theorem msInterpretMallocRes_vaddr {res res' : MallocRes} {hold : Bool}
    (h : msInterpretMallocRes adb t b res hold = some (res', b', adb')) : res'.vaddr = res.vaddr := by
  unfold msInterpretMallocRes at h
  split at h
  · cases h
  · split at h
    · cases h
      rfl
    · obtain ⟨adb₁, -, heq⟩ := Option.map_eq_some_iff.mp h
      cases heq
      rfl

/-- The malloc in a new block is a malloc in the block at the end of the list. -/
theorem MsInv.grow (h : MsInv s owner content) {n : Nat} (hn : n + mallocHeaderSize + 33 < 2 ^ 64)
    (hfits : FitsBlock (n + mallocHeaderSize)) {hold : Bool} {addr : Nat} {mem : Mem} {res : MallocRes}
    {ms' : MemSpace} (hgrow : msGrow s.ms t (n + mallocHeaderSize) hold addr mem = some (res, ms')) :
    Malloced s content ms' t n hold res := by
  unfold msGrow at hgrow
  generalize hreq : (if n + mallocHeaderSize > s.ms.mbMinBytes then n + mallocHeaderSize
    else s.ms.mbMinBytes) = reqBytes at hgrow
  have hfits' : FitsBlock reqBytes := by
    rw [← hreq]
    split
    · exact hfits
    · exact h.fits.2
  simp only at hgrow
  split at hgrow
  next hgives =>
    split at hgrow
    · cases hgrow
    next res₁ mb₁ adb₁ hres =>
      split at hgrow
      · cases hgrow
      next res₂ b₂ adb₂ hinterpret =>
        cases hgrow
        have h₁ := h.push mem (if s.ms.mbList.length = s.ms.mbListCap then s.ms.mbListCap * 2
          else s.ms.mbListCap) hfits' hgives
        have hb : (s.ms.mbList ++ [newSpaceBlock addr mem reqBytes])[s.ms.mbList.length]? =
            some (newSpaceBlock addr mem reqBytes) := List.getElem?_concat_length
        obtain ⟨ps, l, hinv⟩ := h₁.parts _ (List.mem_of_getElem? hb)
        have hne : res₁.vaddr ≠ nullVaddr := by
          rcases mbMallocP_cases hinv.block hres with ⟨rfl, -, -⟩ |
            ⟨q, ps', l', -, -, -, hblock, -, -, hentry⟩
          · cases hinterpret
          · have hnew := hentry res₁.vaddr
            rw [if_pos rfl] at hnew
            exact hblock.quiet.ne_null (AddrBook.entry_eq_some.mp hnew).1
        have hin : msMallocIn s.ms.adb t (newSpaceBlock addr mem reqBytes) (n + mallocHeaderSize) hold =
            some (res, b₂, adb₂) := by
          unfold msMallocIn
          rw [hres]
          simp only
          rw [if_neg hne, hinterpret]
        rcases msMallocIn_cases hinv rfl hn (Nat.le_add_left _ _) hin with ⟨rfl, -, -⟩ | hmalloced
        · exact absurd (msInterpretMallocRes_vaddr hinterpret).symm hne
        · have hset : (s.ms.mbList ++ [newSpaceBlock addr mem reqBytes]).set s.ms.mbList.length b₂ =
              s.ms.mbList ++ [b₂] := by
            rw [List.set_append_right _ _ (Nat.le_refl _), Nat.sub_self]
            rfl
          have h₂ := h₁.mallocAt { s.ms with
            adb := adb₂
            mbListCap := if s.ms.mbList.length = s.ms.mbListCap then s.ms.mbListCap * 2 else s.ms.mbListCap
            mbList := s.ms.mbList ++ [b₂] } hb rfl hset.symm hmalloced
          exact h₂.of_ms rfl
  next => cases hgrow

/-- **Malloc.** A call that returns has returned `NULL` for the empty request, or has made one more
live vaddr. -/
theorem MsInv.malloc (h : MsInv s owner content) {n : Nat} (hn : n + mallocHeaderSize + 33 < 2 ^ 64)
    (hfits : FitsBlock (n + mallocHeaderSize)) {hold : Bool} {addr : Nat} {mem : Mem} {res : MallocRes}
    {ms' : MemSpace} (hres : msMallocP s.ms t n hold addr mem = some (res, ms')) :
    (n = 0 ∧ res.vaddr = nullVaddr ∧ ms' = s.ms) ∨ Malloced s content ms' t n hold res := by
  unfold msMallocP at hres
  rw [Nat.mod_eq_of_lt (by omega)] at hres
  simp only at hres
  split at hres
  next hzero =>
    cases hres
    exact .inl ⟨hzero, rfl, rfl⟩
  next =>
    split at hres
    · cases hres
    next res₁ ms₁ hthrow =>
      rcases h.throw hn hthrow with ⟨hnull, seed, rfl⟩ | hmalloced
      · rw [if_pos hnull] at hres
        have h₁ := (h.reseed seed).grow hn hfits hres
        exact .inr (h₁.of_ms rfl)
      · rw [if_neg hmalloced.ne_null] at hres
        cases hres
        exact .inr hmalloced

/-- The empty request. -/
theorem msMallocP_zero (ms : MemSpace) (t : Tid) (hold : Bool) (addr : Nat) (mem : Mem) :
    msMallocP ms t 0 hold addr mem = some (⟨none, nullVaddr⟩, ms) := rfl

/-- The buffer that the host gives should the call make a block. -/
def MemSpace.Buffer (ms : MemSpace) (minBytes addr : Nat) : Prop :=
  HostGives ms.mbList addr (memBlockBytes
    (if minBytes + mallocHeaderSize > ms.mbMinBytes then minBytes + mallocHeaderSize else ms.mbMinBytes))

/-- The malloc of a piece has made its vaddr's lock the caller's, so the header is written and the
lock given back. -/
theorem msInterpretMallocRes_isSome {mb mb₁ : MemBlock} {adb₁ : AddrBook} {n : Nat} {res : MallocRes}
    (h : Block mb adb ps l) (hres : mbMallocP mb adb t n true = some (res, mb₁, adb₁))
    (hne : res.vaddr ≠ nullVaddr) (b : SpaceBlock) (hold : Bool) :
    ∃ r, msInterpretMallocRes adb₁ t b res hold = some r := by
  rcases mbMallocP_cases h hres with ⟨rfl, -⟩ | ⟨q, ps', l', -, hpaddr, -, hblock, -, -, hentry⟩
  · exact absurd rfl hne
  · unfold msInterpretMallocRes
    rw [hpaddr]
    simp only [if_true]
    split
    · exact ⟨_, rfl⟩
    · have hnew := hentry res.vaddr
      rw [if_pos rfl] at hnew
      have hholds : (RwLock.acqWrite {} t).holds t = true := (RwLock.holds_acqWrite rfl).mpr rfl
      obtain ⟨adb₂, hunlock, -⟩ := AddrBook.adbUnlock_isSome hblock.quiet hnew hholds
      rw [hunlock]
      exact ⟨_, rfl⟩

theorem msMallocIn_isSome (h : MemInv σ ps l) (hmb : σ.mb = b.mb) (n : Nat) (t : Tid) (hold : Bool)
    (hroom : σ.adb.TableRoom) : ∃ r, msMallocIn σ.adb t b n hold = some r := by
  unfold msMallocIn
  rw [← hmb]
  by_cases hfits : Fits σ.mb n
  · obtain ⟨res, mb₁, adb₁, hres, hne⟩ := mbMallocP_of_fits h.block hfits t true hroom
    rw [hres]
    simp only [if_neg hne]
    exact msInterpretMallocRes_isSome h.block hres hne _ hold
  · rw [mbMallocP_of_not_fits hfits]
    exact ⟨_, rfl⟩

/-- A request fits in a block made for at least as much. -/
theorem fits_newMemBlock {start n req : Nat} (mem : Mem) (hstart : 0 < start)
    (hstop : start + padNumBytes req < 2 ^ 64) (hquiet : adb.Quiet) (hpos : 0 < n) (hle : n ≤ req)
    (hreq : req + 33 < 2 ^ 64) : Fits (newMemBlock start mem req) n := by
  have hblock := block_new mem req hstart hstop hquiet
  obtain ⟨p, hp, hfit, -, hsize⟩ := hblock.first_free rfl
  rw [List.mem_singleton.mp hp] at hfit hsize
  refine ⟨Nat.ne_of_gt hpos, _, rfl, ?_⟩
  rw [hsize, padNumBytes_le (by omega) hfit.even hfit.large]
  have hself := (padNumBytes_le hreq hfit.even hfit.large).mp (Nat.le_refl (padNumBytes req))
  exact Nat.le_trans hle hself

theorem msThrow_isSome (h : MsInv s owner content) {n : Nat} (hn : n + mallocHeaderSize + 33 < 2 ^ 64)
    (t : Tid) (hold : Bool) (hroom : s.ms.adb.TableRoom) (numThrows : Nat) :
    ∃ r, msThrow t (n + mallocHeaderSize) hold numThrows s.ms = some r := by
  induction numThrows generalizing s with
  | zero => exact ⟨_, rfl⟩
  | succ numThrows ih =>
    obtain ⟨rnd, seed, hrnd⟩ : ∃ rnd seed, msNextRnd s.ms = (rnd, { s.ms with seed := seed }) :=
      ⟨_, _, rfl⟩
    have h₁ := h.reseed seed
    have hlt : rnd % s.ms.mbList.length < s.ms.mbList.length :=
      Nat.mod_lt _ (List.length_pos_iff.mpr h.nonempty)
    have hb : s.ms.mbList[rnd % s.ms.mbList.length]? = some s.ms.mbList[rnd % s.ms.mbList.length] :=
      List.getElem?_eq_getElem hlt
    obtain ⟨ps, l, hinv⟩ := h₁.parts _ (List.mem_of_getElem? hb)
    obtain ⟨⟨res₁, b₁, adb₁⟩, hin⟩ := msMallocIn_isSome hinv rfl (n + mallocHeaderSize) t hold hroom
    unfold msThrow
    rw [hrnd]
    simp only [hb]
    rw [show msMallocIn s.ms.adb t _ (n + mallocHeaderSize) hold = some (res₁, b₁, adb₁) from hin]
    simp only
    rcases msMallocIn_cases hinv rfl hn (Nat.le_add_left _ _) hin with ⟨rfl, rfl, rfl⟩ | hmalloced
    · rw [if_pos rfl, List.set_getElem_self hlt]
      exact ih h₁ hroom
    · rw [if_neg hmalloced.ne_null]
      exact ⟨_, rfl⟩

theorem msGrow_isSome (h : MsInv s owner content) {n : Nat} (hpos : 0 < n)
    (hn : n + mallocHeaderSize + 33 < 2 ^ 64) (hfits : FitsBlock (n + mallocHeaderSize)) (t : Tid)
    (hold : Bool) {addr : Nat} (mem : Mem) (hgives : s.ms.Buffer n addr) (hroom : s.ms.adb.TableRoom) :
    ∃ r, msGrow s.ms t (n + mallocHeaderSize) hold addr mem = some r := by
  unfold MemSpace.Buffer at hgives
  unfold msGrow
  generalize hreq : (if n + mallocHeaderSize > s.ms.mbMinBytes then n + mallocHeaderSize
    else s.ms.mbMinBytes) = reqBytes at hgives ⊢
  have hspec : FitsBlock reqBytes ∧ n + mallocHeaderSize ≤ reqBytes ∧ reqBytes + 33 < 2 ^ 64 := by
    rw [← hreq]
    split
    · exact ⟨hfits, Nat.le_refl _, hn⟩
    next hle => exact ⟨h.fits.2, Nat.le_of_not_lt hle, h.fits.1⟩
  obtain ⟨hpos', hlt, hstop⟩ := placed_new mem hspec.1 hgives
  have hstop' : addr + memBlockHeaderSize + padNumBytes reqBytes < 2 ^ 64 := by
    show (newSpaceBlock addr mem reqBytes).mb.stop < 2 ^ 64
    rw [hstop]
    exact hlt
  have hblock := block_new mem reqBytes (Nat.add_pos_left hpos' _) hstop' h.quiet
  have hfits' := fits_newMemBlock mem (Nat.add_pos_left hpos' memBlockHeaderSize) hstop' h.quiet
    (Nat.add_pos_left hpos mallocHeaderSize) hspec.2.1 hspec.2.2
  obtain ⟨res, mb₁, adb₁, hres, hne⟩ := mbMallocP_of_fits hblock hfits' t true hroom
  obtain ⟨⟨res₂, b₂, adb₂⟩, hinterpret⟩ := msInterpretMallocRes_isSome hblock hres hne
    { newSpaceBlock addr mem reqBytes with mb := mb₁ } hold
  simp only [if_pos hgives]
  unfold newSpaceBlock at hinterpret ⊢
  simp only at hinterpret ⊢
  rw [hres]
  simp only [hinterpret]
  exact ⟨_, rfl⟩

/-- With a buffer from the host for a new block and a table, `ms_malloc_p` returns. -/
theorem MsInv.malloc_isSome (h : MsInv s owner content) {n : Nat} (hpos : 0 < n)
    (hn : n + mallocHeaderSize + 33 < 2 ^ 64) (hfits : FitsBlock (n + mallocHeaderSize)) (t : Tid)
    (hold : Bool) {addr : Nat} (mem : Mem) (hgives : s.ms.Buffer n addr) (hroom : s.ms.adb.TableRoom) :
    ∃ res ms', msMallocP s.ms t n hold addr mem = some (res, ms') := by
  obtain ⟨⟨res₁, ms₁⟩, hthrow⟩ := msThrow_isSome h hn t hold hroom
    (if s.ms.mbList.length / searchDiv = 0 then 1 else s.ms.mbList.length / searchDiv)
  unfold msMallocP
  rw [Nat.mod_eq_of_lt (by omega)]
  simp only [if_neg (Nat.ne_of_gt hpos), hthrow]
  rcases h.throw hn hthrow with ⟨hnull, seed, rfl⟩ | hmalloced
  · rw [if_pos hnull]
    obtain ⟨⟨res, ms'⟩, hgrow⟩ := msGrow_isSome (h.reseed seed) hpos hn hfits t hold mem hgives hroom
    exact ⟨res, ms', hgrow⟩
  · rw [if_neg hmalloced.ne_null]
    exact ⟨_, _, rfl⟩

end Chvm.Ms
