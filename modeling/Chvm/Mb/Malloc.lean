import Chvm.Mb.Coalesce

/-!
# Allocating and freeing

`Block` is a block and its address book between two calls: the pieces tile the block, no two
neighbours are free, and the vaddr in an allocated piece is allocated in the book to the piece's
body. `mb_malloc_p` and `mb_free` keep it, and say what becomes of the allocated pieces.
-/

set_option autoImplicit false

namespace Chvm.Mb

open Chvm.Lib Chvm.Virt

variable {mem mem' : Mem} {mb mb' : MemBlock} {adb adb' : AddrBook} {A A' B B' l ps : List Piece}
  {a a' b b' : Nat} {p q : Piece} {t : Tid} {v : Vaddr}

/-- A block and its address book between two calls. -/
structure Block (mb : MemBlock) (adb : AddrBook) (ps l : List Piece) : Prop where
  laid : Laid mb ps l
  coalesced : Coalesced ps
  entries : ∀ p ∈ ps, ∀ v, p.kind = some v →
    ∃ c, adb.entry v = some c ∧ c.paddr = mpToMapB p.addr
  quiet : adb.Quiet

/-- Two allocated pieces have different vaddrs. -/
theorem Block.vaddr_inj (h : Block mb adb ps l) (hp : p ∈ ps) (hq : q ∈ ps)
    (hpv : p.kind = some v) (hqv : q.kind = some v) : p = q := by
  obtain ⟨c, hc, hcp⟩ := h.entries p hp v hpv
  obtain ⟨d, hd, hdq⟩ := h.entries q hq v hqv
  rw [hc] at hd
  cases hd
  rw [hcp] at hdq
  unfold mpToMapB mpBody at hdq
  have hpsize := (h.laid.fit p (List.mem_append_left _ hp)).size_ge
  have hqsize := (h.laid.fit q (List.mem_append_left _ hq)).size_ge
  have hpstop := p.stop_eq
  have hqstop := q.stop_eq
  rcases Tiles.apart h.laid.tiles hp hq with h | h | h
  · exact h
  · omega
  · omega

/-- A book that has the same addresses for the block's vaddrs. -/
theorem Block.of_book (h : Block mb adb ps l) (hquiet : adb'.Quiet)
    (hsame : ∀ p ∈ ps, ∀ v c, p.kind = some v → adb.entry v = some c →
      ∃ c', adb'.entry v = some c' ∧ c'.paddr = c.paddr) : Block mb adb' ps l := by
  refine ⟨h.laid, h.coalesced, fun p hp v hv => ?_, hquiet⟩
  obtain ⟨c, hc, hpaddr⟩ := h.entries p hp v hv
  obtain ⟨c', hc', hpaddr'⟩ := hsame p hp v c hv hc
  exact ⟨c', hc', hpaddr'.trans hpaddr⟩

/-- An allocated piece, with a hole in its place. -/
theorem Block.open (h : Block mb adb ps l) (hp : p ∈ ps) (hkind : p.kind = some v) :
    ∃ A B, ps = A ++ p :: B ∧ Fit p ∧ Kept mb.mem p ∧ Holed mb A p.addr p.stop B l ∧
      Coalesced A ∧ Coalesced B := by
  have hmem : p ∈ ps ++ [] := List.mem_append_left _ hp
  have hfit := h.laid.fit p hmem
  have hkept := h.laid.kept p hmem
  obtain ⟨A, B, rfl⟩ := List.append_of_mem hp
  have hlaid := h.laid
  have hat := Laid.at hlaid
  have hisNone : p.kind.isNone = false := by
    rw [hkind]
    rfl
  obtain ⟨hA, hpB, -⟩ := List.isChain_append.mp h.coalesced
  obtain ⟨-, hB⟩ := List.isChain_cons.mp hpB
  exact ⟨A, B, rfl, hfit, hkept, (hat.open_back hisNone).1, hA, hB⟩

/-- A write into the body of an allocated piece, behind its vaddr. -/
theorem Block.poke (h : Block mb adb ps l) (hp : p ∈ ps) (hkind : p.kind = some v)
    (hfront : Mem.SameOn mb.mem mem' mb.start (mpToMapB p.addr))
    (hback : Mem.SameOn mb.mem mem' (p.stop - 8) mb.stop) :
    Block { mb with mem := mem' } adb ps l ∧
      ∀ q ∈ ps, q ≠ p → Mem.SameOn mb.mem mem' q.addr q.stop := by
  obtain ⟨A, B, rfl, hfit, hkept, hholed, -, -⟩ := h.open hp hkind
  have hsize := hfit.size_ge
  have hstop := p.stop_eq
  have hbody : mpToMapB p.addr = p.addr + 24 := rfl
  have hinside := h.laid.tiles.mem hp
  have hfront' := hfront.sub (c := mb.start) (d := p.addr) (Nat.le_refl _) (by omega)
  have hback' := hback.sub (c := p.stop) (d := mb.stop) (by omega) (Nat.le_refl _)
  have hkept' : Kept mem' p := hkept.congr (hfront.sub (by omega) (by omega))
    (hback.sub (by omega) (by omega)) fun _ => hfront.sub (by omega) (by omega)
  have hfilled := ((hholed.write hfront' hback').fill hfit hkept' (by rw [hkind]; rfl) rfl
    (Nat.le_refl _)).close
  rw [List.append_assoc] at hfilled
  refine ⟨⟨hfilled, h.coalesced, h.entries, h.quiet⟩, fun q hq hne => ?_⟩
  have hq' := h.laid.tiles.mem hq
  rcases Tiles.apart h.laid.tiles hp hq with heq | hle | hle
  · exact absurd heq.symm hne
  · exact hback.sub (by omega) (by omega)
  · exact hfront.sub (by omega) (by omega)

/-! ## `new_mem_block` -/

/-- A new block is one free piece. -/
theorem block_new {start : Nat} (mem : Mem) (minBytes : Nat) (hstart : 0 < start)
    (hstop : start + padNumBytes minBytes < 2 ^ 64) (hquiet : adb.Quiet) :
    Block (newMemBlock start mem minBytes) adb [⟨start, padNumBytes minBytes, none⟩]
      [⟨start, padNumBytes minBytes, none⟩] := by
  obtain ⟨heven, hmin, hlt⟩ := padNumBytes_fit minBytes
  let p : Piece := ⟨start, padNumBytes minBytes, none⟩
  have hfit : Fit p := ⟨heven, hmin⟩
  have hsize : 34 ≤ padNumBytes minBytes := hmin
  have honly : LinksOnly ([p].map node) (mpInit mem start (padNumBytes minBytes) false)
      (newMemBlock start mem minBytes).mem :=
    (linksOnly_setNext List.mem_cons_self).trans (linksOnly_setPrev List.mem_cons_self)
  have hkept : Kept (newMemBlock start mem minBytes).mem p := by
    refine (kept_mpInit (p := p) mem hfit hlt rfl).of_links hfit honly fun q hq => ?_
    rw [List.mem_singleton.mp hq]
    exact ⟨hfit, rfl, .inl rfl⟩
  have hmem : ∀ q, q ∈ [p] ++ [] → q = p := fun q hq => List.mem_singleton.mp hq
  refine ⟨⟨⟨hstart, hstop⟩, ⟨rfl, by show 0 < padNumBytes minBytes; omega, rfl⟩, Nat.le_refl _, rfl,
    fun q hq => hmem q hq ▸ hfit, fun q hq => hmem q hq ▸ hkept, .refl _, ⟨rfl, ?_, ?_⟩,
    List.pairwise_singleton _ _⟩, List.isChain_singleton _, fun q hq v hv => ?_, hquiet⟩
  · exact (prev_setPrev (.inl rfl) isPtr_none).trans (if_pos rfl)
  · exact (next_setPrev (.inl rfl)).trans ((next_setNext (.inl rfl) isPtr_none).trans (if_pos rfl))
  · rw [List.mem_singleton.mp hq] at hv
    cases hv

/-! ## `mb_malloc_p` -/

/-- Of a free piece in front of `B` the code takes `size` bytes for a request for `minSize`: all of them
when the rest is too small to be a piece, else just those, and the rest stays free in front of `B`. -/
def Taken (bigSize minSize size : Nat) (B B' : List Piece) : Prop :=
  bigSize - minSize < mpMinSize ∧ size = bigSize ∧ B' = B ∨
  mpMinSize ≤ bigSize - minSize ∧ size = minSize ∧
    ∃ n : Piece, n.kind = none ∧ n.size = bigSize - minSize ∧ B' = n :: B

/-- The cut writes the tags of the allocated piece into the hole, and gives the rest back when it is
large enough. -/
theorem mbCut_eq {bigSize minSize : Nat} (h : Holed mb A a b B l) (hB : Coalesced B)
    (hhead : ∀ q ∈ B.head?, q.kind.isSome = true) (hbig : a + bigSize = b)
    (hbigeven : bigSize % 2 = 0) (hmineven : minSize % 2 = 0) (hmin : mpMinSize ≤ minSize)
    (hle : minSize ≤ bigSize) :
    ∃ mb' B' l' size, mbCut mb a bigSize minSize = some mb' ∧
      (mb'.start = mb.start ∧ mb'.cap = mb.cap) ∧ Holed mb' A a (a + size) B' l' ∧
      (minSize ≤ size ∧ size % 2 = 0 ∧ Taken bigSize minSize size B B') ∧
      (mb'.mem.load64 a = mpTag size true ∧ mb'.mem.load64 (a + size - 8) = mpTag size true) ∧
      Coalesced B' ∧ Preserved mb.mem mb'.mem (A ++ B) (A ++ B') := by
  have hrange := h.range.2
  have hback := h.back.le
  have hmin' : 34 ≤ minSize := hmin
  by_cases hsmall : bigSize - minSize < mpMinSize
  · let p : Piece := ⟨a, bigSize, none⟩
    have hfit : Fit p := ⟨hbigeven, Nat.le_trans hmin hle⟩
    have hsameA : Mem.SameOn mb.mem (mpInit mb.mem a bigSize true) mb.start a :=
      sameOn_mpInit (by omega) (.inl (Nat.le_refl _))
    have hsameB : Mem.SameOn mb.mem (mpInit mb.mem a bigSize true) b mb.stop :=
      sameOn_mpInit (by omega) (.inr (Nat.le_of_eq hbig))
    have htags := tags_mpInit mb.mem hfit (show bigSize < 2 ^ 64 by omega) true
    exact ⟨_, B, l, bigSize, if_pos hsmall, ⟨rfl, rfl⟩, hbig.symm ▸ h.write hsameA hsameB,
      ⟨hle, hbigeven, .inl ⟨hsmall, rfl, rfl⟩⟩, htags, hB, h.preserved_write hsameA hsameB⟩
  · let n : Piece := ⟨a + minSize, bigSize - minSize, none⟩
    have hnfit : Fit n := by
      refine ⟨?_, Nat.le_of_not_lt hsmall⟩
      show (bigSize - minSize) % 2 = 0
      omega
    have hnge : 34 ≤ bigSize - minSize := hnfit.size_ge
    have hnstop : n.stop = b := by
      show a + minSize + (bigSize - minSize) = b
      omega
    have hsameA : Mem.SameOn mb.mem (mpInit mb.mem n.addr n.size false) mb.start a :=
      sameOn_mpInit (show 8 ≤ bigSize - minSize by omega) (.inl (Nat.le_add_right _ _))
    have hsameB : Mem.SameOn mb.mem (mpInit mb.mem n.addr n.size false) b mb.stop :=
      sameOn_mpInit (show 8 ≤ bigSize - minSize by omega) (.inr (Nat.le_of_eq hnstop))
    obtain ⟨mb', l', hadd, hfields, h', honly⟩ := (h.write hsameA hsameB).add hnfit
      (kept_mpInit (p := n) mb.mem hnfit (show bigSize - minSize < 2 ^ 64 by omega) rfl) rfl
        (Nat.le_add_right a minSize)
      hnstop
    let p : Piece := ⟨a, minSize, none⟩
    have hfit : Fit p := ⟨hmineven, hmin⟩
    have hsameA' : Mem.SameOn mb'.mem (mpInit mb'.mem a minSize true) mb'.start a :=
      sameOn_mpInit (by omega) (.inl (Nat.le_refl _))
    have hsameB' : Mem.SameOn mb'.mem (mpInit mb'.mem a minSize true) n.addr mb'.stop :=
      sameOn_mpInit (by omega) (.inr (Nat.le_refl _))
    have htags := tags_mpInit mb'.mem hfit (show minSize < 2 ^ 64 by omega) true
    refine ⟨{ mb' with mem := mpInit mb'.mem a minSize true }, n :: B, l', minSize, ?_, hfields,
      h'.write hsameA' hsameB',
      ⟨Nat.le_refl _, hmineven, .inr ⟨Nat.le_of_not_lt hsmall, rfl, n, rfl, rfl, rfl⟩⟩, htags,
      List.isChain_cons.mpr ⟨fun y hy => .inr (hhead y hy), hB⟩, ?_⟩
    · exact (if_neg hsmall).trans (Option.map_eq_some_iff.mpr ⟨mb', hadd, rfl⟩)
    · exact ((h.preserved_write hsameA hsameB).trans
        (h'.preserved_links honly fun q hq => preserved_free rfl hq)).trans
        (h'.preserved_write hsameA' hsameB')

/-- What a call does to the allocated pieces: `gone` is there no longer, `came` is new, and the
others keep their bytes. -/
structure Changed (mb mb' : MemBlock) (ps ps' : List Piece) (gone came : Piece → Prop) : Prop where
  fields : mb'.start = mb.start ∧ mb'.cap = mb.cap
  pieces : ∀ q : Piece, q.kind.isSome = true → (q ∈ ps' ↔ came q ∨ q ∈ ps ∧ ¬gone q)
  bytes : ∀ q : Piece, q.kind.isSome = true → q ∈ ps → ¬gone q →
    Mem.SameOn mb.mem mb'.mem q.addr q.stop

/-- The first piece of the free list, cut out of the block. -/
theorem Block.pop_front (h : Block mb adb ps l) {f : Nat} (hlist : mb.sizeFreeList = some f) :
    ∃ p A B l', f = node p ∧ ps = A ++ p :: B ∧ Fit p ∧ p.kind = none ∧ mpSize mb.mem p.addr = p.size ∧
      Holed (mbPopFront mb f) A p.addr p.stop B l' ∧
      Preserved mb.mem (mbPopFront mb f).mem ps (A ++ B) ∧
      ((mbPopFront mb f).start = mb.start ∧ (mbPopFront mb f).cap = mb.cap) ∧ Coalesced A ∧
      Coalesced B ∧ (∀ q ∈ A.getLast?, q.kind.isSome = true) ∧ ∀ q ∈ B.head?, q.kind.isSome = true := by
  have hlaid := h.laid
  cases l with
  | nil =>
    have hnone := hlaid.linked.head
    rw [hlist] at hnone
    cases hnone
  | cons p l' =>
    have hf : f = node p := by
      have hhead := hlaid.linked.head
      rw [hlist] at hhead
      cases hhead
      rfl
    obtain ⟨hmem, hkind⟩ := hlaid.mem_listed.mp List.mem_cons_self
    rw [List.append_nil] at hmem
    obtain ⟨A, B, rfl⟩ := List.append_of_mem hmem
    have hfit := hlaid.fit p (List.mem_append_left _ hmem)
    have hkept := hlaid.kept p (List.mem_append_left _ hmem)
    have hat := Laid.at hlaid
    have hpop : mbPopFront mb f = mbRemoveFromSize mb (node p) := by
      rw [hf]
      exact popFront_eq_remove hlaid.linked (hlaid.nodes fun q hq => (hlaid.mem_listed.mp hq).1)
        hlaid.nodup_listed
    have hstop := p.stop_eq
    have hat' : Holed mb A p.addr p.addr (p :: B) ([] ++ p :: l') := hat
    have hpieces : (A ++ p :: B).Perm (p :: (A ++ B)) := List.perm_middle
    obtain ⟨hholed, honly⟩ := hat'.remove hpieces hat.front (show p.addr ≤ p.stop by omega)
      (Tiles.cut hlaid.front).2.1
    obtain ⟨hA, hpB, hlast⟩ := List.isChain_append.mp h.coalesced
    obtain ⟨hhead, hB⟩ := List.isChain_cons.mp hpB
    rw [hpop]
    refine ⟨p, A, B, l', hf, rfl, hfit, hkind, hkept.size hfit, hholed,
      hholed.preserved_links honly fun q hq => (preserved_free hkind hq).symm,
      fields_remove mb (node p), hA, hB, fun q hq => ?_, fun q hq => ?_⟩
    · have hor := hlast q hq p rfl
      rw [hkind] at hor
      exact hor.resolve_right nofun
    · have hor := hhead q hq
      rw [hkind] at hor
      exact hor.resolve_left nofun

/-- The piece `q` is what a request for `minSize` bytes got of one of the free pieces. -/
def CutOut (minSize : Nat) (ps ps' : List Piece) (q : Piece) : Prop :=
  ∃ A p B B', ps = A ++ p :: B ∧ p.kind = none ∧ ps' = A ++ q :: B' ∧ Taken p.size minSize q.size B B'

/-- A call that returns has returned `NULL` and changed nothing, or has cut one more allocated piece, of
at least the padded size, out of a free one, with a vaddr that was not allocated. -/
theorem mbMallocP_exact (h : Block mb adb ps l) {minBytes : Nat} {hold : Bool} {res : MallocRes}
    (hres : mbMallocP mb adb t minBytes hold = some (res, mb', adb')) :
    res = ⟨none, nullVaddr⟩ ∧ mb' = mb ∧ adb' = adb ∨
    ∃ q ps' l', q.kind = some res.vaddr ∧
      res.paddr = (if hold then some (mpToMapB q.addr) else none) ∧ padNumBytes minBytes ≤ q.size ∧
      CutOut (padNumBytes minBytes) ps ps' q ∧ Block mb' adb' ps' l' ∧
      Changed mb mb' ps ps' (fun _ => False) (· = q) ∧ adb.entry res.vaddr = none ∧
      ∀ w, adb'.entry w = if w = res.vaddr then
        some ⟨if hold then RwLock.acqWrite {} t else {}, true, mpToMapB q.addr⟩ else adb.entry w := by
  unfold mbMallocP at hres
  split at hres
  · cases hres
    exact .inl ⟨rfl, rfl, rfl⟩
  simp only at hres
  split at hres
  · cases hres
    exact .inl ⟨rfl, rfl, rfl⟩
  next f hlist =>
    split at hres
    · cases hres
      exact .inl ⟨rfl, rfl, rfl⟩
    next hlarge =>
      obtain ⟨p, A, B, l₁, rfl, rfl, hfit, hkind, hpsize, h₁, hpres₁, hfields₁, hA, hB, hlast, hhead⟩ :=
        h.pop_front hlist
      rw [mpBToMp_node] at hres hlarge
      rw [hpsize] at hres hlarge
      obtain ⟨hpadeven, hpadmin, -⟩ := padNumBytes_fit minBytes
      obtain ⟨mb₂, B', l₂, size, hcut, hfields₂, h₂, ⟨hsize, hsizeeven, htaken⟩, ⟨hheader, hfooter⟩,
          hB', hpres₂⟩ :=
        mbCut_eq h₁ hB hhead p.stop_eq.symm hfit.even hpadeven hpadmin (Nat.le_of_not_lt hlarge)
      rw [hcut] at hres
      split at hres
      next mb₃ v adb₃ heq hput =>
        cases heq
        cases hres
        obtain ⟨hquiet, hnone, hentry⟩ := AddrBook.adbPutP_eq_some h.quiet hput
        let q : Piece := ⟨p.addr, size, some v⟩
        have hqfit : Fit q := ⟨hsizeeven, Nat.le_trans hpadmin hsize⟩
        have hqge : 34 ≤ size := hqfit.size_ge
        have hnew : adb'.entry v =
            some ⟨if hold then RwLock.acqWrite {} t else {}, true, mpToMapB p.addr⟩ := by
          rw [hentry, if_pos rfl]
        -- the vaddr is written into the hole, and the piece fills it
        have hsameA : Mem.SameOn mb₂.mem (storeVaddr mb₂.mem (mpBody p.addr) v) mb₂.start p.addr :=
          sameOn_storeVaddr (.inl (Nat.le_add_right _ _))
        have hsameB : Mem.SameOn mb₂.mem (storeVaddr mb₂.mem (mpBody p.addr) v) q.stop mb₂.stop :=
          sameOn_storeVaddr (.inr (show p.addr + 8 + 16 ≤ p.addr + size by omega))
        have hkept : Kept (storeVaddr mb₂.mem (mpBody p.addr) v) q :=
          kept_storeVaddr hqfit rfl hheader hfooter (hquiet.lt (AddrBook.entry_eq_some.mp hnew).1)
        have h₃ := ((h₂.write hsameA hsameB).fill hqfit hkept rfl rfl (Nat.le_refl _)).close
        have hpres := (hpres₁.trans hpres₂).trans (h₂.preserved_write hsameA hsameB)
        have hmem : ∀ r, r ∈ A ++ [q] ++ B' ↔ r = q ∨ r ∈ A ++ B' := by
          intro r
          rw [List.append_assoc]
          exact List.perm_middle.mem_iff.trans List.mem_cons
        have hcutout : CutOut (padNumBytes minBytes) (A ++ p :: B) (A ++ [q] ++ B') q :=
          ⟨A, p, B, B', rfl, hkind, by rw [List.append_assoc]; rfl, htaken⟩
        refine .inr ⟨q, A ++ [q] ++ B', l₂, rfl, rfl, hsize, hcutout, ⟨h₃, ?_, fun r hr w hw => ?_, hquiet⟩,
          ⟨⟨hfields₂.1.trans hfields₁.1, hfields₂.2.trans hfields₁.2⟩, fun r hr => ?_,
            fun r hr hps _ => (hpres r hr).2 hps⟩, hnone, hentry⟩
        · rw [List.append_assoc]
          refine List.isChain_append.mpr ⟨hA, List.isChain_cons.mpr ⟨fun y _ => .inl rfl, hB'⟩, ?_⟩
          intro x _ y hy
          cases hy
          exact .inr rfl
        · rcases (hmem r).mp hr with rfl | hr
          · cases hw
            exact ⟨_, hnew, rfl⟩
          · have hrps := ((hpres r (by rw [hw]; rfl)).1).mp hr
            obtain ⟨c, hc, hpaddr⟩ := h.entries r hrps w hw
            refine ⟨c, ?_, hpaddr⟩
            rw [hentry, if_neg, hc]
            rintro rfl
            rw [hnone] at hc
            cases hc
        · rw [hmem, (hpres r hr).1]
          exact or_congr Iff.rfl (and_iff_left not_false).symm
      next => cases hres

/-- **Malloc.** A call that returns has returned `NULL` and changed nothing, or has made one more
allocated piece, of at least the padded size, with a vaddr that was not allocated. -/
theorem mbMallocP_cases (h : Block mb adb ps l) {minBytes : Nat} {hold : Bool} {res : MallocRes}
    (hres : mbMallocP mb adb t minBytes hold = some (res, mb', adb')) :
    res = ⟨none, nullVaddr⟩ ∧ mb' = mb ∧ adb' = adb ∨
    ∃ q ps' l', q.kind = some res.vaddr ∧
      res.paddr = (if hold then some (mpToMapB q.addr) else none) ∧ padNumBytes minBytes ≤ q.size ∧
      Block mb' adb' ps' l' ∧ Changed mb mb' ps ps' (fun _ => False) (· = q) ∧
      adb.entry res.vaddr = none ∧
      ∀ w, adb'.entry w = if w = res.vaddr then
        some ⟨if hold then RwLock.acqWrite {} t else {}, true, mpToMapB q.addr⟩ else adb.entry w := by
  rcases mbMallocP_exact h hres with hnull | ⟨q, ps', l', hkind, hpaddr, hsize, -, hspec⟩
  · exact .inl hnull
  · exact .inr ⟨q, ps', l', hkind, hpaddr, hsize, hspec⟩

/-- The request is not empty, and the first piece of the free list is large enough for it. -/
def Fits (mb : MemBlock) (minBytes : Nat) : Prop :=
  minBytes ≠ 0 ∧ ∃ f, mb.sizeFreeList = some f ∧ padNumBytes minBytes ≤ mpSize mb.mem (mpBToMp f)

/-- A request that does not fit gets `NULL`, and nothing changes. -/
theorem mbMallocP_of_not_fits {minBytes : Nat} (hfits : ¬Fits mb minBytes) (adb : AddrBook) (t : Tid)
    (hold : Bool) : mbMallocP mb adb t minBytes hold = some (⟨none, nullVaddr⟩, mb, adb) := by
  unfold mbMallocP
  by_cases hzero : minBytes = 0
  · rw [if_pos hzero]
  · rw [if_neg hzero]
    cases hlist : mb.sizeFreeList with
    | none => rfl
    | some f =>
      have hsmall : mpSize mb.mem (mpBToMp f) < padNumBytes minBytes := by
        refine Nat.lt_of_not_le fun hle => hfits ⟨hzero, f, hlist, hle⟩
      exact if_pos hsmall

/-- A request that fits gets a vaddr, when the book has room for a table. -/
theorem mbMallocP_of_fits (h : Block mb adb ps l) {minBytes : Nat} (hfits : Fits mb minBytes)
    (t : Tid) (hold : Bool) (hroom : adb.TableRoom) :
    ∃ res mb' adb', mbMallocP mb adb t minBytes hold = some (res, mb', adb') ∧
      res.vaddr ≠ nullVaddr := by
  obtain ⟨hzero, f, hlist, hlarge⟩ := hfits
  obtain ⟨p, A, B, l₁, rfl, rfl, hfit, -, hpsize, h₁, -, -, -, hB, -, hhead⟩ := h.pop_front hlist
  obtain ⟨hpadeven, hpadmin, -⟩ := padNumBytes_fit minBytes
  rw [mpBToMp_node, hpsize] at hlarge
  obtain ⟨mb₂, -, -, -, hcut, -⟩ := mbCut_eq h₁ hB hhead p.stop_eq.symm hfit.even hpadeven hpadmin hlarge
  obtain ⟨v, adb', hput, hquiet, -, hentry⟩ :=
    AddrBook.adbPutP_eq h.quiet t (mpToMapB p.addr) hold hroom
  have hnew := hentry v
  rw [if_pos rfl] at hnew
  have hne : v ≠ nullVaddr := hquiet.ne_null (AddrBook.entry_eq_some.mp hnew).1
  refine ⟨⟨if hold then some (mpToMapB p.addr) else none, v⟩,
    { mb₂ with mem := storeVaddr mb₂.mem (mpBody p.addr) v }, adb', ?_, hne⟩
  unfold mbMallocP
  rw [if_neg hzero, hlist]
  simp only [mpBToMp_node, hpsize, if_neg (Nat.not_lt_of_le hlarge), hcut, hput]

/-! ## `mb_free` -/

theorem mapBToMp_mpToMapB (mp : Nat) : mapBToMp (mpToMapB mp) = mp := by
  unfold mapBToMp mpToMapB mpBToMp mpBody
  omega

/-- Locking and unlocking leaves the book as it is. -/
theorem read_unlock {adb : AddrBook} (h : adb.Quiet) {paddr : Nat} {adb₁ adb₂ : AddrBook}
    (hget : adb.adbGetRead t v = some (paddr, adb₁)) (hunlock : adb₁.adbUnlock t v = some adb₂) :
    ∃ c, adb.entry v = some c ∧ paddr = c.paddr ∧ adb₂.Quiet ∧ ∀ w, adb₂.entry w = adb.entry w := by
  obtain ⟨c, hentry, hlck, hpaddr, hassigned⟩ := AddrBook.adbGetRead_eq_some h hget
  obtain ⟨c', hentry', -, hassigned'⟩ := AddrBook.adbUnlock_eq_some hassigned.quiet hunlock
  rw [hassigned.self] at hentry'
  cases hentry'
  refine ⟨c, hentry, hpaddr, hassigned'.quiet, fun w => ?_⟩
  rw [(hassigned.trans hassigned').entry]
  split
  next heq => rw [heq, hentry, RwLock.release_acqRead hlck]
  next => rfl

/-- A lock that is got for reading and given back leaves the book as it was. -/
theorem read_unlock_eq {adb : AddrBook} {paddr : Nat} {adb₁ adb₂ : AddrBook}
    (hget : adb.adbGetRead t v = some (paddr, adb₁)) (hunlock : adb₁.adbUnlock t v = some adb₂) :
    adb₂ = adb := by
  unfold AddrBook.adbGetRead at hget
  split at hget
  · cases hget
  next c hcell =>
    split at hget
    next hcond =>
      cases hget
      unfold AddrBook.adbUnlock at hunlock
      rw [AddrBook.cell_setCell hcell, if_pos rfl] at hunlock
      simp only at hunlock
      split at hunlock
      · cases hunlock
        rw [AddrBook.setCell_setCell, RwLock.release_acqRead (Bool.and_eq_true_iff.mp hcond).1]
        exact AddrBook.setCell_self hcell
      · cases hunlock
    next => cases hget

/-- A vaddr that nobody has locked is locked for reading and unlocked. -/
theorem read_unlock_isSome {adb : AddrBook} (h : adb.Quiet) {c : AddrTableCell}
    (hentry : adb.entry v = some c) (hlck : c.lck.isFree = true) (t : Tid) :
    ∃ adb₁ adb₂, adb.adbGetRead t v = some (c.paddr, adb₁) ∧ adb₁.adbUnlock t v = some adb₂ := by
  obtain ⟨hcell, hallocated⟩ := AddrBook.entry_eq_some.mp hentry
  have hread : c.lck.canRead = true := RwLock.canRead_iff.mpr (RwLock.writer_of_isFree hlck)
  have hget : adb.adbGetRead t v = some (c.paddr, adb.setCell v { c with lck := c.lck.acqRead t }) := by
    unfold AddrBook.adbGetRead
    simp only [hcell, hread, hallocated, Bool.and_self, if_true]
  have hassigned : adb.Assigned (adb.setCell v { c with lck := c.lck.acqRead t }) v
      { c with lck := c.lck.acqRead t } := AddrBook.assigned_setCell h hentry hallocated
  obtain ⟨adb₂, hunlock, -⟩ := AddrBook.adbUnlock_isSome hassigned.quiet hassigned.self
    (RwLock.holds_acqRead.mpr (.inl rfl))
  exact ⟨_, adb₂, hget, hunlock⟩

/-- **Free.** A call that returns has taken the piece of the vaddr out of the block and the vaddr
out of the book, and nobody held the lock of the vaddr. -/
theorem mbFree_cases (h : Block mb adb ps l) (hp : p ∈ ps) (hkind : p.kind = some v)
    (hfree : mbFree mb adb t v = some (mb', adb')) :
    (∃ c, adb.entry v = some c ∧ c.lck.isFree = true) ∧
    ∃ ps' l', Block mb' adb' ps' l' ∧ Changed mb mb' ps ps' (· = p) (fun _ => False) ∧
      ∀ w, adb'.entry w = if w = v then none else adb.entry w := by
  obtain ⟨cell, hcell, haddr⟩ := h.entries p hp v hkind
  unfold mbFree at hfree
  split at hfree
  · cases hfree
  next paddr adb₁ hget =>
    split at hfree
    · cases hfree
    next adb₃ hbind =>
      obtain ⟨adb₂, hunlock, hfree'⟩ := Option.bind_eq_some_iff.mp hbind
      obtain ⟨c, hentry, hpaddr, hquiet₂, hsame⟩ := read_unlock h.quiet hget hunlock
      obtain ⟨⟨d, hd, hdfree⟩, hquiet, hentries⟩ := AddrBook.adbFree_eq_some hquiet₂ hfree'
      rw [hcell] at hentry
      cases hentry
      rw [hsame] at hd
      rw [hpaddr, haddr, mapBToMp_mpToMapB] at hfree
      obtain ⟨A, B, rfl, hfit, hkept, hholed, hA, hB⟩ := h.open hp hkind
      obtain ⟨mb₁, ps', l', hco, hfields, hlaid, hcoalesced, hpres⟩ := mbCoalesce_eq hholed hfit hkept hA hB
      rw [hco] at hfree
      cases hfree
      have hpiece : ∀ q : Piece, q.kind.isSome = true → (q ∈ ps' ↔ q ∈ A ++ p :: B ∧ ¬q = p) := by
        intro q hq
        rw [(hpres q hq).1, List.perm_middle.mem_iff, List.mem_cons]
        refine ⟨fun hmem => ⟨.inr hmem, ?_⟩, fun hmem => hmem.1.resolve_left hmem.2⟩
        rintro rfl
        exact (List.nodup_cons.mp (List.perm_middle.nodup_iff.mp h.laid.tiles.nodup)).1 hmem
      refine ⟨⟨d, hd, hdfree⟩, ps', l', ⟨hlaid, hcoalesced, fun q hq w hw => ?_, hquiet⟩,
        ⟨hfields, fun q hq => ?_, fun q hq hmem hne => ?_⟩, fun w => ?_⟩
      · obtain ⟨hqps, hne⟩ := (hpiece q (by rw [hw]; rfl)).mp hq
        obtain ⟨e, he, hepaddr⟩ := h.entries q hqps w hw
        refine ⟨e, ?_, hepaddr⟩
        rw [hentries, if_neg, hsame, he]
        rintro rfl
        exact hne (h.vaddr_inj hqps hp hw hkind)
      · rw [hpiece q hq, false_or]
      · exact (hpres q hq).2 ((hpres q hq).1.mp ((hpiece q hq).mpr ⟨hmem, hne⟩))
      · rw [hentries, hsame]

/-- Nothing but the lock of the vaddr keeps `mb_free` from returning. -/
theorem mbFree_isSome (h : Block mb adb ps l) (hp : p ∈ ps) (hkind : p.kind = some v)
    {c : AddrTableCell} (hentry : adb.entry v = some c) (hlck : c.lck.isFree = true) (t : Tid) :
    (mbFree mb adb t v).isSome = true := by
  obtain ⟨adb₁, adb₂, hget, hunlock⟩ := read_unlock_isSome h.quiet hentry hlck t
  obtain ⟨-, -, -, -, hsame⟩ := read_unlock h.quiet hget hunlock
  obtain ⟨adb₃, hfree⟩ := AddrBook.adbFree_isSome ((hsame v).trans hentry) hlck
  obtain ⟨d, hd, hpaddr⟩ := h.entries p hp v hkind
  rw [hentry] at hd
  cases hd
  obtain ⟨A, B, rfl, hfit, hkept, hholed, hA, hB⟩ := h.open hp hkind
  obtain ⟨mb₁, ps', l', hco, -⟩ := mbCoalesce_eq hholed hfit hkept hA hB
  unfold mbFree
  simp only [hget, hunlock, Option.bind_some, hfree]
  rw [hpaddr, mapBToMp_mpToMapB, hco]
  rfl

end Chvm.Mb
