import Chvm.Mb.Malloc

/-!
# Compacting

`mb_try_shift` moves one allocated piece down into the free piece in front of it. In the layout: the
free piece leaves the list, the hole grows over the allocated piece, the moved piece fills the front
of the hole, and what is left of the hole is a free piece, merged with the free piece behind it or
linked in at the place of the old one.
-/

set_option autoImplicit false

namespace Chvm.Mb

open Chvm.Lib Chvm.Virt

variable {mem mem' : Mem} {mb mb' : MemBlock} {adb adb' : AddrBook} {A A' B B' l ps : List Piece}
  {a a' b b' : Nat} {p q : Piece} {t : Tid} {v : Vaddr}

/-! ## The search -/

/-- Somebody holds the lock of a vaddr. -/
def Locked (adb : AddrBook) (v : Vaddr) : Prop := ∃ c, adb.entry v = some c ∧ c.lck.isFree = false

/-- The allocated pieces, in the order of their addresses. -/
def allocs (ps : List Piece) : List Piece := ps.filter (·.kind.isSome)

theorem mem_allocs : p ∈ allocs ps ↔ p ∈ ps ∧ p.kind.isSome = true := List.mem_filter

@[simp] theorem allocs_append (ps qs : List Piece) : allocs (ps ++ qs) = allocs ps ++ allocs qs :=
  List.filter_append ..

theorem allocs_cons_free (h : p.kind = none) : allocs (p :: ps) = allocs ps :=
  List.filter_cons_of_neg (by rw [h]; exact Bool.false_ne_true)

theorem allocs_cons (h : p.kind.isSome = true) : allocs (p :: ps) = p :: allocs ps :=
  List.filter_cons_of_pos h

/-- What the code finds behind a piece. -/
theorem Block.behind (h : Block mb adb ps l) (hp : p ∈ ps) :
    mpNext mb.mem p.addr = p.stop ∧
    ((p.stop < mb.stop && mpAlloc mb.mem p.stop) = true →
      ∃ A q B v c, ps = A ++ p :: q :: B ∧ q.kind = some v ∧ q.addr = p.stop ∧
        loadVaddr mb.mem (mpBody p.stop) = v ∧ adb.entry v = some c) := by
  have hmem : p ∈ ps ++ [] := List.mem_append_left _ hp
  refine ⟨(h.laid.kept p hmem).next (h.laid.fit p hmem), fun hnext => ?_⟩
  obtain ⟨hlt, halloc⟩ := Bool.and_eq_true_iff.mp hnext
  obtain ⟨A, C, rfl⟩ := List.append_of_mem hp
  obtain ⟨-, hback, -⟩ := Tiles.cut h.laid.tiles
  cases C with
  | nil =>
    have heq : p.stop = mb.stop := hback
    exact absurd (of_decide_eq_true hlt) (by omega)
  | cons q B =>
    obtain ⟨haddr, -, -⟩ := hback
    have hq : q ∈ A ++ p :: q :: B :=
      List.mem_append_right _ (List.mem_cons_of_mem p List.mem_cons_self)
    have hq' : q ∈ A ++ p :: q :: B ++ [] := List.mem_append_left _ hq
    rw [← haddr, (h.laid.kept q hq').alloc (h.laid.fit q hq')] at halloc
    obtain ⟨v, hv⟩ := Option.isSome_iff_exists.mp halloc
    obtain ⟨c, hc, -⟩ := h.entries q hq v hv
    exact ⟨A, q, B, v, c, rfl, hv, haddr, haddr ▸ (h.laid.kept q hq').vaddr v hv, hc⟩

/-- The piece right behind a piece, in a tiling cut there. -/
theorem Block.next_mem (h : Block mb adb ps l) (hps : ps = A ++ p :: q :: B) :
    q ∈ ps ∧ q.addr = p.stop ∧ 0 < q.size := by
  subst hps
  obtain ⟨-, ⟨haddr, hsize, -⟩, -⟩ := Tiles.cut h.laid.tiles
  exact ⟨List.mem_append_right _ (List.mem_cons_of_mem p List.mem_cons_self), haddr, hsize⟩

/-- A piece has one piece right behind it. -/
theorem Block.next_unique (h : Block mb adb ps l) {q' : Piece} (hps : ps = A ++ p :: q :: B)
    (hps' : ps = A' ++ p :: q' :: B') : q = q' := by
  obtain ⟨hq, haddr, hsize⟩ := h.next_mem hps
  obtain ⟨hq', haddr', hsize'⟩ := h.next_mem hps'
  have hstop := q.stop_eq
  have hstop' := q'.stop_eq
  rcases h.laid.tiles.apart hq hq' with heq | hle | hle
  · exact heq
  · omega
  · omega

/-- What the code finds behind a piece with an allocated one right behind it. -/
theorem Block.next_alloc (h : Block mb adb ps l) (hps : ps = A ++ p :: q :: B) (hq : q.kind.isSome = true) :
    (p.stop < mb.stop && mpAlloc mb.mem p.stop) = true := by
  subst hps
  have hmem : q ∈ A ++ p :: q :: B ++ [] := List.mem_append_left _
    (List.mem_append_right _ (List.mem_cons_of_mem p List.mem_cons_self))
  have hfit := h.laid.fit q hmem
  have hsize := hfit.size_ge
  have hstop := q.stop_eq
  obtain ⟨-, ⟨haddr, -, hback⟩, -⟩ := Tiles.cut h.laid.tiles
  have hle := hback.le
  rw [← haddr, (h.laid.kept q hmem).alloc hfit, hq, Bool.and_true]
  exact decide_eq_true (by omega)

/-- With more fuel than there are pieces to look at, the search ends: it has locked nothing, since every
allocated piece right behind a free one is locked, or it has locked one of them. -/
theorem mbSeekShift_eq (h : Block mb adb ps l) (t : Tid) {front back : List Piece} {fuel : Nat}
    (hl : l = front ++ back) (hfuel : back.length < fuel) :
    (mbSeekShift mb adb t fuel (back.map node).head? = some none ∧
      ∀ p ∈ back, ∀ A q B v, ps = A ++ p :: q :: B → q.kind = some v → Locked adb v) ∨
    ∃ A p q B v c adb', ps = A ++ p :: q :: B ∧ p.kind = none ∧ q.kind = some v ∧ q.addr = p.stop ∧
      mbSeekShift mb adb t fuel (back.map node).head? = some (some (node p, v, adb')) ∧
      adb.entry v = some c ∧ c.lck.isFree = true ∧
      adb.Assigned adb' v { c with lck := c.lck.acqWrite t } := by
  induction back generalizing front fuel with
  | nil =>
    obtain ⟨fuel, rfl⟩ := Nat.exists_eq_succ_of_ne_zero (Nat.ne_zero_of_lt hfuel)
    exact .inl ⟨rfl, nofun⟩
  | cons p back ih =>
    obtain ⟨fuel, rfl⟩ := Nat.exists_eq_succ_of_ne_zero (Nat.ne_zero_of_lt hfuel)
    obtain ⟨hp, hkind⟩ := h.laid.mem_listed.mp (hl ▸ List.mem_append_right front List.mem_cons_self)
    rw [List.append_nil] at hp
    obtain ⟨hnext, hbehind⟩ := h.behind hp
    have hlink : sizeFreeNext mb.mem (node p) = (back.map node).head? := by
      have hlinked := h.laid.linked
      rw [hl, List.map_append, List.map_cons] at hlinked
      exact hlinked.links.2
    have ih := ih (show l = (front ++ [p]) ++ back by rw [hl, List.append_assoc]; rfl)
      (Nat.lt_of_succ_lt_succ hfuel)
    -- the search goes on behind a piece whose neighbour is locked, or that has no allocated one
    have hgo : (∀ A q B v, ps = A ++ p :: q :: B → q.kind = some v → Locked adb v) →
        (mbSeekShift mb adb t fuel (back.map node).head? = some none ∧
          ∀ r ∈ p :: back, ∀ A q B v, ps = A ++ r :: q :: B → q.kind = some v → Locked adb v) ∨
        ∃ A r q B v c adb', ps = A ++ r :: q :: B ∧ r.kind = none ∧ q.kind = some v ∧ q.addr = r.stop ∧
          mbSeekShift mb adb t fuel (back.map node).head? = some (some (node r, v, adb')) ∧
          adb.entry v = some c ∧ c.lck.isFree = true ∧
          adb.Assigned adb' v { c with lck := c.lck.acqWrite t } := by
      intro hp'
      refine ih.imp_left fun ⟨hseek, hrest⟩ => ⟨hseek, fun r hr => ?_⟩
      rcases List.mem_cons.mp hr with rfl | hr
      · exact hp'
      · exact hrest r hr
    simp only [List.map_cons, List.head?_cons, mbSeekShift, mpBToMp_node, hnext, hlink]
    by_cases hcond : (p.stop < mb.stop && mpAlloc mb.mem p.stop) = true
    · obtain ⟨A, q, B, v, c, hps, hv, haddr, hload, hentry⟩ := hbehind hcond
      simp only [hcond, if_true, hload]
      rcases AddrBook.adbTryGetWrite_eq h.quiet hentry t with ⟨hfree, adb', htry, hassigned⟩ | ⟨hheld, htry⟩
      · rw [htry]
        exact .inr ⟨A, p, q, B, v, c, adb', hps, hkind, hv, haddr, rfl, hentry, hfree, hassigned⟩
      · rw [htry]
        apply hgo
        intro A' q' B' w hps' hw
        have heq := h.next_unique hps hps'
        rw [← heq, hv] at hw
        cases hw
        exact ⟨c, hentry, hheld⟩
    · simp only [hcond]
      apply hgo
      intro A q B w hps hw
      exact absurd (h.next_alloc hps (by rw [hw]; rfl)) hcond

/-! ## The move -/

/-- The body of a piece whose tags are written is left alone. -/
theorem sameOn_mpInit_body {mp size c d : Nat} {alloc : Bool} (hlow : mp + 8 ≤ c)
    (hhigh : d ≤ mp + size - 8) : Mem.SameOn mem (mpInit mem mp size alloc) c d := by
  unfold mpInit
  exact (Mem.sameOn_store64 (.inr hlow)).trans (Mem.sameOn_store64 (.inl hhigh))

/-- The moved piece in memory: its vaddr is written, then its tags. -/
theorem kept_moved (hfit : Fit p) (hkind : p.kind = some v) (hlt : p.size < 2 ^ 64)
    (hv : v.tableIndex < 2 ^ 64 ∧ v.cellIndex < 2 ^ 64) :
    Kept (mpInit (storeVaddr mem (mpBody p.addr) v) p.addr p.size true) p := by
  have hsize := hfit.size_ge
  obtain ⟨hheader, hfooter⟩ := tags_mpInit (storeVaddr mem (mpBody p.addr) v) hfit hlt true
  refine ⟨?_, ?_, fun w hw => ?_⟩
  · rw [hheader, hkind]
    rfl
  · rw [hfooter, hkind]
    rfl
  · rw [hkind] at hw
    cases hw
    have hsame : Mem.SameOn (storeVaddr mem (mpBody p.addr) v)
        (mpInit (storeVaddr mem (mpBody p.addr) v) p.addr p.size true) (p.addr + 8) (p.addr + 24) :=
      sameOn_mpInit_body (Nat.le_refl _) (by omega)
    unfold loadVaddr mpBody at *
    rw [Mem.load64_congr (hsame.sub (Nat.le_refl _) (by omega)),
      Mem.load64_congr (hsame.sub (by omega) (by omega))]
    unfold storeVaddr
    rw [Mem.load64_store64_ne (by omega), Mem.load64_store64 hv.1, Mem.load64_store64 hv.2]

/-- The stores of the move: the user's bytes, the vaddr, the tags. -/
def moved (mem : Mem) (dst src size : Nat) (v : Vaddr) : Mem :=
  mpInit (storeVaddr (mem.move (mpToMapB dst) (mpToMapB src) (size - mapPadding)) (mpBody dst) v) dst
    size true

theorem sameOn_moved {dst src size c d : Nat} (hsize : mpMinSize ≤ size)
    (h : d ≤ dst ∨ dst + size ≤ c) : Mem.SameOn mem (moved mem dst src size v) c d := by
  have hsize : 34 ≤ size := hsize
  have hpad : mapPadding = 32 := rfl
  unfold moved mpToMapB mpBody
  refine ((Mem.sameOn_move (by omega)).trans (sameOn_storeVaddr (by omega))).trans
    (sameOn_mpInit (by omega) h)

/-- The user's bytes are at the new place what they were at the old one. -/
theorem byte_moved {dst src size i : Nat} (hi : i + mapPadding < size) :
    (moved mem dst src size v).byte (mpToMapB dst + i) = mem.byte (mpToMapB src + i) := by
  have hpad : mapPadding = 32 := rfl
  have hmove : (mem.move (mpToMapB dst) (mpToMapB src) (size - mapPadding)).byte (mpToMapB dst + i) =
      mem.byte (mpToMapB src + i) := Mem.byte_move (by omega)
  rw [← hmove]
  unfold moved mpToMapB mpBody
  refine ((sameOn_storeVaddr (.inr ?_)).trans (sameOn_mpInit_body ?_ ?_)) _ (Nat.le_refl _)
    (Nat.lt_succ_self _) <;> omega

/-! ## What is left of the hole -/

/-- The new free piece is linked in at the place of the old one, between `l₁` and `l₂`. -/
theorem shift_link {l₁ l₂ : List Piece} {size : Nat} (h : Holed mb A a b B (l₁ ++ l₂))
    (hB : Coalesced B) (hhead : ∀ q ∈ B.head?, q.kind.isSome = true) (hsize : a + size = b)
    (hfit : Fit ⟨a, size, none⟩) (h₁ : ∀ q ∈ l₁, size ≤ q.size) (h₂ : ∀ q ∈ l₂, q.size ≤ size)
    (hcond : (b < mb.stop && !mpAlloc mb.mem b) = false) :
    ∃ mb' n l', mbShiftFree mb a size b (l₁.map node).getLast? (l₂.map node).head? = some mb' ∧
      (mb'.start = mb.start ∧ mb'.cap = mb.cap) ∧ Laid mb' (A ++ n :: B) l' ∧
      (n.kind = none ∧ n.size = size) ∧ Coalesced (n :: B) ∧
      Preserved mb.mem mb'.mem (A ++ B) (A ++ n :: B) := by
  let n : Piece := ⟨a, size, none⟩
  have hge : 34 ≤ size := hfit.size_ge
  have hback := h.back.le
  have hrange := h.range.2
  have hsameA : Mem.SameOn mb.mem (mpInit mb.mem a size false) mb.start a :=
    sameOn_mpInit (by omega) (.inl (Nat.le_refl _))
  have hsameB : Mem.SameOn mb.mem (mpInit mb.mem a size false) b mb.stop :=
    sameOn_mpInit (by omega) (.inr (Nat.le_of_eq hsize))
  have hw := h.write hsameA hsameB
  have hkept : Kept (mpInit mb.mem a size false) n :=
    kept_mpInit (p := n) mb.mem hfit (show size < 2 ^ 64 by omega) rfl
  obtain ⟨hnodes, hnodup⟩ := hw.nodes_new (p := n) hfit (Nat.le_refl a) hsize
  have hlinked := hw.linked
  rw [List.map_cons, List.map_append] at hnodes hnodup
  rw [List.map_append] at hlinked
  obtain ⟨hlinked', honly⟩ := linked_between hnodes hnodup hlinked rfl rfl
  set mb₁ := linkNext { mb with mem := setSizeFreeNext (setSizeFreePrev (mpInit mb.mem a size false)
    (node n) (l₁.map node).getLast?) (node n) (l₂.map node).head? } (l₁.map node).getLast?
    (some (node n)) with hmb₁
  have hfields₁ : mb₁.start = mb.start ∧ mb₁.cap = mb.cap := by
    rw [hmb₁]
    cases (l₁.map node).getLast? <;> exact ⟨rfl, rfl⟩
  have hfields : (linkPrev mb₁ (l₂.map node).head? (some (node n))).start = mb.start ∧
      (linkPrev mb₁ (l₂.map node).head? (some (node n))).cap = mb.cap := by
    rw [← hfields₁.1, ← hfields₁.2]
    cases (l₂.map node).head? <;> exact ⟨rfl, rfl⟩
  have hsorted : (l₁ ++ n :: l₂).Pairwise fun p q => q.size ≤ p.size := by
    obtain ⟨hs₁, hs₂, hs₁₂⟩ := List.pairwise_append.mp h.sorted
    refine List.pairwise_append.mpr ⟨hs₁, List.pairwise_cons.mpr ⟨h₂, hs₂⟩, fun x hx y hy => ?_⟩
    rcases List.mem_cons.mp hy with rfl | hy
    · exact h₁ x hx
    · exact hs₁₂ x hx y hy
  rw [← List.map_cons, ← List.map_append] at hlinked'
  rw [← List.map_append, ← List.map_cons] at honly
  obtain ⟨hholed, honly'⟩ := hw.link_in hfit hkept rfl (Nat.le_refl a) hsize hfields rfl hlinked' honly
    hsorted
  refine ⟨_, n, l₁ ++ n :: l₂, ?_, hfields, hholed.close,
    ⟨rfl, rfl⟩, List.isChain_cons.mpr ⟨fun y hy => .inr (hhead y hy), hB⟩, ?_⟩
  · unfold mbShiftFree
    rw [hcond]
    rfl
  · exact (h.preserved_write hsameA hsameB).trans
      (hholed.preserved_links honly' fun q hq => preserved_free rfl hq)

/-- The new free piece is merged with the free piece behind it. -/
theorem shift_merge {size : Nat} (prevH nextH : Option Nat) (h : Holed mb A a b (q :: B) l)
    (hkind : q.kind = none) (hB : Coalesced (q :: B)) (hsize : a + size = b) (heven : size % 2 = 0)
    (hcond : (b < mb.stop && !mpAlloc mb.mem b) = true) :
    ∃ mb' n l', mbShiftFree mb a size b prevH nextH = some mb' ∧
      (mb'.start = mb.start ∧ mb'.cap = mb.cap) ∧ Laid mb' (A ++ n :: B) l' ∧
      (n.kind = none ∧ n.size = size + q.size) ∧ Coalesced (n :: B) ∧
      Preserved mb.mem mb'.mem (A ++ q :: B) (A ++ n :: B) := by
  have hq : q ∈ A ++ q :: B := List.mem_append_right _ List.mem_cons_self
  have hqfit := h.fit q hq
  have hqsize := (h.kept q hq).size hqfit
  have hqge := hqfit.size_ge
  have hqeven := hqfit.even
  have hqstop := q.stop_eq
  obtain ⟨hqaddr, -, hqback⟩ := h.back
  obtain ⟨l₁, l₂, rfl⟩ := List.append_of_mem (h.mem_listed.mpr ⟨hq, hkind⟩)
  obtain ⟨h₁, honly₁⟩ := h.remove List.perm_middle h.front (show a ≤ q.stop by omega) hqback
  obtain ⟨hstart₁, hcap₁⟩ := fields_remove mb (node q)
  generalize hmb₁ : mbRemoveFromSize mb (node q) = mb₁ at h₁ honly₁ hstart₁ hcap₁
  let n : Piece := ⟨a, size + q.size, none⟩
  have hnstop : n.stop = q.stop := by
    show a + (size + q.size) = q.stop
    omega
  have hnfit : Fit n := by
    refine ⟨?_, ?_⟩
    · show (size + q.size) % 2 = 0
      omega
    · show 34 ≤ size + q.size
      omega
  have hback := h₁.back.le
  have hrange := h₁.range.2
  have hsameA : Mem.SameOn mb₁.mem (mpInit mb₁.mem n.addr n.size false) mb₁.start a :=
    sameOn_mpInit (show 8 ≤ size + q.size by omega) (.inl (Nat.le_refl _))
  have hsameB : Mem.SameOn mb₁.mem (mpInit mb₁.mem n.addr n.size false) q.stop mb₁.stop :=
    sameOn_mpInit (show 8 ≤ size + q.size by omega) (.inr (Nat.le_of_eq hnstop))
  have hlt : n.size < 2 ^ 64 := by
    show size + q.size < 2 ^ 64
    omega
  have hkept := kept_mpInit (p := n) mb₁.mem hnfit hlt rfl
  obtain ⟨mb', l', hadd, hfields, hholed, honly⟩ :=
    (h₁.write hsameA hsameB).add hnfit hkept rfl (Nat.le_refl a) hnstop
  obtain ⟨hhead, hB'⟩ := List.isChain_cons.mp hB
  refine ⟨mb', n, l', ?_, ⟨hfields.1.trans hstart₁, hfields.2.trans hcap₁⟩, hholed.close,
    ⟨rfl, rfl⟩, List.isChain_cons.mpr ⟨fun y hy => .inr ?_, hB'⟩, ?_⟩
  · have hbody : mpBody b = node q := by
      rw [← hqaddr]
      rfl
    rw [hqaddr] at hqsize
    unfold mbShiftFree
    rw [if_pos hcond]
    simp only [hbody, hqsize, hmb₁]
    exact hadd
  · have hor := hhead y hy
    rw [hkind] at hor
    exact hor.resolve_left nofun
  · have hpres₁ := h₁.preserved_links honly₁ fun r hr => (preserved_free hkind hr).symm
    exact (hpres₁.trans (h₁.preserved_write hsameA hsameB)).trans
      (hholed.preserved_links honly fun r hr => preserved_free rfl hr)

/-- The free piece `n` in front of `B'` has `size` bytes, and those of the free piece at the front of
`B`, when there was one. -/
def Merged (size : Nat) (B : List Piece) (n : Piece) (B' : List Piece) : Prop :=
  B' = B ∧ n.size = size ∨ ∃ f, f.kind = none ∧ B = f :: B' ∧ n.size = size + f.size

theorem Merged.allocs {size : Nat} {n : Piece} (h : Merged size B n B') : allocs B' = allocs B := by
  rcases h with ⟨rfl, -⟩ | ⟨f, hkind, rfl, -⟩
  · rfl
  · exact (allocs_cons_free hkind).symm

/-- What is left of the hole becomes a free piece. -/
theorem mbShiftFree_eq {l₁ l₂ : List Piece} {size : Nat} (h : Holed mb A a b B (l₁ ++ l₂))
    (hB : Coalesced B) (hsize : a + size = b) (hfit : Fit ⟨a, size, none⟩)
    (h₁ : ∀ q ∈ l₁, size ≤ q.size) (h₂ : ∀ q ∈ l₂, q.size ≤ size) :
    ∃ mb' n B' l', mbShiftFree mb a size b (l₁.map node).getLast? (l₂.map node).head? = some mb' ∧
      (mb'.start = mb.start ∧ mb'.cap = mb.cap) ∧ Laid mb' (A ++ n :: B') l' ∧
      n.kind = none ∧ Merged size B n B' ∧ Coalesced (n :: B') ∧
      Preserved mb.mem mb'.mem (A ++ B) (A ++ n :: B') := by
  cases B with
  | nil =>
    have hstop : b = mb.stop := h.back
    obtain ⟨mb', n, l', heq, hfields, hlaid, ⟨hkind, hn⟩, hspec⟩ := shift_link h hB nofun hsize hfit h₁ h₂
      (by
        rw [decide_eq_false (by omega)]
        rfl)
    exact ⟨mb', n, [], l', heq, hfields, hlaid, hkind, .inl ⟨rfl, hn⟩, hspec⟩
  | cons q B =>
    have hq : q ∈ A ++ q :: B := List.mem_append_right _ List.mem_cons_self
    have halloc := (h.kept q hq).alloc (h.fit q hq)
    have hge := (h.fit q hq).size_ge
    have hstop := q.stop_eq
    obtain ⟨haddr, -, hback⟩ := h.back
    have hle := hback.le
    have hlt : (decide (b < mb.stop)) = true := decide_eq_true (by omega)
    rw [haddr] at halloc
    cases hkind : q.kind with
    | none =>
      obtain ⟨mb', n, l', heq, hfields, hlaid, ⟨hnkind, hn⟩, hspec⟩ := shift_merge (l₁.map node).getLast?
        (l₂.map node).head? h hkind hB hsize hfit.even (by
          rw [hlt, halloc, hkind]
          rfl)
      exact ⟨mb', n, B, l', heq, hfields, hlaid, hnkind, .inr ⟨q, hkind, rfl, hn⟩, hspec⟩
    | some v =>
      have hhead : ∀ r ∈ (q :: B).head?, r.kind.isSome = true := by
        intro r hr
        cases hr
        rw [hkind]
        rfl
      obtain ⟨mb', n, l', heq, hfields, hlaid, ⟨hnkind, hn⟩, hspec⟩ := shift_link h hB hhead hsize hfit h₁ h₂
        (by
          rw [hlt, halloc, hkind]
          rfl)
      exact ⟨mb', n, q :: B, l', heq, hfields, hlaid, hnkind, .inl ⟨rfl, hn⟩, hspec⟩

/-! ## `mb_try_shift` -/

/-- The allocated piece `q` of `v` is now `q'`, of the same size and with the same user bytes, and
the cell of `v`, which nobody had locked, has the new address. -/
structure Shifted (mb mb' : MemBlock) (adb adb' : AddrBook) (ps ps' : List Piece) (q q' : Piece)
    (v : Vaddr) (c : AddrTableCell) : Prop where
  mem : q ∈ ps
  kind : q.kind = some v
  kind' : q'.kind = some v
  size : q'.size = q.size
  entry : adb.entry v = some c
  free : c.lck.isFree = true
  changed : Changed mb mb' ps ps' (· = q) (· = q')
  bytes : ∀ i, i + mapPadding < q.size →
    mb'.mem.byte (mpToMapB q'.addr + i) = mb.mem.byte (mpToMapB q.addr + i)
  entries : ∀ w, adb'.entry w =
    if w = v then some { c with paddr := mpToMapB q'.addr } else adb.entry w

/-- The allocated piece behind the hole moves to its front, and the hole is behind it. -/
theorem Holed.slide (h : Holed mb A a q.stop B l) (hfit : Fit q) (haddr : a + q.size ≤ q.stop)
    (hv : v.tableIndex < 2 ^ 64 ∧ v.cellIndex < 2 ^ 64) :
    Holed { mb with mem := moved mb.mem a q.addr q.size v } (A ++ [⟨a, q.size, some v⟩]) (a + q.size)
        q.stop B l ∧
      mpNext (moved mb.mem a q.addr q.size v) a = a + q.size ∧
      Preserved mb.mem (moved mb.mem a q.addr q.size v) (A ++ B) (A ++ B) := by
  have hqsize := hfit.size_ge
  have hback := h.back.le
  have hrange := h.range.2
  have hfit' : Fit ⟨a, q.size, some v⟩ := ⟨hfit.even, hfit.large⟩
  have hkept : Kept (moved mb.mem a q.addr q.size v) ⟨a, q.size, some v⟩ :=
    kept_moved (p := ⟨a, q.size, some v⟩) hfit' rfl (show q.size < 2 ^ 64 by omega) hv
  have hsameA : Mem.SameOn mb.mem (moved mb.mem a q.addr q.size v) mb.start a :=
    sameOn_moved hfit.large (.inl (Nat.le_refl _))
  have hsameB : Mem.SameOn mb.mem (moved mb.mem a q.addr q.size v) q.stop mb.stop :=
    sameOn_moved hfit.large (.inr haddr)
  exact ⟨(h.write hsameA hsameB).fill hfit' hkept rfl rfl haddr, hkept.next hfit',
    h.preserved_write hsameA hsameB⟩

/-- The allocated pieces around the pair that is shifted. -/
theorem Block.mem_others (h : Block mb adb (A ++ p :: q :: B) l) (hpkind : p.kind = none) {r : Piece}
    (hr : r.kind.isSome = true) : r ∈ A ++ B ↔ r ∈ A ++ p :: q :: B ∧ ¬ r = q := by
  have hnodup := h.laid.nodup
  rw [List.append_nil, List.perm_middle.nodup_iff] at hnodup
  have hq : q ∉ A ++ B :=
    (List.nodup_cons.mp (List.perm_middle.nodup_iff.mp (List.nodup_cons.mp hnodup).2)).1
  rw [preserved_free hpkind hr, List.perm_middle.mem_iff, List.mem_cons]
  refine ⟨fun hmem => ⟨.inr hmem, ?_⟩, fun hmem => hmem.1.resolve_left hmem.2⟩
  rintro rfl
  exact hq hmem

/-- Every allocated piece has its entry, when the one of the piece that moved has its new address. -/
theorem Block.entries_moved {ps' : List Piece} {q' : Piece} {c : AddrTableCell} (h : Block mb adb ps l)
    (hq : q ∈ ps) (hkind : q.kind = some v) (hkind' : q'.kind = some v)
    (hentries : ∀ w, adb'.entry w =
      if w = v then some { c with paddr := mpToMapB q'.addr } else adb.entry w)
    (hpieces : ∀ r ∈ ps', r.kind.isSome = true → r = q' ∨ r ∈ ps ∧ ¬ r = q) :
    ∀ r ∈ ps', ∀ w, r.kind = some w → ∃ d, adb'.entry w = some d ∧ d.paddr = mpToMapB r.addr := by
  intro r hr w hw
  rcases hpieces r hr (by rw [hw]; rfl) with rfl | ⟨hrps, hne⟩
  · cases hkind'.symm.trans hw
    exact ⟨_, (hentries v).trans (if_pos rfl), rfl⟩
  · obtain ⟨d, hd, hdpaddr⟩ := h.entries r hrps w hw
    refine ⟨d, ?_, hdpaddr⟩
    rw [hentries, if_neg, hd]
    rintro rfl
    exact hne (h.vaddr_inj hrps hq hw hkind)

/-- The part of `mb_try_shift` behind the search. -/
theorem Block.shift {adb₁ : AddrBook} {c : AddrTableCell} (h : Block mb adb (A ++ p :: q :: B) l)
    (hpkind : p.kind = none) (hkind : q.kind = some v) (hentry : adb.entry v = some c)
    (hfree : c.lck.isFree = true) (hlocked : adb.Assigned adb₁ v { c with lck := c.lck.acqWrite t }) :
    ∃ mem₁ adb₂ adb₃ mb',
      adb₁.adbMoveP (mbRemoveFromSize mb (node p)).mem v (node p + 16) (q.size - mapPadding) =
        some (mem₁, adb₂) ∧
      adb₂.adbUnlock t v = some adb₃ ∧
      mbShiftFree { mbRemoveFromSize mb (node p) with mem := mpInit mem₁ p.addr q.size true }
        (mpNext (mpInit mem₁ p.addr q.size true) p.addr) p.size q.stop (sizeFreePrev mb.mem (node p))
        (sizeFreeNext mb.mem (node p)) = some mb' ∧
      ∃ q' ps' l', Block mb' adb₃ ps' l' ∧ Shifted mb mb' adb adb₃ (A ++ p :: q :: B) ps' q q' v c ∧
        q'.addr = p.addr ∧ ∃ n B', ps' = A ++ q' :: n :: B' ∧ n.kind = none ∧ Merged p.size B n B' := by
  have hp : p ∈ A ++ p :: q :: B := List.mem_append_right _ List.mem_cons_self
  have hq : q ∈ A ++ p :: q :: B :=
    List.mem_append_right _ (List.mem_cons_of_mem p List.mem_cons_self)
  have hpfit := h.laid.fit p (List.mem_append_left _ hp)
  have hqfit := h.laid.fit q (List.mem_append_left _ hq)
  have hpsize := hpfit.size_ge
  have hqsize := hqfit.size_ge
  have hpstop := p.stop_eq
  have hqstop := q.stop_eq
  obtain ⟨cell, hcell, hpaddr⟩ := h.entries q hq v hkind
  rw [hentry] at hcell
  cases hcell
  -- the free piece leaves the list, and the hole grows over the allocated piece
  have hlaid := h.laid
  have hat := Laid.at hlaid
  obtain ⟨l₁, l₂, rfl⟩ := List.append_of_mem (hat.mem_listed.mpr ⟨hp, hpkind⟩)
  obtain ⟨hprev, hnext⟩ : sizeFreePrev mb.mem (node p) = (l₁.map node).getLast? ∧
      sizeFreeNext mb.mem (node p) = (l₂.map node).head? := by
    have hlinked := hat.linked
    rw [List.map_append, List.map_cons] at hlinked
    exact hlinked.links
  obtain ⟨h₁, honly₁⟩ := hat.remove List.perm_middle hat.front (show p.addr ≤ p.stop by omega)
    (Tiles.cut hlaid.front).2.1
  have hpres₁ := h₁.preserved_links honly₁ fun r hr => (preserved_free hpkind hr).symm
  obtain ⟨hstart₁, hcap₁⟩ := fields_remove mb (node p)
  generalize mbRemoveFromSize mb (node p) = mb₁ at h₁ honly₁ hpres₁ hstart₁ hcap₁ ⊢
  obtain ⟨h₂, haddr⟩ := h₁.open_back (by rw [hkind]; rfl)
  -- the move
  obtain ⟨adb₂, hmove, hmoved⟩ := AddrBook.adbMoveP_eq hlocked.quiet hlocked.self mb₁.mem (node p + 16)
    (q.size - mapPadding)
  obtain ⟨adb₃, hunlock, hunlocked⟩ := AddrBook.adbUnlock_isSome hmoved.quiet hmoved.self
    ((RwLock.holds_acqWrite hfree).mpr rfl)
  have hbook := (hlocked.trans hmoved).trans hunlocked
  have hstores : mpInit (((mb₁.mem.move (node p + 16) c.paddr (q.size - mapPadding)).store64
      (node p + 16 - 16) v.tableIndex).store64 (node p + 16 - 8) v.cellIndex) p.addr q.size true =
      moved mb₁.mem p.addr q.addr q.size v := by
    rw [hpaddr]
    rfl
  let q' : Piece := ⟨p.addr, q.size, some v⟩
  obtain ⟨h₃, hnextq, hpres₂⟩ := h₂.slide hqfit (by omega)
    (h.quiet.lt (AddrBook.entry_eq_some.mp hentry).1)
  -- the rest of the hole
  obtain ⟨hA, hpB, hlast⟩ := List.isChain_append.mp h.coalesced
  obtain ⟨-, hB⟩ := List.isChain_cons.mp (List.isChain_cons.mp hpB).2
  obtain ⟨hs₁, hs₂, hs₁₂⟩ := List.pairwise_append.mp hat.sorted
  obtain ⟨mb', n, B', l', hshift, hfields, hlaid', hnkind, hmerged, hnB', hpres₃⟩ := mbShiftFree_eq h₃ hB
    (show q'.stop + p.size = q.stop by show p.addr + q.size + p.size = q.stop; omega)
    ⟨hpfit.even, hpfit.large⟩ (fun r hr => hs₁₂ r hr p List.mem_cons_self)
    (fun r hr => (List.pairwise_cons.mp hs₂).1 r hr)
  have hpieces : ∀ r : Piece, r.kind.isSome = true →
      (r ∈ A ++ [q'] ++ n :: B' ↔ r = q' ∨ r ∈ A ++ B) := by
    intro r hr
    rw [(hpres₃ r hr).1, List.append_assoc]
    exact List.perm_middle.mem_iff.trans List.mem_cons
  have hothers : ∀ r : Piece, r.kind.isSome = true →
      (r ∈ A ++ B ↔ r ∈ A ++ p :: q :: B ∧ ¬ r = q) := fun r hr => h.mem_others hpkind hr
  have hentries : ∀ w, adb₃.entry w =
      if w = v then some { c with paddr := mpToMapB p.addr } else adb.entry w := by
    intro w
    rw [hbook.entry, RwLock.release_acqWrite hfree]
    rfl
  have hbytes : ∀ r : Piece, r.kind.isSome = true → r ∈ A ++ B →
      Mem.SameOn mb.mem mb'.mem r.addr r.stop := by
    intro r hr hmem
    have hmem₃ : r ∈ A ++ [q'] ++ B := by
      rw [List.append_assoc]
      exact (List.mem_append.mp hmem).elim (List.mem_append_left _) fun hmem =>
        List.mem_append_right _ (List.mem_cons_of_mem q' hmem)
    exact (((hpres₁ r hr).2 ((hothers r hr).mp hmem).1).trans ((hpres₂ r hr).2 hmem)).trans
      ((hpres₃ r hr).2 hmem₃)
  refine ⟨_, adb₂, adb₃, mb', hmove, hunlock, ?_, q', A ++ [q'] ++ n :: B', l', ⟨hlaid', ?_, ?_, ?_⟩,
    ⟨hq, hkind, rfl, rfl, hentry, hfree, ⟨?_, ?_, ?_⟩, ?_, ?_⟩, rfl, n, B', ?_, hnkind, hmerged⟩
  · rw [hstores, hnextq, hprev, hnext]
    exact hshift
  · rw [List.append_assoc]
    refine List.isChain_append.mpr ⟨hA, List.isChain_cons.mpr ⟨fun y _ => .inl rfl, hnB'⟩, ?_⟩
    intro x _ y hy
    cases hy
    exact .inr rfl
  · exact h.entries_moved hq hkind (show q'.kind = some v from rfl) hentries fun r hr hsome =>
      ((hpieces r hsome).mp hr).imp_right (hothers r hsome).mp
  · exact hbook.quiet
  · exact ⟨hfields.1.trans hstart₁, hfields.2.trans hcap₁⟩
  · intro r hr
    rw [hpieces r hr, hothers r hr]
  · exact fun r hr hmem hne => hbytes r hr ((hothers r hr).mpr ⟨hmem, hne⟩)
  · intro i hi
    have hpad : mapPadding = 32 := rfl
    have hq' : q' ∈ A ++ [q'] ++ B := by
      rw [List.append_assoc]
      exact List.mem_append_right _ List.mem_cons_self
    have hkind' : q.kind.isSome = true := by
      rw [hkind]
      rfl
    have hinside : ∀ a, a ≤ mpToMapB a + i ∧ mpToMapB a + i < a + q.size := by
      intro a
      unfold mpToMapB mpBody
      omega
    calc mb'.mem.byte (mpToMapB p.addr + i)
        = (moved mb₁.mem p.addr q.addr q.size v).byte (mpToMapB p.addr + i) :=
          (hpres₃ q' rfl).2 hq' _ (hinside p.addr).1 (hinside p.addr).2
      _ = mb₁.mem.byte (mpToMapB q.addr + i) := byte_moved hi
      _ = mb.mem.byte (mpToMapB q.addr + i) :=
          (hpres₁ q hkind').2 hq _ (hinside q.addr).1 (hinside q.addr).2
  · exact hentries
  · rw [List.append_assoc]
    rfl

/-- An allocated piece lies behind a free one, at any distance. -/
def FreeBefore (ps : List Piece) : Prop :=
  ∃ p ∈ ps, ∃ q ∈ ps, p.kind = none ∧ q.kind.isSome = true ∧ p.addr < q.addr

/-- A free piece that is not the last one has an allocated piece right behind it. -/
theorem Block.behind_free (h : Block mb adb ps l) (hp : p ∈ ps) (hkind : p.kind = none)
    (hlt : p.stop < mb.stop) : ∃ A q B v, ps = A ++ p :: q :: B ∧ q.kind = some v := by
  obtain ⟨A, C, rfl⟩ := List.append_of_mem hp
  cases C with
  | nil =>
    obtain ⟨-, hstop, -⟩ := Tiles.cut h.laid.tiles
    exact absurd hstop (Nat.ne_of_lt hlt)
  | cons q B =>
    obtain ⟨-, hpB, -⟩ := List.isChain_append.mp h.coalesced
    have hor := (List.isChain_cons.mp hpB).1 q rfl
    rw [hkind] at hor
    obtain ⟨v, hv⟩ := Option.isSome_iff_exists.mp (hor.resolve_left nofun)
    exact ⟨A, q, B, v, rfl, hv⟩

theorem Block.freeBefore_iff (h : Block mb adb ps l) :
    FreeBefore ps ↔ ∃ p ∈ ps, p.kind = none ∧ p.stop < mb.stop := by
  constructor
  · rintro ⟨p, hp, q, hq, hpkind, -, hlt⟩
    have hqin := h.laid.tiles.mem hq
    have hqstop := q.stop_eq
    have hpstop := p.stop_eq
    refine ⟨p, hp, hpkind, ?_⟩
    rcases h.laid.tiles.apart hp hq with rfl | hle | hle <;> omega
  · rintro ⟨p, hp, hkind, hlt⟩
    obtain ⟨A, q, B, v, hps, hv⟩ := h.behind_free hp hkind hlt
    obtain ⟨hq, haddr, hsize⟩ := h.next_mem hps
    have hpsize := (h.laid.tiles.mem hp).2.1
    have hpstop := p.stop_eq
    exact ⟨p, hp, q, hq, hkind, by rw [hv]; rfl, by omega⟩

/-- The test in front of the search looks at the first free piece only, and is exact all the same. -/
theorem Block.needless_iff (h : Block mb adb ps l) {f : Nat} (hlist : mb.sizeFreeList = some f) :
    (sizeFreeNext mb.mem f = none ∧ mb.stop ≤ mpNext mb.mem (mpBToMp f)) ↔ ¬FreeBefore ps := by
  have hhead := h.laid.linked.head
  have hlinked := h.laid.linked
  have hlisted : ∀ r, r ∈ l ↔ r ∈ ps ∧ r.kind = none := fun r => by
    rw [h.laid.mem_listed, List.append_nil]
  have hnodup : l.Nodup := h.laid.listed.nodup_iff.mpr (h.laid.nodup.filter _)
  rw [h.freeBefore_iff]
  cases l with
  | nil =>
    rw [hlist] at hhead
    cases hhead
  | cons p l =>
    rw [hlist] at hhead
    cases hhead
    obtain ⟨hp, hkind⟩ := (hlisted p).mp List.mem_cons_self
    have hnext := (h.behind hp).1
    have hlink : sizeFreeNext mb.mem (node p) = (l.map node).head? :=
      (show Linked _ _ _ ([] ++ _ :: _) from hlinked).links.2
    rw [mpBToMp_node, hnext, hlink]
    have hpin := h.laid.tiles.mem hp
    cases l with
    | nil =>
      constructor
      · rintro ⟨-, hle⟩ ⟨r, hr, hrkind, hlt⟩
        have hrp := (hlisted r).mpr ⟨hr, hrkind⟩
        rw [List.mem_singleton.mp hrp] at hlt
        omega
      · intro hnone
        exact ⟨rfl, Nat.le_of_not_lt fun hlt => hnone ⟨p, hp, hkind, hlt⟩⟩
    | cons q l =>
      -- of two free pieces one does not end the block
      obtain ⟨hq, hqkind⟩ := (hlisted q).mp (List.mem_cons_of_mem p List.mem_cons_self)
      have hqin := h.laid.tiles.mem hq
      have hpstop := p.stop_eq
      have hqstop := q.stop_eq
      refine iff_of_false (fun hnext => nomatch hnext.1) fun hnone => ?_
      have hple : ¬p.stop < mb.stop := fun hlt => hnone ⟨p, hp, hkind, hlt⟩
      have hqle : ¬q.stop < mb.stop := fun hlt => hnone ⟨q, hq, hqkind, hlt⟩
      rcases h.laid.tiles.apart hp hq with rfl | hle | hle
      · exact (List.nodup_cons.mp hnodup).1 List.mem_cons_self
      · omega
      · omega

/-- **Shift.** A call returns. It was not needed, and no free piece lies before an allocated one; or all
the pieces to move are locked; or it has moved one of them, whose vaddr nobody had locked, down to where
the free piece in front of it was. -/
theorem mbTryShift_cases (h : Block mb adb ps l) (t : Tid) :
    (mbTryShift mb adb t = some (.notNeeded, mb, adb) ∧ ¬FreeBefore ps) ∨
    (mbTryShift mb adb t = some (.busy, mb, adb) ∧ FreeBefore ps ∧
      ∀ A p q B v, ps = A ++ p :: q :: B → p.kind = none → q.kind = some v → Locked adb v) ∨
    ∃ mb' adb' A p q q' B v c l' n B', mbTryShift mb adb t = some (.success, mb', adb') ∧
      ps = A ++ p :: q :: B ∧ p.kind = none ∧ Block mb' adb' (A ++ q' :: n :: B') l' ∧
      Shifted mb mb' adb adb' ps (A ++ q' :: n :: B') q q' v c ∧ q'.addr = p.addr ∧ n.kind = none ∧
      Merged p.size B n B' := by
  have hhead := h.laid.linked.head
  unfold mbTryShift
  cases hlist : mb.sizeFreeList with
  | none =>
    refine .inl ⟨rfl, ?_⟩
    rintro ⟨p, hp, -, -, hkind, -, -⟩
    have hpl := h.laid.mem_listed.mpr ⟨List.mem_append_left [] hp, hkind⟩
    rw [hlist] at hhead
    cases l with
    | nil => cases hpl
    | cons r l => cases hhead
  | some f =>
    have hneedless := h.needless_iff hlist
    simp only
    split
    next hcond => exact .inl ⟨rfl, hneedless.mp hcond⟩
    next hcond =>
      have hbefore : FreeBefore ps := by
        by_contra hnot
        exact hcond (hneedless.mpr hnot)
      rw [← hlist, hhead]
      rcases mbSeekShift_eq h t (List.nil_append l).symm (Nat.lt_succ_of_le h.laid.length_le) with
        ⟨hseek, hlocked⟩ | ⟨A, p, q, B, v, c, adb₁, rfl, hpkind, hkind, haddr, hseek, hentry, hfree, hlocked⟩
      · rw [hseek]
        refine .inr (.inl ⟨rfl, hbefore, fun A p q B v hps hpkind hv => hlocked p ?_ A q B v hps hv⟩)
        refine h.laid.mem_listed.mpr ⟨List.mem_append_left [] ?_, hpkind⟩
        rw [hps]
        exact List.mem_append_right _ List.mem_cons_self
      · have hp : p ∈ A ++ p :: q :: B := List.mem_append_right _ List.mem_cons_self
        have hq : q ∈ A ++ p :: q :: B :=
          List.mem_append_right _ (List.mem_cons_of_mem p List.mem_cons_self)
        have hpfit := h.laid.fit p (List.mem_append_left _ hp)
        have hqfit := h.laid.fit q (List.mem_append_left _ hq)
        have hpkept := h.laid.kept p (List.mem_append_left _ hp)
        have hqkept := h.laid.kept q (List.mem_append_left _ hq)
        obtain ⟨mem₁, adb₂, adb₃, mb', hmove, hunlock, hshift, q', ps', l', hblock, hshifted, haddr', n,
          B', rfl, hnkind, hmerged⟩ := h.shift hpkind hkind hentry hfree hlocked
        refine .inr (.inr ⟨mb', adb₃, A, p, q, q', B, v, c, l', n, B', ?_, rfl, hpkind, hblock, hshifted,
          haddr', hnkind, hmerged⟩)
        rw [hseek]
        simp only [mpBToMp_node, hpkept.next hpfit, hpkept.size hpfit, ← haddr, hqkept.size hqfit,
          hqkept.next hqfit, hmove, hunlock, hshift, Option.map_some]

/-- A call returns; it has changed nothing, or has moved one allocated piece, whose vaddr nobody had
locked, down. -/
theorem mbTryShift_eq (h : Block mb adb ps l) (t : Tid) :
    ∃ res mb' adb', mbTryShift mb adb t = some (res, mb', adb') ∧
      (mb' = mb ∧ adb' = adb ∨
        ∃ q q' v c ps' l', Block mb' adb' ps' l' ∧ Shifted mb mb' adb adb' ps ps' q q' v c) := by
  rcases mbTryShift_cases h t with ⟨heq, -⟩ | ⟨heq, -⟩ |
    ⟨mb', adb', A, p, q, q', B, v, c, l', n, B', heq, -, -, hblock, hshifted, -⟩
  · exact ⟨_, _, _, heq, .inl ⟨rfl, rfl⟩⟩
  · exact ⟨_, _, _, heq, .inl ⟨rfl, rfl⟩⟩
  · exact ⟨_, _, _, heq, .inr ⟨q, q', v, c, _, l', hblock, hshifted⟩⟩

end Chvm.Mb
