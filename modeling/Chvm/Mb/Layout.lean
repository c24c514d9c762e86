import Mathlib.Data.List.Nodup
import Chvm.Mb.Links

/-!
# Pieces in memory

The pieces of a block tile it; `Kept` says what the memory holds for one of them. A call takes the
pieces it works on out of the layout, which leaves a hole whose bytes mean nothing, writes into the
hole, and fills it with new pieces. `Holed` is the layout with the hole.
-/

set_option autoImplicit false

namespace Chvm.Mb

open Chvm.Lib Chvm.Virt

/-! ## Tags -/

theorem tagSize_mpTag {size : Nat} (h : size % 2 = 0) (alloc : Bool) :
    tagSize (mpTag size alloc) = size := by
  unfold tagSize mpTag
  cases alloc <;> simp only [Bool.toNat_true, Bool.toNat_false] <;> omega

theorem tagAlloc_mpTag {size : Nat} (h : size % 2 = 0) (alloc : Bool) :
    tagAlloc (mpTag size alloc) = alloc := by
  unfold tagAlloc mpTag
  cases alloc
  · exact decide_eq_false (by simp only [Bool.toNat_false]; omega)
  · exact decide_eq_true (by simp only [Bool.toNat_true]; omega)

theorem mpTag_lt {size : Nat} (h : size % 2 = 0) (hlt : size < 2 ^ 64) (alloc : Bool) :
    mpTag size alloc < 2 ^ 64 := by
  unfold mpTag
  cases alloc <;> simp only [Bool.toNat_true, Bool.toNat_false] <;> omega

/-- A size that the code pads a request to. -/
theorem padNumBytes_fit (n : Nat) :
    padNumBytes n % 2 = 0 ∧ mpMinSize ≤ padNumBytes n ∧ padNumBytes n < 2 ^ 64 := by
  unfold padNumBytes roundNumBytes mpMinSize mapPadding mfpPadding mpPadding
  simp only
  split <;> split <;> omega

/-! ## A piece in memory -/

structure Fit (p : Piece) : Prop where
  even : p.size % 2 = 0
  large : mpMinSize ≤ p.size

/-- The tags of a piece, and the vaddr in an allocated one. -/
structure Kept (mem : Mem) (p : Piece) : Prop where
  header : mem.load64 p.addr = mpTag p.size p.kind.isSome
  footer : mem.load64 (p.stop - 8) = mpTag p.size p.kind.isSome
  vaddr : ∀ v, p.kind = some v → loadVaddr mem (mpBody p.addr) = v

variable {mem mem' : Mem} {p q : Piece}

theorem Fit.size_ge (h : Fit p) : 34 ≤ p.size := h.large

theorem Kept.size (h : Kept mem p) (hfit : Fit p) : mpSize mem p.addr = p.size := by
  rw [mpSize, h.header, tagSize_mpTag hfit.even]

theorem Kept.alloc (h : Kept mem p) (hfit : Fit p) : mpAlloc mem p.addr = p.kind.isSome := by
  rw [mpAlloc, h.header, tagAlloc_mpTag hfit.even]

theorem Kept.next (h : Kept mem p) (hfit : Fit p) : mpNext mem p.addr = p.stop := by
  rw [mpNext, h.size hfit]
  rfl

theorem Kept.prev (h : Kept mem p) (hfit : Fit p) : mpPrev mem p.stop = p.addr := by
  rw [mpPrev, mpPrevSize, h.footer, tagSize_mpTag hfit.even]
  exact Nat.add_sub_cancel ..

/-- A piece is where its words are: the tags, and the vaddr of an allocated one. -/
theorem Kept.congr (h : Kept mem p) (hheader : Mem.SameOn mem mem' p.addr (p.addr + 8))
    (hfooter : Mem.SameOn mem mem' (p.stop - 8) (p.stop - 8 + 8))
    (hvaddr : p.kind.isSome = true → Mem.SameOn mem mem' (p.addr + 8) (p.addr + 24)) :
    Kept mem' p where
  header := (Mem.load64_congr hheader).trans h.header
  footer := (Mem.load64_congr hfooter).trans h.footer
  vaddr v hv := by
    have hsame := hvaddr (by rw [hv]; rfl)
    rw [← h.vaddr v hv]
    unfold loadVaddr mpBody
    rw [Mem.load64_congr (hsame.sub (Nat.le_refl _) (by omega)),
      Mem.load64_congr (hsame.sub (by omega) (by omega))]

/-- A piece whose bytes are all the same is kept. -/
theorem Kept.of_sameOn (h : Kept mem p) (hfit : Fit p) (hsame : Mem.SameOn mem mem' p.addr p.stop) :
    Kept mem' p := by
  have hsize := hfit.size_ge
  have hstop := p.stop_eq
  exact h.congr (hsame.sub (Nat.le_refl _) (by omega)) (hsame.sub (by omega) (by omega))
    fun _ => hsame.sub (by omega) (by omega)

/-- The tags `mp_init` writes. -/
theorem tags_mpInit (mem : Mem) (hfit : Fit p) (hlt : p.size < 2 ^ 64) (alloc : Bool) :
    (mpInit mem p.addr p.size alloc).load64 p.addr = mpTag p.size alloc ∧
      (mpInit mem p.addr p.size alloc).load64 (p.stop - 8) = mpTag p.size alloc := by
  have hsize := hfit.size_ge
  have htag := mpTag_lt hfit.even hlt alloc
  unfold mpInit
  refine ⟨?_, Mem.load64_store64 htag⟩
  rw [Mem.load64_store64_ne (by omega), Mem.load64_store64 htag]

theorem kept_mpInit (mem : Mem) (hfit : Fit p) (hlt : p.size < 2 ^ 64) (hkind : p.kind = none) :
    Kept (mpInit mem p.addr p.size false) p := by
  obtain ⟨hheader, hfooter⟩ := tags_mpInit mem hfit hlt false
  refine ⟨?_, ?_, fun v hv => ?_⟩
  · rw [hheader, hkind]
    rfl
  · rw [hfooter, hkind]
    rfl
  · rw [hkind] at hv
    cases hv

/-- An allocated piece once its tags and then its vaddr are written. -/
theorem kept_storeVaddr {v : Vaddr} (hfit : Fit p) (hkind : p.kind = some v)
    (hheader : mem.load64 p.addr = mpTag p.size true)
    (hfooter : mem.load64 (p.stop - 8) = mpTag p.size true)
    (hv : v.tableIndex < 2 ^ 64 ∧ v.cellIndex < 2 ^ 64) :
    Kept (storeVaddr mem (mpBody p.addr) v) p := by
  have hsize := hfit.size_ge
  have hstop := p.stop_eq
  unfold storeVaddr mpBody
  refine ⟨?_, ?_, fun w hw => ?_⟩
  · rw [Mem.load64_store64_ne (by omega), Mem.load64_store64_ne (by omega), hheader, hkind]
    rfl
  · rw [Mem.load64_store64_ne (by omega), Mem.load64_store64_ne (by omega), hfooter, hkind]
    rfl
  · rw [hkind] at hw
    cases hw
    unfold loadVaddr mpBody
    rw [Mem.load64_store64_ne (by omega), Mem.load64_store64 hv.1, Mem.load64_store64 hv.2]

/-- `mp_init` writes its piece only. -/
theorem sameOn_mpInit {mp size c d : Nat} {alloc : Bool} (hsize : 8 ≤ size)
    (h : d ≤ mp ∨ mp + size ≤ c) : Mem.SameOn mem (mpInit mem mp size alloc) c d := by
  unfold mpInit
  exact (Mem.sameOn_store64 (by omega)).trans (Mem.sameOn_store64 (by omega))

theorem sameOn_storeVaddr {v : Vaddr} {mapH c d : Nat} (h : d ≤ mapH ∨ mapH + 16 ≤ c) :
    Mem.SameOn mem (storeVaddr mem mapH v) c d :=
  (Mem.sameOn_store64 (by omega)).trans (Mem.sameOn_store64 (by omega))

/-! ## The layout with a hole -/

/-- The pieces `A` in front of the hole `[a, b)` and `B` behind it, with `l`, their free ones, in
the size free list. -/
structure Holed (mb : MemBlock) (A : List Piece) (a b : Nat) (B l : List Piece) : Prop where
  range : 0 < mb.start ∧ mb.stop < 2 ^ 64
  front : Tiles mb.start A a
  hole : a ≤ b
  back : Tiles b B mb.stop
  fit : ∀ p ∈ A ++ B, Fit p
  kept : ∀ p ∈ A ++ B, Kept mb.mem p
  listed : l.Perm ((A ++ B).filter (·.kind.isNone))
  linked : Linked (sizeFreeNext mb.mem) (sizeFreePrev mb.mem) mb.sizeFreeList (l.map node)
  sorted : l.Pairwise fun p q => q.size ≤ p.size

variable {mb mb' : MemBlock} {A A' B B' l : List Piece} {a a' b b' : Nat}

theorem Holed.inside (h : Holed mb A a b B l) (hp : p ∈ A ++ B) :
    mb.start ≤ p.addr ∧ p.stop ≤ mb.stop := by
  have hle := h.front.le
  have hle' := h.back.le
  have hhole := h.hole
  rcases List.mem_append.mp hp with hp | hp
  · obtain ⟨hlow, -, hhigh⟩ := h.front.mem hp
    exact ⟨hlow, by omega⟩
  · obtain ⟨hlow, -, hhigh⟩ := h.back.mem hp
    exact ⟨by omega, hhigh⟩

/-- A piece is not in the hole. -/
theorem Holed.beside (h : Holed mb A a b B l) (hp : p ∈ A ++ B) : p.stop ≤ a ∨ b ≤ p.addr :=
  (List.mem_append.mp hp).imp (fun hp => (h.front.mem hp).2.2) fun hp => (h.back.mem hp).1

theorem Holed.apart (h : Holed mb A a b B l) (hp : p ∈ A ++ B) (hq : q ∈ A ++ B) :
    p = q ∨ p.stop ≤ q.addr ∨ q.stop ≤ p.addr := by
  have hhole := h.hole
  rcases List.mem_append.mp hp with hp | hp <;> rcases List.mem_append.mp hq with hq | hq
  · exact h.front.apart hp hq
  · have hlow := (h.front.mem hp).2.2
    have hhigh := (h.back.mem hq).1
    exact .inr (.inl (by omega))
  · have hlow := (h.front.mem hq).2.2
    have hhigh := (h.back.mem hp).1
    exact .inr (.inr (by omega))
  · exact h.back.apart hp hq

theorem Holed.mem_listed (h : Holed mb A a b B l) : p ∈ l ↔ p ∈ A ++ B ∧ p.kind = none := by
  rw [h.listed.mem_iff, List.mem_filter, Option.isNone_iff_eq_none]

theorem Holed.nodup (h : Holed mb A a b B l) : (A ++ B).Nodup := by
  refine List.nodup_append.mpr ⟨h.front.nodup, h.back.nodup, fun p hp q hq heq => ?_⟩
  obtain ⟨-, hsize, hstop⟩ := h.front.mem hp
  have hle := (h.back.mem hq).1
  have hhole := h.hole
  have hp' := p.stop_eq
  rw [heq] at hsize hstop hp'
  omega

/-- The nodes of pieces that are apart are apart. -/
theorem nodes_of_apart {ps : List Piece} (hfit : ∀ p ∈ ps, Fit p)
    (hrange : ∀ p ∈ ps, p.stop < 2 ^ 64)
    (hapart : ∀ p ∈ ps, ∀ q ∈ ps, p = q ∨ p.stop ≤ q.addr ∨ q.stop ≤ p.addr) :
    Nodes (ps.map node) := by
  constructor
  · intro f hf
    obtain ⟨p, hp, rfl⟩ := List.mem_map.mp hf
    have hsize := (hfit p hp).size_ge
    have hlt := hrange p hp
    have hstop := p.stop_eq
    unfold node mpBody
    omega
  · intro f hf g hg
    obtain ⟨p, hp, rfl⟩ := List.mem_map.mp hf
    obtain ⟨q, hq, rfl⟩ := List.mem_map.mp hg
    have hsize := (hfit p hp).size_ge
    have hsize' := (hfit q hq).size_ge
    have hstop := p.stop_eq
    have hstop' := q.stop_eq
    unfold Apart node mpBody
    rcases hapart p hp q hq with rfl | h | h
    · exact .inl rfl
    · exact .inr (.inl (by omega))
    · exact .inr (.inr (by omega))

theorem nodup_nodes {ps : List Piece} (hnodup : ps.Nodup) (hfit : ∀ p ∈ ps, Fit p)
    (hapart : ∀ p ∈ ps, ∀ q ∈ ps, p = q ∨ p.stop ≤ q.addr ∨ q.stop ≤ p.addr) :
    (ps.map node).Nodup := by
  refine hnodup.map_on fun p hp q hq heq => ?_
  have hsize := (hfit p hp).size_ge
  have hsize' := (hfit q hq).size_ge
  have hstop := p.stop_eq
  have hstop' := q.stop_eq
  unfold node mpBody at heq
  rcases hapart p hp q hq with rfl | h | h
  · rfl
  · omega
  · omega

/-! ### What changing links leaves alone -/

/-- The links of the pieces in the list are clear of `[x, y)`. -/
def Clear (l : List Piece) (x y : Nat) : Prop := ∀ q ∈ l, y ≤ q.addr + 8 ∨ q.addr + 24 ≤ x

theorem LinksOnly.sameOn {x y : Nat} (h : LinksOnly (l.map node) mem mem') (hclear : Clear l x y) :
    Mem.SameOn mem mem' x y := by
  intro z hx hy
  refine h z fun g hg => ?_
  obtain ⟨q, hq, rfl⟩ := List.mem_map.mp hg
  have hq := hclear q hq
  unfold node mpBody
  omega

/-- The tags of a piece, and all of an allocated one, are clear of the links of pieces that are
apart from it. -/
theorem Kept.of_links (hkept : Kept mem p) (hfit : Fit p) (h : LinksOnly (l.map node) mem mem')
    (hl : ∀ q ∈ l, Fit q ∧ q.kind = none ∧ (p = q ∨ p.stop ≤ q.addr ∨ q.stop ≤ p.addr)) :
    Kept mem' p := by
  have hsize := hfit.size_ge
  have hstop := p.stop_eq
  refine hkept.congr (h.sameOn fun q hq => ?_) (h.sameOn fun q hq => ?_)
    fun hsome => h.sameOn fun q hq => ?_ <;>
    obtain ⟨hfitq, hkind, hapart⟩ := hl q hq <;> have hsizeq := hfitq.size_ge <;>
    have hstopq := q.stop_eq
  · rcases hapart with rfl | h | h <;> omega
  · rcases hapart with rfl | h | h <;> omega
  · rcases hapart with rfl | h | h
    · rw [hkind] at hsome
      cases hsome
    · omega
    · omega

theorem Holed.links_facts (h : Holed mb A a b B l) (hp : p ∈ A ++ B) :
    ∀ q ∈ l, Fit q ∧ q.kind = none ∧ (p = q ∨ p.stop ≤ q.addr ∨ q.stop ≤ p.addr) := by
  intro q hq
  obtain ⟨hq, hkind⟩ := h.mem_listed.mp hq
  exact ⟨h.fit q hq, hkind, h.apart hp hq⟩

theorem Holed.clear_hole (h : Holed mb A a b B l) : Clear l a b := by
  intro q hq
  obtain ⟨hq, -⟩ := h.mem_listed.mp hq
  have hsize := (h.fit q hq).size_ge
  have hstop := q.stop_eq
  rcases h.beside hq with h | h <;> omega

/-- Changing links of the listed pieces leaves the hole and every allocated piece alone. -/
theorem Holed.clear_alloc (h : Holed mb A a b B l) (hp : p ∈ A ++ B) {v : Vaddr}
    (hkind : p.kind = some v) : Clear l p.addr p.stop := by
  intro q hq
  obtain ⟨hfit, hnone, hapart⟩ := h.links_facts hp q hq
  have hsize := hfit.size_ge
  have hstop := q.stop_eq
  rcases hapart with rfl | h | h
  · rw [hkind] at hnone
    cases hnone
  · omega
  · omega

theorem Holed.nodes (h : Holed mb A a b B l) {ps : List Piece} (hsub : ∀ p ∈ ps, p ∈ A ++ B) :
    Nodes (ps.map node) :=
  nodes_of_apart (fun p hp => h.fit p (hsub p hp))
    (fun p hp => Nat.lt_of_le_of_lt (h.inside (hsub p hp)).2 h.range.2)
    fun p hp q hq => h.apart (hsub p hp) (hsub q hq)

theorem Holed.nodup_listed (h : Holed mb A a b B l) : (l.map node).Nodup := by
  have hsub : ∀ p ∈ l, p ∈ A ++ B := fun p hp => (h.mem_listed.mp hp).1
  exact nodup_nodes (h.listed.nodup_iff.mpr (h.nodup.filter _)) (fun p hp => h.fit p (hsub p hp))
    fun p hp q hq => h.apart (hsub p hp) (hsub q hq)

/-- The pieces of a block are fewer than its bytes. -/
theorem Holed.length_le (h : Holed mb A a b B l) : l.length ≤ mb.cap := by
  have hfront := h.front.length_le fun p hp => (h.fit p (List.mem_append_left _ hp)).size_ge
  have hback := h.back.length_le fun p hp => (h.fit p (List.mem_append_right _ hp)).size_ge
  have hlisted := h.listed.length_eq
  have hfilter := List.length_filter_le (fun p : Piece => p.kind.isNone) (A ++ B)
  have hhole := h.hole
  rw [List.length_append] at hfilter
  unfold MemBlock.stop at hback
  omega

/-! ### Writing into the hole -/

/-- A write into the hole. -/
theorem Holed.write (h : Holed mb A a b B l) (hfront : Mem.SameOn mb.mem mem' mb.start a)
    (hback : Mem.SameOn mb.mem mem' b mb.stop) : Holed { mb with mem := mem' } A a b B l := by
  have hsame : ∀ p ∈ A ++ B, Mem.SameOn mb.mem mem' p.addr p.stop := by
    intro p hp
    rcases List.mem_append.mp hp with hp | hp
    · obtain ⟨hlow, -, hhigh⟩ := h.front.mem hp
      exact hfront.sub hlow hhigh
    · obtain ⟨hlow, -, hhigh⟩ := h.back.mem hp
      exact hback.sub hlow hhigh
  have hlink : ∀ f ∈ l.map node, Mem.SameOn mb.mem mem' f (f + 16) := by
    intro f hf
    obtain ⟨p, hp, rfl⟩ := List.mem_map.mp hf
    have hp := (h.mem_listed.mp hp).1
    have hsize := (h.fit p hp).size_ge
    have hstop := p.stop_eq
    exact (hsame p hp).sub (by unfold node mpBody; omega) (by unfold node mpBody; omega)
  refine ⟨h.range, h.front, h.hole, h.back, h.fit,
    fun p hp => (h.kept p hp).of_sameOn (h.fit p hp) (hsame p hp), h.listed, ?_, h.sorted⟩
  refine Seg.congr h.linked (fun f hf => ?_) fun f hf => ?_
  · unfold sizeFreeNext
    rw [Mem.load64_congr ((hlink f hf).sub (by omega) (by omega))]
  · unfold sizeFreePrev
    rw [Mem.load64_congr ((hlink f hf).sub (by omega) (by omega))]

/-! ### Taking pieces out and putting pieces in -/

/-- The same free pieces in another layout. -/
theorem Holed.reshape (h : Holed mb A a b B l)
    (hpieces : ∀ q ∈ A' ++ B', q ∈ A ++ B ∨ Fit q ∧ Kept mb.mem q)
    (hlisted : (A' ++ B').filter (·.kind.isNone) = (A ++ B).filter (·.kind.isNone))
    (hfront : Tiles mb.start A' a') (hhole : a' ≤ b') (hback : Tiles b' B' mb.stop) :
    Holed mb A' a' b' B' l where
  range := h.range
  front := hfront
  hole := hhole
  back := hback
  fit q hq := (hpieces q hq).elim (h.fit q) And.left
  kept q hq := (hpieces q hq).elim (h.kept q) And.right
  listed := hlisted ▸ h.listed
  linked := h.linked
  sorted := h.sorted

/-- The hole grows over the allocated piece behind it. -/
theorem Holed.open_back (h : Holed mb A a b (p :: B) l) (hkind : p.kind.isNone = false) :
    Holed mb A a p.stop B l ∧ p.addr = b := by
  obtain ⟨haddr, -, hback⟩ := h.back
  have hhole := h.hole
  have hstop := p.stop_eq
  refine ⟨h.reshape (fun q hq => .inl ?_) ?_ h.front (by omega) hback, haddr⟩
  · exact (List.mem_append.mp hq).elim (List.mem_append_left _) fun hq =>
      List.mem_append_right _ (List.mem_cons_of_mem p hq)
  · simp only [List.filter_append, List.filter_cons, hkind, Bool.false_eq_true, if_false]

/-- An allocated piece fills the front of the hole. -/
theorem Holed.fill (h : Holed mb A a b B l) (hfit : Fit p) (hkept : Kept mb.mem p)
    (hkind : p.kind.isNone = false) (haddr : p.addr = a) (hstop : p.stop ≤ b) :
    Holed mb (A ++ [p]) p.stop b B l := by
  have hsize := hfit.size_ge
  refine h.reshape (fun q hq => ?_) ?_ ((haddr ▸ h.front).join (by omega) rfl) hstop h.back
  · rw [List.append_assoc] at hq
    rcases List.mem_append.mp hq with hq | hq
    · exact .inl (List.mem_append_left _ hq)
    · rcases List.mem_cons.mp hq with rfl | hq
      · exact .inr ⟨hfit, hkept⟩
      · exact .inl (List.mem_append_right _ hq)
  · simp only [List.filter_append, List.filter_cons, hkind, Bool.false_eq_true, if_false,
      List.filter_nil, List.append_nil]

/-- An empty hole is anywhere. -/
theorem Holed.move (h : Holed mb A a a B l) (heq : A ++ B = A' ++ B')
    (hfront : Tiles mb.start A' a') (hback : Tiles a' B' mb.stop) : Holed mb A' a' a' B' l :=
  h.reshape (fun q hq => .inl (heq ▸ hq)) (by rw [heq]) hfront (Nat.le_refl _) hback

/-- The layout without a hole. -/
def Laid (mb : MemBlock) (ps l : List Piece) : Prop := Holed mb ps mb.stop mb.stop [] l

theorem Holed.close (h : Holed mb A a a B l) : Laid mb (A ++ B) l :=
  h.move (List.append_nil _).symm (tiles_append.mpr ⟨a, h.front, h.back⟩) rfl

theorem Laid.tiles (h : Laid mb A l) : Tiles mb.start A mb.stop := h.front

/-- A piece cut out of the layout. -/
theorem Laid.at (h : Laid mb (A ++ p :: B) l) : Holed mb A p.addr p.addr (p :: B) l :=
  Holed.move h (List.append_nil _) (Tiles.cut h.front).1
    ⟨rfl, (Tiles.cut h.front).2.2, (Tiles.cut h.front).2.1⟩

/-- The fields no store changes. -/
theorem fields_remove (mb : MemBlock) (f : Nat) :
    (mbRemoveFromSize mb f).start = mb.start ∧ (mbRemoveFromSize mb f).cap = mb.cap := by
  have hprev : ∀ (mb : MemBlock) (n q : Option Nat),
      (linkPrev mb n q).start = mb.start ∧ (linkPrev mb n q).cap = mb.cap := by
    intro mb n q
    cases n <;> exact ⟨rfl, rfl⟩
  have hnext : ∀ (mb : MemBlock) (n q : Option Nat),
      (linkNext mb n q).start = mb.start ∧ (linkNext mb n q).cap = mb.cap := by
    intro mb n q
    cases n <;> exact ⟨rfl, rfl⟩
  unfold mbRemoveFromSize
  rw [(hnext ..).1, (hnext ..).2, (hprev ..).1, (hprev ..).2]
  exact ⟨rfl, rfl⟩

/-- **Unlinking a free piece.** `mb_remove_from_size_unsafe` takes a free piece out of the list and
of the layout, wherever the hole then is. -/
theorem Holed.remove {l₁ l₂ : List Piece} (h : Holed mb A a b B (l₁ ++ p :: l₂))
    (hpieces : (A ++ B).Perm (p :: (A' ++ B'))) (hfront : Tiles mb.start A' a') (hhole : a' ≤ b')
    (hback : Tiles b' B' mb.stop) :
    Holed (mbRemoveFromSize mb (node p)) A' a' b' B' (l₁ ++ l₂) ∧
      LinksOnly ((l₁ ++ l₂).map node) mb.mem (mbRemoveFromSize mb (node p)).mem := by
  have hl : ∀ q ∈ l₁ ++ p :: l₂, q ∈ A ++ B := fun q hq => (h.mem_listed.mp hq).1
  have hnodes := h.nodes hl
  have hnodup := h.nodup_listed
  have hlinked := h.linked
  rw [List.map_append, List.map_cons] at hnodes hnodup hlinked
  obtain ⟨hlinked', honly⟩ := linked_remove hnodes hnodup hlinked
  rw [← List.map_append] at hlinked' honly
  obtain ⟨hstart, hcap⟩ := fields_remove mb (node p)
  have hstop : (mbRemoveFromSize mb (node p)).stop = mb.stop := by
    unfold MemBlock.stop
    rw [hstart, hcap]
  have hsub : ∀ q ∈ A' ++ B', q ∈ A ++ B := fun q hq =>
    hpieces.mem_iff.mpr (List.mem_cons_of_mem p hq)
  have hsub' : ∀ q ∈ l₁ ++ l₂, q ∈ l₁ ++ p :: l₂ := fun q hq =>
    (List.mem_append.mp hq).elim (List.mem_append_left _) fun hq =>
      List.mem_append_right _ (List.mem_cons_of_mem p hq)
  have hfree : p.kind.isNone = true := by
    rw [(h.mem_listed.mp (List.mem_append_right _ List.mem_cons_self)).2]
    rfl
  refine ⟨⟨?_, ?_, hhole, ?_, fun q hq => h.fit q (hsub q hq), fun q hq => ?_, ?_, hlinked', ?_⟩, honly⟩
  · rw [hstart, hstop]
    exact h.range
  · rw [hstart]
    exact hfront
  · rw [hstop]
    exact hback
  · exact (h.kept q (hsub q hq)).of_links (h.fit q (hsub q hq)) honly fun r hr =>
      h.links_facts (hsub q hq) r (hsub' r hr)
  · have hperm := (List.perm_middle.symm.trans h.listed).trans (hpieces.filter _)
    rw [List.filter_cons, hfree, if_pos rfl] at hperm
    exact hperm.cons_inv
  · have hsorted := h.sorted
    rw [List.pairwise_append] at hsorted ⊢
    obtain ⟨h₁, h₂, h₁₂⟩ := hsorted
    exact ⟨h₁, (List.pairwise_cons.mp h₂).2, fun x hx y hy => h₁₂ x hx y (List.mem_cons_of_mem p hy)⟩

/-- A piece at the end of the hole, with a layout around it. -/
theorem Holed.apart_new (h : Holed mb A a b B l) (hfit : Fit p) (haddr : a ≤ p.addr)
    (hstop : p.stop = b) : ∀ q ∈ A ++ B, q.stop ≤ p.addr ∨ p.stop ≤ q.addr := by
  intro q hq
  have hsize := hfit.size_ge
  have hstop' := p.stop_eq
  rcases h.beside hq with h | h
  · exact .inl (Nat.le_trans h haddr)
  · exact .inr (hstop ▸ h)

/-- The nodes of the free list and of a new free piece. -/
theorem Holed.nodes_new (h : Holed mb A a b B l) (hfit : Fit p) (haddr : a ≤ p.addr)
    (hstop : p.stop = b) : Nodes ((p :: l).map node) ∧ ((p :: l).map node).Nodup := by
  have hnew := h.apart_new hfit haddr hstop
  have hl : ∀ q ∈ l, q ∈ A ++ B := fun q hq => (h.mem_listed.mp hq).1
  have hback := h.back.le
  have hrange := h.range.2
  have hfits : ∀ q ∈ p :: l, Fit q := fun q hq => (List.mem_cons.mp hq).elim (fun heq => heq ▸ hfit)
    fun hq => h.fit q (hl q hq)
  have hstops : ∀ q ∈ p :: l, q.stop < 2 ^ 64 := fun q hq => (List.mem_cons.mp hq).elim
    (fun heq => by rw [heq]; omega) fun hq => Nat.lt_of_le_of_lt (h.inside (hl q hq)).2 hrange
  have haparts : ∀ x ∈ p :: l, ∀ y ∈ p :: l, x = y ∨ x.stop ≤ y.addr ∨ y.stop ≤ x.addr := by
    intro x hx y hy
    rcases List.mem_cons.mp hx with hxp | hxl <;> rcases List.mem_cons.mp hy with hyp | hyl
    · exact .inl (hxp.trans hyp.symm)
    · exact .inr (hxp ▸ (hnew y (hl y hyl)).symm)
    · exact .inr (hyp ▸ hnew x (hl x hxl))
    · exact h.apart (hl x hxl) (hl y hyl)
  have hnot : p ∉ l := by
    intro hp
    have hsize := hfit.size_ge
    have hstop' := p.stop_eq
    rcases hnew p (hl p hp) with h | h <;> omega
  exact ⟨nodes_of_apart hfits hstops haparts,
    nodup_nodes (List.nodup_cons.mpr ⟨hnot, h.listed.nodup_iff.mpr (h.nodup.filter _)⟩) hfits haparts⟩

/-- A new free piece at the end of the hole, once it is linked in. -/
theorem Holed.link_in {l₁ l₂ : List Piece} (h : Holed mb A a b B l) (hfit : Fit p)
    (hkept : Kept mb.mem p) (hkind : p.kind = none) (haddr : a ≤ p.addr) (hstop : p.stop = b)
    (hfields : mb'.start = mb.start ∧ mb'.cap = mb.cap) (hl : l = l₁ ++ l₂)
    (hlinked : Linked (sizeFreeNext mb'.mem) (sizeFreePrev mb'.mem) mb'.sizeFreeList
      ((l₁ ++ p :: l₂).map node))
    (honly : LinksOnly ((p :: l).map node) mb.mem mb'.mem)
    (hsorted : (l₁ ++ p :: l₂).Pairwise fun p q => q.size ≤ p.size) :
    Holed mb' A a p.addr (p :: B) (l₁ ++ p :: l₂) ∧
      LinksOnly ((l₁ ++ p :: l₂).map node) mb.mem mb'.mem := by
  have hnew := h.apart_new hfit haddr hstop
  have hstop' : mb'.stop = mb.stop := by
    unfold MemBlock.stop
    rw [hfields.1, hfields.2]
  have hpieces : ∀ q ∈ A ++ p :: B, q = p ∨ q ∈ A ++ B := by
    intro q hq
    rcases List.mem_append.mp hq with hq | hq
    · exact .inr (List.mem_append_left _ hq)
    · exact (List.mem_cons.mp hq).imp_right (List.mem_append_right _)
  have hlisted : ∀ q ∈ p :: l, Fit q ∧ q.kind = none ∧ (q = p ∨ q ∈ A ++ B) := by
    intro q hq
    rcases List.mem_cons.mp hq with rfl | hq
    · exact ⟨hfit, hkind, .inl rfl⟩
    · obtain ⟨hq, hnone⟩ := h.mem_listed.mp hq
      exact ⟨h.fit q hq, hnone, .inr hq⟩
  have hsize := hfit.size_ge
  refine ⟨⟨?_, ?_, haddr, ⟨rfl, by omega, ?_⟩, fun q hq => ?_, fun q hq => ?_, ?_, hlinked, hsorted⟩,
    honly.mono fun f hf => ?_⟩
  · rw [hstop', hfields.1]
    exact h.range
  · rw [hfields.1]
    exact h.front
  · rw [hstop', hstop]
    exact h.back
  · exact (hpieces q hq).elim (fun heq => heq ▸ hfit) (h.fit q)
  · rcases hpieces q hq with rfl | hq
    · refine hkept.of_links hfit honly fun r hr => ?_
      obtain ⟨hfitr, hnone, heq | hr⟩ := hlisted r hr
      · exact ⟨hfitr, hnone, .inl heq.symm⟩
      · exact ⟨hfitr, hnone, .inr (hnew r hr).symm⟩
    · refine (h.kept q hq).of_links (h.fit q hq) honly fun r hr => ?_
      obtain ⟨hfitr, hnone, heq | hr⟩ := hlisted r hr
      · exact ⟨hfitr, hnone, .inr (heq ▸ hnew q hq)⟩
      · exact ⟨hfitr, hnone, h.apart hq hr⟩
  · have hperm : (A ++ p :: B).Perm (p :: (A ++ B)) := List.perm_middle
    refine List.perm_middle.trans ((List.Perm.cons p (hl ▸ h.listed)).trans ?_)
    refine List.Perm.symm ((hperm.filter _).trans ?_)
    rw [List.filter_cons, hkind]
    exact List.Perm.refl _
  · have hmem : ∀ q, q ∈ p :: l → q ∈ l₁ ++ p :: l₂ := fun q hq =>
      List.perm_middle.mem_iff.mpr (hl ▸ hq)
    obtain ⟨q, hq, rfl⟩ := List.mem_map.mp hf
    exact List.mem_map_of_mem (hmem q hq)

/-- **Linking in a free piece.** `mb_add_to_size_unsafe` returns, and puts the piece at the end of
the hole into the layout and into the list. -/
theorem Holed.add (h : Holed mb A a b B l) (hfit : Fit p) (hkept : Kept mb.mem p)
    (hkind : p.kind = none) (haddr : a ≤ p.addr) (hstop : p.stop = b) :
    ∃ mb' l', mbAddToSize mb p.addr = some mb' ∧ (mb'.start = mb.start ∧ mb'.cap = mb.cap) ∧
      Holed mb' A a p.addr (p :: B) l' ∧ LinksOnly (l'.map node) mb.mem mb'.mem := by
  obtain ⟨hnodes, hnodup⟩ := h.nodes_new hfit haddr hstop
  have hsize : ∀ q ∈ p :: l, mpSize mb.mem q.addr = q.size := by
    intro q hq
    rcases List.mem_cons.mp hq with rfl | hq
    · exact hkept.size hfit
    · have hq := (h.mem_listed.mp hq).1
      exact (h.kept q hq).size (h.fit q hq)
  obtain ⟨mb', hadd, hstart, hcap, l₁, l₂, hcut, hlinked, honly⟩ :=
    linked_add hnodes hnodup h.linked hsize h.length_le
  refine ⟨mb', l₁ ++ p :: l₂, hadd, ⟨hstart, hcap⟩,
    h.link_in hfit hkept hkind haddr hstop ⟨hstart, hcap⟩ hcut.split hlinked honly ?_⟩
  -- the pieces in front of the cut are larger, those behind it are not
  have hsorted := h.sorted
  rw [hcut.split, List.pairwise_append] at hsorted
  obtain ⟨h₁, h₂, h₁₂⟩ := hsorted
  refine List.pairwise_append.mpr ⟨h₁, List.pairwise_cons.mpr ⟨fun q hq => ?_, h₂⟩, fun x hx y hy => ?_⟩
  · cases l₂ with
    | nil => cases hq
    | cons r l₂ =>
      have hr := hcut.smaller r rfl
      rcases List.mem_cons.mp hq with rfl | hq
      · exact hr
      · exact Nat.le_trans ((List.pairwise_cons.mp h₂).1 q hq) hr
  · rcases List.mem_cons.mp hy with rfl | hy
    · exact Nat.le_of_lt (hcut.larger x hx)
    · exact h₁₂ x hx y hy

end Chvm.Mb
