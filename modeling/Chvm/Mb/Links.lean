import Chvm.Lib.DList
import Chvm.Lib.Tiles
import Chvm.Mb.Block

/-!
# The size free list in memory

The links of the free list are words in the bodies of the free pieces. The nodes are apart, so a
store to one link changes no other, and the calls that unlink a node and that link one in are
edits of a linked list.
-/

set_option autoImplicit false

namespace Chvm.Mb

open Chvm.Lib Chvm.Virt

variable {mem mem' : Mem} {f g : Nat} {p : Option Nat}

/-- The links of two nodes are the same words or share no byte. -/
def Apart (f g : Nat) : Prop := f = g ∨ f + 16 ≤ g ∨ g + 16 ≤ f

/-- Nodes that can be told apart, at addresses a word can hold. -/
structure Nodes (l : List Nat) : Prop where
  range : ∀ f ∈ l, 0 < f ∧ f < 2 ^ 64
  apart : ∀ f ∈ l, ∀ g ∈ l, Apart f g

/-- A pointer that a word can hold. -/
def IsPtr (p : Option Nat) : Prop := ∀ q, p = some q → 0 < q ∧ q < 2 ^ 64

theorem isPtr_none : IsPtr none := nofun

theorem Nodes.isPtr {l : List Nat} (h : Nodes l) (hp : ∀ q, p = some q → q ∈ l) : IsPtr p :=
  fun q hq => h.range q (hp q hq)

theorem toPtr_getD (hp : IsPtr p) : toPtr (p.getD 0) = p ∧ p.getD 0 < 2 ^ 64 := by
  cases p with
  | none => exact ⟨rfl, Nat.two_pow_pos 64⟩
  | some q =>
    obtain ⟨hpos, hlt⟩ := hp q rfl
    exact ⟨if_neg (Nat.ne_of_gt hpos), hlt⟩

/-! ## What a store to a link changes -/

theorem prev_setPrev (h : Apart f g) (hp : IsPtr p) :
    sizeFreePrev (setSizeFreePrev mem f p) g = if f = g then p else sizeFreePrev mem g := by
  obtain ⟨hptr, hlt⟩ := toPtr_getD hp
  unfold sizeFreePrev setSizeFreePrev
  split
  next heq => rw [← heq, Mem.load64_store64 hlt, hptr]
  next hne =>
    rw [Mem.load64_store64_ne]
    rcases h with h | h | h <;> omega

theorem next_setPrev (h : Apart f g) : sizeFreeNext (setSizeFreePrev mem f p) g = sizeFreeNext mem g := by
  unfold sizeFreeNext setSizeFreePrev
  rw [Mem.load64_store64_ne]
  rcases h with h | h | h <;> omega

theorem next_setNext (h : Apart f g) (hp : IsPtr p) :
    sizeFreeNext (setSizeFreeNext mem f p) g = if f = g then p else sizeFreeNext mem g := by
  obtain ⟨hptr, hlt⟩ := toPtr_getD hp
  unfold sizeFreeNext setSizeFreeNext
  split
  next heq => rw [← heq, Mem.load64_store64 hlt, hptr]
  next hne =>
    rw [Mem.load64_store64_ne]
    rcases h with h | h | h <;> omega

theorem prev_setNext (h : Apart f g) : sizeFreePrev (setSizeFreeNext mem f p) g = sizeFreePrev mem g := by
  unfold sizeFreePrev setSizeFreeNext
  rw [Mem.load64_store64_ne]
  rcases h with h | h | h <;> omega

/-- Nothing but link words of the nodes differs. -/
def LinksOnly (l : List Nat) (mem mem' : Mem) : Prop :=
  ∀ x, (∀ g ∈ l, ¬(g ≤ x ∧ x < g + 16)) → mem'.byte x = mem.byte x

theorem LinksOnly.trans {l : List Nat} {mem'' : Mem} (h : LinksOnly l mem mem')
    (h' : LinksOnly l mem' mem'') : LinksOnly l mem mem'' :=
  fun x hx => (h' x hx).trans (h x hx)

theorem LinksOnly.mono {l l' : List Nat} (h : LinksOnly l mem mem') (hsub : ∀ f ∈ l, f ∈ l') :
    LinksOnly l' mem mem' :=
  fun x hx => h x fun g hg => hx g (hsub g hg)

theorem linksOnly_refl (l : List Nat) (mem : Mem) : LinksOnly l mem mem := fun _ _ => rfl

theorem linksOnly_setPrev {l : List Nat} (hf : f ∈ l) : LinksOnly l mem (setSizeFreePrev mem f p) :=
  fun x hx => Mem.sameOn_store64 (c := x) (d := x + 1) (by have := hx f hf; omega) x (Nat.le_refl x)
    (Nat.lt_succ_self x)

theorem linksOnly_setNext {l : List Nat} (hf : f ∈ l) : LinksOnly l mem (setSizeFreeNext mem f p) :=
  fun x hx => Mem.sameOn_store64 (c := x) (d := x + 1) (by have := hx f hf; omega) x (Nat.le_refl x)
    (Nat.lt_succ_self x)

/-! ## Assignments through pointers -/

variable {mb : MemBlock} {l : List Nat} {n : Option Nat}

/-- `linkPrev` changes one back link of the nodes. -/
theorem linkPrev_links (mb : MemBlock) (hnodes : Nodes l) (hn : ∀ q, n = some q → q ∈ l) (hp : IsPtr p) :
    (∀ g ∈ l, sizeFreePrev (linkPrev mb n p).mem g =
      if n = some g then p else sizeFreePrev mb.mem g) ∧
    (∀ g ∈ l, sizeFreeNext (linkPrev mb n p).mem g = sizeFreeNext mb.mem g) ∧
    (linkPrev mb n p).sizeFreeList = mb.sizeFreeList := by
  cases n with
  | none => exact ⟨fun g _ => by rw [if_neg nofun]; rfl, fun g _ => rfl, rfl⟩
  | some q =>
    have hapart := hnodes.apart q (hn q rfl)
    refine ⟨fun g hg => (prev_setPrev (hapart g hg) hp).trans ?_,
      fun g hg => next_setPrev (hapart g hg), rfl⟩
    exact if_congr Option.some_inj.symm rfl rfl

/-- `linkNext` changes one forward link of the nodes, or the head. -/
theorem linkNext_links (mb : MemBlock) (hnodes : Nodes l) (hp : ∀ q, p = some q → q ∈ l) (hn : IsPtr n) :
    (∀ g ∈ l, sizeFreeNext (linkNext mb p n).mem g =
      if p = some g then n else sizeFreeNext mb.mem g) ∧
    (∀ g ∈ l, sizeFreePrev (linkNext mb p n).mem g = sizeFreePrev mb.mem g) ∧
    (linkNext mb p n).sizeFreeList = if p = none then n else mb.sizeFreeList := by
  cases p with
  | none => exact ⟨fun g _ => by rw [if_neg nofun]; rfl, fun g _ => rfl, rfl⟩
  | some q =>
    have hapart := hnodes.apart q (hp q rfl)
    refine ⟨fun g hg => (next_setNext (hapart g hg) hn).trans ?_,
      fun g hg => prev_setNext (hapart g hg), rfl⟩
    exact if_congr Option.some_inj.symm rfl rfl

theorem linksOnly_linkPrev (mb : MemBlock) (hn : ∀ q, n = some q → q ∈ l) :
    LinksOnly l mb.mem (linkPrev mb n p).mem := by
  cases n with
  | none => exact linksOnly_refl l mb.mem
  | some q => exact linksOnly_setPrev (hn q rfl)

theorem linksOnly_linkNext (mb : MemBlock) (hp : ∀ q, p = some q → q ∈ l) :
    LinksOnly l mb.mem (linkNext mb p n).mem := by
  cases p with
  | none => exact linksOnly_refl l mb.mem
  | some q => exact linksOnly_setNext (hp q rfl)

/-! ## Unlinking -/

/-- `mb_remove_from_size_unsafe` takes its node out of the list and changes only links. -/
theorem linked_remove {l₁ l₂ : List Nat} (hnodes : Nodes (l₁ ++ f :: l₂))
    (hnodup : (l₁ ++ f :: l₂).Nodup)
    (hlinked : Linked (sizeFreeNext mb.mem) (sizeFreePrev mb.mem) mb.sizeFreeList (l₁ ++ f :: l₂)) :
    Linked (sizeFreeNext (mbRemoveFromSize mb f).mem) (sizeFreePrev (mbRemoveFromSize mb f).mem)
      (mbRemoveFromSize mb f).sizeFreeList (l₁ ++ l₂) ∧
    LinksOnly (l₁ ++ l₂) mb.mem (mbRemoveFromSize mb f).mem := by
  obtain ⟨hnodup₁, hnodup₂, hdisj⟩ := List.nodup_append.mp hnodup
  obtain ⟨hnot₂, hnodup₂⟩ := List.nodup_cons.mp hnodup₂
  have hmid : f ∈ l₁ ++ f :: l₂ := List.mem_append_right _ List.mem_cons_self
  have hin₁ : ∀ g ∈ l₁, g ∈ l₁ ++ f :: l₂ := fun g hg => List.mem_append_left _ hg
  have hin₂ : ∀ g ∈ l₂, g ∈ l₁ ++ f :: l₂ := fun g hg =>
    List.mem_append_right _ (List.mem_cons_of_mem _ hg)
  have hlast : ∀ q, l₁.getLast? = some q → q ∈ l₁ := fun q hq => List.mem_of_getLast? hq
  have hhead : ∀ q, l₂.head? = some q → q ∈ l₂ := fun q hq => List.mem_of_mem_head? hq
  have hptr₁ : IsPtr l₁.getLast? := hnodes.isPtr fun q hq => hin₁ q (hlast q hq)
  have hptr₂ : IsPtr l₂.head? := hnodes.isPtr fun q hq => hin₂ q (hhead q hq)
  obtain ⟨hprev, hnext⟩ := hlinked.links
  -- the back link of the node behind, then the forward link of the node in front
  set mb₁ := linkPrev mb l₂.head? l₁.getLast? with hmb₁
  obtain ⟨hprev₁, hnext₁, hhead₁⟩ := linkPrev_links mb hnodes
    (fun q hq => hin₂ q (hhead q hq)) hptr₁
  have hprevf : sizeFreePrev mb₁.mem f = l₁.getLast? := by
    rw [hprev₁ f hmid, hprev, if_neg fun heq => hnot₂ (hhead f heq)]
  have hnextf : sizeFreeNext mb₁.mem f = l₂.head? := by rw [hnext₁ f hmid, hnext]
  have heq : mbRemoveFromSize mb f = linkNext mb₁ l₁.getLast? l₂.head? := by
    unfold mbRemoveFromSize
    simp only [hnext, hprev, ← hmb₁, hprevf, hnextf]
  obtain ⟨hnext₂, hprev₂, hhead₂⟩ := linkNext_links mb₁ hnodes
    (fun q hq => hin₁ q (hlast q hq)) hptr₂
  rw [heq]
  refine ⟨Linked.splice l₁ [f] [] l₂ (m := l₂.head?) hlinked hnodup₁ hnodup₂ ?_ (fun g hg => ?_)
    (fun g hg => ?_) rfl (fun g hg => ?_) fun g hg => ?_, ?_⟩
  · rw [hhead₂, hhead₁]
    exact if_congr List.getLast?_eq_none_iff rfl rfl
  · rw [hnext₂ g (hin₁ g hg), hnext₁ g (hin₁ g hg)]
  · rw [hprev₂ g (hin₁ g hg), hprev₁ g (hin₁ g hg), if_neg]
    exact fun heq => hdisj g hg g (List.mem_cons_of_mem _ (hhead g heq)) rfl
  · rw [hnext₂ g (hin₂ g hg), hnext₁ g (hin₂ g hg), if_neg]
    exact fun heq => hdisj g (hlast g heq) g (List.mem_cons_of_mem _ hg) rfl
  · rw [hprev₂ g (hin₂ g hg), hprev₁ g (hin₂ g hg)]
    rfl
  · exact (linksOnly_linkPrev mb fun q hq => List.mem_append_right _ (hhead q hq)).trans
      (linksOnly_linkNext mb₁ fun q hq => List.mem_append_left _ (hlast q hq))

/-- The pop off the front is an unlinking of the first node. -/
theorem popFront_eq_remove (hlinked : Linked (sizeFreeNext mb.mem) (sizeFreePrev mb.mem)
    mb.sizeFreeList (f :: l)) (hnodes : Nodes (f :: l)) (hnodup : (f :: l).Nodup) :
    mbPopFront mb f = mbRemoveFromSize mb f := by
  have hfront : Linked (sizeFreeNext mb.mem) (sizeFreePrev mb.mem) mb.sizeFreeList ([] ++ f :: l) :=
    hlinked
  obtain ⟨hprev, hnext⟩ := hfront.links
  have hhead : ∀ q, l.head? = some q → q ∈ l := fun q hq => List.mem_of_mem_head? hq
  obtain ⟨hprev₁, hnext₁, -⟩ := linkPrev_links mb (n := l.head?) (p := none) hnodes
    (fun q hq => List.mem_cons_of_mem f (hhead q hq)) isPtr_none
  have hprevf := hprev₁ f List.mem_cons_self
  rw [if_neg fun heq => (List.nodup_cons.mp hnodup).1 (hhead f heq)] at hprevf
  unfold mbPopFront mbRemoveFromSize
  rw [List.getLast?_nil] at hprev
  simp only [hnext, hprev, hprevf, hnext₁ f List.mem_cons_self]
  cases l.head? <;> rfl

/-! ## Linking in -/

/-- A node is linked in between `l₁` and `l₂`. -/
theorem linked_insert (l₁ l₂ : List Nat) {head head' : Option Nat}
    (hnodup : (l₁ ++ l₂).Nodup)
    (hlinked : Linked (sizeFreeNext mem) (sizeFreePrev mem) head (l₁ ++ l₂))
    (hhead : head' = if l₁ = [] then some f else head)
    (hnext : ∀ g ∈ l₁ ++ l₂, sizeFreeNext mem' g =
      if l₁.getLast? = some g then some f else sizeFreeNext mem g)
    (hprev : ∀ g ∈ l₁ ++ l₂, sizeFreePrev mem' g =
      if l₂.head? = some g then some f else sizeFreePrev mem g)
    (hnextf : sizeFreeNext mem' f = l₂.head?) (hprevf : sizeFreePrev mem' f = l₁.getLast?) :
    Linked (sizeFreeNext mem') (sizeFreePrev mem') head' (l₁ ++ f :: l₂) := by
  obtain ⟨hnodup₁, hnodup₂, hdisj⟩ := List.nodup_append.mp hnodup
  refine Linked.splice l₁ [] [f] l₂ (m := some f) hlinked hnodup₁ hnodup₂ hhead
    (fun g hg => hnext g (List.mem_append_left _ hg)) (fun g hg => ?_) ⟨rfl, hprevf, hnextf⟩
    (fun g hg => ?_) fun g hg => hprev g (List.mem_append_right _ hg)
  · rw [hprev g (List.mem_append_left _ hg), if_neg]
    exact fun heq => hdisj g hg g (List.mem_of_mem_head? heq) rfl
  · rw [hnext g (List.mem_append_right _ hg), if_neg]
    exact fun heq => hdisj g (List.mem_of_getLast? heq) g hg rfl

/-- The stores that put a node in the place of another one, between `l₁` and `l₂`. -/
theorem linked_between {mb₁ : MemBlock} {l₁ l₂ : List Nat} (hnodes : Nodes (f :: (l₁ ++ l₂)))
    (hnodup : (f :: (l₁ ++ l₂)).Nodup)
    (hlinked : Linked (sizeFreeNext mb.mem) (sizeFreePrev mb.mem) mb.sizeFreeList (l₁ ++ l₂))
    (hmem : mem = setSizeFreeNext (setSizeFreePrev mb.mem f l₁.getLast?) f l₂.head?)
    (hmb₁ : mb₁ = linkNext { mb with mem := mem } l₁.getLast? (some f)) :
    Linked (sizeFreeNext (linkPrev mb₁ l₂.head? (some f)).mem)
      (sizeFreePrev (linkPrev mb₁ l₂.head? (some f)).mem)
      (linkPrev mb₁ l₂.head? (some f)).sizeFreeList (l₁ ++ f :: l₂) ∧
    LinksOnly (f :: (l₁ ++ l₂)) mb.mem (linkPrev mb₁ l₂.head? (some f)).mem := by
  obtain ⟨hnot, hnodup'⟩ := List.nodup_cons.mp hnodup
  have hf : f ∈ f :: (l₁ ++ l₂) := List.mem_cons_self
  have hin : ∀ x ∈ l₁ ++ l₂, x ∈ f :: (l₁ ++ l₂) := fun x hx => List.mem_cons_of_mem f hx
  have hptr : IsPtr (some f) := hnodes.isPtr fun q hq => by
    cases hq
    exact hf
  have hne : ∀ x ∈ l₁ ++ l₂, f ≠ x := fun x hx heq => hnot (heq ▸ hx)
  have hlast : ∀ q, l₁.getLast? = some q → q ∈ f :: (l₁ ++ l₂) := fun q hq =>
    hin q (List.mem_append_left _ (List.mem_of_getLast? hq))
  have hhead : ∀ q, l₂.head? = some q → q ∈ f :: (l₁ ++ l₂) := fun q hq =>
    hin q (List.mem_append_right _ (List.mem_of_mem_head? hq))
  have hnext : ∀ x ∈ f :: (l₁ ++ l₂), sizeFreeNext mem x =
      if f = x then l₂.head? else sizeFreeNext mb.mem x := by
    intro x hx
    rw [hmem, next_setNext (hnodes.apart f hf x hx) (hnodes.isPtr hhead),
      next_setPrev (hnodes.apart f hf x hx)]
  have hprev : ∀ x ∈ f :: (l₁ ++ l₂), sizeFreePrev mem x =
      if f = x then l₁.getLast? else sizeFreePrev mb.mem x := by
    intro x hx
    rw [hmem, prev_setNext (hnodes.apart f hf x hx),
      prev_setPrev (hnodes.apart f hf x hx) (hnodes.isPtr hlast)]
  obtain ⟨hnext₁, hprev₁, hhead₁⟩ := linkNext_links { mb with mem := mem } hnodes hlast hptr
  have honly₁ := linksOnly_linkNext { mb with mem := mem } (n := some f) hlast
  rw [← hmb₁] at hnext₁ hprev₁ hhead₁ honly₁
  obtain ⟨hprev₂, hnext₂, hhead₂⟩ := linkPrev_links mb₁ hnodes hhead hptr
  have hlast_ne : l₁.getLast? ≠ some f := fun heq =>
    hne f (List.mem_append_left _ (List.mem_of_getLast? heq)) rfl
  have hhead_ne : l₂.head? ≠ some f := fun heq =>
    hne f (List.mem_append_right _ (List.mem_of_mem_head? heq)) rfl
  refine ⟨linked_insert l₁ l₂ hnodup' hlinked ?_ (fun x hx => ?_) (fun x hx => ?_) ?_ ?_, ?_⟩
  · rw [hhead₂, hhead₁]
    exact if_congr List.getLast?_eq_none_iff rfl rfl
  · rw [hnext₂ x (hin x hx), hnext₁ x (hin x hx), hnext x (hin x hx), if_neg (hne x hx)]
  · rw [hprev₂ x (hin x hx), hprev₁ x (hin x hx), hprev x (hin x hx), if_neg (hne x hx)]
  · rw [hnext₂ f hf, hnext₁ f hf, if_neg hlast_ne, hnext f hf, if_pos rfl]
  · rw [hprev₂ f hf, if_neg hhead_ne, hprev₁ f hf, hprev f hf, if_pos rfl]
  · have honly : LinksOnly (f :: (l₁ ++ l₂)) mb.mem mem :=
      hmem ▸ (linksOnly_setPrev hf).trans (linksOnly_setNext hf)
    exact (honly.trans honly₁).trans (linksOnly_linkPrev mb₁ hhead)

/-- A piece; its kind is the vaddr it is allocated to. -/
abbrev Piece := Span (Option Vaddr)

/-- A piece as a node of the free list. -/
def node (p : Piece) : Nat := mpBody p.addr

@[simp] theorem mpBToMp_node (p : Piece) : mpBToMp (node p) = p.addr := Nat.add_sub_cancel ..

/-- Where the search of `mb_add_to_size_unsafe` ends: the list is cut in front of the first piece
that is not larger. -/
structure Cut (size : Nat) (l l₁ l₂ : List Piece) : Prop where
  split : l = l₁ ++ l₂
  larger : ∀ p ∈ l₁, size < p.size
  smaller : ∀ p, l₂.head? = some p → p.size ≤ size

/-- With the pieces of the list as fuel the search ends at the cut: behind the last piece when all
are larger, or in front of the first that is not. -/
theorem mbSeekSize_eq (size : Nat) {ps front back : List Piece} {q : Piece} {fuel : Nat}
    {head : Option Nat} (hps : ps = front ++ q :: back)
    (hlinked : Linked (sizeFreeNext mem) (sizeFreePrev mem) head (ps.map node))
    (hsize : ∀ p ∈ ps, mpSize mem p.addr = p.size) (hfront : ∀ p ∈ front, size < p.size)
    (hfuel : back.length < fuel) :
    (∃ r, mbSeekSize mem size fuel (node q) = some (node r, false) ∧ Cut size ps ps [] ∧
      ps.getLast? = some r) ∨
    ∃ l₁ r l₂, mbSeekSize mem size fuel (node q) = some (node r, true) ∧
      Cut size ps l₁ (r :: l₂) := by
  induction back generalizing front q fuel with
  | nil =>
    obtain ⟨fuel, rfl⟩ := Nat.exists_eq_succ_of_ne_zero (Nat.ne_zero_of_lt hfuel)
    have hq : q ∈ ps := hps ▸ List.mem_append_right _ List.mem_cons_self
    have hnext : sizeFreeNext mem (node q) = none := by
      rw [hps, List.map_append] at hlinked
      exact hlinked.links.2
    simp only [mbSeekSize, mpBToMp_node, hsize q hq, hnext]
    by_cases hbig : size < q.size
    · rw [if_pos hbig]
      refine .inl ⟨q, rfl, ⟨(List.append_nil _).symm, fun p hp => ?_, nofun⟩, ?_⟩
      · rw [hps] at hp
        rcases List.mem_append.mp hp with hp | hp
        · exact hfront p hp
        · exact List.mem_singleton.mp hp ▸ hbig
      · rw [hps, List.getLast?_concat]
    · rw [if_neg hbig]
      refine .inr ⟨front, q, [], rfl, hps, hfront, fun p hp => ?_⟩
      cases hp
      exact Nat.le_of_not_lt hbig
  | cons b back ih =>
    obtain ⟨fuel, rfl⟩ := Nat.exists_eq_succ_of_ne_zero (Nat.ne_zero_of_lt hfuel)
    have hq : q ∈ ps := hps ▸ List.mem_append_right _ List.mem_cons_self
    have hnext : sizeFreeNext mem (node q) = some (node b) := by
      rw [hps, List.map_append] at hlinked
      exact hlinked.links.2
    simp only [mbSeekSize, mpBToMp_node, hsize q hq, hnext]
    by_cases hbig : size < q.size
    · rw [if_pos hbig]
      refine ih (?_ : ps = (front ++ [q]) ++ b :: back) (fun p hp => ?_)
        (Nat.lt_of_succ_lt_succ hfuel)
      · rw [hps, List.append_assoc]
        rfl
      · rcases List.mem_append.mp hp with hp | hp
        · exact hfront p hp
        · exact List.mem_singleton.mp hp ▸ hbig
    · rw [if_neg hbig]
      refine .inr ⟨front, q, b :: back, rfl, hps, hfront, fun p hp => ?_⟩
      cases hp
      exact Nat.le_of_not_lt hbig

/-- The stores of the only node. -/
theorem linked_singleton (hnodes : Nodes [f])
    (hmem : mem' = setSizeFreeNext (setSizeFreePrev mem f none) f none) :
    Linked (sizeFreeNext mem') (sizeFreePrev mem') (some f) [f] ∧ LinksOnly [f] mem mem' := by
  have hf : f ∈ [f] := List.mem_singleton_self f
  have hff := hnodes.apart f hf f hf
  have hnext : sizeFreeNext mem' f = none := by
    rw [hmem, next_setNext hff isPtr_none, if_pos rfl]
  have hprev : sizeFreePrev mem' f = none := by
    rw [hmem, prev_setNext hff, prev_setPrev hff isPtr_none, if_pos rfl]
  have honly : LinksOnly [f] mem mem' := hmem ▸ (linksOnly_setPrev hf).trans (linksOnly_setNext hf)
  exact ⟨⟨rfl, hprev, hnext⟩, honly⟩

/-- The stores behind the last node. -/
theorem linked_append (hnodes : Nodes (f :: l)) (hnodup : (f :: l).Nodup) {head : Option Nat}
    (hlinked : Linked (sizeFreeNext mem) (sizeFreePrev mem) head l) (hlast : l.getLast? = some g)
    (hmem : mem' = setSizeFreeNext (setSizeFreePrev (setSizeFreeNext mem g (some f)) f (some g)) f
      none) :
    Linked (sizeFreeNext mem') (sizeFreePrev mem') head (l ++ [f]) ∧ LinksOnly (f :: l) mem mem' := by
  subst hmem
  obtain ⟨hnot, hnodup'⟩ := List.nodup_cons.mp hnodup
  have hf : f ∈ f :: l := List.mem_cons_self
  have hin : ∀ x ∈ l, x ∈ f :: l := fun x hx => List.mem_cons_of_mem f hx
  have hg := List.mem_of_getLast? hlast
  have hptr : ∀ x ∈ f :: l, IsPtr (some x) := fun x hx => hnodes.isPtr fun q hq => by
    cases hq
    exact hx
  have hne : ∀ x ∈ l, f ≠ x := fun x hx heq => hnot (heq ▸ hx)
  refine ⟨linked_insert l [] (by rwa [List.append_nil]) (by rwa [List.append_nil]) ?_
    (fun x hx => ?_) (fun x hx => ?_) ?_ ?_, ?_⟩
  · rw [if_neg (List.ne_nil_of_mem hg)]
  · rw [List.append_nil] at hx
    rw [next_setNext (hnodes.apart f hf x (hin x hx)) isPtr_none, if_neg (hne x hx),
      next_setPrev (hnodes.apart f hf x (hin x hx)),
      next_setNext (hnodes.apart g (hin g hg) x (hin x hx)) (hptr f hf), hlast]
    exact if_congr Option.some_inj.symm rfl rfl
  · rw [List.append_nil] at hx
    rw [prev_setNext (hnodes.apart f hf x (hin x hx)),
      prev_setPrev (hnodes.apart f hf x (hin x hx)) (hptr g (hin g hg)), if_neg (hne x hx),
      prev_setNext (hnodes.apart g (hin g hg) x (hin x hx)), List.head?_nil, if_neg nofun]
  · rw [next_setNext (hnodes.apart f hf f hf) isPtr_none, if_pos rfl, List.head?_nil]
  · rw [prev_setNext (hnodes.apart f hf f hf),
      prev_setPrev (hnodes.apart f hf f hf) (hptr g (hin g hg)), if_pos rfl, hlast]
  · exact ((linksOnly_setNext (hin g hg)).trans (linksOnly_setPrev hf)).trans (linksOnly_setNext hf)

/-- The stores in front of a node. -/
theorem linked_before {mb₁ : MemBlock} {mem₁ mem₂ mem₃ : Mem} {l₁ l₂ : List Nat}
    (hnodes : Nodes (f :: (l₁ ++ g :: l₂))) (hnodup : (f :: (l₁ ++ g :: l₂)).Nodup)
    (hlinked : Linked (sizeFreeNext mb.mem) (sizeFreePrev mb.mem) mb.sizeFreeList (l₁ ++ g :: l₂))
    (hmb₁ : mb₁ = linkNext mb (sizeFreePrev mb.mem g) (some f))
    (hmem₁ : mem₁ = setSizeFreeNext mb₁.mem f (some g))
    (hmem₂ : mem₂ = setSizeFreePrev mem₁ f (sizeFreePrev mem₁ g))
    (hmem₃ : mem₃ = setSizeFreePrev mem₂ g (some f)) :
    Linked (sizeFreeNext mem₃) (sizeFreePrev mem₃) mb₁.sizeFreeList (l₁ ++ f :: g :: l₂) ∧
      LinksOnly (f :: (l₁ ++ g :: l₂)) mb.mem mem₃ := by
  obtain ⟨hnot, hnodup'⟩ := List.nodup_cons.mp hnodup
  have hf : f ∈ f :: (l₁ ++ g :: l₂) := List.mem_cons_self
  have hin : ∀ x ∈ l₁ ++ g :: l₂, x ∈ f :: (l₁ ++ g :: l₂) := fun x hx => List.mem_cons_of_mem f hx
  have hg : g ∈ l₁ ++ g :: l₂ := List.mem_append_right _ List.mem_cons_self
  have hptr : ∀ x ∈ f :: (l₁ ++ g :: l₂), IsPtr (some x) := fun x hx => hnodes.isPtr fun q hq => by
    cases hq
    exact hx
  have hne : ∀ x ∈ l₁ ++ g :: l₂, f ≠ x := fun x hx heq => hnot (heq ▸ hx)
  have hprev : sizeFreePrev mb.mem g = l₁.getLast? := hlinked.links.1
  have hlast : ∀ q, l₁.getLast? = some q → q ∈ f :: (l₁ ++ g :: l₂) := fun q hq =>
    hin q (List.mem_append_left _ (List.mem_of_getLast? hq))
  obtain ⟨hnext₁, hprev₁, hhead₁⟩ := linkNext_links mb hnodes hlast (hptr f hf)
  have honly₁ := linksOnly_linkNext mb (n := some f) hlast
  rw [hprev] at hmb₁
  rw [← hmb₁] at hnext₁ hprev₁ hhead₁ honly₁
  have hnext₂ : ∀ x ∈ f :: (l₁ ++ g :: l₂), sizeFreeNext mem₁ x =
      if f = x then some g else sizeFreeNext mb₁.mem x := fun x hx =>
    hmem₁ ▸ next_setNext (hnodes.apart f hf x hx) (hptr g (hin g hg))
  have hprev₂ : ∀ x ∈ f :: (l₁ ++ g :: l₂), sizeFreePrev mem₁ x = sizeFreePrev mb₁.mem x :=
    fun x hx => hmem₁ ▸ prev_setNext (hnodes.apart f hf x hx)
  have hprevg : sizeFreePrev mem₁ g = l₁.getLast? := by
    rw [hprev₂ g (hin g hg), hprev₁ g (hin g hg), hprev]
  rw [hprevg] at hmem₂
  have hnext₃ : ∀ x ∈ f :: (l₁ ++ g :: l₂), sizeFreeNext mem₃ x = sizeFreeNext mem₁ x := by
    intro x hx
    rw [hmem₃, next_setPrev (hnodes.apart g (hin g hg) x hx), hmem₂,
      next_setPrev (hnodes.apart f hf x hx)]
  have hprev₃ : ∀ x ∈ f :: (l₁ ++ g :: l₂), sizeFreePrev mem₃ x =
      if g = x then some f else if f = x then l₁.getLast? else sizeFreePrev mem₁ x := by
    intro x hx
    rw [hmem₃, prev_setPrev (hnodes.apart g (hin g hg) x hx) (hptr f hf), hmem₂,
      prev_setPrev (hnodes.apart f hf x hx) (hnodes.isPtr hlast)]
  refine ⟨linked_insert l₁ (g :: l₂) hnodup' hlinked ?_ (fun x hx => ?_) (fun x hx => ?_) ?_ ?_, ?_⟩
  · rw [hhead₁]
    exact if_congr List.getLast?_eq_none_iff rfl rfl
  · rw [hnext₃ x (hin x hx), hnext₂ x (hin x hx), if_neg (hne x hx), hnext₁ x (hin x hx)]
  · rw [hprev₃ x (hin x hx), if_neg (hne x hx), hprev₂ x (hin x hx), hprev₁ x (hin x hx)]
    exact if_congr Option.some_inj.symm rfl rfl
  · rw [hnext₃ f hf, hnext₂ f hf, if_pos rfl, List.head?_cons]
  · rw [hprev₃ f hf, if_neg (hne g hg).symm, if_pos rfl]
  · rw [hmem₃, hmem₂, hmem₁]
    exact ((honly₁.trans (linksOnly_setNext hf)).trans (linksOnly_setPrev hf)).trans
      (linksOnly_setPrev (hin g hg))

/-- **Linking in by size.** With a fuel of at least the length of the list, `mb_add_to_size_unsafe`
returns; it links its piece in at the cut and changes only links. -/
theorem linked_add {ps : List Piece} {p : Piece} (hnodes : Nodes ((p :: ps).map node))
    (hnodup : ((p :: ps).map node).Nodup)
    (hlinked : Linked (sizeFreeNext mb.mem) (sizeFreePrev mb.mem) mb.sizeFreeList (ps.map node))
    (hsize : ∀ q ∈ p :: ps, mpSize mb.mem q.addr = q.size) (hfuel : ps.length ≤ mb.cap) :
    ∃ mb', mbAddToSize mb p.addr = some mb' ∧ mb'.start = mb.start ∧ mb'.cap = mb.cap ∧
      ∃ l₁ l₂, Cut p.size ps l₁ l₂ ∧
        Linked (sizeFreeNext mb'.mem) (sizeFreePrev mb'.mem) mb'.sizeFreeList
          ((l₁ ++ p :: l₂).map node) ∧
        LinksOnly ((p :: ps).map node) mb.mem mb'.mem := by
  have hhead := hlinked.head
  have hpsize := hsize p List.mem_cons_self
  cases ps with
  | nil =>
    have hadd : mbAddToSize mb p.addr = some { mb with
        sizeFreeList := some (node p)
        mem := setSizeFreeNext (setSizeFreePrev mb.mem (node p) none) (node p) none } := by
      unfold mbAddToSize
      rw [hhead]
      rfl
    obtain ⟨hlinked', honly⟩ := linked_singleton hnodes (rfl : _ = setSizeFreeNext
      (setSizeFreePrev mb.mem (node p) none) (node p) none)
    exact ⟨_, hadd, rfl, rfl, [], [], ⟨rfl, nofun, nofun⟩, hlinked', honly⟩
  | cons q ps =>
    replace hhead : mb.sizeFreeList = some (node q) := hhead
    obtain ⟨r, hseek, hcut, hlast⟩ | ⟨l₁, r, l₂, hseek, hcut⟩ :=
      mbSeekSize_eq p.size (List.nil_append (q :: ps)).symm hlinked
        (fun x hx => hsize x (List.mem_cons_of_mem p hx)) nofun hfuel
    · have hadd : mbAddToSize mb p.addr = some { mb with
          mem := setSizeFreeNext (setSizeFreePrev (setSizeFreeNext mb.mem (node r) (some (node p)))
            (node p) (some (node r))) (node p) none } := by
        unfold mbAddToSize
        simp only [hhead, hpsize, hseek]
        rfl
      have hlast' : ((q :: ps).map node).getLast? = some (node r) := by
        rw [List.getLast?_map, hlast]
        rfl
      obtain ⟨hlinked', honly⟩ := linked_append hnodes hnodup hlinked hlast' rfl
      refine ⟨_, hadd, rfl, rfl, _, [], hcut, ?_, honly⟩
      rw [List.map_append]
      exact hlinked'
    · set mb₁ := linkNext mb (sizeFreePrev mb.mem (node r)) (some (node p)) with hmb₁
      set mem₁ := setSizeFreeNext mb₁.mem (node p) (some (node r)) with hmem₁
      set mem₂ := setSizeFreePrev mem₁ (node p) (sizeFreePrev mem₁ (node r)) with hmem₂
      have hadd : mbAddToSize mb p.addr =
          some { mb₁ with mem := setSizeFreePrev mem₂ (node r) (some (node p)) } := by
        unfold mbAddToSize
        simp only [hhead, hpsize, hseek]
        rfl
      clear_value mem₂ mem₁ mb₁
      have hmap : (q :: ps).map node = l₁.map node ++ node r :: l₂.map node := by
        rw [hcut.split, List.map_append, List.map_cons]
      have hfields : mb₁.start = mb.start ∧ mb₁.cap = mb.cap := by
        rw [hmb₁]
        cases sizeFreePrev mb.mem (node r) <;> exact ⟨rfl, rfl⟩
      rw [List.map_cons, hmap] at hnodes hnodup ⊢
      rw [hmap] at hlinked
      obtain ⟨hlinked', honly⟩ := linked_before hnodes hnodup hlinked hmb₁ hmem₁ hmem₂ rfl
      refine ⟨_, hadd, hfields.1, hfields.2, _, _, hcut, ?_, honly⟩
      rw [List.map_append, List.map_cons, List.map_cons]
      exact hlinked'

end Chvm.Mb
