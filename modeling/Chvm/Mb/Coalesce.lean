import Mathlib.Data.List.Chain
import Chvm.Mb.Layout

/-!
# Freeing a piece

`mb_coalesce_unsafe` takes a piece that is no longer allocated together with its free neighbours and
makes one free piece of them. In the layout: the hole where the piece was grows over its free
neighbours and is filled with the new piece.
-/

set_option autoImplicit false

namespace Chvm.Mb

open Chvm.Lib Chvm.Virt

variable {mem mem' : Mem} {mb mb' : MemBlock} {A A' B B' l ps : List Piece} {a a' b b' : Nat}
  {p q : Piece}

/-- No two neighbours are free. -/
def Coalesced (ps : List Piece) : Prop :=
  ps.IsChain fun p q => p.kind.isSome = true ∨ q.kind.isSome = true

/-- The address of the first piece, when it is free. -/
def freeFirst (ps : List Piece) : Option Nat :=
  match ps.head? with
  | some p => if p.kind.isSome then none else some p.addr
  | none => none

/-- The address of the last piece, when it is free. -/
def freeLast (ps : List Piece) : Option Nat :=
  match ps.getLast? with
  | some p => if p.kind.isSome then none else some p.addr
  | none => none

/-- What the code finds in front of the hole. -/
theorem mbPrevFree_eq (h : Holed mb A a b B l) : mbPrevFree mb a = freeLast A := by
  unfold mbPrevFree freeLast
  rcases List.eq_nil_or_concat' A with rfl | ⟨A', q, rfl⟩
  · have hstart : mb.start = a := h.front
    rw [if_neg (by omega)]
    rfl
  · obtain ⟨hfront, hstop, hsize⟩ := h.front.last
    have hq : q ∈ A' ++ [q] ++ B := by
      rw [List.append_assoc]
      exact List.mem_append_right _ List.mem_cons_self
    have hle := hfront.le
    have haddr := q.stop_eq
    rw [if_pos (by omega), ← hstop, (h.kept q hq).prev (h.fit q hq), (h.kept q hq).alloc (h.fit q hq),
      List.getLast?_concat]

/-- What the code finds behind the hole. -/
theorem mbNextFree_eq {mp : Nat} (h : Holed mb A a b B l) (hnext : mpNext mb.mem mp = b) :
    mbNextFree mb mp = freeFirst B := by
  unfold mbNextFree freeFirst
  rw [hnext]
  cases B with
  | nil =>
    have hstop : b = mb.stop := h.back
    rw [if_neg (by omega)]
    rfl
  | cons q B =>
    obtain ⟨haddr, hsize, hback⟩ := h.back
    have hq : q ∈ A ++ q :: B := List.mem_append_right _ List.mem_cons_self
    have hle := hback.le
    have hstop := q.stop_eq
    rw [if_pos (by omega), ← haddr, (h.kept q hq).alloc (h.fit q hq), List.head?_cons]

/-- Absorbing a free neighbour. -/
theorem absorb_free (h : Holed mb A a b B l) (hp : p ∈ A ++ B) (hkind : p.kind = none)
    (hpieces : (A ++ B).Perm (p :: (A' ++ B'))) (hfront : Tiles mb.start A' a') (hhole : a' ≤ b')
    (hback : Tiles b' B' mb.stop) (size : Nat) :
    ∃ mb' l', mbAbsorb mb size (some p.addr) = (mb', size + p.size) ∧
      (mb'.start = mb.start ∧ mb'.cap = mb.cap) ∧ Holed mb' A' a' b' B' l' ∧
      LinksOnly (l'.map node) mb.mem mb'.mem := by
  obtain ⟨l₁, l₂, rfl⟩ := List.append_of_mem (h.mem_listed.mpr ⟨hp, hkind⟩)
  obtain ⟨hholed, honly⟩ := h.remove hpieces hfront hhole hback
  refine ⟨_, _, ?_, fields_remove mb (node p), hholed, honly⟩
  have hkept : Kept (mbRemoveFromSize mb (node p)).mem p := by
    refine (h.kept p hp).of_links (h.fit p hp) honly fun r hr => h.links_facts hp r ?_
    exact (List.mem_append.mp hr).elim (List.mem_append_left _) fun hr =>
      List.mem_append_right _ (List.mem_cons_of_mem p hr)
  show (mbRemoveFromSize mb (node p), size + mpSize (mbRemoveFromSize mb (node p)).mem p.addr) = _
  rw [hkept.size (h.fit p hp)]

/-- The allocated pieces stay, with their bytes. -/
def Preserved (mem mem' : Mem) (ps ps' : List Piece) : Prop :=
  ∀ q, q.kind.isSome = true → (q ∈ ps' ↔ q ∈ ps) ∧ (q ∈ ps → Mem.SameOn mem mem' q.addr q.stop)

theorem Preserved.trans {mem'' : Mem} {ps' ps'' : List Piece} (h : Preserved mem mem' ps ps')
    (h' : Preserved mem' mem'' ps' ps'') : Preserved mem mem'' ps ps'' := by
  intro q hq
  obtain ⟨hiff, hsame⟩ := h q hq
  obtain ⟨hiff', hsame'⟩ := h' q hq
  exact ⟨hiff'.trans hiff, fun hmem => (hsame hmem).trans (hsame' (hiff.mpr hmem))⟩

/-- Changing links preserves the allocated pieces. -/
theorem Holed.preserved_links (h : Holed mb A a b B l)
    (honly : LinksOnly (l.map node) mem mb.mem)
    (hiff : ∀ q : Piece, q.kind.isSome = true → (q ∈ A ++ B ↔ q ∈ ps)) :
    Preserved mem mb.mem ps (A ++ B) := by
  refine fun q hq => ⟨hiff q hq, fun hmem => ?_⟩
  obtain ⟨v, hv⟩ := Option.isSome_iff_exists.mp hq
  exact honly.sameOn (h.clear_alloc ((hiff q hq).mpr hmem) hv)

/-- A write into the hole preserves the allocated pieces. -/
theorem Holed.preserved_write (h : Holed mb A a b B l) (hfront : Mem.SameOn mb.mem mem' mb.start a)
    (hback : Mem.SameOn mb.mem mem' b mb.stop) : Preserved mb.mem mem' (A ++ B) (A ++ B) := by
  refine fun q _ => ⟨Iff.rfl, fun hq => ?_⟩
  rcases List.mem_append.mp hq with hq | hq
  · obtain ⟨hlow, -, hhigh⟩ := h.front.mem hq
    exact hfront.sub hlow hhigh
  · obtain ⟨hlow, -, hhigh⟩ := h.back.mem hq
    exact hback.sub hlow hhigh

/-- A free piece does not count. -/
theorem preserved_free (hp : p.kind = none) (hq : q.kind.isSome = true) :
    q ∈ A ++ p :: B ↔ q ∈ A ++ B := by
  rw [List.perm_middle.mem_iff, List.mem_cons]
  refine ⟨fun hmem => hmem.resolve_left ?_, .inr⟩
  rintro rfl
  rw [hp] at hq
  cases hq

/-- The hole grows over the free piece in front of it, if there is one. -/
theorem absorb_front (h : Holed mb A a b B l) (hco : Coalesced A) (size : Nat) :
    ∃ mb' A' a' l', mbAbsorb mb size (freeLast A) = (mb', size + (a - a')) ∧
      (freeLast A).getD a = a' ∧ (a' ≤ a ∧ (a - a') % 2 = 0) ∧
      (mb'.start = mb.start ∧ mb'.cap = mb.cap) ∧ Holed mb' A' a' b B l' ∧
      Preserved mb.mem mb'.mem (A ++ B) (A' ++ B) ∧ Mem.SameOn mb.mem mb'.mem a b ∧
      Coalesced A' ∧ ∀ q ∈ A'.getLast?, q.kind.isSome = true := by
  have hkeep : (∀ q ∈ A.getLast?, q.kind.isSome = true) → freeLast A = none := by
    intro hlast
    unfold freeLast
    cases hA : A.getLast? with
    | none => rfl
    | some q => exact if_pos (hlast q hA)
  by_cases hlast : ∀ q ∈ A.getLast?, q.kind.isSome = true
  · refine ⟨mb, A, a, l, ?_, ?_, ⟨Nat.le_refl a, ?_⟩, ⟨rfl, rfl⟩, h, fun q _ => ⟨Iff.rfl, ?_⟩,
      Mem.sameOn_refl _ _ _, hco, hlast⟩
    · rw [hkeep hlast, Nat.sub_self]
      rfl
    · rw [hkeep hlast]
      rfl
    · rw [Nat.sub_self]
    · exact fun _ => Mem.sameOn_refl _ _ _
  · rcases List.eq_nil_or_concat' A with rfl | ⟨A', p, rfl⟩
    · exact absurd nofun hlast
    · have hkind : p.kind = none := by
        by_contra hne
        refine hlast fun q hq => ?_
        rw [List.getLast?_concat] at hq
        cases hq
        exact Option.isSome_iff_ne_none.mpr hne
      have hfree : freeLast (A' ++ [p]) = some p.addr := by
        simp only [freeLast, List.getLast?_concat, hkind, Option.isSome_none, Bool.false_eq_true,
          if_false]
      obtain ⟨hfront, hstop, -⟩ := h.front.last
      have hhole := h.hole
      have haddr := p.stop_eq
      have hp : p ∈ A' ++ [p] ++ B := by
        rw [List.append_assoc]
        exact List.mem_append_right _ List.mem_cons_self
      have hpieces : (A' ++ [p] ++ B).Perm (p :: (A' ++ B)) := by
        rw [List.append_assoc]
        exact List.perm_middle
      obtain ⟨mb', l', habsorb, hfields, hholed, honly⟩ :=
        absorb_free h hp hkind hpieces hfront (by omega) h.back size
      have heven := (h.fit p hp).even
      obtain ⟨hco', -, hchain⟩ := List.isChain_append.mp hco
      refine ⟨mb', A', p.addr, l', ?_, ?_, ⟨by omega, ?_⟩, hfields, hholed, ?_, ?_, hco', ?_⟩
      · rw [hfree, habsorb]
        congr 2
        omega
      · rw [hfree]
        rfl
      · have hsize : a - p.addr = p.size := by omega
        rw [hsize]
        exact heven
      · refine hholed.preserved_links honly fun q hq => ?_
        rw [List.append_assoc]
        exact (preserved_free hkind hq).symm
      · exact (honly.sameOn hholed.clear_hole).sub (by omega) (Nat.le_refl b)
      · intro q hq
        have hor := hchain q hq p rfl
        rw [hkind] at hor
        exact hor.resolve_right nofun

/-- The hole grows over the free piece behind it, if there is one. -/
theorem absorb_back (h : Holed mb A a b B l) (hco : Coalesced B) (size : Nat) :
    ∃ mb' B' b' l', mbAbsorb mb size (freeFirst B) = (mb', size + (b' - b)) ∧
      (b ≤ b' ∧ (b' - b) % 2 = 0) ∧ (mb'.start = mb.start ∧ mb'.cap = mb.cap) ∧
      Holed mb' A a b' B' l' ∧ Preserved mb.mem mb'.mem (A ++ B) (A ++ B') ∧
      Mem.SameOn mb.mem mb'.mem a b ∧
      Coalesced B' ∧ ∀ q ∈ B'.head?, q.kind.isSome = true := by
  have hkeep : (∀ q ∈ B.head?, q.kind.isSome = true) → freeFirst B = none := by
    intro hfirst
    unfold freeFirst
    cases hB : B.head? with
    | none => rfl
    | some q => exact if_pos (hfirst q hB)
  by_cases hfirst : ∀ q ∈ B.head?, q.kind.isSome = true
  · refine ⟨mb, B, b, l, ?_, ⟨Nat.le_refl b, ?_⟩, ⟨rfl, rfl⟩, h, fun q _ => ⟨Iff.rfl, ?_⟩,
      Mem.sameOn_refl _ _ _, hco, hfirst⟩
    · rw [hkeep hfirst, Nat.sub_self]
      rfl
    · rw [Nat.sub_self]
    · exact fun _ => Mem.sameOn_refl _ _ _
  · cases B with
    | nil => exact absurd nofun hfirst
    | cons p B' =>
      have hkind : p.kind = none := by
        by_contra hne
        refine hfirst fun q hq => ?_
        cases hq
        exact Option.isSome_iff_ne_none.mpr hne
      have hfree : freeFirst (p :: B') = some p.addr := by
        simp only [freeFirst, List.head?_cons, hkind, Option.isSome_none, Bool.false_eq_true,
          if_false]
      obtain ⟨hb, -, hback⟩ := h.back
      have hhole := h.hole
      have hstop := p.stop_eq
      have hp : p ∈ A ++ p :: B' := List.mem_append_right _ List.mem_cons_self
      obtain ⟨mb', l', habsorb, hfields, hholed, honly⟩ :=
        absorb_free h hp hkind List.perm_middle h.front (by omega) hback size
      have heven := (h.fit p hp).even
      have hsize : p.stop - b = p.size := by omega
      obtain ⟨hchain, hco'⟩ := List.isChain_cons.mp hco
      refine ⟨mb', B', p.stop, l', ?_, ⟨by omega, ?_⟩, hfields, hholed, ?_, ?_, hco', ?_⟩
      · rw [hfree, habsorb, hsize]
      · rw [hsize]
        exact heven
      · exact hholed.preserved_links honly fun q hq => (preserved_free hkind hq).symm
      · exact (honly.sameOn hholed.clear_hole).sub (Nat.le_refl a) (by omega)
      · intro q hq
        have hor := hchain q hq
        rw [hkind] at hor
        exact hor.resolve_left nofun

/-- **Coalescing.** From the layout with a hole where a piece was freed, `mb_coalesce_unsafe`
returns with one more free piece in the layout, and no two neighbours are free. -/
theorem mbCoalesce_eq (h : Holed mb A p.addr p.stop B l) (hfit : Fit p) (hkept : Kept mb.mem p)
    (hA : Coalesced A) (hB : Coalesced B) :
    ∃ mb' ps l', mbCoalesce mb p.addr = some mb' ∧ (mb'.start = mb.start ∧ mb'.cap = mb.cap) ∧
      Laid mb' ps l' ∧ Coalesced ps ∧ Preserved mb.mem mb'.mem (A ++ B) ps := by
  have hsize := hfit.size_ge
  have hstop := p.stop_eq
  have hprev := mbPrevFree_eq h
  have hnext := mbNextFree_eq h (hkept.next hfit)
  obtain ⟨mb₁, A', a', l₁, habsorb₁, hfirst, ⟨hle₁, heven₁⟩, hfields₁, h₁, hpres₁, hsame₁, hA', hlast⟩ :=
    absorb_front h hA p.size
  obtain ⟨mb₂, B', b', l₂, habsorb₂, ⟨hle₂, heven₂⟩, hfields₂, h₂, hpres₂, -, hB', hhead⟩ :=
    absorb_back h₁ hB (p.size + (p.addr - a'))
  -- the new piece fills the hole
  let n : Piece := ⟨a', b' - a', none⟩
  have hnsize : p.size + (p.addr - a') + (b' - p.stop) = n.size := by
    show _ = b' - a'
    omega
  have hnstop : n.stop = b' := by
    show a' + (b' - a') = b'
    omega
  have hnfit : Fit n := by
    have heven := hfit.even
    refine ⟨?_, ?_⟩
    · rw [← hnsize]
      omega
    · show mpMinSize ≤ b' - a'
      unfold mpMinSize mfpPadding mpPadding
      omega
  have hrange := h₂.range.2
  have hback := h₂.back.le
  have hnlt : n.size < 2 ^ 64 := by
    show b' - a' < 2 ^ 64
    omega
  have hnge := hnfit.size_ge
  have hsameA : Mem.SameOn mb₂.mem (mpInit mb₂.mem n.addr n.size false) mb₂.start a' :=
    sameOn_mpInit (by omega) (.inl (Nat.le_refl _))
  have hsameB : Mem.SameOn mb₂.mem (mpInit mb₂.mem n.addr n.size false) b' mb₂.stop :=
    sameOn_mpInit (by omega) (.inr (Nat.le_of_eq hnstop))
  obtain ⟨mb', l', hadd, hfields', h', honly⟩ :=
    (h₂.write hsameA hsameB).add hnfit (kept_mpInit (p := n) mb₂.mem hnfit hnlt rfl) rfl
      (Nat.le_refl a') hnstop
  refine ⟨mb', A' ++ n :: B', l', ?_, ?_, ?_, ?_, ?_⟩
  · unfold mbCoalesce
    simp only [hprev, hnext, hkept.size hfit, habsorb₁, habsorb₂, hfirst, hnsize]
    exact hadd
  · exact ⟨hfields'.1.trans (hfields₂.1.trans hfields₁.1), hfields'.2.trans (hfields₂.2.trans hfields₁.2)⟩
  · exact h'.close
  · exact List.isChain_append.mpr ⟨hA', List.isChain_cons.mpr ⟨fun y hy => .inr (hhead y hy), hB'⟩,
      fun x hx y _ => .inl (hlast x hx)⟩
  · exact ((hpres₁.trans hpres₂).trans (h₂.preserved_write hsameA hsameB)).trans
      (h'.preserved_links honly fun q hq => preserved_free rfl hq)

end Chvm.Mb
