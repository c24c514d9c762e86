import Chvm.Mb.Compact

/-!
# The order of frees

`mb_free` takes its piece together with the free neighbours it finds, and those depend on what was freed
before. The layout does not: a coalesced layout is a function of its allocated pieces, so any two orders
of the same frees leave the same pieces and the same free space.
-/

set_option autoImplicit false

namespace Chvm.Mb

open Chvm.Lib Chvm.Virt

/-- `mb_free` of each vaddr in turn. -/
def mbFreeAll (t : Tid) (mb : MemBlock) (adb : AddrBook) (vs : List Vaddr) : Option (MemBlock × AddrBook) :=
  vs.foldlM (fun r v => mbFree r.1 r.2 t v) (mb, adb)

variable {mem : Mem} {mb mb' mb₁ mb₂ : MemBlock} {adb adb' adb₁ adb₂ : AddrBook}
  {l l' ps ps' : List Piece} {vs ws : List Vaddr} {p : Piece} {t t' : Tid} {v : Vaddr}
  {s : MemSys} {start minBytes : Nat}

/-- A coalesced layout is a function of its allocated pieces. -/
theorem Block.ext (h : Block mb adb ps l) (h' : Block mb' adb' ps' l')
    (hfields : mb'.start = mb.start ∧ mb'.cap = mb.cap)
    (hmem : ∀ q : Piece, q.kind.isSome = true → (q ∈ ps ↔ q ∈ ps')) : ps = ps' := by
  have htiles := h'.laid.tiles
  have hstop : mb'.stop = mb.stop := by
    unfold MemBlock.stop
    rw [hfields.1, hfields.2]
  rw [hfields.1, hstop] at htiles
  apply Tiles.eq_of_separated h.laid.tiles htiles
    (show Separated Option.isSome ps from h.coalesced) h'.coalesced
  · intro k k' hk hk'
    rw [Option.isSome_eq_false_iff, Option.isNone_iff_eq_none] at hk hk'
    rw [hk, hk']
  · exact hmem

/-- The free space is a function of the layout. -/
theorem Block.free_space_eq (h : Block mb adb ps l) (h' : Block mb' adb' ps l') :
    mbFreeSpace mb = mbFreeSpace mb' := by
  have hperm : l.Perm l' := h.laid.listed.trans h'.laid.listed.symm
  have hsizes : l.map (·.size) = l'.map (·.size) := by
    have hsorted : (l.map (·.size)).Pairwise fun m n => n ≤ m := List.pairwise_map.mpr h.laid.sorted
    have hsorted' : (l'.map (·.size)).Pairwise fun m n => n ≤ m := List.pairwise_map.mpr h'.laid.sorted
    exact (hperm.map _).eq_of_pairwise (fun m n _ _ hmn hnm => Nat.le_antisymm hnm hmn) hsorted hsorted'
  have hhead : ∀ l : List Piece, l.head?.elim 0 (·.size) = (l.map (·.size)).head?.getD 0 := by
    intro l
    cases l <;> rfl
  rw [h.free_space, h'.free_space, hhead, hhead, hsizes]

/-- What is left after some frees: the pieces of the other vaddrs, and their cells. -/
structure Freed (mb mb' : MemBlock) (adb adb' : AddrBook) (ps ps' : List Piece) (vs : List Vaddr) : Prop where
  fields : mb'.start = mb.start ∧ mb'.cap = mb.cap
  pieces : ∀ q : Piece, q.kind.isSome = true → (q ∈ ps' ↔ q ∈ ps ∧ ∀ v ∈ vs, q.kind ≠ some v)
  entries : ∀ w, adb'.entry w = if w ∈ vs then none else adb.entry w
  unlocked : ∀ v ∈ vs, ¬Locked adb v

/-- The first free, then the others. -/
theorem Block.freed_cons (h : Block mb adb ps l) (hp : p ∈ ps) (hkind : p.kind = some v)
    (hfree : ∃ c, adb.entry v = some c ∧ c.lck.isFree = true)
    (hchanged : Changed mb mb₁ ps ps' (· = p) (fun _ => False))
    (hentry : ∀ w, adb₁.entry w = if w = v then none else adb.entry w) {ps'' : List Piece}
    (hrest : Freed mb₁ mb' adb₁ adb' ps' ps'' vs) (hnot : v ∉ vs) :
    Freed mb mb' adb adb' ps ps'' (v :: vs) := by
  refine ⟨⟨hrest.fields.1.trans hchanged.fields.1, hrest.fields.2.trans hchanged.fields.2⟩,
    fun q hq => ?_, fun w => ?_, fun w hw => ?_⟩
  · rw [hrest.pieces q hq, hchanged.pieces q hq, false_or, List.forall_mem_cons, and_assoc]
    refine and_congr_right fun hmem => and_congr_left fun _ => not_congr ?_
    constructor
    · rintro rfl
      exact hkind
    · intro hqv
      exact h.vaddr_inj hmem hp hqv hkind
  · rw [hrest.entries, hentry]
    by_cases hwv : w = v
    · subst hwv
      rw [if_pos rfl, if_pos List.mem_cons_self, ite_self]
    · simp only [List.mem_cons, hwv, false_or, if_false]
  · rcases List.mem_cons.mp hw with rfl | hin
    · rintro ⟨c, hc, hheld⟩
      obtain ⟨d, hd, hlck⟩ := hfree
      rw [hc] at hd
      cases hd
      rw [hlck] at hheld
      cases hheld
    · rintro ⟨c, hc, hheld⟩
      refine hrest.unlocked w hin ⟨c, ?_, hheld⟩
      rw [hentry, if_neg, hc]
      rintro rfl
      exact hnot hin

/-- The pieces of the other vaddrs are there after a free. -/
theorem Changed.others (h : Changed mb mb₁ ps ps' (· = p) (fun _ => False)) (hkind : p.kind = some v)
    (hnot : v ∉ vs) (hpieces : ∀ w ∈ vs, ∃ q ∈ ps, q.kind = some w) :
    ∀ w ∈ vs, ∃ q ∈ ps', q.kind = some w := by
  intro w hw
  obtain ⟨q, hq, hqkind⟩ := hpieces w hw
  refine ⟨q, (h.pieces q (by rw [hqkind]; rfl)).mpr (.inr ⟨hq, ?_⟩), hqkind⟩
  rintro rfl
  rw [hkind] at hqkind
  cases hqkind
  exact hnot hw

/-- Frees that return have freed their vaddrs, which nobody had locked. -/
theorem mbFreeAll_cases (h : Block mb adb ps l) (hnodup : vs.Nodup)
    (hpieces : ∀ v ∈ vs, ∃ p ∈ ps, p.kind = some v) (hrun : mbFreeAll t mb adb vs = some (mb', adb')) :
    ∃ ps' l', Block mb' adb' ps' l' ∧ Freed mb mb' adb adb' ps ps' vs := by
  induction vs generalizing mb adb ps l with
  | nil =>
    cases hrun
    exact ⟨ps, l, h, ⟨rfl, rfl⟩, fun q hq => (and_iff_left nofun).symm, fun w => rfl, nofun⟩
  | cons v vs ih =>
    obtain ⟨hnot, hnodup⟩ := List.nodup_cons.mp hnodup
    obtain ⟨p, hp, hkind⟩ := hpieces v List.mem_cons_self
    unfold mbFreeAll at hrun
    rw [List.foldlM_cons] at hrun
    obtain ⟨⟨mb₁, adb₁⟩, hfree, hrest⟩ := Option.bind_eq_some_iff.mp hrun
    obtain ⟨hlck, ps₁, l₁, hblock₁, hchanged, hentry⟩ := mbFree_cases h hp hkind hfree
    have hpieces₁ := hchanged.others hkind hnot fun w hw => hpieces w (List.mem_cons_of_mem v hw)
    obtain ⟨ps', l', hblock', hfreed⟩ := ih hblock₁ hnodup hpieces₁ hrest
    exact ⟨ps', l', hblock', h.freed_cons hp hkind hlck hchanged hentry hfreed hnot⟩

/-- Nothing but a held lock keeps frees from returning. -/
theorem mbFreeAll_isSome (h : Block mb adb ps l) (hnodup : vs.Nodup)
    (hpieces : ∀ v ∈ vs, ∃ p ∈ ps, p.kind = some v) (hfree : ∀ v ∈ vs, ¬Locked adb v) (t : Tid) :
    ∃ mb' adb', mbFreeAll t mb adb vs = some (mb', adb') := by
  induction vs generalizing mb adb ps l with
  | nil => exact ⟨mb, adb, rfl⟩
  | cons v vs ih =>
    obtain ⟨hnot, hnodup⟩ := List.nodup_cons.mp hnodup
    obtain ⟨p, hp, hkind⟩ := hpieces v List.mem_cons_self
    obtain ⟨c, hc, -⟩ := h.entries p hp v hkind
    have hlck : c.lck.isFree = true := by
      by_contra hheld
      exact hfree v List.mem_cons_self ⟨c, hc, Bool.eq_false_iff.mpr hheld⟩
    obtain ⟨⟨mb₁, adb₁⟩, hfirst⟩ := Option.isSome_iff_exists.mp (mbFree_isSome h hp hkind hc hlck t)
    obtain ⟨-, ps₁, l₁, hblock₁, hchanged, hentry⟩ := mbFree_cases h hp hkind hfirst
    have hpieces₁ := hchanged.others hkind hnot fun w hw => hpieces w (List.mem_cons_of_mem v hw)
    have hfree₁ : ∀ w ∈ vs, ¬Locked adb₁ w := by
      rintro w hw ⟨d, hd, hheld⟩
      rw [hentry] at hd
      split at hd
      · cases hd
      · exact hfree w (List.mem_cons_of_mem v hw) ⟨d, hd, hheld⟩
    obtain ⟨mb', adb', hrest⟩ := ih hblock₁ hnodup hpieces₁ hfree₁
    refine ⟨mb', adb', ?_⟩
    unfold mbFreeAll
    rw [List.foldlM_cons, hfirst]
    exact hrest

/-- **Freeing is order independent.** -/
theorem frees_commute (hstart : 0 < start) (hstop : start + padNumBytes minBytes < 2 ^ 64)
    (hquiet : adb.Quiet) (h : Reaches memStep usesLive (MemSys.new start mem minBytes adb) s)
    (hnodup : vs.Nodup) (hlive : ∀ v ∈ vs, v ∈ s.live) (hperm : vs.Perm ws) (t t' : Tid) :
    ((∀ v ∈ vs, ¬Locked s.adb v) → (mbFreeAll t s.mb s.adb vs).isSome = true) ∧
    ∀ mb₁ adb₁, mbFreeAll t s.mb s.adb vs = some (mb₁, adb₁) →
      ∃ mb₂ adb₂ ps, mbFreeAll t' s.mb s.adb ws = some (mb₂, adb₂) ∧ mbPieces mb₁ = some ps ∧
        mbPieces mb₂ = some ps ∧ mbFreeSpace mb₁ = mbFreeSpace mb₂ ∧
        (∀ w, adb₁.entry w = adb₂.entry w) ∧
        ((∀ v ∈ s.live, v ∈ vs) → ps = [⟨s.mb.start, s.mb.cap, none⟩]) := by
  obtain ⟨ps, l, hinv⟩ := memInv_reach hstart hstop hquiet h
  have hblock := hinv.block
  have hpieces : ∀ v ∈ vs, ∃ p ∈ ps, p.kind = some v := fun v hv => (hinv.live v).mp (hlive v hv)
  have hmem : ∀ v, v ∈ ws ↔ v ∈ vs := fun v => hperm.symm.mem_iff
  refine ⟨fun hfree => ?_, fun mb₁ adb₁ hrun => ?_⟩
  · obtain ⟨mb', adb', hrun⟩ := mbFreeAll_isSome hblock hnodup hpieces hfree t
    rw [hrun]
    rfl
  · obtain ⟨ps₁, l₁, hblock₁, hfreed₁⟩ := mbFreeAll_cases hblock hnodup hpieces hrun
    have hnodup' := hperm.nodup_iff.mp hnodup
    have hpieces' : ∀ v ∈ ws, ∃ p ∈ ps, p.kind = some v := fun v hv => hpieces v ((hmem v).mp hv)
    obtain ⟨mb₂, adb₂, hrun'⟩ := mbFreeAll_isSome hblock hnodup' hpieces'
      (fun v hv => hfreed₁.unlocked v ((hmem v).mp hv)) t'
    obtain ⟨ps₂, l₂, hblock₂, hfreed₂⟩ := mbFreeAll_cases hblock hnodup' hpieces' hrun'
    have hsame : ps₁ = ps₂ := by
      apply hblock₁.ext hblock₂
      · exact ⟨hfreed₂.fields.1.trans hfreed₁.fields.1.symm, hfreed₂.fields.2.trans hfreed₁.fields.2.symm⟩
      · intro q hq
        rw [hfreed₁.pieces q hq, hfreed₂.pieces q hq]
        simp only [hmem]
    subst hsame
    refine ⟨mb₂, adb₂, ps₁, hrun', hblock₁.pieces, hblock₂.pieces, hblock₁.free_space_eq hblock₂,
      fun w => ?_, fun hall => ?_⟩
    · rw [hfreed₁.entries, hfreed₂.entries]
      simp only [hmem]
    · -- nothing is allocated, as in a new block
      obtain ⟨hs, hc⟩ := fields_reach hstart hstop hquiet h
      have hnew : Block (newMemBlock start mem minBytes) adb _ _ := block_new mem minBytes hstart hstop hquiet
      have heq := hblock₁.ext hnew ⟨hs.symm.trans hfreed₁.fields.1.symm, hc.symm.trans hfreed₁.fields.2.symm⟩
        fun q hq => iff_of_false (fun hmem => ?_) fun hmem => ?_
      · rw [hs, hc]
        exact heq
      · obtain ⟨hqps, hqvs⟩ := (hfreed₁.pieces q hq).mp hmem
        obtain ⟨v, hv⟩ := Option.isSome_iff_exists.mp hq
        exact hqvs v (hall v ((hinv.live v).mpr ⟨q, hqps, hv⟩)) hv
      · rw [List.mem_singleton.mp hmem] at hq
        cases hq

/-- Three pieces, of which the outer two are freed in both orders: the same layout is left. -/
theorem frees_commute_outer : ∃ s : MemSys, ∃ mb₁ adb₁ mb₂ adb₂ ps,
    mbFreeAll 0 s.mb s.adb [⟨0, 0⟩, ⟨0, 2⟩] = some (mb₁, adb₁) ∧
    mbFreeAll 1 s.mb s.adb [⟨0, 2⟩, ⟨0, 0⟩] = some (mb₂, adb₂) ∧
    mbPieces mb₁ = some ps ∧ mbPieces mb₂ = some ps := by
  obtain ⟨adb, s, mb₁, adb₁, hnew, hrun, hlive, hfrees⟩ : ∃ adb, ∃ s : MemSys, ∃ mb₁ adb₁,
      newAddrBook 3 = some adb ∧
      exec memStep usesLiveCheck (MemSys.new 64 ⟨fun _ => 0⟩ 100 adb)
        [.malloc 0 8 false, .malloc 1 8 false, .malloc 0 8 false] = some s ∧
      s.live = [⟨0, 0⟩, ⟨0, 1⟩, ⟨0, 2⟩] ∧
      mbFreeAll 0 s.mb s.adb [⟨0, 0⟩, ⟨0, 2⟩] = some (mb₁, adb₁) := ⟨_, _, _, _, rfl, rfl, rfl, rfl⟩
  obtain ⟨-, hboth⟩ := frees_commute (by decide) (by decide) (AddrBook.quiet_new hnew (by decide))
    (reaches_of_exec usesLiveCheck_sound _ hrun) (show ([⟨0, 0⟩, ⟨0, 2⟩] : List Vaddr).Nodup by decide)
    (by
      rw [hlive]
      decide)
    (List.Perm.swap (⟨0, 2⟩ : Vaddr) ⟨0, 0⟩ []) 0 1
  obtain ⟨mb₂, adb₂, ps, hfrees', hps, hps', -⟩ := hboth mb₁ adb₁ hfrees
  exact ⟨s, mb₁, adb₁, mb₂, adb₂, ps, hfrees, hfrees', hps, hps'⟩

end Chvm.Mb
