import Chvm.Cs.LockOrder

/-!
# The calls keep the order

One lemma for each function, from the address tables up to a collection: from what the thread holds it
goes to what it holds behind the call. A mutator that holds an object's lock may still allocate, root
and deroot, since the cells come first in the order.
-/

set_option autoImplicit false

namespace Chvm.Cs.Locking

open Chvm.Lib Chvm.Lib.Sync

variable {α β : Type} {t : Tid} {g : Ghost} {l : Lck} {wr live : Bool} {v : Vaddr} {e n m : Nat}

/-! ## Below a rank -/

theorem Ghost.Below.may (h : g.Below (rank l)) : May t g l := ⟨h.1, .inl h.2⟩

theorem Ghost.Below.mono (h : g.Below n) (hle : n ≤ m) : g.Below m :=
  ⟨h.1, fun x hx => Nat.lt_of_lt_of_le (h.2 x hx) hle⟩

theorem Ghost.Below.push (h : g.Below n) (hrank : rank l < n) (hlive : ∀ v, l = .cell v → live = true) :
    (g.push l wr live).Below n := by
  constructor
  · intro x hx v hv
    rcases List.mem_cons.mp hx with rfl | hx
    · exact hlive v hv
    · exact h.1 x hx v hv
  · intro x hx
    rcases List.mem_cons.mp hx with rfl | hx
    · exact hrank
    · exact h.2 x hx

theorem Ghost.Below.cell (h : g.Below (n + 1)) : (g.push (.cell v) wr true).Below (n + 1) :=
  h.push (Nat.succ_pos n) fun _ _ => rfl

/-- A section that reads: its lock is taken and given back. -/
theorem keeps_read {Q : β → Ghost → Prop} {f : Shared → α} {k : α → Code β} (hmay : May t g l)
    (hk : ∀ a, Keeps t (k a) Q g) :
    Keeps t (do take l wr; let a ← gets f; release l; k a) Q g := by
  apply Protocol.Ok.bind
  apply keeps_take hmay
  apply Protocol.Ok.bind
  apply keeps_gets
  intro a
  apply Protocol.Ok.bind
  apply keeps_release_top
  exact hk a

/-! ## The address book -/

section

variable {Q : Unit → Ghost → Prop}

theorem keeps_adtValidateCellInd (hQ : Q () g) : Keeps t (adtValidateCellInd e) Q g :=
  .bind (keeps_gets fun _ => keeps_ite keeps_halt hQ)

theorem keeps_adbGetAdt (h : g.Below 2) (hQ : Q () g) : Keeps t (adbGetAdt e) Q g := by
  apply keeps_read h.may
  intro len
  exact keeps_ite keeps_halt hQ

theorem keeps_adbGet (h : g.Below 2) (hmay : May t g (.cell v)) (hQ : Q () (g.push (.cell v) wr true)) :
    Keeps t (adbGet v wr) Q g := by
  apply Protocol.Ok.bind
  apply keeps_adbGetAdt h
  apply Protocol.Ok.bind
  apply keeps_adtValidateCellInd
  apply Protocol.Ok.bind
  apply keeps_take hmay
  exact keeps_validateCell hQ

theorem keeps_adbUnlock (h : g.Below 2) (hQ : Q () g) :
    Keeps t (adbUnlock v) Q (g.push (.cell v) wr true) := by
  apply Protocol.Ok.bind
  apply keeps_adbGetAdt h.cell
  apply Protocol.Ok.bind
  apply keeps_adtValidateCellInd
  exact keeps_release_top hQ

theorem keeps_adbMoveP (h : g.Below 2) (hQ : Q () g) : Keeps t (adbMoveP v) Q g := by
  apply Protocol.Ok.bind
  apply keeps_adbGetAdt h
  apply Protocol.Ok.bind
  apply keeps_adtValidateCellInd
  apply Protocol.Ok.bind
  apply keeps_gets
  intro allocated
  exact keeps_ite keeps_halt hQ

theorem keeps_adbTryExpand (h : g.Below 2) (hQ : Q () g) : Keeps t adbTryExpand Q g := by
  apply Protocol.Ok.bind
  apply keeps_take h.may
  apply Protocol.Ok.bind
  apply keeps_gets
  intro freeList
  apply keeps_ite
  · apply Protocol.Ok.bind
    apply keeps_expand
    exact keeps_release_top hQ
  · exact keeps_release_top hQ

/-- A change of the free list, under the locks of the book and of the table. -/
theorem keeps_underTable {f : Shared → Shared} (h : g.Below 2) (hsame : ∀ d, Same d (f d)) (hQ : Q () g) :
    Keeps t (do rdlock (.freeStack e); modify f; release (.freeStack e); release .adb) Q
      (g.push .adb true false) := by
  have hadb : (g.push .adb true false).Below 3 := (h.mono (by decide)).push (by decide) nofun
  apply Protocol.Ok.bind
  apply keeps_take hadb.may
  apply Protocol.Ok.bind
  apply keeps_modify_same hsame
  apply Protocol.Ok.bind
  apply keeps_release_top
  exact keeps_release_top hQ

theorem keeps_adbTryRemoval (h : g.Below 2) (hQ : Q () g) : Keeps t (adbTryRemoval e) Q g := by
  apply Protocol.Ok.bind
  apply keeps_take h.may
  apply Protocol.Ok.bind
  apply keeps_gets
  intro freeList
  apply keeps_ite
  · apply keeps_underTable h _ hQ
    intro d
    split
    · exact ⟨⟨fun _ => rfl, rfl, rfl, rfl⟩, rfl⟩
    · exact .refl d
  · exact keeps_release_top hQ

theorem keeps_adbTryAddition (h : g.Below 2) (hQ : Q () g) : Keeps t (adbTryAddition e) Q g := by
  apply Protocol.Ok.bind
  apply keeps_take h.may
  apply Protocol.Ok.bind
  apply keeps_gets
  intro freeList
  apply keeps_ite
  · apply keeps_underTable h _ hQ
    intro d
    split
    · exact .refl d
    · exact ⟨⟨fun _ => rfl, rfl, rfl, rfl⟩, rfl⟩
  · exact keeps_release_top hQ

end

/-- A put ends with the lock of a cell that is allocated. The wait for the cell is below no lock, but
nobody else who holds it goes on. -/
theorem keeps_adtPutP {Q : Option (Nat × Bool) → Ghost → Prop} (h : g.Below 3) (hown : g.own = none)
    (hnone : Q none g) (hsome : ∀ i full, Q (some (i, full)) (g.push (.cell ⟨e, i⟩) true true)) :
    Keeps t (adtPutP e) Q g := by
  apply Protocol.Ok.bind
  apply keeps_take h.may
  apply Protocol.Ok.bind
  apply keeps_popFree
  · apply Protocol.Ok.bind
    apply keeps_release_top
    exact hnone
  · intro i full
    apply Protocol.Ok.bind
    apply keeps_release_top (g := { g with own := some ⟨e, i⟩ })
    have hmay : May t { g with own := some ⟨e, i⟩ } (.cell ⟨e, i⟩) :=
      ⟨h.1, .inr (.inl ⟨_, rfl, rfl⟩)⟩
    apply Protocol.Ok.bind
    apply keeps_take hmay
    apply Protocol.Ok.bind
    apply keeps_install rfl
    have hback : ({ g with own := none } : Ghost) = g := by rw [← hown]
    rw [← hback] at hsome
    exact hsome i full

theorem keeps_adbPutTo {Q : Unit ⊕ Vaddr → Ghost → Prop} (h : g.Below 2) (hown : g.own = none)
    (hagain : Q (.inl ()) g) (hput : ∀ v, Q (.inr v) (g.push (.cell v) true true)) :
    Keeps t (adbPutTo e) Q g := by
  apply Protocol.Ok.bind
  apply keeps_take h.may
  apply Protocol.Ok.bind
  apply keeps_release_top
  apply Protocol.Ok.bind
  apply keeps_adtPutP (h.mono (by decide)) hown
  · exact hagain
  · intro i full
    apply keeps_ite
    · apply Protocol.Ok.bind
      apply keeps_adbTryRemoval h.cell
      exact hput ⟨e, i⟩
    · exact hput ⟨e, i⟩

theorem keeps_adbPutP {Q : Vaddr → Ghost → Prop} (h : g.Below 2) (hown : g.own = none)
    (hput : ∀ v, Q v (g.push (.cell v) true true)) : Keeps t adbPutP Q g := by
  apply Protocol.Ok.loop (I := fun _ g' => g' = g) _ rfl
  rintro _ _ rfl
  apply keeps_read h.may
  intro head
  cases head with
  | none =>
    apply Protocol.Ok.bind
    apply keeps_adbTryExpand h
    exact rfl
  | some entryIndex => exact keeps_adbPutTo h hown rfl hput

/-! ## The blocks -/

/-- A malloc in a block: the new cell's lock is kept, the block's is given back. -/
theorem keeps_mbMallocAndHold {Q : Option Vaddr → Ghost → Prop} (h : g.Below 1) (hown : g.own = none)
    (hnone : Q none g) (hsome : ∀ v, Q (some v) (g.push (.cell v) true true)) :
    Keeps t (mbMallocAndHold m) Q g := by
  have hmem : (g.push (.mem m) true false).Below 2 := (h.mono (by decide)).push Nat.one_lt_two nofun
  apply Protocol.Ok.bind
  apply keeps_take h.may
  apply Protocol.Ok.bind
  apply keeps_arbitrary
  intro room
  apply keeps_ite
  · apply Protocol.Ok.bind
    apply keeps_release_top
    exact hnone
  · apply Protocol.Ok.bind
    apply keeps_adbPutP hmem hown
    intro v
    apply Protocol.Ok.bind
    apply keeps_release_under
    · exact nofun
    · exact hsome v

theorem keeps_msNextRnd {Q : Nat → Ghost → Prop} (h : g.Below 2) (hQ : ∀ n, Q n g) :
    Keeps t msNextRnd Q g := by
  apply Protocol.Ok.bind
  apply keeps_take h.may
  apply Protocol.Ok.bind
  apply keeps_arbitrary
  intro rnd
  apply Protocol.Ok.bind
  apply keeps_release_top
  exact hQ rnd

theorem keeps_setMb {Q : Unit → Ghost → Prop} (hQ : Q () g) : Keeps t (modify (·.setMb v m)) Q g :=
  keeps_modify_same (fun _ => ⟨⟨fun _ => rfl, rfl, rfl, rfl⟩, rfl⟩) hQ

theorem keeps_msThrow {Q : Option Vaddr → Ghost → Prop} (h : g.Below 1) (hown : g.own = none)
    (hnone : Q none g) (hsome : ∀ v, Q (some v) (g.push (.cell v) true true)) (n : Nat) :
    Keeps t (msThrow n) Q g := by
  have hlist : (g.push .mbList false false).Below 2 := (h.mono (by decide)).push (by decide) nofun
  induction n with
  | zero => exact hnone
  | succ n ih =>
    apply Protocol.Ok.bind
    apply keeps_take h.may
    apply Protocol.Ok.bind
    apply keeps_msNextRnd hlist
    intro rnd
    apply Protocol.Ok.bind
    apply keeps_gets
    intro mb
    apply Protocol.Ok.bind
    apply keeps_release_top
    apply Protocol.Ok.bind
    apply keeps_mbMallocAndHold h hown
    · exact ih
    · intro v
      apply Protocol.Ok.bind
      apply keeps_setMb
      exact hsome v

theorem keeps_msGrow {Q : Vaddr → Ghost → Prop} (h : g.Below 1) (hown : g.own = none)
    (hput : ∀ v, Q v (g.push (.cell v) true true)) : Keeps t msGrow Q g := by
  apply Protocol.Ok.bind
  refine keeps_modifyGet_same (fun _ => ⟨⟨fun _ => rfl, rfl, rfl, rfl⟩, rfl⟩) fun mb => ?_
  apply Protocol.Ok.bind
  apply keeps_mbMallocAndHold h hown
  · exact keeps_halt
  · intro v
    apply Protocol.Ok.bind
    apply keeps_setMb
    apply Protocol.Ok.bind
    apply keeps_take h.cell.may
    apply Protocol.Ok.bind
    refine keeps_modify_same (fun _ => ⟨⟨fun _ => rfl, rfl, rfl, rfl⟩, rfl⟩) ?_
    apply Protocol.Ok.bind
    apply keeps_release_top
    exact hput v

theorem keeps_msMallocAndHold {Q : Vaddr → Ghost → Prop} (h : g.Below 1) (hown : g.own = none)
    (hput : ∀ v, Q v (g.push (.cell v) true true)) : Keeps t msMallocAndHold Q g := by
  apply keeps_read h.may
  intro len
  apply Protocol.Ok.bind
  apply keeps_msThrow h hown
  · exact keeps_msGrow h hown hput
  · exact hput

/-! ## What a mutator calls -/

theorem isSome_setStatus (s : Space) (v w : Vaddr) (st : GcStatus) :
    ((s.setStatus v st).obj w).isSome = (s.obj w).isSome := by
  rw [Space.obj_setStatus]
  split
  next heq => rw [heq, Option.isSome_map]
  next => rfl

section

variable {Q : Unit → Ghost → Prop}

/-- A change of the space's own data that allocates and frees no object. -/
theorem keeps_onSpace {f : Space → Space} (hobj : ∀ s v, ((f s).obj v).isSome = (s.obj v).isSome)
    (hbook : ∀ s, (f s).bookLen = s.bookLen ∧ (f s).tableCap = s.tableCap) (hQ : Q () g) :
    Keeps t (onSpace f) Q g :=
  keeps_modify_same (fun d => ⟨⟨hobj d.toSpace, rfl, (hbook d.toSpace).1, (hbook d.toSpace).2⟩, rfl⟩) hQ

theorem keeps_csMallocAndHold {Q : Vaddr → Ghost → Prop} {da : List UInt8} (h : g.Below 1)
    (hown : g.own = none) (hput : ∀ v, Q v (g.push (.cell v) true true)) :
    Keeps t (csMallocAndHold n da) Q g := by
  apply Protocol.Ok.bind
  apply keeps_msMallocAndHold h hown
  intro v
  apply Protocol.Ok.bind
  apply keeps_onSpace
  · intro s w
    rw [Space.obj_setObj]
    split
    next heq => rw [heq, Option.isSome_map]
    next => rfl
  · exact fun _ => ⟨rfl, rfl⟩
  · exact hput v

theorem keeps_csMallocObject {da : List UInt8} (h : g.Below 1) (hown : g.own = none) (hQ : Q () g) :
    Keeps t (csMallocObject n da) Q g := by
  apply Protocol.Ok.bind
  apply keeps_csMallocAndHold h hown
  intro v
  exact keeps_adbUnlock (h.mono (by decide)) hQ

/-- A section under one of the locks of the space. -/
theorem keeps_section {f : Space → Space} (h : g.Below (rank l))
    (hobj : ∀ s v, ((f s).obj v).isSome = (s.obj v).isSome)
    (hbook : ∀ s, (f s).bookLen = s.bookLen ∧ (f s).tableCap = s.tableCap) (hQ : Q () g) :
    Keeps t (do wrlock l; onSpace f; release l) Q g := by
  apply Protocol.Ok.bind
  apply keeps_take h.may
  apply Protocol.Ok.bind
  apply keeps_onSpace hobj hbook
  exact keeps_release_top hQ

theorem keeps_csRoot (h : g.Below 1) (hQ : Q () g) : Keeps t (csRoot v) Q g := by
  have hsame : ∀ s : Space, Space.SameObjects s (((s.csRoot v).map Prod.snd).getD s) := by
    intro s
    cases hroot : s.csRoot v with
    | none => exact ⟨rfl, rfl, rfl, rfl, rfl, rfl, rfl⟩
    | some r => exact Space.csRoot_sameObjects hroot
  apply keeps_section h _ _ hQ
  · intro s w
    unfold Space.obj
    rw [(hsame s).cells]
  · exact fun s => ⟨(hsame s).bookLen, (hsame s).tableCap⟩

theorem keeps_csDeroot (h : g.Below 1) (hQ : Q () g) : Keeps t (csDeroot n) Q g := by
  apply keeps_section h _ _ hQ
  · intro s w
    unfold Space.obj
    rw [(Space.csDeroot_sameObjects s n).cells]
  · exact fun s => ⟨(Space.csDeroot_sameObjects s n).bookLen, (Space.csDeroot_sameObjects s n).tableCap⟩

theorem keeps_csMallocRoot {da : List UInt8} (h : g.Below 1) (hown : g.own = none) (hQ : Q () g) :
    Keeps t (csMallocRoot n da) Q g := by
  apply Protocol.Ok.bind
  apply keeps_csMallocAndHold h hown
  intro v
  apply Protocol.Ok.bind
  apply keeps_csRoot h.cell
  exact keeps_adbUnlock (h.mono (by decide)) hQ

theorem keeps_csGetRootVaddr {Q : Vaddr → Ghost → Prop} (h : g.Below 1) (hQ : ∀ v, Q v g) :
    Keeps t (csGetRootVaddr n) Q g := by
  apply keeps_read h.may
  intro res
  exact hQ res.2

theorem keeps_csVisitObj (h : g.Below 2) (hQ : Q () g) : Keeps t (csVisitObj v) Q g := by
  apply Protocol.Ok.bind
  apply keeps_take h.may
  apply Protocol.Ok.bind
  refine keeps_onSpace (fun _ _ => rfl) (fun _ => ⟨rfl, rfl⟩) ?_
  apply Protocol.Ok.bind
  apply keeps_release_top
  exact keeps_onSpace (fun s w => isSome_setStatus s v w .visited) (fun _ => ⟨rfl, rfl⟩) hQ

theorem keeps_csPaintBlackInProgress {Q : Bool → Ghost → Prop} (h : g.Below 2) (hQ : ∀ b, Q b g) :
    Keeps t csPaintBlackInProgress Q g := by
  apply keeps_read h.may
  intro paintBlack
  exact hQ paintBlack

theorem keeps_csGetWrite (h : g.Below 2) (hmay : May t g (.cell v))
    (hQ : Q () (g.push (.cell v) true true)) : Keeps t (csGetWrite v) Q g := by
  apply Protocol.Ok.bind
  apply keeps_adbGet h hmay
  apply Protocol.Ok.bind
  apply keeps_gets
  intro status
  apply keeps_ite
  · exact hQ
  · apply Protocol.Ok.bind
    apply keeps_csPaintBlackInProgress h.cell
    intro paintBlack
    apply keeps_ite
    · exact keeps_csVisitObj h.cell hQ
    · exact hQ

end

/-! ## What the worker calls -/

/-- Nothing held, nothing in hand. -/
def Ghost.idle : Ghost := ⟨[], none, none⟩

theorem Ghost.idle_below : Ghost.idle.Below n := ⟨nofun, nofun⟩

/-- A cell is the first lock that is taken. -/
theorem Ghost.idle_may : May t .idle l := ⟨nofun, .inl nofun⟩

/-- A walk over the cells locks one at a time. -/
theorem keeps_adbForeach {Q : β → Ghost → Prop} {c : Vaddr → β → Shared → β × Shared} {b : β}
    (hc : ∀ v b d, Same d (c v b d).2) (hQ : ∀ b, Q b .idle) : Keeps t (adbForeach wr c b) Q .idle := by
  have hvisit : ∀ b v, Keeps t (adtVisit wr c b v) (fun _ g => g = .idle) .idle := by
    intro b v
    apply Protocol.Ok.bind
    apply keeps_take Ghost.idle_may
    apply Protocol.Ok.bind
    apply keeps_modifyGet_same
    · intro d
      split
      · exact hc v b d
      · exact .refl d
    · intro b
      apply Protocol.Ok.bind
      apply keeps_release_top
      exact rfl
  apply keeps_read Ghost.idle_may
  intro len
  apply Protocol.Ok.bind
  apply keeps_gets
  intro cap
  apply Protocol.Ok.foldlM _ hQ
  intro b i
  apply Protocol.Ok.bind
  apply keeps_take Ghost.idle_may
  apply Protocol.Ok.bind
  apply keeps_release_top
  exact Protocol.Ok.foldlM (Q := fun _ g => g = .idle) (fun b j => hvisit b ⟨i, j⟩) (fun _ => rfl) _ _

section

variable {Q : Unit → Ghost → Prop}

/-- `adt_free`, from the wait for the cell to the push. -/
theorem keeps_adtFree {Q : Bool → Ghost → Prop} (h : g.Below 3) (hmay : May worker g (.cell v))
    (hQ : ∀ full, Q full ⟨g.held, none, none⟩) : Keeps worker (adtFree v) Q g := by
  have hbelow : Ghost.Below ⟨g.held, some v, none⟩ 3 := h
  apply Protocol.Ok.bind
  apply keeps_adtValidateCellInd
  apply Protocol.Ok.bind
  apply keeps_take hmay
  apply Protocol.Ok.bind
  apply keeps_validateCell
  apply Protocol.Ok.bind
  apply keeps_clear
  apply Protocol.Ok.bind
  apply keeps_release_top
  apply Protocol.Ok.bind
  apply keeps_take hbelow.may
  apply Protocol.Ok.bind
  apply keeps_pushFree rfl
  intro full
  apply Protocol.Ok.bind
  apply keeps_release_top (g := ⟨g.held, none, none⟩)
  exact hQ full

/-- The worker holds the lock of a block. -/
def Ghost.inBlock (mb : Nat) (freeing : Option Vaddr) : Ghost :=
  Ghost.push ⟨[], none, freeing⟩ (.mem mb) true false

theorem Ghost.inBlock_below {f : Option Vaddr} : (Ghost.inBlock m f).Below 2 :=
  Ghost.Below.push (g := ⟨[], none, f⟩) ⟨nofun, nofun⟩ Nat.one_lt_two nofun

theorem Ghost.inBlock_no_cell {f : Option Vaddr} : ∀ x ∈ (Ghost.inBlock m f).held, x.lck ≠ .cell v := by
  intro x hx
  rw [List.mem_singleton.mp hx]
  nofun

/-- `mb_free` waits for the cell with the block's lock. -/
theorem keeps_mbFree (hQ : Q () .idle) : Keeps worker (mbFree m v) Q .idle := by
  have hfrees : (Ghost.inBlock m (some v)).Frees worker (.cell v) :=
    ⟨rfl, ⟨v, rfl, rfl⟩, fun x hx _ => Ghost.inBlock_no_cell x hx, _, List.mem_cons_self, m, rfl⟩
  have hmay : May worker (Ghost.inBlock m (some v)) (.cell v) :=
    ⟨Ghost.inBlock_below.1, .inr (.inr hfrees)⟩
  have hcalled : May worker { Ghost.idle with freeing := some v } (.mem m) := ⟨nofun, .inl nofun⟩
  apply Protocol.Ok.bind
  refine keeps_freeing nofun ?_
  apply Protocol.Ok.bind
  apply keeps_take hcalled
  apply Protocol.Ok.bind
  apply keeps_adbGet Ghost.inBlock_below hmay
  apply Protocol.Ok.bind
  apply keeps_adbUnlock Ghost.inBlock_below
  apply Protocol.Ok.bind
  apply Protocol.Ok.bind
  apply keeps_adbGetAdt Ghost.inBlock_below
  apply Protocol.Ok.bind
  apply keeps_adtFree (Ghost.inBlock_below.mono (by decide)) hmay
  intro full
  apply keeps_ite
  · apply keeps_adbTryAddition (g := Ghost.inBlock m none) Ghost.inBlock_below
    exact keeps_release_top hQ
  · exact keeps_release_top hQ

theorem keeps_msFree (hQ : Q () .idle) : Keeps worker (msFree v) Q .idle := by
  apply Protocol.Ok.bind
  apply keeps_adbGet Ghost.idle_below Ghost.idle_may
  apply Protocol.Ok.bind
  apply keeps_gets
  intro mb
  apply Protocol.Ok.bind
  apply keeps_adbUnlock Ghost.idle_below
  exact keeps_mbFree hQ

theorem keeps_msFilter (hQ : Q () .idle) : Keeps worker msFilter Q .idle := by
  apply Protocol.Ok.bind
  apply keeps_adbForeach fun _ _ d => .refl d
  intro removeStack
  exact Protocol.Ok.foldlM (fun _ v => keeps_msFree rfl) (fun _ => hQ) _ _

/-- A shift waits for no cell: it tries. -/
theorem keeps_adbTryGetWrite {Q : Bool → Ghost → Prop}
    (hgot : Q true ((Ghost.inBlock m none).push (.cell v) true true)) (hbusy : Q false (.inBlock m none)) :
    Keeps worker (adbTryGetWrite v) Q (.inBlock m none) := by
  apply Protocol.Ok.bind
  apply keeps_adbGetAdt Ghost.inBlock_below
  apply Protocol.Ok.bind
  apply keeps_adtValidateCellInd
  apply Protocol.Ok.bind
  apply keeps_trylock Ghost.inBlock_no_cell
  · apply Protocol.Ok.bind
    apply keeps_validateCell
    exact hgot
  · exact hbusy

theorem keeps_mbSeekShift {Q : Option Vaddr → Ghost → Prop} (hnone : Q none (.inBlock m none))
    (hsome : ∀ v, Q (some v) ((Ghost.inBlock m none).push (.cell v) true true)) :
    Keeps worker mbSeekShift Q (.inBlock m none) := by
  apply Protocol.Ok.loop (I := fun _ g => g = Ghost.inBlock m none) _ rfl
  rintro _ _ rfl
  apply Protocol.Ok.bind
  apply keeps_arbitrary
  intro more
  apply keeps_ite
  · exact hnone
  · apply Protocol.Ok.bind
    apply keeps_arbitrary
    intro i
    apply Protocol.Ok.bind
    apply keeps_arbitrary
    intro j
    apply Protocol.Ok.bind
    apply keeps_adbTryGetWrite
    · exact hsome ⟨i, j⟩
    · exact rfl

theorem keeps_mbTryShift {Q : Bool → Ghost → Prop} (hQ : ∀ b, Q b .idle) :
    Keeps worker (mbTryShift m) Q .idle := by
  apply Protocol.Ok.bind
  apply keeps_take Ghost.idle_may
  apply Protocol.Ok.bind
  apply keeps_mbSeekShift
  · apply Protocol.Ok.bind
    apply keeps_release_top
    exact hQ false
  · intro v
    apply Protocol.Ok.bind
    apply keeps_adbMoveP Ghost.inBlock_below.cell
    apply Protocol.Ok.bind
    apply keeps_adbUnlock Ghost.inBlock_below
    apply Protocol.Ok.bind
    apply keeps_release_top
    exact hQ true

theorem keeps_msTryFullShift (hQ : Q () .idle) : Keeps worker msTryFullShift Q .idle := by
  have hshift : ∀ mb, Keeps worker (mbTryFullShift mb) (fun _ g => g = .idle) .idle := by
    intro mb
    apply Protocol.Ok.loop (I := fun _ g => g = .idle) _ rfl
    rintro _ _ rfl
    apply Protocol.Ok.bind
    apply keeps_mbTryShift
    intro moved
    exact keeps_ite rfl rfl
  apply keeps_read Ghost.idle_may
  intro len
  apply Protocol.Ok.foldlM _ fun _ => hQ
  intro _ i
  apply keeps_read Ghost.idle_may
  intro mb
  exact hshift mb

/-! ## A collection -/

theorem keeps_csSetPaintBlackInProgress {b : Bool} (h : g.Below 2) (hQ : Q () g) :
    Keeps t (csSetPaintBlackInProgress b) Q g :=
  keeps_section h (fun _ _ => rfl) (fun _ => ⟨rfl, rfl⟩) hQ

theorem keeps_pushRoots (hQ : Q () .idle) : Keeps t pushRoots Q .idle := by
  have hroots : (Ghost.idle.push .rootSet false false).Below 2 :=
    Ghost.idle_below.push (by decide) nofun
  apply Protocol.Ok.bind
  apply keeps_take Ghost.idle_may
  apply Protocol.Ok.bind
  apply keeps_csSetPaintBlackInProgress hroots
  apply Protocol.Ok.bind
  apply keeps_take hroots.may
  apply Protocol.Ok.bind
  refine keeps_onSpace (fun _ _ => rfl) (fun _ => ⟨rfl, rfl⟩) ?_
  apply Protocol.Ok.bind
  apply keeps_release_top
  exact keeps_release_top hQ

theorem keeps_drainInProgress {Q : Bool → Ghost → Prop} {b : Bool} (hQ : ∀ b, Q b .idle) :
    Keeps t (drainInProgress b) Q .idle := by
  apply Protocol.Ok.loop (I := fun _ g => g = .idle) _ rfl
  rintro productive _ rfl
  apply Protocol.Ok.bind
  apply keeps_take Ghost.idle_may
  apply Protocol.Ok.bind
  refine keeps_modifyGet_same (fun _ => ⟨⟨fun _ => rfl, rfl, rfl, rfl⟩, rfl⟩) fun top => ?_
  apply Protocol.Ok.bind
  apply keeps_release_top
  cases top with
  | none => exact hQ productive
  | some v =>
    apply Protocol.Ok.bind
    apply keeps_adbGet Ghost.idle_below Ghost.idle_may
    apply Protocol.Ok.bind
    apply keeps_onSpace
    · intro s w
      split
      · exact isSome_setStatus s v w .inProgress
      · rfl
    · intro s
      split <;> exact ⟨rfl, rfl⟩
    · apply Protocol.Ok.bind
      apply keeps_adbUnlock Ghost.idle_below
      exact rfl

theorem keeps_drainVisit {Q : Bool → Ghost → Prop} {b : Bool} (hQ : ∀ b, Q b .idle) :
    Keeps t (drainVisit b) Q .idle := by
  apply Protocol.Ok.loop (I := fun _ g => g = .idle) _ rfl
  rintro productive _ rfl
  apply Protocol.Ok.bind
  refine keeps_modifyGet_same (fun _ => ⟨⟨fun _ => rfl, rfl, rfl, rfl⟩, rfl⟩) fun top => ?_
  cases top with
  | none => exact hQ productive
  | some v =>
    apply Protocol.Ok.bind
    apply keeps_adbGet Ghost.idle_below Ghost.idle_may
    apply Protocol.Ok.bind
    apply keeps_gets
    intro status
    apply keeps_ite
    · apply Protocol.Ok.bind
      apply keeps_csVisitObj Ghost.idle_below.cell
      apply Protocol.Ok.bind
      apply keeps_adbUnlock Ghost.idle_below
      exact rfl
    · apply Protocol.Ok.bind
      apply keeps_adbUnlock Ghost.idle_below
      exact rfl

theorem keeps_markLoop (hQ : Q () .idle) : Keeps t markLoop Q .idle := by
  apply Protocol.Ok.loop (I := fun _ g => g = .idle) _ rfl
  rintro _ _ rfl
  apply Protocol.Ok.bind
  apply keeps_drainInProgress
  intro productive
  apply Protocol.Ok.bind
  apply keeps_drainVisit
  intro productive
  exact keeps_ite rfl hQ

theorem keeps_csCollectGarbage (hQ : Q () .idle) : Keeps worker csCollectGarbage Q .idle := by
  apply Protocol.Ok.bind
  apply keeps_take Ghost.idle_may
  apply Protocol.Ok.bind
  apply keeps_gets
  intro inProgress
  apply keeps_ite
  · exact keeps_release_top hQ
  · apply Protocol.Ok.bind
    refine keeps_onSpace (fun _ _ => rfl) (fun _ => ⟨rfl, rfl⟩) ?_
    apply Protocol.Ok.bind
    apply keeps_release_top
    apply Protocol.Ok.bind
    apply keeps_adbForeach
    · intro v _ d
      exact ⟨⟨fun w => isSome_setStatus d.toSpace v w .unvisited, rfl, rfl, rfl⟩, rfl⟩
    · intro _
      apply Protocol.Ok.bind
      apply keeps_pushRoots
      apply Protocol.Ok.bind
      apply keeps_markLoop
      apply Protocol.Ok.bind
      apply keeps_csSetPaintBlackInProgress Ghost.idle_below
      apply Protocol.Ok.bind
      apply keeps_msFilter
      exact keeps_section Ghost.idle_below (fun _ _ => rfl) (fun _ => ⟨rfl, rfl⟩) hQ

end

end Chvm.Cs.Locking
