import Chvm.Lib.Run
import Chvm.Util.Tables

/-!
# The broken collection as a double-ended queue

`Deque` is a collection between two calls, with the list it holds. The pushes and pops refine the
list operations at its two ends, as long as the size of a table fits a word.
-/

set_option autoImplicit false

namespace Chvm.Util

open Chvm.Core Chvm.Lib

/-- A collection that holds the list `l`: the first element is in the first table, and there is room
behind the last element in the last. A collection that deletes its empty tables has no others. -/
def Deque (cs ts : Nat) (bc : Bc) (l : List (List UInt8)) : Prop :=
  ∃ pre mid post front back, Shows cs ts bc pre mid post front l back ∧ front.length < ts ∧
    back ≠ [] ∧ (bc.deleteEmptyTables = true → pre = [] ∧ post = [])

/-- A collection between two calls, with the chain of its tables. -/
def Laid (cs ts : Nat) (bc : Bc) (l : List (List UInt8)) (chain : List Nat) : Prop :=
  ∃ pre mid post front back, pre ++ (mid ++ post) = chain ∧ Shows cs ts bc pre mid post front l back ∧
    front.length < ts ∧ back ≠ [] ∧ (bc.deleteEmptyTables = true → pre = [] ∧ post = [])

variable {cs ts : Nat} {bc bc' : Bc} {pre mid post chain : List Nat}
  {front elems back l : List (List UInt8)} {a b : Nat} {src x : List UInt8} {host : Host}

theorem deque_iff : Deque cs ts bc l ↔ ∃ chain, Laid cs ts bc l chain := by
  constructor
  · rintro ⟨pre, mid, post, front, back, h⟩
    exact ⟨_, pre, mid, post, front, back, rfl, h⟩
  · rintro ⟨chain, pre, mid, post, front, back, -, h⟩
    exact ⟨pre, mid, post, front, back, h⟩

theorem BcHostOk.kept (h : BcHostOk bc host) (hkept : bc.Kept bc') : BcHostOk bc' host := by
  intro size raw bytes hans
  obtain ⟨hlen, hpos, hlt, hfree⟩ := h size raw bytes hans
  refine ⟨hlen, hpos, hlt, fun hused => hfree ?_⟩
  have hmem : raw + 1 ∈ bc'.tables := hused
  rw [hkept.tables] at hmem
  exact hmem

/-! ## The pushes -/

/-- A new table is made only when there is none. -/
theorem Shows.growBack_linked (h : Shows cs ts bc pre mid post front elems back) (hpost : post ≠ []) :
    bc.growBack host = .ok bc := by
  obtain ⟨mid', a, table, rfl, -, htable, -, hread⟩ := h.table_last
  obtain ⟨b, post', rfl⟩ := List.exists_cons_of_ne_nil hpost
  have hnext : table.next = some b := (h.links (pre ++ mid') (b :: post')
    (by simp only [List.append_assoc, List.cons_append, List.nil_append]) htable).2
  simp only [Bc.growBack, hread, hnext, bind, Except.bind, pure, Except.pure]

theorem Shows.growFront_linked (h : Shows cs ts bc pre mid post front elems back) (hpre : pre ≠ []) :
    bc.growFront host = .ok bc := by
  obtain ⟨a, mid', table, rfl, -, htable, -, hread⟩ := h.table_first
  obtain ⟨pre', b, rfl⟩ := (List.eq_nil_or_concat' pre).resolve_left hpre
  have hprev : table.prev = some b := by
    rw [(h.links (pre' ++ [b]) (mid' ++ post) (by simp only [List.cons_append]) htable).1,
      List.getLast?_append]
    rfl
  simp only [Bc.growFront, hread, hprev, bind, Except.bind, pure, Except.pure]

theorem Shows.cells_ne_nil (h : Shows cs ts bc pre mid post front elems back) (hts : ts ≠ 0)
    (ha : a ∈ pre ++ (mid ++ post)) : bc.cells a ≠ [] := by
  intro hnil
  have hlen := h.length_cells ha
  rw [hnil] at hlen
  exact hts hlen.symm

/-- Behind a full last table the next one is the last. -/
theorem Shows.enterBack (h : Shows cs ts bc pre mid (b :: post) front l []) (hts : ts ≠ 0)
    (hfront : front.length < ts) (hdel : bc.deleteEmptyTables = true → pre = [] ∧ post = []) :
    ∃ bc', bc.advanceBack = .ok bc' ∧ bc.Kept bc' ∧ Laid cs ts bc' l (pre ++ (mid ++ b :: post)) := by
  obtain ⟨bc', hadv, hkept, h'⟩ := h.advanceBack
  refine ⟨bc', hadv, hkept, pre, mid ++ [b], post, front, _, ?_, h', hfront, ?_, hkept.mode ▸ hdel⟩
  · rw [List.append_assoc mid, List.singleton_append]
  · exact h.cells_ne_nil hts (List.mem_append_right _ (List.mem_append_right _ List.mem_cons_self))

/-- **Push back.** -/
theorem Laid.pushBack (h : Laid cs ts bc l chain) (hts : ts ≠ 0) (hsrc : src.length = cs)
    (hhost : BcHostOk bc host) :
    bc.bcPushBack src host = .error .exit ∧ host (17 + cs * ts) = none ∨
      ∃ bc' chain', bc.bcPushBack src host = .ok bc' ∧ Laid cs ts bc' (l ++ [src]) chain' ∧
        bc.Moves bc' chain chain' ∧ chain <+: chain' := by
  obtain ⟨pre, mid, post, front, back, rfl, h, hfront, hback, hdel⟩ := h
  obtain ⟨y, back, rfl⟩ := List.exists_cons_of_ne_nil hback
  obtain ⟨bc₁, hput, hkept, h₁⟩ := h.putBack hsrc
  have hstop := h₁.stop
  unfold Bc.bcPushBack
  simp only [hput, bind, Except.bind, h₁.sizes.2]
  by_cases hroom : back = []
  · -- the last table is full: the next one is entered, or made first
    subst hroom
    rw [if_neg (by rw [List.length_nil] at hstop; omega)]
    cases post with
    | nil =>
      rcases h₁.growBack (hhost.kept hkept) with ⟨hexit, hnone⟩ | ⟨bc₂, b, hgrow, hmoves, h₂⟩
      · exact .inl ⟨by rw [hexit], hnone⟩
      · obtain ⟨bc', hadv, hkept', hlaid⟩ := h₂.enterBack hts hfront
          (hmoves.mode.trans hkept.mode ▸ hdel)
        refine .inr ⟨bc', _, by rw [hgrow]; exact hadv, hlaid,
          (hkept.moves.trans hmoves).trans hkept'.moves, ?_⟩
        rw [List.append_nil, ← List.append_assoc]
        exact List.prefix_append _ [b]
    | cons b post =>
      obtain ⟨bc', hadv, hkept', hlaid⟩ := h₁.enterBack hts hfront fun hd =>
        absurd (hdel (hkept.mode.symm.trans hd)).2 (List.cons_ne_nil b post)
      refine .inr ⟨bc', _, ?_, hlaid, hkept.moves.trans hkept'.moves, List.prefix_rfl⟩
      rw [h₁.growBack_linked (List.cons_ne_nil b post)]
      exact hadv
  · have hpos := List.length_pos_iff.mpr hroom
    rw [if_pos (by omega)]
    exact .inr ⟨bc₁, _, rfl, ⟨pre, mid, post, front, back, rfl, h₁, hfront, hroom, hkept.mode ▸ hdel⟩,
      hkept.moves, List.prefix_rfl⟩

/-- In front of a full first table the one before it is the first, and takes the element. -/
theorem Shows.enterFront (h : Shows cs ts bc (pre ++ [b]) mid post [] l back) (hts : ts ≠ 0)
    (hback : back ≠ []) (hdel : bc.deleteEmptyTables = true → pre = [] ∧ post = [])
    (hsrc : src.length = cs) : ∃ bc₁ bc', bc.retreatFront = .ok bc₁ ∧ bc₁.putFront src = .ok bc' ∧
      bc.Moves bc' (pre ++ b :: (mid ++ post)) (pre ++ b :: (mid ++ post)) ∧
      Laid cs ts bc' (src :: l) (pre ++ b :: (mid ++ post)) := by
  obtain ⟨bc₁, hret, hkept₁, h₁⟩ := h.retreatFront
  have hmem : b ∈ (pre ++ [b]) ++ (mid ++ post) :=
    List.mem_append_left _ (List.mem_append_right _ List.mem_cons_self)
  have hlen := h.length_cells hmem
  obtain ⟨front, y, hcells⟩ := (List.eq_nil_or_concat' _).resolve_left (h.cells_ne_nil hts hmem)
  rw [hcells] at h₁ hlen
  have hstart := h₁.start
  obtain ⟨bc', hput, hkept', h'⟩ := h₁.putFront (by omega) hsrc
  refine ⟨bc₁, bc', hret, hput, hkept₁.moves.trans hkept'.moves, pre, b :: mid, post, front, back,
    by rw [List.cons_append], h', ?_, hback, hkept'.mode.trans hkept₁.mode ▸ hdel⟩
  rw [List.length_append, List.length_singleton] at hlen
  omega

/-- **Push front.** -/
theorem Laid.pushFront (h : Laid cs ts bc l chain) (hts : ts ≠ 0) (hsrc : src.length = cs)
    (hhost : BcHostOk bc host) :
    bc.bcPushFront src host = .error .exit ∧ host (17 + cs * ts) = none ∨
      ∃ bc' chain', bc.bcPushFront src host = .ok bc' ∧ Laid cs ts bc' (src :: l) chain' ∧
        bc.Moves bc' chain chain' ∧ chain <:+ chain' := by
  obtain ⟨pre, mid, post, front, back, rfl, h, hfront, hback, hdel⟩ := h
  have hstart := h.start
  unfold Bc.bcPushFront
  by_cases hnil : front = []
  · -- the first table is full: the one in front is entered, or made first
    subst hnil
    rw [List.length_nil] at hstart
    rw [if_pos hstart.symm]
    simp only [bind, Except.bind]
    rcases List.eq_nil_or_concat' pre with rfl | ⟨pre, b, rfl⟩
    · rcases h.growFront hhost with ⟨hexit, hnone⟩ | ⟨bc₁, b, hgrow, hmoves, h₁⟩
      · exact .inl ⟨by rw [hexit], hnone⟩
      · have h₁' : Shows cs ts bc₁ ([] ++ [b]) mid post [] l back := h₁
        obtain ⟨bc₂, bc', hret, hput, hmoves', hlaid⟩ := h₁'.enterFront hts hback
          (hmoves.mode ▸ hdel) hsrc
        refine .inr ⟨bc', _, ?_, hlaid, hmoves.trans hmoves', List.suffix_cons b _⟩
        simp only [hgrow, hret, hput]
    · have hne : pre ++ [b] ≠ [] := List.append_ne_nil_of_right_ne_nil _ (List.cons_ne_nil b [])
      obtain ⟨bc₂, bc', hret, hput, hmoves, hlaid⟩ := h.enterFront hts hback
        (fun hd => absurd (hdel hd).1 hne) hsrc
      rw [List.append_assoc, List.singleton_append]
      refine .inr ⟨bc', _, ?_, hlaid, hmoves, List.suffix_rfl⟩
      rw [h.growFront_linked hne]
      simp only [hret, hput]
  · have hpos := List.length_pos_iff.mpr hnil
    rw [if_neg (by omega)]
    obtain ⟨front', y, rfl⟩ := (List.eq_nil_or_concat' front).resolve_left hnil
    obtain ⟨bc', hput, hkept, h'⟩ := h.putFront (by omega) hsrc
    refine .inr ⟨bc', _, hput, ⟨pre, mid, post, front', back, rfl, h', ?_, hback, hkept.mode ▸ hdel⟩,
      hkept.moves, List.suffix_rfl⟩
    rw [List.length_append, List.length_singleton] at hfront
    omega

/-! ## The pops -/

/-- The cursors meet exactly when the list is empty. -/
theorem Deque.empty_iff (h : Deque cs ts bc l) : bc.bcEmpty = true ↔ l = [] := by
  obtain ⟨pre, mid, post, front, back, h, hfront, hback, hdel⟩ := h
  have hlen := h.length_mid
  have hstart := h.start
  have hstop := h.stop
  have hpos := List.length_pos_iff.mpr hback
  simp only [Bc.bcEmpty, Bool.and_eq_true, decide_eq_true_eq]
  constructor
  · rintro ⟨hends, hcursors⟩
    have hone : mid.length = 1 := by
      rw [h.ends.1, h.ends.2] at hends
      obtain ⟨a, mid, rfl⟩ := List.exists_cons_of_ne_nil h.nonempty
      have hnodup := (List.nodup_append.mp (List.nodup_append.mp h.nodup).2.1).1
      cases mid with
      | nil => rfl
      | cons b mid =>
        rw [List.head?_cons, List.getLast?_cons_cons] at hends
        exact absurd (List.mem_of_getLast? hends.symm) (List.nodup_cons.mp hnodup).1
    rw [hone, Nat.one_mul] at hlen
    exact List.length_eq_zero_iff.mp (by omega)
  · rintro rfl
    rw [List.length_nil] at hlen
    obtain ⟨a, mid, rfl⟩ := List.exists_cons_of_ne_nil h.nonempty
    cases mid with
    | nil =>
      rw [List.length_singleton, Nat.one_mul] at hlen
      exact ⟨h.ends.1.trans h.ends.2.symm, by omega⟩
    | cons b mid =>
      rw [List.length_cons, List.length_cons, Nat.succ_mul, Nat.succ_mul] at hlen
      omega

/-- The last element is taken out of the last table. -/
theorem Shows.leaveBack (h : Shows cs ts bc pre mid post front (l ++ [x]) back)
    (hfront : front.length < ts) (hlt : back.length < ts)
    (hdel : bc.deleteEmptyTables = true → pre = [] ∧ post = []) :
    ∃ bc', bc.takeBack = .ok (x, bc') ∧ bc.Kept bc' ∧ Laid cs ts bc' l (pre ++ (mid ++ post)) := by
  have hstop := h.stop
  obtain ⟨bc', htake, hkept, h'⟩ := h.takeBack (by omega)
  exact ⟨bc', htake, hkept, pre, mid, post, front, _, rfl, h', hfront, List.cons_ne_nil x back,
    hkept.mode ▸ hdel⟩

/-- **Pop back.** In the mode that deletes, the last table goes when its cursor is at its start. -/
theorem Laid.popBack (h : Laid cs ts bc (l ++ [x]) chain) (hts : ts ≠ 0) :
    ∃ bc' chain', bc.bcPopBack = .ok (x, bc') ∧ Laid cs ts bc' l chain' ∧ bc.Moves bc' chain chain' ∧
      (chain' = chain ∨ bc.deleteEmptyTables = true ∧ bc.lastEnd = 0 ∧ ∃ b, chain = chain' ++ [b]) := by
  have hne : l ++ [x] ≠ [] := List.append_ne_nil_of_right_ne_nil l (List.cons_ne_nil x [])
  have hempty : bc.bcEmpty = false :=
    Bool.eq_false_iff.mpr fun htrue => hne ((deque_iff.mpr ⟨chain, h⟩).empty_iff.mp htrue)
  obtain ⟨pre, mid, post, front, back, rfl, h, hfront, hback, hdel⟩ := h
  unfold Bc.bcPopBack
  simp only [hempty, Bool.false_eq_true, if_false]
  by_cases hzero : bc.lastEnd = 0
  · obtain ⟨bc₁, mid', b, hret, hkept₁, hchain, h₁⟩ := h.retreatBack hzero hne
    have hroom : ([] : List (List UInt8)).length < ts := Nat.pos_of_ne_zero hts
    simp only [if_pos hzero, hret, bind, Except.bind, hkept₁.mode]
    split
    next hd =>
      obtain ⟨rfl, rfl⟩ := hdel hd
      obtain ⟨bc₂, htrim, hmoves, h₂⟩ := h₁.trimBack
      obtain ⟨bc', htake, hkept', hlaid⟩ := h₂.leaveBack hfront hroom fun _ => ⟨rfl, rfl⟩
      refine ⟨bc', _, by rw [htrim]; exact htake, hlaid, ?_, .inr ⟨hd, hzero, b, ?_⟩⟩
      · rw [← hchain]
        exact (hkept₁.moves.trans hmoves).trans hkept'.moves
      · rw [← hchain, List.append_nil]
        rfl
    next hd =>
      obtain ⟨bc', htake, hkept', hlaid⟩ := h₁.leaveBack hfront hroom fun hd' =>
        absurd (hkept₁.mode.symm.trans hd') hd
      rw [hchain] at hlaid
      exact ⟨bc', _, htake, hlaid, hkept₁.moves.trans hkept'.moves, .inl rfl⟩
  · simp only [if_neg hzero]
    have hstop := h.stop
    obtain ⟨bc', htake, hkept, hlaid⟩ := h.leaveBack hfront (by omega) hdel
    exact ⟨bc', _, htake, hlaid, hkept.moves, .inl rfl⟩

/-- **Pop front.** In the mode that deletes, the first table goes when its last cell was read. -/
theorem Laid.popFront (h : Laid cs ts bc (x :: l) chain) :
    ∃ bc' chain', bc.bcPopFront = .ok (x, bc') ∧ Laid cs ts bc' l chain' ∧ bc.Moves bc' chain chain' ∧
      (chain' = chain ∨ bc.deleteEmptyTables = true ∧ bc.firstStart + 1 = ts ∧
        ∃ b, chain = b :: chain') := by
  have hempty : bc.bcEmpty = false :=
    Bool.eq_false_iff.mpr fun htrue =>
      List.cons_ne_nil x l ((deque_iff.mpr ⟨chain, h⟩).empty_iff.mp htrue)
  obtain ⟨pre, mid, post, front, back, rfl, h, hfront, hback, hdel⟩ := h
  have hstart := h.start
  obtain ⟨bc₁, htake, hkept₁, h₁⟩ := h.takeFront (by omega)
  have hstart₁ := h₁.start
  rw [List.length_append, List.length_singleton] at hstart₁
  unfold Bc.bcPopFront
  simp only [hempty, Bool.false_eq_true, if_false, htake, bind, Except.bind, h₁.sizes.2]
  by_cases hfull : bc₁.firstStart = ts
  · obtain ⟨bc₂, mid', b, hadv, hkept₂, hchain, h₂⟩ := h₁.advanceFront hfull hback
    simp only [if_pos hfull, hadv, hkept₂.mode, hkept₁.mode]
    split
    next hd =>
      obtain ⟨rfl, rfl⟩ := hdel hd
      obtain ⟨bc', htrim, hmoves, h'⟩ := h₂.trimFront
      refine ⟨bc', mid' ++ [], ?_, ⟨[], mid', [], [], back, rfl, h', by rw [List.length_nil]; omega,
        hback, fun _ => ⟨rfl, rfl⟩⟩, ?_, .inr ⟨hd, by omega, b, hchain.symm⟩⟩
      · rw [htrim]
        rfl
      · rw [← hchain]
        exact (hkept₁.moves.trans hkept₂.moves).trans hmoves
    next hd =>
      refine ⟨bc₂, _, rfl, ⟨pre ++ [b], mid', post, [], back, hchain, h₂,
        by rw [List.length_nil]; omega, hback, fun hd' => ?_⟩, hkept₁.moves.trans hkept₂.moves, .inl rfl⟩
      rw [hkept₂.mode, hkept₁.mode] at hd'
      exact absurd hd' hd
  · simp only [if_neg hfull, pure, Except.pure]
    refine ⟨bc₁, _, rfl, ⟨pre, mid, post, front ++ [x], back, rfl, h₁, ?_, hback, hkept₁.mode ▸ hdel⟩,
      hkept₁.moves, .inl rfl⟩
    rw [List.length_append, List.length_singleton]
    omega

/-! ## The calls on a queue -/

theorem Deque.pushBack (h : Deque cs ts bc l) (hts : ts ≠ 0) (hsrc : src.length = cs)
    (hhost : BcHostOk bc host) :
    bc.bcPushBack src host = .error .exit ∧ host (17 + cs * ts) = none ∨
      ∃ bc', bc.bcPushBack src host = .ok bc' ∧ Deque cs ts bc' (l ++ [src]) := by
  obtain ⟨chain, h⟩ := deque_iff.mp h
  rcases h.pushBack hts hsrc hhost with hexit | ⟨bc', chain', hok, h', -⟩
  · exact .inl hexit
  · exact .inr ⟨bc', hok, deque_iff.mpr ⟨chain', h'⟩⟩

theorem Deque.pushFront (h : Deque cs ts bc l) (hts : ts ≠ 0) (hsrc : src.length = cs)
    (hhost : BcHostOk bc host) :
    bc.bcPushFront src host = .error .exit ∧ host (17 + cs * ts) = none ∨
      ∃ bc', bc.bcPushFront src host = .ok bc' ∧ Deque cs ts bc' (src :: l) := by
  obtain ⟨chain, h⟩ := deque_iff.mp h
  rcases h.pushFront hts hsrc hhost with hexit | ⟨bc', chain', hok, h', -⟩
  · exact .inl hexit
  · exact .inr ⟨bc', hok, deque_iff.mpr ⟨chain', h'⟩⟩

theorem Deque.popBack (h : Deque cs ts bc (l ++ [x])) (hts : ts ≠ 0) :
    ∃ bc', bc.bcPopBack = .ok (x, bc') ∧ Deque cs ts bc' l := by
  obtain ⟨chain, h⟩ := deque_iff.mp h
  obtain ⟨bc', chain', hok, h', -⟩ := h.popBack hts
  exact ⟨bc', hok, deque_iff.mpr ⟨chain', h'⟩⟩

theorem Deque.popFront (h : Deque cs ts bc (x :: l)) :
    ∃ bc', bc.bcPopFront = .ok (x, bc') ∧ Deque cs ts bc' l := by
  obtain ⟨chain, h⟩ := deque_iff.mp h
  obtain ⟨bc', chain', hok, h', -⟩ := h.popFront
  exact ⟨bc', hok, deque_iff.mpr ⟨chain', h'⟩⟩

/-! ## Reading the list -/

/-- The last pointer is at the last table of the middle part. -/
theorem Shows.last_iff {mid₁ mid₂ : List Nat}
    (h : Shows cs ts bc pre (mid₁ ++ a :: mid₂) post front elems back) : some a = bc.last ↔ mid₂ = [] := by
  have hnodup := (List.nodup_append.mp (List.nodup_append.mp h.nodup).2.1).1
  have hcons := (List.nodup_append.mp hnodup).2.1
  rw [h.ends.2, List.getLast?_append_of_ne_nil _ (List.cons_ne_nil a mid₂)]
  cases mid₂ with
  | nil => exact ⟨fun _ => rfl, fun _ => rfl⟩
  | cons b mid₂ =>
    refine ⟨fun hlast => ?_, nofun⟩
    rw [List.getLast?_cons_cons] at hlast
    exact absurd (List.mem_of_getLast? hlast.symm) (List.nodup_cons.mp hcons).1

/-- The loop from a table of the middle part, with `rest` still to come. -/
theorem Shows.foreachFrom {σ : Type} (h : Shows cs ts bc pre mid post front elems back)
    (hback : back ≠ []) (c : List UInt8 → σ → σ) {mid₁ mid₂ : List Nat}
    {seen rest : List (List UInt8)} {fuel : Nat} (hmid : mid = mid₁ ++ a :: mid₂)
    (hcells : (a :: mid₂).flatMap bc.cells = seen ++ (rest ++ back)) (hseen : seen.length < ts)
    (hfuel : rest.length < fuel) (ctx : σ) :
    bc.bcForeachFrom c fuel (some a) seen.length ctx =
      some (.ok (rest.foldl (fun ctx x => c x ctx) ctx)) := by
  have hback' := List.length_pos_iff.mpr hback
  have hstop := h.stop
  induction rest generalizing mid₁ a mid₂ seen fuel ctx with
  | nil =>
    obtain ⟨fuel, rfl⟩ := Nat.exists_eq_succ_of_ne_zero (Nat.ne_of_gt hfuel)
    subst hmid
    have hlen := congrArg List.length hcells
    rw [length_flatMap_const fun b hb => h.length_cells (mem_of_mid (List.mem_append_right _ hb)),
      List.length_cons, List.length_append, List.nil_append] at hlen
    have hlast : mid₂ = [] := by
      cases mid₂ with
      | nil => rfl
      | cons b mid₂ =>
        rw [List.length_cons, Nat.succ_mul, Nat.succ_mul] at hlen
        omega
    subst hlast
    rw [List.length_nil, Nat.zero_add, Nat.one_mul] at hlen
    have hend : some a = bc.last ∧ seen.length = bc.lastEnd := ⟨h.last_iff.mpr rfl, by omega⟩
    rw [Bc.bcForeachFrom, if_pos hend]
    rfl
  | cons x rest ih =>
    obtain ⟨fuel, rfl⟩ := Nat.exists_eq_succ_of_ne_zero (Nat.ne_zero_of_lt hfuel)
    subst hmid
    have ha : a ∈ mid₁ ++ a :: mid₂ := List.mem_append_right _ List.mem_cons_self
    obtain ⟨table, htable, -⟩ := h.sized a (mem_of_mid ha)
    have hread : bc.table (some a) = .ok (a, table) := by
      unfold Bc.table
      simp only [htable]
    have hcellsa := h.length_cells (mem_of_mid ha)
    rw [List.flatMap_cons] at hcells
    have hx : (bc.cells a)[seen.length]? = some x := by
      have hget := congrArg (·[seen.length]?) hcells
      simp only [List.getElem?_append_left (hcellsa ▸ hseen),
        List.getElem?_append_right (Nat.le_refl seen.length), Nat.sub_self, List.cons_append] at hget
      exact hget
    have hnotEnd : ¬ (some a = bc.last ∧ seen.length = bc.lastEnd) := by
      rintro ⟨hlast, hend⟩
      obtain rfl := h.last_iff.mp hlast
      have hlen := congrArg List.length hcells
      rw [List.flatMap_nil, List.append_nil, hcellsa, List.length_append, List.length_append,
        List.length_cons] at hlen
      omega
    have hcells' : bc.cells a ++ mid₂.flatMap bc.cells = (seen ++ [x]) ++ (rest ++ back) := by
      rw [hcells]
      simp only [List.append_assoc, List.cons_append, List.nil_append]
    have hfuel' : rest.length < fuel := Nat.lt_of_succ_lt_succ hfuel
    rw [Bc.bcForeachFrom, if_neg hnotEnd]
    simp only [hread, h.load_cell ha htable hseen hx, h.sizes.2, List.foldl_cons]
    by_cases hborder : seen.length + 1 = ts
    · obtain ⟨-, hrest⟩ := List.append_inj hcells'
        (by rw [hcellsa, List.length_append, List.length_singleton, hborder])
      have hne : mid₂ ≠ [] := by
        rintro rfl
        exact hback (List.append_eq_nil_iff.mp hrest.symm).2
      obtain ⟨b, mid₃, rfl⟩ := List.exists_cons_of_ne_nil hne
      have hnext : table.next = some b :=
        (h.links (pre ++ mid₁) (b :: (mid₃ ++ post))
          (by simp only [List.append_assoc, List.cons_append]) htable).2
      rw [if_pos hborder, hnext]
      have hmid' : mid₁ ++ a :: b :: mid₃ = (mid₁ ++ [a]) ++ b :: mid₃ := by
        simp only [List.append_assoc, List.cons_append, List.nil_append]
      exact ih hmid' (hrest : _ = [] ++ (rest ++ back))
        (by rw [List.length_nil]; omega) hfuel' _
    · rw [if_neg hborder, ← List.length_singleton (a := x), ← List.length_append]
      exact ih (rfl : mid₁ ++ a :: mid₂ = _) hcells'
        (by rw [List.length_append, List.length_singleton]; omega)
        hfuel' _

/-- **Foreach.** -/
theorem Deque.foreach {σ : Type} (h : Deque cs ts bc l) (c : List UInt8 → σ → σ) {fuel : Nat}
    (hfuel : l.length < fuel) (ctx : σ) :
    bc.bcForeach c fuel ctx = some (.ok (l.foldl (fun ctx x => c x ctx) ctx)) := by
  obtain ⟨pre, mid, post, front, back, h, hfront, hback, -⟩ := h
  obtain ⟨a, mid', rfl⟩ := List.exists_cons_of_ne_nil h.nonempty
  rw [Bc.bcForeach, ← h.start, h.ends.1]
  have hmid : a :: mid' = [] ++ a :: mid' := rfl
  exact h.foreachFrom hback c hmid h.cells hfront hfuel ctx

/-- **Length.** -/
theorem Deque.len (h : Deque cs ts bc l) {fuel : Nat} (hfuel : l.length < fuel) :
    bc.bcLen fuel = some (.ok l.length) := by
  rw [Bc.bcLen, h.foreach _ hfuel, List.foldl_add_const, Nat.one_mul, Nat.zero_add]

/-! ## Runs -/

/-- A collection and the list that a run has made of it. -/
structure BcRun where
  bc : Bc
  list : List (List UInt8)

inductive BcAct
  | pushBack (src : List UInt8) (host : Host)
  | pushFront (src : List UInt8) (host : Host)
  | popBack
  | popFront

/-- One call that returns. -/
def bcStep (s : BcRun) : BcAct → Option BcRun
  | .pushBack src host => (s.bc.bcPushBack src host).toOption.map fun bc => ⟨bc, s.list ++ [src]⟩
  | .pushFront src host => (s.bc.bcPushFront src host).toOption.map fun bc => ⟨bc, src :: s.list⟩
  | .popBack => s.bc.bcPopBack.toOption.map fun r => ⟨r.2, s.list.dropLast⟩
  | .popFront => s.bc.bcPopFront.toOption.map fun r => ⟨r.2, s.list.tail⟩

/-- The client gives whole cells, the host memory that is not in use. -/
def BcRule (s : BcRun) : BcAct → Prop
  | .pushBack src host | .pushFront src host => src.length = s.bc.cellSize ∧ BcHostOk s.bc host
  | .popBack | .popFront => True

/-- The calls on a collection show its list: a push leaves its memory never, and ends the process
only when the host has no table for it. -/
structure IsDeque (s : BcRun) : Prop where
  pushBack : ∀ src host, BcRule s (.pushBack src host) →
    (∃ bc', s.bc.bcPushBack src host = .ok bc') ∨
      s.bc.bcPushBack src host = .error .exit ∧ ∃ size, host size = none
  pushFront : ∀ src host, BcRule s (.pushFront src host) →
    (∃ bc', s.bc.bcPushFront src host = .ok bc') ∨
      s.bc.bcPushFront src host = .error .exit ∧ ∃ size, host size = none
  popBack : (s.list = [] → s.bc.bcPopBack = .error .exit) ∧
    ∀ l x, s.list = l ++ [x] → ∃ bc', s.bc.bcPopBack = .ok (x, bc')
  popFront : (s.list = [] → s.bc.bcPopFront = .error .exit) ∧
    ∀ x l, s.list = x :: l → ∃ bc', s.bc.bcPopFront = .ok (x, bc')
  foreach : ∀ {σ : Type} (c : List UInt8 → σ → σ) (fuel : Nat) (ctx : σ), s.list.length < fuel →
    s.bc.bcForeach c fuel ctx = some (.ok (s.list.foldl (fun ctx x => c x ctx) ctx))
  len : ∀ fuel, s.list.length < fuel → s.bc.bcLen fuel = some (.ok s.list.length)
  empty : s.bc.bcEmpty = s.list.isEmpty

variable {s s' : BcRun} {del : Bool}

theorem Deque.sizes (h : Deque cs ts bc l) : bc.cellSize = cs ∧ bc.tableSize = ts := by
  obtain ⟨pre, mid, post, front, back, h, -⟩ := h
  exact h.sizes

theorem Deque.isDeque (h : Deque cs ts s.bc s.list) (hts : ts ≠ 0) : IsDeque s where
  pushBack src host hrule := by
    rcases h.pushBack hts (hrule.1.trans h.sizes.1) hrule.2 with ⟨hexit, hnone⟩ | ⟨bc', hok, -⟩
    · exact .inr ⟨hexit, _, hnone⟩
    · exact .inl ⟨bc', hok⟩
  pushFront src host hrule := by
    rcases h.pushFront hts (hrule.1.trans h.sizes.1) hrule.2 with ⟨hexit, hnone⟩ | ⟨bc', hok, -⟩
    · exact .inr ⟨hexit, _, hnone⟩
    · exact .inl ⟨bc', hok⟩
  popBack := by
    refine ⟨fun hnil => ?_, fun l x hlist => ?_⟩
    · unfold Bc.bcPopBack
      rw [h.empty_iff.mpr hnil]
      rfl
    · rw [hlist] at h
      obtain ⟨bc', hok, -⟩ := h.popBack hts
      exact ⟨bc', hok⟩
  popFront := by
    refine ⟨fun hnil => ?_, fun x l hlist => ?_⟩
    · unfold Bc.bcPopFront
      rw [h.empty_iff.mpr hnil]
      rfl
    · rw [hlist] at h
      obtain ⟨bc', hok, -⟩ := h.popFront
      exact ⟨bc', hok⟩
  foreach c fuel ctx hfuel := h.foreach c hfuel ctx
  len fuel hfuel := h.len hfuel
  empty := by
    rw [Bool.eq_iff_iff, h.empty_iff, List.isEmpty_iff]

theorem IsDeque.nonempty_of_popBack (h : IsDeque s) (hstep : bcStep s .popBack = some s') :
    s.list ≠ [] := by
  intro hnil
  simp only [bcStep, h.popBack.1 hnil, Except.toOption, Option.map_none] at hstep
  cases hstep

theorem IsDeque.nonempty_of_popFront (h : IsDeque s) (hstep : bcStep s .popFront = some s') :
    s.list ≠ [] := by
  intro hnil
  simp only [bcStep, h.popFront.1 hnil, Except.toOption, Option.map_none] at hstep
  cases hstep

/-- What a call does to the chain: a push adds tables at its end, a pop takes the table there away in
the mode that deletes, when its cursor leaves it. -/
def ChainStep (s : BcRun) (chain chain' : List Nat) : BcAct → Prop
  | .pushBack _ _ => chain <+: chain'
  | .pushFront _ _ => chain <:+ chain'
  | .popBack => chain' = chain ∨
      s.bc.deleteEmptyTables = true ∧ s.bc.lastEnd = 0 ∧ ∃ b, chain = chain' ++ [b]
  | .popFront => chain' = chain ∨
      s.bc.deleteEmptyTables = true ∧ s.bc.firstStart + 1 = s.bc.tableSize ∧ ∃ b, chain = b :: chain'

theorem bcStep_laid {a : BcAct} (h : Laid cs ts s.bc s.list chain) (hts : ts ≠ 0) (hrule : BcRule s a)
    (hstep : bcStep s a = some s') : ∃ chain', Laid cs ts s'.bc s'.list chain' ∧
      s.bc.Moves s'.bc chain chain' ∧ ChainStep s chain chain' a := by
  have hdeque : IsDeque s := (deque_iff.mpr ⟨chain, h⟩).isDeque hts
  have hsizes := (deque_iff.mpr ⟨chain, h⟩).sizes
  cases a with
  | pushBack src host =>
    rcases h.pushBack hts (hrule.1.trans hsizes.1) hrule.2 with ⟨hexit, -⟩ | ⟨bc', chain', hok, hlaid⟩
    · simp only [bcStep, hexit, Except.toOption, Option.map_none] at hstep
      cases hstep
    · simp only [bcStep, hok, Except.toOption, Option.map_some] at hstep
      cases hstep
      exact ⟨chain', hlaid⟩
  | pushFront src host =>
    rcases h.pushFront hts (hrule.1.trans hsizes.1) hrule.2 with ⟨hexit, -⟩ | ⟨bc', chain', hok, hlaid⟩
    · simp only [bcStep, hexit, Except.toOption, Option.map_none] at hstep
      cases hstep
    · simp only [bcStep, hok, Except.toOption, Option.map_some] at hstep
      cases hstep
      exact ⟨chain', hlaid⟩
  | popBack =>
    obtain ⟨l, x, hlist⟩ := (List.eq_nil_or_concat' s.list).resolve_left (hdeque.nonempty_of_popBack hstep)
    rw [hlist] at h
    obtain ⟨bc', chain', hok, hlaid⟩ := h.popBack hts
    simp only [bcStep, hok, Except.toOption, Option.map_some, hlist, List.dropLast_concat] at hstep
    cases hstep
    exact ⟨chain', hlaid⟩
  | popFront =>
    obtain ⟨x, l, hlist⟩ := List.exists_cons_of_ne_nil (hdeque.nonempty_of_popFront hstep)
    rw [hlist] at h
    obtain ⟨bc', chain', hok, hlaid', hmoves, hchain⟩ := h.popFront
    simp only [bcStep, hok, Except.toOption, Option.map_some, hlist, List.tail_cons] at hstep
    cases hstep
    refine ⟨chain', hlaid', hmoves, ?_⟩
    rw [← hsizes.2] at hchain
    exact hchain

theorem bcStep_deque {a : BcAct} (h : Deque cs ts s.bc s.list) (hts : ts ≠ 0) (hrule : BcRule s a)
    (hstep : bcStep s a = some s') : Deque cs ts s'.bc s'.list := by
  obtain ⟨chain, hlaid⟩ := deque_iff.mp h
  obtain ⟨chain', hlaid', -⟩ := bcStep_laid hlaid hts hrule hstep
  exact deque_iff.mpr ⟨chain', hlaid'⟩

/-- A new collection has one table, and holds the empty list. -/
theorem newBrokenCollection_laid (hcs : cs ≠ 0) (hts : ts ≠ 0) (hfits : 17 + cs * ts < 2 ^ 64)
    {inUse : Nat → Prop} (hhost : HostOk host inUse) :
    newBrokenCollection cs ts del host = .error .exit ∧ host (17 + cs * ts) = none ∨
      ∃ bc a, newBrokenCollection cs ts del host = .ok bc ∧ bc.deleteEmptyTables = del ∧
        bc.Whole [a] ∧ Laid cs ts bc [] [a] := by
  unfold newBrokenCollection
  rw [if_neg (not_or.mpr ⟨hcs, hts⟩)]
  rcases newUtilBcTable_eq hfits hhost with ⟨hexit, hnone⟩ | ⟨raw, table, hok, -, hnext, hprev, hlen⟩
  · exact .inl ⟨by rw [hexit], hnone⟩
  · have hwhole : ∀ c, (Function.update (fun _ => none) (raw + 1) (some table) c).isSome = true ↔
        c ∈ [raw + 1] := by
      intro c
      rw [Function.update_apply, List.mem_singleton]
      split
      next hc => exact iff_of_true rfl hc
      next hc => exact iff_of_false Bool.false_ne_true hc
    refine .inr ⟨_, raw + 1, by rw [hok], rfl, ?_, [], [raw + 1], [], [],
      cellsOf cs ts table.bytes, rfl, ?_, ?_, ?_, fun _ => ⟨rfl, rfl⟩⟩
    · exact hwhole
    · have hget : Function.update (fun _ => none) (raw + 1) (some table) (raw + 1) = some table :=
        Function.update_self ..
      refine
        { sizes := ⟨rfl, rfl⟩
          fits := hfits
          linked := ⟨rfl, ?_, ?_⟩
          nodup := List.nodup_singleton _
          sized := fun a ha => ?_
          ends := ⟨rfl, rfl⟩
          nonempty := List.cons_ne_nil _ _
          cells := ?_
          start := rfl
          stop := length_cellsOf }
      · exact (prev_of_heap hget).trans hprev
      · exact (next_of_heap hget).trans hnext
      · rw [List.mem_singleton.mp ha]
        exact ⟨table, hget, hlen⟩
      · rw [List.flatMap_singleton]
        exact cells_of_heap hget
    · exact Nat.pos_of_ne_zero hts
    · exact fun hnil => hts (length_cellsOf.symm.trans (congrArg List.length hnil))

theorem newBrokenCollection_eq (hcs : cs ≠ 0) (hts : ts ≠ 0) (hfits : 17 + cs * ts < 2 ^ 64)
    {inUse : Nat → Prop} (hhost : HostOk host inUse) :
    newBrokenCollection cs ts del host = .error .exit ∧ host (17 + cs * ts) = none ∨
      ∃ bc, newBrokenCollection cs ts del host = .ok bc ∧ Deque cs ts bc [] := by
  have hlaid : newBrokenCollection cs ts del host = .error .exit ∧ _ ∨ _ :=
    newBrokenCollection_laid hcs hts hfits hhost
  rcases hlaid with hexit | ⟨bc, a, hok, -, -, hlaid⟩
  · exact .inl hexit
  · exact .inr ⟨bc, hok, deque_iff.mpr ⟨[a], hlaid⟩⟩

/-! ## Tables whose size wraps -/

/-- The first table is too small: it has the cells up to `n`, and the one behind them is not in it. -/
structure Overrun (cs ts n : Nat) (bc : Bc) : Prop where
  sizes : bc.cellSize = cs ∧ bc.tableSize = ts
  last : ∃ a table, bc.last = some a ∧ bc.heap a = some table ∧ table.bytes.length < n * cs + cs ∧
    n * cs ≤ table.bytes.length ∧ table.bytes.length < 2 ^ 64
  lt : n < ts

theorem Overrun.put {n : Nat} (h : Overrun cs ts n bc) (hlt : bc.lastEnd < n) (hsrc : src.length = cs) :
    ∃ bc', bc.bcPushBack src host = .ok bc' ∧ Overrun cs ts n bc' ∧ bc'.lastEnd = bc.lastEnd + 1 := by
  obtain ⟨a, table, hlast, htable, hshort, hlong, hword⟩ := h.last
  have hle : bc.lastEnd * cs + cs ≤ n * cs := by
    rw [← Nat.succ_mul]
    exact Nat.mul_le_mul_right cs hlt
  have hroom : bc.lastEnd * cs + src.length ≤ table.bytes.length := by omega
  have hoff : bc.offset bc.lastEnd = bc.lastEnd * cs := by
    rw [Bc.offset, h.sizes.1, Nat.mod_eq_of_lt (by omega)]
  have hn := h.lt
  refine ⟨{ bc.setTable a { table with bytes := splice table.bytes (bc.lastEnd * cs) src } with
    lastEnd := bc.lastEnd + 1 }, ?_, ⟨h.sizes, ⟨a, _, hlast, (heap_setTable a).trans (if_pos rfl), ?_⟩,
    hn⟩, rfl⟩
  · have hread : bc.table bc.last = .ok (a, table) := by
      unfold Bc.table
      simp only [hlast, htable]
    have hcursor : bc.lastEnd + 1 < ts := by omega
    simp only [Bc.bcPushBack, Bc.putBack, hread, BcTable.store, hoff, if_pos hroom, bind, Except.bind,
      pure, Except.pure]
    exact if_pos (h.sizes.2 ▸ hcursor)
  · rw [length_splice hroom]
    exact ⟨hshort, hlong, hword⟩

theorem Overrun.fault {n : Nat} (h : Overrun cs ts n bc) (hlt : bc.lastEnd = n)
    (hsrc : src.length = cs) : bc.bcPushBack src host = .error .fault := by
  obtain ⟨a, table, hlast, htable, hshort, hlong, hword⟩ := h.last
  have hread : bc.table bc.last = .ok (a, table) := by
    unfold Bc.table
    simp only [hlast, htable]
  have hoff : bc.offset bc.lastEnd = n * cs := by
    rw [Bc.offset, h.sizes.1, hlt, Nat.mod_eq_of_lt (by omega)]
  have hroom : ¬ n * cs + src.length ≤ table.bytes.length := by omega
  simp only [Bc.bcPushBack, Bc.putBack, hread, BcTable.store, hoff, if_neg hroom, bind, Except.bind]

/-- Pushes fill the table that is too small. -/
theorem Overrun.reaches {n : Nat} (h : Overrun cs ts n bc) (hzero : bc.lastEnd = 0) :
    ∃ s, Reaches bcStep BcRule ⟨bc, []⟩ s ∧ Overrun cs ts n s.bc ∧ s.bc.lastEnd = n := by
  have hfill : ∀ k ≤ n, ∃ s, Reaches bcStep BcRule ⟨bc, []⟩ s ∧ Overrun cs ts n s.bc ∧
      s.bc.lastEnd = k := by
    intro k hk
    induction k with
    | zero => exact ⟨_, .refl _, h, hzero⟩
    | succ k ih =>
      obtain ⟨s, hreach, hover, hend⟩ := ih (Nat.le_of_succ_le hk)
      obtain ⟨bc', hput, hover', hend'⟩ : ∃ bc', s.bc.bcPushBack (List.replicate cs 0) (fun _ => none) =
          .ok bc' ∧ Overrun cs ts n bc' ∧ bc'.lastEnd = s.bc.lastEnd + 1 :=
        hover.put (by omega) List.length_replicate
      refine ⟨⟨bc', s.list ++ [List.replicate cs 0]⟩, hreach.snoc
        (a := .pushBack (List.replicate cs 0) fun _ => none) ⟨?_, hostOk_none⟩ ?_, hover',
        hend'.trans (congrArg (· + 1) hend)⟩
      · rw [List.length_replicate, hover.sizes.1]
      · simp only [bcStep, hput, Except.toOption, Option.map_some]
  exact hfill n (Nat.le_refl n)

/-- Where the size wraps, the host gives too little: the header does not fit, or not every cell. -/
theorem newBrokenCollection_wraps (hcs : cs ≠ 0) (hts : ts ≠ 0) (hwraps : ¬ 17 + cs * ts < 2 ^ 64) :
    newBrokenCollection cs ts del (hostAt 8) = .error .fault ∨
      ∃ n bc, newBrokenCollection cs ts del (hostAt 8) = .ok bc ∧ bc.lastEnd = 0 ∧
        Overrun cs ts n bc := by
  have hsize : CoreMem.hostSize ((16 + cs * ts) % 2 ^ 64) = (17 + cs * ts) % 2 ^ 64 := by
    unfold CoreMem.hostSize
    rw [Nat.mod_add_mod]
    congr 1
    omega
  have hlt : (17 + cs * ts) % 2 ^ 64 < 2 ^ 64 := Nat.mod_lt _ (Nat.two_pow_pos 64)
  unfold newBrokenCollection newUtilBcTable
  rw [if_neg (not_or.mpr ⟨hcs, hts⟩), hsize]
  generalize (17 + cs * ts) % 2 ^ 64 = m at hlt
  simp only [hostAt, List.length_replicate]
  by_cases hheader : m < 17
  · exact .inl (by simp only [if_pos hheader])
  · have hlen : ((List.replicate m (0 : UInt8)).drop 17).length = m - 17 := by
      rw [List.length_drop, List.length_replicate]
    have hdiv := Nat.div_add_mod (m - 17) cs
    have hmod := Nat.mod_lt (m - 17) (Nat.pos_of_ne_zero hcs)
    rw [Nat.mul_comm] at hdiv
    simp only [if_neg hheader]
    refine .inr ⟨(m - 17) / cs, _, rfl, rfl, ⟨rfl, rfl⟩, ⟨9, _, rfl, rfl, ?_⟩,
      Nat.div_lt_of_lt_mul (by omega)⟩
    rw [hlen]
    exact ⟨by omega, by omega, by omega⟩

/-- Where the size wraps, some run leaves its memory. -/
theorem newBrokenCollection_overruns (hcs : cs ≠ 0) (hts : ts ≠ 0) (hwraps : ¬ 17 + cs * ts < 2 ^ 64) :
    newBrokenCollection cs ts del (hostAt 8) = .error .fault ∨
      ∃ bc s src, newBrokenCollection cs ts del (hostAt 8) = .ok bc ∧
        Reaches bcStep BcRule ⟨bc, []⟩ s ∧ BcRule s (.pushBack src fun _ => none) ∧
        s.bc.bcPushBack src (fun _ => none) = .error .fault := by
  have hwrap := @newBrokenCollection_wraps cs ts del hcs hts hwraps
  rcases hwrap with hfault | ⟨n, bc, hok, hzero, hover⟩
  · exact .inl hfault
  · -- the cells that fit the table are pushed, and then one more
    obtain ⟨s, hreach, hover', hend⟩ := hover.reaches hzero
    refine .inr ⟨bc, s, List.replicate cs 0, hok, hreach, ⟨?_, hostOk_none⟩,
      hover'.fault hend List.length_replicate⟩
    rw [List.length_replicate, hover'.sizes.1]

/-- **The broken collection is a double-ended queue** for every run, exactly when the size of a table
fits a word: the header, the byte of the channel and the cells. -/
theorem broken_collection_is_deque (hcs : cs ≠ 0) (hts : ts ≠ 0) :
    (∀ host, HostOk host (fun _ => False) → newBrokenCollection cs ts del host ≠ .error .fault ∧
      ∀ bc, newBrokenCollection cs ts del host = .ok bc →
        ∀ s, Reaches bcStep BcRule ⟨bc, []⟩ s → IsDeque s) ↔ 17 + cs * ts < 2 ^ 64 := by
  constructor
  · intro h
    by_contra hwraps
    obtain ⟨hnew, hrun⟩ := h (hostAt 8) (hostOk_hostAt (by decide) id)
    have hwrap := @newBrokenCollection_overruns cs ts del hcs hts hwraps
    rcases hwrap with hfault | ⟨bc, s, src, hok, hreach, hrule, hfault⟩
    · exact hnew hfault
    · rcases (hrun bc hok s hreach).pushBack _ _ hrule with ⟨bc', hok'⟩ | ⟨hexit, -⟩
      · cases hfault.symm.trans hok'
      · cases hfault.symm.trans hexit
  · intro hfits host hhost
    have heq : newBrokenCollection cs ts del host = .error .exit ∧ _ ∨ _ :=
      newBrokenCollection_eq hcs hts hfits hhost
    rcases heq with ⟨hexit, -⟩ | ⟨bc, hok, hdeque⟩
    · rw [hexit]
      exact ⟨nofun, nofun⟩
    · rw [hok]
      refine ⟨nofun, fun bc' heq s hreach => ?_⟩
      cases heq
      have hstep : ∀ m a m', Deque cs ts m.bc m.list → BcRule m a → bcStep m a = some m' →
          Deque cs ts m'.bc m'.list := fun _ _ _ hm hrule hstep => bcStep_deque hm hts hrule hstep
      exact (hreach.invariant hstep hdeque).isDeque hts

/-- Tables of two cells of one byte: the second push makes a table, and the first element is popped. -/
theorem broken_collection_is_deque_pair : ∃ s : BcRun, s.list = [[2], [3]] ∧ IsDeque s := by
  obtain ⟨bc, s₁, s₂, hnew, h₁, h₂, hsize, hsize₁, hfree⟩ : ∃ bc s₁ s₂,
      newBrokenCollection 1 2 true (hostAt 8) = .ok bc ∧
      bcStep ⟨bc, []⟩ (.pushBack [1] fun _ => none) = some s₁ ∧
      bcStep s₁ (.pushBack [2] (hostAt 64)) = some s₂ ∧
      bc.cellSize = 1 ∧ s₁.bc.cellSize = 1 ∧ s₁.bc.heap 65 = none :=
    ⟨_, _, _, rfl, rfl, rfl, rfl, rfl, rfl⟩
  obtain ⟨s₃, s₄, h₃, h₄, hsize₂, hlist⟩ : ∃ s₃ s₄, bcStep s₂ (.pushBack [3] fun _ => none) = some s₃ ∧
      bcStep s₃ .popFront = some s₄ ∧ s₂.bc.cellSize = 1 ∧ s₄.list = [[2], [3]] := by
    cases hnew
    cases h₁
    cases h₂
    exact ⟨_, _, rfl, rfl, rfl, rfl⟩
  have hrule₁ : BcRule ⟨bc, []⟩ (.pushBack [1] fun _ => none) := ⟨hsize.symm, hostOk_none⟩
  have hrule₂ : BcRule s₁ (.pushBack [2] (hostAt 64)) :=
    ⟨hsize₁.symm, hostOk_hostAt (by decide) (by rw [hfree]; exact Bool.false_ne_true)⟩
  have hrule₃ : BcRule s₂ (.pushBack [3] fun _ => none) := ⟨hsize₂.symm, hostOk_none⟩
  have hrule₄ : BcRule s₃ .popFront := trivial
  have hreach : Reaches bcStep BcRule ⟨bc, []⟩ s₄ :=
    ((((Reaches.refl _).snoc hrule₁ h₁).snoc hrule₂ h₂).snoc hrule₃ h₃).snoc hrule₄ h₄
  have hdeque := (@broken_collection_is_deque 1 2 true (by decide) (by decide)).mpr (by decide)
    (hostAt 8) (hostOk_hostAt (by decide) id)
  exact ⟨s₄, hlist, hdeque.2 bc hnew s₄ hreach⟩

/-- Two to the power of 32 cells of two to the power of 32 bytes: the first push leaves the table. -/
theorem huge_tables_overrun : ¬ ∀ host, HostOk host (fun _ => False) →
    newBrokenCollection (2 ^ 32) (2 ^ 32) false host ≠ .error .fault ∧
      ∀ bc, newBrokenCollection (2 ^ 32) (2 ^ 32) false host = .ok bc →
        ∀ s, Reaches bcStep BcRule ⟨bc, []⟩ s → IsDeque s := by
  intro h
  obtain ⟨-, hrun⟩ := h (hostAt 8) (hostOk_hostAt (by decide) id)
  obtain ⟨bc, hok, hend, hover⟩ : ∃ bc, newBrokenCollection (2 ^ 32) (2 ^ 32) false (hostAt 8) = .ok bc ∧
      bc.lastEnd = 0 ∧ Overrun (2 ^ 32) (2 ^ 32) 0 bc :=
    ⟨_, rfl, rfl, ⟨rfl, rfl⟩, ⟨9, _, rfl, rfl, by decide⟩, by decide⟩
  have hfault : bc.bcPushBack (List.replicate (2 ^ 32) 0) (fun _ => none) = .error .fault :=
    hover.fault hend List.length_replicate
  have hrule : BcRule ⟨bc, []⟩ (.pushBack (List.replicate (2 ^ 32) 0) fun _ => none) :=
    ⟨by rw [List.length_replicate, hover.sizes.1], hostOk_none⟩
  rcases (hrun bc hok _ (.refl _)).pushBack _ _ hrule with ⟨bc', hok'⟩ | ⟨hexit, -⟩
  · cases hfault.symm.trans hok'
  · cases hfault.symm.trans hexit

end Chvm.Util
