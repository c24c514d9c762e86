import Chvm.Lib.Wire
import Chvm.Util.Deque
import Chvm.Ms.Owner

/-!
# The sweep (`ms_filter`)

`ms_filter` shows the user's bytes of each live piece to a predicate, keeps the vaddrs it rejects in a
stack made of tables, and frees them when the walk is over. Here the stack is the broken collection with
its tables, each free is `ms_free`, and the predicate may keep what it is shown in its own context.
-/

set_option autoImplicit false

namespace Chvm.Ms

open Chvm.Core Chvm.Util Chvm.Lib Chvm.Virt Chvm.Mb

/-- The bytes of an `addr_book_vaddr`. -/
def vaddrBytes (v : Vaddr) : List UInt8 := le 8 v.tableIndex ++ le 8 v.cellIndex

/-- The vaddr in those bytes. -/
def ofVaddrBytes (bytes : List UInt8) : Vaddr := ⟨ofLe (bytes.take 8), ofLe (bytes.drop 8)⟩

/-- `ms_foreach_mp_filter`, on the remove stack and the predicate's context. The host answers for a table
of the stack by what the stack is. -/
def msForeachMpFilter {σ : Type} (pred : Vaddr → Nat → σ → Bool × σ) (host : Bc → Host) (v : Vaddr)
    (paddr : Nat) (st : Except Stop (Bc × σ)) : Except Stop (Bc × σ) := do
  let (removeStack, ctx) ← st
  let (keep, ctx) := pred v paddr ctx
  if keep then return (removeStack, ctx)
  let removeStack ← removeStack.bcPushBack (vaddrBytes v) (host removeStack)
  return (removeStack, ctx)

/-- The second loop of `ms_filter`; a loop that ends does so with some fuel. -/
def msFilterFree (t : Tid) : Nat → MemSpace → Bc → Nat → Option (Except Stop (Nat × MemSpace))
  | 0, _, _, _ => none
  | fuel + 1, ms, removeStack, filtered =>
    if removeStack.bcEmpty then some (.ok (filtered, ms))
    else
      match removeStack.bcPopBack with
      | .error e => some (.error e)
      | .ok (v, removeStack) =>
        match msFree ms t (ofVaddrBytes v) with
        | none => none
        | some ms => msFilterFree t fuel ms removeStack (filtered + 1)

/-- `ms_filter`; `none` waits for a cell's lock, and an error is a process that ended. -/
def msFilter {σ : Type} (ms : MemSpace) (t : Tid) (pred : Vaddr → Nat → σ → Bool × σ) (ctx : σ)
    (host₀ : Host) (host : Bc → Host) (fuel : Nat) : Option (Except Stop (Nat × MemSpace × σ)) :=
  match newBrokenCollection 16 30 false host₀ with
  | .error e => some (.error e)
  | .ok removeStack =>
    match msForeach ms (msForeachMpFilter pred host) (.ok (removeStack, ctx)) false with
    | none => none
    | some (.error e) => some (.error e)
    | some (.ok (removeStack, ctx)) =>
      (msFilterFree t fuel ms removeStack 0).map fun r => r.map fun r => (r.1, r.2, ctx)

/-! ## What a predicate sees -/

/-- The user's bytes behind a pointer that `ms_foreach` gives to its consumer. -/
def userBytes (ms : MemSpace) (p : Nat) : List UInt8 :=
  match ms.mbList.find? (·.contains (p - mallocHeaderSize)) with
  | none => []
  | some b => (List.range (bodySize b.mb.mem (p - mallocHeaderSize) - mallocHeaderSize)).map fun i =>
      b.mb.mem.byte (p + i)

/-- The user's bytes of a vaddr. -/
def contents (ms : MemSpace) (v : Vaddr) : List UInt8 :=
  (ms.adb.entry v).elim [] fun c => userBytes ms (c.paddr + mallocHeaderSize)

/-- A predicate on the contents, that notes in its context what it is shown. -/
def noting (ms : MemSpace) (pred : Vaddr → List UInt8 → Bool) (v : Vaddr) (p : Nat)
    (seen : List (Vaddr × List UInt8)) : Bool × List (Vaddr × List UInt8) :=
  (pred v (userBytes ms p), seen ++ [(v, userBytes ms p)])

variable {s : MsSys} {ms ms' : MemSpace} {owner : Vaddr → Nat} {content : Vaddr → Nat → Option UInt8}
  {t : Tid} {v w : Vaddr} {vs : List Vaddr} {bc : Bc} {host₀ : Host} {host : Bc → Host} {fuel : Nat}
  {pred : Vaddr → List UInt8 → Bool} {l : List (List UInt8)}

theorem length_vaddrBytes (v : Vaddr) : (vaddrBytes v).length = 16 := by
  rw [vaddrBytes, List.length_append, length_le, length_le]

theorem ofVaddrBytes_vaddrBytes (h : v.tableIndex < 2 ^ 64 ∧ v.cellIndex < 2 ^ 64) :
    ofVaddrBytes (vaddrBytes v) = v := by
  have htable : ofLe (le 8 v.tableIndex) = v.tableIndex := ofLe_le h.1
  have hcell : ofLe (le 8 v.cellIndex) = v.cellIndex := ofLe_le h.2
  unfold ofVaddrBytes vaddrBytes
  rw [List.take_left' (length_le ..), List.drop_left' (length_le ..), htable, hcell]

/-! ## The frees -/

/-- The bytes of a body are those of its piece. -/
theorem body_congr {mem mem' : Mem} {p : Piece} (hfit : Fit p) (hsame : Mem.SameOn mem mem' p.addr p.stop) :
    bodySize mem' (mpToMapB p.addr) = bodySize mem (mpToMapB p.addr) := by
  have hsize := hfit.size_ge
  have hstop := p.stop_eq
  unfold bodySize mpSize
  rw [mapBToMp_mpToMapB, Mem.load64_congr (hsame.sub (Nat.le_refl _) (by omega))]

/-- A free leaves the other pieces where they are, with their bytes. -/
theorem MsInv.free_others (h : MsInv s owner content) (hv : v ∈ s.live) (hfree : msFree s.ms t v = some ms')
    (hw : w ∈ s.live) (hne : w ≠ v) :
    ms'.adb.entry w = s.ms.adb.entry w ∧ contents ms' w = contents s.ms w := by
  obtain ⟨i, b, adb₂, mb', adb', hb, howner, hquiet, hsame, hmb, rfl⟩ := h.msFree_eq hv hfree
  -- what the free has done to the pieces of its block
  have hpart : ∀ ps l, MemInv (s.part owner content b) ps l → ∃ p ps', p.kind = some v ∧
      Changed b.mb mb' ps ps' (· = p) (fun _ => False) ∧
      ∀ w, adb'.entry w = if w = v then none else s.ms.adb.entry w := by
    intro ps l hinv
    have hinv₂ : MemInv { s.part owner content b with adb := adb₂ } ps l :=
      hinv.frame hquiet (fun w _ => hsame w) fun _ _ => rfl
    have hvpart : v ∈ (s.part owner content b).live := mem_part_live.mpr ⟨hv, howner⟩
    obtain ⟨p, hp, hkind, -⟩ := hinv₂.piece hvpart
    obtain ⟨-, ps', l', -, hchanged, hentry⟩ := mbFree_cases hinv₂.block hp hkind hmb
    refine ⟨p, ps', hkind, hchanged, fun w => ?_⟩
    rw [hentry]
    split
    · rfl
    · exact hsame w
  obtain ⟨j, d, qs, m, q, c, hd, hownerw, hinvw, hq, hqkind, hc, hpaddr, -⟩ := h.piece hw
  obtain ⟨hcontains, -⟩ := h.header_eq (List.mem_of_getElem? hd) hownerw hw hinvw hq hqkind
  obtain ⟨ps, l, hinv⟩ := h.parts b (List.mem_of_getElem? hb)
  obtain ⟨_, _, -, hchanged, hentry⟩ := hpart ps l hinv
  have hentryw : adb'.entry w = some c := by
    rw [hentry, if_neg hne, hc]
  have hplaced' : Placed (s.ms.mbList.set i { b with mb := mb' }) :=
    h.placed.set hb ⟨rfl, rfl, hchanged.fields⟩
  refine ⟨hentryw.trans hc.symm, ?_⟩
  have hfind := h.placed.find (List.mem_of_getElem? hd) hcontains
  unfold contents
  rw [hc, show ({ s.ms with adb := adb', mbList := _ } : MemSpace).adb.entry w = some c from hentryw]
  simp only [Option.elim_some]
  unfold userBytes
  simp only [Nat.add_sub_cancel, hpaddr, hfind]
  by_cases hij : i = j
  · -- the same block: the piece is one of those that are kept
    subst hij
    rw [hb] at hd
    cases hd
    obtain ⟨p, ps', hkind, hchanged, -⟩ := hpart qs m hinvw
    have hmem' : ({ b with mb := mb' } : SpaceBlock) ∈ s.ms.mbList.set i { b with mb := mb' } :=
      List.mem_set (List.getElem?_eq_some_iff.mp hb).1 _
    have hqp : ¬q = p := by
      rintro rfl
      rw [hqkind] at hkind
      exact hne (Option.some.inj hkind)
    have hbytes : Mem.SameOn b.mb.mem mb'.mem q.addr q.stop :=
      hchanged.bytes q (by rw [hqkind]; rfl) hq hqp
    have hfit := hinvw.block.laid.fit q (List.mem_append_left _ hq)
    have hbody := (hinvw.block.body hq).1
    rw [hplaced'.find hmem' hcontains]
    simp only [body_congr hfit hbytes]
    refine List.map_congr_left fun k hk => hbytes _ ?_ ?_
    · unfold mpToMapB mpBody
      omega
    · have hlt := List.mem_range.mp hk
      have hpad : mapPadding = 32 := rfl
      have hheader : mallocHeaderSize = 8 := rfl
      have hstop := q.stop_eq
      have hmap : mpToMapB q.addr = q.addr + 24 := rfl
      rw [show bodySize b.mb.mem (mpToMapB q.addr) = q.size - mapPadding from hbody] at hlt
      omega
  · have hmem' : d ∈ s.ms.mbList.set i { b with mb := mb' } := by
      have hget : (s.ms.mbList.set i { b with mb := mb' })[j]? = some d := by
        rw [List.getElem?_set_ne hij]
        exact hd
      exact List.mem_of_getElem? hget
    rw [hplaced'.find hmem' hcontains]

/-- The state after the frees of some live vaddrs. -/
def MsSys.freed (s : MsSys) (ms : MemSpace) (vs : List Vaddr) : MsSys :=
  { s with ms := ms, live := s.live.filter (· ∉ vs), frees := s.frees + vs.length }

/-- The frees of live vaddrs that nobody has locked go through, and leave the others as they were. -/
theorem MsInv.free_all (h : MsInv s owner content) (hnodup : vs.Nodup) (hlive : ∀ v ∈ vs, v ∈ s.live)
    (hlck : ∀ v ∈ vs, ∀ c, s.ms.adb.entry v = some c → c.lck.isFree = true) (t : Tid) :
    ∃ ms', vs.foldlM (fun ms v => msFree ms t v) s.ms = some ms' ∧ MsInv (s.freed ms' vs) owner content ∧
      ∀ w ∈ s.live, w ∉ vs → ms'.adb.entry w = s.ms.adb.entry w ∧ contents ms' w = contents s.ms w := by
  induction vs generalizing s with
  | nil =>
    refine ⟨s.ms, rfl, ?_, fun w _ _ => ⟨rfl, rfl⟩⟩
    have hsame : s.freed s.ms [] = s := by
      unfold MsSys.freed
      simp only [List.not_mem_nil, not_false_eq_true, decide_true, List.filter_true, List.length_nil,
        Nat.add_zero]
    rw [hsame]
    exact h
  | cons v vs ih =>
    obtain ⟨hnot, hnodup⟩ := List.nodup_cons.mp hnodup
    have hv := hlive v List.mem_cons_self
    obtain ⟨c, hc⟩ := Option.isSome_iff_exists.mp ((h.entries v).mpr hv)
    obtain ⟨ms₁, hfree⟩ := Option.isSome_iff_exists.mp
      (h.msFree_isSome hv hc (hlck v List.mem_cons_self c hc) t)
    have h₁ := h.free hv hfree
    have hothers : ∀ w ∈ s.live, w ≠ v →
        ms₁.adb.entry w = s.ms.adb.entry w ∧ contents ms₁ w = contents s.ms w :=
      fun w hw hne => h.free_others hv hfree hw hne
    have hne : ∀ w ∈ vs, w ≠ v := by
      rintro w hw rfl
      exact hnot hw
    obtain ⟨ms', hrest, hinv, hkept⟩ := ih h₁ hnodup
      (fun w hw => List.mem_filter.mpr
        ⟨hlive w (List.mem_cons_of_mem v hw), decide_eq_true (hne w hw)⟩)
      (fun w hw d hd => hlck w (List.mem_cons_of_mem v hw) d
        ((hothers w (hlive w (List.mem_cons_of_mem v hw)) (hne w hw)).1.symm.trans hd))
    refine ⟨ms', ?_, ?_, fun w hw hwvs => ?_⟩
    · rw [List.foldlM_cons, hfree]
      exact hrest
    · have hlist : s.live.filter (· ∉ v :: vs) = (s.live.filter (· ≠ v)).filter (· ∉ vs) := by
        rw [List.filter_filter]
        refine List.filter_congr fun w _ => ?_
        simp only [List.mem_cons, not_or, Bool.decide_and, Bool.and_comm]
      unfold MsSys.freed at hinv ⊢
      rw [hlist, List.length_cons, Nat.add_comm vs.length, ← Nat.add_assoc]
      exact hinv
    · have hwv : w ≠ v := fun heq => hwvs (heq ▸ List.mem_cons_self)
      obtain ⟨hentry₁, hcontents₁⟩ := hothers w hw hwv
      obtain ⟨hentry, hcontents⟩ := hkept w (List.mem_filter.mpr ⟨hw, decide_eq_true hwv⟩)
        fun hmem => hwvs (List.mem_cons_of_mem v hmem)
      exact ⟨hentry.trans hentry₁, hcontents.trans hcontents₁⟩

/-! ## The stack -/

/-- The second loop frees what is on the stack, the last pushed first. -/
theorem msFilterFree_eq (hvs : ∀ v ∈ vs, v.tableIndex < 2 ^ 64 ∧ v.cellIndex < 2 ^ 64)
    (hbc : Deque 16 30 bc (vs.reverse.map vaddrBytes)) (hfuel : vs.length < fuel) (ms : MemSpace) (n : Nat) :
    msFilterFree t fuel ms bc n =
      (vs.foldlM (fun ms v => msFree ms t v) ms).map fun ms' => .ok (n + vs.length, ms') := by
  induction vs generalizing bc fuel ms n with
  | nil =>
    obtain ⟨fuel, rfl⟩ := Nat.exists_eq_succ_of_ne_zero (Nat.ne_zero_of_lt hfuel)
    exact if_pos (hbc.empty_iff.mpr rfl)
  | cons v vs ih =>
    obtain ⟨fuel, rfl⟩ := Nat.exists_eq_succ_of_ne_zero (Nat.ne_zero_of_lt hfuel)
    rw [List.reverse_cons, List.map_append] at hbc
    have hempty : bc.bcEmpty = false := by
      rw [Bool.eq_false_iff]
      intro hempty
      exact absurd (hbc.empty_iff.mp hempty) (List.append_ne_nil_of_right_ne_nil _ (List.cons_ne_nil _ _))
    obtain ⟨bc', hpop, hbc'⟩ := hbc.popBack (by decide)
    have hofv := ofVaddrBytes_vaddrBytes (hvs v List.mem_cons_self)
    unfold msFilterFree
    rw [if_neg (by rw [hempty]; exact Bool.false_ne_true), List.foldlM_cons]
    simp only [hpop, hofv]
    cases hfree : msFree ms t v with
    | none => rfl
    | some ms₁ =>
      simp only [Option.bind_eq_bind, Option.bind_some]
      rw [ih (fun w hw => hvs w (List.mem_cons_of_mem v hw)) hbc' (Nat.lt_of_succ_lt_succ hfuel)]
      simp only [List.length_cons, Nat.add_assoc, Nat.add_comm 1]

/-- A host without memory for a table of the stack. -/
def OutOfMemory (host₀ : Host) (host : Bc → Host) : Prop :=
  (∃ size, host₀ size = none) ∨ ∃ bc size, host bc size = none

/-- What the predicate rejects of the calls, in their order. -/
def rejected (ms : MemSpace) (pred : Vaddr → List UInt8 → Bool) (calls : List (Vaddr × Nat)) : List Vaddr :=
  (calls.filter fun p => !pred p.1 (userBytes ms (p.2 + mallocHeaderSize))).map (·.1)

/-- Where a process has ended, nothing is shown or pushed. -/
theorem foldl_ended {σ : Type} {pred : Vaddr → Nat → σ → Bool × σ} (calls : List (Vaddr × Nat)) (e : Stop) :
    calls.foldl (fun st p => msForeachMpFilter pred host p.1 (p.2 + mallocHeaderSize) st) (.error e) =
      .error e := by
  induction calls with
  | nil => rfl
  | cons p calls ih => exact ih

/-- The walk pushes what the predicate rejects, and shows it every piece once. -/
theorem foldl_filter (hhost : ∀ bc, BcHostOk bc (host bc)) (hbc : Deque 16 30 bc l)
    (calls : List (Vaddr × Nat)) (seen : List (Vaddr × List UInt8)) :
    (calls.foldl (fun st p => msForeachMpFilter (noting ms pred) host p.1 (p.2 + mallocHeaderSize) st)
        (.ok (bc, seen)) = .error .exit ∧ OutOfMemory host₀ host) ∨
    ∃ bc', calls.foldl (fun st p => msForeachMpFilter (noting ms pred) host p.1 (p.2 + mallocHeaderSize) st)
        (.ok (bc, seen)) =
          .ok (bc', seen ++ calls.map fun p => (p.1, userBytes ms (p.2 + mallocHeaderSize))) ∧
      Deque 16 30 bc' (l ++ (rejected ms pred calls).map vaddrBytes) := by
  induction calls generalizing bc l seen with
  | nil =>
    refine .inr ⟨bc, ?_, ?_⟩
    · rw [List.map_nil, List.append_nil]
      rfl
    · rw [show rejected ms pred [] = [] from rfl, List.map_nil, List.append_nil]
      exact hbc
  | cons p calls ih =>
    obtain ⟨v, a⟩ := p
    rw [List.foldl_cons]
    cases hpred : pred v (userBytes ms (a + mallocHeaderSize)) with
    | true =>
      have hone : msForeachMpFilter (noting ms pred) host v (a + mallocHeaderSize) (.ok (bc, seen)) =
          .ok (bc, seen ++ [(v, userBytes ms (a + mallocHeaderSize))]) := by
        simp only [msForeachMpFilter, noting, bind, Except.bind, hpred, if_true]
        rfl
      have hrejected : rejected ms pred ((v, a) :: calls) = rejected ms pred calls := by
        unfold rejected
        rw [List.filter_cons_of_neg (by simp only [hpred]; decide)]
      rw [hone, hrejected]
      refine (ih hbc _).imp_right ?_
      rintro ⟨bc', hrun, hbc'⟩
      refine ⟨bc', ?_, hbc'⟩
      rw [hrun, List.append_assoc]
      rfl
    | false =>
      have hrejected : rejected ms pred ((v, a) :: calls) = v :: rejected ms pred calls := by
        unfold rejected
        rw [List.filter_cons_of_pos (by simp only [hpred]; decide)]
        rfl
      rcases hbc.pushBack (by decide) (length_vaddrBytes v) (hhost bc) with ⟨hexit, hnone⟩ | ⟨bc₁, hok, hbc₁⟩
      · have hone : msForeachMpFilter (noting ms pred) host v (a + mallocHeaderSize) (.ok (bc, seen)) =
            .error .exit := by
          simp only [msForeachMpFilter, noting, bind, Except.bind, hpred, hexit]
          rfl
        rw [hone, foldl_ended]
        exact .inl ⟨rfl, .inr ⟨bc, _, hnone⟩⟩
      · have hone : msForeachMpFilter (noting ms pred) host v (a + mallocHeaderSize) (.ok (bc, seen)) =
            .ok (bc₁, seen ++ [(v, userBytes ms (a + mallocHeaderSize))]) := by
          simp only [msForeachMpFilter, noting, bind, Except.bind, hpred, hok]
          rfl
        rw [hone, hrejected]
        refine (ih hbc₁ _).imp_right ?_
        rintro ⟨bc', hrun, hbc'⟩
        refine ⟨bc', ?_, ?_⟩
        · rw [hrun, List.append_assoc]
          rfl
        · rw [List.append_assoc] at hbc'
          exact hbc'

/-! ## The sweep -/

/-- What `ms_filter` has done, with the count it returns and what the predicate was shown. -/
structure Filtered (s : MsSys) (pred : Vaddr → List UInt8 → Bool) (t : Tid) (filtered : Nat) (ms' : MemSpace)
    (seen : List (Vaddr × List UInt8)) : Prop where
  /-- The predicate saw each live vaddr once, with its bytes. -/
  once : (seen.map (·.1)).Nodup ∧ ∀ v, v ∈ seen.map (·.1) ↔ v ∈ s.live
  shown : ∀ p ∈ seen, p.2 = contents s.ms p.1
  /-- What it rejected was freed, each once. -/
  frees : ∃ vs : List Vaddr, vs.Nodup ∧ (∀ v, v ∈ vs ↔ v ∈ s.live ∧ pred v (contents s.ms v) = false) ∧
    vs.foldlM (fun ms v => msFree ms t v) s.ms = some ms' ∧ filtered = vs.length
  /-- The others are live, with the bytes they had. -/
  live : ∀ v, (ms'.adb.entry v).isSome = true ↔ v ∈ s.live ∧ pred v (contents s.ms v) = true
  kept : ∀ v ∈ s.live, pred v (contents s.ms v) = true → contents ms' v = contents s.ms v
  count : ∃ n, msCount s.ms = some (n + filtered) ∧ msCount ms' = some n

/-- A cell whose lock no allocated vaddr holds back can be read. -/
theorem canRead_cell {adb : AddrBook} (hquiet : adb.Quiet)
    (hread : ∀ v c, adb.entry v = some c → c.lck.canRead = true) :
    ∀ v c, adb.cell v = some c → c.lck.canRead = true := by
  intro v c hc
  cases hallocated : c.allocated with
  | true => exact hread v c (AddrBook.entry_eq_some.mpr ⟨hc, hallocated⟩)
  | false => exact RwLock.canRead_iff.mpr (RwLock.writer_of_isFree (hquiet.unlocked v c hc hallocated))

/-- The walk shows the user's bytes of the vaddr it comes to. -/
theorem MsInv.shown (h : MsInv s owner content) {p : Vaddr × Nat} (hp : p ∈ s.ms.adb.calls) :
    userBytes s.ms (p.2 + mallocHeaderSize) = contents s.ms p.1 := by
  obtain ⟨c, hc, hpaddr⟩ := (AddrBook.mem_calls h.quiet).mp hp
  unfold contents
  rw [hc, Option.elim_some, hpaddr]

theorem MsInv.mem_rejected (h : MsInv s owner content) :
    v ∈ rejected s.ms pred s.ms.adb.calls ↔ v ∈ s.live ∧ pred v (contents s.ms v) = false := by
  unfold rejected
  rw [List.mem_map, ← h.perm_calls.mem_iff, List.mem_map]
  constructor
  · rintro ⟨p, hp, rfl⟩
    obtain ⟨hp, hpred⟩ := List.mem_filter.mp hp
    rw [h.shown hp, Bool.not_eq_true'] at hpred
    exact ⟨⟨p, hp, rfl⟩, hpred⟩
  · rintro ⟨⟨p, hp, rfl⟩, hpred⟩
    refine ⟨p, List.mem_filter.mpr ⟨hp, ?_⟩, rfl⟩
    rw [h.shown hp, hpred]
    rfl

theorem MsInv.nodup_rejected (h : MsInv s owner content) : (rejected s.ms pred s.ms.adb.calls).Nodup :=
  (List.filter_sublist.map _).nodup (h.perm_calls.nodup_iff.mpr h.nodup)

theorem MsInv.lt_of_live (h : MsInv s owner content) (hv : v ∈ s.live) :
    v.tableIndex < 2 ^ 64 ∧ v.cellIndex < 2 ^ 64 := by
  obtain ⟨c, hc⟩ := Option.isSome_iff_exists.mp ((h.entries v).mpr hv)
  exact h.quiet.lt (AddrBook.entry_eq_some.mp hc).1

/-- `ms_foreach`, when the read locks can be had. -/
theorem MsInv.msForeach_eq (h : MsInv s owner content) {σ : Type}
    (hread : ∀ v c, s.ms.adb.cell v = some c → c.lck.canRead = true) (c : Vaddr → Nat → σ → σ) (ctx : σ) :
    msForeach s.ms c ctx false =
      some (s.ms.adb.calls.foldl (fun ctx p => c p.1 (p.2 + mallocHeaderSize) ctx) ctx) :=
  AddrBook.adbForeach_eq h.quiet
    (show ∀ v c, s.ms.adb.cell v = some c → (if false then c.lck.isFree else c.lck.canRead) = true from by
      simpa using hread)
    (fun v paddr => c v (paddr + mallocHeaderSize)) ctx

/-- The state the frees leave is what the sweep promises. -/
theorem MsInv.filtered (h : MsInv s owner content)
    (hread : ∀ v c, s.ms.adb.entry v = some c → c.lck.canRead = true) (hnodup : vs.Nodup)
    (hmem : ∀ v, v ∈ vs ↔ v ∈ s.live ∧ pred v (contents s.ms v) = false)
    (hfrees : vs.foldlM (fun ms v => msFree ms t v) s.ms = some ms')
    (hfreed : MsInv (s.freed ms' vs) owner content)
    (hkept : ∀ w ∈ s.live, w ∉ vs → ms'.adb.entry w = s.ms.adb.entry w ∧ contents ms' w = contents s.ms w) :
    Filtered s pred t vs.length ms'
      (s.ms.adb.calls.map fun p => (p.1, userBytes s.ms (p.2 + mallocHeaderSize))) := by
  have hseen : (s.ms.adb.calls.map fun p => (p.1, userBytes s.ms (p.2 + mallocHeaderSize))).map (·.1) =
      s.ms.adb.calls.map (·.1) := by
    rw [List.map_map]
    rfl
  have hlive : ∀ v, (ms'.adb.entry v).isSome = true ↔ v ∈ s.live ∧ v ∉ vs := by
    intro v
    rw [show (ms'.adb.entry v).isSome = true ↔ v ∈ s.live.filter (· ∉ vs) from hfreed.entries v,
      List.mem_filter, decide_eq_true_eq]
  have hpass : ∀ v ∈ s.live, (v ∉ vs ↔ pred v (contents s.ms v) = true) := by
    intro v hv
    rw [hmem, not_and, Bool.not_eq_false]
    exact ⟨fun hkeep => hkeep hv, fun hkeep _ => hkeep⟩
  have hread' : ∀ v c, ms'.adb.entry v = some c → c.lck.canRead = true := by
    intro v c hc
    obtain ⟨hv, hout⟩ := (hlive v).mp (by rw [hc]; rfl)
    exact hread v c ((hkept v hv hout).1.symm.trans hc)
  refine ⟨?_, ?_, ⟨vs, hnodup, hmem, hfrees, rfl⟩, fun v => ?_, fun v hv hkeep => ?_,
    (s.freed ms' vs).live.length, ?_, hfreed.msCount_eq (canRead_cell hfreed.quiet hread')⟩
  · rw [hseen]
    exact ⟨h.perm_calls.nodup_iff.mpr h.nodup, fun v => h.perm_calls.mem_iff⟩
  · intro p hp
    obtain ⟨q, hq, rfl⟩ := List.mem_map.mp hp
    exact h.shown hq
  · rw [hlive]
    exact and_congr_right (hpass v)
  · exact (hkept v hv ((hpass v hv).mpr hkeep)).2
  · -- both states account for the same mallocs
    have hbefore := h.count
    have hafter : (s.freed ms' vs).live.length + (s.frees + vs.length) = s.mallocs := hfreed.count
    rw [h.msCount_eq (canRead_cell h.quiet hread)]
    congr 1
    omega

/-- **`ms_filter` removes exactly the rejected pieces.** In every state that fitting requests reach, with
tables whose bytes fit a word, when
nobody holds a write lock, or any lock of a piece to remove, the call returns, unless the host has no
memory for the stack. -/
theorem filter_exact {seed adbTCap mbMBytes addr : Nat} {mem : Mem} {ms₀ : MemSpace} {inUse : Nat → Prop}
    (hcap : FitsTable adbTCap) (hpad : mbMBytes + 33 < 2 ^ 64) (hfits : FitsBlock mbMBytes)
    (hnew : newMemSpaceSeed seed adbTCap mbMBytes addr mem = some ms₀)
    (hreach : Reaches msStep (fun s a => usesLive s a ∧ requestFits a) (MsSys.new ms₀) s)
    (pred : Vaddr → List UInt8 → Bool) (t : Tid)
    (hread : ∀ v c, s.ms.adb.entry v = some c → c.lck.canRead = true)
    (hlck : ∀ v c, s.ms.adb.entry v = some c → pred v (contents s.ms v) = false → c.lck.isFree = true)
    (hhost₀ : HostOk host₀ inUse) (hhost : ∀ bc, BcHostOk bc (host bc)) (hfuel : s.live.length < fuel) :
    (msFilter s.ms t (noting s.ms pred) [] host₀ host fuel = some (.error .exit) ∧ OutOfMemory host₀ host) ∨
    ∃ filtered ms' seen,
      msFilter s.ms t (noting s.ms pred) [] host₀ host fuel = some (.ok (filtered, ms', seen)) ∧
        Filtered s pred t filtered ms' seen := by
  obtain ⟨owner, content, h⟩ := msSound_reach hcap.lt hpad hfits hnew hreach
  unfold msFilter
  have hstack : newBrokenCollection 16 30 false host₀ = .error .exit ∧ host₀ (17 + 16 * 30) = none ∨
      ∃ bc, newBrokenCollection 16 30 false host₀ = .ok bc ∧ Deque 16 30 bc [] :=
    newBrokenCollection_eq (by decide) (by decide) (by decide) hhost₀
  rcases hstack with ⟨hexit, hnone⟩ | ⟨bc, hok, hbc⟩
  · rw [hexit]
    exact .inl ⟨rfl, .inl ⟨_, hnone⟩⟩
  rw [hok]
  simp only [h.msForeach_eq (canRead_cell h.quiet hread)]
  rcases foldl_filter hhost hbc s.ms.adb.calls [] with ⟨hexit, hnone⟩ | ⟨bc', hrun, hbc'⟩
  · rw [hexit]
    exact .inl ⟨rfl, hnone⟩
  · rw [hrun]
    refine .inr ?_
    rw [List.nil_append, ← List.reverse_reverse (rejected s.ms pred s.ms.adb.calls)] at hbc'
    have hmem : ∀ v, v ∈ (rejected s.ms pred s.ms.adb.calls).reverse ↔
        v ∈ s.live ∧ pred v (contents s.ms v) = false := by
      intro v
      rw [List.mem_reverse, h.mem_rejected]
    have hnodup : (rejected s.ms pred s.ms.adb.calls).reverse.Nodup :=
      List.nodup_reverse.mpr h.nodup_rejected
    generalize (rejected s.ms pred s.ms.adb.calls).reverse = vs at hbc' hmem hnodup
    -- the second loop frees them
    have hlen : vs.length ≤ s.live.length :=
      (hnodup.subperm fun v hv => ((hmem v).mp hv).1).length_le
    obtain ⟨ms', hfrees, hfreed, hkept⟩ := h.free_all hnodup (fun v hv => ((hmem v).mp hv).1)
      (fun v hv c hc => hlck v c hc ((hmem v).mp hv).2) t
    have hloop : msFilterFree t fuel s.ms bc' 0 = some (.ok (vs.length, ms')) := by
      rw [msFilterFree_eq (fun v hv => h.lt_of_live ((hmem v).mp hv).1) hbc'
        (Nat.lt_of_le_of_lt hlen hfuel), hfrees, Nat.zero_add]
      rfl
    refine ⟨vs.length, ms', s.ms.adb.calls.map fun p => (p.1, userBytes s.ms (p.2 + mallocHeaderSize)),
      ?_, ?_⟩
    · simp only [hloop, List.nil_append]
      rfl
    · exact h.filtered hread hnodup hmem hfrees hfreed hkept

/-- The test that nobody holds a cell's lock. -/
theorem isFree_of_all {adb : AddrBook}
    (h : (adb.book.all fun entry => entry.adt.cells.all (·.lck.isFree)) = true) :
    ∀ v c, adb.entry v = some c → c.lck.isFree = true := by
  intro v c hc
  obtain ⟨adt, hadt, hcell⟩ := Option.bind_eq_some_iff.mp (AddrBook.entry_eq_some.mp hc).1
  obtain ⟨entry, hentry, rfl⟩ := Option.map_eq_some_iff.mp hadt
  have hcells := List.all_eq_true.mp h entry (List.mem_of_getElem? hentry)
  exact List.all_eq_true.mp hcells c (List.mem_of_getElem? hcell)

set_option maxRecDepth 4000 in
/-- Of two pieces, the sweep for the shorter one frees it and leaves the other. -/
theorem filter_exact_short : ∃ ms s filtered ms' seen,
    newMemSpaceSeed 1 2 100 4096 ⟨fun _ => 0⟩ = some ms ∧ s.live.length = 2 ∧
    msFilter s.ms 0 (noting s.ms fun _ bytes => decide (16 < bytes.length)) [] (hostAt 8)
      (fun _ _ => none) 3 = some (.ok (filtered, ms', seen)) ∧
    Filtered s (fun _ bytes => decide (16 < bytes.length)) 0 filtered ms' seen := by
  obtain ⟨ms, s₁, s, res, hnew, h₁, h₂, hlive, hlck, hres⟩ : ∃ ms s₁ s res,
      newMemSpaceSeed 1 2 100 4096 ⟨fun _ => 0⟩ = some ms ∧
      msStep (MsSys.new ms) (.malloc 0 16 false 8192 ⟨fun _ => 0⟩) = some s₁ ∧
      msStep s₁ (.malloc 0 24 false 8192 ⟨fun _ => 0⟩) = some s ∧ s.live.length = 2 ∧
      (s.ms.adb.book.all fun entry => entry.adt.cells.all (·.lck.isFree)) = true ∧
      msFilter s.ms 0 (noting s.ms fun _ bytes => decide (16 < bytes.length)) [] (hostAt 8)
        (fun _ _ => none) 3 = some (.ok res) :=
    ⟨_, _, _, _, rfl, rfl, rfl, rfl, rfl, rfl⟩
  have hrule₁ : usesLive (MsSys.new ms) (.malloc 0 16 false 8192 ⟨fun _ => 0⟩) ∧
      requestFits (.malloc 0 16 false 8192 ⟨fun _ => 0⟩) :=
    ⟨show 16 + mallocHeaderSize + 33 < 2 ^ 64 by decide, show FitsBlock 24 by decide⟩
  have hrule₂ : usesLive s₁ (.malloc 0 24 false 8192 ⟨fun _ => 0⟩) ∧
      requestFits (.malloc 0 24 false 8192 ⟨fun _ => 0⟩) :=
    ⟨show 24 + mallocHeaderSize + 33 < 2 ^ 64 by decide, show FitsBlock 32 by decide⟩
  have hreach : Reaches msStep (fun s a => usesLive s a ∧ requestFits a) (MsSys.new ms) s := by
    refine Reaches.snoc (Reaches.snoc (.refl _) ?_ h₁) ?_ h₂
    · exact hrule₁
    · exact hrule₂
  have hfree := isFree_of_all hlck
  rcases filter_exact (by decide) (by decide) (show FitsBlock 100 by decide) hnew hreach
      (fun _ bytes => decide (16 < bytes.length)) 0
      (fun v c hc => RwLock.canRead_iff.mpr (RwLock.writer_of_isFree (hfree v c hc)))
      (fun v c hc _ => hfree v c hc)
      (show HostOk (hostAt 8) fun _ => False from hostOk_hostAt (by decide) id)
      (fun bc => show BcHostOk bc fun _ => none from nofun) (show s.live.length < 3 by rw [hlive]; decide)
    with ⟨hexit, -⟩ | ⟨filtered, ms', seen, hrun, hfiltered⟩
  · rw [hres] at hexit
    cases hexit
  · exact ⟨ms, s, filtered, ms', seen, hnew, hlive, hrun, hfiltered⟩

set_option maxRecDepth 4000 in
/-- A request of 2^64 - 100 bytes gets a block whose buffer does not hold its piece (the sum with the
block's header wraps): to reject that piece is to read its header outside of the blocks. -/
theorem wrapped_piece_filter : ∃ ms s, newMemSpaceSeed 1 2 100 4096 ⟨fun _ => 0⟩ = some ms ∧
    Reaches msStep usesLive (MsSys.new ms) s ∧ s.live.length = 1 ∧
    (∀ v c, s.ms.adb.entry v = some c → c.lck.isFree = true) ∧
    ∀ fuel, msFilter s.ms 0 (noting s.ms fun _ _ => false) [] (hostAt 8) (fun _ _ => none) fuel = none := by
  obtain ⟨ms, s, hnew, hstep, hlive, hlck, hfilter⟩ : ∃ ms s,
      newMemSpaceSeed 1 2 100 4096 ⟨fun _ => 0⟩ = some ms ∧
      msStep (MsSys.new ms) (.malloc 0 (2 ^ 64 - 100) false 8192 ⟨fun _ => 0⟩) = some s ∧ s.live.length = 1 ∧
      (s.ms.adb.book.all fun entry => entry.adt.cells.all (·.lck.isFree)) = true ∧
      ∀ fuel, msFilter s.ms 0 (noting s.ms fun _ _ => false) [] (hostAt 8) (fun _ _ => none) fuel = none := by
    refine ⟨_, _, rfl, rfl, rfl, rfl, fun fuel => ?_⟩
    cases fuel with
    | zero => rfl
    | succ fuel => rfl
  have hrule : usesLive (MsSys.new ms) (.malloc 0 (2 ^ 64 - 100) false 8192 ⟨fun _ => 0⟩) :=
    show 2 ^ 64 - 100 + mallocHeaderSize + 33 < 2 ^ 64 by decide
  have hreach : Reaches msStep usesLive (MsSys.new ms) s := (Reaches.refl _).snoc hrule hstep
  exact ⟨ms, s, hnew, hreach, hlive, isFree_of_all hlck, hfilter⟩

end Chvm.Ms
