import Chvm.Ms.Sections

/-!
# Every call takes effect once

The store, with the calls that the threads are in: a call is made, takes its effect on the store and
returns. However the sections of the calls come, they are steps of such calls: each call has one effect,
with its own arguments, between the call and the return. A throw, a shift and the publication of a block
have no effect of their own.
-/

set_option autoImplicit false

namespace Chvm.Ms

open Chvm.Lib Chvm.Virt Chvm.Mb

/-! ## Calls on the store -/

inductive CallState
  | idle
  | malloc (minBytes : Nat) (hold : Bool)
  | free (vaddr : Vaddr)
  | returning
deriving DecidableEq

structure Calls where
  store : Store
  state : Tid → CallState

inductive CallAct
  | callMalloc (t : Tid) (minBytes : Nat) (hold : Bool)
  | callFree (t : Tid) (vaddr : Vaddr)
  | callFullShift (t : Tid)
  /-- An effect on the store. -/
  | effect (t : Tid) (act : StoreAct)
  | ret (t : Tid)

/-- The effects that a thread may have. A free looks at its vaddr under the lock first. -/
def CallState.allows (t : Tid) : CallState → StoreAct → Bool
  | .idle, .getRead u _ | .idle, .getWrite u _ | .idle, .unlock u _ | .idle, .write u .. => u = t
  | .malloc n hold, .malloc u _ hold' bytes => u = t && hold' = hold && bytes.length = n
  | .free v, .getRead u w | .free v, .unlock u w => u = t && w = v
  | .free v, .free w => w = v
  | _, _ => false

/-- A call has had its effect. -/
def CallState.after : CallState → StoreAct → CallState
  | .malloc .., .malloc .. | .free _, .free _ => .returning
  | c, _ => c

def Calls.goto (s : Calls) (t : Tid) (c : CallState) : Calls :=
    { s with state := Function.update s.state t c }

def callStep (s : Calls) : CallAct → Option Calls
  | .callMalloc t n hold =>
    if s.state t = .idle then some (s.goto t (if n = 0 then .returning else .malloc n hold)) else none
  | .callFree t v => if s.state t = .idle then some (s.goto t (.free v)) else none
  | .callFullShift t => if s.state t = .idle then some (s.goto t .returning) else none
  | .effect t act =>
    if (s.state t).allows t act then
      (storeStep s.store act).map fun store => { s with store := store }.goto t ((s.state t).after act)
    else none
  | .ret t => if s.state t = .returning then some (s.goto t .idle) else none

/-- What the sections show of the calls. -/
def isPart : MsSection → List CallAct → Prop
  | .callMalloc t n hold, acts => acts = .callMalloc t n hold :: if n = 0 then [.ret t] else []
  | .mallocIn t n hold _ _, acts => acts = [] ∨
      ∃ v bytes, bytes.length = n ∧ acts = [.effect t (.malloc t v hold bytes), .ret t]
  | .create t n hold _ _, acts => ∃ v bytes, bytes.length = n ∧ acts = [.effect t (.malloc t v hold bytes)]
  | .publish t _, acts => acts = [.ret t]
  | .callFree t v, acts => acts = [.callFree t v]
  | .lockHeader t v, acts => acts = [.effect t (.getRead t v)]
  | .readHeader t v _, acts => acts = [.effect t (.unlock t v)]
  | .freeIn t v _, acts => acts = [.effect t (.free v), .ret t]
  | .callFullShift t, acts => acts = [.callFullShift t]
  | .nextBlock t i len, acts => acts = if i < len then [] else [.ret t]
  | .throwDart .., acts | .lockMem .., acts | .tryShift .., acts => acts = []
  | .user t a, acts => ∃ act, isCall a [act] ∧ acts = [.effect t act]

/-! ## The calls of the threads -/

def MsPc.call : MsPc → CallState
  | .idle => .idle
  | .throwing n hold _ | .trying n hold _ _ => .malloc n hold
  | .locking v | .reading v _ | .freeing v _ | .freeingUnsafe v _ => .free v
  | .publishing _ | .shifting .. | .shiftingIn .. => .returning

def MsThreads.calls (s : MsThreads) : Calls := ⟨s.sys.store, fun t => (s.pc t).call⟩

variable {s s' : MsThreads} {sys' : MsSys} {list' : List Nat} {memLck' : Nat → Option Tid}
  {owner owner' : Vaddr → Nat}
  {content content' : Vaddr → Nat → Option UInt8} {p : MsPc} {t : Tid} {v : Vaddr} {act : StoreAct}

theorem calls_update : MsThreads.calls ⟨sys', list', Function.update s.pc t p, memLck'⟩ =
    ⟨sys'.store, Function.update s.calls.state t p.call⟩ := by
  unfold MsThreads.calls
  congr 1
  funext u
  show (Function.update s.pc t p u).call = Function.update s.calls.state t p.call u
  by_cases hu : u = t
  · rw [hu, Function.update_self, Function.update_self]
  · rw [Function.update_of_ne hu, Function.update_of_ne hu]
    rfl

/-- A section that the store does not see. -/
theorem calls_same (hstore : sys'.store = s.sys.store) (hcall : p.call = (s.pc t).call) :
    MsThreads.calls ⟨sys', list', Function.update s.pc t p, memLck'⟩ = s.calls := by
  rw [calls_update, hstore, hcall]
  show Calls.mk s.sys.store (Function.update s.calls.state t (s.calls.state t)) = s.calls
  rw [Function.update_eq_self]
  rfl

def MsThreads.Sound (s : MsThreads) : Prop := ∃ owner content, s.Inv owner content

/-- What a section does: the invariant is kept, and the calls make these steps. -/
def Simulated (s s' : MsThreads) (acts : List CallAct) : Prop :=
  s'.Sound ∧
    ∃ tr, Steps callStep (fun _ _ => True) s.calls tr s'.calls ∧ tr.map Prod.snd = acts

/-- A section without an effect, that may call or return. -/
theorem simulated_quiet (h : MsThreads.Inv ⟨sys', list', Function.update s.pc t p, memLck'⟩ owner' content')
    (hstore : sys'.store = s.sys.store) (hcall : p.call = (s.pc t).call) :
    Simulated s ⟨sys', list', Function.update s.pc t p, memLck'⟩ [] :=
  ⟨⟨owner', content', h⟩, [], calls_same hstore hcall ▸ .nil, rfl⟩

theorem simulated_one {a : CallAct}
    (h : MsThreads.Inv ⟨sys', list', Function.update s.pc t p, memLck'⟩ owner' content')
    (hstep : callStep s.calls a = some ⟨sys'.store, Function.update s.calls.state t p.call⟩) :
    Simulated s ⟨sys', list', Function.update s.pc t p, memLck'⟩ [a] :=
  ⟨⟨owner', content', h⟩, [(s.calls, a)], calls_update ▸ .single trivial hstep, rfl⟩

/-- An effect of a call that goes on. -/
theorem callStep_effect {st : Store} (hallows : (s.pc t).call.allows t act = true)
    (hact : storeStep s.sys.store act = some st) : callStep s.calls (.effect t act) =
      some ⟨st, Function.update s.calls.state t ((s.pc t).call.after act)⟩ := by
  have hallows' : (s.calls.state t).allows t act = true := hallows
  have hact' : storeStep s.calls.store act = some st := hact
  simp only [callStep, if_pos hallows', hact', Option.map_some]
  rfl

/-- An effect, and the return of the call. -/
theorem simulated_ret (h : MsThreads.Inv ⟨sys', list', Function.update s.pc t .idle, memLck'⟩ owner' content')
    (hallows : (s.pc t).call.allows t act = true) (hafter : (s.pc t).call.after act = .returning)
    (hact : storeStep s.sys.store act = some sys'.store) :
    Simulated s ⟨sys', list', Function.update s.pc t .idle, memLck'⟩ [.effect t act, .ret t] := by
  have heffect := callStep_effect hallows hact
  rw [hafter] at heffect
  have hret : callStep ⟨sys'.store, Function.update s.calls.state t .returning⟩ (.ret t) =
      some (MsThreads.calls ⟨sys', list', Function.update s.pc t .idle, memLck'⟩) := by
    rw [calls_update]
    simp only [callStep, Calls.goto, Function.update_self, if_true, Function.update_idem]
    rfl
  exact ⟨⟨owner', content', h⟩, _, .cons trivial heffect (.single trivial hret), rfl⟩

/-! ## The sections -/

/-- A place outside of `ms_free`. -/
theorem frees_none {P : Vaddr → Prop} (h : p.frees = none) : ∀ v, p.frees = some v → P v := by
  intro v hv
  rw [h] at hv
  cases hv

/-- A section of a thread that changes no block. -/
theorem MsThreads.Inv.stay (h : s.Inv owner content) (hspace : MsInv sys' owner content')
    (hblocks : sys'.blocks = s.sys.blocks) (hlive : sys'.live = s.sys.live)
    (hgrants : ∀ g ∈ s.sys.grants, g.tid ≠ t → g ∈ sys'.grants) (hold : (s.pc t).Plain)
    (hnew : p.Plain) (hok : p.Ok sys' s.list owner t)
    (hfrees : ∀ v, p.frees = some v → (s.pc t).frees = some v ∨ ∀ u, (s.pc u).frees ≠ some v) :
    MsThreads.Inv ⟨sys', s.list, Function.update s.pc t p, s.memLck⟩ owner content' := by
  have haside : Aside s t owner sys' owner :=
    ⟨fun mb hmb => hblocks ▸ hmb, fun v hv _ => hlive ▸ hv, fun _ _ _ => rfl, hgrants⟩
  exact h.next hspace haside (Nat.le_refl _) (hblocks ▸ h.listed.goto hold.1 hnew.1)
    (h.locked.goto (hnew.2.trans hold.2.symm)) hok hfrees

theorem callMalloc_simulated {n : Nat} {hold : Bool} (h : s.Inv owner content)
    (hok : sectionRule s (.callMalloc t n hold)) (hstep : sectionStep s (.callMalloc t n hold) = some s') :
    ∃ acts, isPart (.callMalloc t n hold) acts ∧ Simulated s s' acts := by
  simp only [sectionStep] at hstep
  split at hstep
  next hpc =>
    refine ⟨_, rfl, ?_⟩
    have hidle : s.calls.state t = .idle := congrArg MsPc.call hpc
    split at hstep
    next hzero =>
      cases hstep
      rw [if_pos hzero]
      have hcall : callStep s.calls (.callMalloc t n hold) = some (s.calls.goto t .returning) := by
        simp only [callStep, if_pos hidle, if_pos hzero]
      have hret : callStep (s.calls.goto t .returning) (.ret t) = some s.calls := by
        simp only [callStep, Calls.goto, Function.update_self, if_true, Function.update_idem]
        rw [← hidle, Function.update_eq_self]
      exact ⟨⟨owner, content, h⟩, _, .cons trivial hcall (.single trivial hret), rfl⟩
    next hpos =>
      generalize (if s.list.length / searchDiv = 0 then 1 else s.list.length / searchDiv) = throws at hstep
      cases hstep
      have hinv := h.stay (p := .throwing n hold throws) h.space rfl rfl (fun _ hg _ => hg)
        (by rw [hpc]; exact ⟨rfl, rfl⟩) ⟨rfl, rfl⟩
        ⟨Nat.pos_of_ne_zero hpos, hok⟩ (frees_none rfl)
      rw [if_neg hpos]
      refine simulated_one hinv ?_
      simp only [callStep, if_pos hidle, if_neg hpos]
      rfl
  next => cases hstep

theorem throwDart_simulated {n throws : Nat} {hold : Bool} (h : s.Inv owner content)
    (hstep : sectionStep s (.throwDart t n hold throws) = some s') : Simulated s s' [] := by
  simp only [sectionStep] at hstep
  split at hstep
  next hpc =>
    obtain ⟨rnd, seed, hrnd⟩ : ∃ rnd seed, msNextRnd s.sys.ms = (rnd, { s.sys.ms with seed := seed }) :=
      ⟨_, _, rfl⟩
    rw [hrnd] at hstep
    obtain ⟨mb, hmb, rfl⟩ := Option.map_eq_some_iff.mp hstep
    have hrequest := h.ok t
    rw [hpc] at hrequest
    have hinv := h.stay (p := .trying n hold throws mb) (h.space.reseed seed) rfl rfl (fun _ hg _ => hg)
      (by rw [hpc]; exact ⟨rfl, rfl⟩) ⟨rfl, rfl⟩ ⟨hrequest, h.listed.mem mb (List.mem_of_getElem? hmb)⟩
        (frees_none rfl)
    exact simulated_quiet hinv rfl (by rw [hpc]; rfl)
  next => cases hstep

/-- What a malloc leaves to the other threads. -/
theorem aside_malloced {ms' : MemSpace} {n : Nat} {hold : Bool} {res : MallocRes} (h : s.Inv owner content)
    (hm : Malloced s.sys content ms' t n hold res)
      (hblocks : ∀ mb ∈ s.sys.blocks, mb ∈ ms'.mbList.map (·.addr)) :
    ∃ owner' content', MsInv (s.sys.malloced ms' t n res) owner' content' ∧
      Aside s t owner (s.sys.malloced ms' t n res) owner' := by
  obtain ⟨owner', content', h', hkept⟩ := hm.kept
  refine ⟨owner', content', h', hblocks, fun v hv _ => List.mem_cons_of_mem _ hv,
    fun v hv hv' => h.space.owner_eq h' hv hv' (hkept v hv), fun g hg _ => ?_⟩
  unfold MsSys.malloced
  cases res.paddr with
  | none => exact hg
  | some paddr => exact List.mem_cons_of_mem _ hg

/-- The effect of a malloc. -/
theorem storeStep_malloced {ms' : MemSpace} {n : Nat} {hold : Bool} {res : MallocRes}
    (h : s.Inv owner content)
    (hpos : 0 < n) (hm : Malloced s.sys content ms' t n hold res) : ∃ v bytes, bytes.length = n ∧
      storeStep s.sys.store (.malloc t v hold bytes) = some (s.sys.malloced ms' t n res).store := by
  obtain ⟨hnone, bytes, hlen, hstore⟩ := h.space.store_malloced hm
  refine ⟨res.vaddr, bytes, hlen, ?_⟩
  rw [storeStep, if_pos ⟨hnone, hm.ne_null, List.ne_nil_of_length_pos (hlen ▸ hpos)⟩, hstore]

theorem allows_malloc {n : Nat} {hold : Bool} {bytes : List UInt8} (hlen : bytes.length = n) :
    (CallState.malloc n hold).allows t (.malloc t v hold bytes) = true := by
  simp only [CallState.allows, decide_true, Bool.true_and, hlen]

theorem mallocIn_simulated {n throws mb : Nat} {hold : Bool} (h : s.Inv owner content)
    (hstep : sectionStep s (.mallocIn t n hold throws mb) = some s') :
    ∃ acts, isPart (.mallocIn t n hold throws mb) acts ∧ Simulated s s' acts := by
  simp only [sectionStep] at hstep
  split at hstep
  next hwith =>
    obtain ⟨hpc, -⟩ := hwith
    obtain ⟨⟨res, ms'⟩, hres, rfl⟩ := Option.map_eq_some_iff.mp hstep
    have hok := h.ok t
    rw [hpc] at hok
    obtain ⟨hrequest, hmb⟩ := hok
    unfold paddedBytes at hres
    rw [Nat.mod_eq_of_lt (by omega)] at hres
    have hplain : (s.pc t).Plain := by rw [hpc]; exact ⟨rfl, rfl⟩
    obtain ⟨haddrs, ⟨hnull, rfl⟩ | hm⟩ := h.space.msMallocAt hmb hrequest.2.1 hres
    · refine ⟨[], .inl rfl, ?_⟩
      rw [if_pos hnull]
      have hinv := h.stay (p := .throwing n hold throws) h.space rfl rfl (fun _ hg _ => hg) hplain ⟨rfl, rfl⟩
        hrequest (frees_none rfl)
      exact simulated_quiet hinv rfl (by rw [hpc]; rfl)
    · obtain ⟨v, bytes, hlen, hact⟩ := storeStep_malloced h hrequest.1 hm
      obtain ⟨owner', content', h', haside⟩ := aside_malloced h hm fun mb hmb => haddrs ▸ hmb
      refine ⟨_, .inr ⟨v, bytes, hlen, rfl⟩, ?_⟩
      rw [if_neg hm.ne_null]
      have hblocks : (s.sys.malloced ms' t n res).blocks = s.sys.blocks := haddrs
      have hlisted := h.listed.goto (p := .idle) hplain.1 rfl
      rw [← hblocks] at hlisted
      have hinv := h.next h' haside (Nat.le_refl _) hlisted (h.locked.goto (p := .idle) hplain.2.symm) trivial
        (frees_none rfl)
      refine simulated_ret hinv ?_ ?_ hact
      · rw [hpc]
        exact allows_malloc hlen
      · rw [hpc]
        rfl
  next => cases hstep

theorem create_simulated {n addr : Nat} {hold : Bool} {mem : Mem} (h : s.Inv owner content)
    (hstep : sectionStep s (.create t n hold addr mem) = some s') :
    ∃ acts, isPart (.create t n hold addr mem) acts ∧ Simulated s s' acts := by
  simp only [sectionStep] at hstep
  split at hstep
  next hpc =>
    obtain ⟨⟨res, ms'⟩, hres, rfl⟩ := Option.map_eq_some_iff.mp hstep
    have hrequest := h.ok t
    rw [hpc] at hrequest
    obtain ⟨hpos, hn, hfits⟩ := hrequest
    unfold paddedBytes at hres
    rw [Nat.mod_eq_of_lt (by omega)] at hres
    obtain ⟨haddrs, hm⟩ := h.space.msCreate hn hfits hres
    obtain ⟨v, bytes, hlen, hact⟩ := storeStep_malloced h hpos hm
    obtain ⟨owner', content', h', haside⟩ := aside_malloced h hm fun mb hmb =>
      haddrs ▸ List.mem_append_left _ hmb
    -- the host's buffer is not one of the blocks
    have hblocks : (s.sys.malloced ms' t n res).blocks = s.sys.blocks ++ [addr] := haddrs
    have hnodup := h'.nodup_blocks
    rw [hblocks] at hnodup
    have hfresh : addr ∉ s.sys.blocks := fun hmem =>
      (List.disjoint_of_nodup_append hnodup) hmem (List.mem_singleton_self _)
    have hlisted := h.listed.create (t := t) (by rw [hpc]; rfl) hfresh
    rw [← hblocks] at hlisted
    have hlocked := h.locked.goto (t := t) (p := .publishing addr) (by rw [hpc]; rfl)
    have hinv := h.next h' haside (Nat.le_refl _) hlisted hlocked trivial (frees_none rfl)
    have heffect := callStep_effect (by rw [hpc]; exact allows_malloc hlen) hact
    refine ⟨_, ⟨v, bytes, hlen, rfl⟩, simulated_one hinv ?_⟩
    rw [heffect, hpc]
    rfl
  next => cases hstep

theorem publish_simulated {mb : Nat} (h : s.Inv owner content)
    (hstep : sectionStep s (.publish t mb) = some s') : Simulated s s' [.ret t] := by
  simp only [sectionStep] at hstep
  split at hstep
  next hpc =>
    generalize (if s.list.length = s.sys.ms.mbListCap then s.sys.ms.mbListCap * 2
      else s.sys.ms.mbListCap) = cap at hstep
    cases hstep
    have hlisted := h.listed.publish (show (s.pc t).unlisted = some mb by rw [hpc]; rfl)
    have hlen : s.list.length ≤ (s.list ++ [mb]).length := by
      rw [List.length_append]
      exact Nat.le_add_right _ _
    have haside : Aside s t owner { s.sys with ms := { s.sys.ms with mbListCap := cap } } owner :=
      ⟨fun _ h => h, fun _ h _ => h, fun _ _ _ => rfl, fun _ h _ => h⟩
    have hlocked := h.locked.goto (t := t) (p := .idle) (by rw [hpc]; rfl)
    have hinv := h.next (h.space.recap cap) haside hlen hlisted hlocked trivial (frees_none rfl)
    have hcall : s.calls.state t = .returning := congrArg MsPc.call hpc
    refine simulated_one hinv ?_
    simp only [callStep, if_pos hcall]
    rfl
  next => cases hstep

theorem callFree_simulated (h : s.Inv owner content) (hok : sectionRule s (.callFree t v))
    (hstep : sectionStep s (.callFree t v) = some s') : Simulated s s' [.callFree t v] := by
  simp only [sectionStep] at hstep
  split at hstep
  next hpc =>
    cases hstep
    have hinv := h.stay (p := .locking v) h.space rfl rfl (fun _ hg _ => hg) (by rw [hpc]; exact ⟨rfl, rfl⟩)
      ⟨rfl, rfl⟩ hok.1
      fun w hw => .inr (Option.some.inj hw ▸ hok.2)
    have hcall : s.calls.state t = .idle := congrArg MsPc.call hpc
    refine simulated_one hinv ?_
    simp only [callStep, if_pos hcall]
    rfl
  next => cases hstep

/-- A call on the space that has one effect. -/
theorem MsThreads.Inv.effect (h : s.Inv owner content) (a : MsAct) (act : StoreAct) (hlive : usesLive s.sys a)
    (hcall : ∀ acts, isCall a acts ↔ acts = [act]) (hstep : msStep s.sys a = some sys') :
    (∃ content', MsInv sys' owner content') ∧ storeStep s.sys.store act = some sys'.store := by
  -- a malloc may have any new vaddr
  have hnot : ∀ t n hold addr mem, a ≠ .malloc t n hold addr mem := by
    rintro t n hold addr mem rfl
    have hany : ∀ i, isCall (.malloc t n hold addr mem) [.malloc t ⟨0, i⟩ hold (List.replicate n 0)] :=
      fun i => .inr ⟨_, _, List.length_replicate, rfl⟩
    have hsame := ((hcall _).mp (hany 0)).trans ((hcall _).mp (hany 1)).symm
    cases hsame
  have hfits : requestFits a := by
    cases a with
    | malloc t n hold addr mem => exact absurd rfl (hnot t n hold addr mem)
    | _ => trivial
  refine ⟨h.space.step hlive hnot hstep, ?_⟩
  obtain ⟨acts, hacts, ⟨rfl, -⟩ | ⟨act', rfl, hact⟩⟩ := msStep_store ⟨owner, content,
    h.space⟩ hlive hfits hstep
  · cases (hcall _).mp hacts
  · cases (hcall _).mp hacts
    exact hact

theorem lockHeader_simulated (h : s.Inv owner content)
    (hstep : sectionStep s (.lockHeader t v) = some s') : Simulated s s' [.effect t (.getRead t v)] := by
  simp only [sectionStep] at hstep
  split at hstep
  next hpc =>
    obtain ⟨⟨paddr, adb'⟩, hget, rfl⟩ := Option.map_eq_some_iff.mp hstep
    have hlive := h.ok t
    rw [hpc] at hlive
    have hms : msStep s.sys (.getRead t v) = some { s.sys with
        ms := { s.sys.ms with adb := adb' }, grants := ⟨t, v, paddr⟩ :: s.sys.grants } := by
      simp only [msStep, hget, Option.map_some]
    obtain ⟨⟨content', h'⟩, hact⟩ := h.effect (.getRead t v) (.getRead t v) hlive (fun _ => Iff.rfl) hms
    have hinv := h.stay (p := .reading v paddr) h' rfl rfl (fun _ hg _ => List.mem_cons_of_mem _ hg)
      (by rw [hpc]; exact ⟨rfl, rfl⟩) ⟨rfl, rfl⟩ ⟨hlive, List.mem_cons_self⟩ fun w hw => .inl
        (by rw [hpc]; exact hw)
    refine simulated_one hinv ?_
    rw [callStep_effect (by rw [hpc]; simp [MsPc.call, CallState.allows]) hact, hpc]
    rfl
  next => cases hstep

theorem readHeader_simulated {paddr : Nat} (h : s.Inv owner content)
    (hstep : sectionStep s (.readHeader t v paddr) = some s') : Simulated s s' [.effect t (.unlock t v)] := by
  simp only [sectionStep] at hstep
  split at hstep
  next hpc =>
    split at hstep
    next mb adb' hheader hunlock =>
      cases hstep
      have hok := h.ok t
      rw [hpc] at hok
      obtain ⟨hlive, hgrant⟩ := hok
      have hms : msStep s.sys (.unlock t v) = some { s.sys with
          ms := { s.sys.ms with adb := adb' }, grants := s.sys.grants.eraseP (isGrant t v) } := by
        simp only [msStep, hunlock, Option.map_some]
      obtain ⟨⟨content', h'⟩, hact⟩ := h.effect (.unlock t v) (.unlock t v) hlive (fun _ => Iff.rfl) hms
      obtain ⟨c, hc, hpaddr⟩ := h.space.grant_entry hgrant
      have howner : owner v = mb := by
        rw [show paddr = c.paddr from hpaddr, h.space.msHeader_eq hlive hc] at hheader
        exact Option.some.inj hheader
      have hinv := h.stay (p := .freeing v mb) h' rfl rfl
        (fun g hg hne => (List.mem_eraseP_of_neg fun h => hne (isGrant_iff.mp h).1).mpr hg)
        (by rw [hpc]; exact ⟨rfl, rfl⟩) ⟨rfl, rfl⟩ ⟨hlive, howner⟩ fun w hw => .inl (by rw [hpc]; exact hw)
      refine simulated_one hinv ?_
      rw [callStep_effect (by rw [hpc]; simp [MsPc.call, CallState.allows]) hact, hpc]
      rfl
    next => cases hstep
  next => cases hstep

theorem lockMem_simulated {mb : Nat} (h : s.Inv owner content)
    (hstep : sectionStep s (.lockMem t v mb) = some s') : Simulated s s' [] := by
  simp only [sectionStep] at hstep
  split at hstep
  next hwith =>
    cases hstep
    obtain ⟨hpc, hnone⟩ := hwith
    have hok := h.ok t
    rw [hpc] at hok
    have hlisted := h.listed.goto (t := t) (p := .freeingUnsafe v mb) (by rw [hpc]; rfl) rfl
    have hlocked := h.locked.lock (t := t) (v := v) hnone (by rw [hpc]; rfl)
    have hinv := h.next h.space .refl (Nat.le_refl _) hlisted hlocked hok
      fun w hw => .inl (by rw [hpc]; exact hw)
    exact simulated_quiet hinv rfl (by rw [hpc]; rfl)
  next => cases hstep

theorem freeIn_simulated {mb : Nat} (h : s.Inv owner content)
    (hstep : sectionStep s (.freeIn t v mb) = some s') : Simulated s s' [.effect t (.free v), .ret t] := by
  simp only [sectionStep] at hstep
  split at hstep
  next hpc =>
    obtain ⟨ms', hfree, rfl⟩ := Option.map_eq_some_iff.mp hstep
    have hok := h.ok t
    rw [hpc] at hok
    obtain ⟨hlive, howner⟩ := hok
    have hblocks : MsSys.blocks { s.sys with
        ms := ms', live := s.sys.live.filter (· ≠ v), frees := s.sys.frees + 1 } = s.sys.blocks :=
      map_addr_msFreeIn hfree
    have hms : msStep s.sys (.free t v) = some { s.sys with
        ms := ms', live := s.sys.live.filter (· ≠ v), frees := s.sys.frees + 1 } := by
      simp only [msStep, h.space.msFreeIn hlive howner hfree, Option.map_some]
    obtain ⟨⟨content', h'⟩, hact⟩ := h.effect (.free t v) (.free v) hlive (fun _ => Iff.rfl) hms
    have haside : Aside s t owner { s.sys with
        ms := ms', live := s.sys.live.filter (· ≠ v), frees := s.sys.frees + 1 } owner := by
      refine ⟨fun mb hmb => hblocks ▸ hmb, fun w hw hne => List.mem_filter.mpr ⟨hw, ?_⟩, fun _ _ _ => rfl,
        fun _ hg _ => hg⟩
      rw [hpc] at hne
      exact decide_eq_true fun heq => hne (congrArg some heq.symm)
    have hlisted := h.listed.goto (t := t) (p := .idle) (by rw [hpc]; rfl) rfl
    rw [← hblocks] at hlisted
    have hlocked := h.locked.unlock (t := t) (p := .idle) (by rw [hpc]; rfl) rfl
    have hinv := h.next h' haside (Nat.le_refl _) hlisted hlocked trivial (frees_none rfl)
    refine simulated_ret hinv ?_ ?_ hact
    · rw [hpc]
      simp [MsPc.call, CallState.allows]
    · rw [hpc]
      rfl
  next => cases hstep

theorem callFullShift_simulated (h : s.Inv owner content)
    (hstep : sectionStep s (.callFullShift t) = some s') : Simulated s s' [.callFullShift t] := by
  simp only [sectionStep] at hstep
  split at hstep
  next hpc =>
    cases hstep
    have hinv := h.stay (p := .shifting 0 s.list.length) h.space rfl rfl (fun _ hg _ => hg)
      (by rw [hpc]; exact ⟨rfl, rfl⟩) ⟨rfl, rfl⟩ (Nat.le_refl _) (frees_none rfl)
    have hcall : s.calls.state t = .idle := congrArg MsPc.call hpc
    refine simulated_one hinv ?_
    simp only [callStep, if_pos hcall]
    rfl
  next => cases hstep

theorem nextBlock_simulated {i len : Nat} (h : s.Inv owner content)
    (hstep : sectionStep s (.nextBlock t i len) = some s') :
    Simulated s s' (if i < len then [] else [.ret t]) := by
  simp only [sectionStep] at hstep
  split at hstep
  next hpc =>
    have hplain : (s.pc t).Plain := by rw [hpc]; exact ⟨rfl, rfl⟩
    have hlen := h.ok t
    rw [hpc] at hlen
    split at hstep
    next hlt =>
      obtain ⟨mb, hmb, rfl⟩ := Option.map_eq_some_iff.mp hstep
      have hinv := h.stay (p := .shiftingIn i len mb) h.space rfl rfl (fun _ hg _ => hg) hplain ⟨rfl, rfl⟩
        ⟨hlen, h.listed.mem mb (List.mem_of_getElem? hmb)⟩ (frees_none rfl)
      rw [if_pos hlt]
      exact simulated_quiet hinv rfl (by rw [hpc]; rfl)
    next hlt =>
      cases hstep
      have hinv := h.stay (p := .idle) h.space rfl rfl (fun _ hg _ => hg) hplain ⟨rfl, rfl⟩ trivial
        (frees_none rfl)
      have hcall : s.calls.state t = .returning := congrArg MsPc.call hpc
      rw [if_neg hlt]
      refine simulated_one hinv ?_
      simp only [callStep, if_pos hcall]
      rfl
  next => cases hstep

theorem tryShift_simulated {i len mb : Nat} (h : s.Inv owner content)
    (hstep : sectionStep s (.tryShift t i len mb) = some s') : Simulated s s' [] := by
  simp only [sectionStep] at hstep
  split at hstep
  next hwith =>
    obtain ⟨hpc, -⟩ := hwith
    obtain ⟨⟨res, ms'⟩, hshift, rfl⟩ := Option.map_eq_some_iff.mp hstep
    have hok := h.ok t
    rw [hpc] at hok
    obtain ⟨hlen, hmb⟩ := hok
    obtain ⟨h', hblocks, hstore⟩ := h.space.msTryShift hmb hshift
    have hplain : (s.pc t).Plain := by rw [hpc]; exact ⟨rfl, rfl⟩
    have hblocks' : MsSys.blocks { s.sys with ms := ms' } = s.sys.blocks := hblocks
    have hmb' : mb ∈ MsSys.blocks { s.sys with ms := ms' } := hblocks' ▸ hmb
    simp only
    split
    · have hinv := h.stay (p := .shiftingIn i len mb) h' hblocks rfl (fun _ hg _ => hg) hplain ⟨rfl, rfl⟩
        ⟨hlen, hmb'⟩ (frees_none rfl)
      exact simulated_quiet hinv hstore (by rw [hpc])
    · have hinv := h.stay (p := .shifting (i + 1) len) h' hblocks rfl
        (fun _ hg _ => hg) hplain ⟨rfl, rfl⟩ hlen
        (frees_none rfl)
      exact simulated_quiet hinv hstore (by rw [hpc]; rfl)
  next => cases hstep

/-- The effect of a user's step. -/
theorem user_effect {a : MsAct} (huser : a.byUser t = true) : ∃ act, (∀ acts, isCall a acts ↔ acts = [act]) ∧
    CallState.idle.allows t act = true ∧ CallState.idle.after act = .idle := by
  cases a with
  | malloc | free | tryFullShift => cases huser
  | getRead u v | getWrite u v | unlock u v | write u v => exact ⟨_, fun _ => Iff.rfl, huser, rfl⟩

theorem user_simulated {a : MsAct} (h : s.Inv owner content) (hok : sectionRule s (.user t a))
    (hstep : sectionStep s (.user t a) = some s') :
    ∃ acts, isPart (.user t a) acts ∧ Simulated s s' acts := by
  simp only [sectionStep] at hstep
  split at hstep
  next hpc =>
    obtain ⟨hpc, huser⟩ := hpc
    obtain ⟨sys', hms, rfl⟩ := Option.map_eq_some_iff.mp hstep
    obtain ⟨act, hcall, hallows, hafter⟩ := user_effect huser
    obtain ⟨⟨content', h'⟩, hact⟩ := h.effect a act hok hcall hms
    obtain ⟨hlive, hblocks, hgrants⟩ := user_step huser hms
    have hinv := h.stay (p := .idle) h' hblocks hlive hgrants
      (by rw [hpc]; exact ⟨rfl, rfl⟩) ⟨rfl, rfl⟩ trivial
      (frees_none rfl)
    have hself : Function.update s.pc t .idle = s.pc := by rw [← hpc, Function.update_eq_self]
    have hsim := simulated_one (a := .effect t act) hinv (by
      rw [callStep_effect (by rw [hpc]; exact hallows) hact, hpc]
      exact congrArg (fun c => some (Calls.mk _ (Function.update _ t c))) hafter)
    rw [hself] at hsim
    exact ⟨_, ⟨act, (hcall _).mpr rfl, rfl⟩, hsim⟩
  next => cases hstep

/-- **Step lemma.** -/
theorem sectionStep_simulated {a : MsSection} (h : s.Sound) (hok : sectionRule s a)
    (hstep : sectionStep s a = some s') : ∃ acts, isPart a acts ∧ Simulated s s' acts := by
  obtain ⟨owner, content, h⟩ := h
  cases a with
  | callMalloc => exact callMalloc_simulated h hok hstep
  | throwDart => exact ⟨_, rfl, throwDart_simulated h hstep⟩
  | mallocIn => exact mallocIn_simulated h hstep
  | create => exact create_simulated h hstep
  | publish => exact ⟨_, rfl, publish_simulated h hstep⟩
  | callFree => exact ⟨_, rfl, callFree_simulated h hok hstep⟩
  | lockHeader => exact ⟨_, rfl, lockHeader_simulated h hstep⟩
  | readHeader => exact ⟨_, rfl, readHeader_simulated h hstep⟩
  | lockMem => exact ⟨_, rfl, lockMem_simulated h hstep⟩
  | freeIn => exact ⟨_, rfl, freeIn_simulated h hstep⟩
  | callFullShift => exact ⟨_, rfl, callFullShift_simulated h hstep⟩
  | nextBlock => exact ⟨_, rfl, nextBlock_simulated h hstep⟩
  | tryShift => exact ⟨_, rfl, tryShift_simulated h hstep⟩
  | user => exact user_simulated h hok hstep

/-! ## Runs -/

theorem sound_new {seed adbTCap mbMBytes addr : Nat} {mem : Mem} {ms : MemSpace} (hcap : adbTCap < 2 ^ 64)
    (hpad : mbMBytes + 33 < 2 ^ 64) (hfits : FitsBlock mbMBytes)
    (hnew : newMemSpaceSeed seed adbTCap mbMBytes addr mem = some ms) :
    (MsThreads.new ms).Sound := by
  obtain ⟨owner, content, h⟩ := msSound_new hcap hpad hfits hnew
  have hnodup := h.nodup_blocks
  refine ⟨owner, content, h, ⟨fun heq => h.nonempty (List.map_eq_nil_iff.mp heq), hnodup, fun _ hmb => hmb,
    nofun, nofun, fun _ hmb => .inl hmb⟩, fun _ _ => iff_of_false nofun nofun, fun _ => trivial, nofun⟩

/-- **Run lemma.** -/
theorem sound_reach {seed adbTCap mbMBytes addr : Nat} {mem : Mem} {ms : MemSpace} (hcap : adbTCap < 2 ^ 64)
    (hpad : mbMBytes + 33 < 2 ^ 64) (hfits : FitsBlock mbMBytes)
    (hnew : newMemSpaceSeed seed adbTCap mbMBytes addr mem = some ms)
    (h : Reaches sectionStep sectionRule (MsThreads.new ms) s) : s.Sound := by
  have hstep : ∀ m a m', MsThreads.Sound m → sectionRule m a → sectionStep m a = some m' → m'.Sound := by
    intro m a m' hm hok hst
    obtain ⟨-, -, hinv, -⟩ := sectionStep_simulated hm hok hst
    exact hinv
  exact h.invariant hstep (sound_new hcap hpad hfits hnew)

/-- The calls on a new space. -/
def Calls.new : Calls := ⟨fun _ => none, fun _ => .idle⟩

/-- **Every call takes effect once.** However the sections of the threads' calls come, they are a run of calls
on the store, each of which has its one effect, with its own arguments, between the call and the return; and
a holder of a lock reads the bytes of the store. -/
theorem sections_refine_calls {seed adbTCap mbMBytes addr : Nat} {mem : Mem} {ms : MemSpace}
    (hcap : adbTCap < 2 ^ 64) (hpad : mbMBytes + 33 < 2 ^ 64) (hfits : FitsBlock mbMBytes)
    (hnew : newMemSpaceSeed seed adbTCap mbMBytes addr mem = some ms) {tr : List (MsThreads × MsSection)}
    (h : Steps sectionStep sectionRule (MsThreads.new ms) tr s) :
    (∃ tr', Steps callStep (fun _ _ => True) Calls.new tr' s.calls ∧
      Shows isPart (tr.map Prod.snd) (tr'.map Prod.snd)) ∧
    ∀ g ∈ s.sys.grants, ∃ d, s.calls.store g.vaddr = some d ∧ d.lck.holds g.tid = true ∧
      ∀ i < d.bytes.length, s.sys.ms.getByte (g.paddr + mallocHeaderSize + i) = d.bytes[i]? := by
  have hstep : ∀ m a m', MsThreads.Sound m → sectionRule m a → sectionStep m a = some m' → m'.Sound ∧
        ∃ tr, Steps callStep (fun _ _ => True) m.calls tr m'.calls ∧ isPart a (tr.map Prod.snd) := by
    intro m a m' hm hok hst
    obtain ⟨acts, hpart, hinv, tr, hrun, rfl⟩ := sectionStep_simulated hm hok hst
    exact ⟨hinv, tr, hrun, hpart⟩
  obtain ⟨⟨owner, content, hinv⟩, hrun⟩ := h.simulate hstep (sound_new hcap hpad hfits hnew)
  have hstart : (MsThreads.new ms).calls = Calls.new := congrArg (Calls.mk · _) (store_new hnew)
  rw [hstart] at hrun
  exact ⟨hrun, fun g hg => hinv.space.grant_bytes hg⟩

/-- The rule of the runs, decided; it is not known here that a vaddr is freed by one call. -/
def sectionCheck (s : MsThreads) : MsSection → Bool
  | .callMalloc _ n _ => n + mallocHeaderSize + 33 < 2 ^ 64 && FitsBlock (n + mallocHeaderSize)
  | .callFree .. => false
  | .user _ a => ruleCheck s.sys a
  | _ => true

theorem sectionCheck_sound (s : MsThreads) (a : MsSection)
    (h : sectionCheck s a = true) : sectionRule s a := by
  cases a with
  | callMalloc t n =>
    obtain ⟨hpad, hfits⟩ := Bool.and_eq_true_iff.mp h
    exact ⟨of_decide_eq_true hpad, of_decide_eq_true hfits⟩
  | callFree => cases h
  | user t a => exact (ruleCheck_sound s.sys a h).1
  | _ => trivial

/-- Two threads find no room and make a block each; the blocks come on the list in the other order. -/
theorem sections_refine_calls_crossed : ∃ (s : MsThreads) (acts : List MsSection)
    (tr' : List (Calls × CallAct)),
    s.list = [4096, 16384, 8192] ∧ s.sys.blocks = [4096, 8192, 16384] ∧ acts.length = 10 ∧
    Steps callStep (fun _ _ => True) Calls.new tr' s.calls ∧ Shows isPart acts (tr'.map Prod.snd) := by
  obtain ⟨ms, s, hnew, hrun, hlist, hblocks⟩ : ∃ ms, ∃ s : MsThreads,
      newMemSpaceSeed 1 2 100 4096 ⟨fun _ => 0⟩ = some ms ∧
      exec sectionStep sectionCheck (MsThreads.new ms)
        [.callMalloc 0 200 false, .callMalloc 1 300 true, .throwDart 0 200 false 0, .throwDart 1 300 true 0,
          .mallocIn 1 300 true 0 4096, .mallocIn 0 200 false 0 4096, .create 0 200 false 8192 ⟨fun _ => 0⟩,
          .create 1 300 true 16384 ⟨fun _ => 0⟩, .publish 1 16384, .publish 0 8192] = some s ∧
      s.list = [4096, 16384, 8192] ∧ s.sys.blocks = [4096, 8192, 16384] :=
    ⟨_, _, rfl, rfl, rfl, rfl⟩
  obtain ⟨tr, hacts, hsteps⟩ := steps_of_exec sectionCheck_sound _ hrun
  obtain ⟨⟨tr', hcalls, hshows⟩, -⟩ := sections_refine_calls (by decide) (by decide)
    (show FitsBlock 100 by decide) hnew hsteps
  rw [hacts] at hshows
  exact ⟨s, _, tr', hlist, hblocks, rfl, hcalls, hshows⟩

/-! ## The list of the blocks, and what a thread waits for -/

/-- **No block is lost.** In every state the sections lead to, `mb_list` holds no block twice and none that is
not on the heap; a block on the heap is on the list or one thread is about to put it there; and once no
thread is, the list is the blocks on the heap. -/
theorem list_of_blocks {seed adbTCap mbMBytes addr : Nat} {mem : Mem} {ms : MemSpace}
    (hcap : adbTCap < 2 ^ 64)
    (hpad : mbMBytes + 33 < 2 ^ 64) (hfits : FitsBlock mbMBytes)
    (hnew : newMemSpaceSeed seed adbTCap mbMBytes addr mem = some ms)
    (h : Reaches sectionStep sectionRule (MsThreads.new ms) s) :
    s.list ≠ [] ∧ s.list.Nodup ∧ (∀ mb ∈ s.list, mb ∈ s.sys.blocks) ∧
    (∀ mb ∈ s.sys.blocks, mb ∉ s.list → ∃ t, s.pc t = .publishing mb ∧ ∀ u, s.pc u = .publishing mb → u = t) ∧
    (∀ v ∈ s.sys.live, ∃ c mb, s.sys.ms.adb.entry v = some c ∧ msHeader s.sys.ms c.paddr = some mb ∧
      mb ∈ s.sys.blocks) ∧
    ((∀ t mb, s.pc t ≠ .publishing mb) → s.list.Perm s.sys.blocks) := by
  obtain ⟨owner, content, hinv⟩ := sound_reach hcap hpad hfits hnew h
  have hpublishing : ∀ t mb, (s.pc t).unlisted = some mb → s.pc t = .publishing mb := by
    intro t mb ht
    cases hpc : s.pc t with
    | publishing =>
      rw [hpc] at ht
      cases ht
      rfl
    | _ =>
      rw [hpc] at ht
      cases ht
  refine ⟨hinv.listed.nonempty, hinv.listed.nodup, hinv.listed.mem, fun mb hmb hnot => ?_, fun v hv => ?_,
    fun hnone => hinv.listed.perm hinv.space.nodup_blocks fun t => ?_⟩
  · obtain ⟨t, ht⟩ := (hinv.listed.covered mb hmb).resolve_left hnot
    refine ⟨t, hpublishing t mb ht, fun u hu => hinv.listed.once u t mb ?_ ht⟩
    rw [hu]
    rfl
  · obtain ⟨c, hc⟩ := Option.isSome_iff_exists.mp ((hinv.space.entries v).mpr hv)
    obtain ⟨b, hb, howner⟩ := hinv.space.owned v hv
    exact ⟨c, owner v, hc, hinv.space.msHeader_eq hv hc, howner ▸ List.mem_map_of_mem hb⟩
  · cases ht : (s.pc t).unlisted with
    | none => rfl
    | some mb => exact absurd (hpublishing t mb ht) (hnone t mb)

/-- Two threads have a block each that is not on the list yet, then they are. -/
theorem list_of_blocks_crossed : ∃ s s' : MsThreads, s.list = [4096] ∧ s.sys.blocks = [4096, 8192, 16384] ∧
    (∃ t, s.pc t = .publishing 8192 ∧ ∀ u, s.pc u = .publishing 8192 → u = t) ∧
    s'.list = [4096, 16384, 8192] ∧ s'.list.Nodup := by
  obtain ⟨ms, s, s', hnew, hrun, hrun', hlist, hblocks, hlist'⟩ : ∃ ms, ∃ s s' : MsThreads,
      newMemSpaceSeed 1 2 100 4096 ⟨fun _ => 0⟩ = some ms ∧
      exec sectionStep sectionCheck (MsThreads.new ms)
        [.callMalloc 0 200 false, .callMalloc 1 300 true, .throwDart 0 200 false 0, .throwDart 1 300 true 0,
          .mallocIn 1 300 true 0 4096, .mallocIn 0 200 false 0 4096, .create 0 200 false 8192 ⟨fun _ => 0⟩,
          .create 1 300 true 16384 ⟨fun _ => 0⟩] = some s ∧
      exec sectionStep sectionCheck s [.publish 1 16384, .publish 0 8192] = some s' ∧
      s.list = [4096] ∧ s.sys.blocks = [4096, 8192, 16384] ∧ s'.list = [4096, 16384, 8192] :=
    ⟨_, _, _, rfl, rfl, rfl, rfl, rfl, rfl⟩
  have hreach := reaches_of_exec sectionCheck_sound _ hrun
  have hreach' := hreach.trans (reaches_of_exec sectionCheck_sound _ hrun')
  have hfits : FitsBlock 100 := by decide
  obtain ⟨-, -, -, hown, -⟩ := list_of_blocks (by decide) (by decide) hfits hnew hreach
  obtain ⟨-, hnodup, -⟩ := list_of_blocks (by decide) (by decide) hfits hnew hreach'
  have hpublishing := hown 8192 (by rw [hblocks]; decide) (by rw [hlist]; decide)
  exact ⟨s, s', hlist, hblocks, hpublishing, hlist', hnodup⟩

/-- The section that a thread in a call goes on with, in this buffer should it make a block. -/
def MsPc.next (t : Tid) (addr : Nat) (mem : Mem) : MsPc → Option MsSection
  | .idle => none
  | .throwing n hold 0 => some (.create t n hold addr mem)
  | .throwing n hold (throws + 1) => some (.throwDart t n hold throws)
  | .trying n hold throws mb => some (.mallocIn t n hold throws mb)
  | .publishing mb => some (.publish t mb)
  | .locking v => some (.lockHeader t v)
  | .reading v paddr => some (.readHeader t v paddr)
  | .freeing v mb => some (.lockMem t v mb)
  | .freeingUnsafe v mb => some (.freeIn t v mb)
  | .shifting i len => some (.nextBlock t i len)
  | .shiftingIn i len mb => some (.tryShift t i len mb)

/-- The block whose `mem_lck` a thread takes next. -/
def MsPc.needs : MsPc → Option Nat
  | .trying _ _ _ mb | .freeing _ mb | .shiftingIn _ _ mb => some mb
  | _ => none

/-- A thread waits for the lock of the vaddr that it frees. -/
def MsThreads.WaitsVaddr (s : MsThreads) (t : Tid) (v : Vaddr) : Prop :=
  ∃ c, s.sys.ms.adb.entry v = some c ∧ (s.pc t = .locking v ∧ c.lck.canRead = false ∨
    ∃ mb, s.pc t = .freeingUnsafe v mb ∧ c.lck.isFree = false)

/-- A thread waits for `mem_lck` of a block: another one has it in `mb_free_unsafe`, and that one goes on, or
waits for the lock of its vaddr. -/
def MsThreads.WaitsMemLck (s : MsThreads) (t : Tid) : Prop :=
  ∃ mb u v, (s.pc t).needs = some mb ∧ s.pc u = .freeingUnsafe v mb ∧
    ((sectionStep s (.freeIn u v mb)).isSome = true ∨ s.WaitsVaddr u v)

/-- With `mem_lck` taken, a free goes on, or waits for the lock of its vaddr. -/
theorem MsThreads.Inv.freeIn_isSome {mb : Nat} (h : s.Inv owner content)
    (hpc : s.pc t = .freeingUnsafe v mb) :
    (sectionStep s (.freeIn t v mb)).isSome = true ∨ s.WaitsVaddr t v := by
  have hok := h.ok t
  rw [hpc] at hok
  obtain ⟨hlive, rfl⟩ := hok
  obtain ⟨c, hc⟩ := Option.isSome_iff_exists.mp ((h.space.entries v).mpr hlive)
  cases hlck : c.lck.isFree with
  | false => exact .inr ⟨c, hc, .inr ⟨_, hpc, hlck⟩⟩
  | true =>
    obtain ⟨ms', hfree⟩ := Option.isSome_iff_exists.mp (h.space.msFree_isSome hlive hc hlck t)
    rw [h.space.msFree_eq_freeIn hlive hc hlck] at hfree
    refine .inl ?_
    simp only [sectionStep, if_pos hpc, hfree, Option.map_some, Option.isSome_some]

/-- `mem_lck` of a block is free, or a thread in `mb_free_unsafe` has it. -/
theorem MsThreads.Inv.memLck_cases {mb : Nat} (h : s.Inv owner content) (hneeds : (s.pc t).needs = some mb) :
    s.memLck mb = none ∨ s.WaitsMemLck t := by
  cases hlck : s.memLck mb with
  | none => exact .inl rfl
  | some u =>
    have hholds := (h.locked mb u).mp hlck
    cases hpc : s.pc u with
    | freeingUnsafe v mb' =>
      rw [hpc] at hholds
      cases hholds
      exact .inr ⟨mb, u, v, hneeds, hpc, h.freeIn_isSome hpc⟩
    | _ =>
      rw [hpc] at hholds
      cases hholds

/-- **Nothing else is waited for.** A thread in a call takes its next section, given memory for a table and
a block, or it waits for the lock of the vaddr that it frees, or for `mem_lck` of a block while another
thread's free has it. -/
theorem section_returns {seed adbTCap mbMBytes addr : Nat} {mem : Mem} {ms : MemSpace}
    (hcap : adbTCap < 2 ^ 64)
    (hpad : mbMBytes + 33 < 2 ^ 64) (hfits : FitsBlock mbMBytes)
    (hnew : newMemSpaceSeed seed adbTCap mbMBytes addr mem = some ms)
    (h : Reaches sectionStep sectionRule (MsThreads.new ms) s) (hroom : s.sys.ms.adb.TableRoom) {addr' : Nat}
    {mem' : Mem} (hgives : ∀ n hold, s.pc t = .throwing n hold 0 → s.sys.ms.Buffer n addr')
    {a : MsSection} (hnext : (s.pc t).next t addr' mem' = some a) :
    (sectionStep s a).isSome = true ∨ (∃ v, s.WaitsVaddr t v) ∨ s.WaitsMemLck t := by
  obtain ⟨owner, content, hinv⟩ := sound_reach hcap hpad hfits hnew h
  have hok := hinv.ok t
  cases hpc : s.pc t with
  | idle =>
    rw [hpc] at hnext
    cases hnext
  | throwing n hold throws =>
    rw [hpc] at hnext hok
    obtain ⟨hpos, hn, hfits'⟩ := hok
    cases throws with
    | zero =>
      cases hnext
      obtain ⟨r, hr⟩ := msGrow_isSome hinv.space hpos hn hfits' t hold mem' (hgives n hold hpc) hroom
      have hpadded : paddedBytes n = n + mallocHeaderSize := Nat.mod_eq_of_lt (by omega)
      refine .inl ?_
      simp only [sectionStep, if_pos hpc, msCreate, hpadded, hr, Option.map_some, Option.isSome_some]
    | succ throws =>
      cases hnext
      have hlt : ∀ rnd, rnd % s.list.length < s.list.length := fun rnd =>
        Nat.mod_lt _ (List.length_pos_iff.mpr hinv.listed.nonempty)
      refine .inl ?_
      simp only [sectionStep, if_pos hpc, List.getElem?_eq_getElem (hlt _), Option.map_some,
        Option.isSome_some]
  | trying n hold throws mb =>
    rw [hpc] at hnext hok
    cases hnext
    obtain ⟨⟨-, hn, -⟩, hmb⟩ := hok
    obtain ⟨i, b, hb, rfl, hi⟩ := hinv.space.block_at hmb
    obtain ⟨ps, l, hpart⟩ := hinv.space.parts b (List.mem_of_getElem? hb)
    have hpadded : paddedBytes n = n + mallocHeaderSize := Nat.mod_eq_of_lt (by omega)
    obtain ⟨r, hr⟩ := msMallocIn_isSome hpart rfl (n + mallocHeaderSize) t hold hroom
    have hr' : msMallocIn s.sys.ms.adb t b (n + mallocHeaderSize) hold = some r := hr
    refine (hinv.memLck_cases (show (s.pc t).needs = some b.addr by rw [hpc]; rfl)).imp (fun hlck => ?_) .inr
    simp only [sectionStep, if_pos (And.intro hpc hlck), msMallocAt, hi, hb, hpadded, hr', Option.map_some,
      Option.isSome_some]
  | publishing mb =>
    rw [hpc] at hnext
    cases hnext
    refine .inl ?_
    simp only [sectionStep, if_pos hpc, Option.isSome_some]
  | locking v =>
    rw [hpc] at hnext hok
    cases hnext
    obtain ⟨c, hc⟩ := Option.isSome_iff_exists.mp ((hinv.space.entries v).mpr hok)
    cases hcan : c.lck.canRead with
    | false => exact .inr (.inl ⟨v, c, hc, .inl ⟨hpc, hcan⟩⟩)
    | true =>
      refine .inl ?_
      simp only [sectionStep, if_pos hpc, AddrBook.adbGetRead_isSome hc hcan t, Option.map_some,
        Option.isSome_some]
  | reading v paddr =>
    rw [hpc] at hnext hok
    cases hnext
    obtain ⟨hlive, hgrant⟩ := hok
    obtain ⟨c, hc, hpaddr⟩ := hinv.space.grant_entry hgrant
    obtain ⟨d, hd, hholds, -⟩ := hinv.space.grant_bytes hgrant
    obtain ⟨c', hc', rfl⟩ := store_eq_some.mp hd
    obtain ⟨adb', hunlock, -⟩ := AddrBook.adbUnlock_isSome hinv.space.quiet hc' hholds
    have hheader : msHeader s.sys.ms paddr = some (owner v) := by
      rw [show paddr = c.paddr from hpaddr]
      exact hinv.space.msHeader_eq hlive hc
    refine .inl ?_
    simp only [sectionStep, if_pos hpc, hheader, show s.sys.ms.adb.adbUnlock t v = some adb' from hunlock]
    rfl
  | freeing v mb =>
    rw [hpc] at hnext
    cases hnext
    refine (hinv.memLck_cases (show (s.pc t).needs = some mb by rw [hpc]; rfl)).imp (fun hlck => ?_) .inr
    simp only [sectionStep, if_pos (And.intro hpc hlck), Option.isSome_some]
  | freeingUnsafe v mb =>
    rw [hpc] at hnext
    cases hnext
    exact (hinv.freeIn_isSome hpc).imp_right fun hwaits => .inl ⟨v, hwaits⟩
  | shifting i len =>
    rw [hpc] at hnext hok
    cases hnext
    refine .inl ?_
    simp only [sectionStep, if_pos hpc]
    split
    next hlt =>
      have hlt' : i < s.list.length := Nat.lt_of_lt_of_le hlt hok
      rw [List.getElem?_eq_getElem hlt', Option.map_some, Option.isSome_some]
    next => rfl
  | shiftingIn i len mb =>
    rw [hpc] at hnext hok
    cases hnext
    obtain ⟨j, b, hb, rfl, hj⟩ := hinv.space.block_at hok.2
    obtain ⟨ps, l, hpart⟩ := hinv.space.parts b (List.mem_of_getElem? hb)
    obtain ⟨res, mb', adb', hshift, -⟩ := mbTryShift_eq hpart.block t
    have hshift' : mbTryShift b.mb s.sys.ms.adb t = some (res, mb', adb') := hshift
    refine (hinv.memLck_cases (show (s.pc t).needs = some b.addr by rw [hpc]; rfl)).imp (fun hlck => ?_) .inr
    simp only [sectionStep, if_pos (And.intro hpc hlck), msTryShift, hj, hb, hshift', Option.map_some,
      Option.isSome_some]

/-- A thread that has made a block puts it on the list. -/
theorem section_returns_publish : ∃ s : MsThreads, s.pc 0 = .publishing 8192 ∧
    (sectionStep s (.publish 0 8192)).isSome = true := by
  obtain ⟨ms, s, hnew, hrun, hpc, hlist⟩ : ∃ ms, ∃ s : MsThreads,
      newMemSpaceSeed 1 2 100 4096 ⟨fun _ => 0⟩ = some ms ∧
      exec sectionStep sectionCheck (MsThreads.new ms)
        [.callMalloc 0 200 false, .throwDart 0 200 false 0, .mallocIn 0 200 false 0 4096,
          .create 0 200 false 8192 ⟨fun _ => 0⟩] = some s ∧
      s.pc 0 = .publishing 8192 ∧ s.sys.ms.adb.freeList = some 0 :=
    ⟨_, _, rfl, rfl, rfl, rfl⟩
  have hroom : s.sys.ms.adb.TableRoom := fun hnone => by
    rw [hlist] at hnone
    cases hnone
  have hnext : (s.pc 0).next 0 0 ⟨fun _ => 0⟩ = some (.publish 0 8192) := by rw [hpc]; rfl
  rcases section_returns (by decide) (by decide) (show FitsBlock 100 by decide) hnew
    (reaches_of_exec sectionCheck_sound _ hrun) hroom
      (fun n hold h => by rw [hpc] at h; cases h) hnext with h | h
  · exact ⟨s, hpc, h⟩
  · rcases h with ⟨v, c, -, ⟨h, -⟩ | ⟨mb, h, -⟩⟩ | ⟨mb, u, v, h, -⟩ <;> rw [hpc] at h <;> cases h

end Chvm.Ms
