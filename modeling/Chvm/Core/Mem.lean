import Mathlib.Algebra.Group.Nat.Defs
import Mathlib.Data.List.Nodup
import Mathlib.Data.List.Perm.Subperm
import Mathlib.Logic.Function.Basic
import Chvm.Lib.Run

/-!
# Memory channels (`mem.c`)

Every block the program gets from the host has one byte in front of it, the channel it was asked
for, and the core state counts the blocks of each channel. The host's `malloc` is a parameter: it
answers a size with an address and the bytes it finds there, or with `NULL`.

A run keeps the live pointers beside the code's data, each with the channel it was allocated on.
-/

set_option autoImplicit false

namespace Chvm.Core

open Chvm.Lib

/-- The answers of the host's `malloc` or `realloc`, by size. -/
abbrev Host := Nat → Option (Nat × List UInt8)

/-- `core_state`, its memory part, with the host's blocks by their addresses. -/
structure CoreMem where
  numMemChnls : UInt8
  memChnls : List Nat
  heap : Nat → Option (List UInt8)

namespace CoreMem

/-- `init_core_state` gives the counters the words that `malloc` finds: nothing clears them. -/
def initCoreState (nmcs : UInt8) (words : List Nat) : CoreMem where
  numMemChnls := nmcs
  memChnls := words
  heap := fun _ => none

/-- The size asked of the host, one byte more than the block. -/
def hostSize (size : Nat) : Nat := (size + 1) % 2 ^ 64

/-- `get_chnl`; `none` when no byte is in front of the pointer. -/
def getChnl (s : CoreMem) (ptr : Nat) : Option UInt8 := (s.heap (ptr - 1)).bind List.head?

/-- `try_safe_malloc`. A block of no bytes has no place for the channel. -/
def trySafeMalloc (s : CoreMem) (chnl : UInt8) (size : Nat) (host : Host) : Option Nat × CoreMem :=
  match host (hostSize size) with
  | none => (none, s)
  | some (raw, bytes) =>
    (some (raw + 1), { s with
      memChnls := s.memChnls.modify chnl.toNat fun c => (c + 1) % 2 ^ 64
      heap := Function.update s.heap raw (some (bytes.set 0 chnl)) })

/-- `try_safe_realloc`: the host keeps the bytes that fit the new size, and frees the old block. -/
def trySafeRealloc (s : CoreMem) (ptr size : Nat) (host : Host) : Option Nat × CoreMem :=
  match host (hostSize size) with
  | none => (none, s)
  | some (raw, bytes) =>
    let kept := ((s.heap (ptr - 1)).getD []).take bytes.length
    (some (raw + 1), { s with
      heap := Function.update (Function.update s.heap (ptr - 1) none) raw
        (some (kept ++ bytes.drop kept.length)) })

/-- `safe_free`; `none` frees what is not allocated. -/
def safeFree (s : CoreMem) (ptr : Nat) : Option CoreMem :=
  (s.getChnl ptr).map fun chnl => { s with
    memChnls := s.memChnls.modify chnl.toNat fun c => (c + (2 ^ 64 - 1)) % 2 ^ 64
    heap := Function.update s.heap (ptr - 1) none }

/-- `check_memory_leaks`. -/
def checkMemoryLeaks (s : CoreMem) (lb : UInt8) : Bool :=
  (List.range' lb.toNat (s.numMemChnls.toNat - lb.toNat)).any fun chnl => s.memChnls.getD chnl 0 != 0

end CoreMem

/-! ## Runs -/

structure ChnlRun where
  core : CoreMem
  live : List (Nat × UInt8)

inductive ChnlAct
  | malloc (chnl : UInt8) (size : Nat) (host : Host)
  | realloc (ptr size : Nat) (host : Host)
  | free (ptr : Nat)

/-- The size a call asks for. -/
def ChnlAct.size : ChnlAct → Nat
  | .malloc _ size _ | .realloc _ size _ => size
  | .free _ => 0

/-- One call of `safe_malloc`, `safe_realloc` or `safe_free`; the first two end the process when the
host has no memory. -/
def chnlStep (s : ChnlRun) : ChnlAct → Option ChnlRun
  | .malloc chnl size host =>
    match s.core.trySafeMalloc chnl size host with
    | (none, _) => none
    | (some ptr, core) => some { core := core, live := (ptr, chnl) :: s.live }
  | .realloc ptr size host =>
    match s.live.find? (·.1 = ptr), s.core.trySafeRealloc ptr size host with
    | some e, (some ptr', core) => some { core := core, live := (ptr', e.2) :: s.live.erase e }
    | _, _ => none
  | .free ptr =>
    match s.live.find? (·.1 = ptr), s.core.safeFree ptr with
    | some e, some core => some { core := core, live := s.live.erase e }
    | _, _ => none

/-- What the host promises: as many bytes as asked for, at an address that is not in use. -/
def HostOk (host : Host) (inUse : Nat → Prop) : Prop :=
  ∀ size raw bytes, host size = some (raw, bytes) →
    bytes.length = size ∧ 0 < raw ∧ raw < 2 ^ 64 ∧ ¬ inUse raw

/-- The client's part and the host's: channels below `n`, and only live pointers. -/
def ChnlRule (s : ChnlRun) : ChnlAct → Prop
  | .malloc chnl _ host =>
    chnl < s.core.numMemChnls ∧ HostOk host fun raw => (s.core.heap raw).isSome = true
  | .realloc ptr _ host =>
    (∃ e ∈ s.live, e.1 = ptr) ∧
      HostOk host fun raw => raw ≠ ptr - 1 ∧ (s.core.heap raw).isSome = true
  | .free ptr => ∃ e ∈ s.live, e.1 = ptr

/-- The counters, the tags and the leak check agree with the live blocks. -/
structure Accounted (s : ChnlRun) : Prop where
  counts : ∀ chnl : UInt8, chnl < s.core.numMemChnls →
    s.core.memChnls[chnl.toNat]? = some (s.live.countP (·.2 = chnl))
  tags : ∀ e ∈ s.live, s.core.getChnl e.1 = some e.2
  leaks : ∀ lb, s.core.checkMemoryLeaks lb = true ↔ ∃ e ∈ s.live, lb ≤ e.2

/-! ## The invariant -/

/-- The blocks of the live pointers, each with its tag. -/
structure ChnlInv (s : ChnlRun) : Prop where
  nodup : (s.live.map Prod.fst).Nodup
  blocks : ∀ e ∈ s.live, 0 < e.1 - 1 ∧ e.1 - 1 < 2 ^ 64 ∧ e.2 < s.core.numMemChnls ∧
    s.core.getChnl e.1 = some e.2
  length : s.core.memChnls.length = s.core.numMemChnls.toNat
  counts : ∀ chnl : UInt8, chnl < s.core.numMemChnls →
    s.core.memChnls[chnl.toNat]? = some (s.live.countP (·.2 = chnl))

variable {s s' : ChnlRun} {chnl : UInt8} {ptr size : Nat} {host : Host} {e : Nat × UInt8}
  {nmcs : UInt8} {words : List Nat}

/-- The blocks have distinct addresses, so a word counts them. -/
theorem length_lt_of_addresses {live : List (Nat × UInt8)} (hnodup : (live.map Prod.fst).Nodup)
    (haddr : ∀ e ∈ live, 0 < e.1 - 1 ∧ e.1 - 1 < 2 ^ 64) : live.length < 2 ^ 64 := by
  have hdistinct : (0 :: live.map fun e => e.1 - 1).Nodup := by
    refine List.nodup_cons.mpr ⟨fun hmem => ?_, List.Nodup.of_map (· + 1) ?_⟩
    · obtain ⟨e, he, hzero⟩ := List.mem_map.mp hmem
      have hpos := (haddr e he).1
      omega
    · have heq : (live.map fun e => e.1 - 1).map (· + 1) = live.map Prod.fst := by
        rw [List.map_map]
        refine List.map_congr_left fun e he => ?_
        have hpos := (haddr e he).1
        show e.1 - 1 + 1 = e.1
        omega
      rw [heq]
      exact hnodup
  have hsub : (0 :: live.map fun e => e.1 - 1) ⊆ List.range (2 ^ 64) := by
    intro a ha
    rcases List.mem_cons.mp ha with rfl | ha
    · exact List.mem_range.mpr (Nat.two_pow_pos 64)
    · obtain ⟨e, he, rfl⟩ := List.mem_map.mp ha
      exact List.mem_range.mpr (haddr e he).2
  have hle := (hdistinct.subperm hsub).length_le
  rw [List.length_cons, List.length_map, List.length_range] at hle
  exact hle

/-- A live pointer has one channel. -/
theorem ChnlInv.eq_of_mem (h : ChnlInv s) {e' : Nat × UInt8} (he : e ∈ s.live) (he' : e' ∈ s.live)
    (heq : e.1 = e'.1) : e = e' :=
  List.inj_on_of_nodup_map h.nodup he he' heq

theorem chnlInv_init {nmcs : UInt8} {words : List Nat} (hlen : words.length = nmcs.toNat)
    (hzero : ∀ w ∈ words, w = 0) : ChnlInv ⟨.initCoreState nmcs words, []⟩ := by
  refine
    { nodup := List.nodup_nil
      blocks := nofun
      length := hlen
      counts := fun chnl hlt => ?_ }
  have hindex : chnl.toNat < words.length := hlen ▸ UInt8.lt_iff_toNat_lt.mp hlt
  show words[chnl.toNat]? = some 0
  rw [List.getElem?_eq_getElem hindex, hzero _ (List.getElem_mem hindex)]

/-- The tag in front of a pointer, after one block is changed. -/
theorem getChnl_update {core : CoreMem} {raw : Nat} {block : Option (List UInt8)} {counts : List Nat}
    (p : Nat) : CoreMem.getChnl { core with
      memChnls := counts, heap := Function.update core.heap raw block } p =
        if p - 1 = raw then block.bind List.head? else core.getChnl p := by
  show (Function.update core.heap raw block (p - 1)).bind List.head? = _
  split
  next heq => rw [heq, Function.update_self]
  next hne =>
    rw [Function.update_of_ne hne]
    rfl

/-- A tag stands in a block. -/
theorem isSome_of_getChnl {core : CoreMem} {p : Nat} (h : core.getChnl p = some chnl) :
    (core.heap (p - 1)).isSome = true := by
  obtain ⟨bytes, hbytes, -⟩ := Option.bind_eq_some_iff.mp h
  rw [hbytes]
  rfl

/-- A counter moves with the live blocks of its channel. -/
theorem getElem?_counts {l : List Nat} {f : Nat → Nat} {live live' : List (Nat × UInt8)}
    {chnl' : UInt8} (h : l[chnl'.toNat]? = some (live.countP (·.2 = chnl')))
    (hsame : chnl ≠ chnl' → live'.countP (·.2 = chnl') = live.countP (·.2 = chnl'))
    (hself : chnl = chnl' → live'.countP (·.2 = chnl') = f (live.countP (·.2 = chnl'))) :
    (l.modify chnl.toNat f)[chnl'.toNat]? = some (live'.countP (·.2 = chnl')) := by
  rw [List.getElem?_modify, h]
  by_cases heq : chnl = chnl'
  · have hindex : chnl.toNat = chnl'.toNat := congrArg UInt8.toNat heq
    simp only [hindex, if_true, hself heq, Option.map_eq_map, Option.map_some]
  · have hindex : chnl.toNat ≠ chnl'.toNat := fun h' => heq (UInt8.toNat_inj.mp h')
    simp only [hindex, if_false, hsame heq, Option.map_eq_map, Option.map_some]

theorem ChnlInv.malloc (h : ChnlInv s) (hsize : size + 1 < 2 ^ 64)
    (hrule : ChnlRule s (.malloc chnl size host))
    (hstep : chnlStep s (.malloc chnl size host) = some s') : ChnlInv s' := by
  obtain ⟨hchnl, hhost⟩ := hrule
  simp only [chnlStep, CoreMem.trySafeMalloc, CoreMem.hostSize, Nat.mod_eq_of_lt hsize] at hstep
  cases hans : host (size + 1) with
  | none =>
    rw [hans] at hstep
    cases hstep
  | some block =>
    obtain ⟨raw, bytes⟩ := block
    rw [hans] at hstep
    cases hstep
    obtain ⟨hlen, hpos, hlt, hfresh⟩ := hhost _ _ _ hans
    have hlive : ∀ e ∈ s.live, e.1 - 1 ≠ raw := by
      rintro e he rfl
      exact hfresh (isSome_of_getChnl (h.blocks e he).2.2.2)
    have hhead : (bytes.set 0 chnl).head? = some chnl := by
      cases bytes with
      | nil => cases hlen
      | cons b bytes => rfl
    have hnodup : (((raw + 1, chnl) :: s.live).map Prod.fst).Nodup := by
      refine List.nodup_cons.mpr ⟨fun hmem => ?_, h.nodup⟩
      obtain ⟨e, he, heq⟩ := List.mem_map.mp hmem
      exact hlive e he (Nat.sub_eq_of_eq_add heq)
    have haddr : ∀ e ∈ (raw + 1, chnl) :: s.live, 0 < e.1 - 1 ∧ e.1 - 1 < 2 ^ 64 := by
      intro e he
      rcases List.mem_cons.mp he with rfl | he
      · exact ⟨hpos, hlt⟩
      · exact ⟨(h.blocks e he).1, (h.blocks e he).2.1⟩
    have hroom := length_lt_of_addresses hnodup haddr
    refine
      { nodup := hnodup
        blocks := fun e he => ⟨(haddr e he).1, (haddr e he).2, ?_⟩
        length := (List.length_modify ..).trans h.length
        counts := fun chnl' hlt' => getElem?_counts (h.counts chnl' hlt') (fun hne => ?_) fun heq => ?_ }
    · rw [getChnl_update]
      rcases List.mem_cons.mp he with rfl | he
      · exact ⟨hchnl, (if_pos (Nat.add_sub_cancel ..)).trans hhead⟩
      · exact ⟨(h.blocks e he).2.2.1, (if_neg (hlive e he)).trans (h.blocks e he).2.2.2⟩
    · rw [List.countP_cons_of_neg (by simpa only [decide_eq_true_eq] using hne)]
    · -- the new block has an address of its own, so the counter does not wrap
      have hcount := List.countP_le_length (p := fun e => decide (e.2 = chnl')) (l := s.live)
      rw [List.length_cons] at hroom
      rw [List.countP_cons_of_pos (by simpa only [decide_eq_true_eq] using heq),
        Nat.mod_eq_of_lt (by omega)]

/-- The block of a live pointer. -/
theorem find_live (hmem : ∃ e ∈ s.live, e.1 = ptr) :
    ∃ e, s.live.find? (·.1 = ptr) = some e ∧ e ∈ s.live ∧ e.1 = ptr := by
  obtain ⟨e, he, heq⟩ := hmem
  cases hfind : s.live.find? (·.1 = ptr) with
  | none =>
    have hnone := List.find?_eq_none.mp hfind e he
    exact absurd (decide_eq_true heq) hnone
  | some e' =>
    have hptr := List.find?_some hfind
    exact ⟨e', rfl, List.mem_of_find?_eq_some hfind, of_decide_eq_true hptr⟩

/-- The other live pointers keep their blocks apart from the one of `e`. -/
theorem ChnlInv.erase (h : ChnlInv s) (he : e ∈ s.live) :
    ((s.live.erase e).map Prod.fst).Nodup ∧
      ∀ e' ∈ s.live.erase e, e' ∈ s.live ∧ e'.1 - 1 ≠ e.1 - 1 := by
  have hnodup : s.live.Nodup := List.Nodup.of_map Prod.fst h.nodup
  refine ⟨h.nodup.sublist (List.erase_sublist.map Prod.fst), fun e' he' => ?_⟩
  obtain ⟨hne, he'⟩ := (List.Nodup.mem_erase_iff hnodup).mp he'
  refine ⟨he', fun heq => hne (h.eq_of_mem he' he ?_)⟩
  have hpos := (h.blocks e he).1
  have hpos' := (h.blocks e' he').1
  omega

theorem ChnlInv.free (h : ChnlInv s) (hrule : ChnlRule s (.free ptr))
    (hstep : chnlStep s (.free ptr) = some s') : ChnlInv s' := by
  obtain ⟨e, hfind, he, rfl⟩ := find_live hrule
  obtain ⟨hpos, hlt, hbelow, htag⟩ := h.blocks e he
  obtain ⟨hnodup, hothers⟩ := h.erase he
  simp only [chnlStep, hfind, CoreMem.safeFree, htag, Option.map_some, Option.some.injEq] at hstep
  cases hstep
  have hperm : ∀ p : Nat × UInt8 → Bool, s.live.countP p = (e :: s.live.erase e).countP p :=
    fun p => (List.perm_cons_erase he).countP_eq p
  refine
    { nodup := hnodup
      blocks := fun e' he' => ?_
      length := (List.length_modify ..).trans h.length
      counts := fun chnl' hlt' => getElem?_counts (h.counts chnl' hlt') (fun hne => ?_) fun heq => ?_ }
  · obtain ⟨hmem, hne⟩ := hothers e' he'
    obtain ⟨hpos', hlt', hbelow', htag'⟩ := h.blocks e' hmem
    rw [getChnl_update]
    exact ⟨hpos', hlt', hbelow', (if_neg hne).trans htag'⟩
  · rw [hperm, List.countP_cons_of_neg (by simpa only [decide_eq_true_eq] using hne)]
  · have hroom := length_lt_of_addresses h.nodup fun e' he' => ⟨(h.blocks e' he').1, (h.blocks e' he').2.1⟩
    have hcount := List.countP_le_length (p := fun e => decide (e.2 = chnl')) (l := s.live)
    rw [hperm, List.countP_cons_of_pos (by simpa only [decide_eq_true_eq] using heq)] at hcount ⊢
    show (s.live.erase e).countP _ = _
    omega

theorem ChnlInv.realloc (h : ChnlInv s) (hsize : size + 1 < 2 ^ 64)
    (hrule : ChnlRule s (.realloc ptr size host))
    (hstep : chnlStep s (.realloc ptr size host) = some s') : ChnlInv s' := by
  obtain ⟨hmem, hhost⟩ := hrule
  obtain ⟨e, hfind, he, rfl⟩ := find_live hmem
  obtain ⟨hpos, hlt, hbelow, htag⟩ := h.blocks e he
  obtain ⟨hnodup, hothers⟩ := h.erase he
  simp only [chnlStep, hfind, CoreMem.trySafeRealloc, CoreMem.hostSize, Nat.mod_eq_of_lt hsize] at hstep
  cases hans : host (size + 1) with
  | none =>
    rw [hans] at hstep
    cases hstep
  | some block =>
    obtain ⟨raw, bytes⟩ := block
    rw [hans] at hstep
    cases hstep
    obtain ⟨hlen, hpos', hlt', hfresh⟩ := hhost _ _ _ hans
    have hlive : ∀ e' ∈ s.live.erase e, e'.1 - 1 ≠ raw := by
      rintro e' he' rfl
      obtain ⟨hmem', hne⟩ := hothers e' he'
      exact hfresh ⟨hne, isSome_of_getChnl (h.blocks e' hmem').2.2.2⟩
    -- the first byte fits every size, so the tag is among the bytes the host keeps
    have hhead : ∀ old : List UInt8, old.head? = some e.2 →
        (old.take bytes.length ++ bytes.drop (old.take bytes.length).length).head? = some e.2 := by
      intro old hold
      cases old with
      | nil => cases hold
      | cons b old =>
        cases bytes with
        | nil => cases hlen
        | cons b' bytes => exact hold
    have hperm : ∀ chnl', s.live.countP (·.2 = chnl') =
        ((raw + 1, e.2) :: s.live.erase e).countP (·.2 = chnl') := by
      intro chnl'
      rw [(List.perm_cons_erase he).countP_eq, List.countP_cons, List.countP_cons]
    refine
      { nodup := List.nodup_cons.mpr ⟨fun hin => ?_, hnodup⟩
        blocks := fun e' he' => ?_
        length := h.length
        counts := fun chnl' hlt' => (h.counts chnl' hlt').trans (congrArg some (hperm chnl')) }
    · obtain ⟨e', he', heq⟩ := List.mem_map.mp hin
      exact hlive e' he' (Nat.sub_eq_of_eq_add heq)
    · rcases List.mem_cons.mp he' with rfl | he'
      · refine ⟨hpos', hlt', hbelow, ?_⟩
        obtain ⟨old, hold, hhead'⟩ := Option.bind_eq_some_iff.mp htag
        show (Function.update (Function.update s.core.heap (e.1 - 1) none) raw _ (raw + 1 - 1)).bind
          List.head? = some e.2
        rw [Nat.add_sub_cancel, Function.update_self, hold]
        exact hhead old hhead'
      · obtain ⟨hmem', hne⟩ := hothers e' he'
        obtain ⟨hpos'', hlt'', hbelow', htag'⟩ := h.blocks e' hmem'
        refine ⟨hpos'', hlt'', hbelow', ?_⟩
        show (Function.update (Function.update s.core.heap (e.1 - 1) none) raw _ (e'.1 - 1)).bind
          List.head? = some e'.2
        rw [Function.update_of_ne (hlive e' he'), Function.update_of_ne hne]
        exact htag'

/-- A step that asks for no more than the host can name. -/
theorem chnlStep_inv {a : ChnlAct} (h : ChnlInv s) (hsize : a.size + 1 < 2 ^ 64) (hrule : ChnlRule s a)
    (hstep : chnlStep s a = some s') : ChnlInv s' := by
  cases a with
  | malloc chnl size host => exact h.malloc hsize hrule hstep
  | realloc ptr size host => exact h.realloc hsize hrule hstep
  | free ptr => exact h.free hrule hstep

/-! ## The accounts -/

theorem ChnlInv.leaks (h : ChnlInv s) (lb : UInt8) :
    s.core.checkMemoryLeaks lb = true ↔ ∃ e ∈ s.live, lb ≤ e.2 := by
  unfold CoreMem.checkMemoryLeaks
  rw [List.any_eq_true]
  constructor
  · rintro ⟨i, hi, hcount⟩
    rw [List.mem_range'_1] at hi
    have hnum := s.core.numMemChnls.toNat_lt
    have hto : (UInt8.ofNat i).toNat = i := by
      rw [UInt8.toNat_ofNat', Nat.mod_eq_of_lt (by omega)]
    have hbelow : UInt8.ofNat i < s.core.numMemChnls := by
      rw [UInt8.lt_iff_toNat_lt, hto]
      omega
    have hcounts := h.counts _ hbelow
    rw [hto] at hcounts
    rw [List.getD_eq_getElem?_getD, hcounts, Option.getD_some, bne_iff_ne] at hcount
    obtain ⟨e, he, htag⟩ := List.countP_pos_iff.mp (Nat.pos_of_ne_zero hcount)
    refine ⟨e, he, ?_⟩
    rw [of_decide_eq_true htag, UInt8.le_iff_toNat_le, hto]
    exact hi.1
  · rintro ⟨e, he, hle⟩
    obtain ⟨-, -, hbelow, -⟩ := h.blocks e he
    refine ⟨e.2.toNat, ?_, ?_⟩
    · rw [UInt8.le_iff_toNat_le] at hle
      rw [UInt8.lt_iff_toNat_lt] at hbelow
      rw [List.mem_range'_1]
      omega
    · rw [List.getD_eq_getElem?_getD, h.counts _ hbelow, Option.getD_some, bne_iff_ne]
      exact Nat.ne_of_gt (List.countP_pos_iff.mpr ⟨e, he, decide_eq_true rfl⟩)

theorem ChnlInv.accounted (h : ChnlInv s) : Accounted s where
  counts := h.counts
  tags e he := (h.blocks e he).2.2.2
  leaks := h.leaks

/-- **The accounts of the memory channels are exact** in every run, when no size wraps, exactly when
the words that `malloc` found for the counters were zero. -/
theorem memory_channels_exact (hlen : words.length = nmcs.toNat) :
    (∀ s, Reaches chnlStep (fun m a => a.size + 1 < 2 ^ 64 ∧ ChnlRule m a)
      ⟨.initCoreState nmcs words, []⟩ s → Accounted s) ↔ ∀ w ∈ words, w = 0 := by
  constructor
  · intro h w hw
    obtain ⟨i, hlt, rfl⟩ := List.mem_iff_getElem.mp hw
    have hnum := nmcs.toNat_lt
    have hto : (UInt8.ofNat i).toNat = i := by
      rw [UInt8.toNat_ofNat', Nat.mod_eq_of_lt (by omega)]
    have hbelow : UInt8.ofNat i < nmcs := by
      rw [UInt8.lt_iff_toNat_lt, hto]
      omega
    have hcount : words[(UInt8.ofNat i).toNat]? = some 0 := (h _ (.refl _)).counts _ hbelow
    rw [hto, List.getElem?_eq_getElem hlt] at hcount
    exact Option.some.inj hcount
  · intro hzero s hreach
    have hinv : ChnlInv s := hreach.invariant
      (fun m a m' hm hok hstep => chnlStep_inv hm hok.1 hok.2 hstep) (chnlInv_init hlen hzero)
    exact hinv.accounted

/-- A host with zeroed memory at one address. -/
def hostAt (raw : Nat) : Host := fun size => some (raw, List.replicate size 0)

theorem hostOk_hostAt {raw : Nat} {inUse : Nat → Prop} (hraw : 0 < raw ∧ raw < 2 ^ 64)
    (hfree : ¬ inUse raw) : HostOk (hostAt raw) inUse := by
  intro size raw' bytes heq
  cases heq
  exact ⟨List.length_replicate, hraw.1, hraw.2, hfree⟩

/-- A host that has no memory. -/
theorem hostOk_none {inUse : Nat → Prop} : HostOk (fun _ => none) inUse := by
  intro size raw bytes heq
  cases heq

/-- Cleared counters, and a block on channel 1 that the host moves when it is reallocated. -/
theorem memory_channels_exact_moved : ∃ s : ChnlRun, s.live = [(9, 1)] ∧ Accounted s := by
  obtain ⟨s, hmalloc, hlive, hfree⟩ : ∃ s, chnlStep ⟨.initCoreState 2 [0, 0], []⟩
      (.malloc 1 4 (hostAt 4)) = some s ∧ s.live = [(5, 1)] ∧ s.core.heap 8 = none :=
    ⟨_, rfl, rfl, rfl⟩
  obtain ⟨s', hrealloc, hlive'⟩ : ∃ s', chnlStep s (.realloc 5 1 (hostAt 8)) = some s' ∧
      s'.live = [(9, 1)] := by
    cases hmalloc
    exact ⟨_, rfl, rfl⟩
  have hrule : ChnlRule ⟨.initCoreState 2 [0, 0], []⟩ (.malloc 1 4 (hostAt 4)) :=
    ⟨by decide, hostOk_hostAt (by decide) nofun⟩
  have hrule' : ChnlRule s (.realloc 5 1 (hostAt 8)) := by
    refine ⟨⟨(5, 1), hlive ▸ List.mem_cons_self, rfl⟩, hostOk_hostAt (by decide) ?_⟩
    rintro ⟨-, hused⟩
    rw [hfree] at hused
    cases hused
  have hreach : Reaches chnlStep (fun m a => a.size + 1 < 2 ^ 64 ∧ ChnlRule m a)
      ⟨.initCoreState 2 [0, 0], []⟩ s' :=
    ((Reaches.refl _).snoc ⟨by decide, hrule⟩ hmalloc).snoc ⟨by decide, hrule'⟩ hrealloc
  exact ⟨s', hlive', (memory_channels_exact rfl).mpr (by decide) s' hreach⟩

/-- A counter that `malloc` did not find zero. -/
theorem uncleared_counters :
    ¬ ∀ s, Reaches chnlStep ChnlRule ⟨.initCoreState 1 [7], []⟩ s → Accounted s := by
  intro h
  have hcount := (h _ (.refl _)).counts 0 (by decide)
  cases hcount

/-- The largest size wraps to none, and the channel is written behind the block. -/
theorem tag_behind_block (s : CoreMem) (chnl : UInt8) (raw : Nat) :
    ∃ s', s.trySafeMalloc chnl (2 ^ 64 - 1) (hostAt raw) = (some (raw + 1), s') ∧
      s'.getChnl (raw + 1) = none := by
  refine ⟨_, rfl, ?_⟩
  show (Function.update s.heap raw _ (raw + 1 - 1)).bind List.head? = none
  rw [Nat.add_sub_cancel, Function.update_self]
  rfl

end Chvm.Core
