import Mathlib.Data.List.AList
import Chvm.Lib.Chain
import Chvm.Lib.Run
import Chvm.Cs.Space

/-!
# The root set under its lock

Threads that call `cs_root`, `cs_deroot` and `cs_get_root_vaddr` on one collected space. Each
function is cut into the steps between which another thread could look at the root set, if
`root_set_lock` did not keep it out; the first takes the lock and the last gives it back.

`RootSpec` is what the three functions are for: a finite map from root ids to vaddrs. The log of the
calls that returned is a history of that map.
-/

set_option autoImplicit false

namespace Chvm.Cs

open Chvm.Lib

namespace Space

/-! ## The pieces of the functions -/

/-- The resize of `cs_root`. -/
def resizeRoots (s : Space) : Space := if s.freeHead.isNone then s.growRootSet else s

/-- `cs_root` takes the head of the free list. -/
def popRoot (s : Space) : Option (Nat × Space) :=
  match s.freeHead with
  | none => none
  | some rootInd => (s.rootSet[rootInd]?).map fun entry => (rootInd, { s with freeHead := entry.nextFree })

/-- `cs_root` stores the vaddr. -/
def storeRoot (s : Space) (rootInd : Nat) (v : Vaddr) : Space :=
  { s with rootSet := s.rootSet.set rootInd (.allocated v) }

/-- `cs_deroot` makes the entry a free one, with its link. -/
def freeRoot (s : Space) (rootId : Nat) : Space :=
  { s with rootSet := s.rootSet.set rootId (.free s.freeHead) }

/-- `cs_deroot` makes the entry the head of the free list. -/
def pushRoot (s : Space) (rootId : Nat) : Space := { s with freeHead := some rootId }

/-- The doubled array, of 24 bytes an entry, fits the host's memory. -/
def rootsFit (s : Space) : Bool := 2 * s.rootSet.length * 24 < 2 ^ 64

theorem csRoot_eq (s : Space) (v : Vaddr) :
    s.csRoot v = s.resizeRoots.popRoot.map fun r => (r.1, r.2.storeRoot r.1 v) := by
  unfold csRoot resizeRoots popRoot
  simp only
  generalize (if s.freeHead.isNone = true then s.growRootSet else s) = sp
  cases sp.freeHead with
  | none => rfl
  | some rootInd =>
    simp only [storeRoot]
    cases sp.rootSet[rootInd]? <;> rfl

theorem csDeroot_eq {s : Space} {id : Nat} {v : Vaddr} (h : s.rootSet[id]? = some (.allocated v)) :
    s.csDeroot id = (.success, (s.freeRoot id).pushRoot id) := by
  unfold csDeroot
  rw [h]
  rfl

/-- The free link of an entry. -/
def nextFree (s : Space) (id : Nat) : Option Nat := (s.rootSet[id]?).bind RootSetEntry.nextFree

end Space

/-! ## The finite map -/

inductive RootCall
  | root (vaddr : Vaddr)
  | deroot (rootId : Nat)
  | getRootVaddr (rootId : Nat)
deriving DecidableEq, Repr

inductive RootRet
  | rootId (rootId : Nat)
  | status (code : Space.RootStatusCode)
  | rootVaddr (code : Space.RootStatusCode) (vaddr : Vaddr)
deriving DecidableEq, Repr

/-- The vaddrs of the allocated root ids. -/
abbrev RootMap := AList fun _ : Nat => Vaddr

/-- A call of the map, what it returns, and the map after it. -/
inductive RootSpec (map : RootMap) : RootCall → RootRet → RootMap → Prop
  | root (v : Vaddr) (id : Nat) :
      id ∉ map → RootSpec map (.root v) (.rootId id) (map.insert id v)
  | deroot (id : Nat) :
      id ∈ map → RootSpec map (.deroot id) (.status .success) (map.erase id)
  | derootAbsent (id : Nat) (code : Space.RootStatusCode) :
      id ∉ map → code ≠ .success → RootSpec map (.deroot id) (.status code) map
  | getRootVaddr (id : Nat) (v : Vaddr) :
      map.lookup id = some v → RootSpec map (.getRootVaddr id) (.rootVaddr .success v) map
  | getRootVaddrAbsent (id : Nat) (code : Space.RootStatusCode) :
      id ∉ map → code ≠ .success → RootSpec map (.getRootVaddr id) (.rootVaddr code nullVaddr) map

/-- A history of the map, from the empty one. -/
inductive RootHistory : List (RootCall × RootRet) → RootMap → Prop
  | nil : RootHistory [] ∅
  | snoc {log : List (RootCall × RootRet)} {map map' : RootMap} {call : RootCall} {ret : RootRet} :
      RootHistory log map → RootSpec map call ret map' → RootHistory (log ++ [(call, ret)]) map'

/-! ## The threads -/

/-- Where a thread stands in a call. -/
inductive RootPc
  | idle
  | resize (vaddr : Vaddr)
  | pop (vaddr : Vaddr)
  | store (vaddr : Vaddr) (rootInd : Nat)
  | check (rootId : Nat)
  | link (rootId : Nat)
  | read (rootId : Nat)
deriving DecidableEq, Repr

/-- The thread has `root_set_lock` for writing. -/
def RootPc.writes : RootPc → Bool
  | .idle | .read _ => false
  | _ => true

structure RootSys where
  space : Space
  lck : RwLock
  threads : List RootPc
  log : List (RootCall × RootRet)

namespace RootSys

def new (adbTCap threads : Nat) : RootSys where
  space := .new adbTCap
  lck := {}
  threads := List.replicate threads .idle
  log := []

/-- The thread goes on in its call. -/
def goto (s : RootSys) (t : Tid) (space : Space) (pc : RootPc) : RootSys :=
  { s with space := space, threads := s.threads.set t pc }

/-- The thread unlocks and returns. -/
def ret (s : RootSys) (t : Tid) (space : Space) (call : RootCall) (r : RootRet) : RootSys :=
  { space := space
    lck := s.lck.release t
    threads := s.threads.set t .idle
    log := s.log ++ [(call, r)] }

end RootSys

inductive RootAct
  | call (t : Tid) (call : RootCall)
  | go (t : Tid)
deriving DecidableEq, Repr

/-- One step. A call waits for `root_set_lock`; a resize that finds no memory ends the process. -/
def rootStep (s : RootSys) : RootAct → Option RootSys
  | .call t call =>
    if s.threads[t]? = some .idle then
      match call with
      | .root v =>
        if s.lck.isFree then
          some { s with lck := s.lck.acqWrite t, threads := s.threads.set t (.resize v) }
        else none
      | .deroot id =>
        if s.lck.isFree then
          some { s with lck := s.lck.acqWrite t, threads := s.threads.set t (.check id) }
        else none
      | .getRootVaddr id =>
        if s.lck.canRead then
          some { s with lck := s.lck.acqRead t, threads := s.threads.set t (.read id) }
        else none
    else none
  | .go t =>
    match s.threads[t]? with
    | some (.resize v) =>
      if s.space.freeHead.isSome || s.space.rootsFit then
        some (s.goto t s.space.resizeRoots (.pop v))
      else none
    | some (.pop v) => s.space.popRoot.map fun r => s.goto t r.2 (.store v r.1)
    | some (.store v rootInd) =>
      some (s.ret t (s.space.storeRoot rootInd v) (.root v) (.rootId rootInd))
    | some (.check id) =>
      match s.space.rootSet[id]? with
      | none => some (s.ret t s.space (.deroot id) (.status .rootIdOutOfBounds))
      | some (.free _) => some (s.ret t s.space (.deroot id) (.status .rootIdNotAllocated))
      | some (.allocated _) => some (s.goto t (s.space.freeRoot id) (.link id))
    | some (.link id) => some (s.ret t (s.space.pushRoot id) (.deroot id) (.status .success))
    | some (.read id) =>
      some (s.ret t s.space (.getRootVaddr id)
        (.rootVaddr (s.space.csGetRootVaddr id).1 (s.space.csGetRootVaddr id).2))
    | _ => none

/-! ## The free chain -/

/-- The root set shows the map, and its free chain the rest. -/
structure RootsSound (sp : Space) (map : RootMap) : Prop where
  nonempty : sp.rootSet.length ≠ 0
  fits : sp.rootSet.length * 24 < 2 ^ 64
  shows : ∀ id, map.lookup id = (sp.rootSet[id]?).bind RootSetEntry.vaddr?
  chained : ∃ l, Chain sp.nextFree sp.freeHead l ∧ l.Nodup ∧
    ∀ id, id ∈ l ↔ ∃ n, sp.rootSet[id]? = some (.free n)

variable {sp sp' : Space} {map map' : RootMap} {id : Nat} {v : Vaddr} {n : Option Nat}

theorem RootsSound.not_mem (h : RootsSound sp map) (hfree : sp.rootSet[id]? = some (.free n)) :
    id ∉ map := by
  rw [← AList.lookup_eq_none, h.shows, hfree]
  rfl

theorem RootsSound.mem_iff (h : RootsSound sp map) :
    id ∈ map ↔ ∃ v, sp.rootSet[id]? = some (.allocated v) := by
  rw [← AList.lookup_isSome, h.shows]
  cases sp.rootSet[id]? with
  | none => exact ⟨nofun, nofun⟩
  | some e =>
    cases e with
    | free n => exact ⟨nofun, nofun⟩
    | allocated v => exact ⟨fun _ => ⟨v, rfl⟩, fun _ => rfl⟩

theorem rootsSound_new (adbTCap : Nat) : RootsSound (.new adbTCap) ∅ := by
  refine ⟨Nat.one_ne_zero, show 1 * 24 < 2 ^ 64 by decide, fun id => ?_, [0], ⟨rfl, rfl⟩,
    List.nodup_singleton 0, fun id => ?_⟩
  · cases id <;> rfl
  · rw [List.mem_singleton]
    cases id with
    | zero => exact ⟨fun _ => ⟨none, rfl⟩, fun _ => rfl⟩
    | succ id => exact ⟨nofun, nofun⟩

/-- The entries of a doubled root set. -/
theorem getElem?_growRootSet (id : Nat) : sp.growRootSet.rootSet[id]? =
    if id < sp.rootSet.length then sp.rootSet[id]?
    else if id < 2 * sp.rootSet.length then
      some (.free (if id + 1 < 2 * sp.rootSet.length then some (id + 1) else none))
    else none := by
  unfold Space.growRootSet
  simp only [List.getElem?_append]
  split
  next => rfl
  next hge =>
    rw [List.getElem?_map]
    split
    next hlt =>
      rw [List.getElem?_range (by omega), Option.map_some]
      congr 2
      simp only [show sp.rootSet.length + (id - sp.rootSet.length) + 1 = id + 1 by omega]
      congr 1
      simp only [eq_iff_iff]
      omega
    next hge' =>
      rw [List.getElem?_eq_none (by rw [List.length_range]; omega)]
      rfl

/-- A full root set is doubled: the new entries make up the chain. -/
theorem RootsSound.grow (h : RootsSound sp map) (hnone : sp.freeHead = none)
    (hfit : sp.rootsFit = true) : RootsSound sp.growRootSet map := by
  obtain ⟨l, hchain, -, hmem⟩ := h.chained
  have hnil : l = [] := by
    rw [hnone] at hchain
    exact hchain.eq_nil
  have hlen : sp.growRootSet.rootSet.length = 2 * sp.rootSet.length := by
    unfold Space.growRootSet
    simp only [List.length_append, List.length_map, List.length_range]
    omega
  have hcap := h.nonempty
  refine
    { nonempty := by omega
      fits := ?_
      shows := fun id => ?_
      chained := ⟨List.range' sp.rootSet.length sp.rootSet.length, ?_, List.nodup_range', fun id => ?_⟩ }
  · rw [hlen]
    exact of_decide_eq_true hfit
  · rw [h.shows, getElem?_growRootSet]
    split
    next => rfl
    next hge =>
      rw [List.getElem?_eq_none (Nat.le_of_not_lt hge)]
      split <;> rfl
  · have hlast : sp.rootSet.length + sp.rootSet.length = 2 * sp.rootSet.length := (Nat.two_mul _).symm
    have hhead : sp.growRootSet.freeHead =
        if sp.rootSet.length < 2 * sp.rootSet.length then some sp.rootSet.length else none := by
      rw [if_pos (by omega)]
      rfl
    rw [hhead]
    refine chain_range' hlast fun i hge hlt => ?_
    rw [Space.nextFree, getElem?_growRootSet, if_neg (by omega), if_pos hlt]
    rfl
  · rw [List.mem_range'_1, getElem?_growRootSet]
    subst hnil
    have hall : ∀ n, sp.rootSet[id]? ≠ some (.free n) := fun n hn =>
      List.not_mem_nil ((hmem id).mpr ⟨n, hn⟩)
    split
    next hlt => exact ⟨fun hrange => by omega, fun ⟨n, hn⟩ => absurd hn (hall n)⟩
    next hge =>
      split
      next hlt => exact ⟨fun _ => ⟨_, rfl⟩, fun _ => by omega⟩
      next hge' => exact ⟨fun hrange => by omega, nofun⟩

/-- After the resize the chain is not empty. -/
theorem RootsSound.resize (h : RootsSound sp map)
    (hroom : (sp.freeHead.isSome || sp.rootsFit) = true) :
    RootsSound sp.resizeRoots map ∧ sp.resizeRoots.freeHead.isSome = true := by
  unfold Space.resizeRoots
  cases hhead : sp.freeHead with
  | none =>
    rw [hhead] at hroom
    exact ⟨h.grow hhead hroom, rfl⟩
  | some i =>
    exact ⟨h, by simp only [Option.isNone_some, Bool.false_eq_true, if_false, hhead, Option.isSome_some]⟩

/-- The head of the chain is an entry that is not allocated. -/
theorem RootsSound.head (h : RootsSound sp map) (hhead : sp.freeHead = some id) :
    ∃ n, sp.rootSet[id]? = some (.free n) ∧ sp.popRoot = some (id, { sp with freeHead := n }) := by
  obtain ⟨l, hchain, -, hmem⟩ := h.chained
  rw [hhead] at hchain
  obtain ⟨l', rfl, -⟩ := hchain.eq_cons
  obtain ⟨n, hn⟩ := (hmem id).mp List.mem_cons_self
  refine ⟨n, hn, ?_⟩
  unfold Space.popRoot
  simp only [hhead, hn, Option.map_some]
  rfl

/-- **Root.** The popped entry takes the vaddr. -/
theorem RootsSound.root (h : RootsSound sp map) (hhead : sp.freeHead = some id)
    (hfree : sp.rootSet[id]? = some (.free n)) (v : Vaddr) :
    RootsSound (Space.storeRoot { sp with freeHead := n } id v) (map.insert id v) := by
  obtain ⟨l, hchain, hnodup, hmem⟩ := h.chained
  rw [hhead] at hchain
  obtain ⟨l, rfl, htail⟩ := hchain.eq_cons
  obtain ⟨hid, hnodup⟩ := List.nodup_cons.mp hnodup
  have hlt : id < sp.rootSet.length := (List.getElem?_eq_some_iff.mp hfree).1
  have hget : ∀ i, (sp.rootSet.set id (.allocated v))[i]? =
      if i = id then some (.allocated v) else sp.rootSet[i]? := by
    intro i
    split
    next heq => rw [heq, List.getElem?_set_self hlt]
    next hne => rw [List.getElem?_set_ne (Ne.symm hne)]
  refine
    { nonempty := ?_
      fits := ?_
      shows := fun i => ?_
      chained := ⟨l, ?_, hnodup, fun i => ?_⟩ }
  · show (sp.rootSet.set id (.allocated v)).length ≠ 0
    rw [List.length_set]
    exact h.nonempty
  · show (sp.rootSet.set id (.allocated v)).length * 24 < 2 ^ 64
    rw [List.length_set]
    exact h.fits
  · show (map.insert id v).lookup i = ((sp.rootSet.set id (.allocated v))[i]?).bind _
    rw [hget]
    split
    next heq =>
      rw [heq, AList.lookup_insert]
      rfl
    next hne => rw [AList.lookup_insert_ne hne, h.shows]
  · have hnext : sp.nextFree id = n := by
      rw [Space.nextFree, hfree]
      rfl
    rw [hnext] at htail
    refine htail.congr fun i hi => ?_
    have hne : i ≠ id := ne_of_mem_of_not_mem hi hid
    show ((sp.rootSet.set id (.allocated v))[i]?).bind _ = sp.nextFree i
    rw [hget, if_neg hne]
    rfl
  · show i ∈ l ↔ ∃ n, (sp.rootSet.set id (.allocated v))[i]? = some (.free n)
    rw [hget]
    split
    next heq => exact ⟨fun hi => absurd (heq ▸ hi) hid, nofun⟩
    next hne => rw [← hmem, List.mem_cons, or_iff_right hne]

/-- **Deroot.** The entry goes to the front of the chain. -/
theorem RootsSound.deroot (h : RootsSound sp map) (hget : sp.rootSet[id]? = some (.allocated v)) :
    RootsSound ((sp.freeRoot id).pushRoot id) (map.erase id) := by
  obtain ⟨l, hchain, hnodup, hmem⟩ := h.chained
  have hlt : id < sp.rootSet.length := (List.getElem?_eq_some_iff.mp hget).1
  have hid : id ∉ l := by
    intro hin
    obtain ⟨n, hn⟩ := (hmem id).mp hin
    rw [hget] at hn
    cases hn
  have hset : ∀ i, (sp.rootSet.set id (.free sp.freeHead))[i]? =
      if i = id then some (.free sp.freeHead) else sp.rootSet[i]? := by
    intro i
    split
    next heq => rw [heq, List.getElem?_set_self hlt]
    next hne => rw [List.getElem?_set_ne (Ne.symm hne)]
  refine
    { nonempty := ?_
      fits := ?_
      shows := fun i => ?_
      chained := ⟨id :: l, ⟨rfl, ?_⟩, List.nodup_cons.mpr ⟨hid, hnodup⟩, fun i => ?_⟩ }
  · show (sp.rootSet.set id (.free sp.freeHead)).length ≠ 0
    rw [List.length_set]
    exact h.nonempty
  · show (sp.rootSet.set id (.free sp.freeHead)).length * 24 < 2 ^ 64
    rw [List.length_set]
    exact h.fits
  · show (map.erase id).lookup i = ((sp.rootSet.set id (.free sp.freeHead))[i]?).bind _
    rw [hset]
    split
    next heq =>
      rw [heq, AList.lookup_erase]
      rfl
    next hne => rw [AList.lookup_erase_ne hne, h.shows]
  · have hnext : ((sp.freeRoot id).pushRoot id).nextFree id = sp.freeHead := by
      show ((sp.rootSet.set id (.free sp.freeHead))[id]?).bind _ = _
      rw [hset, if_pos rfl]
      rfl
    rw [hnext]
    refine hchain.congr fun i hi => ?_
    have hne : i ≠ id := ne_of_mem_of_not_mem hi hid
    show ((sp.rootSet.set id (.free sp.freeHead))[i]?).bind _ = sp.nextFree i
    rw [hset, if_neg hne]
    rfl
  · show i ∈ id :: l ↔ ∃ n, (sp.rootSet.set id (.free sp.freeHead))[i]? = some (.free n)
    rw [hset, List.mem_cons]
    split
    next heq => exact ⟨fun _ => ⟨_, rfl⟩, fun _ => .inl heq⟩
    next hne => rw [← hmem, or_iff_right hne]

/-! ## The lock keeps the calls apart -/

/-- The root set while a writer stands at `pc`: what it found, with the steps it took. -/
def During (sp : Space) (map : RootMap) : RootPc → Prop
  | .pop _ => RootsSound sp map ∧ sp.freeHead.isSome = true
  | .store _ rootInd => ∃ old n, RootsSound old map ∧ old.freeHead = some rootInd ∧
      old.rootSet[rootInd]? = some (.free n) ∧ sp = { old with freeHead := n }
  | .link id => ∃ old v, RootsSound old map ∧ old.rootSet[id]? = some (.allocated v) ∧
      sp = old.freeRoot id
  | _ => RootsSound sp map

structure RootInv (s : RootSys) (map : RootMap) : Prop where
  history : RootHistory s.log map
  writes : ∀ t pc, s.threads[t]? = some pc → pc.writes = true → s.lck.writer = some t
  reads : ∀ t id, s.threads[t]? = some (.read id) → t ∈ s.lck.readers
  excludes : s.lck.writer = none ∨ s.lck.readers = []
  quiet : s.lck.writer = none → RootsSound s.space map
  during : ∀ t, s.lck.writer = some t →
    ∃ pc, s.threads[t]? = some pc ∧ pc.writes = true ∧ During s.space map pc

variable {s s' : RootSys} {t u : Tid} {pc pc' : RootPc} {call : RootCall} {r : RootRet}

theorem rootInv_new (adbTCap threads : Nat) : RootInv (.new adbTCap threads) ∅ := by
  have hidle : ∀ t (pc : RootPc), (RootSys.new adbTCap threads).threads[t]? = some pc → pc = .idle :=
    fun t pc hpc => (List.mem_replicate.mp (List.mem_of_getElem? hpc)).2
  refine
    { history := .nil
      writes := fun t pc hpc hwrites => ?_
      reads := fun t id hpc => ?_
      excludes := .inl rfl
      quiet := fun _ => rootsSound_new adbTCap
      during := nofun }
  · rw [hidle t pc hpc] at hwrites
    cases hwrites
  · cases hidle t _ hpc

theorem get_set_of_get {ts : List RootPc} (hpc : ts[t]? = some pc) (pc' : RootPc) (u : Tid) :
    (ts.set t pc')[u]? = if u = t then some pc' else ts[u]? := by
  split
  next heq => rw [heq, List.getElem?_set_self (List.getElem?_eq_some_iff.mp hpc).1]
  next hne => rw [List.getElem?_set_ne (Ne.symm hne)]

/-- A writer goes on. -/
theorem RootInv.goto (h : RootInv s map) (hpc : s.threads[t]? = some pc) (hwrites : pc.writes = true)
    (hwrites' : pc'.writes = true) (hduring : During sp' map pc') :
    RootInv (s.goto t sp' pc') map := by
  have hwriter := h.writes t pc hpc hwrites
  have hget := get_set_of_get hpc pc'
  refine
    { history := h.history
      writes := fun u qc hqc hqw => ?_
      reads := fun u id hqc => ?_
      excludes := h.excludes
      quiet := fun hnone => ?_
      during := fun u hu => ?_ }
  · rw [RootSys.goto, hget] at hqc
    split at hqc
    next heq => exact heq ▸ hwriter
    next => exact h.writes u qc hqc hqw
  · rw [RootSys.goto, hget] at hqc
    split at hqc
    next =>
      cases hqc
      cases hwrites'
    next => exact h.reads u id hqc
  · cases hwriter.symm.trans hnone
  · cases hwriter.symm.trans hu
    exact ⟨pc', (hget t).trans (if_pos rfl), hwrites', hduring⟩

/-- A writer returns. -/
theorem RootInv.ret (h : RootInv s map) (hpc : s.threads[t]? = some pc) (hwrites : pc.writes = true)
    (hspec : RootSpec map call r map') (hsound : RootsSound sp' map') :
    RootInv (s.ret t sp' call r) map' := by
  have hwriter := h.writes t pc hpc hwrites
  have hreaders : s.lck.readers = [] := h.excludes.resolve_left (by rw [hwriter]; nofun)
  have hlck : (s.ret t sp' call r).lck = {} := by
    show s.lck.release t = {}
    rw [RwLock.release, if_pos hwriter, hreaders]
  have hget := get_set_of_get hpc .idle
  refine
    { history := h.history.snoc hspec
      writes := fun u qc hqc hqw => ?_
      reads := fun u id hqc => ?_
      excludes := hlck ▸ .inl rfl
      quiet := fun _ => hsound
      during := fun u hu => ?_ }
  · rw [RootSys.ret, hget] at hqc
    split at hqc
    next =>
      cases hqc
      cases hqw
    next hne => exact absurd (Option.some.inj (hwriter.symm.trans (h.writes u qc hqc hqw))).symm hne
  · rw [RootSys.ret, hget] at hqc
    split at hqc
    next => cases hqc
    next =>
      have hread := h.reads u id hqc
      rw [hreaders] at hread
      cases hread
  · rw [hlck] at hu
    cases hu

/-- A reader returns. -/
theorem RootInv.ret_read (h : RootInv s map) (hpc : s.threads[t]? = some (.read id))
    (hspec : RootSpec map call r map) : RootInv (s.ret t s.space call r) map := by
  have hread := h.reads t id hpc
  have hwriter : s.lck.writer = none :=
    h.excludes.resolve_right fun hnil => List.not_mem_nil (hnil ▸ hread)
  have hlck : s.lck.release t = { s.lck with readers := s.lck.readers.erase t } := by
    rw [RwLock.release, if_neg (by rw [hwriter]; simp)]
  have hget := get_set_of_get hpc .idle
  refine
    { history := h.history.snoc hspec
      writes := fun u qc hqc hqw => ?_
      reads := fun u id hqc => ?_
      excludes := .inl ?_
      quiet := fun _ => h.quiet hwriter
      during := fun u hu => ?_ }
  · rw [RootSys.ret, hget] at hqc
    split at hqc
    next =>
      cases hqc
      cases hqw
    next =>
      have hu := h.writes u qc hqc hqw
      rw [hwriter] at hu
      cases hu
  · rw [RootSys.ret, hget] at hqc
    split at hqc
    next => cases hqc
    next hne =>
      show u ∈ (s.lck.release t).readers
      rw [hlck]
      exact (List.mem_erase_of_ne hne).mpr (h.reads u id hqc)
  · show (s.lck.release t).writer = none
    rw [hlck]
    exact hwriter
  · have hu' : (s.lck.release t).writer = some u := hu
    rw [hlck, hwriter] at hu'
    cases hu'

/-- A call takes the lock for writing. -/
theorem RootInv.call_write (h : RootInv s map) (hpc : s.threads[t]? = some RootPc.idle)
    (hfree : s.lck.isFree = true) (hwrites : pc.writes = true)
    (hduring : RootsSound s.space map → During s.space map pc) :
    RootInv { s with lck := s.lck.acqWrite t, threads := s.threads.set t pc } map := by
  obtain ⟨hwriter, hreaders⟩ := RwLock.isFree_iff.mp hfree
  have hget := get_set_of_get hpc pc
  refine
    { history := h.history
      writes := fun u qc hqc hqw => ?_
      reads := fun u id hqc => ?_
      excludes := .inr hreaders
      quiet := nofun
      during := fun u hu => ?_ }
  · simp only [hget] at hqc
    split at hqc
    next heq => exact heq ▸ rfl
    next =>
      have hu := h.writes u qc hqc hqw
      rw [hwriter] at hu
      cases hu
  · simp only [hget] at hqc
    split at hqc
    next =>
      cases hqc
      cases hwrites
    next => exact h.reads u id hqc
  · cases hu
    exact ⟨pc, (hget t).trans (if_pos rfl), hwrites, hduring (h.quiet hwriter)⟩

/-- A call takes it for reading. -/
theorem RootInv.call_read (h : RootInv s map) (hpc : s.threads[t]? = some RootPc.idle)
    (hread : s.lck.canRead = true) :
    RootInv { s with lck := s.lck.acqRead t, threads := s.threads.set t (.read id) } map := by
  have hwriter := RwLock.canRead_iff.mp hread
  have hget := get_set_of_get hpc (.read id)
  refine
    { history := h.history
      writes := fun u qc hqc hqw => ?_
      reads := fun u id' hqc => ?_
      excludes := .inl hwriter
      quiet := fun _ => h.quiet hwriter
      during := fun u hu => ?_ }
  · simp only [hget] at hqc
    split at hqc
    next =>
      cases hqc
      cases hqw
    next => exact h.writes u qc hqc hqw
  · simp only [hget] at hqc
    split at hqc
    next heq => exact heq ▸ List.mem_cons_self
    next => exact List.mem_cons_of_mem t (h.reads u id' hqc)
  · have hu' : s.lck.writer = some u := hu
    rw [hwriter] at hu'
    cases hu'

/-- What the read of an entry returns. -/
theorem RootsSound.spec_get (h : RootsSound sp map) (id : Nat) :
    RootSpec map (.getRootVaddr id)
      (.rootVaddr (sp.csGetRootVaddr id).1 (sp.csGetRootVaddr id).2) map := by
  unfold Space.csGetRootVaddr
  have hshows := h.shows id
  cases hget : sp.rootSet[id]? with
  | none =>
    rw [hget] at hshows
    exact .getRootVaddrAbsent id _ (AList.lookup_eq_none.mp hshows) nofun
  | some e =>
    rw [hget] at hshows
    cases e with
    | free n => exact .getRootVaddrAbsent id _ (AList.lookup_eq_none.mp hshows) nofun
    | allocated v => exact .getRootVaddr id v hshows

theorem rootStep_inv {a : RootAct} (h : RootInv s map) (hstep : rootStep s a = some s') :
    ∃ map', RootInv s' map' := by
  cases a with
  | call t call =>
    simp only [rootStep] at hstep
    split at hstep
    next hpc =>
      cases call with
      | root v =>
        obtain ⟨hfree, hs⟩ := Option.ite_none_right_eq_some.mp hstep
        cases hs
        exact ⟨map, h.call_write hpc hfree rfl id⟩
      | deroot id =>
        obtain ⟨hfree, hs⟩ := Option.ite_none_right_eq_some.mp hstep
        cases hs
        exact ⟨map, h.call_write hpc hfree rfl fun hsound => hsound⟩
      | getRootVaddr id =>
        obtain ⟨hread, hs⟩ := Option.ite_none_right_eq_some.mp hstep
        cases hs
        exact ⟨map, h.call_read hpc hread⟩
    next => cases hstep
  | go t =>
    simp only [rootStep] at hstep
    cases hpc : s.threads[t]? with
    | none =>
      rw [hpc] at hstep
      cases hstep
    | some pc =>
      rw [hpc] at hstep
      have hduring : pc.writes = true → During s.space map pc := by
        intro hwrites
        obtain ⟨qc, hqc, -, hd⟩ := h.during t (h.writes t pc hpc hwrites)
        cases hpc.symm.trans hqc
        exact hd
      cases pc with
      | idle => cases hstep
      | resize v =>
        have hsound : RootsSound s.space map := hduring rfl
        obtain ⟨hroom, hs⟩ := Option.ite_none_right_eq_some.mp hstep
        cases hs
        exact ⟨map, h.goto hpc rfl rfl (hsound.resize hroom)⟩
      | pop v =>
        obtain ⟨hsound, hsome⟩ : RootsSound s.space map ∧ s.space.freeHead.isSome = true := hduring rfl
        obtain ⟨rootInd, hhead⟩ := Option.isSome_iff_exists.mp hsome
        obtain ⟨n, hfree, hpop⟩ := hsound.head hhead
        simp only [hpop, Option.map_some, Option.some.injEq] at hstep
        cases hstep
        exact ⟨map, h.goto hpc rfl rfl ⟨s.space, n, hsound, hhead, hfree, rfl⟩⟩
      | store v rootInd =>
        obtain ⟨old, n, hsound, hhead, hfree, hsp⟩ : During s.space map (.store v rootInd) := hduring rfl
        cases hstep
        rw [hsp]
        exact ⟨_, h.ret hpc rfl (.root v rootInd (hsound.not_mem hfree)) (hsound.root hhead hfree v)⟩
      | check id =>
        have hsound : RootsSound s.space map := hduring rfl
        have hshows := hsound.shows id
        simp only at hstep
        split at hstep
        next hget =>
          cases hstep
          rw [hget] at hshows
          exact ⟨map, h.ret hpc rfl (.derootAbsent id _ (AList.lookup_eq_none.mp hshows) nofun) hsound⟩
        next n hget =>
          cases hstep
          exact ⟨map, h.ret hpc rfl (.derootAbsent id _ (hsound.not_mem hget) nofun) hsound⟩
        next v hget =>
          cases hstep
          exact ⟨map, h.goto hpc rfl rfl ⟨s.space, v, hsound, hget, rfl⟩⟩
      | link id =>
        obtain ⟨old, v, hsound, hget, hsp⟩ : During s.space map (.link id) := hduring rfl
        cases hstep
        rw [hsp]
        exact ⟨_, h.ret hpc rfl (.deroot id (hsound.mem_iff.mpr ⟨v, hget⟩)) (hsound.deroot hget)⟩
      | read id =>
        cases hstep
        have hread := h.reads t id hpc
        have hwriter : s.lck.writer = none :=
          h.excludes.resolve_right fun hnil => List.not_mem_nil (hnil ▸ hread)
        exact ⟨map, h.ret_read hpc ((h.quiet hwriter).spec_get id)⟩

/-- Some map is what the calls have made. -/
def RootsKept (s : RootSys) : Prop := ∃ map, RootInv s map

theorem rootInv_reach {adbTCap threads : Nat}
    (hreach : Reaches rootStep (fun _ _ => True) (.new adbTCap threads) s) : RootsKept s := by
  refine hreach.invariant (fun m a m' hm _ hstep => ?_) ⟨∅, rootInv_new adbTCap threads⟩
  obtain ⟨map, h⟩ := hm
  exact rootStep_inv h hstep

/-- A call that has the lock goes on, unless the host has no memory for its resize. -/
theorem RootInv.progress (h : RootInv s map) (hpc : s.threads[t]? = some pc) (hidle : pc ≠ .idle)
    (hroom : ∀ v, pc = .resize v → s.space.freeHead = none → s.space.rootsFit = true) :
    ∃ s', rootStep s (.go t) = some s' := by
  simp only [rootStep, hpc]
  cases pc with
  | idle => exact absurd rfl hidle
  | resize v =>
    have hcond : (s.space.freeHead.isSome || s.space.rootsFit) = true := by
      cases hhead : s.space.freeHead with
      | none => exact hroom v rfl hhead
      | some i => rfl
    exact ⟨_, if_pos hcond⟩
  | pop v =>
    obtain ⟨qc, hqc, -, hd⟩ := h.during t (h.writes t _ hpc rfl)
    cases hpc.symm.trans hqc
    obtain ⟨hsound, hsome⟩ : RootsSound s.space map ∧ s.space.freeHead.isSome = true := hd
    obtain ⟨rootInd, hhead⟩ := Option.isSome_iff_exists.mp hsome
    obtain ⟨n, -, hpop⟩ := hsound.head hhead
    simp only [hpop, Option.map_some]
    exact ⟨_, rfl⟩
  | check id =>
    simp only
    split <;> exact ⟨_, rfl⟩
  | store v rootInd => exact ⟨_, rfl⟩
  | link id => exact ⟨_, rfl⟩
  | read id => exact ⟨_, rfl⟩

/-- **The root set is a finite map.** In every interleaving the calls that returned are a history of
one map, whose entries the root set holds whenever no writer is inside; the free chain goes through
every other entry once. -/
theorem root_set_is_map {adbTCap threads : Nat}
    (hreach : Reaches rootStep (fun _ _ => True) (.new adbTCap threads) s) :
    ∃ map, RootHistory s.log map ∧
      (s.lck.writer = none →
        (∀ id, map.lookup id = (s.space.rootSet[id]?).bind RootSetEntry.vaddr?) ∧
        (∃ l, Chain s.space.nextFree s.space.freeHead l ∧ l.Nodup ∧
          ∀ id, id ∈ l ↔ ∃ n, s.space.rootSet[id]? = some (.free n)) ∧
        ∀ id, id < s.space.rootSet.length → id < uint64Max) ∧
      (∀ t id, s.threads[t]? = some (.check id) → id ∉ map →
        ∃ code, code ≠ .success ∧
          rootStep s (.go t) = some (s.ret t s.space (.deroot id) (.status code))) ∧
      ∀ t pc, s.threads[t]? = some pc → pc ≠ .idle →
        (∀ v, pc = .resize v → s.space.freeHead = none → s.space.rootsFit = true) →
        ∃ s', rootStep s (.go t) = some s' := by
  obtain ⟨map, h⟩ := rootInv_reach hreach
  refine ⟨map, h.history, fun hwriter => ?_, fun t id hpc habsent => ?_, fun t pc => h.progress⟩
  · have hsound := h.quiet hwriter
    refine ⟨hsound.shows, hsound.chained, fun id hlt => ?_⟩
    have hfits := hsound.fits
    unfold uint64Max
    omega
  · obtain ⟨qc, hqc, -, hd⟩ := h.during t (h.writes t _ hpc rfl)
    cases hpc.symm.trans hqc
    have hsound : RootsSound s.space map := hd
    simp only [rootStep, hpc]
    cases hget : s.space.rootSet[id]? with
    | none => exact ⟨.rootIdOutOfBounds, nofun, rfl⟩
    | some e =>
      cases e with
      | free n => exact ⟨.rootIdNotAllocated, nofun, rfl⟩
      | allocated v => exact absurd (hsound.mem_iff.mpr ⟨v, hget⟩) habsent

/-- Two threads root an object each, which doubles the root set; one derooted id is returned again. -/
theorem root_set_is_map_doubled : ∃ map, RootHistory
    [(.root ⟨0, 0⟩, .rootId 0), (.root ⟨0, 1⟩, .rootId 1), (.deroot 0, .status .success),
      (.deroot 7, .status .rootIdOutOfBounds), (.root ⟨0, 2⟩, .rootId 0),
      (.getRootVaddr 1, .rootVaddr .success ⟨0, 1⟩)] map := by
  obtain ⟨s, hrun, hlog⟩ : ∃ s, exec rootStep (fun _ _ => true) (.new 1 2)
      [.call 0 (.root ⟨0, 0⟩), .go 0, .go 0, .go 0, .call 1 (.root ⟨0, 1⟩), .go 1, .go 1, .go 1,
        .call 0 (.deroot 0), .go 0, .go 0, .call 1 (.deroot 7), .go 1, .call 0 (.root ⟨0, 2⟩), .go 0,
        .go 0, .go 0, .call 1 (.getRootVaddr 1), .go 1] = some s ∧ s.log =
      [(.root ⟨0, 0⟩, .rootId 0), (.root ⟨0, 1⟩, .rootId 1), (.deroot 0, .status .success),
        (.deroot 7, .status .rootIdOutOfBounds), (.root ⟨0, 2⟩, .rootId 0),
        (.getRootVaddr 1, .rootVaddr .success ⟨0, 1⟩)] := ⟨_, rfl, rfl⟩
  obtain ⟨map, hhistory, -⟩ := root_set_is_map (reaches_of_exec (fun _ _ _ => trivial) _ hrun)
  exact ⟨map, hlog ▸ hhistory⟩

end Chvm.Cs
