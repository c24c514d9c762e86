import Mathlib.Data.Finset.Basic
import Mathlib.Data.Finset.Dedup
import Mathlib.Data.List.GetD
import Chvm.Lib.Run

/-!
# The child list (`sys.c`)

The root process records the pids it forks in a list that `safe_exit` works through. The calls that
change the list are cut at every instant where `SIGINT` may arrive, and where it is blocked at every
change of the list; the handler is a step of its own, enabled wherever the mask lets it through.

Beside the code's state a run keeps `unreaped`, the operating system's own account: the children
forked and not yet reaped.
-/

set_option autoImplicit false

namespace Chvm.Core

open Chvm.Lib

/-! ## The list -/

/-- A growing array of pids: the first `len` of its `cap` places are in use. -/
structure ChildList where
  len : Nat
  cap : Nat
  buf : List Nat
  length_buf : buf.length = cap
  fits : len ≤ cap
  cap_pos : 0 < cap

namespace ChildList

/-- `new_child_list`. -/
def new : ChildList :=
  { len := 0, cap := 1, buf := [0], length_buf := rfl, fits := Nat.zero_le 1, cap_pos := Nat.one_pos }

/-- `cl_get`. -/
def clGet (cl : ChildList) (i : Nat) : Nat := cl.buf.getD i 0

/-- The pids on record. -/
def pids (cl : ChildList) : List Nat := cl.buf.take cl.len

/-- The doubled buffer, its new places undefined until they are written. -/
def grow (cl : ChildList) : ChildList where
  len := cl.len
  cap := cl.cap * 2
  buf := cl.buf ++ List.replicate cl.cap 0
  length_buf := by rw [List.length_append, List.length_replicate, cl.length_buf, Nat.mul_two]
  fits := Nat.le_trans cl.fits (Nat.le_mul_of_pos_right _ Nat.two_pos)
  cap_pos := Nat.mul_pos cl.cap_pos Nat.two_pos

/-- `cl->buf[cl->len++] = child`. -/
def put (cl : ChildList) (child : Nat) (h : cl.len < cl.cap) : ChildList where
  len := cl.len + 1
  cap := cl.cap
  buf := cl.buf.set cl.len child
  length_buf := List.length_set.trans cl.length_buf
  fits := h
  cap_pos := cl.cap_pos

theorem grow_lt (cl : ChildList) : cl.grow.len < cl.grow.cap := by
  have hfits := cl.fits
  have hpos := cl.cap_pos
  show cl.len < cl.cap * 2
  omega

/-- `cl_add`; `none` when the list is full and `realloc` has no room. -/
def clAdd (cl : ChildList) (child : Nat) (realloc : Bool) : Option ChildList :=
  if h : cl.len < cl.cap then some (cl.put child h)
  else if realloc then some (cl.grow.put child cl.grow_lt)
  else none

/-- The loop of `cl_remove`: `n` places from `i` on take what is on their right. -/
def shiftLeft (buf : List Nat) (i n : Nat) : List Nat :=
  (List.range' i n).foldl (fun buf j => buf.set j (buf.getD (j + 1) 0)) buf

theorem length_shiftLeft (buf : List Nat) (i n : Nat) : (shiftLeft buf i n).length = buf.length := by
  induction n generalizing buf i with
  | zero => rfl
  | succ n ih =>
    rw [shiftLeft, List.range'_succ, List.foldl_cons]
    exact (ih _ _).trans List.length_set

/-- `cl_remove`. -/
def clRemove (cl : ChildList) (i : Nat) : ChildList :=
  if cl.len ≤ i then cl
  else
    { cl with
      len := cl.len - 1
      buf := shiftLeft cl.buf i (cl.len - 1 - i)
      length_buf := (length_shiftLeft ..).trans cl.length_buf
      fits := Nat.le_trans (Nat.sub_le _ _) cl.fits }

/-- The search of `safe_waitpid`: the first place of the pid, or `len`. -/
def clIndex (cl : ChildList) (pid : Nat) : Nat := cl.pids.idxOf pid

theorem length_pids (cl : ChildList) : cl.pids.length = cl.len :=
  List.length_take_of_le (cl.length_buf.symm ▸ cl.fits)

theorem pids_put {cl : ChildList} {child : Nat} (h : cl.len < cl.cap) :
    (cl.put child h).pids = cl.pids ++ [child] := by
  have hlt : cl.len < (cl.buf.set cl.len child).length := by
    rw [List.length_set, cl.length_buf]
    exact h
  show (cl.buf.set cl.len child).take (cl.len + 1) = cl.buf.take cl.len ++ [child]
  rw [List.take_succ_eq_append_getElem hlt, List.getElem_set_self, List.take_set_of_le (Nat.le_refl _)]

theorem pids_grow (cl : ChildList) : cl.grow.pids = cl.pids :=
  List.take_append_of_le_length (cl.length_buf.symm ▸ cl.fits)

/-- `cl_add` puts the pid at the end, and fails only on a full list. -/
theorem clAdd_cases {cl : ChildList} (child : Nat) (realloc : Bool) :
    (∃ cl', cl.clAdd child realloc = some cl' ∧ cl'.pids = cl.pids ++ [child]) ∨
      (cl.clAdd child realloc = none ∧ cl.len = cl.cap ∧ realloc = false) := by
  unfold clAdd
  split
  · exact .inl ⟨_, rfl, pids_put _⟩
  · rename_i hfull
    cases realloc with
    | true => exact .inl ⟨_, rfl, (pids_put _).trans (congrArg (· ++ [child]) cl.pids_grow)⟩
    | false => exact .inr ⟨rfl, Nat.le_antisymm cl.fits (Nat.not_lt.mp hfull), rfl⟩

/-- The loop drops the place it starts at. -/
theorem take_shiftLeft (buf : List Nat) (i n : Nat) (h : i + n < buf.length) :
    (shiftLeft buf i n).take (i + n) = (buf.take (i + n + 1)).eraseIdx i := by
  induction n generalizing buf i with
  | zero =>
    rw [Nat.add_zero, List.eraseIdx_eq_take_drop_succ, List.take_take, Nat.min_eq_left (Nat.le_succ i),
      List.drop_take, Nat.sub_self, List.take_zero, List.append_nil]
    rfl
  | succ n ih =>
    have hi : i + 1 < buf.length := by omega
    have hlen : (buf.set i (buf.getD (i + 1) 0)).length = buf.length := List.length_set
    have hshift : shiftLeft buf i (n + 1) = shiftLeft (buf.set i (buf.getD (i + 1) 0)) (i + 1) n := rfl
    rw [hshift, ← Nat.succ_add_eq_add_succ, ih _ _ (by rw [hlen]; omega)]
    apply List.ext_getElem?
    intro k
    rw [List.getElem?_eraseIdx, List.getElem?_eraseIdx]
    rcases Nat.lt_trichotomy k i with hlt | rfl | hgt
    · rw [if_pos (by omega), if_pos hlt, List.getElem?_take_of_lt (by omega),
        List.getElem?_take_of_lt (by omega),
        List.getElem?_set_ne (by omega)]
    · rw [if_pos (Nat.lt_succ_self k), if_neg (Nat.lt_irrefl k), List.getElem?_take_of_lt (by omega),
        List.getElem?_take_of_lt (by omega), List.getElem?_set_self (by omega),
        List.getD_eq_getElem _ _ hi, List.getElem?_eq_getElem hi]
    · rw [if_neg (by omega), if_neg (by omega), List.getElem?_take, List.getElem?_take,
        List.getElem?_set_ne (by omega), show i + 1 + n + 1 = i + (n + 1) + 1 by omega]

/-- `cl_remove` drops the pid at the index. -/
theorem pids_clRemove {cl : ChildList} {i : Nat} (h : i < cl.len) :
    (cl.clRemove i).pids = cl.pids.eraseIdx i := by
  have hlen := cl.length_buf
  have hfits := cl.fits
  unfold clRemove
  rw [if_neg (Nat.not_le.mpr h)]
  show (shiftLeft cl.buf i (cl.len - 1 - i)).take (cl.len - 1) = (cl.buf.take cl.len).eraseIdx i
  have hshift := take_shiftLeft cl.buf i (cl.len - 1 - i) (by omega)
  rw [show i + (cl.len - 1 - i) = cl.len - 1 by omega, show cl.len - 1 + 1 = cl.len by omega] at hshift
  exact hshift

/-- The search and `cl_remove` take a recorded pid off the record. -/
theorem pids_remove {cl : ChildList} {pid : Nat} (h : pid ∈ cl.pids) :
    (cl.clRemove (cl.clIndex pid)).pids = cl.pids.erase pid := by
  have hlt : cl.clIndex pid < cl.len := by
    rw [← cl.length_pids]
    exact List.idxOf_lt_length_of_mem h
  rw [pids_clRemove hlt]
  exact List.eraseIdx_idxOf_eq_erase _ _

end ChildList

/-! ## The root process -/

/-- The call a wait is made by, with its arguments. -/
inductive WaitCall
  | safeWaitpid (pid : Int) (opts : Nat)
  | safeWaitpidTimed (pid timeout : Int)
  | safeKillAndReap (pid : Int)
deriving DecidableEq, Repr

/-- The pid a call waits for; 0 and less stand for groups of children. -/
def WaitCall.pid : WaitCall → Int
  | .safeWaitpid pid _ | .safeWaitpidTimed pid _ | .safeKillAndReap pid => pid

/-- What `waitpid` answers: a reaped pid, 0, or an error. -/
inductive WaitRes
  | pid (p : Nat)
  | zero
  | eintr
  | err
deriving DecidableEq, Repr

/-- What `safe_exit` did: the pids it sent `SIGKILL`, and those it waited for. -/
structure ExitLog where
  killed : List Nat
  waited : List Nat
deriving DecidableEq, Repr

/-- Where the process stands. `idle` is between calls, with what the last call returned. -/
inductive Pc
  | idle (ret : Option Int)
  | forking
  | forked (pid : Nat)
  | forkDone (ret : Int)
  | checkingRoot (call : WaitCall)
  | waiting (call : WaitCall)
  | reaped (call : WaitCall) (pid : Nat)
  | removing (call : WaitCall) (pid : Nat)
  | removed (call : WaitCall) (pid : Nat)
  | timing (pid timeout : Int)
  | killing (pid : Int)
  | exited (log : ExitLog)
deriving DecidableEq, Repr

/-- The core state, the signal mask, where the process stands, and the system's account. -/
structure Process where
  root : Bool
  children : ChildList
  locked : Bool
  blocked : Bool
  pc : Pc
  unreaped : Finset Nat

/-- A step of the process, with the system's answer, or the arrival of `SIGINT`. -/
inductive ProcAct
  | safeFork
  | fork (res : Option Nat)
  | clAdd (realloc : Bool)
  | wait (call : WaitCall)
  | waitpid (res : WaitRes)
  | wrlock
  | clRemove
  | unlock
  | time (elapsed : Int)
  | safeKillAndReap (pid : Int)
  | kill (err : Bool)
  | safeExit (killErr : Nat → Bool)
  | sigint (killErr : Nat → Bool)

namespace Process

/-- The state `init_core_state` leaves. -/
def initCoreState : Process :=
  { root := true, children := .new, locked := false, blocked := false, pc := .idle none,
    unreaped := ∅ }

/-- `_rdlock_core_state` and `_wrlock_core_state`: `SIGINT` is blocked, then the lock is taken. -/
def lockCoreState (s : Process) (pc : Pc) : Process :=
  { s with blocked := true, locked := true, pc := pc }

/-- `_unlock_core_state`. -/
def unlockCoreState (s : Process) (pc : Pc) : Process :=
  { s with locked := false, blocked := false, pc := pc }

/-- The loop of `safe_exit`. A pid that `kill` refuses is not waited for. -/
def killChildren (cl : ChildList) (killErr : Nat → Bool) : ExitLog :=
  (List.range cl.len).foldl (fun log i =>
    { killed := log.killed ++ [cl.clGet i]
      waited := if killErr (cl.clGet i) then log.waited else log.waited ++ [cl.clGet i] }) ⟨[], []⟩

/-- `safe_exit`. With the lock held already it gives up at once, and so does a child process. -/
def safeExit (s : Process) (killErr : Nat → Bool) : Process :=
  s.lockCoreState (.exited
    (if s.locked ∨ s.root = false then ⟨[], []⟩ else killChildren s.children killErr))

/-- What becomes of a call when `safe_waitpid` returns. -/
def waitReturn : WaitCall → Int → Pc
  | .safeWaitpid _ _, ret => .idle (some ret)
  | .safeWaitpidTimed pid timeout, ret => if ret = 0 then .timing pid timeout else .idle (some ret)
  | .safeKillAndReap _, ret => .idle (some (if ret = -1 then -1 else 0))

end Process

open Process in
/-- One step of the root process. -/
@[simp] def procStep (s : Process) : ProcAct → Option Process
  | .safeFork =>
    match s.pc with
    | .idle _ => some (s.lockCoreState (if s.root then .forking else .forkDone (-1)))
    | _ => none
  | .fork res =>
    match s.pc, res with
    | .forking, none => some { s with pc := .forkDone (-1) }
    | .forking, some pid => some { s with pc := .forked pid, unreaped := insert pid s.unreaped }
    | _, _ => none
  | .clAdd realloc =>
    match s.pc with
    | .forked pid =>
      -- a child that cannot be recorded is only logged
      some { s with children := (s.children.clAdd pid realloc).getD s.children, pc := .forkDone pid }
    | _ => none
  | .wait call =>
    match s.pc with
    | .idle _ => some (s.lockCoreState (.checkingRoot call))
    | _ => none
  | .waitpid res =>
    match s.pc, res with
    | .waiting call, .pid p => some { s with pc := .reaped call p, unreaped := s.unreaped.erase p }
    | .waiting call, .zero => some { s with pc := waitReturn call 0 }
    | .waiting _, .eintr => some s
    | .waiting call, .err => some { s with pc := waitReturn call (-1) }
    | _, _ => none
  | .wrlock =>
    match s.pc with
    | .reaped call pid => some (s.lockCoreState (.removing call pid))
    | _ => none
  | .clRemove =>
    match s.pc with
    | .removing call pid =>
      -- a pid that is not on record is only logged
      if s.children.clIndex pid = s.children.len then some { s with pc := .removed call pid }
      else some { s with
        children := s.children.clRemove (s.children.clIndex pid), pc := .removed call pid }
    | _ => none
  | .unlock =>
    match s.pc with
    | .forkDone ret => some (s.unlockCoreState (.idle (some ret)))
    | .checkingRoot call =>
      -- a child process returns with the lock held
      if s.root then some (s.unlockCoreState (.waiting call))
      else some { s with pc := waitReturn call (-1) }
    | .removed call pid => some (s.unlockCoreState (waitReturn call pid))
    | _ => none
  | .time elapsed =>
    match s.pc with
    | .timing pid timeout =>
      if timeout ≤ elapsed then some { s with pc := .idle (some (-2)) }
      else some (s.lockCoreState (.checkingRoot (.safeWaitpidTimed pid timeout)))
    | _ => none
  | .safeKillAndReap pid =>
    match s.pc with
    | .idle _ => some { s with pc := .killing pid }
    | _ => none
  | .kill err =>
    match s.pc with
    | .killing pid =>
      if err then some { s with pc := .idle (some (-1)) }
      else some (s.lockCoreState (.checkingRoot (.safeKillAndReap pid)))
    | _ => none
  | .safeExit killErr =>
    match s.pc with
    | .idle _ => some (s.safeExit killErr)
    | _ => none
  | .sigint killErr => if s.blocked then none else some (s.safeExit killErr)

/-- What the system promises: a new child has a pid of its own, `waitpid` returns a pid when it
reaps it, and one that was asked for, and a child that was not reaped can be killed. -/
def SystemRule (s : Process) : ProcAct → Prop
  | .fork (some pid) => 0 < pid ∧ pid ∉ s.unreaped
  | .waitpid (.pid p) => p ∈ s.unreaped ∧
      ∀ call, s.pc = .waiting call → 0 < call.pid → call.pid = p
  | .safeExit killErr | .sigint killErr => ∀ p ∈ s.unreaped, killErr p = false
  | _ => True

/-- `SIGINT` does not arrive between a reap and the lock taken to record it, and a full list can
grow. -/
def Timely (s : Process) : ProcAct → Prop
  | .clAdd realloc => s.children.len = s.children.cap → realloc = true
  | .sigint _ => ∀ call pid, s.pc ≠ .reaped call pid
  | _ => True

/-- The record is the system's account. -/
def Recorded (cl : ChildList) (children : Finset Nat) : Prop :=
  cl.pids.Nodup ∧ cl.pids.toFinset = children

/-- What the four calls and `safe_exit` promise together. -/
def ChildrenOk (s : Process) : Prop :=
  match s.pc with
  | .idle _ => Recorded s.children s.unreaped
  | .exited log => log.killed.Nodup ∧ log.killed.toFinset = s.unreaped ∧ log.waited = log.killed
  | _ => True

/-! ## The invariant -/

/-- Where the lock is held. -/
def Pc.locks : Pc → Bool
  | .forking | .forked _ | .forkDone _ | .checkingRoot _ | .removing _ _ | .removed _ _
  | .exited _ => true
  | _ => false

/-- The children that are to be on record: a new child is not yet, a reaped one still is. -/
def Pc.onRecord (unreaped : Finset Nat) : Pc → Finset Nat
  | .forked pid => unreaped.erase pid
  | .reaped _ pid | .removing _ pid => insert pid unreaped
  | _ => unreaped

/-- The pid a step in progress is about, in the system's account or out of it. -/
def Pc.Due (unreaped : Finset Nat) : Pc → Prop
  | .forked pid => pid ∈ unreaped
  | .reaped _ pid | .removing _ pid => pid ∉ unreaped
  | _ => True

structure ProcInv (s : Process) : Prop where
  root : s.root = true
  locked : s.locked = s.pc.locks
  blocked : s.blocked = s.pc.locks
  due : s.pc.Due s.unreaped
  recorded : Recorded s.children (s.pc.onRecord s.unreaped)

/-- A call that returns from its wait, or looks at the clock, owes nothing. -/
theorem waitReturn_quiet (call : WaitCall) (ret : Int) (unreaped : Finset Nat) :
    (Process.waitReturn call ret).locks = false ∧ (Process.waitReturn call ret).Due unreaped ∧
      (Process.waitReturn call ret).onRecord unreaped = unreaped ∧
      ∀ log, Process.waitReturn call ret ≠ .exited log := by
  cases call with
  | safeWaitpidTimed pid timeout =>
    by_cases hzero : ret = 0
    · rw [Process.waitReturn, if_pos hzero]
      exact ⟨rfl, trivial, rfl, nofun⟩
    · rw [Process.waitReturn, if_neg hzero]
      exact ⟨rfl, trivial, rfl, nofun⟩
  | _ => exact ⟨rfl, trivial, rfl, nofun⟩

/-- `safe_exit` works through the whole record. -/
theorem killChildren_eq (cl : ChildList) (killErr : Nat → Bool) :
    Process.killChildren cl killErr = ⟨cl.pids, cl.pids.filter fun p => !killErr p⟩ := by
  have hloop : ∀ (l : List Nat) (log : ExitLog), l.foldl (fun log i =>
      ({ killed := log.killed ++ [cl.clGet i]
         waited := if killErr (cl.clGet i) then log.waited else log.waited ++ [cl.clGet i] } : ExitLog)) log =
      ⟨log.killed ++ l.map cl.clGet, log.waited ++ (l.map cl.clGet).filter fun p => !killErr p⟩ := by
    intro l
    induction l with
    | nil =>
      intro log
      simp only [List.foldl_nil, List.map_nil, List.filter_nil, List.append_nil]
    | cons i l ih =>
      intro log
      rw [List.foldl_cons, ih]
      cases hkill : killErr (cl.clGet i) <;> simp [hkill]
  have hpids : (List.range cl.len).map cl.clGet = cl.pids := by
    apply List.ext_getElem
    · rw [List.length_map, List.length_range, cl.length_pids]
    · intro i hi hi'
      have hlt : i < cl.buf.length := Nat.lt_of_lt_of_le hi' (List.length_take_le' cl.len cl.buf)
      simp only [List.getElem_map, List.getElem_range, ChildList.clGet, ChildList.pids, List.getElem_take,
        List.getD_eq_getElem _ _ hlt]
  rw [Process.killChildren, hloop, hpids]
  rfl

/-- `safe_exit` on a true record kills and waits for every child. -/
theorem ProcInv.safeExit {s : Process} {killErr : Nat → Bool} (h : ProcInv s)
    (hlocked : s.locked = false) (hrec : s.pc.onRecord s.unreaped = s.unreaped)
    (hkill : ∀ p ∈ s.unreaped, killErr p = false) :
    ProcInv (s.safeExit killErr) ∧ ChildrenOk (s.safeExit killErr) := by
  obtain ⟨hnodup, hpids⟩ := h.recorded
  rw [hrec] at hpids
  have hwaited : (s.children.pids.filter fun p => !killErr p) = s.children.pids := by
    refine List.filter_eq_self.mpr fun p hp => ?_
    rw [hkill p (hpids ▸ List.mem_toFinset.mpr hp)]
    rfl
  have hlog : s.safeExit killErr = s.lockCoreState (.exited ⟨s.children.pids, s.children.pids⟩) := by
    rw [Process.safeExit, hlocked, h.root, killChildren_eq, hwaited]
    rfl
  rw [hlog]
  exact ⟨⟨h.root, rfl, rfl, trivial, hnodup, hpids⟩, hnodup, hpids, rfl⟩

theorem procInv_init : ProcInv .initCoreState where
  root := rfl
  locked := rfl
  blocked := rfl
  due := trivial
  recorded := ⟨List.nodup_nil, rfl⟩

/-- A record that is one pid short takes it in. -/
theorem Recorded.add {cl cl' : ChildList} {pid : Nat} {children : Finset Nat}
    (h : Recorded cl (children.erase pid)) (hmem : pid ∈ children) (hadd : cl'.pids = cl.pids ++ [pid]) :
    Recorded cl' children := by
  obtain ⟨hnodup, hpids⟩ := h
  have hnew : pid ∉ cl.pids := by
    intro hold
    have hold' := List.mem_toFinset.mpr hold
    rw [hpids] at hold'
    exact Finset.notMem_erase pid children hold'
  refine ⟨?_, ?_⟩
  · rw [hadd]
    exact List.Nodup.append hnodup (List.nodup_singleton pid) (List.disjoint_singleton.mpr hnew)
  · ext p
    rw [List.mem_toFinset, hadd, List.mem_append, ← List.mem_toFinset, hpids, Finset.mem_erase,
      List.mem_singleton]
    by_cases hp : p = pid
    · simp only [hp, hmem, or_true]
    · simp only [hp, ne_eq, not_false_eq_true, true_and, or_false]

/-- A record that is one pid over gives it up. -/
theorem Recorded.remove {cl : ChildList} {pid : Nat} {children : Finset Nat}
    (h : Recorded cl (insert pid children)) (hnot : pid ∉ children) :
    Recorded (cl.clRemove (cl.clIndex pid)) children ∧ cl.clIndex pid ≠ cl.len := by
  obtain ⟨hnodup, hpids⟩ := h
  have hmem : pid ∈ cl.pids := by
    rw [← List.mem_toFinset, hpids]
    exact Finset.mem_insert_self pid children
  refine ⟨⟨?_, ?_⟩, ?_⟩
  · rw [ChildList.pids_remove hmem]
    exact hnodup.erase pid
  · rw [ChildList.pids_remove hmem]
    ext p
    rw [List.mem_toFinset, hnodup.mem_erase_iff, ← List.mem_toFinset, hpids, Finset.mem_insert]
    constructor
    · rintro ⟨hne, heq | hp⟩
      · exact absurd heq hne
      · exact hp
    · intro hp
      exact ⟨fun heq => hnot (heq ▸ hp), .inr hp⟩
  · rw [← cl.length_pids]
    exact Nat.ne_of_lt (List.idxOf_lt_length_of_mem hmem)

/-- The state after `safe_exit`, and between calls, is as promised. -/
theorem ProcInv.ok {s : Process} (h : ProcInv s) (hrun : ∀ log, s.pc ≠ .exited log) : ChildrenOk s := by
  have hrec := h.recorded
  unfold ChildrenOk
  cases hpc : s.pc with
  | idle ret =>
    rw [hpc] at hrec
    exact hrec
  | exited log => exact absurd hpc (hrun log)
  | _ => trivial

section

variable {s m : Process} {pc : Pc}

/-- The lock is taken or given back, and the record and the account are the same. -/
theorem ProcInv.setLock {b : Bool} (h : ProcInv s) (hlocks : pc.locks = b) (hdue : pc.Due s.unreaped)
    (hon : pc.onRecord s.unreaped = s.pc.onRecord s.unreaped) :
    ProcInv { s with locked := b, blocked := b, pc := pc } where
  root := h.root
  locked := hlocks.symm
  blocked := hlocks.symm
  due := hdue
  recorded := by
    show Recorded s.children (pc.onRecord s.unreaped)
    rw [hon]
    exact h.recorded

/-- The process goes on, with the lock as it was. -/
theorem ProcInv.goto (h : ProcInv s) (hlocks : pc.locks = s.pc.locks) (hdue : pc.Due s.unreaped)
    (hon : pc.onRecord s.unreaped = s.pc.onRecord s.unreaped) : ProcInv { s with pc := pc } where
  root := h.root
  locked := h.locked.trans hlocks.symm
  blocked := h.blocked.trans hlocks.symm
  due := hdue
  recorded := by
    show Recorded s.children (pc.onRecord s.unreaped)
    rw [hon]
    exact h.recorded

/-- `fork` answers. A child has a pid of its own, so that the record is short by it alone. -/
theorem ProcInv.fork {res : Option Nat} (h : ProcInv s) (hsys : SystemRule s (.fork res))
    (hstep : procStep s (.fork res) = some m) : ProcInv m ∧ ∀ log, m.pc ≠ .exited log := by
  simp only [procStep] at hstep
  split at hstep
  · rename_i hpc
    cases hstep
    exact ⟨h.goto (by rw [hpc]; rfl) trivial (by rw [hpc]; rfl), nofun⟩
  · rename_i pid hpc
    obtain ⟨hroot, hlocked, hblocked, -, hrec⟩ := h
    rw [hpc] at hlocked hblocked hrec
    cases hstep
    refine ⟨⟨hroot, hlocked, hblocked, Finset.mem_insert_self pid s.unreaped, ?_⟩, nofun⟩
    show Recorded s.children ((insert pid s.unreaped).erase pid)
    rw [Finset.erase_insert hsys.2]
    exact hrec
  · cases hstep

/-- The child is recorded, as the list can grow. -/
theorem ProcInv.clAdd {realloc : Bool} (h : ProcInv s) (hok : Timely s (.clAdd realloc))
    (hstep : procStep s (.clAdd realloc) = some m) : ProcInv m ∧ ∀ log, m.pc ≠ .exited log := by
  obtain ⟨hroot, hlocked, hblocked, hdue, hrec⟩ := h
  simp only [procStep] at hstep
  split at hstep
  · rename_i pid hpc
    rw [hpc] at hlocked hblocked hdue hrec
    cases hstep
    rcases s.children.clAdd_cases pid realloc with ⟨cl, hadd, hpids⟩ | ⟨-, hfull, hrealloc⟩
    · rw [hadd]
      exact ⟨⟨hroot, hlocked, hblocked, trivial, Recorded.add hrec hdue hpids⟩, nofun⟩
    · cases hrealloc.symm.trans (hok hfull)
  · cases hstep

/-- `waitpid` answers. A pid it reaps is one over on the record. -/
theorem ProcInv.waitpid {res : WaitRes} (h : ProcInv s) (hsys : SystemRule s (.waitpid res))
    (hstep : procStep s (.waitpid res) = some m) : ProcInv m ∧ ∀ log, m.pc ≠ .exited log := by
  have hreturn : ∀ {call} ret, s.pc = .waiting call →
      ProcInv { s with pc := Process.waitReturn call ret } ∧
        ∀ log, Process.waitReturn call ret ≠ .exited log := by
    intro call ret hpc
    obtain ⟨hlocks, hdue, hon, hne⟩ := waitReturn_quiet call ret s.unreaped
    exact ⟨h.goto (by rw [hlocks, hpc]; rfl) hdue (by rw [hon, hpc]; rfl), hne⟩
  simp only [procStep] at hstep
  split at hstep
  · rename_i call p hpc
    obtain ⟨hroot, hlocked, hblocked, -, hrec⟩ := h
    rw [hpc] at hlocked hblocked hrec
    cases hstep
    refine ⟨⟨hroot, hlocked, hblocked, Finset.notMem_erase p s.unreaped, ?_⟩, nofun⟩
    show Recorded s.children (insert p (s.unreaped.erase p))
    rw [Finset.insert_erase hsys.1]
    exact hrec
  · rename_i call hpc
    cases hstep
    exact hreturn 0 hpc
  · rename_i call hpc
    cases hstep
    exact ⟨h, by rw [hpc]; nofun⟩
  · rename_i call hpc
    cases hstep
    exact hreturn (-1) hpc
  · cases hstep

/-- The reaped pid is taken off the record. -/
theorem ProcInv.clRemove (h : ProcInv s) (hstep : procStep s .clRemove = some m) :
    ProcInv m ∧ ∀ log, m.pc ≠ .exited log := by
  obtain ⟨hroot, hlocked, hblocked, hdue, hrec⟩ := h
  simp only [procStep] at hstep
  split at hstep
  · rename_i call pid hpc
    rw [hpc] at hlocked hblocked hdue hrec
    obtain ⟨hremoved, hfound⟩ := Recorded.remove hrec hdue
    rw [if_neg hfound] at hstep
    cases hstep
    exact ⟨⟨hroot, hlocked, hblocked, trivial, hremoved⟩, nofun⟩
  · cases hstep

/-- Unblocked and with no reaped child on record, the record is the system's account. -/
theorem ProcInv.sigint {killErr : Nat → Bool} (h : ProcInv s) (hsys : SystemRule s (.sigint killErr))
    (hok : Timely s (.sigint killErr)) (hstep : procStep s (.sigint killErr) = some m) :
    ProcInv m ∧ ChildrenOk m := by
  simp only [procStep] at hstep
  split at hstep
  · cases hstep
  · rename_i hblock
    cases hstep
    have hlocks : s.pc.locks = false := h.blocked ▸ Bool.eq_false_iff.mpr hblock
    have hon : s.pc.onRecord s.unreaped = s.unreaped := by
      cases hpc : s.pc with
      | reaped call pid => exact absurd hpc (hok call pid)
      | forked pid => rw [hpc] at hlocks; cases hlocks
      | removing call pid => rw [hpc] at hlocks; cases hlocks
      | _ => rfl
    exact h.safeExit (h.locked.trans hlocks) hon hsys

end

/-- **One step** keeps the invariant and the promise. -/
theorem procStep_inv {s m : Process} {a : ProcAct} (h : ProcInv s) (hsys : SystemRule s a)
    (hok : Timely s a) (hstep : procStep s a = some m) : ProcInv m ∧ ChildrenOk m := by
  have hrun : ∀ {m : Process}, (ProcInv m ∧ ∀ log, m.pc ≠ .exited log) → ProcInv m ∧ ChildrenOk m :=
    fun hm => ⟨hm.1, hm.1.ok hm.2⟩
  cases a with
  | fork res => exact hrun (h.fork hsys hstep)
  | clAdd realloc => exact hrun (h.clAdd hok hstep)
  | waitpid res => exact hrun (h.waitpid hsys hstep)
  | clRemove => exact hrun (h.clRemove hstep)
  | sigint killErr => exact h.sigint hsys hok hstep
  | safeFork =>
    simp only [procStep] at hstep
    split at hstep
    · rename_i ret hpc
      rw [if_pos h.root] at hstep
      cases hstep
      exact hrun ⟨h.setLock rfl trivial (by rw [hpc]; rfl), nofun⟩
    · cases hstep
  | wait call =>
    simp only [procStep] at hstep
    split at hstep
    · rename_i ret hpc
      cases hstep
      exact hrun ⟨h.setLock rfl trivial (by rw [hpc]; rfl), nofun⟩
    · cases hstep
  | wrlock =>
    simp only [procStep] at hstep
    split at hstep
    · rename_i call pid hpc
      have hdue := h.due
      rw [hpc] at hdue
      cases hstep
      exact hrun ⟨h.setLock rfl hdue (by rw [hpc]; rfl), nofun⟩
    · cases hstep
  | unlock =>
    simp only [procStep] at hstep
    split at hstep
    · rename_i ret hpc
      cases hstep
      exact hrun ⟨h.setLock rfl trivial (by rw [hpc]; rfl), nofun⟩
    · rename_i call hpc
      rw [if_pos h.root] at hstep
      cases hstep
      exact hrun ⟨h.setLock rfl trivial (by rw [hpc]; rfl), nofun⟩
    · rename_i call pid hpc
      cases hstep
      obtain ⟨hlocks, hdue, hon, hne⟩ := waitReturn_quiet call pid s.unreaped
      exact hrun ⟨h.setLock hlocks hdue (by rw [hon, hpc]; rfl), hne⟩
    · cases hstep
  | time elapsed =>
    simp only [procStep] at hstep
    split at hstep
    · rename_i pid timeout hpc
      split at hstep
      · cases hstep
        exact hrun ⟨h.goto (by rw [hpc]; rfl) trivial (by rw [hpc]; rfl), nofun⟩
      · cases hstep
        exact hrun ⟨h.setLock rfl trivial (by rw [hpc]; rfl), nofun⟩
    · cases hstep
  | safeKillAndReap pid =>
    simp only [procStep] at hstep
    split at hstep
    · rename_i ret hpc
      cases hstep
      exact hrun ⟨h.goto (by rw [hpc]; rfl) trivial (by rw [hpc]; rfl), nofun⟩
    · cases hstep
  | kill err =>
    simp only [procStep] at hstep
    split at hstep
    · rename_i pid hpc
      split at hstep
      · cases hstep
        exact hrun ⟨h.goto (by rw [hpc]; rfl) trivial (by rw [hpc]; rfl), nofun⟩
      · cases hstep
        exact hrun ⟨h.setLock rfl trivial (by rw [hpc]; rfl), nofun⟩
    · cases hstep
  | safeExit killErr =>
    simp only [procStep] at hstep
    split at hstep
    · rename_i ret hpc
      cases hstep
      exact h.safeExit (h.locked.trans (by rw [hpc]; rfl)) (by rw [hpc]; rfl) hsys
    · cases hstep

/-- The run lemma. -/
theorem procInv_reach {s : Process}
    (h : Reaches procStep (fun s a => SystemRule s a ∧ Timely s a) .initCoreState s) :
    ProcInv s ∧ ChildrenOk s := by
  have hstep : ∀ m a m', ProcInv m ∧ ChildrenOk m → SystemRule m a ∧ Timely m a →
      procStep m a = some m' → ProcInv m' ∧ ChildrenOk m' :=
    fun _ _ _ hm hok hstep => procStep_inv hm.1 hok.1 hok.2 hstep
  have hrun := h.invariant hstep ⟨procInv_init, procInv_init.ok nofun⟩
  exact hrun

/-- The first step out of time breaks a promise: the handler kills a pid that was reaped, or the child
that found no place is missing between the calls. -/
theorem untimely_breaks {s m : Process} {a : ProcAct} (h : ProcInv s) (hsys : SystemRule s a)
    (hstep : procStep s a = some m) (hbad : ¬ Timely s a) :
    ¬ ChildrenOk m ∨ ∃ t, procStep m .unlock = some t ∧ ¬ ChildrenOk t := by
  cases a with
  | clAdd realloc =>
    obtain ⟨hfull, hfail⟩ := Classical.not_imp.mp hbad
    simp only [procStep] at hstep
    split at hstep
    · rename_i pid hpc
      cases hstep
      refine .inr ⟨_, rfl, fun hok => ?_⟩
      obtain ⟨-, hpids⟩ := h.recorded
      have hdue := h.due
      rw [hpc] at hpids hdue
      have hadd : s.children.clAdd pid realloc = none := by
        rw [ChildList.clAdd, dif_neg (Nat.not_lt.mpr hfull.ge), if_neg hfail]
      -- the list is as it was, without the new child
      have hsame : (((s.children.clAdd pid realloc).getD s.children).pids).toFinset = s.unreaped := hok.2
      have hshort : s.unreaped.erase pid = s.unreaped := by
        rw [hadd, Option.getD_none, hpids] at hsame
        exact hsame
      have hgone := Finset.notMem_erase pid s.unreaped
      rw [hshort] at hgone
      exact hgone hdue
    · cases hstep
  | sigint killErr =>
    obtain ⟨call, pid, hpc⟩ : ∃ call pid, s.pc = .reaped call pid := by
      by_contra hnone
      exact hbad fun call pid hpc => hnone ⟨call, pid, hpc⟩
    simp only [procStep] at hstep
    split at hstep
    · cases hstep
    · cases hstep
      refine .inl fun hok => ?_
      obtain ⟨-, hpids⟩ := h.recorded
      have hdue := h.due
      have hlocked := h.locked
      rw [hpc] at hpids hdue hlocked
      -- the reaped pid is still on record, so that it is killed with the rest
      have hlog : s.safeExit killErr =
          s.lockCoreState (.exited (Process.killChildren s.children killErr)) := by
        rw [Process.safeExit, hlocked, h.root]
        rfl
      rw [hlog, killChildren_eq] at hok
      have hkilled : s.children.pids.toFinset = s.unreaped := hok.2.1
      rw [hpids] at hkilled
      exact hdue (hkilled ▸ Finset.mem_insert_self pid s.unreaped)
  | _ => exact absurd trivial hbad

/-- **Exit kills the live children.** In a run in which `SIGINT` never arrives between a reap and
the lock taken to record it, and the list can grow, the record is the system's account between calls,
and `safe_exit` kills and waits for exactly the children that were not reaped; the first step that
breaks the condition can be followed by a broken promise. -/
theorem exit_kills_live_children (s : Process) :
    (Reaches procStep (fun s a => SystemRule s a ∧ Timely s a) .initCoreState s → ChildrenOk s) ∧
      ∀ a m, Reaches procStep (fun s a => SystemRule s a ∧ Timely s a) .initCoreState s →
        SystemRule s a → procStep s a = some m → ¬ Timely s a →
          ∃ t, Reaches procStep SystemRule m t ∧ ¬ ChildrenOk t := by
  constructor
  · intro hreach
    exact (procInv_reach hreach).2
  · intro a m hreach hsys hstep hbad
    rcases untimely_breaks (procInv_reach hreach).1 hsys hstep hbad with hbroken | ⟨t, hunlock, hbroken⟩
    · exact ⟨m, .refl m, hbroken⟩
    · have hrule : SystemRule m .unlock := trivial
      exact ⟨t, (Reaches.refl m).snoc hrule hunlock, hbroken⟩

/-- Two children are forked, the first is waited for, and `SIGINT` arrives: the handler kills the second. -/
theorem exit_kills_second_child : ∃ s log, Reaches procStep (fun s a => SystemRule s a ∧ Timely s a)
    .initCoreState s ∧ s.pc = .exited log ∧ log.killed = [9] ∧ ChildrenOk s := by
  have hstart : Reaches procStep (fun s a => SystemRule s a ∧ Timely s a) .initCoreState .initCoreState :=
    .refl _
  have hlocked := hstart.snoc (a := ProcAct.safeFork) ⟨trivial, trivial⟩ rfl
  have hforked := hlocked.snoc (a := ProcAct.fork (some 7)) ⟨⟨by decide, Finset.notMem_empty 7⟩, trivial⟩ rfl
  have hrecorded := hforked.snoc (a := ProcAct.clAdd true) ⟨trivial, fun _ => rfl⟩ rfl
  have hfirst := hrecorded.snoc (a := ProcAct.unlock) ⟨trivial, trivial⟩ rfl
  have hlocked := hfirst.snoc (a := ProcAct.safeFork) ⟨trivial, trivial⟩ rfl
  have hforked := hlocked.snoc (a := ProcAct.fork (some 9)) ⟨⟨by decide, by decide⟩, trivial⟩ rfl
  have hrecorded := hforked.snoc (a := ProcAct.clAdd true) ⟨trivial, fun _ => rfl⟩ rfl
  have hsecond := hrecorded.snoc (a := ProcAct.unlock) ⟨trivial, trivial⟩ rfl
  have hchecking := hsecond.snoc (a := ProcAct.wait (.safeWaitpid 7 0)) ⟨trivial, trivial⟩ rfl
  have hwaiting := hchecking.snoc (a := ProcAct.unlock) ⟨trivial, trivial⟩ rfl
  have hreaped := hwaiting.snoc (a := ProcAct.waitpid (.pid 7))
    ⟨⟨by decide, fun call hcall _ => by cases hcall; rfl⟩, trivial⟩ rfl
  have hremoving := hreaped.snoc (a := ProcAct.wrlock) ⟨trivial, trivial⟩ rfl
  have hremoved := hremoving.snoc (a := ProcAct.clRemove) ⟨trivial, trivial⟩ rfl
  have hreturned := hremoved.snoc (a := ProcAct.unlock) ⟨trivial, trivial⟩ rfl
  have hexit := hreturned.snoc (a := ProcAct.sigint fun _ => false)
    ⟨fun _ _ => rfl, fun call pid hpc => by cases hpc⟩ rfl
  exact ⟨_, _, hexit, rfl, rfl, (exit_kills_live_children _).1 hexit⟩

/-- A child is reaped, and `SIGINT` arrives before `safe_waitpid` takes the lock: the handler sends
`SIGKILL` to a pid that is no child any more. -/
theorem reaped_child_killed :
    ¬ ∀ s, Reaches procStep SystemRule .initCoreState s → ChildrenOk s := by
  intro h
  have hstart : Reaches procStep SystemRule .initCoreState .initCoreState := .refl _
  have hlocked := hstart.snoc (a := ProcAct.safeFork) trivial rfl
  have hforked := hlocked.snoc (a := ProcAct.fork (some 7)) ⟨by decide, Finset.notMem_empty 7⟩ rfl
  have hrecorded := hforked.snoc (a := ProcAct.clAdd true) trivial rfl
  have hreturned := hrecorded.snoc (a := ProcAct.unlock) trivial rfl
  have hchecking := hreturned.snoc (a := ProcAct.wait (.safeWaitpid 7 0)) trivial rfl
  have hwaiting := hchecking.snoc (a := ProcAct.unlock) trivial rfl
  have hreaped := hwaiting.snoc (a := ProcAct.waitpid (.pid 7))
    ⟨Finset.mem_insert_self 7 ∅, fun call hcall _ => by cases hcall; rfl⟩ rfl
  have hexit := hreaped.snoc (a := ProcAct.sigint fun _ => false) (fun _ _ => rfl) rfl
  have hkilled := (h _ hexit).2.1
  exact absurd hkilled (by decide)

end Chvm.Core
