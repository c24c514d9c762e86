import Chvm.Core.Io
import Chvm.Lib.Prog

/-!
# The core lock (`sys.c`, `mem.c`)

The calls of the core, with every place where they take or give back `core_lock` and block or unblock
`SIGINT`, as one thread runs them. The system's answers are C's integers, errors included. What other
threads may change under the lock (`quiet`, the counters, the child list) is read as an answer as well;
`root` is the process's own: it is assigned in a new child only, which has one thread.
-/

set_option autoImplicit false

namespace Chvm.Core.Lock

open Chvm.Lib
open Prog (call Wp)

inductive Hold
  | read
  | write
deriving DecidableEq, Repr

/-- One thread: its process's role, its holds of `core_lock`, and whether it blocks `SIGINT`. -/
structure CoreThread where
  root : Bool
  holds : List Hold
  sigint : Bool
deriving DecidableEq, Repr

/-- What the calls ask of the system, and of the core state. -/
inductive CoreOp
  | rdlock
  | wrlock
  | unlock
  | editSigint (block : Bool)
  | blockSigint
  | restoreSigmask (old : Int)
  | root
  | setRoot (root : Bool)
  | quiet
  | setQuiet (q : UInt8)
  | numMemChnls
  | memChnl (chnl : Nat)
  | addMemChnl (chnl : Int) (d : Int)
  | malloc (size : Nat)
  | realloc (ptr size : Nat)
  | free (ptr : Nat)
  | chnlByte (ptr : Nat)
  | setChnlByte (ptr : Int) (chnl : UInt8)
  | printf
  | fork
  | clAdd (pid : Int)
  | deleteChildList
  /-- The search of `safe_waitpid`: the first place of the pid, or `len`. -/
  | clIndex (pid : Int)
  | clLen
  | clRemove (i : Int)
  | waitpid (pid : Int) (opts : Nat)
  | kill (pid : Int)
  | errno
  | time
  | usleep
  /-- `safe_exit`: the process ends. -/
  | safeExit (code : Int)
  /-- A loop that has run out of its fuel: it has not ended. -/
  | looping
deriving DecidableEq, Repr

/-- What an answer does to the thread. A lock that the thread waits for itself is never got; a read lock
may be taken twice. -/
@[simp] def coreStep : CoreOp → CoreThread → Int → Option CoreThread
  | .rdlock, s, err =>
    if err ≠ 0 then some s
    else if .write ∈ s.holds then none
    else some { s with holds := .read :: s.holds }
  | .wrlock, s, err =>
    if err ≠ 0 then some s
    else if s.holds ≠ [] then none
    else some { s with holds := [.write] }
  | .unlock, s, err =>
    if err ≠ 0 then some s
    else
      match s.holds with
      | [] => none
      | _ :: holds => some { s with holds := holds }
  | .editSigint block, s, _ => some { s with sigint := block }
  | .blockSigint, s, old => if old = s.sigint.toNat then some { s with sigint := true } else none
  | .restoreSigmask old, s, _ => some { s with sigint := old ≠ 0 }
  | .root, s, root => if root = s.root.toNat then some s else none
  | .setRoot root, s, _ => some { s with root := root }
  | .safeExit _, _, _ | .looping, _, _ => none
  | _, s, _ => some s

/-- The thread waits for a lock that it holds. -/
def WaitsForItself : CoreOp → CoreThread → Prop
  | .rdlock, s => Hold.write ∈ s.holds
  | .wrlock, s => s.holds ≠ []
  | _, _ => False

abbrev CoreProg := Prog CoreOp Int

/-- An operation whose answer is not used. -/
def act (o : CoreOp) : CoreProg Unit := do
  let _ ← call o

/-! ## `sys.c`, the lock -/

/-- `vforce_core_logf` when `lck` is 0. -/
def vforceCoreLogfHeld : CoreProg Unit := do
  let _ ← call .root
  act .printf
  act .printf
  act .printf

/-- `core_logf` when `lck` is 0. -/
def coreLogfHeld : CoreProg Unit := do
  if (← call .quiet) ≠ 0 then return
  vforceCoreLogfHeld

/-- `_rdlock_core_state`. -/
def rdlockCoreState : CoreProg Unit := do
  act (.editSigint true)
  if (← call .rdlock) ≠ 0 then
    coreLogfHeld
    act (.safeExit 1)

/-- `_wrlock_core_state`. -/
def wrlockCoreState : CoreProg Unit := do
  act (.editSigint true)
  if (← call .wrlock) ≠ 0 then
    coreLogfHeld
    act (.safeExit 1)

/-- `_unlock_core_state`. -/
def unlockCoreState : CoreProg Unit := do
  if (← call .unlock) ≠ 0 then
    coreLogfHeld
    act (.safeExit 1)
  act (.editSigint false)

/-- `set_core_quiet`. -/
def setCoreQuiet (q : UInt8) : CoreProg Unit := do
  wrlockCoreState
  act (.setQuiet q)
  unlockCoreState

/-- `core_get_quiet`. -/
def coreGetQuiet (lck : Bool) : CoreProg Int := do
  if lck then rdlockCoreState
  let q ← call .quiet
  if lck then unlockCoreState
  return q

/-- `vforce_core_logf`. -/
def vforceCoreLogf (lck : Bool) : CoreProg Unit := do
  if lck then rdlockCoreState
  let _ ← call .root
  if lck then unlockCoreState
  let old ← if lck then call .blockSigint else pure 0
  act .printf
  act .printf
  act .printf
  if lck then act (.restoreSigmask old)

/-- `core_logf`. -/
def coreLogf (lck : Bool) : CoreProg Unit := do
  if (← coreGetQuiet lck) ≠ 0 then return
  vforceCoreLogf lck

/-! ## `mem.c` -/

/-- `try_safe_malloc`; 0 is `NULL`. -/
def trySafeMalloc (chnl : UInt8) (size : Nat) : CoreProg Int := do
  let rawPtr ← call (.malloc (size + 1))
  if rawPtr ≠ 0 then
    act (.setChnlByte rawPtr chnl)
    wrlockCoreState
    act (.addMemChnl chnl.toNat 1)
    unlockCoreState
    return rawPtr + 1
  return 0

/-- `safe_malloc`. -/
def safeMalloc (chnl : UInt8) (size : Nat) : CoreProg Int := do
  let ptr ← trySafeMalloc chnl size
  if ptr ≠ 0 then return ptr
  coreLogf true
  act (.safeExit 1)
  return 0

/-- `try_safe_realloc`. -/
def trySafeRealloc (ptr size : Nat) : CoreProg Int := do
  let newRawPtr ← call (.realloc (ptr - 1) (size + 1))
  if newRawPtr ≠ 0 then return newRawPtr + 1
  return 0

/-- `safe_realloc`. -/
def safeRealloc (ptr size : Nat) : CoreProg Int := do
  let newPtr ← trySafeRealloc ptr size
  if newPtr ≠ 0 then return newPtr
  coreLogf true
  act (.safeExit 1)
  return 0

/-- `safe_free`. -/
def safeFree (ptr : Nat) : CoreProg Unit := do
  let chnl ← call (.chnlByte (ptr - 1))
  wrlockCoreState
  act (.addMemChnl chnl (-1))
  unlockCoreState
  act (.free (ptr - 1))

/-- The loop of `check_memory_leaks`, over the channels that are left. -/
def findLeak : List Nat → CoreProg Int
  | [] => do
    unlockCoreState
    return 0
  | chnl :: chnls => do
    if (← call (.memChnl chnl)) ≠ 0 then
      unlockCoreState
      return 1
    findLeak chnls

/-- `check_memory_leaks`. -/
def checkMemoryLeaks (lb : UInt8) : CoreProg Int := do
  rdlockCoreState
  let num ← call .numMemChnls
  findLeak (List.range' lb.toNat (num.toNat - lb.toNat))

/-! ## `sys.c`, the processes -/

/-- `safe_fork`. -/
def safeFork : CoreProg Int := do
  wrlockCoreState
  if (← call .root) = 0 then
    unlockCoreState
    return -1
  let fres ← call .fork
  if fres = -1 then
    unlockCoreState
    return -1
  if fres = 0 then
    act (.setRoot false)
    act .deleteChildList
    unlockCoreState
    return 0
  if (← call (.clAdd fres)) = -1 then coreLogfHeld
  unlockCoreState
  return fres

/-- The loop of `safe_waitpid`: a pid, 0, or -1 for a hard error. -/
def waitpidLoop (pid : Int) (opts : Nat) : Nat → CoreProg Int
  | 0 => call .looping
  | fuel + 1 => do
    let res ← call (.waitpid pid opts)
    if res ≠ -1 then return res
    if (← call .errno) ≠ eintr then return -1
    waitpidLoop pid opts fuel

/-- `safe_waitpid`. -/
def safeWaitpid (fuel : Nat) (pid : Int) (opts : Nat) : CoreProg Int := do
  rdlockCoreState
  -- the lock is not given back here
  if (← call .root) = 0 then return -1
  unlockCoreState
  let res ← waitpidLoop pid opts fuel
  if res > 0 then
    wrlockCoreState
    let i ← call (.clIndex res)
    if i = (← call .clLen) then coreLogfHeld
    else act (.clRemove i)
    unlockCoreState
  return res

/-- `WNOHANG`. -/
def wnohang : Nat := 1

/-- The loop of `safe_waitpid_timed`. -/
def timedLoop (fuel : Nat) (pid start timeout : Int) : Nat → CoreProg Int
  | 0 => call .looping
  | turns + 1 => do
    let res ← safeWaitpid fuel pid wnohang
    if res > 0 then return res
    if res = -1 then return -1
    if (← call .time) - start ≥ timeout then return -2
    act .usleep
    timedLoop fuel pid start timeout turns

/-- `safe_waitpid_timed`. -/
def safeWaitpidTimed (fuel : Nat) (pid timeout : Int) : CoreProg Int := do
  let start ← call .time
  timedLoop fuel pid start timeout fuel

/-- `safe_kill_and_reap`. -/
def safeKillAndReap (fuel : Nat) (pid : Int) : CoreProg Int := do
  if (← call (.kill pid)) ≠ 0 then return -1
  if (← safeWaitpid fuel pid 0) = -1 then return -1
  return 0

/-! ## A thread that makes these calls -/

inductive CoreCall
  | safeMalloc (chnl : UInt8) (size : Nat)
  | safeRealloc (ptr size : Nat)
  | safeFree (ptr : Nat)
  | checkMemoryLeaks (lb : UInt8)
  | setCoreQuiet (q : UInt8)
  | coreLogf (lck : Bool)
  | safeFork
  | safeWaitpid (pid : Int) (opts : Nat)
  | safeWaitpidTimed (pid timeout : Int)
  | safeKillAndReap (pid : Int)
deriving DecidableEq, Repr

/-- The calls that wait for a child. -/
def CoreCall.waits : CoreCall → Bool
  | .safeWaitpid .. | .safeWaitpidTimed .. | .safeKillAndReap _ => true
  | _ => false

/-- The body of a call. A call that returns does so with some fuel. -/
def CoreCall.body (fuel : Nat) : CoreCall → CoreProg Int
  | .safeMalloc chnl size => Lock.safeMalloc chnl size
  | .safeRealloc ptr size => Lock.safeRealloc ptr size
  | .safeFree ptr => do Lock.safeFree ptr; return 0
  | .checkMemoryLeaks lb => Lock.checkMemoryLeaks lb
  | .setCoreQuiet q => do Lock.setCoreQuiet q; return 0
  | .coreLogf lck => do Lock.coreLogf lck; return 0
  | .safeFork => Lock.safeFork
  | .safeWaitpid pid opts => Lock.safeWaitpid fuel pid opts
  | .safeWaitpidTimed pid timeout => Lock.safeWaitpidTimed fuel pid timeout
  | .safeKillAndReap pid => Lock.safeKillAndReap fuel pid

abbrev CoreClient := Client CoreOp Int Int CoreThread

/-- The thread that has called `init_core_state`. -/
def CoreClient.new : CoreClient := { state := { root := true, holds := [], sigint := false }, prog := none }

/-! ## What the parts do to the lock -/

/-- A lock is taken with no hold, and given back with one. -/
def Orderly : CoreOp → CoreThread → Prop
  | .rdlock, s | .wrlock, s => s.holds = []
  | .unlock, s => s.holds ≠ []
  | _, _ => True

/-- Between two calls. -/
def Released (s : CoreThread) : Prop := s.holds = [] ∧ s.sigint = false

/-- After a lock function. -/
def CoreThread.locked (s : CoreThread) (hold : Hold) : CoreThread :=
    { s with holds := [hold], sigint := true }

/-- After `_unlock_core_state`. -/
def CoreThread.released (s : CoreThread) : CoreThread := { s with holds := [], sigint := false }

/-- The contract of a part of a call. -/
abbrev CoreWp {α : Type} (p : CoreProg α) (Q : α → CoreThread → Prop) (s : CoreThread) : Prop :=
  p.Wp coreStep Orderly Q s

theorem Released.released_locked {s : CoreThread} (h : Released s) (hold : Hold) :
    (s.locked hold).released = s := by
  obtain ⟨root, holds, sigint⟩ := s
  obtain ⟨rfl, rfl⟩ := h
  rfl

variable {α : Type} {s s' : CoreThread} {Q : Unit → CoreThread → Prop} {R : Int → CoreThread → Prop}

theorem Orderly.not_waitsForItself {o : CoreOp} (h : Orderly o s) : ¬ WaitsForItself o s := by
  cases o with
  | rdlock =>
    intro hmem
    have hnone : s.holds = [] := h
    have hin : Hold.write ∈ s.holds := hmem
    rw [hnone] at hin
    cases hin
  | wrlock => exact fun hne => hne h
  | _ => exact id

/-- An operation that leaves the thread as it is, and that asks nothing of it. -/
theorem wp_look {o : CoreOp} (hstep : ∀ i, coreStep o s i = some s) (hok : Orderly o s) (h : ∀ i, R i s) :
    CoreWp (call o) R s := by
  refine ⟨hok, fun i s' hs' => ?_⟩
  rw [hstep i] at hs'
  cases hs'
  exact h i

theorem wp_safeExit (code : Int) : CoreWp (act (.safeExit code)) Q s := ⟨trivial, nofun⟩

theorem wp_root (h : R s.root.toNat s) : CoreWp (call .root) R s := by
  refine ⟨trivial, fun i s' hstep => ?_⟩
  simp only [coreStep] at hstep
  split at hstep
  · rename_i hi
    cases hstep
    rw [hi]
    exact h
  · cases hstep

theorem wp_print (h : Q () s) : CoreWp (act .printf) Q s := wp_look (fun _ => rfl) trivial fun _ => h

/-- Logging with the lock held leaves the thread as it is. -/
theorem wp_coreLogfHeld (h : Q () s) : CoreWp coreLogfHeld Q s := by
  have hprint : CoreWp vforceCoreLogfHeld Q s :=
    Wp.bind (wp_root (Wp.bind (wp_print (Wp.bind (wp_print (wp_print h))))))
  refine Wp.bind (wp_look (fun _ => rfl) trivial fun q => ?_)
  split
  · exact h
  · exact hprint

/-- Logging, and the process ends. -/
theorem wp_giveUp : CoreWp (do coreLogfHeld; act (.safeExit 1)) Q s :=
  Wp.bind (wp_coreLogfHeld (wp_safeExit 1))

/-- The two lock functions are this part with an operation each. -/
theorem wp_lockWith {o : CoreOp} {hold : Hold}
    (ho : o = .rdlock ∧ hold = .read ∨ o = .wrlock ∧ hold = .write) (hs : s.holds = [])
    (h : Q () (s.locked hold)) :
    CoreWp (do
      act (.editSigint true)
      if (← call o) ≠ 0 then
        coreLogfHeld
        act (.safeExit 1)) Q s := by
  refine Wp.bind ⟨trivial, ?_⟩
  rintro _ _ ⟨⟩
  refine Wp.bind ⟨?_, fun err s' hstep => ?_⟩
  · rcases ho with ⟨rfl, -⟩ | ⟨rfl, -⟩ <;> exact hs
  · by_cases herr : err = 0
    · subst herr
      have hlocked : s' = s.locked hold := by
        rcases ho with ⟨rfl, rfl⟩ | ⟨rfl, rfl⟩ <;>
          · simp only [coreStep, hs] at hstep
            cases hstep
            rfl
      rw [hlocked]
      exact h
    · show CoreWp (if err ≠ 0 then _ else _) Q s'
      rw [if_pos herr]
      exact wp_giveUp

theorem wp_rdlockCoreState (hs : s.holds = []) (h : Q () (s.locked .read)) : CoreWp rdlockCoreState Q s :=
  wp_lockWith (.inl ⟨rfl, rfl⟩) hs h

theorem wp_wrlockCoreState (hs : s.holds = []) (h : Q () (s.locked .write)) : CoreWp wrlockCoreState Q s :=
  wp_lockWith (.inr ⟨rfl, rfl⟩) hs h

theorem wp_unlockCoreState {hold : Hold} (hs : s.holds = [hold]) (h : Q () s.released) :
    CoreWp unlockCoreState Q s := by
  refine Wp.bind ⟨?_, fun err s' hstep => ?_⟩
  · show s.holds ≠ []
    rw [hs]
    exact List.cons_ne_nil _ _
  · by_cases herr : err = 0
    · subst herr
      simp only [coreStep, hs] at hstep
      cases hstep
      refine ⟨trivial, ?_⟩
      rintro _ _ ⟨⟩
      exact h
    · show CoreWp (if err ≠ 0 then _ else _) Q s'
      rw [if_pos herr]
      exact Wp.bind (wp_coreLogfHeld (Wp.bind (wp_safeExit 1)))

/-! ## The contracts of the calls -/

theorem wp_setCoreQuiet {q : UInt8} (hs : Released s) (h : Q () s) : CoreWp (setCoreQuiet q) Q s := by
  refine Wp.bind (wp_wrlockCoreState hs.1 ?_)
  refine Wp.bind (wp_look (fun _ => rfl) trivial fun _ => ?_)
  refine wp_unlockCoreState rfl ?_
  rw [hs.released_locked]
  exact h

theorem wp_coreGetQuiet {lck : Bool} (hs : Released s) (h : ∀ q, R q s) : CoreWp (coreGetQuiet lck) R s := by
  cases lck with
  | false => exact wp_look (fun _ => rfl) trivial h
  | true =>
    refine Wp.bind (wp_rdlockCoreState hs.1 ?_)
    refine Wp.bind (wp_look (fun _ => rfl) trivial fun q => ?_)
    refine Wp.bind (wp_unlockCoreState rfl ?_)
    rw [hs.released_locked]
    exact h q

theorem wp_vforceCoreLogf {lck : Bool} (hs : Released s) (h : Q () s) : CoreWp (vforceCoreLogf lck) Q s := by
  cases lck with
  | false =>
    refine Wp.bind (wp_root (Wp.bind ((Prog.wp_pure 0).mpr ?_)))
    exact Wp.bind (wp_print (Wp.bind (wp_print (Wp.bind (wp_print h)))))
  | true =>
    refine Wp.bind (wp_rdlockCoreState hs.1 ?_)
    refine Wp.bind (wp_root ?_)
    refine Wp.bind (wp_unlockCoreState rfl ?_)
    rw [hs.released_locked]
    refine Wp.bind ⟨trivial, fun old s' hstep => ?_⟩
    simp only [coreStep] at hstep
    split at hstep
    · rename_i hold
      cases hstep
      refine Wp.bind (wp_print (Wp.bind (wp_print (Wp.bind (wp_print ⟨trivial, ?_⟩)))))
      rintro _ _ ⟨⟩
      have hrestored : ({ s with sigint := decide (old ≠ 0) } : CoreThread) = s := by
        obtain ⟨root, holds, sigint⟩ := s
        obtain ⟨rfl, rfl⟩ := hs
        rw [hold]
        rfl
      rw [← hrestored] at h
      exact h
    · cases hstep

theorem wp_coreLogf {lck : Bool} (hs : Released s) (h : Q () s) : CoreWp (coreLogf lck) Q s := by
  refine Wp.bind (wp_coreGetQuiet hs fun q => ?_)
  show CoreWp (if q ≠ 0 then _ else _) Q s
  split
  · exact h
  · exact wp_vforceCoreLogf hs h

/-- The end of `safe_malloc` and `safe_realloc`. -/
theorem wp_orExit (hs : Released s) (ptr : Int) (h : ∀ ptr, R ptr s) :
    CoreWp (do
      if ptr ≠ 0 then return ptr
      coreLogf true
      act (.safeExit 1)
      return 0) R s := by
  show CoreWp (if ptr ≠ 0 then _ else _) R s
  split
  · exact h ptr
  · exact Wp.bind (wp_coreLogf hs (Wp.bind (wp_safeExit 1)))

theorem wp_safeMalloc {chnl : UInt8} {size : Nat} (hs : Released s) (h : ∀ ptr, R ptr s) :
    CoreWp (safeMalloc chnl size) R s := by
  refine Wp.bind (Wp.bind (wp_look (fun _ => rfl) trivial fun rawPtr => ?_))
  show CoreWp (if rawPtr ≠ 0 then _ else _) _ s
  split
  · refine Wp.bind (wp_look (fun _ => rfl) trivial fun _ => ?_)
    refine Wp.bind (wp_wrlockCoreState hs.1 ?_)
    refine Wp.bind (wp_look (fun _ => rfl) trivial fun _ => ?_)
    refine Wp.bind (wp_unlockCoreState rfl ?_)
    rw [hs.released_locked]
    exact wp_orExit hs (rawPtr + 1) h
  · exact wp_orExit hs 0 h

theorem wp_safeRealloc {ptr size : Nat} (hs : Released s) (h : ∀ ptr, R ptr s) :
    CoreWp (safeRealloc ptr size) R s := by
  refine Wp.bind (Wp.bind (wp_look (fun _ => rfl) trivial fun newRawPtr => ?_))
  show CoreWp (if newRawPtr ≠ 0 then _ else _) _ s
  split
  · exact wp_orExit hs (newRawPtr + 1) h
  · exact wp_orExit hs 0 h

theorem wp_safeFree {ptr : Nat} (hs : Released s) (h : Q () s) : CoreWp (safeFree ptr) Q s := by
  refine Wp.bind (wp_look (fun _ => rfl) trivial fun chnl => ?_)
  refine Wp.bind (wp_wrlockCoreState hs.1 ?_)
  refine Wp.bind (wp_look (fun _ => rfl) trivial fun _ => ?_)
  refine Wp.bind (wp_unlockCoreState rfl ?_)
  rw [hs.released_locked]
  exact wp_look (fun _ => rfl) trivial fun _ => h

/-- Each way out of the loop of `check_memory_leaks` gives the lock back. -/
theorem wp_findLeak (chnls : List Nat) (hs : Released s) (h : ∀ r, R r s) :
    CoreWp (findLeak chnls) R (s.locked .read) := by
  have hout : ∀ r : Int, CoreWp (do unlockCoreState; return r) R (s.locked .read) := by
    intro r
    refine Wp.bind (wp_unlockCoreState rfl ?_)
    rw [hs.released_locked]
    exact h r
  induction chnls with
  | nil => exact hout 0
  | cons chnl chnls ih =>
    refine Wp.bind (wp_look (fun _ => rfl) trivial fun count => ?_)
    show CoreWp (if count ≠ 0 then _ else _) R (s.locked .read)
    split
    · exact hout 1
    · exact ih

theorem wp_checkMemoryLeaks {lb : UInt8} (hs : Released s) (h : ∀ r, R r s) :
    CoreWp (checkMemoryLeaks lb) R s := by
  refine Wp.bind (wp_rdlockCoreState hs.1 ?_)
  refine Wp.bind (wp_look (fun _ => rfl) trivial fun num => ?_)
  exact wp_findLeak _ hs h

/-- A fork may return in a new process. -/
theorem wp_safeFork (hs : Released s) (h : ∀ r s', Released s' → R r s') : CoreWp safeFork R s := by
  have hout : ∀ (r : Int) (s' : CoreThread), s'.holds = [.write] →
      CoreWp (do unlockCoreState; return r) R s' :=
    fun r s' hs' => Wp.bind (wp_unlockCoreState hs' (h r _ ⟨rfl, rfl⟩))
  refine Wp.bind (wp_wrlockCoreState hs.1 ?_)
  refine Wp.bind (wp_root ?_)
  show CoreWp (if (s.root.toNat : Int) = 0 then _ else _) R (s.locked .write)
  split
  · exact hout (-1) _ rfl
  · refine Wp.bind (wp_look (fun _ => rfl) trivial fun fres => ?_)
    show CoreWp (if fres = -1 then _ else _) R (s.locked .write)
    split
    · exact hout (-1) _ rfl
    · show CoreWp (if fres = 0 then _ else _) R (s.locked .write)
      split
      · -- the child
        refine Wp.bind ⟨trivial, ?_⟩
        rintro _ _ ⟨⟩
        refine Wp.bind (wp_look (fun _ => rfl) trivial fun _ => ?_)
        exact hout 0 _ rfl
      · refine Wp.bind (wp_look (fun _ => rfl) trivial fun added => ?_)
        show CoreWp (if added = -1 then _ else _) R (s.locked .write)
        split
        · exact Wp.bind (wp_coreLogfHeld (hout fres _ rfl))
        · exact hout fres _ rfl

theorem wp_waitpidLoop {pid : Int} {opts : Nat} (fuel : Nat) (h : ∀ r, R r s) :
    CoreWp (waitpidLoop pid opts fuel) R s := by
  induction fuel with
  | zero => exact ⟨trivial, nofun⟩
  | succ fuel ih =>
    refine Wp.bind (wp_look (fun _ => rfl) trivial fun res => ?_)
    show CoreWp (if res ≠ -1 then _ else _) R s
    split
    · exact h res
    · refine Wp.bind (wp_look (fun _ => rfl) trivial fun errno => ?_)
      show CoreWp (if errno ≠ eintr then _ else _) R s
      split
      · exact h (-1)
      · exact ih

/-- In the root process a wait gives the lock back. -/
theorem wp_safeWaitpid {fuel : Nat} {pid : Int} {opts : Nat} (hs : Released s) (hroot : s.root = true)
    (h : ∀ r, R r s) : CoreWp (safeWaitpid fuel pid opts) R s := by
  refine Wp.bind (wp_rdlockCoreState hs.1 ?_)
  refine Wp.bind (wp_root ?_)
  show CoreWp (if ((s.locked .read).root.toNat : Int) = 0 then _ else _) R (s.locked .read)
  rw [if_neg (by rw [show (s.locked .read).root = true from hroot]; decide)]
  refine Wp.bind (wp_unlockCoreState rfl ?_)
  rw [hs.released_locked]
  refine Wp.bind (wp_waitpidLoop fuel fun res => ?_)
  show CoreWp (if res > 0 then _ else _) R s
  split
  · have hout : CoreWp (do unlockCoreState; return res) R (s.locked .write) := by
      refine Wp.bind (wp_unlockCoreState rfl ?_)
      rw [hs.released_locked]
      exact h res
    refine Wp.bind (wp_wrlockCoreState hs.1 ?_)
    refine Wp.bind (wp_look (fun _ => rfl) trivial fun i => ?_)
    refine Wp.bind (wp_look (fun _ => rfl) trivial fun len => ?_)
    show CoreWp (if i = len then _ else _) R (s.locked .write)
    split
    · exact Wp.bind (wp_coreLogfHeld hout)
    · exact Wp.bind (wp_look (fun _ => rfl) trivial fun _ => hout)
  · exact h res

theorem wp_timedLoop {fuel : Nat} {pid start timeout : Int} (turns : Nat) (hs : Released s)
    (hroot : s.root = true) (h : ∀ r, R r s) : CoreWp (timedLoop fuel pid start timeout turns) R s := by
  induction turns with
  | zero => exact ⟨trivial, nofun⟩
  | succ turns ih =>
    refine Wp.bind (wp_safeWaitpid hs hroot fun res => ?_)
    show CoreWp (if res > 0 then _ else _) R s
    split
    · exact h res
    · show CoreWp (if res = -1 then _ else _) R s
      split
      · exact h (-1)
      · refine Wp.bind (wp_look (fun _ => rfl) trivial fun now => ?_)
        show CoreWp (if now - start ≥ timeout then _ else _) R s
        split
        · exact h (-2)
        · exact Wp.bind (wp_look (fun _ => rfl) trivial fun _ => ih)

theorem wp_safeWaitpidTimed {fuel : Nat} {pid timeout : Int} (hs : Released s) (hroot : s.root = true)
    (h : ∀ r, R r s) : CoreWp (safeWaitpidTimed fuel pid timeout) R s :=
  Wp.bind (wp_look (fun _ => rfl) trivial fun _ => wp_timedLoop fuel hs hroot h)

theorem wp_safeKillAndReap {fuel : Nat} {pid : Int} (hs : Released s) (hroot : s.root = true)
    (h : ∀ r, R r s) : CoreWp (safeKillAndReap fuel pid) R s := by
  refine Wp.bind (wp_look (fun _ => rfl) trivial fun err => ?_)
  show CoreWp (if err ≠ 0 then _ else _) R s
  split
  · exact h (-1)
  · refine Wp.bind (wp_safeWaitpid hs hroot fun res => ?_)
    show CoreWp (if res = -1 then _ else _) R s
    split
    · exact h (-1)
    · exact h 0

/-! ## Runs -/

/-- A child process does not wait for a child. -/
def RootWaits (s : CoreThread) (c : Nat × CoreCall) : Prop := c.2.waits = true → s.root = true

/-- The contract of the calls. -/
theorem wp_body (c : Nat × CoreCall) (hs : Released s) (hrule : RootWaits s c) :
    CoreWp (c.2.body c.1) (fun _ => Released) s := by
  obtain ⟨fuel, c⟩ := c
  cases c with
  | safeMalloc chnl size => exact wp_safeMalloc hs fun _ => hs
  | safeRealloc ptr size => exact wp_safeRealloc hs fun _ => hs
  | safeFree ptr => exact Wp.bind (wp_safeFree hs hs)
  | checkMemoryLeaks lb => exact wp_checkMemoryLeaks hs fun _ => hs
  | setCoreQuiet q => exact Wp.bind (wp_setCoreQuiet hs hs)
  | coreLogf lck => exact Wp.bind (wp_coreLogf hs hs)
  | safeFork => exact wp_safeFork hs fun _ _ hs' => hs'
  | safeWaitpid pid opts => exact wp_safeWaitpid hs (hrule rfl) fun _ => hs
  | safeWaitpidTimed pid timeout => exact wp_safeWaitpidTimed hs (hrule rfl) fun _ => hs
  | safeKillAndReap pid => exact wp_safeKillAndReap hs (hrule rfl) fun _ => hs

/-- One step of a thread that makes the calls; each comes with the fuel of its loops. -/
def coreClientStep : CoreClient → ClientAct (Nat × CoreCall) Int → Option CoreClient :=
  clientStep (fun c => c.2.body c.1) coreStep

/-- Nothing is held when a call has returned, and no call waits for a lock of its own thread. -/
structure LockOk (s : CoreClient) : Prop where
  between : s.prog = none → s.state.holds = []
  returned : ∀ r, s.prog = some (.pure r) → s.state.holds = []
  waits : ∀ o k, s.prog = some (.ask o k) → ¬ WaitsForItself o s.state

theorem lockOk_of_keeps {s : CoreClient} (h : s.Keeps coreStep Orderly Released) : LockOk s := by
  obtain ⟨s, prog⟩ := s
  refine ⟨fun hprog => ?_, fun r hprog => ?_, fun o k hprog => ?_⟩
  · cases hprog
    exact h.1
  · cases hprog
    exact h.1
  · cases hprog
    exact Orderly.not_waitsForItself h.1

/-- The run lemma. -/
theorem released_reach {s : CoreClient}
    (h : Reaches coreClientStep (Client.CallRule RootWaits) CoreClient.new s) :
    s.Keeps coreStep Orderly Released :=
  Client.keeps_reach (fun c _ hs hrule => wp_body c hs hrule) h ⟨rfl, rfl⟩

/-- A wait of a child process returns with the read lock. -/
theorem wait_keeps_lock {c : CoreCall} (hs : Released s) (hroot : s.root = false) (hwaits : c.waits = true) :
    ∃ is, (c.body 1).after coreStep is s = some (.pure (-1), s.locked .read) := by
  obtain ⟨root, holds, sigint⟩ := s
  obtain ⟨rfl, rfl⟩ := hs
  cases hroot
  cases c with
  | safeWaitpid pid opts => exact ⟨[0, 0, 0], rfl⟩
  | safeWaitpidTimed pid timeout => exact ⟨[0, 0, 0, 0], rfl⟩
  | safeKillAndReap pid => exact ⟨[0, 0, 0, 0], rfl⟩
  | _ => cases hwaits

/-- With the read lock kept, the next writer waits for its own thread. -/
theorem writer_waits (s : CoreThread) (hold : Hold) :
    ∃ t, Reaches coreClientStep (fun _ _ => True) ⟨s.locked hold, none⟩ t ∧
      ∃ k, t.prog = some (.ask .wrlock k) ∧ WaitsForItself .wrlock t.state := by
  have hcalled : Reaches coreClientStep (fun _ _ => True) ⟨s.locked hold, none⟩
      ⟨s.locked hold, some (CoreCall.safeFork.body 1)⟩ :=
    (Reaches.refl _).snoc (a := .call (1, .safeFork)) trivial rfl
  exact ⟨_, hcalled.snoc (a := .answer 0) trivial rfl, _, rfl, List.cons_ne_nil hold []⟩

/-- **Every call gives the core lock back**, whatever the system answers, as long as no child process waits
for a child. The first such call can return with the lock, and its thread then waits for itself. -/
theorem core_lock_given_back (s : CoreClient) :
    (Reaches coreClientStep (Client.CallRule RootWaits) CoreClient.new s → LockOk s) ∧
      ∀ c : CoreCall, Reaches coreClientStep (Client.CallRule RootWaits) CoreClient.new s → s.prog = none →
        ¬ RootWaits s.state (1, c) → ∃ t, Reaches coreClientStep (fun _ _ => True) s t ∧
          t.prog = none ∧ t.state.holds = [.read] ∧
          ∃ u, Reaches coreClientStep (fun _ _ => True) t u ∧
            ∃ k, u.prog = some (.ask .wrlock k) ∧ WaitsForItself .wrlock u.state := by
  refine ⟨fun h => lockOk_of_keeps (released_reach h), fun c h hprog hbad => ?_⟩
  have hkeeps := released_reach h
  obtain ⟨s, prog⟩ := s
  cases hprog
  have hs : Released s := hkeeps
  obtain ⟨hwaits, hroot⟩ := Classical.not_imp.mp hbad
  obtain ⟨is, hafter⟩ := wait_keeps_lock hs (Bool.eq_false_iff.mpr hroot) hwaits
  have hcalled : Reaches coreClientStep (fun _ _ => True) ⟨s, none⟩ ⟨s, some (c.body 1)⟩ :=
    (Reaches.refl _).snoc (a := .call (1, c)) trivial rfl
  have hanswered := hcalled.trans (Client.reaches_after (fun _ _ => trivial) hafter)
  exact ⟨⟨s.locked .read, none⟩, hanswered.snoc (a := .ret) trivial rfl, rfl, rfl, writer_waits s .read⟩

/-- The child of a fork starts with what `init_core_state` left. -/
theorem forked_reach : Reaches coreClientStep (Client.CallRule RootWaits) CoreClient.new
    ⟨{ root := false, holds := [], sigint := false }, none⟩ := by
  have hcalled : Reaches coreClientStep (Client.CallRule RootWaits) CoreClient.new
      ⟨CoreClient.new.state, some (CoreCall.safeFork.body 1)⟩ :=
    (Reaches.refl _).snoc (a := .call (1, .safeFork)) nofun rfl
  have hafter : (CoreCall.safeFork.body 1).after coreStep [0, 0, 1, 0, 0, 0, 0, 0] CoreClient.new.state =
      some (.pure 0, { root := false, holds := [], sigint := false }) := rfl
  have hanswered := hcalled.trans (Client.reaches_after (fun _ _ => trivial) hafter)
  exact hanswered.snoc (a := .ret) trivial rfl

/-- The child of a fork starts without the lock. -/
theorem core_lock_given_back_child : LockOk ⟨{ root := false, holds := [], sigint := false }, none⟩ :=
  (core_lock_given_back _).1 forked_reach

/-- A child process that calls `safe_waitpid` keeps the read lock. -/
theorem child_keeps_lock : ¬ ∀ s, Reaches coreClientStep (fun _ _ => True) CoreClient.new s → LockOk s := by
  intro hall
  have hforked := forked_reach.weaken (fun _ _ _ => trivial)
  have hcalled : Reaches coreClientStep (fun _ _ => True) CoreClient.new
      ⟨{ root := false, holds := [], sigint := false }, some ((CoreCall.safeWaitpid (-1) 0).body 1)⟩ :=
    hforked.snoc (a := .call (1, .safeWaitpid (-1) 0)) trivial rfl
  have hafter : ((CoreCall.safeWaitpid (-1) 0).body 1).after coreStep [0, 0, 0]
      { root := false, holds := [], sigint := false } =
        some (.pure (-1), { root := false, holds := [.read], sigint := true }) := rfl
  have hreturned := hall _ (hcalled.trans (Client.reaches_after (fun _ _ => trivial) hafter))
  exact absurd (hreturned.returned _ rfl) (List.cons_ne_nil _ _)

end Chvm.Core.Lock
