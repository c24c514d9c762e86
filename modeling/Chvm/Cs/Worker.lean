import Mathlib.Data.List.Nodup
import Chvm.Lib.Run

/-!
# The worker's life

`cs_start_gc`, `cs_stop_gc` and the worker, cut where another thread can look at the status. Each
step under `gc_stat_lock` is one step here; the creation of the thread, the write of `gc_thread`
and the read of it for the join are outside the lock and are steps of their own.

Workers are numbered in the order `safe_pthread_create` makes them. What the model adds to the
source's state are two records: `joins`, for each call of `safe_pthread_join` the worker its
`cs_stop_gc` told to stop and the worker it joins, and `stopped`, the worker told by each
`cs_stop_gc` that returned 0.
-/

set_option autoImplicit false

namespace Chvm.Cs

open Chvm.Lib

inductive GcWorkerStat
  | on
  | starting
  | stopping
  | off
deriving DecidableEq, Repr

/-- Where a worker stands: in its loop, past the loop, past the write of `GC_WORKER_OFF`, ended. -/
inductive WorkerPc
  | collecting
  | leaving
  | published
  | exited
deriving DecidableEq, Repr

/-- Where a client stands. `returned` holds what its last call returned. -/
inductive ClientPc
  | returned (ret : Option Nat)
  | starting
  | created (worker : Nat)
  | stored (worker : Nat)
  | stopping (told : Nat)
  | joining (told joined : Nat)
deriving DecidableEq, Repr

/-- The status, `gc_thread`, the threads, the worker `GC_WORKER_ON` was last written for, and the
records. -/
structure Life (Tid : Type) where
  stat : GcWorkerStat
  gcThread : Option Nat
  workers : List WorkerPc
  clients : Tid → ClientPc
  onFor : Nat
  joins : List (Nat × Nat)
  stopped : List Nat

inductive LifeAct (Tid : Type)
  | startGc (c : Tid)
  | create (c : Tid)
  | store (c : Tid)
  | setOn (c : Tid)
  | stopGc (c : Tid)
  | callJoin (c : Tid)
  | joined (c : Tid)
  | look (worker : Nat)
  | publish (worker : Nat)
  | exit (worker : Nat)
deriving DecidableEq, Repr

variable {Tid : Type} [DecidableEq Tid]

namespace Life

/-- A new collected space: no worker, and `gc_thread` undefined. -/
def new (Tid : Type) : Life Tid :=
  { stat := .off, gcThread := none, workers := [], clients := fun _ => .returned none, onFor := 0,
    joins := [], stopped := [] }

def setClient (s : Life Tid) (c : Tid) (pc : ClientPc) : Life Tid :=
  { s with clients := fun c' => if c' = c then pc else s.clients c' }

def setWorker (s : Life Tid) (w : Nat) (pc : WorkerPc) : Life Tid :=
  { s with workers := s.workers.set w pc }

end Life

/-- One step of a client's call or of a worker. -/
def lifeStep (s : Life Tid) : LifeAct Tid → Option (Life Tid)
  | .startGc c =>
    match s.clients c with
    | .returned _ =>
      if s.stat ≠ .off then some (s.setClient c (.returned (some 1)))
      else some { s.setClient c .starting with stat := .starting }
    | _ => none
  | .create c =>
    match s.clients c with
    | .starting =>
      some { s.setClient c (.created s.workers.length) with workers := s.workers ++ [.collecting] }
    | _ => none
  | .store c =>
    match s.clients c with
    | .created w => some { s.setClient c (.stored w) with gcThread := some w }
    | _ => none
  | .setOn c =>
    match s.clients c with
    | .stored w => some { s.setClient c (.returned (some 0)) with stat := .on, onFor := w }
    | _ => none
  | .stopGc c =>
    match s.clients c with
    | .returned _ =>
      if s.stat ≠ .on then some (s.setClient c (.returned (some 1)))
      else some { s.setClient c (.stopping s.onFor) with stat := .stopping }
    | _ => none
  | .callJoin c =>
    match s.clients c, s.gcThread with
    | .stopping told, some w =>
      some { s.setClient c (.joining told w) with joins := s.joins ++ [(told, w)] }
    | _, _ => none
  | .joined c =>
    match s.clients c with
    | .joining told w =>
      -- the join waits for the thread to end
      if s.workers[w]? = some .exited then
        some { s.setClient c (.returned (some 0)) with stopped := s.stopped ++ [told] }
      else none
    | _ => none
  | .look w =>
    if s.workers[w]? = some .collecting then
      some (if s.stat = .stopping then s.setWorker w .leaving else s)
    else none
  | .publish w =>
    if s.workers[w]? = some .leaving then some { s.setWorker w .published with stat := .off }
    else none
  | .exit w =>
    if s.workers[w]? = some .published then some (s.setWorker w .exited) else none

/-- What each step does, and when. -/
inductive LifeMove (s : Life Tid) : LifeAct Tid → Life Tid → Prop
  | startRefused {c : Tid} {ret : Option Nat} (hpc : s.clients c = .returned ret) (hon : s.stat ≠ .off) :
      LifeMove s (.startGc c) (s.setClient c (.returned (some 1)))
  | startGc {c : Tid} {ret : Option Nat} (hpc : s.clients c = .returned ret) (hoff : s.stat = .off) :
      LifeMove s (.startGc c) { s.setClient c .starting with stat := .starting }
  | create {c : Tid} (hpc : s.clients c = .starting) :
      LifeMove s (.create c)
        { s.setClient c (.created s.workers.length) with workers := s.workers ++ [.collecting] }
  | store {c : Tid} {w : Nat} (hpc : s.clients c = .created w) :
      LifeMove s (.store c) { s.setClient c (.stored w) with gcThread := some w }
  | setOn {c : Tid} {w : Nat} (hpc : s.clients c = .stored w) :
      LifeMove s (.setOn c) { s.setClient c (.returned (some 0)) with stat := .on, onFor := w }
  | stopRefused {c : Tid} {ret : Option Nat} (hpc : s.clients c = .returned ret) (hoff : s.stat ≠ .on) :
      LifeMove s (.stopGc c) (s.setClient c (.returned (some 1)))
  | stopGc {c : Tid} {ret : Option Nat} (hpc : s.clients c = .returned ret) (hon : s.stat = .on) :
      LifeMove s (.stopGc c) { s.setClient c (.stopping s.onFor) with stat := .stopping }
  | callJoin {c : Tid} {told w : Nat} (hpc : s.clients c = .stopping told) (hgc : s.gcThread = some w) :
      LifeMove s (.callJoin c) { s.setClient c (.joining told w) with joins := s.joins ++ [(told, w)] }
  | joined {c : Tid} {told w : Nat} (hpc : s.clients c = .joining told w)
      (hexit : s.workers[w]? = some .exited) :
      LifeMove s (.joined c)
        { s.setClient c (.returned (some 0)) with stopped := s.stopped ++ [told] }
  | leave {w : Nat} (hw : s.workers[w]? = some .collecting) (hstat : s.stat = .stopping) :
      LifeMove s (.look w) (s.setWorker w .leaving)
  | stay {w : Nat} (hw : s.workers[w]? = some .collecting) (hstat : s.stat ≠ .stopping) :
      LifeMove s (.look w) s
  | publish {w : Nat} (hw : s.workers[w]? = some .leaving) :
      LifeMove s (.publish w) { s.setWorker w .published with stat := .off }
  | exit {w : Nat} (hw : s.workers[w]? = some .published) :
      LifeMove s (.exit w) (s.setWorker w .exited)

theorem lifeMove {s m : Life Tid} {a : LifeAct Tid} (hstep : lifeStep s a = some m) : LifeMove s a m := by
  cases a with
  | startGc c =>
    simp only [lifeStep] at hstep
    split at hstep
    · rename_i ret hpc
      split at hstep
      · rename_i hon
        cases hstep
        exact .startRefused hpc hon
      · rename_i hoff
        cases hstep
        exact .startGc hpc (not_not.mp hoff)
    · cases hstep
  | create c =>
    simp only [lifeStep] at hstep
    split at hstep
    · rename_i hpc
      cases hstep
      exact .create hpc
    · cases hstep
  | store c =>
    simp only [lifeStep] at hstep
    split at hstep
    · rename_i w hpc
      cases hstep
      exact .store hpc
    · cases hstep
  | setOn c =>
    simp only [lifeStep] at hstep
    split at hstep
    · rename_i w hpc
      cases hstep
      exact .setOn hpc
    · cases hstep
  | stopGc c =>
    simp only [lifeStep] at hstep
    split at hstep
    · rename_i ret hpc
      split at hstep
      · rename_i hoff
        cases hstep
        exact .stopRefused hpc hoff
      · rename_i hon
        cases hstep
        exact .stopGc hpc (not_not.mp hon)
    · cases hstep
  | callJoin c =>
    simp only [lifeStep] at hstep
    split at hstep
    · rename_i t w hpc hgc
      cases hstep
      exact .callJoin hpc hgc
    · cases hstep
  | joined c =>
    simp only [lifeStep] at hstep
    split at hstep
    · rename_i t w hpc
      split at hstep
      · rename_i hexit
        cases hstep
        exact .joined hpc hexit
      · cases hstep
    · cases hstep
  | look w =>
    simp only [lifeStep] at hstep
    split at hstep
    · rename_i hw
      cases hstep
      split
      · rename_i hstat
        exact .leave hw hstat
      · rename_i hstat
        exact .stay hw hstat
    · cases hstep
  | publish w =>
    simp only [lifeStep] at hstep
    split at hstep
    · rename_i hw
      cases hstep
      exact .publish hw
    · cases hstep
  | exit w =>
    simp only [lifeStep] at hstep
    split at hstep
    · rename_i hw
      cases hstep
      exact .exit hw
    · cases hstep

/-- What the two functions and the worker promise together. -/
structure LifeOk (s : Life Tid) : Prop where
  /-- One worker at most runs its loop. -/
  one_worker : ∀ w w' : Nat, s.workers[w]? = some .collecting →
    s.workers[w']? = some .collecting → w = w'
  /-- No worker is joined twice. -/
  joined_once : (s.joins.map Prod.snd).Nodup
  /-- A worker is joined by the stop that told it. -/
  joined_by : ∀ p ∈ s.joins, p.2 = p.1
  /-- The worker a returned stop told has ended, and so has written `GC_WORKER_OFF`. -/
  ended : ∀ t ∈ s.stopped, s.workers[t]? = some .exited

/-- `gc_thread` is not written while a stop has yet to read it. -/
def Undisturbed (s : Life Tid) : LifeAct Tid → Prop
  | .store _ => ∀ c told, s.clients c ≠ .stopping told
  | _ => True

/-! ## The invariant -/

namespace ClientPc

/-- In `cs_start_gc`, past the write of `GC_WORKER_STARTING`. -/
def isStarter : ClientPc → Bool
  | .starting | .created _ | .stored _ => true
  | _ => false

/-- The worker a `cs_start_gc` has made. -/
def made : ClientPc → Option Nat
  | .created w | .stored w => some w
  | _ => none

end ClientPc

/-- The worker was told to stop, by a stop that has yet to join or by one that has. -/
def Told (s : Life Tid) (t : Nat) : Prop :=
  (∃ c, s.clients c = .stopping t) ∨ t ∈ s.joins.map Prod.fst

structure LifeInv (s : Life Tid) : Prop where
  one_starter : ∀ c c', (s.clients c).isStarter → (s.clients c').isStarter → c = c'
  starter : ∀ c, (s.clients c).isStarter → s.stat = .starting
  made : ∀ c w, (s.clients c).made = some w → w + 1 = s.workers.length ∧ ∀ t, Told s t → t < w
  stored : ∀ c w, s.clients c = .stored w → s.gcThread = some w
  collecting : ∀ w : Nat, s.workers[w]? = some .collecting → w + 1 = s.workers.length ∧
    (s.stat = .on ∨ s.stat = .stopping ∨ ∃ c, (s.clients c).made = some w)
  leaving : ∀ w : Nat, s.workers[w]? = some .leaving → w + 1 = s.workers.length ∧ s.stat = .stopping
  on : s.stat = .on → s.gcThread = some s.onFor ∧ s.onFor + 1 = s.workers.length ∧
    ∀ t, Told s t → t < s.onFor
  told : ∀ t, Told s t → t < s.workers.length
  /-- A stop that has yet to read `gc_thread` finds there the worker it told. -/
  stopping : ∀ c t, s.clients c = .stopping t → s.gcThread = some t
  one_teller : ∀ c c' t, s.clients c = .stopping t → s.clients c' = .stopping t → c = c'
  fresh : ∀ c t, s.clients c = .stopping t → t ∉ s.joins.map Prod.fst
  joining : ∀ c t w, s.clients c = .joining t w → (t, w) ∈ s.joins
  once : (s.joins.map Prod.fst).Nodup
  joined_by : ∀ p ∈ s.joins, p.2 = p.1
  ended : ∀ t ∈ s.stopped, s.workers[t]? = some .exited

omit [DecidableEq Tid] in
theorem LifeInv.ok {s : Life Tid} (h : LifeInv s) : LifeOk s where
  one_worker := fun w w' hw hw' => by
    have hlast := (h.collecting w hw).1
    have hlast' := (h.collecting w' hw').1
    omega
  joined_once := by
    rw [List.map_congr_left h.joined_by]
    exact h.once
  joined_by := h.joined_by
  ended := h.ended

omit [DecidableEq Tid] in
theorem lifeInv_new : LifeInv (Life.new Tid) := by
  constructor <;> simp [Life.new, Told, ClientPc.isStarter, ClientPc.made]

/-! ## What each step keeps -/

@[grind =] theorem clients_setClient {s : Life Tid} {c : Tid} {pc : ClientPc} (c' : Tid) :
    (s.setClient c pc).clients c' = if c' = c then pc else s.clients c' := rfl

@[grind =] theorem stat_setClient {s : Life Tid} {c : Tid} {pc : ClientPc} :
    (s.setClient c pc).stat = s.stat := rfl

@[grind =] theorem workers_setClient {s : Life Tid} {c : Tid} {pc : ClientPc} :
    (s.setClient c pc).workers = s.workers := rfl

@[grind =] theorem joins_setClient {s : Life Tid} {c : Tid} {pc : ClientPc} :
    (s.setClient c pc).joins = s.joins := rfl

@[grind =] theorem gcThread_setClient {s : Life Tid} {c : Tid} {pc : ClientPc} :
    (s.setClient c pc).gcThread = s.gcThread := rfl

/-- A client that keeps its part keeps the invariant. -/
theorem LifeInv.setClient {s : Life Tid} {c : Tid} {pc : ClientPc} (h : LifeInv s)
    (hstarter : pc.isStarter = (s.clients c).isStarter) (hmade : pc.made = (s.clients c).made)
    (hold : ∀ t, s.clients c ≠ .stopping t) (hnew : ∀ t, pc ≠ .stopping t)
    (hstored : ∀ w, pc = .stored w → s.gcThread = some w)
    (hjoining : ∀ t w, pc ≠ .joining t w) : LifeInv (s.setClient c pc) := by
  have hpart : ∀ c', ((s.setClient c pc).clients c').isStarter = (s.clients c').isStarter ∧
      ((s.setClient c pc).clients c').made = (s.clients c').made := by
    intro c'
    rw [clients_setClient]
    split
    · rename_i heq
      rw [heq]
      exact ⟨hstarter, hmade⟩
    · exact ⟨rfl, rfl⟩
  have hstop : ∀ c' t, (s.setClient c pc).clients c' = .stopping t ↔ s.clients c' = .stopping t := by
    intro c' t
    rw [clients_setClient]
    split
    · rename_i heq
      rw [heq]
      exact iff_of_false (hnew t) (hold t)
    · exact Iff.rfl
  have htold : ∀ t, Told (s.setClient c pc) t → Told s t := fun t ht =>
    ht.imp_left fun ⟨c', hc'⟩ => ⟨c', (hstop c' t).mp hc'⟩
  exact
    { one_starter := fun c₁ c₂ h₁ h₂ => h.one_starter c₁ c₂ ((hpart c₁).1 ▸ h₁) ((hpart c₂).1 ▸ h₂)
      starter := fun c' hc => h.starter c' ((hpart c').1 ▸ hc)
      made := fun c' w hw =>
        ⟨(h.made c' w ((hpart c').2 ▸ hw)).1, fun t ht =>
          (h.made c' w ((hpart c').2 ▸ hw)).2 t (htold t ht)⟩
      stored := by grind [h.stored]
      collecting := fun w hw => ⟨(h.collecting w hw).1, (h.collecting w hw).2.imp_right
        fun hor => hor.imp_right fun ⟨c', hc'⟩ => ⟨c', (hpart c').2.trans hc'⟩⟩
      leaving := h.leaving
      on := fun hon => ⟨(h.on hon).1, (h.on hon).2.1, fun t ht => (h.on hon).2.2 t (htold t ht)⟩
      told := fun t ht => h.told t (htold t ht)
      stopping := fun c' t ht => h.stopping c' t ((hstop c' t).mp ht)
      one_teller := fun c₁ c₂ t h₁ h₂ => h.one_teller c₁ c₂ t ((hstop c₁ t).mp h₁) ((hstop c₂ t).mp h₂)
      fresh := fun c' t ht => h.fresh c' t ((hstop c' t).mp ht)
      joining := by grind [h.joining]
      once := h.once
      joined_by := h.joined_by
      ended := h.ended }

omit [DecidableEq Tid] in
theorem LifeInv.not_starter {s : Life Tid} (h : LifeInv s) (hstat : s.stat ≠ .starting) (c : Tid) :
    (s.clients c).isStarter = false :=
  Bool.eq_false_iff.mpr fun hc => hstat (h.starter c hc)

theorem ClientPc.isStarter_of_made {pc : ClientPc} {w : Nat} (h : pc.made = some w) :
    pc.isStarter = true := by
  cases pc <;> first | rfl | cases h

theorem LifeInv.startGc {s : Life Tid} {c : Tid} (h : LifeInv s) (hoff : s.stat = .off) :
    LifeInv { s.setClient c .starting with stat := .starting } := by
  have hnone := h.not_starter (by rw [hoff]; decide)
  have hmade : ∀ c' w, (s.clients c').made ≠ some w := fun c' w hw =>
    Bool.false_ne_true ((hnone c').symm.trans (ClientPc.isStarter_of_made hw))
  have htold : ∀ t, Told { s.setClient c .starting with stat := .starting } t → Told s t := by
    grind [Told]
  exact
    { one_starter := by grind
      starter := fun _ _ => rfl
      made := by grind [ClientPc.made]
      stored := by grind [ClientPc.made]
      collecting := by grind [h.collecting]
      leaving := by grind [h.leaving]
      on := nofun
      told := fun t ht => h.told t (htold t ht)
      stopping := by grind [h.stopping]
      joining := by grind [h.joining]
      one_teller := by grind [h.one_teller]
      fresh := by grind [h.fresh]
      once := h.once
      joined_by := h.joined_by
      ended := h.ended }

/-- The worker made is the last one, and the only one in its loop. -/
theorem LifeInv.create {s : Life Tid} {c : Tid} (h : LifeInv s) (hpc : s.clients c = .starting) :
    LifeInv { s.setClient c (.created s.workers.length) with
      workers := s.workers ++ [.collecting] } := by
  have hc : (s.clients c).isStarter = true := by rw [hpc]; rfl
  have hstat := h.starter c hc
  have hother : ∀ c', c' ≠ c → (s.clients c').isStarter = false := fun c' hne =>
    Bool.eq_false_iff.mpr fun hc' => hne (h.one_starter c' c hc' hc)
  have hmade : ∀ c' w, (s.clients c').made ≠ some w := by
    intro c' w hw
    have hc' := ClientPc.isStarter_of_made hw
    rw [h.one_starter c' c hc' hc, hpc] at hw
    cases hw
  have hloop : ∀ w : Nat, s.workers[w]? ≠ some .collecting := by
    grind [h.collecting]
  have hlast : ∀ w : Nat, (s.workers ++ [.collecting])[w]? = some WorkerPc.collecting →
      w = s.workers.length := by
    grind
  have hthis : ({ s.setClient c (.created s.workers.length) with
      workers := s.workers ++ [.collecting] } : Life Tid).clients c = .created s.workers.length :=
    if_pos rfl
  have htold : ∀ t, Told { s.setClient c (.created s.workers.length) with
      workers := s.workers ++ [.collecting] } t → Told s t := by
    grind [Told]
  exact
    { one_starter := by grind
      starter := fun _ _ => hstat
      made := by grind [ClientPc.made, h.told]
      stored := by grind [ClientPc.made]
      collecting := fun w hw => by
        rw [hlast w hw]
        exact ⟨by simp only [List.length_append, List.length_singleton],
          .inr (.inr ⟨c, by rw [hthis]; rfl⟩)⟩
      leaving := by grind [h.leaving]
      on := by grind
      told := fun t ht => by
        have hlt := h.told t (htold t ht)
        rw [List.length_append]
        omega
      stopping := by grind [h.stopping]
      joining := by grind [h.joining]
      one_teller := by grind [h.one_teller]
      fresh := by grind [h.fresh]
      once := h.once
      joined_by := h.joined_by
      ended := fun t ht => by
        have hlt := (List.getElem?_eq_some_iff.mp (h.ended t ht)).1
        exact (List.getElem?_append_left hlt).trans (h.ended t ht) }

/-- No stop has yet to read `gc_thread`, so that the write disturbs none. -/
theorem LifeInv.store {s : Life Tid} {c : Tid} {w : Nat} (h : LifeInv s)
    (hpc : s.clients c = .created w) (hquiet : ∀ c told, s.clients c ≠ .stopping told) :
    LifeInv { s.setClient c (.stored w) with gcThread := some w } := by
  have hc : (s.clients c).isStarter = true := by rw [hpc]; rfl
  have hstat := h.starter c hc
  have hgc : LifeInv { s with gcThread := some w } :=
    { h with
      stored := by
        intro c' w' hw
        have hc' : (s.clients c').isStarter = true := by rw [hw]; rfl
        rw [h.one_starter c' c hc' hc, hpc] at hw
        cases hw
      on := fun hon => by cases hstat.symm.trans hon
      stopping := fun c' t ht => absurd ht (hquiet c' t) }
  exact hgc.setClient (by rw [hpc]; rfl) (by rw [hpc]; rfl) (hquiet c) nofun
    (fun w' hw => by cases hw; rfl) nofun

theorem LifeInv.setOn {s : Life Tid} {c : Tid} {w : Nat} (h : LifeInv s)
    (hpc : s.clients c = .stored w) :
    LifeInv { s.setClient c (.returned (some 0)) with stat := .on, onFor := w } := by
  have hc : (s.clients c).isStarter = true := by rw [hpc]; rfl
  obtain ⟨hlast, hold⟩ := h.made c w (by rw [hpc]; rfl)
  have hnone : ∀ c', c' ≠ c → (s.clients c').isStarter = false := fun c' hne =>
    Bool.eq_false_iff.mpr fun hc' => hne (h.one_starter c' c hc' hc)
  have hmade : ∀ c' w', c' ≠ c → (s.clients c').made ≠ some w' := fun c' w' hne hw =>
    Bool.false_ne_true ((hnone c' hne).symm.trans (ClientPc.isStarter_of_made hw))
  have htold : ∀ t, Told { s.setClient c (.returned (some 0)) with stat := .on, onFor := w } t →
      Told s t := by
    grind [Told]
  exact
    { one_starter := by grind [ClientPc.isStarter]
      starter := by grind [ClientPc.isStarter]
      made := by grind [ClientPc.made]
      stored := by grind [ClientPc.made]
      collecting := by grind [h.collecting]
      leaving := by grind [h.leaving, h.starter]
      on := fun _ => ⟨h.stored c w hpc, hlast, fun t ht => hold t (htold t ht)⟩
      told := fun t ht => h.told t (htold t ht)
      stopping := by grind [h.stopping]
      joining := by grind [h.joining]
      one_teller := by grind [h.one_teller]
      fresh := by grind [h.fresh]
      once := h.once
      joined_by := h.joined_by
      ended := h.ended }

/-- The worker told is the one in `gc_thread`, and no stop has told it before. -/
theorem LifeInv.stopGc {s : Life Tid} {c : Tid} (h : LifeInv s) (hon : s.stat = .on) :
    LifeInv { s.setClient c (.stopping s.onFor) with stat := .stopping } := by
  obtain ⟨hgc, hlast, hold⟩ := h.on hon
  have hnone := h.not_starter (by rw [hon]; decide)
  have hmade : ∀ c' w, (s.clients c').made ≠ some w := fun c' w hw =>
    Bool.false_ne_true ((hnone c').symm.trans (ClientPc.isStarter_of_made hw))
  have htold : ∀ t, Told { s.setClient c (.stopping s.onFor) with stat := .stopping } t →
      t = s.onFor ∨ Told s t := by
    grind [Told]
  have hfresh : ∀ c', s.clients c' ≠ .stopping s.onFor := fun c' hc' =>
    Nat.lt_irrefl _ (hold _ (.inl ⟨c', hc'⟩))
  exact
    { one_starter := by grind [ClientPc.isStarter]
      starter := by grind [ClientPc.isStarter]
      made := by grind [ClientPc.made]
      stored := by grind [ClientPc.made]
      collecting := by grind [h.collecting]
      leaving := by grind [h.leaving]
      on := nofun
      told := by grind [h.told]
      stopping := by grind [h.stopping]
      joining := by grind [h.joining]
      one_teller := by grind [h.one_teller]
      fresh := fun c' t ht hmem => by
        rw [clients_setClient] at ht
        split at ht
        · cases ht
          exact Nat.lt_irrefl _ (hold _ (.inr hmem))
        · exact h.fresh c' t ht hmem
      once := h.once
      joined_by := h.joined_by
      ended := h.ended }

/-- The worker told passes from the stop to the record, and it is the one joined. -/
theorem LifeInv.callJoin {s : Life Tid} {c : Tid} {t w : Nat} (h : LifeInv s)
    (hpc : s.clients c = .stopping t) (hgc : s.gcThread = some w) :
    LifeInv { s.setClient c (.joining t w) with joins := s.joins ++ [(t, w)] } := by
  obtain rfl : w = t := Option.some.inj (hgc.symm.trans (h.stopping c t hpc))
  have hcstart : (s.clients c).isStarter = false := by rw [hpc]; rfl
  have hnew := h.fresh c w hpc
  have hmade : ∀ c' w', ((s.setClient c (.joining w w)).clients c').made = some w' ↔
      (s.clients c').made = some w' := by
    grind [ClientPc.made]
  have htold : ∀ t, Told { s.setClient c (.joining w w) with joins := s.joins ++ [(w, w)] } t →
      Told s t := by
    grind [Told]
  exact
    { one_starter := by grind [ClientPc.isStarter, h.one_starter]
      starter := by grind [ClientPc.isStarter, h.starter]
      made := fun c' w' hw' =>
        ⟨(h.made c' w' ((hmade c' w').mp hw')).1, fun t ht =>
          (h.made c' w' ((hmade c' w').mp hw')).2 t (htold t ht)⟩
      stored := by grind [h.stored]
      collecting := fun w' hw' => ⟨(h.collecting w' hw').1, (h.collecting w' hw').2.imp_right
        fun hor => hor.imp_right fun ⟨c', hc'⟩ => ⟨c', (hmade c' w').mpr hc'⟩⟩
      leaving := h.leaving
      on := fun hon => ⟨(h.on hon).1, (h.on hon).2.1, fun t ht => (h.on hon).2.2 t (htold t ht)⟩
      told := fun t ht => h.told t (htold t ht)
      stopping := by grind [h.stopping]
      one_teller := by grind [h.one_teller]
      fresh := by grind [h.fresh, h.one_teller]
      joining := by grind [h.joining]
      once := by grind [h.once]
      joined_by := fun p hp => by
        rcases List.mem_append.mp hp with hp | hp
        · exact h.joined_by p hp
        · rw [List.mem_singleton.mp hp]
      ended := h.ended }

/-- The join returned, so that the worker told has ended. -/
theorem LifeInv.joined {s : Life Tid} {c : Tid} {t w : Nat} (h : LifeInv s)
    (hpc : s.clients c = .joining t w) (hexit : s.workers[w]? = some .exited) :
    LifeInv { s.setClient c (.returned (some 0)) with stopped := s.stopped ++ [t] } := by
  obtain rfl : w = t := h.joined_by _ (h.joining c t w hpc)
  have h' : LifeInv (s.setClient c (.returned (some 0))) :=
    h.setClient (by rw [hpc]; rfl) (by rw [hpc]; rfl) (fun _ => by rw [hpc]; nofun) nofun nofun nofun
  exact
    { h' with
      ended := fun t ht => by
        rcases List.mem_append.mp ht with ht | ht
        · exact h.ended t ht
        · rw [List.mem_singleton.mp ht]
          exact hexit }

omit [DecidableEq Tid] in
/-- A worker's step: it does not go back to its loop, and is past it only when told to stop. -/
theorem LifeInv.setWorker {s : Life Tid} {w : Nat} {pc pc' : WorkerPc} (h : LifeInv s)
    (hw : s.workers[w]? = some pc) (hrun : pc ≠ .exited) (hloop : pc' ≠ .collecting)
    (hleave : pc' = .leaving → w + 1 = s.workers.length ∧ s.stat = .stopping) :
    LifeInv (s.setWorker w pc') := by
  have hlen : (s.setWorker w pc').workers.length = s.workers.length := List.length_set
  have hget : ∀ w' q, (s.setWorker w pc').workers[w']? = some q →
      (w' = w ∧ q = pc') ∨ s.workers[w']? = some q := by
    intro w' q hq
    rw [Life.setWorker, List.getElem?_set] at hq
    grind
  exact
    { h with
      made := fun c w' hw' => by
        rw [hlen]
        exact h.made c w' hw'
      collecting := fun w' hw' => by
        rw [hlen]
        rcases hget w' _ hw' with ⟨-, hpc⟩ | hold
        · exact absurd hpc.symm hloop
        · exact h.collecting w' hold
      leaving := fun w' hw' => by
        rw [hlen]
        rcases hget w' _ hw' with ⟨rfl, hpc⟩ | hold
        · exact hleave hpc.symm
        · exact h.leaving w' hold
      on := fun hon => by
        rw [hlen]
        exact h.on hon
      told := fun t ht => by
        rw [hlen]
        exact h.told t ht
      ended := fun t ht => by
        have hend := h.ended t ht
        have hne : w ≠ t := by
          rintro rfl
          exact hrun (Option.some.inj (hw.symm.trans hend))
        exact (List.getElem?_set_ne hne).trans hend }

omit [DecidableEq Tid] in
/-- The worker that writes `GC_WORKER_OFF` is the last one, so that none is left in its loop. -/
theorem LifeInv.publish {s : Life Tid} {w : Nat} (h : LifeInv s)
    (hw : s.workers[w]? = some .leaving) :
    LifeInv { s.setWorker w .published with stat := .off } := by
  obtain ⟨hlast, hstat⟩ := h.leaving w hw
  have hnone := h.not_starter (by rw [hstat]; decide)
  have h' : LifeInv (s.setWorker w .published) :=
    h.setWorker hw (by decide) (by decide) (fun heq => by cases heq)
  have hset : (s.setWorker w .published).workers[w]? = some .published :=
    List.getElem?_set_self (by omega)
  have hlen : (s.setWorker w .published).workers.length = s.workers.length := List.length_set
  -- whatever is not past its loop is the last worker, and that one is
  have hnotLast : ∀ w' q, (s.setWorker w .published).workers[w']? = some q → q ≠ .published →
      w' + 1 ≠ (s.setWorker w .published).workers.length := by
    intro w' q hq hne hlast'
    obtain rfl : w' = w := by omega
    exact hne (Option.some.inj (hq.symm.trans hset))
  exact
    { h' with
      starter := fun c hc => absurd ((hnone c).symm.trans hc) Bool.false_ne_true
      collecting := fun w' hw' => absurd (h'.collecting w' hw').1 (hnotLast w' _ hw' (by decide))
      leaving := fun w' hw' => absurd (h'.leaving w' hw').1 (hnotLast w' _ hw' (by decide))
      on := nofun }

/-- **One step keeps the invariant**, unless it writes `gc_thread` under a stop's feet. -/
theorem lifeStep_inv {s m : Life Tid} {a : LifeAct Tid} (h : LifeInv s) (hok : Undisturbed s a)
    (hstep : lifeStep s a = some m) : LifeInv m := by
  cases lifeMove hstep with
  | startRefused hpc _ | stopRefused hpc _ =>
    exact h.setClient (by rw [hpc]; rfl) (by rw [hpc]; rfl) (fun _ => by rw [hpc]; nofun) nofun nofun nofun
  | startGc _ hoff => exact h.startGc hoff
  | create hpc => exact h.create hpc
  | store hpc => exact h.store hpc hok
  | setOn hpc => exact h.setOn hpc
  | stopGc _ hon => exact h.stopGc hon
  | callJoin hpc hgc => exact h.callJoin hpc hgc
  | joined hpc hexit => exact h.joined hpc hexit
  | leave hw hstat => exact h.setWorker hw (by decide) (by decide) fun _ => ⟨(h.collecting _ hw).1, hstat⟩
  | stay => exact h
  | publish hw => exact h.publish hw
  | exit hw => exact h.setWorker hw (by decide) (by decide) nofun

/-- The run lemma: an undisturbed run has the invariant in every state. -/
theorem lifeInv_reach {s : Life Tid} (h : Reaches lifeStep Undisturbed (Life.new Tid) s) :
    LifeInv s :=
  h.invariant (fun _ _ _ hm hok hstep => lifeStep_inv hm hok hstep) lifeInv_new

/-! ## The life cycle -/

/-- A write of `gc_thread` under a stop's feet: that stop goes on to join the new worker. -/
theorem disturbed_joins {s m : Life Tid} {a : LifeAct Tid} (h : LifeInv s)
    (hstep : lifeStep s a = some m) (hbad : ¬ Undisturbed s a) :
    ∃ c t, lifeStep m (.callJoin c) = some t ∧ ¬ LifeOk t := by
  cases a with
  | store c =>
    obtain ⟨c', told, hstop⟩ : ∃ c' told, s.clients c' = .stopping told := by
      by_contra hnone
      exact hbad fun c' told hc' => hnone ⟨c', told, hc'⟩
    cases lifeMove hstep with
    | @store _ w hpc =>
      have hne : c' ≠ c := by
        rintro rfl
        cases hpc.symm.trans hstop
      have hlt : told < w := (h.made c w (by rw [hpc]; rfl)).2 told (.inl ⟨c', hstop⟩)
      refine ⟨c', _, by simp only [lifeStep, clients_setClient, if_neg hne, hstop]; rfl, fun hok => ?_⟩
      have hjoined : w = told :=
        hok.joined_by (told, w) (List.mem_append_right _ (List.mem_singleton_self _))
      omega
  | _ => exact absurd trivial hbad

/-- **The life cycle.** A run in which `gc_thread` is never written while a stop has yet to read it
keeps every promise in every state, and the first such write can be followed by a broken one. -/
theorem worker_life_cycle :
    (∀ s, Reaches lifeStep Undisturbed (Life.new Tid) s → LifeOk s) ∧
      ∀ s a m, Reaches lifeStep Undisturbed (Life.new Tid) s → lifeStep s a = some m →
        ¬ Undisturbed s a → ∃ t, Reaches lifeStep (fun _ _ => True) m t ∧ ¬ LifeOk t := by
  constructor
  · intro s hreach
    exact (lifeInv_reach hreach).ok
  · intro s a m hreach hstep hbad
    obtain ⟨c, t, hjoin, hbroken⟩ := disturbed_joins (lifeInv_reach hreach) hstep hbad
    exact ⟨t, (Reaches.refl m).snoc trivial hjoin, hbroken⟩

/-- The condition of the life cycle, for two clients. -/
def undisturbed (s : Life (Fin 2)) : LifeAct (Fin 2) → Bool
  | .store _ => (List.finRange 2).all fun c => match s.clients c with
    | .stopping _ => false
    | _ => true
  | _ => true

theorem undisturbed_sound {s : Life (Fin 2)} {a : LifeAct (Fin 2)} (h : undisturbed s a = true) :
    Undisturbed s a := by
  cases a with
  | store c =>
    intro c' told hpc
    have hall := List.all_eq_true.mp h c' (List.mem_finRange c')
    rw [hpc] at hall
    cases hall
  | _ => trivial

/-- One client starts the worker, the other stops it, and the first starts the next one. -/
theorem worker_life_cycle_twice : ∃ s, Reaches lifeStep Undisturbed (Life.new (Fin 2)) s ∧
    s.stopped = [0] ∧ s.workers = [.exited, .collecting] ∧ LifeOk s := by
  let acts : List (LifeAct (Fin 2)) :=
    [.startGc 0, .create 0, .store 0, .setOn 0, .stopGc 1, .callJoin 1, .look 0, .publish 0, .exit 0,
      .joined 1, .startGc 0, .create 0, .store 0, .setOn 0]
  obtain ⟨s, hexec, hstopped, hworkers⟩ : ∃ s, exec lifeStep undisturbed (Life.new (Fin 2)) acts = some s ∧
      s.stopped = [0] ∧ s.workers = [.exited, .collecting] :=
    ⟨_, rfl, rfl, rfl⟩
  have hreach := reaches_of_exec (fun _ _ => undisturbed_sound) acts hexec
  exact ⟨s, hreach, hstopped, hworkers, worker_life_cycle.1 s hreach⟩

/-- Client 1 stops worker 0; before it reads `gc_thread`, client 2 starts worker 1. Client 1 then
joins worker 1, which no stop has told to end. -/
theorem stop_joins_next_worker :
    ¬ ∀ s, Reaches lifeStep (fun _ _ => True) (Life.new (Fin 3)) s → LifeOk s := by
  intro h
  let acts : List (LifeAct (Fin 3)) :=
    [.startGc 0, .create 0, .store 0, .setOn 0, .stopGc 1, .look 0, .publish 0, .exit 0,
      .startGc 2, .create 2, .store 2, .setOn 2, .callJoin 1]
  obtain ⟨s, hexec, hjoins⟩ : ∃ s, exec lifeStep (fun _ _ => true) (Life.new (Fin 3)) acts = some s ∧
      s.joins = [(0, 1)] := ⟨_, rfl, rfl⟩
  have hok := h s (reaches_of_exec (fun _ _ _ => trivial) acts hexec)
  have hsame : 1 = 0 := hok.joined_by (0, 1) (by rw [hjoins]; exact List.mem_singleton_self _)
  cases hsame

end Chvm.Cs
