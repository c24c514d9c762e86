import Chvm.Cs.LockCalls

/-!
# No deadlock

The threads of a collected space cannot deadlock as long as `mb_free` does not come to an object whose
lock a mutator holds. When it does, they can: the mutator waits for the block that the worker keeps
while it waits for the mutator's object.
-/

set_option autoImplicit false

namespace Chvm.Cs.Locking

open Chvm.Lib Chvm.Lib.Sync

/-- The worker and the mutators call what they may call. -/
def Lawful (s : Threads Lck Shared) : ThreadAct Call → Prop
  | .call t c => Allowed s t c
  | .run _ _ => True

/-- A lock is granted when `mb_free` does not come to an object that a mutator has locked. -/
def FreesUnheld (s : Threads Lck Shared) : ThreadAct Call → Prop
  | .call _ _ => True
  | .run t _ => ∀ l, s.Waits t l → Granted t l s.data s.lck

/-- Between two calls the worker holds nothing, and a mutator at most the lock of one object. -/
def Idle (t : Tid) (g : Ghost) : Prop :=
  g = .idle ∨ t ≠ worker ∧ ∃ v wr, g = Ghost.idle.push (.cell v) wr true

variable {t : Tid} {g : Ghost} {s : Threads Lck Shared} {γ : Tid → Ghost} {v : Vaddr}

theorem Idle.below (h : Idle t g) : g.Below 1 ∧ g.own = none := by
  rcases h with rfl | ⟨-, v, wr, rfl⟩
  · exact ⟨Ghost.idle_below, rfl⟩
  · exact ⟨Ghost.idle_below.cell, rfl⟩

theorem Idle.worker (h : Idle worker g) : g = .idle := h.resolve_right fun h => h.1 rfl

/-- A thread with no object lock holds nothing. -/
theorem Idle.of_unlocked (hinv : LockInv s.data s.lck γ) (h : Idle t (γ t)) (hun : Unlocked s t) :
    γ t = .idle := by
  rcases h with hidle | ⟨-, v, wr, hg⟩
  · exact hidle
  · have hx : (⟨.cell v, wr, true⟩ : Hold) ∈ (γ t).held := hg ▸ List.mem_cons_self
    obtain ⟨hi, hj⟩ := hinv.books.tables v (hinv.books.live t _ hx rfl v rfl)
    have hfree := hun v.tableIndex hi v.cellIndex hj
    rw [hinv.holds_iff.mpr ⟨_, hx, rfl⟩] at hfree
    cases hfree

/-- The object lock that a thread holds. -/
theorem Idle.of_holds (hinv : LockInv s.data s.lck γ) (h : Idle t (γ t))
    (hv : (s.lck (.cell v)).holds t = true) : ∃ wr, γ t = Ghost.idle.push (.cell v) wr true := by
  obtain ⟨x, hx, hcell⟩ := hinv.holds_iff.mp hv
  rcases h with hg | ⟨-, w, wr, hg⟩
  · rw [hg] at hx
    cases hx
  · rw [hg] at hx
    obtain rfl := List.mem_singleton.mp hx
    cases hcell
    exact ⟨wr, hg⟩

/-- Every call keeps the order of the locks. -/
theorem keeps_body {c : Call} (hinv : LockInv s.data s.lck γ) (hidle : Idle t (γ t))
    (hallowed : Allowed s t c) : Keeps t (body c) (fun _ g => Idle t g) (γ t) := by
  obtain ⟨hbelow, hown⟩ := hidle.below
  cases c with
  | collectGarbage =>
    obtain rfl := hallowed
    rw [hidle.worker]
    exact keeps_csCollectGarbage (.inl rfl)
  | tryFullShift =>
    obtain rfl := hallowed
    rw [hidle.worker]
    exact keeps_msTryFullShift (.inl rfl)
  | mallocRoot rtLen da => exact keeps_csMallocRoot hbelow hown hidle
  | mallocObject rtLen da => exact keeps_csMallocObject hbelow hown hidle
  | root v => exact keeps_csRoot hbelow hidle
  | deroot rootId => exact keeps_csDeroot hbelow hidle
  | getRootVaddr rootId => exact .bind (keeps_csGetRootVaddr hbelow fun _ => hidle)
  | getRead v =>
    obtain ⟨hne, hun, -⟩ := hallowed
    rw [hidle.of_unlocked hinv hun]
    exact keeps_adbGet Ghost.idle_below Ghost.idle_may (.inr ⟨hne, v, false, rfl⟩)
  | getWrite v =>
    obtain ⟨hne, hun, -⟩ := hallowed
    rw [hidle.of_unlocked hinv hun]
    exact keeps_csGetWrite Ghost.idle_below Ghost.idle_may (.inr ⟨hne, v, true, rfl⟩)
  | unlock v =>
    obtain ⟨wr, hg⟩ := hidle.of_holds hinv hallowed.2
    rw [hg]
    exact keeps_adbUnlock Ghost.idle_below (.inl rfl)
  | storeRef v i w =>
    have hobj : ∀ (s : Space) u, ((s.storeRef v i w).obj u).isSome = (s.obj u).isSome := by
      intro s u
      rw [Space.obj_storeRef]
      split
      next heq => rw [heq, Option.isSome_map]
      next => rfl
    exact keeps_onSpace (Q := fun _ g => Idle t g) hobj (fun _ => ⟨rfl, rfl⟩) hidle

theorem lockInv_start (adbTCap : Nat) : LockInv (start adbTCap).data (start adbTCap).lck fun _ => .idle where
  ledger := Ledger.new
  books := ⟨nofun, nofun, fun _ => List.nodup_nil, nofun, nofun, nofun⟩
  freeing := rfl
  undisturbed := nofun

/-- In every run that meets the condition the invariant holds, and a thread that waits may do so. -/
theorem order_kept {adbTCap : Nat}
    (h : Reaches (threadStep body) (fun s a => Lawful s a ∧ FreesUnheld s a) (start adbTCap) s) :
    ∃ γ, LockInv s.data s.lck γ ∧ ∀ t l, s.Waits t l → May t (γ t) l := by
  have hadmits : Reaches (threadStep body) (spaceProtocol.Admits Allowed) (start adbTCap) s :=
    h.weaken fun m a hm => by
      cases a with
      | call t c => exact hm.1
      | run t n => exact hm.2
  have hstart : spaceProtocol.Follows Idle (start adbTCap) :=
    ⟨_, lockInv_start adbTCap, fun _ => .inl rfl⟩
  have hbody : ∀ (m : Threads Lck Shared) γ t c, LockInv m.data m.lck γ → Idle t (γ t) → Allowed m t c →
      Keeps t (body c) (fun _ g => Idle t g) (γ t) := fun _ _ _ _ => keeps_body
  exact (Protocol.follows_reach hbody hadmits hstart).may

/-- **The collected space does not deadlock** in a run in which `mb_free` never comes to an object
whose lock a mutator holds: no set of threads waits for locks that the set holds. -/
theorem no_deadlock {adbTCap : Nat}
    (h : Reaches (threadStep body) (fun s a => Lawful s a ∧ FreesUnheld s a) (start adbTCap) s)
    (S : Set Tid) : ¬ s.Deadlocked S := by
  obtain ⟨γ, hinv, hmay⟩ := order_kept h
  have htop : ∀ l, rank l ≤ 3 := by
    intro l
    cases l <;> simp only [rank] <;> omega
  apply Threads.not_deadlocked rank 3 htop
  intro t l hwait
  obtain ⟨-, hbelow | ⟨f, rfl, hown⟩ | hfrees⟩ := hmay t l hwait
  · left
    intro l' hl'
    obtain ⟨x, hx, rfl⟩ := hinv.holds_iff.mp hl'
    exact hbelow x hx
  · -- the cell is not allocated, so its holder has yet to check it
    right
    intro u _ hu
    obtain ⟨x, hx, hcell⟩ := hinv.holds_iff.mp hu
    cases hreq : (s.prog u).request with
    | none => rfl
    | some l =>
      have halloc := hinv.books.live u x hx ((hmay u l hreq).1 x hx f hcell) f hcell
      rw [(hinv.books.own t f hown).2.1] at halloc
      cases halloc
  · right
    intro u hne hu
    obtain ⟨rfl, ⟨v, rfl, hv⟩, -, hmem⟩ := hfrees
    exact absurd (hinv.undisturbed v (hinv.freeing ▸ hv) hmem u hu) hne

/-! ## Two runs -/

instance (s : Threads Lck Shared) (t : Tid) : Decidable (Unlocked s t) :=
  inferInstanceAs (Decidable (∀ i < s.data.bookLen, ∀ j < s.data.tableCap, _))

/-- A check that is enough for `Lawful`: an object that is locked is a root. -/
def lawfulCheck (s : Threads Lck Shared) : ThreadAct Call → Bool
  | .run _ _ => true
  | .call t c =>
    match c with
    | .collectGarbage | .tryFullShift => t = worker
    | .getRead v | .getWrite v =>
      t ≠ worker && decide (Unlocked s t) && s.data.roots.contains v && s.data.allocated v
    | .unlock v => t ≠ worker && (s.lck (.cell v)).holds t
    | .storeRef v _ _ => t ≠ worker && (s.lck (.cell v)).writer = some t
    | _ => t ≠ worker

theorem lawfulCheck_sound (s : Threads Lck Shared) (a : ThreadAct Call) (h : lawfulCheck s a = true) :
    Lawful s a := by
  cases a with
  | run t n => trivial
  | call t c =>
    have hroot : ∀ v, s.data.roots.contains v = true → s.data.allocated v = true → s.data.Reachable v :=
      fun v hv halloc => .base (List.contains_iff_mem.mp hv) halloc
    cases c <;> simp only [lawfulCheck, Lawful, Allowed, Bool.and_eq_true, decide_eq_true_eq] at h ⊢ <;>
      first
      | exact h
      | exact ⟨h.1.1.1, h.1.1.2, hroot _ h.1.2 h.2⟩

/-- A check that is enough for `FreesUnheld`. -/
def freesUnheldCheck (s : Threads Lck Shared) : ThreadAct Call → Bool
  | .call _ _ => true
  | .run t _ =>
    match (s.prog t).request, s.data.freeing with
    | some (.mem _), some v =>
      t ≠ worker || (s.lck (.cell v)).writer.isNone && (s.lck (.cell v)).readers.isEmpty
    | some (.cell w), some v => t = worker || w ≠ v
    | _, _ => true

theorem freesUnheldCheck_sound (s : Threads Lck Shared) (a : ThreadAct Call)
    (h : freesUnheldCheck s a = true) : FreesUnheld s a := by
  cases a with
  | call t c => trivial
  | run t n =>
    intro l hwait v hv
    unfold Threads.Waits at hwait
    cases l with
    | mem mb =>
      simp only [freesUnheldCheck, hwait, hv, Bool.or_eq_true, decide_eq_true_eq] at h
      intro ht u hu
      have hfree := h.resolve_left fun hne => hne ht
      rw [RwLock.not_holds_of_isFree hfree] at hu
      cases hu
    | cell w =>
      simp only [freesUnheldCheck, hwait, hv, Bool.or_eq_true, decide_eq_true_eq] at h
      exact fun hne hw => absurd hw (h.resolve_left hne)
    | _ => trivial

/-- A mutator locks a root object, after the collector has painted it white, and then deroots it. -/
def readAndDeroot : List (ThreadAct Call) :=
  .call 1 (.mallocRoot 0 []) :: List.replicate 46 (.run 1 5) ++
  .call worker .collectGarbage :: List.replicate 13 (.run worker 5) ++
  .call 1 (.getRead ⟨0, 0⟩) :: List.replicate 6 (.run 1 5) ++
  .call 1 (.deroot 0) :: List.replicate 3 (.run 1 5)

/-- The sweep comes to the object with the block's lock, and waits for the mutator. The mutator
allocates, and waits for the block. -/
def sweepAndMalloc : List (ThreadAct Call) :=
  readAndDeroot ++ List.replicate 56 (.run worker 5) ++
  .call 1 (.mallocObject 0 []) :: List.replicate 9 (.run 1 5)

/-- A thread that waits draws no number. -/
theorem run_of_waits {l : Lck} (h : s.Waits t l) (n m : Nat) : s.run t n = s.run t m := by
  unfold Threads.Waits at h
  unfold Threads.run
  cases hp : s.prog t with
  | draw k =>
    rw [hp] at h
    cases h
  | _ => rfl

/-- **The deadlock**: a run in which each of the two threads does what it may, and at its end they wait
for each other and cannot go on. -/
theorem held_object_freed : ∃ s, Reaches (threadStep body) Lawful (start 1) s ∧
    s.Deadlocked {worker, 1} ∧ ∀ n, s.run worker n = none ∧ s.run 1 n = none := by
  have hrun : (exec (threadStep body) lawfulCheck (start 1) sweepAndMalloc).any (fun s =>
      decide (s.Waits worker (.cell ⟨0, 0⟩) ∧ (s.lck (.cell ⟨0, 0⟩)).holds 1 = true ∧
        s.Waits 1 (.mem 0) ∧ (s.lck (.mem 0)).holds worker = true ∧
        (s.run worker 0).isNone = true ∧ (s.run 1 0).isNone = true)) = true := by
    decide +kernel
  rw [Option.any_eq_true] at hrun
  obtain ⟨s, hexec, hs⟩ := hrun
  obtain ⟨hworker, hheld, hmutator, hblock, hstuck, hstuck'⟩ := of_decide_eq_true hs
  refine ⟨s, reaches_of_exec lawfulCheck_sound _ hexec, ⟨⟨worker, .inl rfl⟩, ?_⟩, fun n => ⟨?_, ?_⟩⟩
  · rintro t (rfl | rfl)
    · exact ⟨_, hworker, 1, .inr rfl, nofun, hheld⟩
    · exact ⟨_, hmutator, worker, .inl rfl, nofun, hblock⟩
  · rw [run_of_waits hworker n 0]
    exact Option.isNone_iff_eq_none.mp hstuck
  · rw [run_of_waits hmutator n 0]
    exact Option.isNone_iff_eq_none.mp hstuck'

/-- The same objects, when the mutator gives its lock back before the sweep. -/
theorem no_deadlock_unlocked : ∃ s,
    Reaches (threadStep body) (fun s a => Lawful s a ∧ FreesUnheld s a) (start 1) s ∧
      s.data.allocated ⟨0, 0⟩ = false ∧ ∀ S, ¬ s.Deadlocked S := by
  have hrun : (exec (threadStep body) (fun s a => lawfulCheck s a && freesUnheldCheck s a) (start 1)
      (readAndDeroot ++ .call 1 (.unlock ⟨0, 0⟩) :: List.replicate 5 (.run 1 5) ++
        List.replicate 73 (.run worker 5))).any (fun s => !s.data.allocated ⟨0, 0⟩) = true := by
    decide +kernel
  rw [Option.any_eq_true] at hrun
  obtain ⟨s, hexec, hs⟩ := hrun
  have hsound : ∀ m a, (lawfulCheck m a && freesUnheldCheck m a) = true → Lawful m a ∧ FreesUnheld m a := by
    intro m a h
    rw [Bool.and_eq_true] at h
    exact ⟨lawfulCheck_sound m a h.1, freesUnheldCheck_sound m a h.2⟩
  have hreach := reaches_of_exec hsound _ hexec
  exact ⟨s, hreach, by simpa using hs, no_deadlock hreach⟩

end Chvm.Cs.Locking
