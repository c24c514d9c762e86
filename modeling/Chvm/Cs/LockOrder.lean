import Chvm.Cs.Locking

/-!
# The order of the locks

The object cells come first, then `mem_lck`, `mb_list_lck` and `root_set_lock`, then the locks taken
inside these. Two waits leave the order. A put waits for the cell of an index it has popped: nobody who
holds that cell goes on, since it is not allocated. And `mb_free` waits, with `mem_lck`, for the cell it
clears; that the object's lock is not held then is the condition under which the order is kept.

The protocol's ghost value of a thread is what it holds, which of the cells it holds are known to be
allocated, and the index it has popped from a free stack or not yet pushed back. One rule for each kind
of step says how the ghost value changes.
-/

set_option autoImplicit false

namespace Chvm.Cs.Locking

open Chvm.Lib Chvm.Lib.Sync

def rank : Lck → Nat
  | .cell _ => 0
  | .mem _ | .mbList | .rootSet => 1
  | .adb | .rnd | .gcStat | .inProgressStack => 2
  | .freeStack _ => 3

/-- A lock that a thread holds; a `live` cell is known to be allocated. -/
structure Hold where
  lck : Lck
  wr : Bool
  live : Bool
deriving DecidableEq

/-- What a thread holds, the index it has taken off a free stack, and the vaddr it frees. -/
structure Ghost where
  held : List Hold
  own : Option Vaddr
  freeing : Option Vaddr

def Ghost.locks (g : Ghost) : List (Lck × Bool) := g.held.map fun h => (h.lck, h.wr)

def Ghost.push (g : Ghost) (l : Lck) (wr live : Bool) : Ghost := { g with held := ⟨l, wr, live⟩ :: g.held }

/-- The cells held are allocated. -/
def Ghost.Calm (g : Ghost) : Prop := ∀ h ∈ g.held, ∀ v, h.lck = .cell v → h.live = true

/-- The thread holds locks below the rank only. -/
def Ghost.Below (g : Ghost) (n : Nat) : Prop := g.Calm ∧ ∀ h ∈ g.held, rank h.lck < n

/-- The worker inside `mb_free`, at the cell that it frees. -/
def Ghost.Frees (g : Ghost) (t : Tid) (l : Lck) : Prop :=
  t = worker ∧ (∃ v, l = .cell v ∧ g.freeing = some v) ∧ (∀ h ∈ g.held, ∀ v, h.lck ≠ .cell v) ∧
    ∃ h ∈ g.held, ∃ mb, h.lck = .mem mb

/-- What a thread may wait for: a lock above those it holds, or one of the two exceptions. -/
def May (t : Tid) (g : Ghost) (l : Lck) : Prop :=
  g.Calm ∧ ((∀ h ∈ g.held, rank h.lck < rank l) ∨ (∃ f, l = .cell f ∧ g.own = some f) ∨ g.Frees t l)

/-- Where the indices are: an allocated cell is in the tables, an index on a free stack or in a
thread's hands is not allocated, and in one place. -/
structure Books (d : Shared) (γ : Tid → Ghost) : Prop where
  tables : ∀ v, d.allocated v = true → d.InTables v
  stack : ∀ e i, i ∈ d.freeStack e → d.InTables ⟨e, i⟩ ∧ d.allocated ⟨e, i⟩ = false
  stackNodup : ∀ e, (d.freeStack e).Nodup
  live : ∀ t, ∀ h ∈ (γ t).held, h.live = true → ∀ v, h.lck = .cell v → d.allocated v = true
  own : ∀ t f, (γ t).own = some f →
    d.InTables f ∧ d.allocated f = false ∧ f.cellIndex ∉ d.freeStack f.tableIndex
  ownOnce : ∀ t u f, (γ t).own = some f → (γ u).own = some f → t = u

/-- No mutator holds the lock of the object that `mb_free` is about to clear, from the moment
`mb_free` has `mem_lck`. -/
structure LockInv (d : Shared) (lck : Lck → RwLock) (γ : Tid → Ghost) : Prop where
  ledger : Ledger lck fun t => (γ t).locks
  books : Books d γ
  freeing : (γ worker).freeing = d.freeing
  undisturbed : ∀ v, d.freeing = some v → (∃ h ∈ (γ worker).held, ∃ mb, h.lck = .mem mb) →
    ∀ u, (lck (.cell v)).holds u = true → u = worker

/-- The condition on the grants: `mb_free` gets `mem_lck` when no mutator holds the lock of the object
it frees, and until the cell is cleared no mutator gets that lock. -/
def Granted (t : Tid) (l : Lck) (d : Shared) (lck : Lck → RwLock) : Prop :=
  ∀ v, d.freeing = some v →
    match l with
    | .mem _ => t = worker → ∀ u, (lck (.cell v)).holds u = true → u = worker
    | .cell w => t ≠ worker → w = v → ∀ mb, (lck (.mem mb)).holds worker = false
    | _ => True

def spaceProtocol : Protocol Lck Shared Ghost := ⟨LockInv, May, Granted⟩

/-- The thread's program keeps the order. -/
abbrev Keeps {α : Type} (t : Tid) (p : Code α) (Q : α → Ghost → Prop) (g : Ghost) : Prop :=
  spaceProtocol.Ok t p Q g

variable {α β : Type} {t : Tid} {g g' : Ghost} {l : Lck} {wr live : Bool} {d d' : Shared}
  {lck : Lck → RwLock} {γ : Tid → Ghost} {v : Vaddr}

/-! ## Locks -/

theorem mem_locks {wr : Bool} : (l, wr) ∈ g.locks ↔ ∃ live, ⟨l, wr, live⟩ ∈ g.held := by
  unfold Ghost.locks
  rw [List.mem_map]
  constructor
  · rintro ⟨⟨l', wr', live⟩, hmem, heq⟩
    cases heq
    exact ⟨live, hmem⟩
  · rintro ⟨live, hmem⟩
    exact ⟨_, hmem, rfl⟩

theorem LockInv.holds_iff (h : LockInv d lck γ) :
    (lck l).holds t = true ↔ ∃ x ∈ (γ t).held, x.lck = l := by
  rw [h.ledger.holds_iff]
  constructor
  · rintro ⟨wr, hmem⟩
    obtain ⟨live, hx⟩ := mem_locks.mp hmem
    exact ⟨_, hx, rfl⟩
  · rintro ⟨⟨l', wr, live⟩, hx, rfl⟩
    exact ⟨wr, mem_locks.mpr ⟨live, hx⟩⟩

/-- A thread does not hold what it may wait for. -/
theorem LockInv.not_held (h : LockInv d lck γ) (hmay : May t (γ t) l) :
    ∀ x ∈ (γ t).held, x.lck ≠ l := by
  rintro x hx rfl
  rcases hmay with ⟨hcalm, hbelow | ⟨f, hf, hown⟩ | hfrees⟩
  · exact absurd (hbelow x hx) (Nat.lt_irrefl _)
  · have halloc := h.books.live t x hx (hcalm x hx f hf) f hf
    rw [(h.books.own t f hown).2.1] at halloc
    cases halloc
  · obtain ⟨-, ⟨v, hv, -⟩, hcells, -⟩ := hfrees
    exact hcells x hx v hv

/-- A thread that holds other locks, but knows no more. -/
theorem Books.hold (h : Books d γ) (hlive : ∀ x ∈ g'.held, x.live = true → x ∈ (γ t).held)
    (hown : g'.own = (γ t).own) : Books d (Function.update γ t g') := by
  have howns : ∀ u, (Function.update γ t g' u).own = (γ u).own := by
    intro u
    by_cases hu : u = t
    · subst hu
      rw [Function.update_self, hown]
    · rw [Function.update_of_ne hu]
  refine ⟨h.tables, h.stack, h.stackNodup, fun u x hx hxl => ?_, fun u f hf => ?_, fun u u' f hf hf' => ?_⟩
  · by_cases hu : u = t
    · subst hu
      rw [Function.update_self] at hx
      exact h.live u x (hlive x hx hxl) hxl
    · rw [Function.update_of_ne hu] at hx
      exact h.live u x hx hxl
  · exact h.own u f (howns u ▸ hf)
  · exact h.ownOnce u u' f (howns u ▸ hf) (howns u' ▸ hf')

theorem holds_of_acquire {r r' : RwLock} {u : Tid} (h : r.acquire wr t = some r')
    (hu : r'.holds u = true) : u = t ∨ r.holds u = true := by
  unfold RwLock.acquire at h
  cases wr with
  | true =>
    simp only [if_true, Option.ite_none_right_eq_some, Option.some.injEq] at h
    obtain ⟨hfree, rfl⟩ := h
    exact .inl ((RwLock.holds_acqWrite hfree).mp hu)
  | false =>
    simp only [Bool.false_eq_true, if_false, Option.ite_none_right_eq_some, Option.some.injEq] at h
    obtain ⟨-, rfl⟩ := h
    exact RwLock.holds_acqRead.mp hu

/-- The invariant when a thread gets a lock it does not hold. -/
theorem LockInv.acquire (h : LockInv d lck γ) {lck' : RwLock} (hnot : ∀ x ∈ (γ t).held, x.lck ≠ l)
    (hgrant : Granted t l d lck) (hacq : (lck l).acquire wr t = some lck') :
    LockInv d (Function.update lck l lck') (Function.update γ t ((γ t).push l wr false)) := by
  have hothers : ∀ u ≠ t, Function.update γ t ((γ t).push l wr false) u = γ u := fun u hu =>
    Function.update_of_ne hu _ _
  refine ⟨h.ledger.acquire (fun wr' hmem => ?_) hacq (fun u hu => ?_) ?_, h.books.hold ?_ rfl, ?_, ?_⟩
  · obtain ⟨live, hx⟩ := mem_locks.mp hmem
    exact hnot _ hx rfl
  · rw [hothers u hu]
  · rw [Function.update_self]
    rfl
  · intro x hx hlive
    rcases List.mem_cons.mp hx with rfl | hx
    · cases hlive
    · exact hx
  · by_cases ht : worker = t
    · subst ht
      rw [Function.update_self]
      exact h.freeing
    · rw [hothers worker ht]
      exact h.freeing
  · intro v hv hmem u hu
    by_cases hold : ∃ x ∈ (γ worker).held, ∃ mb, x.lck = .mem mb
    · by_cases hl : l = .cell v
      · subst hl
        rw [Function.update_self] at hu
        rcases holds_of_acquire hacq hu with rfl | hu
        · by_contra hne
          obtain ⟨x, hx, mb, hmb⟩ := hold
          have hfalse := hgrant v hv hne rfl mb
          rw [h.holds_iff.mpr ⟨x, hx, hmb⟩] at hfalse
          cases hfalse
        · exact h.undisturbed v hv hold u hu
      · rw [Function.update_of_ne (Ne.symm hl)] at hu
        exact h.undisturbed v hv hold u hu
    · -- the worker gets the lock of the block
      obtain ⟨x, hx, mb, hmb⟩ := hmem
      by_cases ht : worker = t
      · subst ht
        rw [Function.update_self] at hx
        rcases List.mem_cons.mp hx with rfl | hx
        · cases hmb
          rw [Function.update_of_ne (by simp)] at hu
          exact hgrant v hv rfl u hu
        · exact absurd ⟨x, hx, mb, hmb⟩ hold
      · rw [hothers worker ht] at hx
        exact absurd ⟨x, hx, mb, hmb⟩ hold

/-- The invariant when a thread gives a lock back. -/
theorem LockInv.release (h : LockInv d lck γ) (hmem : ⟨l, wr, live⟩ ∈ (γ t).held) :
    LockInv d (Function.update lck l ((lck l).release t))
      (Function.update γ t { γ t with held := (γ t).held.erase ⟨l, wr, live⟩ }) := by
  have hothers : ∀ u ≠ t,
      Function.update γ t { γ t with held := (γ t).held.erase ⟨l, wr, live⟩ } u = γ u := fun u hu =>
    Function.update_of_ne hu _ _
  have honce := h.ledger.once t
  simp only [Ghost.locks, List.map_map] at honce
  have hnodup : (γ t).held.Nodup := .of_map _ honce
  refine ⟨h.ledger.release (mem_locks.mpr ⟨live, hmem⟩) (fun u hu => ?_) ?_ ?_,
    h.books.hold (fun x hx _ => List.mem_of_mem_erase hx) rfl, ?_, ?_⟩
  · rw [hothers u hu]
  · rintro ⟨l', wr'⟩
    simp only [Function.update_self, mem_locks, hnodup.mem_erase_iff]
    constructor
    · rintro ⟨live', hne, hin⟩
      refine ⟨fun heq => hne ?_, live', hin⟩
      exact List.inj_on_of_nodup_map honce hin hmem (congrArg Prod.fst heq)
    · rintro ⟨hne, live', hin⟩
      refine ⟨live', fun heq => hne ?_, hin⟩
      cases heq
      rfl
  · simp only [Function.update_self, Ghost.locks, List.map_map]
    exact (List.erase_sublist.map _).nodup honce
  · by_cases ht : worker = t
    · subst ht
      rw [Function.update_self]
      exact h.freeing
    · rw [hothers worker ht]
      exact h.freeing
  · intro v hv hmem' u hu
    refine h.undisturbed v hv ?_ u ?_
    · obtain ⟨x, hx, hmb⟩ := hmem'
      by_cases ht : worker = t
      · subst ht
        rw [Function.update_self] at hx
        exact ⟨x, List.mem_of_mem_erase hx, hmb⟩
      · rw [hothers worker ht] at hx
        exact ⟨x, hx, hmb⟩
    · by_cases hl : l = .cell v
      · subst hl
        rw [Function.update_self] at hu
        exact RwLock.holds_of_holds_release hu
      · rwa [Function.update_of_ne (Ne.symm hl)] at hu

/-! ## The data -/

/-- The data after a step that moves no index. -/
structure SameCells (d d' : Shared) : Prop where
  allocated : ∀ v, d'.allocated v = d.allocated v
  freeStack : d'.freeStack = d.freeStack
  bookLen : d'.bookLen = d.bookLen
  tableCap : d'.tableCap = d.tableCap

/-- And that is not the start or the end of a free. -/
structure Same (d d' : Shared) : Prop extends SameCells d d' where
  freeing : d'.freeing = d.freeing

theorem Same.refl (d : Shared) : Same d d := ⟨⟨fun _ => rfl, rfl, rfl, rfl⟩, rfl⟩

theorem SameCells.inTables (h : SameCells d d') : d'.InTables v ↔ d.InTables v := by
  unfold Shared.InTables
  rw [h.bookLen, h.tableCap]

theorem Books.same (h : Books d γ) (hsame : SameCells d d') : Books d' γ := by
  constructor
  · intro v hv
    rw [hsame.allocated] at hv
    exact hsame.inTables.mpr (h.tables v hv)
  · intro e i hi
    rw [hsame.freeStack] at hi
    rw [hsame.inTables, hsame.allocated]
    exact h.stack e i hi
  · rw [hsame.freeStack]
    exact h.stackNodup
  · intro u x hx hlive v hv
    rw [hsame.allocated]
    exact h.live u x hx hlive v hv
  · intro u f hf
    rw [hsame.inTables, hsame.allocated, hsame.freeStack]
    exact h.own u f hf
  · exact h.ownOnce

/-- The invariant when a thread changes the data but not its locks. -/
theorem LockInv.data (h : LockInv d lck γ) (hbooks : Books d' (Function.update γ t g'))
    (hlocks : g'.locks = (γ t).locks) (hfreeing : (Function.update γ t g' worker).freeing = d'.freeing)
    (hmark : ∀ v, d'.freeing = some v →
      d.freeing = some v ∨ ∀ x ∈ (γ worker).held, ∀ mb, x.lck ≠ .mem mb) :
    LockInv d' lck (Function.update γ t g') := by
  have hall : ∀ u, (Function.update γ t g' u).locks = (γ u).locks := by
    intro u
    by_cases hu : u = t
    · subst hu
      rw [Function.update_self, hlocks]
    · rw [Function.update_of_ne hu]
  refine ⟨?_, hbooks, hfreeing, ?_⟩
  · simp only [hall]
    exact h.ledger
  · intro v hv hmem u hu
    have hmem' : ∃ x ∈ (γ worker).held, ∃ mb, x.lck = .mem mb := by
      obtain ⟨⟨_, wr, live⟩, hx, mb, rfl⟩ := hmem
      have hin : (.mem mb, wr) ∈ (γ worker).locks := hall worker ▸ mem_locks.mpr ⟨live, hx⟩
      obtain ⟨live', hx'⟩ := mem_locks.mp hin
      exact ⟨_, hx', mb, rfl⟩
    rcases hmark v hv with hold | hnone
    · exact h.undisturbed v hold hmem' u hu
    · obtain ⟨x, hx, mb, hmb⟩ := hmem'
      exact absurd hmb (hnone x hx mb)

/-- A step that moves no index and leaves the thread what it holds. -/
theorem LockInv.quiet (h : LockInv d lck γ) (hbooks : Books d' (Function.update γ t g'))
    (hlocks : g'.locks = (γ t).locks) (hfreeing : d'.freeing = d.freeing)
    (hmine : g'.freeing = (γ t).freeing) : LockInv d' lck (Function.update γ t g') := by
  refine h.data hbooks hlocks ?_ fun v hv => .inl (hfreeing ▸ hv)
  rw [hfreeing, ← h.freeing]
  by_cases ht : worker = t
  · subst ht
    rw [Function.update_self, hmine]
  · rw [Function.update_of_ne ht]

theorem LockInv.same (h : LockInv d lck γ) (hsame : Same d d') :
    LockInv d' lck (Function.update γ t (γ t)) :=
  h.quiet (by rw [Function.update_eq_self]; exact h.books.same hsame.toSameCells) rfl hsame.freeing rfl

/-! ## The indices -/

/-- An index in a thread's hands. -/
def Shared.InHands (d : Shared) (f : Vaddr) : Prop :=
  d.InTables f ∧ d.allocated f = false ∧ f.cellIndex ∉ d.freeStack f.tableIndex

/-- What a step on an index has to show: the part of the thread that makes it, and that of the
others. -/
theorem Books.move (h : Books d γ) (htables : ∀ v, d'.allocated v = true → d'.InTables v)
    (hstack : ∀ e i, i ∈ d'.freeStack e → d'.InTables ⟨e, i⟩ ∧ d'.allocated ⟨e, i⟩ = false)
    (hnodup : ∀ e, (d'.freeStack e).Nodup)
    (hlive : ∀ x ∈ g'.held, x.live = true → ∀ v, x.lck = .cell v → d'.allocated v = true)
    (hown : ∀ f, g'.own = some f → d'.InHands f)
    (hlives : ∀ u ≠ t, ∀ x ∈ (γ u).held, x.live = true → ∀ v, x.lck = .cell v → d'.allocated v = true)
    (howns : ∀ u ≠ t, ∀ f, (γ u).own = some f → d'.InHands f ∧ g'.own ≠ some f) :
    Books d' (Function.update γ t g') := by
  have hself : Function.update γ t g' t = g' := Function.update_self ..
  have hothers : ∀ u ≠ t, Function.update γ t g' u = γ u := fun u hu => Function.update_of_ne hu _ _
  refine ⟨htables, hstack, hnodup, fun u x hx hxl => ?_, fun u f hf => ?_, fun u u' f hf hf' => ?_⟩
  · by_cases hu : u = t
    · subst hu
      exact hlive x (hself ▸ hx) hxl
    · exact hlives u hu x (hothers u hu ▸ hx) hxl
  · by_cases hu : u = t
    · subst hu
      exact hown f (hself ▸ hf)
    · exact (howns u hu f (hothers u hu ▸ hf)).1
  · by_cases hu : u = t
    · subst hu
      by_cases hu' : u' = u
      · exact hu'.symm
      · exact absurd (hself ▸ hf) (howns u' hu' f (hothers u' hu' ▸ hf')).2
    · rw [hothers u hu] at hf
      by_cases hu' : u' = t
      · subst hu'
        exact absurd (hself ▸ hf') (howns u hu f hf).2
      · exact h.ownOnce u u' f hf (hothers u' hu' ▸ hf')

theorem allocated_install (v w : Vaddr) :
    (d.install v).allocated w = if w = v then true else d.allocated w := by
  show ((d.toSpace.setObj v _).obj w).isSome = if w = v then true else (d.obj w).isSome
  rw [Space.obj_setObj]
  split <;> rfl

theorem allocated_clear (v w : Vaddr) :
    (d.clear v).allocated w = if w = v then false else d.allocated w := by
  show ((d.toSpace.setObj v _).obj w).isSome = if w = v then false else (d.obj w).isSome
  rw [Space.obj_setObj]
  split <;> rfl

theorem freeStack_setStack (e e' : Nat) (stack : List Nat) :
    (d.setStack e stack).freeStack e' = if e' = e then stack else d.freeStack e' :=
  Function.update_apply ..

theorem popFree_cases (d : Shared) (e : Nat) : d.popFree e = (none, d) ∨
    ∃ i rest full, d.freeStack e = rest ++ [i] ∧ d.popFree e = (some (i, full), d.setStack e rest) := by
  unfold Shared.popFree
  cases hlast : (d.freeStack e).getLast? with
  | none => exact .inl rfl
  | some i => exact .inr ⟨i, _, _, (List.dropLast_append_getLast? i hlast).symm, rfl⟩

/-- The popped index is in the thread's hands. -/
theorem Books.pop (h : Books d γ) {e i : Nat} {rest : List Nat} (hlast : d.freeStack e = rest ++ [i])
    (hown : g'.own = some ⟨e, i⟩) (hheld : g'.held = (γ t).held) :
    Books (d.setStack e rest) (Function.update γ t g') := by
  have hsub : ∀ e' i', i' ∈ (d.setStack e rest).freeStack e' → i' ∈ d.freeStack e' := by
    intro e' i' hi
    rw [freeStack_setStack] at hi
    split at hi
    next heq =>
      rw [heq, hlast]
      exact List.mem_append_left _ hi
    next => exact hi
  have hnodup := h.stackNodup e
  rw [hlast, List.nodup_append] at hnodup
  have hin : i ∈ d.freeStack e := by
    rw [hlast]
    exact List.mem_append_right _ (List.mem_singleton_self i)
  refine h.move h.tables (fun e' i' hi => h.stack e' i' (hsub e' i' hi)) (fun e' => ?_)
    (fun x hx => h.live t x (hheld ▸ hx)) (fun f hf => ?_) (fun u _ => h.live u) fun u hu f hf => ⟨?_, ?_⟩
  · rw [freeStack_setStack]
    split
    · exact hnodup.1
    · exact h.stackNodup e'
  · cases hown.symm.trans hf
    refine ⟨(h.stack e i hin).1, (h.stack e i hin).2, fun hmem => ?_⟩
    rw [freeStack_setStack, if_pos rfl] at hmem
    exact hnodup.2.2 i hmem i (List.mem_singleton_self i) rfl
  · obtain ⟨htables, halloc, hout⟩ := h.own u f hf
    exact ⟨htables, halloc, fun hmem => hout (hsub _ _ hmem)⟩
  · intro heq
    cases hown.symm.trans heq
    exact (h.own u _ hf).2.2 hin

/-- The popped index is written. -/
theorem Books.install (h : Books d γ) {f : Vaddr} (hf : (γ t).own = some f) (hown : g'.own = none)
    (hheld : ∀ x ∈ g'.held, x.live = true → x.lck = .cell f ∨ x ∈ (γ t).held) :
    Books (d.install f) (Function.update γ t g') := by
  obtain ⟨htables, halloc, hout⟩ := h.own t f hf
  have hmore : ∀ v, d.allocated v = true → (d.install f).allocated v = true := by
    intro v hv
    rw [allocated_install]
    split
    · rfl
    · exact hv
  have hrest : ∀ w, d.allocated w = false → w ≠ f → (d.install f).allocated w = false := by
    intro w hw hne
    rw [allocated_install, if_neg hne, hw]
  refine h.move (fun v hv => ?_) (fun e i hi => ⟨(h.stack e i hi).1, hrest _ (h.stack e i hi).2 ?_⟩)
    h.stackNodup (fun x hx hlive v hv => ?_) (fun f' hf' => nomatch hown.symm.trans hf')
    (fun u _ x hx hlive v hv => hmore v (h.live u x hx hlive v hv)) fun u hu f' hf' => ⟨?_, ?_⟩
  · rw [allocated_install] at hv
    split at hv
    next heq => exact heq ▸ htables
    next => exact h.tables v hv
  · rintro rfl
    exact hout hi
  · rcases hheld x hx hlive with hcell | hmem
    · cases hcell.symm.trans hv
      rw [allocated_install, if_pos rfl]
    · exact hmore v (h.live t x hmem hlive v hv)
  · have hne : f' ≠ f := fun heq => hu (h.ownOnce u t f (heq ▸ hf') hf)
    exact ⟨(h.own u f' hf').1, hrest f' (h.own u f' hf').2.1 hne, (h.own u f' hf').2.2⟩
  · rw [hown]
    nofun

/-- A cell is cleared under its write lock: its index is in the thread's hands. -/
theorem Books.clear (h : Books d γ) (hv : d.allocated v = true) (hown : g'.own = some v)
    (hheld : ∀ x ∈ g'.held, x.live = true → x.lck ≠ .cell v ∧ x ∈ (γ t).held)
    (halone : ∀ u ≠ t, ∀ x ∈ (γ u).held, x.lck ≠ .cell v) :
    Books (d.clear v) (Function.update γ t g') := by
  have hkeep : ∀ w, w ≠ v → d.allocated w = true → (d.clear v).allocated w = true := by
    intro w hne hw
    rw [allocated_clear, if_neg hne, hw]
  have hless : ∀ w, d.allocated w = false → (d.clear v).allocated w = false := by
    intro w hw
    rw [allocated_clear]
    split
    · rfl
    · exact hw
  refine h.move (fun w hw => ?_) (fun e i hi => ⟨(h.stack e i hi).1, hless _ (h.stack e i hi).2⟩)
    h.stackNodup (fun x hx hlive w hw => ?_) (fun f hf => ?_) (fun u hu x hx hlive w hw => ?_)
    fun u hu f hf => ⟨⟨(h.own u f hf).1, hless f (h.own u f hf).2.1, (h.own u f hf).2.2⟩, ?_⟩
  · rw [allocated_clear] at hw
    split at hw
    · cases hw
    · exact h.tables w hw
  · obtain ⟨hne, hmem⟩ := hheld x hx hlive
    exact hkeep w (fun heq => hne (heq ▸ hw)) (h.live t x hmem hlive w hw)
  · cases hown.symm.trans hf
    refine ⟨h.tables v hv, ?_, fun hmem => ?_⟩
    · rw [allocated_clear, if_pos rfl]
    · rw [(h.stack _ _ hmem).2] at hv
      cases hv
  · exact hkeep w (fun heq => halone u hu x hx (heq ▸ hw)) (h.live u x hx hlive w hw)
  · intro heq
    cases hown.symm.trans heq
    rw [(h.own u v hf).2.1] at hv
    cases hv

/-- The index goes back on the stack. -/
theorem Books.pushFree (h : Books d γ) {f : Vaddr} (hf : (γ t).own = some f) (hown : g'.own = none)
    (hheld : g'.held = (γ t).held) : Books (d.pushFree f).2 (Function.update γ t g') := by
  obtain ⟨htables, halloc, hout⟩ := h.own t f hf
  have hstack : ∀ e i, i ∈ (d.pushFree f).2.freeStack e → i ∈ d.freeStack e ∨ (⟨e, i⟩ : Vaddr) = f := by
    intro e i hi
    rw [Shared.pushFree, freeStack_setStack] at hi
    split at hi
    next heq =>
      subst heq
      rcases List.mem_append.mp hi with hi | hi
      · exact .inl hi
      · rw [List.mem_singleton.mp hi]
        exact .inr rfl
    next => exact .inl hi
  refine h.move h.tables (fun e i hi => ?_) (fun e => ?_) (fun x hx => h.live t x (hheld ▸ hx))
    (fun f' hf' => nomatch hown.symm.trans hf') (fun u _ => h.live u) fun u hu f' hf' => ⟨?_, ?_⟩
  · rcases hstack e i hi with hi | heq
    · exact h.stack e i hi
    · rw [heq]
      exact ⟨htables, halloc⟩
  · rw [Shared.pushFree, freeStack_setStack]
    split
    · rw [List.nodup_append]
      refine ⟨h.stackNodup _, List.nodup_singleton _, fun i hi j hj heq => ?_⟩
      rw [heq, List.mem_singleton.mp hj] at hi
      exact hout hi
    · exact h.stackNodup e
  · obtain ⟨htables', halloc', hout'⟩ := h.own u f' hf'
    refine ⟨htables', halloc', fun hmem => ?_⟩
    rcases hstack _ _ hmem with hmem | heq
    · exact hout' hmem
    · exact hu (h.ownOnce u t f (heq ▸ hf') hf)
  · rw [hown]
    nofun

/-- A new table: all of its indices are on its stack. -/
theorem Books.expand (h : Books d γ) : Books d.expand γ := by
  have hin : ∀ v, d.InTables v → d.expand.InTables v := fun v hv => ⟨Nat.lt_succ_of_lt hv.1, hv.2⟩
  have hstack : ∀ e, d.expand.freeStack e =
      if e = d.bookLen then List.range d.tableCap else d.freeStack e := fun e => freeStack_setStack ..
  refine ⟨fun v hv => hin v (h.tables v hv), fun e i hi => ?_, fun e => ?_, h.live, fun u f hf => ?_,
    h.ownOnce⟩
  · rw [hstack] at hi
    split at hi
    next heq =>
      subst heq
      refine ⟨⟨Nat.lt_succ_self _, List.mem_range.mp hi⟩, Bool.eq_false_iff.mpr fun halloc => ?_⟩
      exact absurd (h.tables _ halloc).1 (Nat.lt_irrefl _)
    next => exact ⟨hin _ (h.stack e i hi).1, (h.stack e i hi).2⟩
  · rw [hstack]
    split
    · exact List.nodup_range
    · exact h.stackNodup e
  · obtain ⟨htables, halloc, hout⟩ := h.own u f hf
    refine ⟨hin f htables, halloc, ?_⟩
    rw [hstack, if_neg (Nat.ne_of_lt htables.1)]
    exact hout

/-! ## One rule for each step -/

variable {Q : α → Ghost → Prop}

theorem keeps_take {Q : Unit → Ghost → Prop} (hmay : May t g l) (hQ : Q () (g.push l wr false)) :
    Keeps t (take l wr) Q g := by
  refine ⟨hmay, ?_⟩
  rintro d lck γ lck' hinv rfl hgrant hacq
  exact ⟨_, hinv.acquire (hinv.not_held hmay) hgrant hacq, hQ⟩

theorem keeps_release {Q : Unit → Ghost → Prop} (hmem : ⟨l, wr, live⟩ ∈ g.held)
    (hQ : Q () { g with held := g.held.erase ⟨l, wr, live⟩ }) : Keeps t (release l) Q g := by
  rintro d lck γ hinv rfl
  exact ⟨_, hinv.release hmem, hQ⟩

theorem keeps_release_top {Q : Unit → Ghost → Prop} (hQ : Q () g) :
    Keeps t (release l) Q (g.push l wr live) := by
  apply keeps_release List.mem_cons_self
  simp only [Ghost.push, List.erase_cons_head]
  exact hQ

/-- The lock under the one taken last. -/
theorem keeps_release_under {Q : Unit → Ghost → Prop} {l' : Lck} {wr' live' : Bool} (hne : l' ≠ l)
    (hQ : Q () (g.push l' wr' live')) :
    Keeps t (release l) Q ((g.push l wr live).push l' wr' live') := by
  apply keeps_release (List.mem_cons_of_mem _ List.mem_cons_self)
  have hhead : ¬((⟨l', wr', live'⟩ : Hold) == ⟨l, wr, live⟩) = true := by
    rw [beq_iff_eq]
    exact fun heq => hne (congrArg Hold.lck heq)
  simp only [Ghost.push, List.erase_cons_tail hhead, List.erase_cons_head]
  exact hQ

/-- The worker tries a cell that it does not hold. -/
theorem keeps_trylock {Q : Bool → Ghost → Prop} (hnot : ∀ x ∈ g.held, x.lck ≠ .cell v)
    (hgot : Q true (g.push (.cell v) true false)) (hbusy : Q false g) :
    Keeps worker (trylock (.cell v)) Q g := by
  refine ⟨?_, hbusy⟩
  rintro d lck γ lck' hinv rfl hacq
  exact ⟨_, hinv.acquire hnot (fun _ _ hne => absurd rfl hne) hacq, hgot⟩

/-- A step on the data: what it makes of the invariant, and of the thread's ghost value. -/
theorem keeps_modifyGet {f : Shared → α × Shared} (h : ∀ d lck γ, LockInv d lck γ → γ t = g →
    ∃ g', LockInv (f d).2 lck (Function.update γ t g') ∧ Q (f d).1 g') : Keeps t (modifyGet f) Q g := h

theorem keeps_modify {Q : Unit → Ghost → Prop} {f : Shared → Shared}
    (h : ∀ d lck γ, LockInv d lck γ → γ t = g →
      ∃ g', LockInv (f d) lck (Function.update γ t g') ∧ Q () g') : Keeps t (modify f) Q g := h

theorem keeps_gets {f : Shared → α} (hQ : ∀ a, Q a g) : Keeps t (gets f) Q g := by
  rintro d lck γ hinv rfl
  exact ⟨_, hinv.same (.refl d), hQ _⟩

theorem keeps_modifyGet_same {f : Shared → α × Shared} (hsame : ∀ d, Same d (f d).2)
    (hQ : ∀ a, Q a g) : Keeps t (modifyGet f) Q g := by
  apply keeps_modifyGet
  rintro d lck γ hinv rfl
  exact ⟨_, hinv.same (hsame d), hQ _⟩

theorem keeps_modify_same {Q : Unit → Ghost → Prop} {f : Shared → Shared} (hsame : ∀ d, Same d (f d))
    (hQ : Q () g) : Keeps t (modify f) Q g := by
  apply keeps_modify
  rintro d lck γ hinv rfl
  exact ⟨_, hinv.same (hsame d), hQ⟩

theorem keeps_arbitrary {Q : Nat → Ghost → Prop} (hQ : ∀ n, Q n g) : Keeps t arbitrary Q g := hQ

theorem keeps_halt : Keeps t (halt : Code α) Q g := trivial

theorem keeps_ite {c : Prop} [Decidable c] {p q : Code α} (hp : Keeps t p Q g) (hq : Keeps t q Q g) :
    Keeps t (if c then p else q) Q g := by
  split
  · exact hp
  · exact hq

/-- Past the check the cell is known to be allocated. -/
theorem keeps_validateCell {Q : Unit → Ghost → Prop} (hQ : Q () (g.push (.cell v) wr true)) :
    Keeps t (adtValidateCell v) Q (g.push (.cell v) wr false) := by
  apply Protocol.Ok.bind
  rintro d lck γ hinv hg
  cases halloc : d.allocated v with
  | true =>
    refine ⟨g.push (.cell v) wr true, hinv.quiet (hinv.books.move hinv.books.tables hinv.books.stack
      hinv.books.stackNodup ?_ ?_ (fun u _ => hinv.books.live u) ?_) ?_ rfl ?_, ?_⟩
    · intro x hx hlive w hw
      rcases List.mem_cons.mp hx with rfl | hx
      · cases hw
        exact halloc
      · exact hinv.books.live t x (hg ▸ List.mem_cons_of_mem _ hx) hlive w hw
    · intro f hf
      exact hinv.books.own t f (hg ▸ hf)
    · intro u hu f hf
      exact ⟨hinv.books.own u f hf, fun heq => hu (hinv.books.ownOnce u t f hf (hg ▸ heq))⟩
    · rw [hg]
      rfl
    · rw [hg]
      rfl
    · show Keeps t (if (!d.allocated v) = true then _ else _) Q _
      rw [halloc]
      exact hQ
  | false =>
    refine ⟨γ t, hinv.same (.refl d), ?_⟩
    show Keeps t (if (!d.allocated v) = true then _ else _) Q _
    rw [halloc, hg]
    exact .bind (keeps_release_top keeps_halt)

/-- The pop of `adt_put_p`. -/
theorem keeps_popFree {Q : Option (Nat × Bool) → Ghost → Prop} {e : Nat} (hnone : Q none g)
    (hsome : ∀ i full, Q (some (i, full)) { g with own := some ⟨e, i⟩ }) :
    Keeps t (modifyGet (·.popFree e)) Q g := by
  apply keeps_modifyGet
  rintro d lck γ hinv rfl
  rcases popFree_cases d e with hpop | ⟨i, rest, full, hlast, hpop⟩
  · simp only [hpop]
    exact ⟨_, hinv.same (.refl d), hnone⟩
  · simp only [hpop]
    exact ⟨{ γ t with own := some ⟨e, i⟩ }, hinv.quiet (hinv.books.pop hlast rfl rfl) rfl rfl rfl,
      hsome i full⟩

/-- The popped index is written, under the lock of its cell. -/
theorem keeps_install {Q : Unit → Ghost → Prop} {f : Vaddr} (hown : g.own = some f)
    (hQ : Q () ({ g with own := none }.push (.cell f) true true)) :
    Keeps t (modify (·.install f)) Q (g.push (.cell f) true false) := by
  apply keeps_modify
  rintro d lck γ hinv hg
  have hown' : (γ t).own = some f := hg ▸ hown
  refine ⟨_, hinv.quiet (hinv.books.install hown' rfl fun x hx hlive => ?_) ?_ rfl ?_, hQ⟩
  · rcases List.mem_cons.mp hx with rfl | hx
    · exact .inl rfl
    · exact .inr (hg ▸ List.mem_cons_of_mem _ hx)
  · rw [hg]
    rfl
  · rw [hg]
    rfl

/-- The worker clears a cell, under its write lock. -/
theorem keeps_clear {Q : Unit → Ghost → Prop}
    (hQ : Q () ({ g with own := some v, freeing := none }.push (.cell v) true false)) :
    Keeps worker (modify (·.clear v)) Q (g.push (.cell v) true true) := by
  apply keeps_modify
  rintro d lck γ hinv hg
  have hmem : ⟨.cell v, true, true⟩ ∈ (γ worker).held := hg ▸ List.mem_cons_self
  have halloc := hinv.books.live worker _ hmem rfl v rfl
  have honce := hinv.ledger.once worker
  simp only [hg, Ghost.locks, Ghost.push, List.map_cons, List.nodup_cons, List.mem_map] at honce
  refine ⟨_, hinv.data (hinv.books.clear halloc rfl (fun x hx hlive => ?_) fun u hu x hx hcell => ?_)
    ?_ ?_ nofun, hQ⟩
  · rcases List.mem_cons.mp hx with rfl | hx
    · cases hlive
    · refine ⟨fun hcell => honce.1 ⟨_, ⟨x, hx, rfl⟩, hcell⟩, hg ▸ List.mem_cons_of_mem _ hx⟩
  · -- a writer is the only holder
    have hwriter : (.cell v, true) ∈ (γ worker).locks := mem_locks.mpr ⟨true, hmem⟩
    exact hu (hinv.ledger.eq_of_writer hwriter (hinv.holds_iff.mpr ⟨x, hx, hcell⟩))
  · rw [hg]
    rfl
  · rw [Function.update_self]
    rfl

/-- The index is pushed back. -/
theorem keeps_pushFree {Q : Bool → Ghost → Prop} {f : Vaddr} (hown : g.own = some f)
    (hQ : ∀ full, Q full { g with own := none }) : Keeps t (modifyGet (·.pushFree f)) Q g := by
  apply keeps_modifyGet
  rintro d lck γ hinv rfl
  exact ⟨{ γ t with own := none }, hinv.quiet (hinv.books.pushFree hown rfl rfl) rfl rfl rfl, hQ _⟩

theorem keeps_expand {Q : Unit → Ghost → Prop} (hQ : Q () g) : Keeps t (modify (·.expand)) Q g := by
  apply keeps_modify
  rintro d lck γ hinv rfl
  refine ⟨_, hinv.quiet ?_ rfl rfl rfl, hQ⟩
  rw [Function.update_eq_self]
  exact hinv.books.expand

/-- `mb_free` is called, outside the blocks. -/
theorem keeps_freeing {Q : Unit → Ghost → Prop} (hmem : ∀ x ∈ g.held, ∀ mb, x.lck ≠ .mem mb)
    (hQ : Q () { g with freeing := some v }) :
    Keeps worker (modify fun s => { s with freeing := some v }) Q g := by
  apply keeps_modify
  rintro d lck γ hinv rfl
  have hbooks : Books d (Function.update γ worker { γ worker with freeing := some v }) :=
    hinv.books.hold (fun x hx _ => hx) rfl
  refine ⟨_, hinv.data (hbooks.same ⟨fun _ => rfl, rfl, rfl, rfl⟩) rfl ?_ fun _ _ => .inr hmem, hQ⟩
  rw [Function.update_self]

end Chvm.Cs.Locking
