import Chvm.Lib.Run
import Chvm.Lib.RwLock
import Mathlib.Data.List.Nodup
import Mathlib.Logic.Function.Basic

/-!
# Threads, locks and deadlock

A thread's program over locks `L` and shared data `σ` is a tree: it takes a lock and waits for it,
tries a lock, gives one back, reads and writes the data in one step, draws a number, or stands still
for good. Any number of threads run such programs, and a thread that is done takes a new call.

A protocol is an invariant over the data, the locks and a ghost value for each thread, with what a
thread may wait for. When every call meets the protocol, every run keeps the invariant. Locks with
ranks then exclude a deadlock: along a chain of threads that wait for each other the ranks go up.
-/

set_option autoImplicit false

namespace Chvm.Lib

/-- `pthread_rwlock_wrlock` and `pthread_rwlock_rdlock`: `none` has to wait. -/
def RwLock.acquire (l : RwLock) (wr : Bool) (t : Tid) : Option RwLock :=
  if wr then if l.isFree then some (l.acqWrite t) else none
  else if l.canRead then some (l.acqRead t) else none

/-- A thread's program with result `α`. -/
inductive Sync (L σ α : Type) where
  | pure (a : α)
  | lock (l : L) (wr : Bool) (k : Sync L σ α)
  | tryWrlock (l : L) (k : Bool → Sync L σ α)
  | unlock (l : L) (k : Sync L σ α)
  | access (f : σ → σ) (k : σ → Sync L σ α)
  | draw (k : Nat → Sync L σ α)
  | halt

variable {L σ α β G C : Type}

namespace Sync

def bind : Sync L σ α → (α → Sync L σ β) → Sync L σ β
  | .pure a, f => f a
  | .lock l wr k, f => .lock l wr (k.bind f)
  | .tryWrlock l k, f => .tryWrlock l fun got => (k got).bind f
  | .unlock l k, f => .unlock l (k.bind f)
  | .access g k, f => .access g fun s => (k s).bind f
  | .draw k, f => .draw fun n => (k n).bind f
  | .halt, _ => .halt

instance : Monad (Sync L σ) where
  pure := Sync.pure
  bind := Sync.bind

/-- Take a lock, for writing or for reading. -/
def take (l : L) (wr : Bool) : Sync L σ Unit := .lock l wr (.pure ())

def wrlock (l : L) : Sync L σ Unit := take l true

def rdlock (l : L) : Sync L σ Unit := take l false

/-- Whether the write lock was got. -/
def trylock (l : L) : Sync L σ Bool := .tryWrlock l .pure

def release (l : L) : Sync L σ Unit := .unlock l (.pure ())

/-- Read the data and write them, in one step. -/
def modifyGet (f : σ → β × σ) : Sync L σ β := .access (fun s => (f s).2) fun s => .pure (f s).1

def modify (f : σ → σ) : Sync L σ Unit := .access f fun _ => .pure ()

def gets (f : σ → β) : Sync L σ β := .access id fun s => .pure (f s)

/-- A number that the model leaves open. -/
def arbitrary : Sync L σ Nat := .draw .pure

/-- At most `n` rounds of a loop; a thread that needs more stands still. -/
def rounds (body : α → Sync L σ (α ⊕ β)) : Nat → α → Sync L σ β
  | 0, _ => .halt
  | n + 1, a => do
    match ← body a with
    | .inl a => rounds body n a
    | .inr b => return b

/-- A loop, until its body says `inr`. The number of rounds is drawn in front of it: a run is finite,
so it is a run with some number. -/
def loop (body : α → Sync L σ (α ⊕ β)) (a : α) : Sync L σ β := .draw fun n => rounds body n a

/-- The lock a program stands before. -/
def request : Sync L σ α → Option L
  | .lock l _ _ => some l
  | _ => none

end Sync

/-! ## The system -/

/-- The data, the locks, and what each thread has yet to do. -/
structure Threads (L σ : Type) where
  data : σ
  lck : L → RwLock
  prog : Tid → Sync L σ Unit

/-- A call, or the next step of a thread, which may draw a number. -/
inductive ThreadAct (C : Type)
  | call (t : Tid) (c : C)
  | run (t : Tid) (n : Nat)

namespace Threads

/-- Nobody holds a lock and nobody is in a call. -/
def new (data : σ) : Threads L σ := ⟨data, fun _ => {}, fun _ => .pure ()⟩

variable [DecidableEq L]

def setProg (s : Threads L σ) (t : Tid) (p : Sync L σ Unit) : Threads L σ :=
  { s with prog := Function.update s.prog t p }

def setLck (s : Threads L σ) (l : L) (lck : RwLock) : Threads L σ :=
  { s with lck := Function.update s.lck l lck }

/-- The next step of a thread; `none` waits, is done or stands still. -/
def run (s : Threads L σ) (t : Tid) (n : Nat) : Option (Threads L σ) :=
  match s.prog t with
  | .pure _ | .halt => none
  | .lock l wr k => ((s.lck l).acquire wr t).map fun lck => (s.setLck l lck).setProg t k
  | .tryWrlock l k =>
    match (s.lck l).acquire true t with
    | some lck => some ((s.setLck l lck).setProg t (k true))
    | none => some (s.setProg t (k false))
  | .unlock l k => some ((s.setLck l ((s.lck l).release t)).setProg t k)
  | .access f k => some ({ s with data := f s.data }.setProg t (k s.data))
  | .draw k => some (s.setProg t (k n))

/-- The thread waits for the lock: its next step takes it. -/
def Waits (s : Threads L σ) (t : Tid) (l : L) : Prop := (s.prog t).request = some l

instance (s : Threads L σ) (t : Tid) (l : L) : Decidable (s.Waits t l) :=
  inferInstanceAs (Decidable (_ = _))

/-- Each thread of the set waits for a lock that another thread of the set holds. -/
def Deadlocked (s : Threads L σ) (S : Set Tid) : Prop :=
  S.Nonempty ∧ ∀ t ∈ S, ∃ l, s.Waits t l ∧ ∃ u ∈ S, u ≠ t ∧ (s.lck l).holds u = true

end Threads

variable [DecidableEq L]

/-- One step, when the calls have these bodies. -/
def threadStep (body : C → Sync L σ Unit) (s : Threads L σ) : ThreadAct C → Option (Threads L σ)
  | .call t c =>
    match s.prog t with
    | .pure _ => some (s.setProg t (body c))
    | _ => none
  | .run t n => s.run t n

/-! ## Ranks -/

omit [DecidableEq L] in
/-- **Locks with ranks do not deadlock.** Every thread waits for a lock above those it holds, or for
one whose other holders do not wait. -/
theorem Threads.not_deadlocked {s : Threads L σ} (rank : L → Nat) (top : Nat) (htop : ∀ l, rank l ≤ top)
    (h : ∀ t l, s.Waits t l → (∀ l', (s.lck l').holds t = true → rank l' < rank l) ∨
      ∀ u ≠ t, (s.lck l).holds u = true → (s.prog u).request = none) (S : Set Tid) :
    ¬ s.Deadlocked S := by
  rintro ⟨⟨t, ht⟩, hwait⟩
  have hclimb : ∀ n, ∃ t ∈ S, ∃ l, s.Waits t l ∧ n ≤ rank l := by
    intro n
    induction n with
    | zero =>
      obtain ⟨l, hl, -⟩ := hwait t ht
      exact ⟨t, ht, l, hl, Nat.zero_le _⟩
    | succ n ih =>
      obtain ⟨t, ht, l, hl, hle⟩ := ih
      obtain ⟨l₁, hl₁, u, hu, hne, hheld⟩ := hwait t ht
      obtain rfl : l = l₁ := Option.some.inj (hl.symm.trans hl₁)
      obtain ⟨l', hl', -⟩ := hwait u hu
      refine ⟨u, hu, l', hl', ?_⟩
      rcases h u l' hl' with hbelow | hidle
      · exact Nat.lt_of_le_of_lt hle (hbelow l hheld)
      · -- the holder of `l'` waits too, which an exempt lock does not admit
        obtain ⟨l₂, hl₂, w, hw, hne', hheld'⟩ := hwait u hu
        obtain rfl : l' = l₂ := Option.some.inj (hl'.symm.trans hl₂)
        obtain ⟨l₃, hl₃, -⟩ := hwait w hw
        exact nomatch (hidle w hne' hheld').symm.trans hl₃
  obtain ⟨_, _, l, _, hle⟩ := hclimb (top + 1)
  exact absurd (htop l) (by omega)

/-! ## The locks a thread holds -/

/-- The locks agree with a list for each thread of what it holds, for writing or for reading. -/
structure Ledger (lck : L → RwLock) (held : Tid → List (L × Bool)) : Prop where
  writer : ∀ t l, (lck l).writer = some t ↔ (l, true) ∈ held t
  reader : ∀ t l, t ∈ (lck l).readers ↔ (l, false) ∈ held t
  exclusive : ∀ l t, (lck l).writer = some t → (lck l).readers = []
  nodup : ∀ l, (lck l).readers.Nodup
  once : ∀ t, ((held t).map Prod.fst).Nodup

namespace Ledger

variable {lck : L → RwLock} {held held' : Tid → List (L × Bool)} {t u : Tid} {l : L} {wr : Bool}
  {lck' : RwLock}

omit [DecidableEq L] in
theorem holds_iff (h : Ledger lck held) : (lck l).holds t = true ↔ ∃ wr, (l, wr) ∈ held t := by
  rw [RwLock.holds_iff, h.writer, h.reader]
  constructor
  · rintro (hw | hr)
    · exact ⟨_, hw⟩
    · exact ⟨_, hr⟩
  · rintro ⟨wr, hmem⟩
    cases wr with
    | true => exact .inl hmem
    | false => exact .inr hmem

omit [DecidableEq L] in
/-- A writer is the only holder. -/
theorem eq_of_writer (h : Ledger lck held) (hw : (l, true) ∈ held t) (hu : (lck l).holds u = true) :
    u = t := by
  have hwriter := (h.writer t l).mpr hw
  rcases RwLock.holds_iff.mp hu with hu | hu
  · exact Option.some.inj (hu.symm.trans hwriter)
  · rw [h.exclusive l t hwriter] at hu
    cases hu

omit [DecidableEq L] in
theorem new : Ledger (fun _ : L => {}) fun _ => [] := by
  constructor <;> simp

/-- What a change of one lock and of one thread's list has to show. -/
theorem change (h : Ledger lck held) (hothers : ∀ u ≠ t, held' u = held u)
    (hsame : ∀ l' ≠ l, ∀ wr, (l', wr) ∈ held' t ↔ (l', wr) ∈ held t)
    (hwriter : ∀ u, lck'.writer = some u ↔ (l, true) ∈ held' u)
    (hreader : ∀ u, u ∈ lck'.readers ↔ (l, false) ∈ held' u)
    (hexclusive : ∀ u, lck'.writer = some u → lck'.readers = []) (hnodup : lck'.readers.Nodup)
    (honce : ((held' t).map Prod.fst).Nodup) : Ledger (Function.update lck l lck') held' := by
  have hkeep : ∀ u l' wr, l' ≠ l → ((l', wr) ∈ held' u ↔ (l', wr) ∈ held u) := by
    intro u l' wr hne
    by_cases hu : u = t
    · subst hu
      exact hsame l' hne wr
    · rw [hothers u hu]
  constructor
  · intro u l'
    by_cases hl : l' = l
    · subst hl
      rw [Function.update_self]
      exact hwriter u
    · rw [Function.update_of_ne hl, hkeep u l' _ hl]
      exact h.writer u l'
  · intro u l'
    by_cases hl : l' = l
    · subst hl
      rw [Function.update_self]
      exact hreader u
    · rw [Function.update_of_ne hl, hkeep u l' _ hl]
      exact h.reader u l'
  · intro l' u
    by_cases hl : l' = l
    · subst hl
      rw [Function.update_self]
      exact hexclusive u
    · rw [Function.update_of_ne hl]
      exact h.exclusive l' u
  · intro l'
    by_cases hl : l' = l
    · subst hl
      rw [Function.update_self]
      exact hnodup
    · rw [Function.update_of_ne hl]
      exact h.nodup l'
  · intro u
    by_cases hu : u = t
    · subst hu
      exact honce
    · rw [hothers u hu]
      exact h.once u

/-- A lock is got by a thread that does not hold it. -/
theorem acquire (h : Ledger lck held) (hnot : ∀ wr, (l, wr) ∉ held t)
    (hacq : (lck l).acquire wr t = some lck') (hothers : ∀ u ≠ t, held' u = held u)
    (ht : held' t = (l, wr) :: held t) : Ledger (Function.update lck l lck') held' := by
  have hmem : ∀ u wr', (l, wr') ∈ held' u ↔ (u = t ∧ wr' = wr) ∨ (l, wr') ∈ held u := by
    intro u wr'
    by_cases hu : u = t
    · subst hu
      simp only [ht, List.mem_cons, Prod.mk.injEq, true_and]
    · simp only [hothers u hu, hu, false_and, false_or]
  have honce : ((held' t).map Prod.fst).Nodup := by
    rw [ht, List.map_cons, List.nodup_cons]
    refine ⟨fun hin => ?_, h.once t⟩
    obtain ⟨⟨l', wr'⟩, hp, rfl⟩ := List.mem_map.mp hin
    exact hnot wr' hp
  have hsame : ∀ l' ≠ l, ∀ wr', (l', wr') ∈ held' t ↔ (l', wr') ∈ held t := by
    intro l' hne wr'
    simp only [ht, List.mem_cons, Prod.mk.injEq, hne, false_and, false_or]
  unfold RwLock.acquire at hacq
  cases wr with
  | true =>
    simp only [if_true, Option.ite_none_right_eq_some, Option.some.injEq] at hacq
    obtain ⟨hfree, rfl⟩ := hacq
    obtain ⟨hwriter, hreaders⟩ := RwLock.isFree_iff.mp hfree
    have hfreed : ∀ u wr', (l, wr') ∉ held u := fun u wr' hin =>
      absurd (h.holds_iff.mpr ⟨wr', hin⟩) (by rw [RwLock.not_holds_of_isFree hfree]; decide)
    refine h.change hothers hsame (fun u => ?_) (fun u => ?_) (fun _ _ => hreaders) ?_ honce
    · simp only [hmem, RwLock.acqWrite, Option.some.injEq, and_true, hfreed u, or_false, eq_comm]
    · simp only [hmem, RwLock.acqWrite, hreaders, List.not_mem_nil, hfreed u, Bool.false_eq_true,
        and_false, or_false]
    · simp only [RwLock.acqWrite, hreaders, List.nodup_nil]
  | false =>
    simp only [Bool.false_eq_true, if_false, Option.ite_none_right_eq_some, Option.some.injEq] at hacq
    obtain ⟨hcan, rfl⟩ := hacq
    have hwriter := RwLock.canRead_iff.mp hcan
    refine h.change hothers hsame (fun u => ?_) (fun u => ?_) (fun u hu => ?_) ?_ honce
    · simp only [hmem, RwLock.acqRead, h.writer, Bool.true_eq_false, and_false, false_or]
    · simp only [hmem, RwLock.acqRead, List.mem_cons, h.reader, and_true]
    · cases hwriter.symm.trans hu
    · simp only [RwLock.acqRead, List.nodup_cons, h.reader, hnot, not_false_eq_true, h.nodup, and_self]

/-- A lock is given back by a thread that holds it. -/
theorem release (h : Ledger lck held) (hmem : (l, wr) ∈ held t) (hothers : ∀ u ≠ t, held' u = held u)
    (ht : ∀ p, p ∈ held' t ↔ p ≠ (l, wr) ∧ p ∈ held t) (honce : ((held' t).map Prod.fst).Nodup) :
    Ledger (Function.update lck l ((lck l).release t)) held' := by
  -- the thread holds the lock in one way
  have hone : ∀ wr', (l, wr') ∈ held t → (l, wr') = (l, wr) := fun wr' hin =>
    List.inj_on_of_nodup_map (h.once t) hin hmem rfl
  have hgone : ∀ wr', (l, wr') ∉ held' t := fun wr' hin =>
    ((ht _).mp hin).1 (hone wr' ((ht _).mp hin).2)
  have hsame : ∀ l' ≠ l, ∀ wr', (l', wr') ∈ held' t ↔ (l', wr') ∈ held t := by
    intro l' hne wr'
    simp only [ht, ne_eq, Prod.mk.injEq, hne, false_and, not_false_eq_true, true_and]
  have hother : ∀ u wr', (l, wr') ∈ held' u ↔ u ≠ t ∧ (l, wr') ∈ held u := by
    intro u wr'
    by_cases hu : u = t
    · subst hu
      simp only [hgone, ne_eq, not_true_eq_false, false_and]
    · simp only [hothers u hu, ne_eq, hu, not_false_eq_true, true_and]
  unfold RwLock.release
  cases wr with
  | true =>
    have hwriter := (h.writer t l).mpr hmem
    have hreaders := h.exclusive l t hwriter
    rw [if_pos hwriter]
    refine h.change hothers hsame (fun u => ?_) (fun u => ?_) nofun (h.nodup l) honce
    · simp only [hother, ← h.writer, hwriter, Option.some.injEq, reduceCtorEq, false_iff]
      exact fun hu => hu.1 hu.2.symm
    · simp only [hother, ← h.reader, hreaders, List.not_mem_nil, and_false]
  | false =>
    have hreader := (h.reader t l).mpr hmem
    have hwriter : ∀ u, (lck l).writer ≠ some u := by
      intro u hu
      rw [h.exclusive l u hu] at hreader
      cases hreader
    rw [if_neg (hwriter t)]
    refine h.change hothers hsame (fun u => ?_) (fun u => ?_) (fun u hu => absurd hu (hwriter u)) ?_ honce
    · simp only [hother, ← h.writer, hwriter, and_false]
    · simp only [hother, ← h.reader, (h.nodup l).mem_erase_iff]
    · exact (h.nodup l).erase t

end Ledger

/-! ## Protocols -/

/-- An invariant with a ghost value for each thread, what a thread may wait for, and when a lock is
granted at all. -/
structure Protocol (L σ G : Type) where
  inv : σ → (L → RwLock) → (Tid → G) → Prop
  may : Tid → G → L → Prop
  grants : Tid → L → σ → (L → RwLock) → Prop

namespace Protocol

variable (P : Protocol L σ G)

/-- The thread's program keeps the protocol from a ghost value on, whatever the others do, and ends
in `Q`. -/
def Ok (t : Tid) : Sync L σ α → (α → G → Prop) → G → Prop
  | .pure a, Q, g => Q a g
  | .lock l wr k, Q, g => P.may t g l ∧ ∀ d lck γ lck', P.inv d lck γ → γ t = g → P.grants t l d lck →
      (lck l).acquire wr t = some lck' →
      ∃ g', P.inv d (Function.update lck l lck') (Function.update γ t g') ∧ Ok t k Q g'
  | .tryWrlock l k, Q, g => (∀ d lck γ lck', P.inv d lck γ → γ t = g →
      (lck l).acquire true t = some lck' →
      ∃ g', P.inv d (Function.update lck l lck') (Function.update γ t g') ∧ Ok t (k true) Q g') ∧
      Ok t (k false) Q g
  | .unlock l k, Q, g => ∀ d lck γ, P.inv d lck γ → γ t = g →
      ∃ g', P.inv d (Function.update lck l ((lck l).release t)) (Function.update γ t g') ∧ Ok t k Q g'
  | .access f k, Q, g => ∀ d lck γ, P.inv d lck γ → γ t = g →
      ∃ g', P.inv (f d) lck (Function.update γ t g') ∧ Ok t (k d) Q g'
  | .draw k, Q, g => ∀ n, Ok t (k n) Q g
  | .halt, _, _ => True

variable {P} {t : Tid} {p : Sync L σ α} {g : G}

/-- The rules of sequence and of consequence in one. -/
theorem Ok.seq {f : α → Sync L σ β} {Q : α → G → Prop} {R : β → G → Prop} (h : P.Ok t p Q g)
    (hf : ∀ a g, Q a g → P.Ok t (f a) R g) : P.Ok t (p >>= f) R g := by
  show P.Ok t (p.bind f) R g
  induction p generalizing g with
  | pure a => exact hf a g h
  | lock l wr k ih =>
    refine ⟨h.1, fun d lck γ lck' hinv hg hgrant hacq => ?_⟩
    obtain ⟨g', hinv', hk⟩ := h.2 d lck γ lck' hinv hg hgrant hacq
    exact ⟨g', hinv', ih hk⟩
  | tryWrlock l k ih =>
    refine ⟨fun d lck γ lck' hinv hg hacq => ?_, ih false h.2⟩
    obtain ⟨g', hinv', hk⟩ := h.1 d lck γ lck' hinv hg hacq
    exact ⟨g', hinv', ih true hk⟩
  | unlock l k ih =>
    intro d lck γ hinv hg
    obtain ⟨g', hinv', hk⟩ := h d lck γ hinv hg
    exact ⟨g', hinv', ih hk⟩
  | access f k ih =>
    intro d lck γ hinv hg
    obtain ⟨g', hinv', hk⟩ := h d lck γ hinv hg
    exact ⟨g', hinv', ih d hk⟩
  | draw k ih => exact fun n => ih n (h n)
  | halt => trivial

/-- The rule of sequence. -/
theorem Ok.bind {f : α → Sync L σ β} {Q : β → G → Prop} (h : P.Ok t p (fun a => P.Ok t (f a) Q) g) :
    P.Ok t (p >>= f) Q g :=
  h.seq fun _ _ hf => hf

/-- **The loop rule**, with an invariant of the loop's variable and the ghost value. -/
theorem Ok.loop {body : α → Sync L σ (α ⊕ β)} {Q : β → G → Prop} {I : α → G → Prop} {a : α}
    (hbody : ∀ a g, I a g → P.Ok t (body a) (fun r g => r.elim (fun a => I a g) (fun b => Q b g)) g)
    (h : I a g) : P.Ok t (Sync.loop body a) Q g := by
  intro n
  induction n generalizing a g with
  | zero => trivial
  | succ n ih =>
    apply (hbody a g h).seq
    intro r g hr
    cases r with
    | inl a => exact ih hr
    | inr b => exact hr

/-- A loop over a list whose rounds give the ghost value back. -/
theorem Ok.foldlM {body : β → α → Sync L σ β} {Q : β → G → Prop}
    (hbody : ∀ b a, P.Ok t (body b a) (fun _ g' => g' = g) g) (h : ∀ b, Q b g) (l : List α) (b : β) :
    P.Ok t (l.foldlM body b) Q g := by
  induction l generalizing b with
  | nil => exact h b
  | cons a l ih =>
    apply (hbody b a).seq
    rintro b g rfl
    exact ih b

variable (P) (idle : Tid → G → Prop) (rule : Threads L σ → Tid → C → Prop)

/-- The rule for the calls and for the grants, as a rule for the steps. -/
def Admits (s : Threads L σ) : ThreadAct C → Prop
  | .call t c => rule s t c
  | .run t _ => ∀ l, s.Waits t l → P.grants t l s.data s.lck

/-- The invariant holds with ghost values from which every thread keeps the protocol. -/
def Follows (s : Threads L σ) : Prop :=
  ∃ γ, P.inv s.data s.lck γ ∧ ∀ t, P.Ok t (s.prog t) (fun _ g => idle t g) (γ t)

variable {P} {idle} {rule} {s s' : Threads L σ}

/-- A step of one thread leaves the programs and the ghost values of the others. -/
theorem Follows.update {d : σ} {lck : L → RwLock} {prog : Tid → Sync L σ Unit} {γ : Tid → G}
    {k : Sync L σ Unit} (hothers : ∀ u, P.Ok u (prog u) (fun _ g => idle u g) (γ u))
    (h : ∃ g', P.inv d lck (Function.update γ t g') ∧ P.Ok t k (fun _ g => idle t g) g') :
    P.Follows idle ⟨d, lck, Function.update prog t k⟩ := by
  obtain ⟨g', hinv, hk⟩ := h
  refine ⟨_, hinv, fun u => ?_⟩
  by_cases hu : u = t
  · subst hu
    simpa only [Function.update_self] using hk
  · simpa only [Function.update_of_ne hu] using hothers u

theorem Follows.run {n : Nat} (h : P.Follows idle s) (hgrants : ∀ l, s.Waits t l → P.grants t l s.data s.lck)
    (hrun : s.run t n = some s') : P.Follows idle s' := by
  obtain ⟨γ, hinv, hok⟩ := h
  have ht := hok t
  unfold Threads.run at hrun
  unfold Threads.Waits at hgrants
  cases hp : s.prog t with
  | pure a | halt =>
    rw [hp] at hrun
    cases hrun
  | lock l wr k =>
    rw [hp] at hrun ht hgrants
    obtain ⟨lck', hacq, rfl⟩ := Option.map_eq_some_iff.mp hrun
    exact Follows.update hok (ht.2 _ _ γ lck' hinv rfl (hgrants l rfl) hacq)
  | tryWrlock l k =>
    rw [hp] at hrun ht
    cases hacq : (s.lck l).acquire true t with
    | some lck' =>
      simp only [hacq, Option.some.injEq] at hrun
      subst hrun
      exact Follows.update hok (ht.1 _ _ γ lck' hinv rfl hacq)
    | none =>
      simp only [hacq, Option.some.injEq] at hrun
      subst hrun
      refine Follows.update hok ⟨γ t, ?_, ht.2⟩
      rwa [Function.update_eq_self]
  | unlock l k =>
    rw [hp] at hrun ht
    cases hrun
    exact Follows.update hok (ht _ _ γ hinv rfl)
  | access f k =>
    rw [hp] at hrun ht
    cases hrun
    exact Follows.update hok (ht _ _ γ hinv rfl)
  | draw k =>
    rw [hp] at hrun ht
    cases hrun
    refine Follows.update hok ⟨γ t, ?_, ht n⟩
    rwa [Function.update_eq_self]

/-- **The protocol rule.** Calls that meet the protocol keep it in every run. -/
theorem follows_reach {body : C → Sync L σ Unit}
    (hbody : ∀ s γ t c, P.inv s.data s.lck γ → idle t (γ t) → rule s t c →
      P.Ok t (body c) (fun _ g => idle t g) (γ t))
    (hreach : Reaches (threadStep body) (P.Admits rule) s s') (h : P.Follows idle s) :
    P.Follows idle s' := by
  have hstep : ∀ m a m', P.Follows idle m → P.Admits rule m a → threadStep body m a = some m' →
      P.Follows idle m' := by
    intro m a m' hm hadmits hm'
    cases a with
    | run t n => exact hm.run hadmits hm'
    | call t c =>
      obtain ⟨γ, hinv, hok⟩ := hm
      have ht := hok t
      cases hp : m.prog t with
      | pure a =>
        rw [hp] at ht
        simp only [threadStep, hp, Option.some.injEq] at hm'
        subst hm'
        refine Follows.update hok ⟨γ t, ?_, hbody m γ t c hinv ht hadmits⟩
        rwa [Function.update_eq_self]
      | _ =>
        simp only [threadStep, hp] at hm'
        cases hm'
  exact hreach.invariant hstep h

/-- What a thread that waits may wait for, by the protocol. -/
theorem Follows.may (h : P.Follows idle s) :
    ∃ γ, P.inv s.data s.lck γ ∧ ∀ t l, s.Waits t l → P.may t (γ t) l := by
  obtain ⟨γ, hinv, hok⟩ := h
  refine ⟨γ, hinv, fun t l hl => ?_⟩
  have ht := hok t
  unfold Threads.Waits at hl
  cases hp : s.prog t with
  | lock l' wr k =>
    rw [hp] at ht hl
    cases hl
    exact ht.1
  | _ =>
    rw [hp] at hl
    cases hl

end Protocol

end Chvm.Lib
