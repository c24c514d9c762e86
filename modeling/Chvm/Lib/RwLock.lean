import Mathlib.Data.List.Basic

/-!
# A readers-writer lock

The state of one `pthread_rwlock_t` (or of a mutex, which only ever has a writer), with the
identities of its holders. Acquiring is guarded, so a step that takes the lock is enabled only
when the lock can be had; waiting is not being enabled.
-/

set_option autoImplicit false

namespace Chvm.Lib

/-- A thread's name. -/
abbrev Tid := Nat

structure RwLock where
  writer : Option Tid := none
  readers : List Tid := []
deriving DecidableEq, Repr

namespace RwLock

/-- Nobody holds the lock: a writer may take it. -/
def isFree (l : RwLock) : Bool := l.writer.isNone && l.readers.isEmpty

/-- No writer holds the lock: a reader may take it. -/
def canRead (l : RwLock) : Bool := l.writer.isNone

/-- `t` holds the lock, for reading or for writing. -/
def holds (l : RwLock) (t : Tid) : Bool := l.writer == some t || l.readers.contains t

def acqRead (l : RwLock) (t : Tid) : RwLock := { l with readers := t :: l.readers }

def acqWrite (l : RwLock) (t : Tid) : RwLock := { l with writer := some t }

def release (l : RwLock) (t : Tid) : RwLock :=
  if l.writer = some t then { l with writer := none } else { l with readers := l.readers.erase t }

theorem isFree_iff {l : RwLock} : l.isFree = true ↔ l.writer = none ∧ l.readers = [] := by
  simp only [isFree, Bool.and_eq_true, Option.isNone_iff_eq_none, List.isEmpty_iff]

theorem canRead_iff {l : RwLock} : l.canRead = true ↔ l.writer = none := by
  simp only [canRead, Option.isNone_iff_eq_none]

theorem holds_iff {l : RwLock} {t : Tid} :
    l.holds t = true ↔ l.writer = some t ∨ t ∈ l.readers := by
  simp only [holds, Bool.or_eq_true, beq_iff_eq, List.contains_iff_mem]

theorem not_holds_of_isFree {l : RwLock} (h : l.isFree = true) (t : Tid) : l.holds t = false := by
  obtain ⟨hw, hr⟩ := isFree_iff.mp h
  simp only [holds, hw, hr, List.contains_nil, Bool.or_false, beq_eq_false_iff_ne, ne_eq,
    reduceCtorEq, not_false_eq_true]

theorem writer_of_isFree {l : RwLock} (h : l.isFree = true) : l.writer = none := (isFree_iff.mp h).1

theorem eq_of_isFree {l : RwLock} (h : l.isFree = true) : l = {} := by
  obtain ⟨hw, hr⟩ := isFree_iff.mp h
  cases l
  cases hw
  cases hr
  rfl

/-- Releasing gives the lock to nobody new. -/
theorem holds_of_holds_release {l : RwLock} {t u : Tid} (h : (l.release t).holds u = true) :
    l.holds u = true := by
  rw [holds_iff] at h ⊢
  unfold release at h
  split at h
  · exact h.elim (fun h => nomatch h) .inr
  · exact h.imp_right List.mem_of_mem_erase

theorem writer_of_writer_release {l : RwLock} {t u : Tid} (h : (l.release t).writer = some u) :
    l.writer = some u := by
  unfold release at h
  split at h
  · cases h
  · exact h

theorem holds_acqRead {l : RwLock} {t u : Tid} :
    (l.acqRead t).holds u = true ↔ u = t ∨ l.holds u = true := by
  simp only [holds_iff, acqRead, List.mem_cons]
  tauto

theorem holds_acqWrite {l : RwLock} {t u : Tid} (h : l.isFree = true) :
    (l.acqWrite t).holds u = true ↔ u = t := by
  rw [holds_iff]
  simp only [acqWrite, (isFree_iff.mp h).2, List.not_mem_nil, or_false, Option.some.injEq]
  exact eq_comm

/-- A read lock taken and given back. -/
theorem release_acqRead {l : RwLock} {t : Tid} (h : l.canRead = true) :
    (l.acqRead t).release t = l := by
  have hwriter : l.writer = none := canRead_iff.mp h
  cases l
  subst hwriter
  simp only [release, acqRead, reduceCtorEq, if_false, List.erase_cons_head]

theorem release_acqWrite {l : RwLock} {t : Tid} (h : l.isFree = true) :
    (l.acqWrite t).release t = l := by
  have hwriter : l.writer = none := writer_of_isFree h
  cases l
  subst hwriter
  simp only [release, acqWrite, if_true]

/-- How often `t` holds the lock: a thread may take a read lock again. -/
def heldBy (l : RwLock) (t : Tid) : Nat := (if l.writer = some t then 1 else 0) + l.readers.count t

theorem heldBy_of_isFree {l : RwLock} (h : l.isFree = true) (t : Tid) : l.heldBy t = 0 := by
  obtain ⟨hw, hr⟩ := isFree_iff.mp h
  simp only [heldBy, hw, hr, reduceCtorEq, if_false, List.count_nil]

theorem holds_iff_heldBy_pos {l : RwLock} {t : Tid} : l.holds t = true ↔ 0 < l.heldBy t := by
  rw [holds_iff, heldBy, ← List.count_pos_iff]
  split
  next hw => exact ⟨fun _ => by omega, fun _ => .inl hw⟩
  next hw =>
    rw [Nat.zero_add]
    exact or_iff_right hw

/-- Nobody holds the lock. -/
theorem isFree_of_not_holds {l : RwLock} (h : ∀ t, l.holds t = false) : l.isFree = true := by
  refine isFree_iff.mpr ⟨Option.eq_none_iff_forall_not_mem.mpr fun t ht => ?_,
    List.eq_nil_iff_forall_not_mem.mpr fun t ht => ?_⟩
  · exact Bool.false_ne_true ((h t).symm.trans (holds_iff.mpr (.inl ht)))
  · exact Bool.false_ne_true ((h t).symm.trans (holds_iff.mpr (.inr ht)))

theorem heldBy_acqRead (l : RwLock) (t u : Tid) :
    (l.acqRead t).heldBy u = l.heldBy u + if t = u then 1 else 0 := by
  simp only [heldBy, acqRead, List.count_cons, beq_iff_eq]
  exact (Nat.add_assoc ..).symm

theorem heldBy_acqWrite {l : RwLock} {t u : Tid} (h : l.isFree = true) :
    (l.acqWrite t).heldBy u = if t = u then 1 else 0 := by
  obtain ⟨-, hr⟩ := isFree_iff.mp h
  simp only [heldBy, acqWrite, hr, List.count_nil, Option.some.injEq, Nat.add_zero]

theorem heldBy_release {l : RwLock} {t : Tid} (h : l.holds t = true) (u : Tid) :
    (l.release t).heldBy u + (if t = u then 1 else 0) = l.heldBy u := by
  unfold release heldBy
  split
  next hw =>
    simp only [hw, reduceCtorEq, if_false, Option.some.injEq]
    omega
  next hw =>
    have hmem : t ∈ l.readers := (holds_iff.mp h).resolve_left hw
    by_cases heq : t = u
    · subst heq
      have hpos := List.count_pos_iff.mpr hmem
      simp only [List.count_erase_self, if_true]
      omega
    · simp only [List.count_erase_of_ne (Ne.symm heq), if_neg heq]
      omega

end RwLock

end Chvm.Lib
