import Mathlib.Data.List.Basic
import Mathlib.Logic.Relation

/-!
# Doubly linked lists

A null-terminated doubly linked list kept in two link functions, as an array of entries or the
words of a memory read them. `Seg` is a piece of such a list: it is entered through the pointer `h`
from the node `p`, and left through the pointer `t`. One law covers the edits: the nodes in the
middle are exchanged for others, and only the links at the two seams change.
-/

set_option autoImplicit false

namespace Chvm.Lib

variable {α : Type*}

/-- The nodes of `l` from the pointer `h`, whose first has the back link `p`, to the pointer `t`. -/
def Seg (next prev : α → Option α) : Option α → Option α → List α → Option α → Prop
  | _, h, [], t => h = t
  | p, h, a :: l, t => h = some a ∧ prev a = p ∧ Seg next prev (some a) (next a) l t

/-- The whole list `l` from the head `h`. -/
def Linked (next prev : α → Option α) (h : Option α) (l : List α) : Prop :=
  Seg next prev none h l none

/-- The node in front of what follows `l`. -/
def lastOr (p : Option α) (l : List α) : Option α := l.getLast?.or p

variable {next prev next' prev' : α → Option α} {p p' h h' t t' m : Option α} {l l₁ l₂ : List α}

@[simp] theorem lastOr_cons (p : Option α) (a : α) (l : List α) :
    lastOr p (a :: l) = lastOr (some a) l := by
  cases l with
  | nil => rfl
  | cons b l => simp only [lastOr, List.getLast?_cons, Option.some_or, Option.getD_some]

/-- A list in two pieces. -/
theorem seg_append : Seg next prev p h (l₁ ++ l₂) t ↔
    ∃ m, Seg next prev p h l₁ m ∧ Seg next prev (lastOr p l₁) m l₂ t := by
  induction l₁ generalizing p h with
  | nil => exact ⟨fun hs => ⟨h, rfl, hs⟩, fun ⟨m, hm, hs⟩ => hm ▸ hs⟩
  | cons a l₁ ih =>
    simp only [List.cons_append, Seg, ih, lastOr_cons]
    constructor
    · rintro ⟨hh, hp, m, hs, hs'⟩
      exact ⟨m, ⟨hh, hp, hs⟩, hs'⟩
    · rintro ⟨m, ⟨hh, hp, hs⟩, hs'⟩
      exact ⟨hh, hp, m, hs, hs'⟩

/-- A piece reads the links of its own nodes only. -/
theorem Seg.congr (hs : Seg next prev p h l t) (hnext : ∀ a ∈ l, next' a = next a)
    (hprev : ∀ a ∈ l, prev' a = prev a) : Seg next' prev' p h l t := by
  induction l generalizing p h with
  | nil => exact hs
  | cons a l ih =>
    obtain ⟨hh, hp, hs⟩ := hs
    refine ⟨hh, (hprev a List.mem_cons_self).trans hp, ?_⟩
    rw [hnext a List.mem_cons_self]
    exact ih hs (fun b hb => hnext b (List.mem_cons_of_mem a hb))
      fun b hb => hprev b (List.mem_cons_of_mem a hb)

/-- The pointer a piece is entered through shows its first node. -/
theorem Seg.head (hs : Seg next prev p h l t) : h = l.head?.or t := by
  cases l with
  | nil => exact hs
  | cons a l => exact hs.1

/-- A piece whose last forward link is redirected. -/
theorem Seg.redirect (hs : Seg next prev p h l m) (hnext : ∀ a ∈ l.dropLast, next' a = next a)
    (hprev : ∀ a ∈ l, prev' a = prev a) (hlast : ∀ a, l.getLast? = some a → next' a = t')
    (hne : l ≠ []) : Seg next' prev' p h l t' := by
  induction l generalizing p h with
  | nil => exact absurd rfl hne
  | cons a l ih =>
    obtain ⟨hh, hp, hs⟩ := hs
    refine ⟨hh, (hprev a List.mem_cons_self).trans hp, ?_⟩
    cases l with
    | nil => exact hlast a rfl
    | cons b l =>
      rw [hnext a List.mem_cons_self]
      refine ih hs (fun c hc => hnext c (List.mem_cons_of_mem a hc))
        (fun c hc => hprev c (List.mem_cons_of_mem a hc)) (fun c hc => hlast c ?_)
        (List.cons_ne_nil b l)
      rw [List.getLast?_cons_cons]
      exact hc

/-- A piece whose first back link is redirected. -/
theorem Seg.rebase (hs : Seg next prev p h l t) (hnext : ∀ a ∈ l, next' a = next a)
    (hprev : ∀ a ∈ l.tail, prev' a = prev a) (hfirst : ∀ a, l.head? = some a → prev' a = p') :
    Seg next' prev' p' h l t := by
  cases l with
  | nil => exact hs
  | cons a l =>
    obtain ⟨hh, hp, hs⟩ := hs
    refine ⟨hh, hfirst a rfl, ?_⟩
    rw [hnext a List.mem_cons_self]
    exact hs.congr (fun b hb => hnext b (List.mem_cons_of_mem a hb)) hprev

theorem getLast?_ne_of_mem_dropLast {a : α} (hnodup : l.Nodup) (ha : a ∈ l.dropLast) :
    l.getLast? ≠ some a := by
  intro hlast
  have hsplit : l.dropLast ++ [a] = l := List.dropLast_append_getLast? a hlast
  rw [← hsplit] at hnodup
  exact (List.nodup_append.mp hnodup).2.2 a ha a List.mem_cons_self rfl

theorem head?_ne_of_mem_tail {a : α} (hnodup : l.Nodup) (ha : a ∈ l.tail) : l.head? ≠ some a := by
  intro hhead
  cases l with
  | nil => cases ha
  | cons b l =>
    cases hhead
    exact (List.nodup_cons.mp hnodup).1 ha

/-- **Splicing.** The nodes `mid` are exchanged for `mid'`. The new links agree with the old ones
in front and behind but for the forward link into the middle (the head, when nothing is in front)
and the back link out of what is behind it. -/
theorem Linked.splice [DecidableEq α] (l₁ mid mid' l₂ : List α)
    (hl : Linked next prev h (l₁ ++ (mid ++ l₂))) (hnodup₁ : l₁.Nodup) (hnodup₂ : l₂.Nodup)
    (hhead : h' = if l₁ = [] then m else h)
    (hnext₁ : ∀ a ∈ l₁, next' a = if l₁.getLast? = some a then m else next a)
    (hprev₁ : ∀ a ∈ l₁, prev' a = prev a)
    (hmid : Seg next' prev' l₁.getLast? m mid' l₂.head?)
    (hnext₂ : ∀ a ∈ l₂, next' a = next a)
    (hprev₂ : ∀ a ∈ l₂, prev' a =
      if l₂.head? = some a then lastOr l₁.getLast? mid' else prev a) :
    Linked next' prev' h' (l₁ ++ (mid' ++ l₂)) := by
  have hlast : lastOr none l₁ = l₁.getLast? := Option.or_none
  obtain ⟨n, hfront, hrest⟩ := seg_append.mp hl
  obtain ⟨n', -, hback⟩ := seg_append.mp hrest
  have hn : n' = l₂.head? := by
    rw [hback.head, Option.or_none]
  refine seg_append.mpr ⟨m, ?_, seg_append.mpr ⟨l₂.head?, hlast ▸ hmid, ?_⟩⟩
  · by_cases hne : l₁ = []
    · rw [hhead, if_pos hne, hne]
      rfl
    · rw [hhead, if_neg hne]
      refine hfront.redirect (fun a ha => ?_) hprev₁ (fun a ha => ?_) hne
      · rw [hnext₁ a (List.dropLast_subset l₁ ha), if_neg (getLast?_ne_of_mem_dropLast hnodup₁ ha)]
      · rw [hnext₁ a (List.mem_of_getLast? ha), if_pos ha]
  · rw [← hn]
    refine hback.rebase hnext₂ (fun a ha => ?_) fun a ha => ?_
    · rw [hprev₂ a (List.mem_of_mem_tail ha), if_neg (head?_ne_of_mem_tail hnodup₂ ha)]
    · rw [hprev₂ a (List.mem_of_mem_head? ha), if_pos ha, hlast]

/-- A node of a list shows its neighbours. -/
theorem Linked.links {a : α} (hl : Linked next prev h (l₁ ++ a :: l₂)) :
    prev a = l₁.getLast? ∧ next a = l₂.head? := by
  obtain ⟨m, -, hrest⟩ := seg_append.mp hl
  obtain ⟨-, hp, hs⟩ := hrest
  refine ⟨hp.trans ?_, hs.head.trans (Option.or_none)⟩
  rw [lastOr, Option.or_none]

theorem Linked.head (hl : Linked next prev h l) : h = l.head? := by
  rw [Seg.head hl, Option.or_none]

/-! ## The ends of a list -/

/-- A node behind the last. -/
theorem Linked.snoc {b : α} (hl : Linked next prev h l) (hnodup : l.Nodup) (hne : l ≠ [])
    (hnext : ∀ c ∈ l, l.getLast? ≠ some c → next' c = next c)
    (hlast : ∀ c, l.getLast? = some c → next' c = some b) (hprev : ∀ c ∈ l, prev' c = prev c)
    (hb : next' b = none) (hb' : prev' b = l.getLast?) : Linked next' prev' h (l ++ [b]) := by
  refine seg_append.mpr ⟨some b, hl.redirect (fun c hc => ?_) hprev hlast hne, rfl, ?_, hb⟩
  · exact hnext c (List.dropLast_subset l hc) (getLast?_ne_of_mem_dropLast hnodup hc)
  · rw [hb', lastOr, Option.or_none]

/-- A node in front of the first. -/
theorem Linked.cons {b : α} (hl : Linked next prev h l) (hnodup : l.Nodup)
    (hnext : ∀ c ∈ l, next' c = next c)
    (hprev : ∀ c ∈ l, l.head? ≠ some c → prev' c = prev c)
    (hfirst : ∀ c, l.head? = some c → prev' c = some b) (hb : next' b = h) (hb' : prev' b = none) :
    Linked next' prev' (some b) (b :: l) := by
  refine ⟨rfl, hb', hb ▸ hl.rebase hnext (fun c hc => ?_) hfirst⟩
  exact hprev c (List.mem_of_mem_tail hc) (head?_ne_of_mem_tail hnodup hc)

/-- The last node is taken away. -/
theorem Linked.unsnoc {b : α} (hl : Linked next prev h (l ++ [b])) (hnodup : l.Nodup) (hne : l ≠ [])
    (hnext : ∀ c ∈ l, l.getLast? ≠ some c → next' c = next c)
    (hlast : ∀ c, l.getLast? = some c → next' c = none) (hprev : ∀ c ∈ l, prev' c = prev c) :
    Linked next' prev' h l := by
  obtain ⟨m, hs, -⟩ := seg_append.mp hl
  refine hs.redirect (fun c hc => ?_) hprev hlast hne
  exact hnext c (List.dropLast_subset l hc) (getLast?_ne_of_mem_dropLast hnodup hc)

/-- The first node is taken away. -/
theorem Linked.uncons {b : α} (hl : Linked next prev h (b :: l)) (hnodup : l.Nodup)
    (hnext : ∀ c ∈ l, next' c = next c)
    (hprev : ∀ c ∈ l, l.head? ≠ some c → prev' c = prev c)
    (hfirst : ∀ c, l.head? = some c → prev' c = none) : Linked next' prev' (next b) l := by
  obtain ⟨-, -, hs⟩ := hl
  refine hs.rebase hnext (fun c hc => ?_) hfirst
  exact hprev c (List.mem_of_mem_tail hc) (head?_ne_of_mem_tail hnodup hc)

/-! ## The links of a list as relations -/

variable {a b : α}

/-- A forward link has its back link. -/
theorem Linked.prev_of_next (hl : Linked next prev h l) (ha : a ∈ l) (hab : next a = some b) :
    prev b = some a := by
  obtain ⟨l₁, l₂, rfl⟩ := List.append_of_mem ha
  have hhead : l₂.head? = some b := hl.links.2.symm.trans hab
  obtain ⟨l₃, rfl⟩ := List.head?_eq_some_iff.mp hhead
  rw [← List.singleton_append, ← List.append_assoc] at hl
  rw [hl.links.1, List.getLast?_append]
  rfl

/-- A back link has its forward link. -/
theorem Linked.next_of_prev (hl : Linked next prev h l) (hb : b ∈ l) (hba : prev b = some a) :
    next a = some b := by
  obtain ⟨l₁, l₂, rfl⟩ := List.append_of_mem hb
  have hlast : l₁.getLast? = some a := hl.links.1.symm.trans hba
  obtain ⟨l₃, rfl⟩ := List.getLast?_eq_some_iff.mp hlast
  rw [List.append_assoc] at hl
  exact hl.links.2

/-- Forward links lead to later nodes only. -/
theorem Linked.mem_of_transGen (hl : Linked next prev h (l₁ ++ a :: l₂))
    (hab : Relation.TransGen (fun a b => next a = some b) a b) : b ∈ l₂ := by
  induction hab with
  | single hstep =>
    rw [hl.links.2] at hstep
    exact List.mem_of_mem_head? hstep
  | tail _ hstep ih =>
    obtain ⟨l₃, l₄, rfl⟩ := List.append_of_mem ih
    rw [← List.cons_append, ← List.append_assoc] at hl
    rw [hl.links.2] at hstep
    exact List.mem_append_right _ (List.mem_cons_of_mem _ (List.mem_of_mem_head? hstep))

/-- No node comes back to itself. -/
theorem Linked.acyclic (hl : Linked next prev h l) (hnodup : l.Nodup) (ha : a ∈ l) :
    ¬ Relation.TransGen (fun a b => next a = some b) a a := by
  intro hcycle
  obtain ⟨l₁, l₂, rfl⟩ := List.append_of_mem ha
  have hlater : a ∈ l₂ := hl.mem_of_transGen hcycle
  exact (List.nodup_cons.mp (List.nodup_append.mp hnodup).2.1).1 hlater

/-- A piece read from behind. -/
theorem Seg.reverse (hs : Seg next prev p h l t) : Seg prev next t (lastOr p l) l.reverse p := by
  induction l generalizing p h with
  | nil => rfl
  | cons a l ih =>
    obtain ⟨-, hp, hs⟩ := hs
    rw [List.reverse_cons, lastOr_cons]
    refine seg_append.mpr ⟨some a, ih hs, rfl, ?_, hp⟩
    rw [hs.head, lastOr, List.getLast?_reverse]

/-- The pointer that is `n` forward links behind `h`. -/
def follow (next : α → Option α) : Nat → Option α → Option α
  | 0, h => h
  | n + 1, h => follow next n (h.bind next)

theorem Seg.follow_eq (hs : Seg next prev p h l t) {n : Nat} (hn : n < l.length) :
    follow next n h = l[n]? := by
  induction l generalizing p h n with
  | nil => cases hn
  | cons a l ih =>
    obtain ⟨rfl, -, hs⟩ := hs
    cases n with
    | zero => rfl
    | succ n => exact ih hs (Nat.lt_of_succ_lt_succ hn)

end Chvm.Lib
