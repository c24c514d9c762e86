import Mathlib.Algebra.Order.Ring.Nat
import Mathlib.Data.List.Chain

/-!
# Spans that tile an interval

A list of spans, each where the one before it stops. Two spans of a tiling are the same or apart,
the neighbours of a span are the spans next to it in the list, and a tiling cut at a span leaves
two tilings with a hole between them.
-/

set_option autoImplicit false

namespace Chvm.Lib

structure Span (κ : Type*) where
  addr : Nat
  size : Nat
  kind : κ
deriving DecidableEq, Repr

variable {κ : Type*}

def Span.stop (p : Span κ) : Nat := p.addr + p.size

theorem Span.stop_eq (p : Span κ) : p.stop = p.addr + p.size := rfl

/-- The spans lie one behind the other from `a` to `b`. -/
def Tiles : Nat → List (Span κ) → Nat → Prop
  | a, [], b => a = b
  | a, p :: ps, b => p.addr = a ∧ 0 < p.size ∧ Tiles p.stop ps b

variable {a b : Nat} {p q : Span κ} {ps front back : List (Span κ)}

theorem tiles_append : Tiles a (front ++ back) b ↔ ∃ c, Tiles a front c ∧ Tiles c back b := by
  induction front generalizing a with
  | nil => exact ⟨fun h => ⟨a, rfl, h⟩, fun ⟨c, hc, h⟩ => hc ▸ h⟩
  | cons p front ih =>
    simp only [List.cons_append, Tiles, ih]
    constructor
    · rintro ⟨haddr, hsize, c, hfront, hback⟩
      exact ⟨c, ⟨haddr, hsize, hfront⟩, hback⟩
    · rintro ⟨c, ⟨haddr, hsize, hfront⟩, hback⟩
      exact ⟨haddr, hsize, c, hfront, hback⟩

theorem Tiles.le (h : Tiles a ps b) : a ≤ b := by
  induction ps generalizing a with
  | nil => exact Nat.le_of_eq h
  | cons p ps ih =>
    obtain ⟨haddr, -, hrest⟩ := h
    have hle := ih hrest
    unfold Span.stop at hle
    omega

/-- A span of a tiling lies in the interval. -/
theorem Tiles.mem (h : Tiles a ps b) (hp : p ∈ ps) : a ≤ p.addr ∧ 0 < p.size ∧ p.stop ≤ b := by
  induction ps generalizing a with
  | nil => cases hp
  | cons q ps ih =>
    obtain ⟨haddr, hsize, hrest⟩ := h
    rcases List.mem_cons.mp hp with rfl | hp
    · exact ⟨Nat.le_of_eq haddr.symm, hsize, hrest.le⟩
    · obtain ⟨hle, hpos, hstop⟩ := ih hrest hp
      unfold Span.stop at hle
      exact ⟨by omega, hpos, hstop⟩

/-- Two spans of a tiling are the same or apart. -/
theorem Tiles.apart (h : Tiles a ps b) (hp : p ∈ ps) (hq : q ∈ ps) :
    p = q ∨ p.stop ≤ q.addr ∨ q.stop ≤ p.addr := by
  induction ps generalizing a with
  | nil => cases hp
  | cons r ps ih =>
    obtain ⟨-, -, hrest⟩ := h
    rcases List.mem_cons.mp hp with rfl | hp' <;> rcases List.mem_cons.mp hq with rfl | hq'
    · exact .inl rfl
    · exact .inr (.inl (hrest.mem hq').1)
    · exact .inr (.inr (hrest.mem hp').1)
    · exact ih hrest hp' hq'

theorem Tiles.nodup (h : Tiles a ps b) : ps.Nodup := by
  induction ps generalizing a with
  | nil => exact List.nodup_nil
  | cons p ps ih =>
    obtain ⟨-, hsize, hrest⟩ := h
    refine List.nodup_cons.mpr ⟨fun hmem => ?_, ih hrest⟩
    have hle := (hrest.mem hmem).1
    unfold Span.stop at hle
    omega

/-- Cut at a span. -/
theorem Tiles.cut (h : Tiles a (front ++ p :: back) b) :
    Tiles a front p.addr ∧ Tiles p.stop back b ∧ 0 < p.size := by
  obtain ⟨c, hfront, haddr, hsize, hback⟩ := tiles_append.mp h
  exact ⟨haddr ▸ hfront, hback, hsize⟩

/-- Join at a span. -/
theorem Tiles.join (hfront : Tiles a front p.addr) (hsize : 0 < p.size) (hback : Tiles p.stop back b) :
    Tiles a (front ++ p :: back) b :=
  tiles_append.mpr ⟨p.addr, hfront, rfl, hsize, hback⟩

/-- The span in front of the place where a tiling stops. -/
theorem Tiles.last (h : Tiles a (front ++ [p]) b) : Tiles a front p.addr ∧ p.stop = b ∧ 0 < p.size := by
  obtain ⟨hfront, hback, hsize⟩ := h.cut
  exact ⟨hfront, hback, hsize⟩

/-- A tiling that goes nowhere is empty. -/
theorem Tiles.eq_nil (h : Tiles a ps a) : ps = [] := by
  cases ps with
  | nil => rfl
  | cons p ps =>
    obtain ⟨haddr, hsize, hrest⟩ := h
    have hle := hrest.le
    unfold Span.stop at hle
    omega

/-- No two neighbours are loose. -/
def Separated (solid : κ → Bool) (ps : List (Span κ)) : Prop :=
  ps.IsChain fun p q => solid p.kind = true ∨ solid q.kind = true

/-- The first loose span of a separated tiling stops where the next solid one starts, or where the tiling
does: not before a span of another tiling that starts with it, when that one has all the solid spans. -/
theorem Tiles.stop_le {solid : κ → Bool} (h : Tiles a (p :: ps) b) (h' : Tiles a (q :: front) b)
    (hsep : Separated solid (p :: ps)) (hp : solid p.kind = false) (hq : solid q.kind = false)
    (hmem : ∀ r, solid r.kind = true → r ∈ p :: ps → r ∈ q :: front) : q.stop ≤ p.stop := by
  obtain ⟨-, -, hrest⟩ := h
  obtain ⟨-, -, hrest'⟩ := h'
  cases ps with
  | nil =>
    have heq : p.stop = b := hrest
    have hle := hrest'.le
    omega
  | cons r ps =>
    obtain ⟨haddr, -, -⟩ := hrest
    have hor := (List.isChain_cons.mp hsep).1 r rfl
    rw [hp] at hor
    have hr := hor.resolve_left Bool.false_ne_true
    rcases List.mem_cons.mp (hmem r hr (List.mem_cons_of_mem p List.mem_cons_self)) with rfl | hin
    · rw [hq] at hr
      cases hr
    · have hle := (hrest'.mem hin).1
      omega

/-- **A separated tiling is a function of its solid spans**, when the loose ones are all of one kind. -/
theorem Tiles.eq_of_separated {solid : κ → Bool} {qs : List (Span κ)} (h : Tiles a ps b) (h' : Tiles a qs b)
    (hsep : Separated solid ps) (hsep' : Separated solid qs)
    (hkind : ∀ k k', solid k = false → solid k' = false → k = k')
    (hmem : ∀ r : Span κ, solid r.kind = true → (r ∈ ps ↔ r ∈ qs)) : ps = qs := by
  induction ps generalizing a qs with
  | nil =>
    cases h
    exact h'.eq_nil.symm
  | cons p ps ih =>
    cases qs with
    | nil =>
      cases h'
      exact h.eq_nil
    | cons q qs =>
      obtain ⟨hpaddr, hpsize, hps⟩ := id h
      obtain ⟨hqaddr, hqsize, hqs⟩ := id h'
      have hpstop := p.stop_eq
      have hqstop := q.stop_eq
      -- the first spans are the same
      have heq : p = q := by
        cases hsp : solid p.kind with
        | true =>
          rcases List.mem_cons.mp ((hmem p hsp).mp List.mem_cons_self) with heq | hin
          · exact heq
          · have hle := (hqs.mem hin).1
            omega
        | false =>
          cases hsq : solid q.kind with
          | true =>
            rcases List.mem_cons.mp ((hmem q hsq).mpr List.mem_cons_self) with heq | hin
            · exact heq.symm
            · have hle := (hps.mem hin).1
              omega
          | false =>
            have hle := h.stop_le h' hsep hsp hsq fun r hr => (hmem r hr).mp
            have hle' := h'.stop_le h hsep' hsq hsp fun r hr => (hmem r hr).mpr
            have hk := hkind _ _ hsp hsq
            have haddr : p.addr = q.addr := hpaddr.trans hqaddr.symm
            have hsize : p.size = q.size := by omega
            cases p
            cases q
            cases haddr
            cases hsize
            cases hk
            rfl
      subst heq
      have hnot : ∀ {rs : List (Span κ)}, Tiles p.stop rs b → p ∉ rs := fun hrs hin => by
        have hle := (hrs.mem hin).1
        omega
      have htails : ps = qs := by
        apply ih hps hqs (List.isChain_cons.mp hsep).2 (List.isChain_cons.mp hsep').2
        intro r hr
        have hiff := hmem r hr
        rw [List.mem_cons, List.mem_cons] at hiff
        constructor
        · intro hin
          exact (hiff.mp (.inr hin)).resolve_left fun heq => hnot hps (heq ▸ hin)
        · intro hin
          exact (hiff.mpr (.inr hin)).resolve_left fun heq => hnot hqs (heq ▸ hin)
      rw [htails]

/-- The sizes add up to the length of the interval. -/
theorem Tiles.sum_size (h : Tiles a ps b) : a + (ps.map (·.size)).sum = b := by
  induction ps generalizing a with
  | nil => exact h
  | cons p ps ih =>
    obtain ⟨haddr, -, hrest⟩ := h
    have hsum := ih hrest
    unfold Span.stop at hsum
    rw [List.map_cons, List.sum_cons]
    omega

/-- Spans of at least `k` tile an interval of at least `k` times their number. -/
theorem Tiles.length_le {k : Nat} (h : Tiles a ps b) (hk : ∀ p ∈ ps, k ≤ p.size) :
    a + k * ps.length ≤ b := by
  induction ps generalizing a with
  | nil => exact Nat.le_of_eq h
  | cons p ps ih =>
    obtain ⟨haddr, -, hrest⟩ := h
    have hrest := ih hrest fun q hq => hk q (List.mem_cons_of_mem p hq)
    have hp := hk p List.mem_cons_self
    unfold Span.stop at hrest
    rw [List.length_cons, Nat.mul_add]
    omega

end Chvm.Lib
