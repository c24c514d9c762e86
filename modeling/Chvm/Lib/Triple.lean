import Mathlib.Data.List.Basic

/-!
# Triples of programs that may stop

A program is a `StateT σ (Except ε)` computation: it passes a state on, and may stop with a reason.
A triple says what holds when it ends, and names the reasons it may stop for; with no reason
admitted it is a statement of total correctness.
-/

set_option autoImplicit false

namespace Chvm.Lib

variable {σ ε α β : Type} {stops stops' : ε → Prop} {P P' : σ → Prop} {Q Q' : α → σ → Prop}
  {R : β → σ → Prop}

/-- A result in `Q`, or a reason that `stops` admits. -/
def Ends (stops : ε → Prop) (Q : α → σ → Prop) : Except ε (α × σ) → Prop
  | .ok r => Q r.1 r.2
  | .error e => stops e

/-- From `P` the program ends in `Q`, unless it stops for a reason that `stops` admits. -/
def Triple (stops : ε → Prop) (P : σ → Prop) (x : StateT σ (Except ε) α) (Q : α → σ → Prop) : Prop :=
  ∀ s, P s → Ends stops Q (x s)

namespace Triple

variable {x : StateT σ (Except ε) α} {f : α → StateT σ (Except ε) β}

theorem pure (a : α) : Triple stops (Q a) (Pure.pure a : StateT σ (Except ε) α) Q :=
  fun _ hs => hs

theorem bind (hx : Triple stops P x Q) (hf : ∀ a, Triple stops (Q a) (f a) R) :
    Triple stops P (x >>= f) R := by
  intro s hs
  have hfirst := hx s hs
  show Ends stops R ((x s).bind fun r => f r.1 r.2)
  cases heq : x s with
  | error e =>
    rw [heq] at hfirst
    exact hfirst
  | ok r =>
    rw [heq] at hfirst
    exact hf r.1 r.2 hfirst

/-- The rule of consequence. -/
theorem conseq (hx : Triple stops P x Q) (hpre : ∀ s, P' s → P s) (hpost : ∀ a s, Q a s → Q' a s) :
    Triple stops P' x Q' := by
  intro s hs
  have hend := hx s (hpre s hs)
  cases heq : x s with
  | error e =>
    rw [heq] at hend
    exact hend
  | ok r =>
    rw [heq] at hend
    exact hpost r.1 r.2 hend

theorem pre (hx : Triple stops P x Q) (hpre : ∀ s, P' s → P s) : Triple stops P' x Q :=
  hx.conseq hpre fun _ _ h => h

theorem post (hx : Triple stops P x Q) (hpost : ∀ a s, Q a s → Q' a s) : Triple stops P x Q' :=
  hx.conseq (fun _ h => h) hpost

/-- A fact that the state does not enter is a hypothesis. -/
theorem of_fact {p : Prop} (hx : p → Triple stops P x Q) : Triple stops (fun s => p ∧ P s) x Q :=
  fun s hs => hx hs.1 s hs.2

theorem ok {s s' : σ} {a : α} (hx : Triple stops P x Q) (hs : P s) (heq : x s = .ok (a, s')) :
    Q a s' := by
  have hend := hx s hs
  rw [heq] at hend
  exact hend

theorem error {s : σ} {e : ε} (hx : Triple stops P x Q) (hs : P s) (heq : x s = .error e) :
    stops e := by
  have hend := hx s hs
  rw [heq] at hend
  exact hend

/-- A program that stops for no reason ends. -/
theorem total {s : σ} (hx : Triple (fun _ => False) P x Q) (hs : P s) :
    ∃ a s', x s = .ok (a, s') ∧ Q a s' := by
  cases heq : x s with
  | error e => exact absurd (hx.error hs heq) not_false
  | ok r => exact ⟨r.1, r.2, rfl, hx.ok hs heq⟩

end Triple

end Chvm.Lib
