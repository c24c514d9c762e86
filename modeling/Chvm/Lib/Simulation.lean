import Mathlib.Data.List.Forall2
import Chvm.Lib.Run

/-!
# Simulation

A concrete system is simulated by an abstract one when every admitted step is a run of the abstract
system between the abstractions of its two states: no step when the abstract system does not see the
concrete one, several when it is made of parts there. `shows` says which abstract actions a concrete
one may be, so that the abstract run is one of the concrete run's own doing.
-/

set_option autoImplicit false

namespace Chvm.Lib

variable {σ α τ β : Type*} {step : σ → α → Option σ} {ok : σ → α → Prop} {step' : τ → β → Option τ}
  {ok' : τ → β → Prop}

/-- An action of one step. -/
theorem Steps.single {s t : σ} {a : α} (hok : ok s a) (hst : step s a = some t) :
    Steps step ok s [(s, a)] t := Steps.nil.snoc hok hst

/-- The abstract actions of a trace. -/
def Shows (shows : α → List β → Prop) (as : List α) (bs : List β) : Prop :=
  ∃ parts, List.Forall₂ shows as parts ∧ bs = parts.flatten

theorem Shows.nil {shows : α → List β → Prop} : Shows shows [] [] := ⟨[], .nil, rfl⟩

theorem Shows.snoc {shows : α → List β → Prop} {as : List α} {bs bs' : List β} {a : α}
    (h : Shows shows as bs) (ha : shows a bs') : Shows shows (as ++ [a]) (bs ++ bs') := by
  obtain ⟨parts, hparts, rfl⟩ := h
  refine ⟨parts ++ [bs'], List.rel_append hparts (.cons ha .nil), ?_⟩
  rw [List.flatten_append, List.flatten_singleton]

/-- **The simulation rule.** What every admitted step does, every run does: it is a run of the abstract
system, of the actions that its own actions show. -/
theorem Steps.simulate {inv : σ → Prop} {abs : σ → τ} {shows : α → List β → Prop}
    (hstep : ∀ m a m', inv m → ok m a → step m a = some m' →
      inv m' ∧ ∃ tr, Steps step' ok' (abs m) tr (abs m') ∧ shows a (tr.map Prod.snd))
    {s t : σ} {tr : List (σ × α)} (h : Steps step ok s tr t) (h0 : inv s) :
    inv t ∧ ∃ tr', Steps step' ok' (abs s) tr' (abs t) ∧
      Shows shows (tr.map Prod.snd) (tr'.map Prod.snd) := by
  induction h with
  | nil => exact ⟨h0, [], .nil, .nil⟩
  | @snoc tr m t a _ hok hst ih =>
    obtain ⟨hm, tr₁, hrun, hshows⟩ := ih
    obtain ⟨ht, tr₂, hlast, ha⟩ := hstep m a t hm hok hst
    refine ⟨ht, tr₁ ++ tr₂, hrun.trans hlast, ?_⟩
    rw [List.map_append, List.map_append]
    exact hshows.snoc ha

/-- **Transfer.** An abstraction of a reachable state is reachable. -/
theorem Reaches.simulate {inv : σ → Prop} {abs : σ → τ} {shows : α → List β → Prop}
    (hstep : ∀ m a m', inv m → ok m a → step m a = some m' →
      inv m' ∧ ∃ tr, Steps step' ok' (abs m) tr (abs m') ∧ shows a (tr.map Prod.snd))
    {s t : σ} (h : Reaches step ok s t) (h0 : inv s) : Reaches step' ok' (abs s) (abs t) := by
  obtain ⟨tr, h⟩ := h
  obtain ⟨-, tr', hrun, -⟩ := h.simulate hstep h0
  exact ⟨tr', hrun⟩

/-- **Loops.** Where every step of the abstract loop is matched by one of the concrete loop, the concrete one
ends with the same fuel. -/
theorem runUntil_simulate {inv : σ → Prop} {next : σ → Option σ} {next' : τ → Option τ} {stop : σ → Bool}
    {stop' : τ → Bool} {fuel : Nat} {s : σ} {t : τ} (abs : σ → τ)
    (h : runUntil next' stop' fuel (abs s) = some t) (hstop : ∀ m, stop' (abs m) = stop m)
    (hnext : ∀ m t, inv m → next' (abs m) = some t → ∃ n, next m = some n ∧ inv n ∧ abs n = t) (h0 : inv s) :
    ∃ u, runUntil next stop fuel s = some u ∧ inv u ∧ abs u = t := by
  induction fuel generalizing s with
  | zero => cases h
  | succ fuel ih =>
    simp only [runUntil, hstop] at h ⊢
    split at h
    next hs =>
      cases h
      exact ⟨s, if_pos hs, h0, rfl⟩
    next hs =>
      obtain ⟨m, hm, hrest⟩ := Option.bind_eq_some_iff.mp h
      obtain ⟨n, hn, hinv, rfl⟩ := hnext s m h0 hm
      obtain ⟨u, hu, hend⟩ := ih hrest hinv
      exact ⟨u, by rw [if_neg hs, hn, Option.bind_some, hu], hend⟩

end Chvm.Lib
