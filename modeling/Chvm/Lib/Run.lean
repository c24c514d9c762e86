import Mathlib.Data.List.Basic

/-!
# Runs of a guarded system

A system is an executable step function `σ → α → Option σ`: the action names the party that moves
and the choices it makes, and `none` says that the action is not enabled. A run is a list of
events, each the state before a step and the action taken there, so that a law can speak of what a
run did (how often a step of some kind was taken) and not only of the state it ended in.

The rule `ok` restricts the runs a law is about: a client's obligations, or the condition under
which a component meets its specification. Every law below is stated of any rule.
-/

set_option autoImplicit false

namespace Chvm.Lib

variable {σ α : Type*}

/-- A finite run from `s`: each step is enabled and meets the rule `ok` where it is taken. -/
inductive Steps (step : σ → α → Option σ) (ok : σ → α → Prop) (s : σ) : List (σ × α) → σ → Prop
  | nil : Steps step ok s [] s
  | snoc {tr : List (σ × α)} {m t : σ} {a : α} :
      Steps step ok s tr m → ok m a → step m a = some t → Steps step ok s (tr ++ [(m, a)]) t

/-- A state some run reaches. -/
def Reaches (step : σ → α → Option σ) (ok : σ → α → Prop) (s t : σ) : Prop :=
  ∃ tr, Steps step ok s tr t

variable {step : σ → α → Option σ} {ok : σ → α → Prop}

theorem Steps.trans {s m t : σ} {tr tr' : List (σ × α)} (h : Steps step ok s tr m)
    (h' : Steps step ok m tr' t) : Steps step ok s (tr ++ tr') t := by
  induction h' with
  | nil => simpa only [List.append_nil] using h
  | snoc _ hok hst ih =>
    rw [← List.append_assoc]
    exact ih.snoc hok hst

theorem Steps.cons {s m t : σ} {a : α} {tr : List (σ × α)} (hok : ok s a)
    (hst : step s a = some m) (h : Steps step ok m tr t) : Steps step ok s ((s, a) :: tr) t :=
  (Steps.nil.snoc hok hst).trans h

/-- A weaker rule admits the same run. -/
theorem Steps.weaken {ok' : σ → α → Prop} {s t : σ} {tr : List (σ × α)}
    (himp : ∀ m a, ok m a → ok' m a) (h : Steps step ok s tr t) : Steps step ok' s tr t := by
  induction h with
  | nil => exact .nil
  | snoc _ hok hst ih => exact ih.snoc (himp _ _ hok) hst

/-- **The invariant rule.** What the start has and every admitted step keeps, every run keeps. -/
theorem Steps.invariant {inv : σ → Prop} {s t : σ} {tr : List (σ × α)}
    (hstep : ∀ m a m', inv m → ok m a → step m a = some m' → inv m')
    (h : Steps step ok s tr t) (h0 : inv s) : inv t := by
  induction h with
  | nil => exact h0
  | snoc _ hok hst ih => exact hstep _ _ _ ih hok hst

/-- The invariant rule for reachable states. -/
theorem Reaches.invariant {inv : σ → Prop} {s t : σ}
    (hstep : ∀ m a m', inv m → ok m a → step m a = some m' → inv m')
    (h : Reaches step ok s t) (h0 : inv s) : inv t :=
  h.elim fun _ h => h.invariant hstep h0

theorem Reaches.refl (s : σ) : Reaches step ok s s := ⟨[], .nil⟩

theorem Reaches.snoc {s m t : σ} {a : α} (h : Reaches step ok s m) (hok : ok m a)
    (hst : step m a = some t) : Reaches step ok s t :=
  h.elim fun _ h => ⟨_, h.snoc hok hst⟩

theorem Reaches.trans {s m t : σ} (h : Reaches step ok s m) (h' : Reaches step ok m t) :
    Reaches step ok s t := by
  obtain ⟨_, h⟩ := h
  obtain ⟨_, h'⟩ := h'
  exact ⟨_, h.trans h'⟩

theorem Reaches.weaken {ok' : σ → α → Prop} {s t : σ} (himp : ∀ m a, ok m a → ok' m a)
    (h : Reaches step ok s t) : Reaches step ok' s t :=
  h.elim fun _ h => ⟨_, h.weaken himp⟩

/-- A step of a run is taken in a state the run reaches. -/
theorem Steps.reaches_of_mem {s t : σ} {tr : List (σ × α)} {e : σ × α}
    (h : Steps step ok s tr t) (he : e ∈ tr) : Reaches step ok s e.1 := by
  induction h with
  | nil => cases he
  | snoc hsteps _ _ ih =>
    rcases List.mem_append.mp he with he | he
    · exact ih he
    · rw [List.mem_singleton.mp he]
      exact ⟨_, hsteps⟩

/-- Take the listed actions in order, each one passing the check where it is taken. -/
def exec (step : σ → α → Option σ) (check : σ → α → Bool) : σ → List α → Option σ
  | s, [] => some s
  | s, a :: as => if check s a then (step s a).bind fun m => exec step check m as else none

/-- What executes is a run, under any rule the check is sound for. -/
theorem steps_of_exec {check : σ → α → Bool} (hsound : ∀ m a, check m a = true → ok m a)
    (as : List α) {s t : σ} (h : exec step check s as = some t) :
    ∃ tr, tr.map Prod.snd = as ∧ Steps step ok s tr t := by
  induction as generalizing s with
  | nil =>
    cases h
    exact ⟨[], rfl, .nil⟩
  | cons a as ih =>
    simp only [exec] at h
    split at h
    · rename_i hcheck
      obtain ⟨m, hst, hrest⟩ := Option.bind_eq_some_iff.mp h
      obtain ⟨tr, htr, hsteps⟩ := ih hrest
      exact ⟨(s, a) :: tr, by simp only [List.map_cons, htr], hsteps.cons (hsound _ _ hcheck) hst⟩
    · cases h

theorem reaches_of_exec {check : σ → α → Bool} (hsound : ∀ m a, check m a = true → ok m a)
    (as : List α) {s t : σ} (h : exec step check s as = some t) : Reaches step ok s t := by
  obtain ⟨tr, _, hsteps⟩ := steps_of_exec hsound as h
  exact ⟨tr, hsteps⟩

/-! ## A loop with fuel -/

/-- Take steps until `stop`; `none` when the fuel runs out or a step is not enabled. -/
def runUntil (next : σ → Option σ) (stop : σ → Bool) : Nat → σ → Option σ
  | 0, _ => none
  | fuel + 1, s => if stop s then some s else (next s).bind (runUntil next stop fuel)

/-- **The termination rule.** When every state of the invariant that does not stop has a step, and
the step keeps the invariant and lowers the rank, some amount of fuel brings the loop to its end. -/
theorem runUntil_terminates {β : Type*} {r : β → β → Prop} (hwf : WellFounded r) {rank : σ → β}
    {next : σ → Option σ} {stop : σ → Bool} {inv : σ → Prop}
    (hstep : ∀ m, inv m → stop m = false →
      ∃ m', next m = some m' ∧ inv m' ∧ r (rank m') (rank m)) {s : σ} (h0 : inv s) :
    ∃ fuel t, runUntil next stop fuel s = some t ∧ inv t ∧ stop t = true := by
  induction hb : rank s using hwf.induction generalizing s with
  | h b ih =>
    subst hb
    cases hstop : stop s with
    | true => exact ⟨1, s, by simp only [runUntil, hstop, if_true], h0, hstop⟩
    | false =>
      obtain ⟨m, hm, hinv, hlt⟩ := hstep s h0 hstop
      obtain ⟨fuel, t, hrun, hend⟩ := ih _ hlt hinv rfl
      refine ⟨fuel + 1, t, ?_, hend⟩
      simp only [runUntil, hstop, hm, Bool.false_eq_true, if_false, Option.bind_some, hrun]

end Chvm.Lib
