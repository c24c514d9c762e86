import Chvm.Lib.Simulation

/-!
# Objects whose calls take effect at once

An object says what a call of a thread does to its state when it is done at once, and with which result.
Threads use it by calls that take their time: a call is made, has its effect some time later, and returns
its result. The effects of a run, in their order, are a run of the object alone.
-/

set_option autoImplicit false

namespace Chvm.Lib.Linear

variable {ω κ ρ : Type*}

/-- How far a thread is with a call. -/
inductive Stage (κ ρ : Type*)
  | idle (result : Option ρ)
  | called (call : κ)
  | done (result : ρ)
deriving DecidableEq, Repr

/-- The object, with the threads that use it. -/
structure Calls (ω κ ρ : Type*) where
  obj : ω
  threads : List (Stage κ ρ)

inductive Act (κ ρ : Type*)
  | call (t : Nat) (call : κ)
  | effect (t : Nat) (call : κ) (result : ρ)
  | ret (t : Nat) (result : ρ)
deriving DecidableEq, Repr

/-- An object: the state after a call of a thread with a result; `none` when it has no such result there. -/
abbrev Object (ω κ ρ : Type*) := ω → Nat → κ → ρ → Option ω

section

variable [DecidableEq κ] [DecidableEq ρ]

def callStep (effect : Object ω κ ρ) (s : Calls ω κ ρ) : Act κ ρ → Option (Calls ω κ ρ)
  | .call t c =>
    match s.threads[t]? with
    | some (.idle _) => some { s with threads := s.threads.set t (.called c) }
    | _ => none
  | .effect t c r =>
    if s.threads[t]? = some (.called c) then
      (effect s.obj t c r).map fun obj => ⟨obj, s.threads.set t (.done r)⟩
    else none
  | .ret t r =>
    if s.threads[t]? = some (.done r) then some { s with threads := s.threads.set t (.idle (some r)) }
    else none

end

variable [DecidableEq κ] [DecidableEq ρ] {effect : Object ω κ ρ} {s s' : Calls ω κ ρ} {a : Act κ ρ}
  {obj : ω} {t : Nat} {c : κ} {r : ρ}

/-! ## One call -/

/-- A run of the calls, of these actions. -/
def Run (effect : Object ω κ ρ) (s : Calls ω κ ρ) (acts : List (Act κ ρ)) (s' : Calls ω κ ρ) : Prop :=
  ∃ tr, Steps (callStep effect) (fun _ _ => True) s tr s' ∧ tr.map Prod.snd = acts

theorem run_nil : Run effect s [] s := ⟨[], .nil, rfl⟩

theorem run_of_callStep (hst : callStep effect s a = some s') : Run effect s [a] s' :=
  ⟨[(s, a)], .single trivial hst, rfl⟩

theorem run_call {r : Option ρ} (hidle : s.threads[t]? = some (.idle r)) :
    Run effect s [.call t c] ⟨s.obj, s.threads.set t (.called c)⟩ := by
  refine run_of_callStep ?_
  simp only [callStep, hidle]

theorem run_effect (hcalled : s.threads[t]? = some (.called c)) (heffect : effect s.obj t c r = some obj) :
    Run effect s [.effect t c r] ⟨obj, s.threads.set t (.done r)⟩ := by
  refine run_of_callStep ?_
  simp only [callStep, if_pos hcalled, heffect, Option.map_some]

theorem run_ret (hdone : s.threads[t]? = some (.done r)) :
    Run effect s [.ret t r] ⟨s.obj, s.threads.set t (.idle (some r))⟩ :=
  run_of_callStep (if_pos hdone)

/-- A call that returns as it has its effect. -/
theorem run_effect_ret (hcalled : s.threads[t]? = some (.called c))
    (heffect : effect s.obj t c r = some obj) :
    Run effect s [.effect t c r, .ret t r] ⟨obj, s.threads.set t (.idle (some r))⟩ := by
  have hlt : t < s.threads.length := (List.getElem?_eq_some_iff.mp hcalled).1
  obtain ⟨tr, hfirst, hmap⟩ := run_effect hcalled heffect
  have hret : Run effect ⟨obj, s.threads.set t (.done r)⟩ [.ret t r]
      ⟨obj, (s.threads.set t (.done r)).set t (.idle (some r))⟩ := run_ret (List.getElem?_set_self hlt)
  rw [List.set_set] at hret
  obtain ⟨tr', hlast, hmap'⟩ := hret
  refine ⟨tr ++ tr', hfirst.trans hlast, ?_⟩
  rw [List.map_append, hmap, hmap']
  rfl

/-! ## The order of the effects -/

end Chvm.Lib.Linear
