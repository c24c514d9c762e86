import Chvm.Lib.Run

/-!
# Programs that ask

A program over operations `O` is a tree: it ends with a value, or asks an operation and goes on with
the answer. What an operation does to the state under an answer is a step function of its own, and
`none` is an answer that cannot come. A law quantifies over the answers, so that it holds whatever the
environment does.

A client makes calls on an interface, one after the other. When every call admitted by the rule meets
its contract, every run of the client keeps the interface's invariant.
-/

set_option autoImplicit false

namespace Chvm.Lib

/-- A program with result `α`. -/
inductive Prog (O A α : Type) where
  | pure (a : α)
  | ask (o : O) (k : A → Prog O A α)

variable {O A α β σ C R : Type}

namespace Prog

def bind : Prog O A α → (α → Prog O A β) → Prog O A β
  | .pure a, f => f a
  | .ask o k, f => .ask o fun i => (k i).bind f

instance : Monad (Prog O A) where
  pure := Prog.pure
  bind := Prog.bind

/-- One operation. -/
def call (o : O) : Prog O A A := .ask o .pure

/-- The program that is left after these answers, and the state they lead to. -/
def after (step : O → σ → A → Option σ) : List A → Prog O A α → σ → Option (Prog O A α × σ)
  | [], p, s => some (p, s)
  | i :: is, .ask o k, s => (step o s i).bind fun s => after step is (k i) s
  | _ :: _, .pure _, _ => none

/-- Whatever the answers, the program asks each operation where `ok` holds, and ends in `Q`. -/
def Wp (step : O → σ → A → Option σ) (ok : O → σ → Prop) : Prog O A α → (α → σ → Prop) → σ → Prop
  | .pure a, Q, s => Q a s
  | .ask o k, Q, s => ok o s ∧ ∀ i s', step o s i = some s' → Wp step ok (k i) Q s'

variable {step : O → σ → A → Option σ} {ok : O → σ → Prop} {Q : α → σ → Prop} {s s' : σ}
  {p : Prog O A α}

@[simp] theorem wp_pure (a : α) : Wp step ok (Pure.pure a : Prog O A α) Q s ↔ Q a s := Iff.rfl

@[simp] theorem wp_call (o : O) {Q : A → σ → Prop} :
    Wp step ok (call o) Q s ↔ ok o s ∧ ∀ i s', step o s i = some s' → Q i s' := Iff.rfl

@[simp] theorem wp_bind (p : Prog O A α) (f : α → Prog O A β) {Q : β → σ → Prop} :
    Wp step ok (p >>= f) Q s ↔ Wp step ok p (fun a => Wp step ok (f a) Q) s := by
  show Wp step ok (p.bind f) Q s ↔ Wp step ok p (fun a => Wp step ok (f a) Q) s
  induction p generalizing s with
  | pure a => exact Iff.rfl
  | ask o k ih =>
    apply and_congr_right
    intro _
    exact forall_congr' fun i => forall_congr' fun s' => imp_congr_right fun _ => ih i

theorem Wp.bind {f : α → Prog O A β} {Q : β → σ → Prop}
    (h : Wp step ok p (fun a => Wp step ok (f a) Q) s) : Wp step ok (p >>= f) Q s :=
  (wp_bind p f).mpr h

end Prog

/-! ## A client of an interface -/

/-- A client, in a call or between two. -/
structure Client (O A R σ : Type) where
  state : σ
  prog : Option (Prog O A R)

inductive ClientAct (C A : Type)
  | call (c : C)
  | answer (i : A)
  | ret

/-- One step, when the calls have these bodies. -/
def clientStep (body : C → Prog O A R) (step : O → σ → A → Option σ) (s : Client O A R σ) :
    ClientAct C A → Option (Client O A R σ)
  | .call c => if s.prog.isSome then none else some { s with prog := some (body c) }
  | .answer i =>
    match s.prog with
    | some (.ask o k) => (step o s.state i).map fun state => { state := state, prog := some (k i) }
    | _ => none
  | .ret =>
    match s.prog with
    | some (.pure _) => some { s with prog := none }
    | _ => none

namespace Client

variable {body : C → Prog O A R} {step : O → σ → A → Option σ} {ok : O → σ → Prop} {inv : σ → Prop}
  {rule : σ → C → Prop} {s s' : Client O A R σ}

/-- Between calls the invariant holds, and a call is on its way to it. -/
def Keeps (step : O → σ → A → Option σ) (ok : O → σ → Prop) (inv : σ → Prop) (s : Client O A R σ) : Prop :=
  match s.prog with
  | none => inv s.state
  | some p => p.Wp step ok (fun _ => inv) s.state

/-- The rule for the calls, as a rule for the steps. -/
def CallRule (rule : σ → C → Prop) (s : Client O A R σ) : ClientAct C A → Prop
  | .call c => rule s.state c
  | _ => True

/-- **The contract rule.** Calls that meet their contracts keep the invariant in every run. -/
theorem keeps_reach (hbody : ∀ c s, inv s → rule s c → (body c).Wp step ok (fun _ => inv) s)
    (hreach : Reaches (clientStep body step) (CallRule rule) s s') (h : Keeps step ok inv s) :
    Keeps step ok inv s' := by
  have hstep : ∀ m a m', Keeps step ok inv m → CallRule rule m a → clientStep body step m a = some m' →
      Keeps step ok inv m' := by
    intro m a m' hm hrule hm'
    obtain ⟨state, prog⟩ := m
    cases a with
    | call c =>
      cases prog with
      | some p => cases hm'
      | none =>
        cases hm'
        exact hbody c state hm hrule
    | answer i =>
      cases prog with
      | none => cases hm'
      | some p =>
        cases p with
        | pure a => cases hm'
        | ask o k =>
          obtain ⟨state', hstate, rfl⟩ := Option.map_eq_some_iff.mp hm'
          exact hm.2 i state' hstate
    | ret =>
      cases prog with
      | none => cases hm'
      | some p =>
        cases p with
        | pure a =>
          cases hm'
          exact hm
        | ask o k => cases hm'
  exact hreach.invariant hstep h

/-- A call's answers, as steps. -/
theorem reaches_after {admitted : Client O A R σ → ClientAct C A → Prop}
    (hanswer : ∀ s i, admitted s (.answer i))
    {p p' : Prog O A R} {t t' : σ} {is : List A} (h : p.after step is t = some (p', t')) :
    Reaches (clientStep body step) admitted ⟨t, some p⟩ ⟨t', some p'⟩ := by
  induction is generalizing p t with
  | nil =>
    cases h
    exact .refl _
  | cons i is ih =>
    cases p with
    | pure a => cases h
    | ask o k =>
      obtain ⟨m, hm, hrest⟩ := Option.bind_eq_some_iff.mp h
      have hone : clientStep body step ⟨t, some (.ask o k)⟩ (.answer i) = some ⟨m, some (k i)⟩ := by
        simp only [clientStep, hm, Option.map_some]
      exact ((Reaches.refl _).snoc (hanswer _ i) hone).trans (ih hrest)

end Client

end Chvm.Lib
