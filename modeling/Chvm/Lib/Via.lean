import Mathlib.Order.Basic

/-!
# Reaching through a set of nodes

`Via edge through src v`: a source reaches `v` along edges, and every node of the path, both ends
included, lies in `through`. With `through` everything this is plain reachability; with `through`
the nodes a search has not finished, it is what the search still has to find.
-/

set_option autoImplicit false

namespace Chvm.Lib

variable {α : Type*}

inductive Via (edge : α → α → Prop) (through src : α → Prop) : α → Prop
  | base {v : α} : src v → through v → Via edge through src v
  | step {u v : α} : Via edge through src u → edge u v → through v → Via edge through src v

variable {edge edge' : α → α → Prop} {through through' src src' : α → Prop}

theorem Via.inside {v : α} (h : Via edge through src v) : through v := by
  cases h with
  | base _ ht => exact ht
  | step _ _ ht => exact ht

/-- A set that has the sources and is closed along the edges has everything reached. -/
theorem Via.least {P : α → Prop} (hbase : ∀ v, src v → through v → P v)
    (hstep : ∀ u v, P u → through u → edge u v → through v → P v) {v : α}
    (h : Via edge through src v) : P v := by
  induction h with
  | base hs ht => exact hbase _ hs ht
  | step hu he ht ih => exact hstep _ _ ih hu.inside he ht

/-- More edges, a larger set and more sources reach more. -/
theorem Via.mono (hedge : ∀ u v, through u → edge u v → edge' u v)
    (hthrough : ∀ v, through v → through' v) (hsrc : ∀ v, src v → src' v) {v : α}
    (h : Via edge through src v) : Via edge' through' src' v :=
  h.least (fun _ hs ht => .base (hsrc _ hs) (hthrough _ ht))
    fun _ _ hu htu he ht => .step hu (hedge _ _ htu he) (hthrough _ ht)

theorem not_via_of_no_src (hsrc : ∀ v, ¬ src v) {v : α} : ¬ Via edge through src v :=
  fun h => h.least (P := fun _ => False) (fun _ hs _ => hsrc _ hs) fun _ _ hu _ _ _ => hu

end Chvm.Lib
