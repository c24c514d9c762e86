import Mathlib.Data.List.Nodup

/-!
# Singly linked lists

A null-terminated list kept in one link function. A chain is determined by its head and the links
of its own nodes.
-/

set_option autoImplicit false

namespace Chvm.Lib

variable {α : Type*}

/-- The nodes of `l`, from the head `h` to the null link. -/
def Chain (next : α → Option α) : Option α → List α → Prop
  | h, [] => h = none
  | h, a :: l => h = some a ∧ Chain next (next a) l

variable {next next' : α → Option α} {h : Option α} {a : α} {l : List α}

theorem Chain.congr (hc : Chain next h l) (hnext : ∀ a ∈ l, next' a = next a) : Chain next' h l := by
  induction l generalizing h with
  | nil => exact hc
  | cons a l ih =>
    obtain ⟨hh, hc⟩ := hc
    refine ⟨hh, ?_⟩
    rw [hnext a List.mem_cons_self]
    exact ih hc fun b hb => hnext b (List.mem_cons_of_mem a hb)

theorem Chain.eq_nil (hc : Chain next none l) : l = [] := by
  cases l with
  | nil => rfl
  | cons a l => cases hc.1

theorem Chain.eq_cons (hc : Chain next (some a) l) : ∃ l', l = a :: l' ∧ Chain next (next a) l' := by
  cases l with
  | nil => cases hc
  | cons b l =>
    obtain ⟨hh, hc⟩ := hc
    cases hh
    exact ⟨l, rfl, hc⟩

/-- An array whose entries are linked in order. -/
theorem chain_range' {next : Nat → Option Nat} {a b n : Nat} (hlast : a + n = b)
    (hnext : ∀ i, a ≤ i → i < b → next i = if i + 1 < b then some (i + 1) else none) :
    Chain next (if a < b then some a else none) (List.range' a n) := by
  induction n generalizing a with
  | zero => exact if_neg (by omega)
  | succ n ih =>
    refine ⟨if_pos (by omega), ?_⟩
    rw [hnext a (Nat.le_refl a) (by omega)]
    exact ih (by omega) fun i hge hlt => hnext i (by omega) hlt

end Chvm.Lib
