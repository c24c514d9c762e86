import Mathlib.Algebra.Group.Nat.Defs
import Mathlib.Data.List.Basic

/-!
# Little-endian words on a wire

A word of `n` bytes, least byte first, as a program that writes a machine word byte for byte puts it
on a wire, and the word a reader makes of bytes.
-/

set_option autoImplicit false

namespace Chvm.Lib

/-- The `n` bytes of the word. -/
def le : Nat → Nat → List UInt8
  | 0, _ => []
  | n + 1, v => UInt8.ofNat v :: le n (v / 256)

/-- The word of the bytes. -/
def ofLe : List UInt8 → Nat
  | [] => 0
  | b :: bs => b.toNat + 256 * ofLe bs

@[simp] theorem length_le (n v : Nat) : (le n v).length = n := by
  induction n generalizing v with
  | zero => rfl
  | succ n ih => rw [le, List.length_cons, ih]

/-- **Round trip.** A word that fits its bytes is read back. -/
theorem ofLe_le {n v : Nat} (h : v < 256 ^ n) : ofLe (le n v) = v := by
  induction n generalizing v with
  | zero =>
    have hzero : v = 0 := by simpa only [Nat.pow_zero, Nat.lt_one_iff] using h
    rw [hzero]
    rfl
  | succ n ih =>
    have hdiv : v / 256 < 256 ^ n := by
      rw [Nat.pow_succ] at h
      exact Nat.div_lt_of_lt_mul (Nat.mul_comm _ 256 ▸ h)
    rw [le, ofLe, ih hdiv, UInt8.toNat_ofNat']
    exact Nat.mod_add_div v 256

end Chvm.Lib
