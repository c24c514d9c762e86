import Mathlib.Algebra.Group.Nat.Defs
import Mathlib.Data.List.Basic

/-!
# A byte memory

Bytes at natural-number addresses, little-endian 64-bit words, and the one way to write: a run of
bytes at an address. A store, a `memmove` and the write of a byte are such runs, so that one law
says what a write leaves alone.
-/

set_option autoImplicit false

namespace Chvm.Lib

structure Mem where
  byte : Nat → UInt8

namespace Mem

/-- The word at `a`. -/
def load64 (m : Mem) (a : Nat) : Nat :=
  (m.byte a).toNat + 256 * ((m.byte (a + 1)).toNat + 256 * ((m.byte (a + 2)).toNat +
    256 * ((m.byte (a + 3)).toNat + 256 * ((m.byte (a + 4)).toNat + 256 * ((m.byte (a + 5)).toNat +
      256 * ((m.byte (a + 6)).toNat + 256 * (m.byte (a + 7)).toNat))))))

/-- The `n` bytes `f` are written at `a`. -/
def blit (m : Mem) (a n : Nat) (f : Nat → UInt8) : Mem where
  byte x := if a ≤ x ∧ x < a + n then f (x - a) else m.byte x

def store64 (m : Mem) (a v : Nat) : Mem := m.blit a 8 fun i => UInt8.ofNat (v / 2 ^ (8 * i))

/-- `memmove`: the bytes are read before any is written. -/
def move (m : Mem) (dst src n : Nat) : Mem := m.blit dst n fun i => m.byte (src + i)

def setByte (m : Mem) (a : Nat) (b : UInt8) : Mem := m.blit a 1 fun _ => b

/-- The two memories hold the same bytes in `[a, b)`. -/
def SameOn (m m' : Mem) (a b : Nat) : Prop := ∀ x, a ≤ x → x < b → m'.byte x = m.byte x

variable {m m' m'' : Mem} {a b c d v : Nat}

theorem byte_blit {n x : Nat} {f : Nat → UInt8} :
    (m.blit a n f).byte x = if a ≤ x ∧ x < a + n then f (x - a) else m.byte x := rfl

theorem SameOn.trans (h : SameOn m m' a b) (h' : SameOn m' m'' a b) : SameOn m m'' a b :=
  fun x hle hlt => (h' x hle hlt).trans (h x hle hlt)

theorem SameOn.sub (h : SameOn m m' a b) (hle : a ≤ c) (hge : d ≤ b) : SameOn m m' c d :=
  fun x hc hd => h x (Nat.le_trans hle hc) (Nat.lt_of_lt_of_le hd hge)

theorem sameOn_refl (m : Mem) (a b : Nat) : SameOn m m a b := fun _ _ _ => rfl

/-- A write leaves alone what it does not overlap. -/
theorem sameOn_blit {n : Nat} {f : Nat → UInt8} (h : d ≤ a ∨ a + n ≤ c) :
    SameOn m (m.blit a n f) c d := by
  intro x hc hd
  rw [byte_blit, if_neg]
  omega

theorem sameOn_store64 (h : d ≤ a ∨ a + 8 ≤ c) : SameOn m (m.store64 a v) c d := sameOn_blit h

theorem sameOn_move {src n : Nat} (h : d ≤ a ∨ a + n ≤ c) : SameOn m (m.move a src n) c d :=
  sameOn_blit h

theorem sameOn_setByte {x : UInt8} (h : d ≤ a ∨ a + 1 ≤ c) : SameOn m (m.setByte a x) c d :=
  sameOn_blit h

/-- A word reads its eight bytes. -/
theorem load64_congr (h : SameOn m m' a (a + 8)) : m'.load64 a = m.load64 a := by
  unfold load64
  rw [h a (by omega) (by omega), h (a + 1) (by omega) (by omega), h (a + 2) (by omega) (by omega),
    h (a + 3) (by omega) (by omega), h (a + 4) (by omega) (by omega),
    h (a + 5) (by omega) (by omega), h (a + 6) (by omega) (by omega),
    h (a + 7) (by omega) (by omega)]

theorem byte_store64 {i : Nat} (hi : i < 8) :
    ((m.store64 a v).byte (a + i)).toNat = v / 2 ^ (8 * i) % 2 ^ 8 := by
  unfold store64
  rw [byte_blit, if_pos (by omega), Nat.add_sub_cancel_left, UInt8.toNat_ofNat']

theorem load64_store64 (h : v < 2 ^ 64) : (m.store64 a v).load64 a = v := by
  have h0 := byte_store64 (m := m) (a := a) (v := v) (i := 0) (by omega)
  unfold load64
  rw [Nat.add_zero] at h0
  rw [h0, byte_store64 (by omega), byte_store64 (by omega), byte_store64 (by omega),
    byte_store64 (by omega), byte_store64 (by omega), byte_store64 (by omega),
    byte_store64 (by omega)]
  omega

theorem load64_store64_ne (h : b + 8 ≤ a ∨ a + 8 ≤ b) : (m.store64 a v).load64 b = m.load64 b :=
  load64_congr (sameOn_store64 h)

theorem byte_move {src n i : Nat} (hi : i < n) :
    (m.move a src n).byte (a + i) = m.byte (src + i) := by
  unfold move
  rw [byte_blit, if_pos (by omega), Nat.add_sub_cancel_left]

theorem byte_setByte {x : UInt8} : (m.setByte a x).byte b = if b = a then x else m.byte b := by
  unfold setByte
  rw [byte_blit]
  exact if_congr (by omega) rfl rfl

end Mem

end Chvm.Lib
