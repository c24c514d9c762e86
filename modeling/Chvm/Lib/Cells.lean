import Mathlib.Data.List.Basic

/-!
# A buffer as an array of cells

A buffer that holds `k` cells of `n` elements each, one after the other. A write of one cell at its
offset sets that cell and no other.
-/

set_option autoImplicit false

namespace Chvm.Lib

variable {α : Type*}

/-- The cell at index `i`. -/
def cellAt (n : Nat) (buf : List α) (i : Nat) : List α := (buf.drop (i * n)).take n

/-- The first `k` cells. -/
def cellsOf (n k : Nat) (buf : List α) : List (List α) := (List.range k).map (cellAt n buf)

/-- The buffer with `src` written at an offset. -/
def splice (buf : List α) (off : Nat) (src : List α) : List α :=
  buf.take off ++ (src ++ buf.drop (off + src.length))

variable {n k i j off : Nat} {buf src : List α}

theorem length_cellsOf : (cellsOf n k buf).length = k := by
  rw [cellsOf, List.length_map, List.length_range]

theorem getElem?_cellsOf (h : i < k) : (cellsOf n k buf)[i]? = some (cellAt n buf i) := by
  rw [cellsOf, List.getElem?_map, List.getElem?_range h, Option.map_some]

/-- A cell is inside its buffer. -/
theorem cell_le (hlen : buf.length = n * k) (h : i < k) : i * n + n ≤ buf.length := by
  rw [hlen, ← Nat.succ_mul, Nat.mul_comm n]
  exact Nat.mul_le_mul_right n h

theorem getElem?_splice (h : off + src.length ≤ buf.length) (x : Nat) :
    (splice buf off src)[x]? =
      if off ≤ x ∧ x < off + src.length then src[x - off]? else buf[x]? := by
  have htake : (buf.take off).length = off := List.length_take_of_le (by omega)
  simp only [splice, List.getElem?_append, htake, List.getElem?_drop]
  by_cases hlt : x < off
  · rw [if_pos hlt, if_neg (by omega), List.getElem?_take_of_lt hlt]
  · by_cases hin : x - off < src.length
    · rw [if_neg hlt, if_pos hin, if_pos (by omega)]
    · rw [if_neg hlt, if_neg hin, if_neg (by omega)]
      congr 1
      omega

theorem length_splice (h : off + src.length ≤ buf.length) :
    (splice buf off src).length = buf.length := by
  simp only [splice, List.length_append, List.length_take, List.length_drop]
  omega

theorem getElem?_cellAt (x : Nat) :
    (cellAt n buf i)[x]? = if x < n then buf[i * n + x]? else none := by
  rw [cellAt, List.getElem?_take, List.getElem?_drop]

/-- **Writing a cell.** -/
theorem cellsOf_splice (hlen : buf.length = n * k) (hsrc : src.length = n) (h : i < k) :
    cellsOf n k (splice buf (i * n) src) = (cellsOf n k buf).set i src := by
  have hle : i * n + src.length ≤ buf.length := by
    rw [hsrc]
    exact cell_le hlen h
  refine List.ext_getElem? fun j => ?_
  by_cases hj : j < k
  · rw [getElem?_cellsOf hj, List.getElem?_set, length_cellsOf]
    by_cases heq : i = j
    · subst heq
      rw [if_pos rfl, if_pos h]
      refine congrArg some (List.ext_getElem? fun x => ?_)
      rw [getElem?_cellAt, getElem?_splice hle]
      by_cases hx : x < n
      · rw [if_pos hx, if_pos (by omega), Nat.add_sub_cancel_left]
      · rw [if_neg hx, List.getElem?_eq_none (by omega)]
    · rw [if_neg heq, getElem?_cellsOf hj]
      refine congrArg some (List.ext_getElem? fun x => ?_)
      rw [getElem?_cellAt, getElem?_cellAt, getElem?_splice hle]
      by_cases hx : x < n
      · -- the two cells do not overlap
        have hapart : j * n + x < i * n ∨ i * n + n ≤ j * n + x := by
          rcases Nat.lt_or_gt_of_ne heq with hlt | hlt
          · have hmul := Nat.mul_le_mul_right n hlt
            rw [Nat.succ_mul] at hmul
            omega
          · have hmul := Nat.mul_le_mul_right n hlt
            rw [Nat.succ_mul] at hmul
            omega
        rw [if_pos hx, if_pos hx, if_neg (by omega)]
      · rw [if_neg hx, if_neg hx]
  · rw [List.getElem?_eq_none (by rw [length_cellsOf]; omega),
      List.getElem?_eq_none (by rw [List.length_set, length_cellsOf]; omega)]

/-! ## Writing a part -/

variable {buf' : List α} {x : α}

/-- An assignment is a write of one element. -/
theorem set_eq_splice (h : off < buf.length) : buf.set off x = splice buf off [x] :=
  List.set_eq_take_cons_drop x h

/-- Element after element. -/
theorem splice_set (h : off < buf.length) : splice (buf.set off x) (off + 1) src = splice buf off
    (x :: src) := by
  have htake : (buf.set off x).take (off + 1) = buf.take off ++ [x] := by
    rw [set_eq_splice h, splice, ← List.append_assoc]
    exact List.take_left' (by rw [List.length_append, List.length_take_of_le (Nat.le_of_lt h)]; rfl)
  have hdrop : (buf.set off x).drop (off + 1 + src.length) = buf.drop (off + 1 + src.length) :=
    List.drop_set_of_lt (by omega)
  rw [splice, htake, hdrop, splice, List.append_assoc, List.length_cons, Nat.add_right_comm off,
    Nat.add_assoc off]
  rfl

theorem splice_append_left (h : off + src.length ≤ buf.length) :
    splice (buf ++ buf') off src = splice buf off src ++ buf' := by
  rw [splice, splice, List.take_append_of_le_length (by omega), List.drop_append_of_le_length h,
    List.append_assoc, List.append_assoc]

theorem splice_append_right : splice (buf ++ buf') (buf.length + off) src = buf ++ splice buf' off src := by
  rw [splice, splice, List.take_length_add_append, Nat.add_assoc, List.drop_length_add_append,
    List.append_assoc]

/-- A write of the whole buffer. -/
theorem splice_all (h : src.length = buf.length) : splice buf 0 src = src := by
  rw [splice, Nat.zero_add, h, List.drop_length, List.append_nil]
  rfl

/-! ## Reading a part -/

/-- `n` elements from `a` on of a memory that need not have them. -/
def window (f : Nat → Option α) : Nat → Nat → Option (List α)
  | _, 0 => some []
  | a, n + 1 => (f a).bind fun x => (window f (a + 1) n).map (x :: ·)

/-- A part of a buffer that lies in the memory. -/
theorem window_eq {f : Nat → Option α} {a : Nat} (hf : ∀ i < buf.length, f (a + i) = buf[i]?)
    (hle : off + n ≤ buf.length) : window f (a + off) n = some ((buf.drop off).take n) := by
  induction n generalizing off with
  | zero => rfl
  | succ n ih =>
    have hlt : off < buf.length := by omega
    rw [window, hf off hlt, List.getElem?_eq_getElem hlt, Option.bind_some, Nat.add_assoc, ih (by omega),
      Option.map_some, List.drop_eq_getElem_cons hlt, List.take_succ_cons]

/-! ## Blocks of one length -/

variable {β : Type*} {f f' : β → List α} {l l₁ l₂ : List β} {b : β}

theorem length_flatMap_const (hf : ∀ b ∈ l, (f b).length = k) :
    (l.flatMap f).length = l.length * k := by
  rw [List.length_flatMap, List.map_congr_left hf, List.map_const', List.sum_replicate_nat]

/-- An element of the concatenation. -/
theorem getElem?_flatMap (hf : ∀ c ∈ l₁, (f c).length = k) (hi : i < (f b).length) :
    ((l₁ ++ b :: l₂).flatMap f)[l₁.length * k + i]? = (f b)[i]? := by
  rw [List.flatMap_append, List.flatMap_cons, ← length_flatMap_const hf,
    List.getElem?_append_right (Nat.le_add_right ..), Nat.add_sub_cancel_left,
    List.getElem?_append_left hi]

/-- An assignment in one block. -/
theorem flatMap_set {x : α} (hf : ∀ c ∈ l₁, (f c).length = k) (hi : i < (f b).length)
    (hb : f' b = (f b).set i x) (hf₁ : ∀ c ∈ l₁, f' c = f c) (hf₂ : ∀ c ∈ l₂, f' c = f c) :
    (l₁ ++ b :: l₂).flatMap f' = ((l₁ ++ b :: l₂).flatMap f).set (l₁.length * k + i) x := by
  have hsame : ∀ {l : List β}, (∀ c ∈ l, f' c = f c) → l.flatMap f' = l.flatMap f := by
    intro l h
    rw [List.flatMap_def, List.map_congr_left h, List.flatMap_def]
  rw [List.flatMap_append, List.flatMap_cons, hsame hf₁, hsame hf₂, hb, List.flatMap_append,
    List.flatMap_cons, ← length_flatMap_const hf, List.set_append_right _ _ (Nat.le_add_right ..),
    Nat.add_sub_cancel_left, List.set_append_left _ _ hi]

/-- A block of the concatenation. -/
theorem cellAt_flatMap (hf : ∀ b, (f b).length = k) (hb : l[i]? = some b) : cellAt k (l.flatMap f) i =
    f b := by
  induction l generalizing i with
  | nil => cases hb
  | cons c l ih =>
    rw [cellAt, List.flatMap_cons]
    cases i with
    | zero =>
      cases hb
      rw [Nat.zero_mul, List.drop_zero, List.take_left' (hf _)]
    | succ i =>
      have hmul : (i + 1) * k = (f c).length + i * k := by rw [hf, Nat.succ_mul, Nat.add_comm]
      rw [hmul, List.drop_length_add_append]
      exact ih hb

/-- A write of one block. -/
theorem splice_flatMap (hf : ∀ b, (f b).length = k) (hi : i < l.length) :
    splice (l.flatMap f) (i * k) (f b) = (l.set i b).flatMap f := by
  induction l generalizing i with
  | nil => cases hi
  | cons c l ih =>
    cases i with
    | zero =>
      rw [Nat.zero_mul, List.flatMap_cons, splice_append_left (Nat.le_of_eq (by rw [hf, hf, Nat.zero_add])),
        splice_all (by rw [hf, hf]), List.set_cons_zero, List.flatMap_cons]
    | succ i =>
      have hmul : (i + 1) * k = (f c).length + i * k := by rw [hf, Nat.succ_mul, Nat.add_comm]
      rw [hmul, List.flatMap_cons, splice_append_right, ih (Nat.lt_of_succ_lt_succ hi)]
      rfl

end Chvm.Lib
