import Chvm.Util.Broken

/-!
# The array list (`data.c`, `util_ar`)

Cells in one buffer that is reallocated when they fill it. `ar_next` asks for as many bytes as the new
capacity has cells. A write that leaves the buffer changes the bytes that are in it; the others are not the
list's.
-/

set_option autoImplicit false

namespace Chvm.Util

open Chvm.Core Chvm.Lib

/-- `util_array_list`, with the bytes of its buffer. -/
structure Ar where
  cellSize : Nat
  cap : Nat
  array : Nat
  buf : List UInt8
  len : Nat

/-- `sizeof(util_ar)`. -/
def utilArSize : Nat := 32

/-- `new_array_list`, with the host's answers for the list and for its buffer; the result is `NULL` for cells
of no bytes. -/
def newArrayList (cs : Nat) (host₀ host : Host) : Except Stop (Option Ar) :=
  if cs = 0 then .ok none
  else
    match host₀ (CoreMem.hostSize utilArSize), host (CoreMem.hostSize (cs * 1 % 2 ^ 64)) with
    | some _, some (raw, bytes) =>
      if bytes.length < 1 then .error .fault
      else .ok (some { cellSize := cs, cap := 1, array := raw + 1, buf := bytes.drop 1, len := 0 })
    | _, _ => .error .exit

namespace Ar

/-- The offset of a cell, as the words of the source multiply. -/
def offset (ar : Ar) (i : Nat) : Nat := i * ar.cellSize % 2 ^ 64

/-- `ar_next` reallocates the buffer: the host keeps the bytes that fit the new size. -/
def grow (ar : Ar) (host : Host) : Except Stop Ar :=
  let newCap := (ar.cap * 2 + 1) % 2 ^ 64
  match host (CoreMem.hostSize newCap) with
  | none => .error .exit
  | some (raw, bytes) =>
    let kept := ar.buf.take (bytes.length - 1)
    .ok { ar with array := raw + 1, buf := kept ++ bytes.drop (1 + kept.length), cap := newCap }

/-- `ar_next`, with the offset of the cell in the buffer. -/
def arNext (ar : Ar) (host : Host) : Except Stop (Nat × Ar) := do
  let ar ← if ar.len = ar.cap then ar.grow host else .ok ar
  return (ar.offset ar.len, { ar with len := (ar.len + 1) % 2 ^ 64 })

/-- `memcpy` into the buffer. -/
def poke (ar : Ar) (off : Nat) (src : List UInt8) : Ar :=
  { ar with buf := (splice ar.buf off src).take ar.buf.length }

/-- `ar_add`. -/
def arAdd (ar : Ar) (src : List UInt8) (host : Host) : Except Stop Ar := do
  let (off, ar) ← ar.arNext host
  return ar.poke off src

/-- The bytes behind `ar_get`, as many of them as are in the buffer. -/
def arGet (ar : Ar) (i : Nat) : List UInt8 := (ar.buf.drop (ar.offset i)).take ar.cellSize

/-- `ar_len`. -/
def arLen (ar : Ar) : Nat := ar.len

end Ar

/-! ## Runs -/

/-- A list, and the additions in their order, each with the cell that `ar_add` was given. -/
structure ArRun where
  ar : Ar
  added : List (Option (List UInt8))

inductive ArAct
  | next (host : Host)
  | add (src : List UInt8) (host : Host)

def arStep (s : ArRun) : ArAct → Option ArRun
  | .next host => (s.ar.arNext host).toOption.map fun r => ⟨r.2, s.added ++ [none]⟩
  | .add src host => (s.ar.arAdd src host).toOption.map fun ar => ⟨ar, s.added ++ [some src]⟩

/-- The client gives whole cells, the host as many bytes as it is asked for. -/
def ArRule (s : ArRun) : ArAct → Prop
  | .next host => HostOk host fun _ => False
  | .add src host => src.length = s.ar.cellSize ∧ HostOk host fun _ => False

/-- The list keeps everything appended inside its buffer. -/
structure ArOk (s : ArRun) : Prop where
  buffer : s.ar.cap * s.ar.cellSize ≤ s.ar.buf.length
  inside : ∀ i < s.added.length, s.ar.offset i + s.ar.cellSize ≤ s.ar.buf.length
  len : s.ar.arLen = s.added.length
  get : ∀ (i : Nat) src, s.added[i]? = some (some src) → s.ar.arGet i = src

/-! ## What the additions make of the list -/

/-- Where the buffer is large enough: before it has grown, or with cells of one byte and a capacity that is
no more than a word. -/
def Roomy (cs n : Nat) : Prop := n ≤ 1 ∨ cs = 1 ∧ n < 2 ^ 63

/-- The capacity after `n` additions: one, then doubled with one more until it fills the word. -/
structure CapOk (n cap : Nat) : Prop where
  pow : ∃ k ≤ 64, cap + 1 = 2 ^ k
  zero : n = 0 → cap = 1
  small : 1 ≤ n → n < 2 ^ 63 → n ≤ cap ∧ cap + 1 ≤ 2 * n
  large : 2 ^ 63 ≤ n → cap + 1 = 2 ^ 64

/-- The list after any number of additions. -/
structure Grown (cs : Nat) (s : ArRun) : Prop where
  size : s.ar.cellSize = cs
  len : s.ar.len = s.added.length % 2 ^ 64
  cap : CapOk s.added.length s.ar.cap
  /-- Grown, the buffer has as many bytes as the capacity has cells, or none where that wraps. -/
  start : s.added.length ≤ 1 → s.ar.buf.length = cs
  grown : 2 ≤ s.added.length → s.ar.buf.length = (s.ar.cap + 1) % 2 ^ 64 - 1
  kept : Roomy cs s.added.length → ∀ (i : Nat) src, s.added[i]? = some (some src) → src.length = cs ∧
    ∀ j < cs, s.ar.buf[i * cs + j]? = src[j]?

/-- A full buffer grows. -/
theorem CapOk.grow {n cap : Nat} (h : CapOk n cap) (hfull : n % 2 ^ 64 = cap) :
    CapOk (n + 1) ((cap * 2 + 1) % 2 ^ 64) ∧ 1 ≤ n := by
  obtain ⟨k, hk, hpow⟩ := h.pow
  have hpos : 1 ≤ n := by
    by_contra hzero
    have hone := h.zero (by omega)
    omega
  have hnew : ∃ k' ≤ 64, (cap * 2 + 1) % 2 ^ 64 + 1 = 2 ^ k' := by
    rcases Nat.lt_or_ge k 64 with hlt | hge
    · have hle : 2 ^ (k + 1) ≤ 2 ^ 64 := Nat.pow_le_pow_right (by decide) hlt
      have htwice : 2 ^ (k + 1) = 2 * 2 ^ k := Nat.pow_succ'
      exact ⟨k + 1, hlt, by omega⟩
    · cases Nat.le_antisymm hk hge
      exact ⟨64, Nat.le_refl 64, by omega⟩
  refine ⟨⟨hnew, nofun, fun _ hlt => ?_, fun hlarge => ?_⟩, hpos⟩
  · obtain ⟨hle, hcap⟩ := h.small hpos (by omega)
    omega
  · by_cases hsmall : n < 2 ^ 63
    · obtain ⟨hle, hcap⟩ := h.small hpos hsmall
      omega
    · have hmax := h.large (Nat.not_lt.mp hsmall)
      omega

/-- With room left the capacity stays. -/
theorem CapOk.stay {n cap : Nat} (h : CapOk n cap) (hroom : n % 2 ^ 64 ≠ cap) :
    CapOk (n + 1) cap ∧ n ≠ 1 := by
  obtain ⟨k, hk, hpow⟩ := h.pow
  have hone : n ≠ 1 := by
    rintro rfl
    obtain ⟨hle, hcap⟩ := h.small (Nat.le_refl 1) (by decide)
    omega
  refine ⟨⟨h.pow, nofun, fun _ hlt => ?_, fun hlarge => ?_⟩, hone⟩
  · rcases Nat.eq_zero_or_pos n with rfl | hpos
    · cases h.zero rfl
      decide
    · obtain ⟨hle, hcap⟩ := h.small hpos (by omega)
      omega
  · by_cases hsmall : n < 2 ^ 63
    · -- the capacity is a power less one, above 2^63 and below 2^64
      obtain ⟨hle, hcap⟩ := h.small (by omega) hsmall
      have hbig : k ≤ 63 → 2 ^ k ≤ 2 ^ 63 := fun hk' => Nat.pow_le_pow_right (by decide) hk'
      have htop : k = 64 := by omega
      rw [htop] at hpow
      omega
    · exact h.large (Nat.not_lt.mp hsmall)

variable {cs : Nat} {ar ar' : Ar} {s s' : ArRun} {host host₀ : Host} {src : List UInt8}

theorem grow_eq (ar : Ar) (hhost : HostOk host fun _ => False) :
    ar.grow host = .error .exit ∨ ∃ ar', ar.grow host = .ok ar' ∧
      ar'.cellSize = ar.cellSize ∧ ar'.len = ar.len ∧
      ar'.cap = (ar.cap * 2 + 1) % 2 ^ 64 ∧ ar'.buf.length = (ar'.cap + 1) % 2 ^ 64 - 1 ∧
      ∀ i < ar'.buf.length, i < ar.buf.length → ar'.buf[i]? = ar.buf[i]? := by
  cases hans : host (CoreMem.hostSize ((ar.cap * 2 + 1) % 2 ^ 64)) with
  | none => exact .inl (by simp only [Ar.grow, hans])
  | some block =>
    obtain ⟨raw, bytes⟩ := block
    obtain ⟨hlen, -⟩ := hhost _ _ _ hans
    have hkept : (ar.buf.take (bytes.length - 1)).length = min (bytes.length - 1) ar.buf.length :=
      List.length_take
    have heq : ar.grow host = .ok { ar with
        array := raw + 1
        buf := ar.buf.take (bytes.length - 1) ++ bytes.drop (1 + (ar.buf.take (bytes.length - 1)).length)
        cap := (ar.cap * 2 + 1) % 2 ^ 64 } := by
      simp only [Ar.grow, hans]
    have hsize : (ar.buf.take (bytes.length - 1) ++
        bytes.drop (1 + (ar.buf.take (bytes.length - 1)).length)).length = bytes.length - 1 := by
      rw [List.length_append, List.length_drop]
      omega
    refine .inr ⟨_, heq, rfl, rfl, rfl, ?_, fun i hi hold => ?_⟩
    · show List.length (_ ++ _) = _
      rw [hsize, hlen]
      rfl
    · have hi' : i < bytes.length - 1 := hsize ▸ hi
      show (ar.buf.take (bytes.length - 1) ++ _)[i]? = _
      rw [List.getElem?_append_left (by omega), List.getElem?_take_of_lt hi']

theorem grown_new (hword : cs < 2 ^ 64) (hhost : HostOk host fun _ => False)
    (hnew : newArrayList cs host₀ host = .ok (some ar)) : Grown cs ⟨ar, []⟩ := by
  unfold newArrayList at hnew
  split at hnew
  · cases hnew
  · split at hnew
    · rename_i raw bytes _ hans
      obtain ⟨hlen, -⟩ := hhost _ _ _ hans
      split at hnew
      · cases hnew
      · cases hnew
        rename_i hbytes
        refine ⟨rfl, rfl, ⟨⟨1, by decide, rfl⟩, fun _ => rfl, nofun, nofun⟩, fun _ => ?_, nofun, nofun⟩
        show (bytes.drop 1).length = cs
        unfold CoreMem.hostSize at hlen
        rw [List.length_drop]
        omega
    · cases hnew

/-- Where the buffer is large enough it holds all cells, and as many as the capacity says. -/
theorem Grown.room (h : Grown cs s) (hroomy : Roomy cs s.added.length) (hword : cs < 2 ^ 64) :
    s.added.length * cs ≤ s.ar.buf.length ∧ s.added.length * cs < 2 ^ 64 ∧
      s.ar.cap * cs ≤ s.ar.buf.length := by
  by_cases hone : s.added.length ≤ 1
  · have hcap : s.ar.cap = 1 := by
      rcases Nat.eq_zero_or_pos s.added.length with hzero | hpos
      · exact h.cap.zero hzero
      · obtain ⟨hle, hlt⟩ := h.cap.small hpos (by omega)
        omega
    have hmul : s.added.length * cs ≤ 1 * cs := Nat.mul_le_mul_right cs hone
    rw [h.start hone, hcap]
    omega
  · obtain ⟨rfl, hlt⟩ := hroomy.resolve_left hone
    obtain ⟨hle, hcap⟩ := h.cap.small (by omega) hlt
    have hlen := h.grown (by omega)
    omega

/-- A list that is roomy after an addition was so before. -/
theorem Roomy.of_succ {n : Nat} (h : Roomy cs (n + 1)) : Roomy cs n := by
  rcases h with hone | ⟨rfl, hlt⟩
  · exact .inl (by omega)
  · exact .inr ⟨rfl, by omega⟩

/-- `ar_next`. -/
theorem Grown.arNext (h : Grown cs s) (hword : cs < 2 ^ 64) (hhost : HostOk host fun _ => False) :
    s.ar.arNext host = .error .exit ∨ ∃ ar',
      s.ar.arNext host = .ok (s.added.length % 2 ^ 64 * cs % 2 ^ 64, ar') ∧
      Grown cs ⟨ar', s.added ++ [none]⟩ := by
  have hlen : (s.added ++ [(none : Option (List UInt8))]).length = s.added.length + 1 := by
    rw [List.length_append]
    rfl
  -- an earlier cell, and not the one that is new
  have hearlier : ∀ (i : Nat) src, (s.added ++ [none])[i]? = some (some src) →
      i < s.added.length ∧ s.added[i]? = some (some src) := by
    intro i src hi
    rcases Nat.lt_trichotomy i s.added.length with hlt | rfl | hgt
    · rw [List.getElem?_append_left hlt] at hi
      exact ⟨hlt, hi⟩
    · rw [List.getElem?_concat_length] at hi
      cases hi
    · rw [List.getElem?_eq_none (by omega)] at hi
      cases hi
  unfold Ar.arNext
  by_cases hfull : s.ar.len = s.ar.cap
  · obtain ⟨hcap, hpos⟩ := h.cap.grow (h.len.symm.trans hfull)
    rcases grow_eq s.ar hhost with hexit | ⟨ar₁, hok, hsize, hlen₁, hcap₁, hbuf, hsame⟩
    · refine .inl ?_
      simp only [if_pos hfull, hexit, bind, Except.bind]
    · rw [← hcap₁] at hcap
      refine .inr ⟨{ ar₁ with len := (ar₁.len + 1) % 2 ^ 64 }, ?_, ?_⟩
      · simp only [if_pos hfull, hok, bind, Except.bind, pure, Except.pure]
        simp only [Ar.offset, hsize, h.size, hlen₁, h.len]
      · refine ⟨hsize.trans h.size, ?_, hlen ▸ hcap, fun hle => ?_, fun _ => hbuf, fun hroomy i src hi => ?_⟩
        · show (ar₁.len + 1) % 2 ^ 64 = (s.added ++ [none]).length % 2 ^ 64
          rw [hlen₁, h.len, hlen, Nat.mod_add_mod]
        · have hle' : (s.added ++ [none]).length ≤ 1 := hle
          omega
        · -- only cells of one byte are left
          have hroomy' : Roomy cs (s.added ++ [none]).length := hroomy
          rw [hlen] at hroomy'
          obtain ⟨hi, hold⟩ := hearlier i src hi
          obtain ⟨hsrc, hbytes⟩ := h.kept hroomy'.of_succ i src hold
          obtain ⟨rfl, hlt⟩ := hroomy'.resolve_left (by omega)
          obtain ⟨hle, hsmall⟩ := hcap.small (by omega) hlt
          have hroom := (h.room hroomy'.of_succ hword).1
          refine ⟨hsrc, fun j hj => ?_⟩
          rw [← hbytes j hj]
          exact hsame _ (by omega) (by omega)
  · obtain ⟨hcap, hne⟩ := h.cap.stay (fun heq => hfull (h.len.trans heq))
    refine .inr ⟨{ s.ar with len := (s.ar.len + 1) % 2 ^ 64 }, ?_, ?_⟩
    · simp only [if_neg hfull, bind, Except.bind, pure, Except.pure]
      simp only [Ar.offset, h.size, h.len]
    · refine ⟨h.size, ?_, hlen ▸ hcap, fun hle => ?_, fun hge => ?_, fun hroomy i src hi => ?_⟩
      · show (s.ar.len + 1) % 2 ^ 64 = (s.added ++ [none]).length % 2 ^ 64
        rw [h.len, hlen, Nat.mod_add_mod]
      · exact h.start (by have hle' : (s.added ++ [none]).length ≤ 1 := hle; omega)
      · exact h.grown (by have hge' : 2 ≤ (s.added ++ [none]).length := hge; omega)
      · have hroomy' : Roomy cs (s.added ++ [none]).length := hroomy
        rw [hlen] at hroomy'
        exact h.kept hroomy'.of_succ i src (hearlier i src hi).2

theorem length_poke (off : Nat) (src : List UInt8) : (ar.poke off src).buf.length = ar.buf.length := by
  unfold Ar.poke splice
  simp only [List.length_take, List.length_append, List.length_drop]
  omega

/-- The cell that `ar_next` gave is filled. -/
theorem Grown.fill {l : List (Option (List UInt8))} (h : Grown cs ⟨ar, l ++ [none]⟩) (hword : cs < 2 ^ 64)
    (hsrc : src.length = cs) :
    Grown cs ⟨ar.poke (l.length % 2 ^ 64 * cs % 2 ^ 64) src, l ++ [some src]⟩ := by
  have hlen : (l ++ [(none : Option (List UInt8))]).length = (l ++ [some src]).length := by
    rw [List.length_append, List.length_append]
    rfl
  have hcap : CapOk (l ++ [(none : Option (List UInt8))]).length ar.cap := h.cap
  have hlen' : ar.len = (l ++ [(none : Option (List UInt8))]).length % 2 ^ 64 := h.len
  have hstart : (l ++ [(none : Option (List UInt8))]).length ≤ 1 → ar.buf.length = cs := h.start
  have hgrown : 2 ≤ (l ++ [(none : Option (List UInt8))]).length →
      ar.buf.length = (ar.cap + 1) % 2 ^ 64 - 1 := h.grown
  rw [hlen] at hcap hlen' hstart hgrown
  refine ⟨h.size, hlen', hcap, fun hle => (length_poke ..).trans (hstart hle),
    fun hge => (length_poke ..).trans (hgrown hge), fun hroomy i src' hi => ?_⟩
  have hroomy' : Roomy cs (l ++ [(none : Option (List UInt8))]).length := hlen ▸ hroomy
  obtain ⟨hroom, hwrap, -⟩ := h.room hroomy' hword
  have hn : (l ++ [(none : Option (List UInt8))]).length = l.length + 1 := List.length_append
  have hroom' : l.length * cs + cs ≤ ar.buf.length := by
    have hmul : (l.length + 1) * cs = l.length * cs + cs := Nat.succ_mul ..
    rw [← hmul, ← hn]
    exact hroom
  have hoff : l.length % 2 ^ 64 * cs % 2 ^ 64 = l.length * cs := by
    have hword' : l.length < 2 ^ 64 := by
      rcases hroomy' with hone | ⟨-, hlt⟩ <;> omega
    have hle : l.length * cs ≤ (l ++ [(none : Option (List UInt8))]).length * cs :=
      Nat.mul_le_mul_right cs (by omega)
    rw [Nat.mod_eq_of_lt hword', Nat.mod_eq_of_lt (Nat.lt_of_le_of_lt hle hwrap)]
  have hpoke : (ar.poke (l.length % 2 ^ 64 * cs % 2 ^ 64) src).buf = splice ar.buf (l.length * cs) src := by
    rw [hoff]
    exact List.take_of_length_le (Nat.le_of_eq (length_splice (by omega)))
  show src'.length = cs ∧ ∀ j < cs, (ar.poke _ src).buf[i * cs + j]? = src'[j]?
  rw [hpoke]
  rcases Nat.lt_trichotomy i l.length with hlt | rfl | hgt
  · -- an earlier cell ends in front of the new one
    have hmem : (l ++ [(none : Option (List UInt8))])[i]? = some (some src') := by
      have hi' : (l ++ [some src])[i]? = some (some src') := hi
      rw [List.getElem?_append_left hlt] at hi' ⊢
      exact hi'
    obtain ⟨hlen₁, hbytes⟩ := h.kept hroomy' i src' hmem
    refine ⟨hlen₁, fun j hj => ?_⟩
    have hbefore : i * cs + j < l.length * cs := by
      have hmul : (i + 1) * cs ≤ l.length * cs := Nat.mul_le_mul_right cs hlt
      rw [Nat.succ_mul] at hmul
      omega
    rw [getElem?_splice (by omega), if_neg (by omega)]
    exact hbytes j hj
  · have hi' : (l ++ [some src])[l.length]? = some (some src') := hi
    rw [List.getElem?_concat_length] at hi'
    cases hi'
    refine ⟨hsrc, fun j hj => ?_⟩
    rw [getElem?_splice (by omega), if_pos (by omega), Nat.add_sub_cancel_left]
  · have hi' : (l ++ [some src])[i]? = some (some src') := hi
    rw [List.getElem?_eq_none (by rw [List.length_append, List.length_singleton]; omega)] at hi'
    cases hi'

/-- The run lemma. -/
theorem grown_reach (hword : cs < 2 ^ 64) (hhost : HostOk host fun _ => False)
    (hnew : newArrayList cs host₀ host = .ok (some ar)) (hreach : Reaches arStep ArRule ⟨ar, []⟩ s) :
    Grown cs s := by
  have hstep : ∀ m a m', Grown cs m → ArRule m a → arStep m a = some m' → Grown cs m' := by
    intro m a m' hm hrule hm'
    cases a with
    | next host =>
      rcases hm.arNext hword hrule with hexit | ⟨ar', hok, hgrown⟩
      · simp only [arStep, hexit] at hm'
        cases hm'
      · simp only [arStep, hok] at hm'
        cases hm'
        exact hgrown
    | add src host =>
      obtain ⟨hsrc, hhost⟩ := hrule
      rcases hm.arNext hword hhost with hexit | ⟨ar', hok, hgrown⟩
      · simp only [arStep, Ar.arAdd, hexit, bind, Except.bind] at hm'
        cases hm'
      · simp only [arStep, Ar.arAdd, hok, bind, Except.bind, pure, Except.pure] at hm'
        cases hm'
        exact hgrown.fill hword (hsrc.trans hm.size)
  exact hreach.invariant hstep (grown_new hword hhost hnew)

/-! ## What is kept -/

theorem Grown.ok (h : Grown cs s) (hword : cs < 2 ^ 64) (hroomy : Roomy cs s.added.length) : ArOk s := by
  obtain ⟨hroom, hwrap, hcap⟩ := h.room hroomy hword
  have hoff : ∀ i < s.added.length, s.ar.offset i + cs ≤ s.added.length * cs ∧ s.ar.offset i = i * cs := by
    intro i hi
    have hmul : (i + 1) * cs ≤ s.added.length * cs := Nat.mul_le_mul_right cs hi
    rw [Nat.succ_mul] at hmul
    have heq : s.ar.offset i = i * cs := by
      rw [Ar.offset, h.size, Nat.mod_eq_of_lt (by omega)]
    exact ⟨heq ▸ hmul, heq⟩
  have hn : s.added.length < 2 ^ 64 := by
    rcases hroomy with hone | ⟨-, hlt⟩ <;> omega
  refine ⟨h.size.symm ▸ hcap, fun i hi => ?_, h.len.trans (Nat.mod_eq_of_lt hn), fun i src hi => ?_⟩
  · rw [h.size]
    exact Nat.le_trans (hoff i hi).1 hroom
  · obtain ⟨hlt, -⟩ := List.getElem?_eq_some_iff.mp hi
    obtain ⟨hsrc, hbytes⟩ := h.kept hroomy i src hi
    obtain ⟨hle, heq⟩ := hoff i hlt
    unfold Ar.arGet
    rw [heq, h.size]
    apply List.ext_getElem?
    intro j
    rw [List.getElem?_take]
    split
    · rename_i hj
      rw [List.getElem?_drop]
      exact hbytes j hj
    · rename_i hj
      rw [List.getElem?_eq_none (by omega)]

/-- A buffer of cells of two bytes or more that has grown is too small, and so is one whose capacity fills the
word. -/
theorem Grown.roomy (h : Grown cs s) (hcs : cs ≠ 0)
    (hbuf : s.ar.cap * s.ar.cellSize ≤ s.ar.buf.length) : Roomy cs s.added.length := by
  rw [h.size] at hbuf
  by_cases hone : s.added.length ≤ 1
  · exact .inl hone
  · have hlen := h.grown (by omega)
    by_cases hsmall : s.added.length < 2 ^ 63
    · obtain ⟨hle, hcap⟩ := h.cap.small (by omega) hsmall
      have hfits : s.ar.cap * cs ≤ s.ar.cap * 1 := by omega
      have hle_one : cs ≤ 1 := Nat.le_of_mul_le_mul_left hfits (by omega)
      exact .inr ⟨by omega, hsmall⟩
    · have hmax := h.cap.large (Nat.not_lt.mp hsmall)
      have hpos : 0 < s.ar.cap * cs := Nat.mul_pos (by omega) (Nat.pos_of_ne_zero hcs)
      omega

/-- The buffer of a new list has no place for its channel when its size wraps to nothing. -/
theorem newArrayList_fault (hcs : cs ≠ 0) (hword : cs < 2 ^ 64) (hhost : HostOk host fun _ => False) :
    newArrayList cs host₀ host = .error .fault ↔
      cs + 1 = 2 ^ 64 ∧ (host₀ (utilArSize + 1)).isSome = true ∧ (host 0).isSome = true := by
  have hsize : CoreMem.hostSize (cs * 1 % 2 ^ 64) = (cs + 1) % 2 ^ 64 := by
    unfold CoreMem.hostSize
    omega
  have hlist : CoreMem.hostSize utilArSize = utilArSize + 1 := rfl
  unfold newArrayList
  rw [if_neg hcs, hsize, hlist]
  cases hans₀ : host₀ (utilArSize + 1) with
  | none => exact ⟨nofun, fun h => absurd h.2.1 Bool.false_ne_true⟩
  | some block₀ =>
    cases hans : host ((cs + 1) % 2 ^ 64) with
    | none =>
      refine ⟨nofun, ?_⟩
      rintro ⟨hmax, -, hzero⟩
      rw [hmax, Nat.mod_self] at hans
      rw [hans] at hzero
      cases hzero
    | some block =>
      obtain ⟨raw, bytes⟩ := block
      obtain ⟨hlen, -⟩ := hhost _ _ _ hans
      simp only []
      split
      · rename_i hshort
        have hmax : cs + 1 = 2 ^ 64 := by omega
        rw [hmax, Nat.mod_self] at hans
        refine ⟨fun _ => ⟨hmax, rfl, ?_⟩, fun _ => rfl⟩
        rw [hans]
        rfl
      · refine ⟨nofun, ?_⟩
        rintro ⟨hmax, -⟩
        omega

/-- **The array list keeps what is appended inside its buffer**, for a cell size whose buffer fits a word, if
and only if the buffer has not grown yet, or the cells are of one byte and fewer than 2^63: `ar_next`
reallocates as many bytes as there are cells. -/
theorem array_list_keeps (hcs : cs ≠ 0) (hword : cs < 2 ^ 64) (hhost : HostOk host fun _ => False) :
    (newArrayList cs host₀ host = .error .fault ↔
      cs + 1 = 2 ^ 64 ∧ (host₀ (utilArSize + 1)).isSome = true ∧ (host 0).isSome = true) ∧
    ∀ ar s, newArrayList cs host₀ host = .ok (some ar) → Reaches arStep ArRule ⟨ar, []⟩ s →
      (ArOk s ↔ s.added.length ≤ 1 ∨ cs = 1 ∧ s.added.length < 2 ^ 63) := by
  refine ⟨newArrayList_fault hcs hword hhost, fun ar s hnew hreach => ?_⟩
  have h := grown_reach hword hhost hnew hreach
  exact ⟨fun hok => h.roomy hcs hok.buffer, fun hroomy => h.ok hword hroomy⟩

/-- Two cells of one byte are kept. -/
theorem array_list_keeps_two : ∃ ar s, newArrayList 1 (hostAt 8) (hostAt 64) = .ok (some ar) ∧
    s.added = [some [1], some [2]] ∧ ArOk s := by
  obtain ⟨ar, s₁, s, hnew, h₁, h₂, hadded, hsize, hsize₁⟩ : ∃ ar s₁ s,
      newArrayList 1 (hostAt 8) (hostAt 64) = .ok (some ar) ∧
      arStep ⟨ar, []⟩ (.add [1] (hostAt 64)) = some s₁ ∧ arStep s₁ (.add [2] (hostAt 128)) = some s ∧
      s.added = [some [1], some [2]] ∧ ar.cellSize = 1 ∧ s₁.ar.cellSize = 1 :=
    ⟨_, _, _, rfl, rfl, rfl, rfl, rfl, rfl⟩
  have hhost : ∀ raw, 0 < raw ∧ raw < 2 ^ 64 → HostOk (hostAt raw) fun _ => False :=
    fun raw hraw => hostOk_hostAt hraw id
  have hreach : Reaches arStep ArRule ⟨ar, []⟩ s :=
    ((Reaches.refl _).snoc (a := .add [1] (hostAt 64)) ⟨hsize.symm, hhost 64 (by decide)⟩ h₁).snoc
      (a := .add [2] (hostAt 128)) ⟨hsize₁.symm, hhost 128 (by decide)⟩ h₂
  have hiff : ArOk s ↔ s.added.length ≤ 1 ∨ 1 = 1 ∧ s.added.length < 2 ^ 63 :=
    (array_list_keeps (by decide) (by decide) (hhost 64 (by decide))).2 ar s hnew hreach
  exact ⟨ar, s, hnew, hadded, hiff.mpr (.inr ⟨rfl, by rw [hadded]; decide⟩)⟩

/-- Two cells of two bytes: the buffer has three bytes for a capacity of three cells, and the second cell is
not in it. -/
theorem second_cell_outside : ∃ ar s, newArrayList 2 (hostAt 8) (hostAt 64) = .ok (some ar) ∧
    Reaches arStep ArRule ⟨ar, []⟩ s ∧ s.added = [some [1, 2], some [3, 4]] ∧ s.ar.cap = 3 ∧
    s.ar.buf = [1, 2, 3] ∧ ¬ ArOk s := by
  obtain ⟨ar, s₁, s, hnew, h₁, h₂, hadded, hcap, hbuf, hsize, hsize₁, hsize₂⟩ : ∃ ar s₁ s,
      newArrayList 2 (hostAt 8) (hostAt 64) = .ok (some ar) ∧
      arStep ⟨ar, []⟩ (.add [1, 2] (hostAt 64)) = some s₁ ∧
      arStep s₁ (.add [3, 4] (hostAt 128)) = some s ∧ s.added = [some [1, 2], some [3, 4]] ∧ s.ar.cap = 3 ∧
      s.ar.buf = [1, 2, 3] ∧ ar.cellSize = 2 ∧ s₁.ar.cellSize = 2 ∧ s.ar.cellSize = 2 :=
    ⟨_, _, _, rfl, rfl, rfl, rfl, rfl, rfl, rfl, rfl, rfl⟩
  have hhost : ∀ raw, 0 < raw ∧ raw < 2 ^ 64 → HostOk (hostAt raw) fun _ => False :=
    fun raw hraw => hostOk_hostAt hraw id
  have hreach : Reaches arStep ArRule ⟨ar, []⟩ s :=
    ((Reaches.refl _).snoc (a := .add [1, 2] (hostAt 64)) ⟨hsize.symm, hhost 64 (by decide)⟩ h₁).snoc
      (a := .add [3, 4] (hostAt 128)) ⟨hsize₁.symm, hhost 128 (by decide)⟩ h₂
  refine ⟨ar, s, hnew, hreach, hadded, hcap, hbuf, fun hok => ?_⟩
  have hbuffer := hok.buffer
  rw [hcap, hbuf, hsize₂] at hbuffer
  exact absurd hbuffer (by decide)

end Chvm.Util
