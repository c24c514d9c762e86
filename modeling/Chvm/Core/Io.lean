import Mathlib.Algebra.Order.Ring.Nat
import Mathlib.Algebra.BigOperators.Group.List.Basic
import Mathlib.Data.Finset.Insert

/-!
# Transfers that may be cut short (`io.c`)

`safe_write` and `safe_read` call `write` and `read` until all is done, and try again after a signal.
What the system answers is a list, one answer for each call; a loop that has used it up has not returned.
-/

set_option autoImplicit false

namespace Chvm.Core

/-- An answer of `read` or `write`: how many bytes it has moved, or -1 with `errno`. -/
inductive IoRes
  | bytes (n : Nat)
  | err (errno : Int)
deriving DecidableEq, Repr

/-- `EINTR`. -/
def eintr : Int := 4

/-- `SIGINT`. -/
def sigint : Nat := 2

/-- `ssize_t bytes_left = cnt`. -/
def toSsize (cnt : Nat) : Int := if cnt < 2 ^ 63 then cnt else cnt - 2 ^ 64

/-- The loop of both functions. `transfer` is what a call does with `n` bytes at the offset of `ptr`, and
`leave` what is done before each return. For `read`, no bytes is the end of the file. -/
def transferLoop {σ : Type} (eof : Bool) (transfer : Nat → Nat → σ → σ) (leave : σ → σ) :
    List IoRes → Int → Nat → σ → Option (Int × σ)
  | [], bytesLeft, _, s => if bytesLeft > 0 then none else some (0, leave s)
  | r :: rs, bytesLeft, ptr, s =>
    if bytesLeft > 0 then
      match r with
      | .err errno =>
        if errno ≠ eintr then some (-1, leave s)
        else transferLoop eof transfer leave rs bytesLeft ptr s
      | .bytes n =>
        if eof && n = 0 then some (-1, leave s)
        else transferLoop eof transfer leave rs (bytesLeft - n) (ptr + n) (transfer ptr n s)
    else some (0, leave s)

/-- The thread and the two ends it works on: the signals it blocks, its buffer, what it has sent on one
descriptor, and what comes in on the other, with how much of that it has got. -/
structure IoThread where
  mask : Finset Nat
  buf : Nat → UInt8
  sent : List UInt8
  incoming : Nat → UInt8
  got : Nat

namespace IoThread

/-- The bytes of the buffer from an offset on. -/
def span (s : IoThread) (ptr n : Nat) : List UInt8 := (List.range n).map fun i => s.buf (ptr + i)

/-- `_block_sigint`. -/
def blockSigint (s : IoThread) : IoThread := { s with mask := insert sigint s.mask }

/-- `_restore_sigmask`. -/
def restoreSigmask (old : Finset Nat) (s : IoThread) : IoThread := { s with mask := old }

/-- `write` takes `n` bytes. -/
def write (ptr n : Nat) (s : IoThread) : IoThread := { s with sent := s.sent ++ s.span ptr n }

/-- `read` gives `n` bytes. -/
def read (ptr n : Nat) (s : IoThread) : IoThread :=
  { s with
    buf := fun i => if ptr ≤ i ∧ i < ptr + n then s.incoming (s.got + (i - ptr)) else s.buf i
    got := s.got + n }

/-- `safe_write`. -/
def safeWrite (s : IoThread) (cnt : Nat) (rs : List IoRes) : Option (Int × IoThread) :=
  transferLoop false write (restoreSigmask s.mask) rs (toSsize cnt) 0 s.blockSigint

/-- `safe_read`. -/
def safeRead (s : IoThread) (cnt : Nat) (rs : List IoRes) : Option (Int × IoThread) :=
  transferLoop true read id rs (toSsize cnt) 0 s

end IoThread

/-! ## The answers -/

/-- The answer ends the transfer. -/
def IoRes.hard (eof : Bool) : IoRes → Bool
  | .bytes n => eof && n = 0
  | .err errno => errno ≠ eintr

/-- What the system may answer to the calls for `left` bytes: no more than was asked for, and nothing to a
call that is not made. -/
def Answered (eof : Bool) : List IoRes → Nat → Prop
  | [], _ => True
  | .bytes n :: rs, left => 0 < left ∧ n ≤ left ∧ (n = 0 → eof = true) ∧ Answered eof rs (left - n)
  | .err _ :: rs, left => 0 < left ∧ Answered eof rs left

/-- The counts of the answers before the one that ends the transfer. -/
def counts (eof : Bool) : List IoRes → List Nat
  | [] => []
  | r :: rs =>
    if r.hard eof then []
    else
      match r with
      | .bytes n => n :: counts eof rs
      | .err _ => counts eof rs

/-- What is returned, if the call returns. -/
def outcome (eof : Bool) (rs : List IoRes) (left : Nat) : Option Int :=
  if rs.any (·.hard eof) then some (-1) else if (counts eof rs).sum = left then some 0 else none

/-- The transfers of these counts. -/
def transfers {σ : Type} (transfer : Nat → Nat → σ → σ) : List Nat → Nat → σ → σ
  | [], _, s => s
  | n :: ns, ptr, s => transfers transfer ns (ptr + n) (transfer ptr n s)

variable {σ : Type} {eof : Bool} {transfer : Nat → Nat → σ → σ} {leave : σ → σ} {rs : List IoRes}
  {left cnt ptr : Nat}

theorem counts_of_hard {r : IoRes} (h : r.hard eof = true) : counts eof (r :: rs) = [] := by
  unfold counts
  exact if_pos h

theorem counts_bytes {n : Nat} (h : (IoRes.bytes n).hard eof = false) :
    counts eof (.bytes n :: rs) = n :: counts eof rs :=
  if_neg (Bool.eq_false_iff.mp h)

theorem counts_err {errno : Int} (h : (IoRes.err errno).hard eof = false) :
    counts eof (.err errno :: rs) = counts eof rs :=
  if_neg (Bool.eq_false_iff.mp h)

theorem outcome_of_hard {r : IoRes} (h : r.hard eof = true) : outcome eof (r :: rs) left = some (-1) := by
  unfold outcome
  rw [List.any_cons, h, Bool.true_or, if_pos rfl]

theorem outcome_bytes {n : Nat} (h : (IoRes.bytes n).hard eof = false) (hn : n ≤ left) :
    outcome eof (.bytes n :: rs) left = outcome eof rs (left - n) := by
  have hsum : (n :: counts eof rs).sum = left ↔ (counts eof rs).sum = left - n := by
    rw [List.sum_cons]
    omega
  unfold outcome
  rw [List.any_cons, h, Bool.false_or, counts_bytes h]
  simp only [hsum]

theorem outcome_err {errno : Int} (h : (IoRes.err errno).hard eof = false) :
    outcome eof (.err errno :: rs) left = outcome eof rs left := by
  unfold outcome
  rw [List.any_cons, h, Bool.false_or, counts_err h]

/-- **The loop**, for every way in which the transfer is cut. -/
theorem transferLoop_eq (h : Answered eof rs left) (s : σ) :
    transferLoop eof transfer leave rs left ptr s =
      (outcome eof rs left).map fun ret => (ret, leave (transfers transfer (counts eof rs) ptr s)) := by
  induction rs generalizing left ptr s with
  | nil =>
    unfold transferLoop outcome
    cases left with
    | zero => rfl
    | succ left =>
      rw [if_pos (by omega)]
      rfl
  | cons r rs ih =>
    have hleft : 0 < left := by
      cases r with
      | bytes n => exact h.1
      | err errno => exact h.1
    unfold transferLoop
    rw [if_pos (Int.natCast_pos.mpr hleft)]
    cases hr : r.hard eof with
    | true =>
      rw [outcome_of_hard hr, counts_of_hard hr]
      cases r with
      | bytes n => exact if_pos hr
      | err errno => exact if_pos (of_decide_eq_true hr)
    | false =>
      cases r with
      | bytes n =>
        obtain ⟨-, hn, -, hrest⟩ := h
        rw [outcome_bytes hr hn, counts_bytes hr]
        refine (if_neg (Bool.eq_false_iff.mp hr)).trans ?_
        rw [← Int.ofNat_sub hn]
        exact ih hrest _
      | err errno =>
        rw [outcome_err hr, counts_err hr]
        refine (if_neg (of_decide_eq_false hr)).trans ?_
        exact ih h.2 s

/-! ## What the transfers add up to -/

theorem IoThread.span_add (s : IoThread) (ptr n m : Nat) :
    s.span ptr (n + m) = s.span ptr n ++ s.span (ptr + n) m := by
  unfold IoThread.span
  rw [List.range_add, List.map_append, List.map_map]
  congr 1
  refine List.map_congr_left fun i _ => ?_
  simp only [Function.comp_apply, Nat.add_assoc]

/-- The writes send the buffer from the first offset on. -/
theorem transfers_write (ns : List Nat) (ptr : Nat) (s : IoThread) :
    transfers IoThread.write ns ptr s = { s with sent := s.sent ++ s.span ptr ns.sum } := by
  induction ns generalizing ptr s with
  | nil =>
    show s = { s with sent := s.sent ++ [] }
    rw [List.append_nil]
  | cons n ns ih =>
    unfold transfers
    rw [ih, List.sum_cons, IoThread.span_add, ← List.append_assoc]
    rfl

theorem IoThread.read_zero (s : IoThread) (ptr : Nat) : s.read ptr 0 = s := by
  unfold IoThread.read
  have hbuf : (fun i => if ptr ≤ i ∧ i < ptr + 0 then s.incoming (s.got + (i - ptr)) else s.buf i) =
      s.buf := by
    funext i
    rw [if_neg (by omega)]
  rw [hbuf]
  rfl

/-- Two reads, the second where the first has stopped, are one. -/
theorem IoThread.read_read (s : IoThread) (ptr n m : Nat) :
    (s.read ptr n).read (ptr + n) m = s.read ptr (n + m) := by
  unfold IoThread.read
  congr 1
  · funext i
    show (if ptr + n ≤ i ∧ i < ptr + n + m then s.incoming (s.got + n + (i - (ptr + n)))
      else if ptr ≤ i ∧ i < ptr + n then s.incoming (s.got + (i - ptr)) else s.buf i) =
      if ptr ≤ i ∧ i < ptr + (n + m) then s.incoming (s.got + (i - ptr)) else s.buf i
    by_cases hsecond : ptr + n ≤ i ∧ i < ptr + n + m
    · rw [if_pos hsecond, if_pos (by omega)]
      congr 1
      omega
    · rw [if_neg hsecond]
      by_cases hfirst : ptr ≤ i ∧ i < ptr + n
      · rw [if_pos hfirst, if_pos (by omega)]
      · rw [if_neg hfirst, if_neg (by omega)]
  · exact Nat.add_assoc ..

/-- The reads store what comes in from the first offset on. -/
theorem transfers_read (ns : List Nat) (ptr : Nat) (s : IoThread) :
    transfers IoThread.read ns ptr s = s.read ptr ns.sum := by
  induction ns generalizing ptr s with
  | nil => exact (s.read_zero ptr).symm
  | cons n ns ih =>
    unfold transfers
    rw [ih, List.sum_cons]
    exact s.read_read ptr n ns.sum

/-! ## All or a report -/

/-- A call that transfers `cnt` bytes and returns 0, or a prefix and returns -1 at the first answer that
ends the transfer, and that returns as soon as the answers allow it. `upTo k` is the state with the first
`k` bytes transferred, each once and in order, and nothing else changed. -/
structure Reports {σ : Type} (eof : Bool) (cnt : Nat) (rs : List IoRes) (r : Option (Int × σ))
    (upTo : Nat → σ) : Prop where
  returns : r.isSome = true ↔ (counts eof rs).sum = cnt ∨ ∃ q ∈ rs, q.hard eof = true
  zero : ∀ ret s, r = some (ret, s) → (ret = 0 ↔ s = upTo cnt)
  error : ∀ ret s, r = some (ret, s) → ret ≠ 0 → ret = -1 ∧ (∃ q ∈ rs, q.hard eof = true) ∧
    (counts eof rs).sum < cnt ∧ s = upTo (counts eof rs).sum

/-- The counts do not add up to more than what was asked for, and to less before a hard answer. -/
theorem sum_counts (h : Answered eof rs left) :
    (counts eof rs).sum ≤ left ∧ ((∃ r ∈ rs, r.hard eof = true) → (counts eof rs).sum < left) := by
  induction rs generalizing left with
  | nil => exact ⟨Nat.zero_le left, nofun⟩
  | cons r rs ih =>
    cases hr : r.hard eof with
    | true =>
      have hleft : 0 < left := by
        cases r with
        | bytes n => exact h.1
        | err errno => exact h.1
      rw [counts_of_hard hr]
      exact ⟨Nat.zero_le left, fun _ => hleft⟩
    | false =>
      have htail : (∃ q ∈ r :: rs, q.hard eof = true) → ∃ q ∈ rs, q.hard eof = true := by
        rintro ⟨q, hq, hhard⟩
        rcases List.mem_cons.mp hq with rfl | hq
        · rw [hr] at hhard
          cases hhard
        · exact ⟨q, hq, hhard⟩
      cases r with
      | bytes n =>
        obtain ⟨-, hn, -, hrest⟩ := h
        obtain ⟨hle, hlt⟩ := ih hrest
        rw [counts_bytes hr, List.sum_cons]
        refine ⟨by omega, fun hhard => ?_⟩
        have hless := hlt (htail hhard)
        omega
      | err errno =>
        obtain ⟨hle, hlt⟩ := ih h.2
        rw [counts_err hr]
        exact ⟨hle, fun hhard => hlt (htail hhard)⟩

/-- The three ends of a loop whose answers are `rs`. -/
theorem outcome_cases (h : Answered eof rs cnt) :
    (outcome eof rs cnt = some (-1) ∧ (∃ r ∈ rs, r.hard eof = true) ∧ (counts eof rs).sum < cnt) ∨
    (outcome eof rs cnt = some 0 ∧ (¬ ∃ r ∈ rs, r.hard eof = true) ∧ (counts eof rs).sum = cnt) ∨
    (outcome eof rs cnt = none ∧ (¬ ∃ r ∈ rs, r.hard eof = true) ∧ (counts eof rs).sum ≠ cnt) := by
  have hany : rs.any (·.hard eof) = true ↔ ∃ r ∈ rs, r.hard eof = true := List.any_eq_true
  unfold outcome
  by_cases hhard : ∃ r ∈ rs, r.hard eof = true
  · exact .inl ⟨if_pos (hany.mpr hhard), hhard, (sum_counts h).2 hhard⟩
  · rw [if_neg (mt hany.mp hhard)]
    by_cases hsum : (counts eof rs).sum = cnt
    · exact .inr (.inl ⟨if_pos hsum, hhard, hsum⟩)
    · exact .inr (.inr ⟨if_neg hsum, hhard, hsum⟩)

/-- A call with the ends of the loop reports. -/
theorem reports {r : Option (Int × σ)} {upTo : Nat → σ} (h : Answered eof rs cnt)
    (hinj : Function.Injective upTo)
    (heq : r = (outcome eof rs cnt).map fun ret => (ret, upTo (counts eof rs).sum)) :
    Reports eof cnt rs r upTo := by
  rcases outcome_cases h with ⟨hout, hhard, hlt⟩ | ⟨hout, hhard, hsum⟩ | ⟨hout, hhard, hsum⟩
  all_goals
    rw [hout] at heq
    subst heq
  · refine ⟨⟨fun _ => .inr hhard, fun _ => rfl⟩, ?_, ?_⟩
    · rintro _ _ ⟨⟩
      exact ⟨nofun, fun hall => absurd (hinj hall) (Nat.ne_of_lt hlt)⟩
    · rintro _ _ ⟨⟩ -
      exact ⟨rfl, hhard, hlt, rfl⟩
  · refine ⟨⟨fun _ => .inl hsum, fun _ => rfl⟩, ?_, ?_⟩
    · rintro _ _ ⟨⟩
      exact ⟨fun _ => congrArg upTo hsum, fun _ => rfl⟩
    · rintro _ _ ⟨⟩ hne
      exact absurd rfl hne
  · exact ⟨⟨nofun, fun hor => (hor.elim hsum hhard).elim⟩, nofun, nofun⟩

/-- A count that is negative as an `ssize_t` is a transfer of nothing. -/
theorem transferLoop_wrapped (hcnt : 2 ^ 63 ≤ cnt ∧ cnt < 2 ^ 64) (rs : List IoRes) (s : σ) :
    transferLoop eof transfer leave rs (toSsize cnt) ptr s = some (0, leave s) := by
  have hneg : ¬ toSsize cnt > 0 := by
    unfold toSsize
    rw [if_neg (Nat.not_lt.mpr hcnt.1)]
    omega
  cases rs with
  | nil => exact if_neg hneg
  | cons r rs => exact if_neg hneg

theorem not_reports {r : Option (Int × σ)} {upTo : Nat → σ} (hinj : Function.Injective upTo) (hpos : 0 < cnt)
    (heq : r = some (0, upTo 0)) : ¬ Reports eof cnt rs r upTo := by
  intro h
  have hall := (h.zero 0 _ heq).mp rfl
  exact absurd (hinj hall) (Nat.ne_of_lt hpos)

namespace IoThread

/-- The first `k` bytes of the buffer are sent. -/
def sentUpTo (s : IoThread) (k : Nat) : IoThread := { s with sent := s.sent ++ s.span 0 k }

theorem sentUpTo_zero (s : IoThread) : s.sentUpTo 0 = s := by
  unfold sentUpTo
  rw [show s.span 0 0 = [] from rfl, List.append_nil]

theorem sentUpTo_injective (s : IoThread) : Function.Injective s.sentUpTo := by
  intro k l heq
  have hspan : s.span 0 k = s.span 0 l := List.append_cancel_left (congrArg IoThread.sent heq)
  have hlen := congrArg List.length hspan
  unfold span at hlen
  rwa [List.length_map, List.length_map, List.length_range, List.length_range] at hlen

theorem read_injective (s : IoThread) : Function.Injective (s.read 0) := by
  intro k l heq
  exact Nat.add_left_cancel (congrArg IoThread.got heq)

theorem safeWrite_eq (s : IoThread) (hcnt : cnt < 2 ^ 63) (h : Answered false rs cnt) :
    s.safeWrite cnt rs =
      (outcome false rs cnt).map fun ret => (ret, s.sentUpTo (counts false rs).sum) := by
  unfold safeWrite
  rw [show toSsize cnt = cnt from if_pos hcnt, transferLoop_eq h]
  simp only [transfers_write]
  rfl

theorem safeRead_eq (s : IoThread) (hcnt : cnt < 2 ^ 63) (h : Answered true rs cnt) :
    s.safeRead cnt rs = (outcome true rs cnt).map fun ret => (ret, s.read 0 (counts true rs).sum) := by
  unfold safeRead
  rw [show toSsize cnt = cnt from if_pos hcnt, transferLoop_eq h]
  simp only [transfers_read, id]

end IoThread

/-- **All or a report.** For every count that fits a `size_t` and all answers of the system, `safe_write` and
`safe_read` transfer all or report, if and only if the count fits an `ssize_t`; the signal mask is what it
was in any case. -/
theorem transfers_all_or_report (hcnt : cnt < 2 ^ 64) (s : IoThread) :
    (∀ rs, Answered false rs cnt →
      (Reports false cnt rs (s.safeWrite cnt rs) s.sentUpTo ↔ cnt < 2 ^ 63) ∧
      ∀ ret s', s.safeWrite cnt rs = some (ret, s') → s'.mask = s.mask) ∧
    ∀ rs, Answered true rs cnt → (Reports true cnt rs (s.safeRead cnt rs) (s.read 0) ↔ cnt < 2 ^ 63) := by
  by_cases hfits : cnt < 2 ^ 63
  · refine ⟨fun rs h => ⟨⟨fun _ => hfits, fun _ => ?_⟩, ?_⟩, fun rs h => ⟨fun _ => hfits, fun _ => ?_⟩⟩
    · exact reports h s.sentUpTo_injective (s.safeWrite_eq hfits h)
    · intro ret s' hret
      rw [s.safeWrite_eq hfits h] at hret
      obtain ⟨_, -, heq⟩ := Option.map_eq_some_iff.mp hret
      cases heq
      rfl
    · exact reports h s.read_injective (s.safeRead_eq hfits h)
  · have hpos : 0 < cnt := by omega
    have hwrite : ∀ rs, s.safeWrite cnt rs = some (0, s.sentUpTo 0) := by
      intro rs
      rw [s.sentUpTo_zero]
      exact transferLoop_wrapped ⟨Nat.not_lt.mp hfits, hcnt⟩ rs s.blockSigint
    have hread : ∀ rs, s.safeRead cnt rs = some (0, s.read 0 0) := by
      intro rs
      rw [s.read_zero]
      exact transferLoop_wrapped ⟨Nat.not_lt.mp hfits, hcnt⟩ rs s
    refine ⟨fun rs h => ⟨⟨fun hreports => ?_, fun hlt => absurd hlt hfits⟩, ?_⟩,
      fun rs h => ⟨fun hreports => ?_, fun hlt => absurd hlt hfits⟩⟩
    · exact absurd hreports (not_reports s.sentUpTo_injective hpos (hwrite rs))
    · intro ret s' hret
      rw [hwrite rs] at hret
      cases hret
      rfl
    · exact absurd hreports (not_reports s.read_injective hpos (hread rs))

/-- A thread with this buffer that has sent and got nothing. -/
def IoThread.new (buf : Nat → UInt8) : IoThread where
  mask := ∅
  buf := buf
  sent := []
  incoming := fun _ => 0
  got := 0

/-- Three bytes go out in two parts, with a signal between them. -/
theorem transfers_all_or_report_three : ∃ s : IoThread,
    (IoThread.new UInt8.ofNat).safeWrite 3 [.bytes 1, .err eintr, .bytes 2] = some (0, s) ∧
      s.sent = [0, 1, 2] := by
  have hanswered : Answered false [.bytes 1, .err eintr, .bytes 2] 3 := by
    unfold Answered Answered Answered Answered
    decide
  have hboth := (transfers_all_or_report (show 3 < 2 ^ 64 by decide) (IoThread.new UInt8.ofNat)).1 _ hanswered
  have hreports := hboth.1.mpr (by decide)
  have hreturns := hreports.returns.mpr (.inl rfl)
  obtain ⟨⟨ret, s⟩, hret⟩ := Option.isSome_iff_exists.mp hreturns
  have hzero : ret = 0 := by
    by_contra hne
    obtain ⟨-, ⟨r, hr, hhard⟩, -⟩ := hreports.error ret s hret hne
    revert r
    decide
  subst hzero
  refine ⟨s, hret, ?_⟩
  rw [(hreports.zero 0 s hret).mp rfl]
  rfl

/-- A count of 2^63 is negative as an `ssize_t`: no call is made, and both functions return 0. -/
theorem huge_count_skipped : ¬ ∀ cnt, cnt < 2 ^ 64 → ∀ (s : IoThread) (rs : List IoRes),
    Answered false rs cnt → Reports false cnt rs (s.safeWrite cnt rs) s.sentUpTo := by
  intro h
  have hreports := h (2 ^ 63) (by decide) (IoThread.new UInt8.ofNat) [] trivial
  have hret : (IoThread.new UInt8.ofNat).safeWrite (2 ^ 63) [] = some (0, IoThread.new UInt8.ofNat) := rfl
  have hall := congrArg List.length (congrArg IoThread.sent ((hreports.zero 0 _ hret).mp rfl))
  unfold IoThread.sentUpTo IoThread.span at hall
  rw [List.length_append, List.length_map, List.length_range] at hall
  exact absurd hall (by decide)

end Chvm.Core
