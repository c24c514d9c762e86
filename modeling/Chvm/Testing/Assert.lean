import Mathlib.Order.WithBot
import Chvm.Lib.Run
import Chvm.Testing.Chunit

/-!
# The child of a test (`assert.c`)

The threads of a test's process write the outcome into a pipe of bounded capacity: the first thread
whose assertion fails, under the mutex, or the main thread when the test returns. The parent reads
only after the process has ended. The machine interleaves the threads' steps; a write puts as many
bytes into the pipe as the system takes at once.
-/

set_option autoImplicit false

namespace Chvm.Testing

open Chvm.Lib

/-- A C string: bytes without a zero among them, which are with the zero behind them an object of a size
that an `ssize_t` counts. -/
structure CString where
  bytes : List UInt8
  no_nul : 0 ∉ bytes
  fits : bytes.length + 1 < 2 ^ 63
deriving DecidableEq

/-- The `strlen + 1` bytes of a string. -/
def CString.full (s : CString) : List UInt8 := s.bytes ++ [0]

/-- A call of an assertion, with its arguments. -/
inductive AssertCall
  | assertTrue (actual : Int)
  | assertFalse (actual : Int)
  | assertNonNull (ptr : UInt64)
  | assertEqPtr (expected actual : UInt64)
  | assertEqInt (expected actual : Int64)
  | assertEqUint (expected actual : UInt64)
  | assertEqChar (expected actual : UInt8)
  | assertEqStr (expected actual : CString)
deriving DecidableEq

namespace AssertCall

def fails : AssertCall → Bool
  | .assertTrue actual => actual = 0
  | .assertFalse actual => actual ≠ 0
  | .assertNonNull ptr => ptr = 0
  | .assertEqPtr expected actual => expected ≠ actual
  | .assertEqInt expected actual => expected ≠ actual
  | .assertEqUint expected actual => expected ≠ actual
  | .assertEqChar expected actual => expected ≠ actual
  | .assertEqStr expected actual => expected.bytes ≠ actual.bytes

/-- The tag a failing assertion writes. -/
def result : AssertCall → TestResult
  | .assertTrue _ => .assertTrueFail
  | .assertFalse _ => .assertFalseFail
  | .assertNonNull _ => .assertNonNullFail
  | .assertEqPtr _ _ => .assertEqPtrFail
  | .assertEqInt _ _ => .assertEqIntFail
  | .assertEqUint _ _ => .assertEqUintFail
  | .assertEqChar _ _ => .assertEqCharFail
  | .assertEqStr _ _ => .assertEqStrFail

/-- The buffers it gives `write_data`, in order. -/
def buffers : AssertCall → List (List UInt8)
  | .assertEqPtr expected actual => [le 8 expected.toNat ++ le 8 actual.toNat]
  | .assertEqInt expected actual => [le 8 expected.toUInt64.toNat ++ le 8 actual.toUInt64.toNat]
  | .assertEqUint expected actual => [le 8 expected.toNat ++ le 8 actual.toNat]
  | .assertEqChar expected actual => [[expected, actual]]
  | .assertEqStr expected actual =>
    [le 8 (expected.bytes.length + 1) ++ le 8 (actual.bytes.length + 1), expected.full, actual.full]
  | _ => []

/-- Everything it writes. -/
def message (c : AssertCall) : List UInt8 := le 4 c.result.code ++ c.buffers.flatten

/-- Two words of eight bytes in a buffer of their own. -/
def Words (data : Option RunData) (expected actual : Nat) : Prop :=
  ∃ buf bytes, data = some (.cmpr buf bytes) ∧ bytes.length = 16 ∧ ofLe (bytes.take 8) = expected ∧
    ofLe (bytes.drop 8) = actual

/-- The run's data are the values of the call. -/
def ShownBy (data : Option RunData) : AssertCall → Prop
  | .assertEqPtr expected actual => Words data expected.toNat actual.toNat
  | .assertEqInt expected actual => Words data expected.toUInt64.toNat actual.toUInt64.toNat
  | .assertEqUint expected actual => Words data expected.toNat actual.toNat
  | .assertEqChar expected actual => ∃ buf, data = some (.cmpr buf [expected, actual])
  | .assertEqStr expected actual => ∃ buf expectedBuf actualBuf,
      data = some (.strs buf expectedBuf actualBuf expected.full actual.full)
  | _ => data = none

end AssertCall

/-! ## The codec -/

namespace Parent

variable {p : Parent}

/-- What is in the pipe first is read first. -/
theorem safeRead_append {l r : List UInt8} {n : Nat} (h : p.pipe = l ++ r) (hn : l.length = n)
    (hfits : n < 2 ^ 63) : p.safeRead n = (some l, { p with pipe := r }) := by
  subst hn
  have hlen : l.length ≤ p.pipe.length := by
    rw [h, List.length_append]
    exact Nat.le_add_right _ _
  rw [safeRead_of_le hlen hfits, h, List.take_left, List.drop_left]

theorem attemptReadCmprAndClose_eq (res : TestResult) (size : Nat) {bytes : List UInt8}
    (hpipe : p.pipe = bytes) (hlen : bytes.length = size * 2) (hsize : size * 2 < 2 ^ 63)
    (hopen : p.rdOpen = true) :
    ∃ p', p.attemptReadCmprAndClose res size = some p' ∧ p'.tr.result = res ∧
      p'.tr.data = some (.cmpr p.safeMalloc.1 bytes) ∧ p'.tr.errors = p.tr.errors := by
  have hread : p.safeMalloc.2.safeRead (size * 2) = (some bytes, { p.safeMalloc.2 with pipe := [] }) :=
    safeRead_append (hpipe.trans (List.append_nil _).symm) hlen hsize
  unfold attemptReadCmprAndClose
  simp only [hread]
  exact ⟨_, if_pos hopen, rfl, rfl, rfl⟩

theorem length_full (s : CString) : s.full.length = s.bytes.length + 1 := List.length_append

/-- The size of a string is one of eight bytes, and the parent gets its memory. -/
theorem serves_of_fits (s : CString) (hmem : ∀ n, p.mem n = true) :
    s.bytes.length + 1 < 256 ^ 8 ∧ Serves p.mem (s.bytes.length + 1) := by
  have hfits := s.fits
  exact ⟨by omega, by omega, hmem _⟩

theorem readStrsAndClose_eq {expected actual : CString}
    (hpipe : p.pipe = (AssertCall.assertEqStr expected actual).buffers.flatten)
    (hmem : ∀ n, p.mem n = true) (hopen : p.rdOpen = true) :
    ∃ p', p.readStrsAndClose = some p' ∧ p'.tr.result = .assertEqStrFail ∧
      (AssertCall.assertEqStr expected actual).ShownBy p'.tr.data ∧ p'.tr.errors = p.tr.errors := by
  have hsizes : p.pipe = (le 8 (expected.bytes.length + 1) ++ le 8 (actual.bytes.length + 1)) ++
      (expected.full ++ actual.full) := by
    rw [hpipe]
    simp only [AssertCall.buffers, List.flatten_cons, List.flatten_nil, List.append_nil]
  have hread := safeRead_append (n := 16) hsizes (by rw [List.length_append, length_le, length_le])
    (by decide)
  obtain ⟨hword, hserves⟩ := serves_of_fits expected hmem
  obtain ⟨hword', hserves'⟩ := serves_of_fits actual hmem
  unfold readStrsAndClose readActualAndClose
  simp only [hread, List.take_left' (length_le 8 _), List.drop_left' (length_le 8 _), ofLe_le hword,
    ofLe_le hword']
  generalize hq : ({ p with pipe := expected.full ++ actual.full } : Parent) = q
  have hexpected := safeRead_append (p := q.safeMalloc.2) (n := expected.bytes.length + 1)
    (hq ▸ rfl : q.safeMalloc.2.pipe = expected.full ++ actual.full) (length_full expected) expected.fits
  rw [readStr_of_serves (hq ▸ hserves), Option.bind_some, hexpected]
  generalize hq₁ : ({ q.safeMalloc.2 with pipe := actual.full } : Parent) = q₁
  have hactual := safeRead_append (p := q₁.safeMalloc.2) (n := actual.bytes.length + 1)
    (hq₁ ▸ (List.append_nil _).symm : q₁.safeMalloc.2.pipe = actual.full ++ []) (length_full actual)
    actual.fits
  have hserves₁ : Serves q₁.mem (actual.bytes.length + 1) := by
    subst hq₁
    subst hq
    exact hserves'
  simp only [readStr_of_serves hserves₁, Option.bind_some, hactual]
  subst hq₁
  subst hq
  exact ⟨_, if_pos hopen, rfl, ⟨_, _, _, rfl⟩, rfl⟩

/-- The words of a comparison. -/
theorem words_of_bytes {data : Option RunData} {buf expected actual : Nat} (he : expected < 256 ^ 8)
    (ha : actual < 256 ^ 8) (h : data = some (.cmpr buf (le 8 expected ++ le 8 actual))) :
    AssertCall.Words data expected actual := by
  refine ⟨buf, _, h, ?_, ?_, ?_⟩
  · rw [List.length_append, length_le, length_le]
  · rw [List.take_left' (length_le 8 _), ofLe_le he]
  · rw [List.drop_left' (length_le 8 _), ofLe_le ha]

/-- **Round trip.** The parent makes of a complete message the result and the data of the call. -/
theorem readResult_message {c : AssertCall} (hpipe : p.pipe = c.message) (hmem : ∀ n, p.mem n = true)
    (hopen : p.rdOpen = true) (hdata : p.tr.data = none) :
    ∃ p', p.readResult = some p' ∧ p'.tr.result = c.result ∧ c.ShownBy p'.tr.data ∧
      p'.tr.errors = p.tr.errors := by
  have hread := safeRead_append (n := 4) hpipe (length_le 4 _) (by decide)
  have hword : ∀ w : UInt64, w.toNat < 256 ^ 8 := fun w => w.toNat_lt
  unfold readResult
  simp only [hread, ofLe_le (TestResult.code_lt _), TestResult.ofCode_code]
  generalize hq : ({ p with pipe := c.buffers.flatten } : Parent) = q
  have hqpipe : q.pipe = c.buffers.flatten := hq ▸ rfl
  have hqmem : ∀ n, q.mem n = true := hq ▸ hmem
  have hqopen : q.rdOpen = true := hq ▸ hopen
  have hqerrors : q.tr.errors = p.tr.errors := hq ▸ rfl
  have hqdata : q.tr.data = none := hq ▸ hdata
  rw [← hqerrors]
  cases c with
  | assertTrue actual => exact ⟨_, if_pos hqopen, rfl, hqdata, rfl⟩
  | assertFalse actual => exact ⟨_, if_pos hqopen, rfl, hqdata, rfl⟩
  | assertNonNull ptr => exact ⟨_, if_pos hqopen, rfl, hqdata, rfl⟩
  | assertEqPtr expected actual =>
    obtain ⟨p', hp', hresult, hshown, herrors⟩ := attemptReadCmprAndClose_eq .assertEqPtrFail 8
      (hqpipe.trans (List.append_nil _)) (by simp only [List.length_append, length_le]) (by decide) hqopen
    exact ⟨p', hp', hresult, words_of_bytes (hword _) (hword _) hshown, herrors⟩
  | assertEqInt expected actual =>
    obtain ⟨p', hp', hresult, hshown, herrors⟩ := attemptReadCmprAndClose_eq .assertEqIntFail 8
      (hqpipe.trans (List.append_nil _)) (by simp only [List.length_append, length_le]) (by decide) hqopen
    exact ⟨p', hp', hresult, words_of_bytes (hword _) (hword _) hshown, herrors⟩
  | assertEqUint expected actual =>
    obtain ⟨p', hp', hresult, hshown, herrors⟩ := attemptReadCmprAndClose_eq .assertEqUintFail 8
      (hqpipe.trans (List.append_nil _)) (by simp only [List.length_append, length_le]) (by decide) hqopen
    exact ⟨p', hp', hresult, words_of_bytes (hword _) (hword _) hshown, herrors⟩
  | assertEqChar expected actual =>
    obtain ⟨p', hp', hresult, hshown, herrors⟩ := attemptReadCmprAndClose_eq .assertEqCharFail 1
      (hqpipe.trans (List.append_nil _)) rfl (by decide) hqopen
    exact ⟨p', hp', hresult, ⟨_, hshown⟩, herrors⟩
  | assertEqStr expected actual => exact readStrsAndClose_eq hqpipe hqmem hqopen

end Parent

/-! ## The threads -/

/-- Where a thread of the test stands: `failing` is past the check of an assertion, `writing` has the
bytes it has yet to write, and then closes the pipe; `exiting` is in `safe_exit`. -/
inductive TestPc
  | running
  | failing (c : AssertCall)
  | writing (left : List UInt8)
  | exiting (code : Nat)
deriving DecidableEq

/-- The test's process and its parent. `mutex` holds the thread that took it, for which call;
`status` is there when the process has ended, and `parent` when `chunit_parent_process` has. -/
structure TestProc (Tid : Type) where
  main : Tid
  shouldFail : Bool
  cap : Nat
  heap : Heap
  pipe : List UInt8
  fdOpen : Bool
  mutex : Option (Tid × AssertCall)
  threads : Tid → TestPc
  status : Option Nat
  parent : Option Parent

inductive TestAct (Tid : Type)
  | call (t : Tid) (c : AssertCall)
  | testLock (t : Tid)
  | testReturn (leaks : Bool)
  | write (t : Tid) (n : Nat)
  | close (t : Tid)
  | exit (t : Tid)
  | reap
  | timeout (killErr : Bool)

variable {Tid : Type} [DecidableEq Tid]

namespace TestProc

/-- The process at the start of the test. -/
def new (main : Tid) (shouldFail : Bool) (cap : Nat) (heap : Heap) : TestProc Tid :=
  { main, shouldFail, cap, heap, pipe := [], fdOpen := true, mutex := none,
    threads := fun _ => .running, status := none, parent := none }

def setThread (s : TestProc Tid) (t : Tid) (pc : TestPc) : TestProc Tid :=
  { s with threads := fun t' => if t' = t then pc else s.threads t' }

end TestProc

/-- A step of a thread of the process. -/
def childStep (s : TestProc Tid) : TestAct Tid → Option (TestProc Tid)
  | .call t c =>
    match s.threads t with
    | .running => some (if c.fails then s.setThread t (.failing c) else s)
    | _ => none
  | .testLock t =>
    match s.threads t, s.mutex with
    | .failing c, none => some { s.setThread t (.writing c.message) with mutex := some (t, c) }
    | _, _ => none
  | .testReturn leaks =>
    match s.threads s.main with
    | .running =>
      some (s.setThread s.main
        (.writing (le 4 (if leaks then TestResult.memoryLeak else TestResult.success).code)))
    | _ => none
  | .write t n =>
    match s.threads t with
    | .writing left =>
      if left = [] then none
      else if s.fdOpen = false then some (s.setThread t (.exiting pipeErrorExitCode))
      else if 0 < n ∧ n ≤ left.length ∧ s.pipe.length + n ≤ s.cap then
        some { s.setThread t (.writing (left.drop n)) with pipe := s.pipe ++ left.take n }
      else none
    | _ => none
  | .close t =>
    match s.threads t with
    | .writing [] =>
      some (if s.fdOpen then { s.setThread t (.exiting 0) with fdOpen := false }
        else s.setThread t (.exiting pipeErrorExitCode))
    | _ => none
  | .exit t =>
    match s.threads t with
    | .exiting code => some { s with status := some code }
    | _ => none
  | _ => none

/-- One step: of the parent, or of the process while it lives. The host has memory for what the parent
asks. -/
def testStep (s : TestProc Tid) : TestAct Tid → Option (TestProc Tid)
  | .reap =>
    match s.status, s.parent with
    | some code, none =>
      (Parent.chunitParentProcess s.heap (fun _ => true) s.shouldFail (.exited code) false
        s.pipe).map fun p => { s with parent := some p }
    | _, _ => none
  | .timeout killErr =>
    match s.status, s.parent with
    | none, none =>
      (Parent.chunitParentProcess s.heap (fun _ => true) s.shouldFail .timeout killErr
        s.pipe).map fun p => { s with parent := some p }
    | _, _ => none
  | a =>
    match s.status, s.parent with
    | none, none => childStep s a
    | _, _ => none

/-- The pipe is full, a thread waits for room in it, and so do all that are past the test's code. -/
def Blocked (s : TestProc Tid) : Prop :=
  s.cap ≤ s.pipe.length ∧ (∃ t left, s.threads t = .writing left ∧ left ≠ []) ∧
    (∀ t, s.threads t ≠ .writing []) ∧ (∀ t code, s.threads t ≠ .exiting code) ∧
    (s.mutex = none → ∀ t c, s.threads t ≠ .failing c)

/-- The test ends before its timeout, if nothing but the pipe holds it up. -/
def InTime (s : TestProc Tid) : TestAct Tid → Prop
  | .timeout _ => Blocked s
  | _ => True

/-- An assertion has failed. -/
def Failed (s : TestProc Tid) : Prop := s.mutex ≠ none ∨ ∃ t c, s.threads t = .failing c

/-- The message of the thread that takes the mutex fits the pipe, in a test that is not expected to
fail; and the main thread's own result is not in the pipe with it. -/
def OneWriter (s : TestProc Tid) : TestAct Tid → Prop
  | .call _ c => c.fails = true → s.mutex = none → s.pipe = []
  | .testLock t => ∀ c, s.threads t = .failing c → c.message.length ≤ s.cap ∧ s.shouldFail = false
  | .write t _ => Failed s → ∃ c, s.mutex = some (t, c)
  | _ => True

/-- The outcome of a failed assertion survives: one complete message is in the pipe when the process
ends, the parent makes of it that assertion's result and data, and until it has, a step is due. -/
structure OutcomeOk (s : TestProc Tid) : Prop where
  message : ∀ code, s.status = some code → ∃ t c, s.mutex = some (t, c) ∧ c.fails = true ∧
    s.pipe = c.message ∧ code = 0
  run : ∀ p, s.parent = some p → ∃ t c, s.mutex = some (t, c) ∧ c.fails = true ∧
    p.tr.result = c.result ∧ c.ShownBy p.tr.data ∧ p.tr.errors = []
  progress : s.parent = none → ∃ a m, (∀ t c, a ≠ .call t c) ∧ (∀ leaks, a ≠ .testReturn leaks) ∧
    testStep s a = some m

/-- What is left to do once the mutex is taken: bytes to write, the close, the exit, the read. -/
def TestProc.work (s : TestProc Tid) : WithTop Nat :=
  match s.parent, s.status, s.mutex with
  | some _, _, _ => WithTop.some 0
  | none, some _, _ => WithTop.some 1
  | none, none, none => ⊤
  | none, none, some (t, _) =>
    match s.threads t with
    | .writing left => WithTop.some (left.length + 3)
    | .exiting _ => WithTop.some 2
    | _ => ⊤

/-! ## The invariant -/

/-- What a run with one writer keeps. A thread that is past the test's code holds the mutex or is the
main thread; the main thread has written only if no assertion failed. -/
structure TestInv (s : TestProc Tid) : Prop where
  failing : ∀ t c, s.threads t = .failing c → c.fails = true
  /-- Before the mutex is taken, an assertion fails only in front of an empty pipe. -/
  quiet : s.mutex = none → s.pipe ≠ [] → ∀ t c, s.threads t ≠ .failing c
  closed : s.fdOpen = false → s.pipe ≠ []
  returned : ∀ t, (∀ c, s.mutex ≠ some (t, c)) → s.threads t = .writing [] ∨
    (∃ code, s.threads t = .exiting code) → s.mutex = none ∧ s.pipe ≠ []
  held : ∀ t c, s.mutex = some (t, c) → c.fails = true ∧ c.message.length ≤ s.cap ∧
    s.shouldFail = false ∧
    ((∃ left, s.threads t = .writing left ∧ s.fdOpen = true ∧ s.pipe ++ left = c.message) ∨
      (s.threads t = .exiting 0 ∧ s.pipe = c.message))
  ended : ∀ code, s.status = some code → (s.mutex = none ∧ s.pipe ≠ []) ∨
    ∃ t c, s.mutex = some (t, c) ∧ s.pipe = c.message ∧ code = 0
  read : ∀ p, s.parent = some p → ¬ Failed s ∨ ∃ t c, s.mutex = some (t, c) ∧
    p.tr.result = c.result ∧ c.ShownBy p.tr.data ∧ p.tr.errors = []

omit [DecidableEq Tid] in
theorem testInv_new {main : Tid} {shouldFail : Bool} {cap : Nat} {heap : Heap} :
    TestInv (TestProc.new main shouldFail cap heap) where
  failing := nofun
  quiet := fun _ hpipe => absurd rfl hpipe
  closed := nofun
  returned := by
    rintro t - (h | ⟨code, h⟩)
    · cases h
    · cases h
  held := nofun
  ended := nofun
  read := nofun

@[grind =] theorem threads_setThread {s : TestProc Tid} {t : Tid} {pc : TestPc} (t' : Tid) :
    (s.setThread t pc).threads t' = if t' = t then pc else s.threads t' := rfl

theorem message_ne_nil (c : AssertCall) : c.message ≠ [] :=
  List.append_ne_nil_of_left_ne_nil (List.cons_ne_nil _ _) _

omit [DecidableEq Tid] in
/-- A thread in the test's code does not hold the mutex. -/
theorem TestInv.ne_holder {s : TestProc Tid} {t t' : Tid} {c : AssertCall} (h : TestInv s)
    (hmutex : s.mutex = some (t', c)) (hwriting : ∀ left, s.threads t ≠ .writing left)
    (hexiting : ∀ code, s.threads t ≠ .exiting code) : t' ≠ t := by
  rintro rfl
  rcases (h.held t' c hmutex).2.2.2 with ⟨left, hpc, -⟩ | ⟨hpc, -⟩
  · exact hwriting left hpc
  · exact hexiting 0 hpc

theorem TestInv.setFailing {s : TestProc Tid} {t : Tid} {c : AssertCall} (h : TestInv s)
    (hpc : s.threads t = .running) (hfails : c.fails = true) (hok : s.mutex = none → s.pipe = [])
    (hstatus : s.status = none) (hparent : s.parent = none) : TestInv (s.setThread t (.failing c)) where
  failing := by grind [h.failing]
  quiet := fun hmutex hpipe => absurd (hok hmutex) hpipe
  closed := h.closed
  returned := fun t' hfree hpc' => h.returned t' hfree (by grind)
  held := fun t' c' hmutex => by
    have hne := h.ne_holder hmutex (t := t) (by rw [hpc]; nofun) (by rw [hpc]; nofun)
    rw [threads_setThread, if_neg hne]
    exact h.held t' c' hmutex
  ended := fun code hcode => by cases hstatus.symm.trans hcode
  read := fun p hp => by cases hparent.symm.trans hp

/-- The mutex is taken in front of an empty pipe. -/
theorem TestInv.testLock {s : TestProc Tid} {t : Tid} {c : AssertCall} (h : TestInv s)
    (hpc : s.threads t = .failing c) (hmutex : s.mutex = none)
    (hfits : c.message.length ≤ s.cap ∧ s.shouldFail = false)
    (hstatus : s.status = none) (hparent : s.parent = none) :
    TestInv { s.setThread t (.writing c.message) with mutex := some (t, c) } := by
  have hempty : s.pipe = [] := by
    by_contra hpipe
    exact h.quiet hmutex hpipe t c hpc
  have hopen : s.fdOpen = true := by
    by_contra hclosed
    exact h.closed (Bool.eq_false_iff.mpr hclosed) hempty
  exact
    { failing := by grind [h.failing]
      quiet := nofun
      closed := h.closed
      returned := fun t' hfree hpc' => by
        have hne : t' ≠ t := fun heq => hfree c (by rw [heq])
        rw [threads_setThread, if_neg hne] at hpc'
        have hreturned := h.returned t' (by rw [hmutex]; nofun) hpc'
        exact absurd hempty hreturned.2
      held := fun t' c' hheld => by
        cases hheld
        refine ⟨h.failing t c hpc, hfits.1, hfits.2, .inl ⟨c.message, if_pos rfl, hopen, ?_⟩⟩
        show s.pipe ++ c.message = c.message
        rw [hempty, List.nil_append]
      ended := fun code hcode => by cases hstatus.symm.trans hcode
      read := fun p hp => by cases hparent.symm.trans hp }

theorem TestInv.testReturn {s : TestProc Tid} {left : List UInt8} (h : TestInv s)
    (hpc : s.threads s.main = .running) (hleft : left ≠ []) (hstatus : s.status = none)
    (hparent : s.parent = none) : TestInv (s.setThread s.main (.writing left)) where
  failing := by grind [h.failing]
  quiet := fun hmutex hpipe t c => by
    have hquiet := h.quiet hmutex hpipe t c
    grind
  closed := h.closed
  returned := fun t' hfree hpc' => h.returned t' hfree (by grind)
  held := fun t' c' hmutex => by
    have hne := h.ne_holder hmutex (t := s.main) (by rw [hpc]; nofun) (by rw [hpc]; nofun)
    rw [threads_setThread, if_neg hne]
    exact h.held t' c' hmutex
  ended := fun code hcode => by cases hstatus.symm.trans hcode
  read := fun p hp => by cases hparent.symm.trans hp

/-- A write: by the thread with the mutex, or in a run where no assertion has failed. -/
theorem TestInv.write {s : TestProc Tid} {t : Tid} {left : List UInt8} {n : Nat} (h : TestInv s)
    (hpc : s.threads t = .writing left) (hleft : left ≠ []) (hopen : s.fdOpen = true) (hn : 0 < n)
    (hok : Failed s → ∃ c, s.mutex = some (t, c)) (hstatus : s.status = none) (hparent : s.parent = none) :
    TestInv { s.setThread t (.writing (left.drop n)) with pipe := s.pipe ++ left.take n } := by
  have hpipe : s.pipe ++ left.take n ≠ [] := by
    refine List.append_ne_nil_of_right_ne_nil _ ?_
    intro hnil
    rcases List.take_eq_nil_iff.mp hnil with hzero | hnone
    · omega
    · exact hleft hnone
  have hfree : s.mutex = none → ¬ Failed s := by
    intro hmutex hfailed
    obtain ⟨c, hc⟩ := hok hfailed
    cases hmutex.symm.trans hc
  exact
    { failing := by grind [h.failing]
      quiet := fun hmutex _ t' c' hpc' => by
        rw [threads_setThread] at hpc'
        split at hpc'
        · cases hpc'
        · exact hfree hmutex (.inr ⟨t', c', hpc'⟩)
      closed := fun _ => hpipe
      returned := fun t' hnot hpc' => by
        refine ⟨?_, hpipe⟩
        rw [threads_setThread] at hpc'
        split at hpc'
        · rename_i heq
          by_contra hmutex
          obtain ⟨c, hc⟩ := hok (.inl hmutex)
          exact hnot c (heq ▸ hc)
        · exact (h.returned t' hnot hpc').1
      held := fun t' c' hmutex => by
        have hfailed : Failed s := .inl fun hnone => by cases hnone.symm.trans hmutex
        obtain ⟨c, hc⟩ := hok hfailed
        cases hmutex.symm.trans hc
        obtain ⟨hfails, hfits, hshould, hstate⟩ := h.held t c' hmutex
        refine ⟨hfails, hfits, hshould, .inl ⟨left.drop n, if_pos rfl, hopen, ?_⟩⟩
        rcases hstate with ⟨left', hpc', -, hmsg⟩ | ⟨hpc', -⟩
        · cases hpc.symm.trans hpc'
          show s.pipe ++ left.take n ++ left.drop n = c'.message
          rw [List.append_assoc, List.take_append_drop]
          exact hmsg
        · cases hpc.symm.trans hpc'
      ended := fun code hcode => by cases hstatus.symm.trans hcode
      read := fun p hp => by cases hparent.symm.trans hp }

/-- A thread that goes to its exit: the one with the mutex, or any before the mutex is taken. -/
theorem TestInv.leave {s : TestProc Tid} {t : Tid} {code : Nat} {fdOpen : Bool} (h : TestInv s)
    (hpipe : s.pipe ≠ []) (hwho : s.mutex = none ∨
      ∃ c, s.mutex = some (t, c) ∧ code = 0 ∧ s.pipe = c.message)
    (hstatus : s.status = none) (hparent : s.parent = none) :
    TestInv { s.setThread t (.exiting code) with fdOpen := fdOpen } where
  failing := by grind [h.failing]
  quiet := fun hmutex _ t' c => by
    have hquiet := h.quiet hmutex hpipe t' c
    grind
  closed := fun _ => hpipe
  returned := fun t' hfree hpc' => by
    rw [threads_setThread] at hpc'
    split at hpc'
    · rename_i heq
      rcases hwho with hnone | ⟨c, hc, -⟩
      · exact ⟨hnone, hpipe⟩
      · exact absurd (heq ▸ hc) (hfree c)
    · exact h.returned t' hfree hpc'
  held := fun t' c' hmutex => by
    rcases hwho with hnone | ⟨c, hc, rfl, hmsg⟩
    · cases hnone.symm.trans hmutex
    · cases hc.symm.trans hmutex
      obtain ⟨hfails, hfits, hshould, -⟩ := h.held t c' hmutex
      exact ⟨hfails, hfits, hshould, .inr ⟨if_pos rfl, hmsg⟩⟩
  ended := fun code hcode => by cases hstatus.symm.trans hcode
  read := fun p hp => by cases hparent.symm.trans hp

omit [DecidableEq Tid] in
theorem TestInv.exit {s : TestProc Tid} {t : Tid} {code : Nat} (h : TestInv s)
    (hpc : s.threads t = .exiting code) (hparent : s.parent = none) :
    TestInv { s with status := some code } :=
  { h with
    ended := fun code' hcode => by
      cases hcode
      by_cases hholder : ∃ c, s.mutex = some (t, c)
      · obtain ⟨c, hc⟩ := hholder
        rcases (h.held t c hc).2.2.2 with ⟨left, hpc', -⟩ | ⟨hpc', hmsg⟩
        · cases hpc.symm.trans hpc'
        · cases hpc.symm.trans hpc'
          exact .inr ⟨t, c, hc, hmsg, rfl⟩
      · exact .inl (h.returned t (fun c hc => hholder ⟨c, hc⟩) (.inr ⟨code, hpc⟩))
    read := fun p hp => by cases hparent.symm.trans hp }

/-- A step of the process keeps the invariant. -/
theorem childStep_inv {s m : TestProc Tid} {a : TestAct Tid} (h : TestInv s) (hok : OneWriter s a)
    (hstatus : s.status = none) (hparent : s.parent = none) (hstep : childStep s a = some m) :
    TestInv m := by
  cases a with
  | call t c =>
    simp only [childStep] at hstep
    split at hstep
    · rename_i hpc
      cases hstep
      split
      · rename_i hfails
        exact h.setFailing hpc hfails (hok hfails) hstatus hparent
      · exact h
    · cases hstep
  | testLock t =>
    simp only [childStep] at hstep
    split at hstep
    · rename_i c hpc hmutex
      cases hstep
      exact h.testLock hpc hmutex (hok c hpc) hstatus hparent
    · cases hstep
  | testReturn leaks =>
    simp only [childStep] at hstep
    split at hstep
    · rename_i hpc
      cases hstep
      exact h.testReturn hpc (List.cons_ne_nil _ _) hstatus hparent
    · cases hstep
  | write t n =>
    simp only [childStep] at hstep
    split at hstep
    · rename_i left hpc
      split at hstep
      · cases hstep
      · rename_i hleft
        split at hstep
        · rename_i hclosed
          cases hstep
          refine h.leave (h.closed hclosed) (.inl ?_) hstatus hparent
          -- the thread with the mutex still has the pipe open
          by_contra hmutex
          obtain ⟨c, hc⟩ := hok (.inl hmutex)
          rcases (h.held t c hc).2.2.2 with ⟨left', -, hopen, -⟩ | ⟨hpc', -⟩
          · cases hclosed.symm.trans hopen
          · cases hpc.symm.trans hpc'
        · rename_i hopen
          split at hstep
          · rename_i hroom
            cases hstep
            exact h.write hpc hleft (Bool.not_eq_false _ ▸ hopen) hroom.1 hok hstatus hparent
          · cases hstep
    · cases hstep
  | close t =>
    simp only [childStep] at hstep
    split at hstep
    · rename_i hpc
      cases hstep
      by_cases hholder : ∃ c, s.mutex = some (t, c)
      · obtain ⟨c, hc⟩ := hholder
        rcases (h.held t c hc).2.2.2 with ⟨left, hpc', hopen, hmsg⟩ | ⟨hpc', -⟩
        · cases hpc.symm.trans hpc'
          rw [List.append_nil] at hmsg
          rw [if_pos hopen]
          exact h.leave (hmsg ▸ message_ne_nil c) (.inr ⟨c, hc, rfl, hmsg⟩) hstatus hparent
        · cases hpc.symm.trans hpc'
      · obtain ⟨hmutex, hpipe⟩ := h.returned t (fun c hc => hholder ⟨c, hc⟩) (.inl hpc)
        split
        · exact h.leave hpipe (.inl hmutex) hstatus hparent
        · exact h.leave hpipe (.inl hmutex) hstatus hparent
    · cases hstep
  | exit t =>
    simp only [childStep] at hstep
    split at hstep
    · rename_i code hpc
      cases hstep
      exact h.exit hpc hparent
    · cases hstep
  | reap => cases hstep
  | timeout killErr => cases hstep

/-! ## Runs -/

/-- A step of the process is taken while it lives and its parent waits. -/
theorem testStep_child {s m : TestProc Tid} {a : TestAct Tid} (hstep : testStep s a = some m)
    (hreap : a ≠ .reap) (htimeout : ∀ killErr, a ≠ .timeout killErr) :
    s.status = none ∧ s.parent = none ∧ childStep s a = some m := by
  cases a with
  | reap => exact absurd rfl hreap
  | timeout killErr => exact absurd rfl (htimeout killErr)
  | _ =>
    simp only [testStep] at hstep
    split at hstep
    · rename_i hstatus hparent
      exact ⟨hstatus, hparent, hstep⟩
    · cases hstep

omit [DecidableEq Tid] in
/-- Blocked on the pipe, no assertion has failed: its message would fit. -/
theorem TestInv.not_failed_of_blocked {s : TestProc Tid} (h : TestInv s) (hblocked : Blocked s) :
    ¬ Failed s := by
  obtain ⟨hfull, -, hwriting, hexiting, hfailing⟩ := hblocked
  intro hfailed
  cases hmutex : s.mutex with
  | none =>
    rcases hfailed with hne | ⟨t, c, hpc⟩
    · exact hne hmutex
    · exact hfailing hmutex t c hpc
  | some holder =>
    obtain ⟨t, c⟩ := holder
    obtain ⟨-, hfits, -, ⟨left, hpc, -, hmsg⟩ | ⟨hpc, -⟩⟩ := h.held t c hmutex
    · have hlen := congrArg List.length hmsg
      rw [List.length_append] at hlen
      have hleft : left = [] := List.length_eq_zero_iff.mp (by omega)
      exact hwriting t (hleft ▸ hpc)
    · exact hexiting t 0 hpc

/-- The parent reads the one message there is. -/
theorem chunitParentProcess_message {heap : Heap} {c : AssertCall} :
    ∃ p, Parent.chunitParentProcess heap (fun _ => true) false (.exited 0) false c.message = some p ∧
      p.tr.result = c.result ∧ c.ShownBy p.tr.data ∧ p.tr.errors = [] := by
  have hread := Parent.readResult_message (c := c)
    (p := { Parent.newTestRun heap (fun _ => true) c.message with wrOpen := false }) rfl
    (fun _ => rfl) rfl rfl
  exact hread

omit [DecidableEq Tid] in
/-- When the process ends after a failed assertion, its message is what the pipe holds. -/
theorem TestInv.message {s : TestProc Tid} {code : Nat} (h : TestInv s) (hfailed : Failed s)
    (hstatus : s.status = some code) :
    ∃ t c, s.mutex = some (t, c) ∧ s.pipe = c.message ∧ code = 0 := by
  rcases h.ended code hstatus with ⟨hmutex, hpipe⟩ | hmsg
  · rcases hfailed with hne | ⟨t, c, hpc⟩
    · exact absurd hmutex hne
    · exact absurd hpc (h.quiet hmutex hpipe t c)
  · exact hmsg

/-- **One step** of the process or its parent keeps the invariant. -/
theorem testStep_inv {s m : TestProc Tid} {a : TestAct Tid} (h : TestInv s) (htime : InTime s a)
    (hok : OneWriter s a) (hstep : testStep s a = some m) : TestInv m := by
  by_cases hreap : a = .reap
  · subst hreap
    simp only [testStep] at hstep
    split at hstep
    · rename_i code hstatus hparent
      obtain ⟨p, hp, rfl⟩ := Option.map_eq_some_iff.mp hstep
      refine { h with read := ?_ }
      rintro p' ⟨⟩
      by_cases hfailed : Failed s
      · obtain ⟨t, c, hmutex, hmsg, rfl⟩ := h.message hfailed hstatus
        obtain ⟨-, -, hshould, -⟩ := h.held t c hmutex
        obtain ⟨p', hp', hresult, hshown, herrors⟩ := @chunitParentProcess_message s.heap c
        rw [hshould, hmsg] at hp
        cases hp.symm.trans hp'
        exact .inr ⟨t, c, hmutex, hresult, hshown, herrors⟩
      · exact .inl hfailed
    · cases hstep
  by_cases htimeout : ∃ killErr, a = .timeout killErr
  · obtain ⟨killErr, rfl⟩ := htimeout
    simp only [testStep] at hstep
    split at hstep
    · obtain ⟨p, hp, rfl⟩ := Option.map_eq_some_iff.mp hstep
      exact { h with read := fun p _ => .inl (h.not_failed_of_blocked htime) }
    · cases hstep
  · obtain ⟨hstatus, hparent, hchild⟩ := testStep_child hstep hreap fun killErr heq => htimeout ⟨killErr, heq⟩
    exact childStep_inv h hok hstatus hparent hchild

/-- The run lemma. -/
theorem testInv_reach {main : Tid} {shouldFail : Bool} {cap : Nat} {heap : Heap} {s : TestProc Tid}
    (h : Reaches testStep (fun s a => InTime s a ∧ OneWriter s a) (.new main shouldFail cap heap) s) :
    TestInv s :=
  h.invariant (fun _ _ _ hm hok hstep => testStep_inv hm hok.1 hok.2 hstep) testInv_new

/-- Until the parent has returned, the holder of the mutex, or the parent, has a step to take. -/
theorem TestInv.progress {s : TestProc Tid} (h : TestInv s) (hfailed : Failed s) (hparent : s.parent = none) :
    ∃ a m, (∀ t c, a ≠ .call t c) ∧ (∀ leaks, a ≠ .testReturn leaks) ∧ testStep s a = some m := by
  cases hstatus : s.status with
  | some code =>
    obtain ⟨t, c, hmutex, hmsg, rfl⟩ := h.message hfailed hstatus
    obtain ⟨-, -, hshould, -⟩ := h.held t c hmutex
    obtain ⟨p, hp, -⟩ := @chunitParentProcess_message s.heap c
    exact ⟨.reap, _, nofun, nofun, by simp only [testStep, hstatus, hparent, hshould, hmsg, hp]; rfl⟩
  | none =>
    cases hmutex : s.mutex with
    | none =>
      obtain ⟨t, c, hpc⟩ := hfailed.resolve_left fun hne => hne hmutex
      exact ⟨.testLock t, _, nofun, nofun,
        by simp only [testStep, childStep, hstatus, hparent, hpc, hmutex]; rfl⟩
    | some holder =>
      obtain ⟨t, c⟩ := holder
      obtain ⟨-, hfits, -, ⟨left, hpc, hopen, hmsg⟩ | ⟨hpc, -⟩⟩ := h.held t c hmutex
      · have hlen := congrArg List.length hmsg
        rw [List.length_append] at hlen
        cases left with
        | nil =>
          exact ⟨.close t, _, nofun, nofun, by simp only [testStep, childStep, hstatus, hparent, hpc]; rfl⟩
        | cons b left =>
          rw [List.length_cons] at hlen
          have hstep : testStep s (.write t 1) = some { s.setThread t (.writing ((b :: left).drop 1)) with
              pipe := s.pipe ++ (b :: left).take 1 } := by
            simp only [testStep, childStep, hstatus, hparent, hpc]
            rw [if_neg (List.cons_ne_nil b left), if_neg (by rw [hopen]; exact Bool.noConfusion),
              if_pos ⟨Nat.one_pos, by rw [List.length_cons]; omega, by omega⟩]
          exact ⟨.write t 1, _, nofun, nofun, hstep⟩
      · exact ⟨.exit t, _, nofun, nofun, by simp only [testStep, childStep, hstatus, hparent, hpc]; rfl⟩

theorem TestInv.outcomeOk {s : TestProc Tid} (h : TestInv s) (hfailed : Failed s) : OutcomeOk s where
  message := fun code hcode => by
    obtain ⟨t, c, hmutex, hmsg, hzero⟩ := h.message hfailed hcode
    exact ⟨t, c, hmutex, (h.held t c hmutex).1, hmsg, hzero⟩
  run := fun p hp => by
    rcases h.read p hp with hnot | ⟨t, c, hmutex, hresult, hshown, herrors⟩
    · exact absurd hfailed hnot
    · exact ⟨t, c, hmutex, (h.held t c hmutex).1, hresult, hshown, herrors⟩
  progress := h.progress hfailed

/-! ## The way to the parent's return -/

omit [DecidableEq Tid] in
theorem work_held {s : TestProc Tid} {t : Tid} {c : AssertCall} (hparent : s.parent = none)
    (hstatus : s.status = none) (hmutex : s.mutex = some (t, c)) :
    s.work = match s.threads t with
      | .writing left => WithTop.some (left.length + 3)
      | .exiting _ => WithTop.some 2
      | _ => ⊤ := by
  simp only [TestProc.work, hparent, hstatus, hmutex]

omit [DecidableEq Tid] in
/-- Once an assertion has failed, the thread past the test's code is the one with the mutex. -/
theorem TestInv.holder {s : TestProc Tid} {t : Tid} (h : TestInv s) (hfailed : Failed s)
    (hpc : s.threads t = .writing [] ∨ ∃ code, s.threads t = .exiting code) :
    ∃ c, s.mutex = some (t, c) := by
  by_contra hnot
  obtain ⟨hmutex, hpipe⟩ := h.returned t (fun c hc => hnot ⟨c, hc⟩) hpc
  rcases hfailed with hne | ⟨t', c, hpc'⟩
  · exact hne hmutex
  · exact h.quiet hmutex hpipe t' c hpc'

/-- A thread in the test's code leaves the work as it is. -/
theorem TestInv.work_setThread {s : TestProc Tid} {t : Tid} {pc : TestPc} (h : TestInv s)
    (hpc : s.threads t = .running) (hstatus : s.status = none) (hparent : s.parent = none) :
    (s.setThread t pc).work = s.work := by
  cases hmutex : s.mutex with
  | none => simp only [TestProc.work, TestProc.setThread, hparent, hstatus, hmutex]
  | some holder =>
    obtain ⟨t', c⟩ := holder
    have hne := h.ne_holder hmutex (t := t) (by rw [hpc]; nofun) (by rw [hpc]; nofun)
    simp only [TestProc.work, TestProc.setThread, hparent, hstatus, hmutex, if_neg hne]

/-- **Every step past the test's code is a step to the parent's return.** -/
theorem TestInv.work_lt {s m : TestProc Tid} {a : TestAct Tid} (h : TestInv s) (hfailed : Failed s)
    (htime : InTime s a) (hok : OneWriter s a) (hstep : testStep s a = some m) :
    m.work < s.work ∨ m.work = s.work ∧ ((∃ t c, a = .call t c) ∨ ∃ leaks, a = .testReturn leaks) := by
  cases a with
  | call t c =>
    obtain ⟨hstatus, hparent, hchild⟩ := testStep_child hstep nofun nofun
    simp only [childStep] at hchild
    split at hchild
    · rename_i hpc
      cases hchild
      refine .inr ⟨?_, .inl ⟨t, c, rfl⟩⟩
      split
      · exact h.work_setThread hpc hstatus hparent
      · rfl
    · cases hchild
  | testReturn leaks =>
    obtain ⟨hstatus, hparent, hchild⟩ := testStep_child hstep nofun nofun
    simp only [childStep] at hchild
    split at hchild
    · rename_i hpc
      cases hchild
      exact .inr ⟨h.work_setThread hpc hstatus hparent, .inr ⟨leaks, rfl⟩⟩
    · cases hchild
  | testLock t =>
    obtain ⟨hstatus, hparent, hchild⟩ := testStep_child hstep nofun nofun
    simp only [childStep] at hchild
    split at hchild
    · rename_i c hpc hmutex
      cases hchild
      left
      simp only [TestProc.work, TestProc.setThread, hparent, hstatus, hmutex, if_true]
      exact WithTop.coe_lt_top _
    · cases hchild
  | write t n =>
    obtain ⟨hstatus, hparent, hchild⟩ := testStep_child hstep nofun nofun
    obtain ⟨c, hmutex⟩ := hok hfailed
    simp only [childStep] at hchild
    split at hchild
    · rename_i left hpc
      obtain ⟨-, -, -, ⟨left', -, hopen, -⟩ | ⟨hpc', -⟩⟩ := h.held t c hmutex
      · split at hchild
        · cases hchild
        · rename_i hleft
          have hlen := List.length_pos_iff.mpr hleft
          rw [if_neg (by rw [hopen]; exact Bool.noConfusion)] at hchild
          split at hchild
          · rename_i hroom
            cases hchild
            left
            rw [work_held hparent hstatus hmutex, hpc]
            simp only [TestProc.work, TestProc.setThread, hparent, hstatus, hmutex, if_true,
              WithTop.coe_lt_coe, List.length_drop]
            omega
          · cases hchild
      · cases hpc.symm.trans hpc'
    · cases hchild
  | close t =>
    obtain ⟨hstatus, hparent, hchild⟩ := testStep_child hstep nofun nofun
    simp only [childStep] at hchild
    split at hchild
    · rename_i hpc
      obtain ⟨c, hmutex⟩ := h.holder hfailed (.inl hpc)
      have hwork : s.work = WithTop.some 3 := by
        rw [work_held hparent hstatus hmutex, hpc]
        rfl
      cases hchild
      left
      rw [hwork]
      split <;> simp only [TestProc.work, TestProc.setThread, hparent, hstatus, hmutex, if_true,
        WithTop.coe_lt_coe] <;> decide
    · cases hchild
  | exit t =>
    obtain ⟨hstatus, hparent, hchild⟩ := testStep_child hstep nofun nofun
    simp only [childStep] at hchild
    split at hchild
    · rename_i code hpc
      obtain ⟨c, hmutex⟩ := h.holder hfailed (.inr ⟨code, hpc⟩)
      cases hchild
      left
      rw [work_held hparent hstatus hmutex, hpc]
      simp only [TestProc.work, hparent, WithTop.coe_lt_coe]
      decide
    · cases hchild
  | reap =>
    simp only [testStep] at hstep
    split at hstep
    · rename_i code hstatus hparent
      obtain ⟨p, -, rfl⟩ := Option.map_eq_some_iff.mp hstep
      left
      simp only [TestProc.work, hparent, hstatus, WithTop.coe_lt_coe]
      decide
    · cases hstep
  | timeout killErr => exact absurd hfailed (h.not_failed_of_blocked htime)

/-- What the parent returns, in any run: data exactly for a failed comparison, and `delete` gives
back every block of the run and no other. -/
def RunOwned (s : TestProc Tid) : Prop :=
  ∀ p, s.parent = some p → (p.tr.data.isSome = true ↔ p.tr.result.hasData = true) ∧
    ∃ h', chunitDeleteTestRun p.tr p.heap = some h' ∧ h'.live.Perm s.heap.live

/-- The parent's return is the only step that makes a run. -/
theorem testStep_runOwned {s m : TestProc Tid} {a : TestAct Tid}
    (hstep : testStep s a = some m) : RunOwned m := by
  have hreturn : ∀ {p : Parent} {shouldFail killErr : Bool} {wait : WaitRes} {pipe : List UInt8},
      Parent.chunitParentProcess s.heap (fun _ => true) shouldFail wait killErr pipe = some p →
        RunOwned { s with parent := some p } := by
    rintro p shouldFail killErr wait pipe hp p' ⟨⟩
    have hsettles :=
      Parent.chunitParentProcess_settles s.heap (fun _ => true) shouldFail wait killErr pipe
    have hserved := by_contra fun hnot => by cases hp.symm.trans (hsettles.exits hnot)
    obtain ⟨p', hp', hown, hfits⟩ := hsettles.settles hserved
    cases hp.symm.trans hp'
    exact ⟨hfits.isSome_iff, chunitDeleteTestRun_of_owns hown hfits⟩
  by_cases hreap : a = .reap
  · subst hreap
    simp only [testStep] at hstep
    split at hstep
    · obtain ⟨p, hp, rfl⟩ := Option.map_eq_some_iff.mp hstep
      exact hreturn hp
    · cases hstep
  by_cases htimeout : ∃ killErr, a = .timeout killErr
  · obtain ⟨killErr, rfl⟩ := htimeout
    simp only [testStep] at hstep
    split at hstep
    · obtain ⟨p, hp, rfl⟩ := Option.map_eq_some_iff.mp hstep
      exact hreturn hp
    · cases hstep
  · obtain ⟨-, hparent, hchild⟩ := testStep_child hstep hreap fun killErr heq => htimeout ⟨killErr, heq⟩
    have hnone : m.parent = none := by
      cases a <;> simp only [childStep] at hchild <;> grind [TestProc.setThread]
    intro p hp
    cases hnone.symm.trans hp

/-- **A failed assertion's outcome survives** every run with one writer whose message fits the pipe:
it is the one message in the pipe, the parent makes of it that assertion's result and data, and the
parent returns after a bounded number of steps past the test's code. In any run at all the data are
there exactly for a failed comparison, and `chunit_delete_test_run` frees what was allocated. -/
theorem outcome_survives (main : Tid) (shouldFail : Bool) (cap : Nat) (heap : Heap) :
    (∀ s, Reaches testStep (fun s a => InTime s a ∧ OneWriter s a) (.new main shouldFail cap heap) s →
      Failed s → OutcomeOk s ∧ ∀ a m, InTime s a → OneWriter s a → testStep s a = some m →
        m.work < s.work ∨
          m.work = s.work ∧ ((∃ t c, a = .call t c) ∨ ∃ leaks, a = .testReturn leaks)) ∧
      ∀ s, Reaches testStep InTime (.new main shouldFail cap heap) s → RunOwned s := by
  constructor
  · intro s hreach hfailed
    have hinv := testInv_reach hreach
    exact ⟨hinv.outcomeOk hfailed, fun a m htime hok hstep => hinv.work_lt hfailed htime hok hstep⟩
  · intro s hreach
    have hstep : ∀ (m : TestProc Tid) (a : TestAct Tid) (m' : TestProc Tid), RunOwned m → InTime m a →
        testStep m a = some m' → RunOwned m' :=
      fun _ _ _ _ _ hstep => testStep_runOwned hstep
    exact hreach.invariant hstep nofun

/-- The condition of `outcome_survives`, checked. -/
def oneWriter (s : TestProc (Fin 2)) : TestAct (Fin 2) → Bool
  | .call _ c => !c.fails || s.mutex.isSome || s.pipe = []
  | .testLock t => match s.threads t with
    | .failing c => c.message.length ≤ s.cap && !s.shouldFail
    | _ => true
  | .write t _ => match s.mutex with
    | some (t', _) => t' = t
    | none => false
  | .timeout _ => false
  | _ => true

theorem oneWriter_sound {s : TestProc (Fin 2)} {a : TestAct (Fin 2)} (h : oneWriter s a = true) :
    InTime s a ∧ OneWriter s a := by
  cases a with
  | call t c =>
    refine ⟨trivial, fun hfails hmutex => ?_⟩
    simpa [oneWriter, hfails, hmutex] using h
  | testLock t =>
    refine ⟨trivial, fun c hpc => ?_⟩
    simpa [oneWriter, hpc] using h
  | write t n =>
    refine ⟨trivial, fun _ => ?_⟩
    cases hmutex : s.mutex with
    | none => simp [oneWriter, hmutex] at h
    | some holder =>
      obtain ⟨t', c⟩ := holder
      have heq : t' = t := by simpa [oneWriter, hmutex] using h
      exact ⟨c, by rw [heq]⟩
  | timeout killErr => cases h
  | _ => exact ⟨trivial, trivial⟩

/-- The comparison of `"a"` with `"bc"`. -/
def strsCall : AssertCall :=
  .assertEqStr ⟨[97], by decide, by decide⟩ ⟨[98, 99], by decide, by decide⟩

/-- A thread compares two strings while the main thread is in the test. -/
theorem outcome_survives_strs : ∃ s p, Reaches testStep (fun s a => InTime s a ∧ OneWriter s a)
    (.new (0 : Fin 2) false 65536 ⟨0, [], nofun, List.nodup_nil⟩) s ∧ s.parent = some p ∧
      p.tr.result = .assertEqStrFail ∧ strsCall.ShownBy p.tr.data ∧ p.tr.errors = [] ∧ RunOwned s := by
  let acts : List (TestAct (Fin 2)) :=
    [.call 0 (.assertTrue 1), .call 1 strsCall, .testLock 1, .write 1 20, .write 1 5, .close 1, .exit 1,
      .reap]
  obtain ⟨s, hexec, hmutex, hparent⟩ : ∃ s,
      exec testStep oneWriter (TestProc.new (0 : Fin 2) false 65536 ⟨0, [], nofun, List.nodup_nil⟩) acts =
          some s ∧ s.mutex = some (1, strsCall) ∧ s.parent.isSome = true :=
    ⟨_, rfl, rfl, rfl⟩
  obtain ⟨p, hp⟩ := Option.isSome_iff_exists.mp hparent
  have hreach := reaches_of_exec (fun _ _ => oneWriter_sound) acts hexec
  obtain ⟨hsurvives, howned⟩ := outcome_survives (0 : Fin 2) false 65536 ⟨0, [], nofun, List.nodup_nil⟩
  have hfailed : Failed s := .inl fun hnone => by cases hnone.symm.trans hmutex
  obtain ⟨t, c, hheld, -, hresult, hshown, herrors⟩ := (hsurvives s hreach hfailed).1.run p hp
  cases hmutex.symm.trans hheld
  exact ⟨s, p, hreach, hp, hresult, hshown, herrors,
    howned s (hreach.weaken fun _ _ hok => hok.1)⟩

/-- A thread's assertion fails while the main thread returns from the test: the main thread does not
take the mutex, and the parent returns `CHUNIT_SUCCESS`. -/
theorem failed_test_succeeds :
    ¬ ∀ s, Reaches testStep InTime (.new (0 : Fin 2) false 65536 ⟨0, [], nofun, List.nodup_nil⟩) s →
      Failed s → OutcomeOk s := by
  intro h
  let acts : List (TestAct (Fin 2)) :=
    [.call 1 (.assertTrue 0), .testReturn false, .write 0 4, .close 0, .exit 0, .reap]
  let check : TestProc (Fin 2) → TestAct (Fin 2) → Bool := fun _ a => match a with
    | .timeout _ => false
    | _ => true
  have hsound : ∀ m a, check m a = true → InTime m a := by
    intro m a ha
    cases a with
    | timeout killErr => cases ha
    | _ => trivial
  obtain ⟨s, hexec, hpc, hmutex, hparent⟩ : ∃ s,
      exec testStep check (TestProc.new (0 : Fin 2) false 65536 ⟨0, [], nofun, List.nodup_nil⟩) acts =
          some s ∧
        s.threads 1 = .failing (.assertTrue 0) ∧ s.mutex = none ∧ s.parent.isSome = true :=
    ⟨_, rfl, rfl, rfl, rfl⟩
  obtain ⟨p, hp⟩ := Option.isSome_iff_exists.mp hparent
  obtain ⟨t, c, hheld, -⟩ := (h s (reaches_of_exec hsound acts hexec) (.inr ⟨1, _, hpc⟩)).run p hp
  cases hmutex.symm.trans hheld

/-- A message longer than the pipe keeps its writer waiting for a parent that waits for the writer:
the parent returns a timeout. -/
theorem long_message_times_out {main : Tid} {shouldFail : Bool} {cap : Nat} {heap : Heap}
    {c : AssertCall} (hfails : c.fails = true) (hcap : 0 < cap) (hlong : cap < c.message.length) :
    ∃ s p, Reaches testStep InTime (.new main shouldFail cap heap) s ∧ Failed s ∧ s.parent = some p ∧
      p.tr.result = .timeout := by
  let start : TestProc Tid := .new main shouldFail cap heap
  let failing := start.setThread main (.failing c)
  let locked : TestProc Tid :=
    { failing.setThread main (.writing c.message) with mutex := some (main, c) }
  let full : TestProc Tid :=
    { locked.setThread main (.writing (c.message.drop cap)) with pipe := c.message.take cap }
  have hmain : ∀ {s : TestProc Tid} {pc : TestPc}, (s.setThread main pc).threads main = pc :=
    fun {s pc} => if_pos rfl
  have hleft : c.message.drop cap ≠ [] := by
    intro hnil
    have hle := List.drop_eq_nil_iff.mp hnil
    omega
  have hfailing : testStep start (.call main c) = some failing := congrArg some (if_pos hfails)
  have hlocked : testStep failing (.testLock main) = some locked := by
    show childStep failing (.testLock main) = some locked
    simp only [childStep, failing, hmain]
    rfl
  have hfull : testStep locked (.write main cap) = some full := by
    show childStep locked (.write main cap) = some full
    have hpc : locked.threads main = .writing c.message := hmain
    simp only [childStep, hpc]
    have hopen : ¬ locked.fdOpen = false := Bool.noConfusion
    have hroom : 0 < cap ∧ cap ≤ c.message.length ∧ locked.pipe.length + cap ≤ locked.cap :=
      ⟨hcap, Nat.le_of_lt hlong, Nat.le_of_eq (Nat.zero_add cap)⟩
    rw [if_neg (message_ne_nil c), if_neg hopen, if_pos hroom]
    rfl
  have hpcs : ∀ t, full.threads t = .writing (c.message.drop cap) ∨ full.threads t = .running := by
    intro t
    by_cases ht : t = main
    · subst ht
      exact .inl hmain
    · exact .inr (by simp only [full, locked, failing, start, threads_setThread, if_neg ht]; rfl)
  have hblocked : Blocked full := by
    refine ⟨?_, ⟨main, _, hmain, hleft⟩, fun t hpc => ?_, fun t code hpc => ?_, nofun⟩
    · show cap ≤ (c.message.take cap).length
      rw [List.length_take_of_le (Nat.le_of_lt hlong)]
    · rcases hpcs t with hw | hr
      · exact hleft (TestPc.writing.inj (hw.symm.trans hpc))
      · cases hr.symm.trans hpc
    · rcases hpcs t with hw | hr
      · cases hw.symm.trans hpc
      · cases hr.symm.trans hpc
  obtain ⟨p, hp, -⟩ := (Parent.chunitParentProcess_settles heap (fun _ => true) shouldFail .timeout false
    full.pipe).settles nofun
  have htimeout : testStep full (.timeout false) = some { full with parent := some p } := by
    have hstatus : full.status = none := rfl
    have hparent : full.parent = none := rfl
    simp only [testStep, hstatus, hparent]
    exact congrArg (Option.map fun p => { full with parent := some p }) hp
  have hcalled : Reaches testStep InTime start failing :=
    (Reaches.refl _).snoc (a := TestAct.call main c) trivial hfailing
  have hwaiting : Reaches testStep InTime start full :=
    (hcalled.snoc (a := TestAct.testLock main) trivial hlocked).snoc
      (a := TestAct.write main cap) trivial hfull
  have htime : InTime full (.timeout false) := hblocked
  refine ⟨_, p, hwaiting.snoc htime htimeout, .inl nofun, rfl, ?_⟩
  cases hp
  rfl

end Chvm.Testing
