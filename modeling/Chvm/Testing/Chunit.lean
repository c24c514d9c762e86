import Mathlib.Data.List.Perm.Basic
import Chvm.Lib.Wire

/-!
# The parent of a test (`chunit.c`)

`chunit_parent_process` waits for the test's process, reads one message from the pipe and makes a
test run of it; `chunit_delete_test_run` gives the run's buffers back. Buffers are blocks of a heap
that knows which of its blocks are live, so that a block freed twice is a fault. The sizes of two strings
come from the pipe, and where the host has no memory for them the parent ends in `safe_exit`.
-/

set_option autoImplicit false

namespace Chvm.Testing

open Chvm.Lib

inductive TestResult
  | void
  | success
  | assertTrueFail
  | assertFalseFail
  | assertNonNullFail
  | assertEqPtrFail
  | assertEqIntFail
  | assertEqUintFail
  | assertEqCharFail
  | assertEqStrFail
  | memoryLeak
  | timeout
  | unexpectedCompletion
  | fatalError
deriving DecidableEq, Repr

namespace TestResult

/-- The constants in the order of the `enum`. -/
def all : List TestResult :=
  [.void, .success, .assertTrueFail, .assertFalseFail, .assertNonNullFail, .assertEqPtrFail,
    .assertEqIntFail, .assertEqUintFail, .assertEqCharFail, .assertEqStrFail, .memoryLeak, .timeout,
    .unexpectedCompletion, .fatalError]

def code (r : TestResult) : Nat := all.idxOf r

def ofCode (n : Nat) : Option TestResult := all[n]?

theorem ofCode_code (r : TestResult) : ofCode r.code = some r := by
  cases r <;> rfl

theorem ofCode_eq_some {n : Nat} {r : TestResult} (h : ofCode n = some r) : n = r.code := by
  obtain ⟨hlt, rfl⟩ := List.getElem?_eq_some_iff.mp h
  have hnodup : all.Nodup := by decide
  exact (hnodup.idxOf_getElem n hlt).symm

theorem code_lt (r : TestResult) : r.code < 256 ^ 4 := by
  cases r <;> decide

/-- The size of one value of a simple comparison. -/
def cmprSize : TestResult → Option Nat
  | .assertEqPtrFail | .assertEqIntFail | .assertEqUintFail => some 8
  | .assertEqCharFail => some 1
  | _ => none

/-- The results that come with data. -/
def hasData (r : TestResult) : Bool := r.cmprSize.isSome || r == .assertEqStrFail

end TestResult

inductive FrameworkError
  | pipeError
  | mutexError
  | forkError
  | badTestResult
  | terminationError
deriving DecidableEq, Repr

def pipeErrorExitCode : Nat := 3

def mutexErrorExitCode : Nat := 4

/-! ## Buffers -/

/-- The blocks of `MEM_CHNL_TESTING`: those given out and not freed. -/
structure Heap where
  next : Nat
  live : List Nat
  lt_next : ∀ b ∈ live, b < next
  nodup : live.Nodup

namespace Heap

/-- `safe_malloc` of the sizes the framework fixes itself, for which the host has memory. -/
def safeMalloc (h : Heap) : Nat × Heap :=
  (h.next,
    { next := h.next + 1
      live := h.next :: h.live
      lt_next := fun b hb => by
        rcases List.mem_cons.mp hb with rfl | hb
        · exact Nat.lt_succ_self _
        · exact Nat.lt_succ_of_lt (h.lt_next b hb)
      nodup := List.nodup_cons.mpr ⟨fun hb => Nat.lt_irrefl _ (h.lt_next _ hb), h.nodup⟩ })

/-- `safe_free`; `none` when the block is not live. -/
def safeFree (h : Heap) (b : Nat) : Option Heap :=
  if b ∈ h.live then
    some
      { next := h.next
        live := h.live.erase b
        lt_next := fun c hc => h.lt_next c (List.mem_of_mem_erase hc)
        nodup := h.nodup.erase b }
  else none

/-- A live block is freed, and it alone. -/
theorem safeFree_of_perm {h : Heap} {b : Nat} {l : List Nat} (hlive : h.live.Perm (b :: l)) :
    ∃ h', h.safeFree b = some h' ∧ h'.live.Perm l := by
  have hmem : b ∈ h.live := hlive.mem_iff.mpr List.mem_cons_self
  refine ⟨_, if_pos hmem, ?_⟩
  have herase := hlive.erase b
  rw [List.erase_cons_head] at herase
  exact herase

end Heap

/-! ## The test run -/

/-- What `data` points to: the two values of a comparison in one buffer, or the buffer of the
pointers to two strings, with the strings' own buffers and bytes. -/
inductive RunData
  | cmpr (buf : Nat) (bytes : List UInt8)
  | strs (buf expectedBuf actualBuf : Nat) (expected actual : List UInt8)
deriving DecidableEq, Repr

/-- `chunit_test_run`, its error list unfolded into it. The fields in `...Buf` are the blocks. -/
structure TestRun where
  selfBuf : Nat
  errorsBuf : Nat
  errorsArr : Nat
  errorsCap : Nat
  errors : List FrameworkError
  result : TestResult
  data : Option RunData
deriving DecidableEq, Repr

def RunData.blocks : RunData → List Nat
  | .cmpr buf _ => [buf]
  | .strs buf expectedBuf actualBuf _ _ => [expectedBuf, actualBuf, buf]

/-- Every block of the run. -/
def TestRun.blocks (tr : TestRun) : List Nat :=
  (tr.data.map RunData.blocks).getD [] ++ [tr.errorsArr, tr.errorsBuf, tr.selfBuf]

/-- The `switch` of `chunit_delete_test_run`. It looks at the result to tell what is in `data`; `none`
when it would free what is not live, or read a `data` that is not there. -/
def freeData (tr : TestRun) (h : Heap) : Option Heap :=
  if tr.result = .assertEqStrFail then
    match tr.data with
    | some (.strs buf expectedBuf actualBuf _ _) =>
      ((h.safeFree expectedBuf).bind (·.safeFree actualBuf)).bind (·.safeFree buf)
    | _ => none
  else if tr.result.cmprSize.isSome then
    match tr.data with
    | some (.cmpr buf _) => h.safeFree buf
    | _ => none
  else some h

/-- `chunit_delete_test_run`. -/
def chunitDeleteTestRun (tr : TestRun) (h : Heap) : Option Heap :=
  (freeData tr h).bind fun h => (h.safeFree tr.errorsArr).bind fun h =>
    (h.safeFree tr.errorsBuf).bind fun h => h.safeFree tr.selfBuf

/-! ## The parent -/

/-- How `safe_waitpid_timed` returned: with the child's status, a timeout, or an error. -/
inductive WaitRes
  | exited (code : Nat)
  | signaled
  | timeout
  | err
deriving DecidableEq, Repr

/-- The parent's side: its run, the heap, whether the host has a block of so many bytes, the bytes it can
still read, and which ends of the pipe it has open. -/
structure Parent where
  tr : TestRun
  heap : Heap
  mem : Nat → Bool
  pipe : List UInt8
  rdOpen : Bool
  wrOpen : Bool

/-- The block `safe_malloc` asks for, with the byte of the channel in it, does not wrap, and the host has
it. -/
def Serves (mem : Nat → Bool) (size : Nat) : Prop := size + 1 < 2 ^ 64 ∧ mem (size + 1) = true

instance (mem : Nat → Bool) (size : Nat) : Decidable (Serves mem size) :=
  inferInstanceAs (Decidable (_ ∧ _))

namespace Parent

/-- `new_test_run`, with both ends of the pipe open. -/
def newTestRun (h : Heap) (mem : Nat → Bool) (pipe : List UInt8) : Parent :=
  let (selfBuf, h) := h.safeMalloc
  let (errorsBuf, h) := h.safeMalloc
  let (errorsArr, h) := h.safeMalloc
  { tr := { selfBuf, errorsBuf, errorsArr, errorsCap := 1, errors := [], result := .void, data := none }
    heap := h
    mem
    pipe
    rdOpen := true
    wrOpen := true }

/-- `fl_add`: a full list is reallocated at twice its size. -/
def flAdd (p : Parent) (err : FrameworkError) : Option Parent :=
  if p.tr.errors.length = p.tr.errorsCap then
    (p.heap.safeFree p.tr.errorsArr).map fun h =>
      let (errorsArr, h) := h.safeMalloc
      { p with
        heap := h
        tr := { p.tr with errors := p.tr.errors ++ [err], errorsArr, errorsCap := p.tr.errorsCap * 2 } }
  else some { p with tr := { p.tr with errors := p.tr.errors ++ [err] } }

def setResult (p : Parent) (r : TestResult) : Parent := { p with tr := { p.tr with result := r } }

/-- `attempt_safe_close` of the read end: a close of an end that is not open fails. -/
def attemptSafeClose (p : Parent) : Option Parent :=
  if p.rdOpen then some { p with rdOpen := false } else p.flAdd .pipeError

/-- `attempt_safe_kill_and_reap`. -/
def attemptSafeKillAndReap (p : Parent) (killErr : Bool) : Option Parent :=
  if killErr then p.flAdd .terminationError else some p

/-- `safe_read` on a pipe no writer has open any more: the bytes asked for, or end of file. The count is
an `ssize_t` in it, and of a negative one no byte is read. -/
def safeRead (p : Parent) (n : Nat) : Option (List UInt8) × Parent :=
  if 2 ^ 63 ≤ n then (some [], p)
  else if n ≤ p.pipe.length then (some (p.pipe.take n), { p with pipe := p.pipe.drop n })
  else (none, { p with pipe := [] })

def safeMalloc (p : Parent) : Nat × Parent := (p.heap.safeMalloc.1, { p with heap := p.heap.safeMalloc.2 })

/-- `safe_malloc` of a size from the pipe; `none` when the process ends in `safe_exit`, or writes the
channel behind a block of no bytes. -/
def safeMallocOf (p : Parent) (size : Nat) : Option (Nat × Parent) :=
  if Serves p.mem size then some p.safeMalloc else none

def safeFree (p : Parent) (b : Nat) : Option Parent := (p.heap.safeFree b).map fun h => { p with heap := h }

def attemptReadCmprAndClose (p : Parent) (res : TestResult) (size : Nat) : Option Parent :=
  let (buf, p) := p.safeMalloc
  match p.safeRead (size * 2) with
  | (none, p) => (p.flAdd .pipeError).bind (·.safeFree buf)
  | (some bytes, p) =>
    ({ p with tr := { p.tr with data := some (.cmpr buf bytes), result := res } } : Parent).attemptSafeClose

/-- One of two strings, in a buffer of its own. -/
def readStr (p : Parent) (size : Nat) : Option (Nat × Option (List UInt8) × Parent) :=
  (p.safeMallocOf size).map fun (buf, p) => (buf, p.safeRead size)

/-- The second string, when the first has been read. -/
def readActualAndClose (p : Parent) (expectedBuf : Nat) (expected : List UInt8) (size : Nat) :
    Option Parent :=
  (p.readStr size).bind fun
    | (actualBuf, none, p) =>
      ((p.flAdd .pipeError).bind (·.safeFree expectedBuf)).bind (·.safeFree actualBuf)
    | (actualBuf, some actual, p) =>
      let (buf, p) := p.safeMalloc
      ({ p with tr := { p.tr with
          data := some (.strs buf expectedBuf actualBuf expected actual)
          result := .assertEqStrFail } } : Parent).attemptSafeClose

/-- The case of two strings: their sizes, then each in a buffer of its own. -/
def readStrsAndClose (p : Parent) : Option Parent :=
  match p.safeRead 16 with
  | (none, p) => p.flAdd .pipeError
  | (some sizes, p) =>
    (p.readStr (ofLe (sizes.take 8))).bind fun
      | (expectedBuf, none, p) => (p.flAdd .pipeError).bind (·.safeFree expectedBuf)
      | (expectedBuf, some expected, p) =>
        p.readActualAndClose expectedBuf expected (ofLe (sizes.drop 8))

/-- The results are read from the pipe and interpreted. -/
def readResult (p : Parent) : Option Parent :=
  match p.safeRead 4 with
  | (none, p) => p.flAdd .pipeError
  | (some tag, p) =>
    match TestResult.ofCode (ofLe tag) with
    | some .success => (p.setResult .success).attemptSafeClose
    | some .memoryLeak => (p.setResult .memoryLeak).attemptSafeClose
    | some .assertTrueFail => (p.setResult .assertTrueFail).attemptSafeClose
    | some .assertFalseFail => (p.setResult .assertFalseFail).attemptSafeClose
    | some .assertNonNullFail => (p.setResult .assertNonNullFail).attemptSafeClose
    | some .assertEqPtrFail => p.attemptReadCmprAndClose .assertEqPtrFail 8
    | some .assertEqIntFail => p.attemptReadCmprAndClose .assertEqIntFail 8
    | some .assertEqUintFail => p.attemptReadCmprAndClose .assertEqUintFail 8
    | some .assertEqCharFail => p.attemptReadCmprAndClose .assertEqCharFail 1
    | some .assertEqStrFail => p.readStrsAndClose
    | _ => (p.flAdd .badTestResult).bind attemptSafeClose

/-- `chunit_parent_process` from the return of the wait on. -/
def afterWait (p : Parent) (shouldFail : Bool) (killErr : Bool) : WaitRes → Option Parent
  | .err => (p.flAdd .terminationError).bind attemptSafeClose
  | .timeout => ((p.setResult .timeout).attemptSafeKillAndReap killErr).bind attemptSafeClose
  | .signaled => (p.setResult .fatalError).attemptSafeClose
  | .exited code =>
    if code = pipeErrorExitCode then p.flAdd .pipeError
    else if code = mutexErrorExitCode then (p.flAdd .mutexError).bind attemptSafeClose
    else if 0 < code then
      (p.setResult (if shouldFail then .success else .fatalError)).attemptSafeClose
    else if shouldFail then (p.setResult .unexpectedCompletion).attemptSafeClose
    else p.readResult

/-- `chunit_parent_process`, with the system's answers and the bytes the child left in the pipe. -/
def chunitParentProcess (h : Heap) (mem : Nat → Bool) (shouldFail : Bool) (wait : WaitRes) (killErr : Bool)
    (pipe : List UInt8) : Option Parent :=
  let p := newTestRun h mem pipe
  if p.wrOpen then ({ p with wrOpen := false } : Parent).afterWait shouldFail killErr wait
  else (p.flAdd .pipeError).bind (·.attemptSafeKillAndReap killErr)

end Parent

/-- The sizes of strings for which the parent needs memory, as they stand behind the tag: the second when
the first string could be read. -/
def strSizes (pipe : List UInt8) : List Nat :=
  if 16 ≤ pipe.length then
    let expected := ofLe (pipe.take 8)
    let actual := ofLe ((pipe.drop 8).take 8)
    expected :: if 2 ^ 63 ≤ expected ∨ expected + 16 ≤ pipe.length then [actual] else []
  else []

/-- The sizes for which the parent needs memory, read from what the child left. -/
def sizesRead (pipe : List UInt8) : List Nat :=
  if 4 ≤ pipe.length ∧ ofLe (pipe.take 4) = TestResult.assertEqStrFail.code then strSizes (pipe.drop 4)
  else []

/-- The host has memory for the strings the parent reads; it reads when the child has exited with zero and
was not expected to fail. -/
def Served (mem : Nat → Bool) (shouldFail : Bool) (wait : WaitRes) (pipe : List UInt8) : Prop :=
  wait = .exited 0 → shouldFail = false → ∀ n ∈ sizesRead pipe, Serves mem n

instance (mem : Nat → Bool) (shouldFail : Bool) (wait : WaitRes) (pipe : List UInt8) :
    Decidable (Served mem shouldFail wait pipe) :=
  inferInstanceAs (Decidable (_ → _ → ∀ n ∈ sizesRead pipe, Serves mem n))

/-! ## What a parent owns -/

/-- The live blocks are the run's, those in `extra` that a step in progress holds, and those there
were before. -/
def Owns (p : Parent) (extra base : List Nat) : Prop :=
  p.heap.live.Perm (extra ++ (p.tr.blocks ++ base))

/-- What is in `data` is what the result says. -/
def DataFits (tr : TestRun) : Prop :=
  match tr.data with
  | none => tr.result.hasData = false
  | some (.cmpr _ _) => tr.result.cmprSize.isSome = true
  | some (.strs _ _ _ _ _) => tr.result = .assertEqStrFail

/-- `data` is there exactly for the five results of a failed comparison. -/
theorem DataFits.isSome_iff {tr : TestRun} (h : DataFits tr) :
    tr.data.isSome = true ↔ tr.result.hasData = true := by
  unfold DataFits at h
  split at h
  · rename_i hdata
    rw [hdata, h]
    exact iff_of_false Bool.false_ne_true Bool.false_ne_true
  · rename_i hdata
    rw [hdata]
    exact iff_of_true rfl (by rw [TestResult.hasData, h, Bool.true_or])
  · rename_i hdata
    rw [hdata, h]
    exact iff_of_true rfl rfl

namespace Parent

variable {p : Parent} {extra base : List Nat}

/-- The run a step leaves has the same result and data, and the errors it says. -/
structure Keeps (p p' : Parent) (errs : List FrameworkError) : Prop where
  result : p'.tr.result = p.tr.result
  data : p'.tr.data = p.tr.data
  errors : p'.tr.errors = p.tr.errors ++ errs

theorem flAdd_spec (h : Owns p extra base) (err : FrameworkError) :
    ∃ p', p.flAdd err = some p' ∧ Owns p' extra base ∧ Keeps p p' [err] := by
  unfold flAdd
  split
  · have harr : p.heap.live.Perm (p.tr.errorsArr :: (extra ++
        ((p.tr.data.map RunData.blocks).getD [] ++ [p.tr.errorsBuf, p.tr.selfBuf] ++ base))) := by
      refine h.trans (List.perm_iff_count.mpr fun b => ?_)
      simp only [TestRun.blocks, List.count_append, List.count_cons, List.count_nil]
      omega
    obtain ⟨h', hfree, hlive⟩ := Heap.safeFree_of_perm harr
    rw [hfree]
    refine ⟨_, rfl, (hlive.cons h'.next).trans (List.perm_iff_count.mpr fun b => ?_), rfl, rfl, rfl⟩
    simp only [TestRun.blocks, Heap.safeMalloc, List.count_append, List.count_cons, List.count_nil]
    omega
  · exact ⟨_, rfl, h, rfl, rfl, rfl⟩

theorem attemptSafeClose_spec (h : Owns p extra base) :
    ∃ p' errs, p.attemptSafeClose = some p' ∧ Owns p' extra base ∧ Keeps p p' errs := by
  unfold attemptSafeClose
  split
  · exact ⟨_, [], rfl, h, rfl, rfl, (List.append_nil _).symm⟩
  · obtain ⟨p', hadd, hown, hkeep⟩ := flAdd_spec h .pipeError
    exact ⟨p', _, hadd, hown, hkeep⟩

theorem safeFree_spec {b : Nat} (h : Owns p (b :: extra) base) :
    ∃ p', p.safeFree b = some p' ∧ Owns p' extra base ∧ p'.tr = p.tr := by
  obtain ⟨h', hfree, hlive⟩ := Heap.safeFree_of_perm h
  exact ⟨{ p with heap := h' }, by rw [safeFree, hfree]; rfl, hlive, rfl⟩

theorem safeMalloc_spec (h : Owns p extra base) :
    Owns p.safeMalloc.2 (p.safeMalloc.1 :: extra) base :=
  h.cons _

theorem safeRead_spec (n : Nat) : (p.safeRead n).2.tr = p.tr ∧ (p.safeRead n).2.heap = p.heap ∧
    (p.safeRead n).2.mem = p.mem := by
  unfold safeRead
  split
  · exact ⟨rfl, rfl, rfl⟩
  · split <;> exact ⟨rfl, rfl, rfl⟩

theorem safeRead_of_le {n : Nat} (hlen : n ≤ p.pipe.length) (hn : n < 2 ^ 63) :
    p.safeRead n = (some (p.pipe.take n), { p with pipe := p.pipe.drop n }) := by
  rw [safeRead, if_neg (Nat.not_le.mpr hn), if_pos hlen]

theorem safeRead_of_lt {n : Nat} (hlen : p.pipe.length < n) (hn : n < 2 ^ 63) :
    p.safeRead n = (none, { p with pipe := [] }) := by
  rw [safeRead, if_neg (Nat.not_le.mpr hn), if_neg (Nat.not_le.mpr hlen)]

theorem safeRead_isSome (n : Nat) :
    (p.safeRead n).1.isSome = true ↔ 2 ^ 63 ≤ n ∨ n ≤ p.pipe.length := by
  unfold safeRead
  split
  · rename_i hbig
    exact iff_of_true rfl (.inl hbig)
  · rename_i hsmall
    split
    · rename_i hlen
      exact iff_of_true rfl (.inr hlen)
    · rename_i hlen
      exact iff_of_false Bool.false_ne_true fun h => h.elim hsmall hlen

theorem readStr_of_serves {n : Nat} (h : Serves p.mem n) :
    p.readStr n = some (p.safeMalloc.1, p.safeMalloc.2.safeRead n) := by
  rw [readStr, safeMallocOf, if_pos h]
  rfl

theorem readStr_of_not_serves {n : Nat} (h : ¬Serves p.mem n) : p.readStr n = none := by
  rw [readStr, safeMallocOf, if_neg h]
  rfl

/-- A run with no data in it yet, and a result that has none. -/
structure Blank (p : Parent) (base : List Nat) : Prop where
  owns : Owns p [] base
  data : p.tr.data = none
  result : p.tr.result.hasData = false

/-- The parent returns with its run's blocks its own and its data what the result says. -/
def Settles (r : Option Parent) (base : List Nat) : Prop :=
  ∃ p', r = some p' ∧ Owns p' [] base ∧ DataFits p'.tr

/-- It does so when it is served, and ends in `safe_exit` when it is not. -/
structure SettlesIf (served : Prop) (r : Option Parent) (base : List Nat) : Prop where
  settles : served → Settles r base
  exits : ¬served → r = none

theorem Settles.always {r : Option Parent} {served : Prop} (h : Settles r base) (hserved : served) :
    SettlesIf served r base where
  settles := fun _ => h
  exits := fun hnot => absurd hserved hnot

theorem SettlesIf.of_iff {r : Option Parent} {served served' : Prop} (h : SettlesIf served r base)
    (hiff : served' ↔ served) : SettlesIf served' r base where
  settles := fun hserved => h.settles (hiff.mp hserved)
  exits := fun hnot => h.exits fun hserved => hnot (hiff.mpr hserved)

theorem Keeps.fits {p' : Parent} {errs : List FrameworkError} (h : Keeps p p' errs)
    (hfits : DataFits p.tr) : DataFits p'.tr := by
  unfold DataFits at *
  rw [h.data, h.result]
  exact hfits

theorem Blank.fits (h : Blank p base) : DataFits p.tr := by
  unfold DataFits
  rw [h.data]
  exact h.result

theorem Blank.settles (h : Blank p base) : Settles (some p) base := ⟨p, rfl, h.owns, h.fits⟩

theorem Blank.setResult (h : Blank p base) {r : TestResult} (hr : r.hasData = false) :
    Blank (p.setResult r) base := ⟨h.owns, h.data, hr⟩

theorem Blank.flAdd (h : Blank p base) (err : FrameworkError) :
    ∃ p', p.flAdd err = some p' ∧ Blank p' base := by
  obtain ⟨p', hadd, hown, hkeep⟩ := flAdd_spec h.owns err
  exact ⟨p', hadd, hown, hkeep.data.trans h.data, hkeep.result ▸ h.result⟩

/-- The read end is closed last. -/
theorem settles_close (h : Owns p [] base) (hfits : DataFits p.tr) : Settles p.attemptSafeClose base := by
  obtain ⟨p', errs, hclose, hown, hkeep⟩ := attemptSafeClose_spec h
  exact ⟨p', hclose, hown, hkeep.fits hfits⟩

theorem Blank.close (h : Blank p base) : Settles p.attemptSafeClose base := settles_close h.owns h.fits

theorem Blank.flAdd_close (h : Blank p base) (err : FrameworkError) :
    Settles ((p.flAdd err).bind attemptSafeClose) base := by
  obtain ⟨p', hadd, hblank⟩ := h.flAdd err
  rw [hadd]
  exact hblank.close

/-- A read that fails gives its buffer back. -/
theorem settles_readError {q : Parent} {b : Nat} (h : Owns q [b] base) (hdata : q.tr.data = none)
    (hresult : q.tr.result.hasData = false) :
    Settles ((q.flAdd .pipeError).bind (·.safeFree b)) base := by
  obtain ⟨q₁, hadd, hown, hkeep⟩ := flAdd_spec h .pipeError
  obtain ⟨q₂, hfree, hown₂, htr⟩ := safeFree_spec hown
  refine ⟨q₂, by rw [hadd]; exact hfree, hown₂, ?_⟩
  rw [htr]
  refine hkeep.fits ?_
  unfold DataFits
  rw [hdata]
  exact hresult

theorem owns_read (h : Owns p extra base) (n : Nat) : Owns (p.safeRead n).2 extra base := by
  obtain ⟨htr, hheap, -⟩ := safeRead_spec (p := p) n
  unfold Owns
  rw [htr, hheap]
  exact h

theorem Blank.read (h : Blank p base) (n : Nat) : Blank (p.safeRead n).2 base := by
  obtain ⟨htr, -⟩ := safeRead_spec (p := p) n
  exact ⟨owns_read h.owns n, by rw [htr]; exact h.data, by rw [htr]; exact h.result⟩

theorem Blank.readCmpr (h : Blank p base) {res : TestResult} (hres : res.cmprSize.isSome = true)
    (size : Nat) : Settles (p.attemptReadCmprAndClose res size) base := by
  have hown : Owns (p.safeMalloc.2.safeRead (size * 2)).2 [p.safeMalloc.1] base :=
    owns_read (safeMalloc_spec h.owns) _
  have htr : (p.safeMalloc.2.safeRead (size * 2)).2.tr = p.tr := (safeRead_spec _).1
  unfold attemptReadCmprAndClose
  simp only
  generalize p.safeMalloc.2.safeRead (size * 2) = read at hown htr
  obtain ⟨bytes, q⟩ := read
  cases bytes with
  | none => exact settles_readError hown (htr ▸ h.data) (htr ▸ h.result)
  | some bytes =>
    refine settles_close ?_ hres
    have hdata : q.tr.data = none := htr ▸ h.data
    refine hown.trans (List.perm_iff_count.mpr fun b => ?_)
    simp only [TestRun.blocks, RunData.blocks, hdata, Option.map_none, Option.map_some, Option.getD_none,
      Option.getD_some, List.count_append, List.count_cons, List.count_nil]
    omega

/-- The second string, whose failed read gives both buffers back. -/
theorem settles_readActual {expectedBuf : Nat} (hown : Owns p [expectedBuf] base)
    (hdata : p.tr.data = none) (hresult : p.tr.result.hasData = false) (expected : List UInt8) (n : Nat) :
    SettlesIf (Serves p.mem n) (p.readActualAndClose expectedBuf expected n) base where
  exits := fun h => by rw [readActualAndClose, readStr_of_not_serves h, Option.bind_none]
  settles := fun h => by
    rw [readActualAndClose, readStr_of_serves h, Option.bind_some]
    have hown₁ : Owns (p.safeMalloc.2.safeRead n).2 [p.safeMalloc.1, expectedBuf] base :=
      owns_read (safeMalloc_spec hown) _
    have htr : (p.safeMalloc.2.safeRead n).2.tr = p.tr := (safeRead_spec n).1
    generalize p.safeMalloc.2.safeRead n = read at hown₁ htr
    generalize p.safeMalloc.1 = actualBuf at hown₁
    obtain ⟨actual, q⟩ := read
    have hdata₁ : q.tr.data = none := htr ▸ hdata
    have hresult₁ : q.tr.result.hasData = false := htr ▸ hresult
    cases actual with
    | none =>
      obtain ⟨q₁, hadd, hown₂, hkeep⟩ := flAdd_spec hown₁ .pipeError
      have hswap : Owns q₁ [expectedBuf, actualBuf] base :=
        hown₂.trans (List.Perm.swap expectedBuf actualBuf _)
      obtain ⟨q₂, hfree, hown₃, htr₂⟩ := safeFree_spec hswap
      obtain ⟨q₃, hfree₃, hown₄, htr₃⟩ := safeFree_spec hown₃
      refine ⟨q₃, by simp only [hadd, Option.bind_some, hfree, hfree₃], hown₄, ?_⟩
      rw [htr₃, htr₂]
      refine hkeep.fits ?_
      unfold DataFits
      rw [hdata₁]
      exact hresult₁
    | some actual =>
      refine settles_close ?_ rfl
      refine (safeMalloc_spec hown₁).trans (List.perm_iff_count.mpr fun b => ?_)
      simp only [TestRun.blocks, RunData.blocks, safeMalloc, hdata₁, Option.map_none, Option.map_some,
        Option.getD_none, Option.getD_some, List.count_append, List.count_cons, List.count_nil]
      omega

/-- Each string read has its buffer, and each read that fails gives back those there are. -/
theorem Blank.readStrs (h : Blank p base) :
    SettlesIf (∀ n ∈ strSizes p.pipe, Serves p.mem n) p.readStrsAndClose base := by
  have hblank := h.read 16
  unfold readStrsAndClose strSizes
  by_cases hlen : 16 ≤ p.pipe.length
  · rw [safeRead_of_le hlen (by decide)] at hblank ⊢
    have hexpected : (p.pipe.take 16).take 8 = p.pipe.take 8 := by rw [List.take_take]; rfl
    have hactual : (p.pipe.take 16).drop 8 = (p.pipe.drop 8).take 8 := by rw [List.drop_take]
    have hrest : (p.pipe.drop 16).length + 16 = p.pipe.length := by
      rw [List.length_drop]
      omega
    simp only [if_pos hlen, hexpected, hactual]
    rw [← hrest]
    generalize ofLe (p.pipe.take 8) = n
    generalize ofLe ((p.pipe.drop 8).take 8) = m
    have hmem : ({ p with pipe := p.pipe.drop 16 } : Parent).mem = p.mem := rfl
    have hpipe : ({ p with pipe := p.pipe.drop 16 } : Parent).pipe = p.pipe.drop 16 := rfl
    rw [← hmem, ← hpipe]
    simp only at hblank
    generalize ({ p with pipe := p.pipe.drop 16 } : Parent) = q at hblank ⊢
    by_cases hn : Serves q.mem n
    · rw [readStr_of_serves hn, Option.bind_some]
      have hown : Owns (q.safeMalloc.2.safeRead n).2 [q.safeMalloc.1] base :=
        owns_read (safeMalloc_spec hblank.owns) _
      obtain ⟨htr, -, hserves⟩ := safeRead_spec (p := q.safeMalloc.2) n
      have hsome := safeRead_isSome (p := q.safeMalloc.2) n
      have hroom : 2 ^ 63 ≤ n ∨ n ≤ q.safeMalloc.2.pipe.length ↔ 2 ^ 63 ≤ n ∨ n + 16 ≤ q.pipe.length + 16 :=
        or_congr_right (Nat.add_le_add_iff_right).symm
      rw [hroom] at hsome
      generalize q.safeMalloc.2.safeRead n = read at hown htr hserves hsome
      generalize q.safeMalloc.1 = expectedBuf at hown
      obtain ⟨expected, q₁⟩ := read
      have htr' : q₁.tr = q.tr := htr
      have hdata : q₁.tr.data = none := htr' ▸ hblank.data
      have hresult : q₁.tr.result.hasData = false := htr' ▸ hblank.result
      cases expected with
      | none =>
        rw [if_neg fun hread => Bool.false_ne_true (hsome.mpr hread)]
        exact (settles_readError hown hdata hresult).always (List.forall_mem_singleton.mpr hn)
      | some expected =>
        rw [if_pos (hsome.mp rfl)]
        refine (settles_readActual hown hdata hresult expected m).of_iff ?_
        rw [List.forall_mem_cons, List.forall_mem_singleton, and_iff_right hn]
        exact iff_of_eq (congrArg (Serves · m) hserves.symm)
    · rw [readStr_of_not_serves hn, Option.bind_none]
      exact ⟨fun hall => absurd (hall n List.mem_cons_self) hn, fun _ => rfl⟩
  · rw [safeRead_of_lt (Nat.not_le.mp hlen) (by decide)] at hblank ⊢
    rw [if_neg hlen]
    obtain ⟨q, hadd, hblank'⟩ := hblank.flAdd .pipeError
    simp only [hadd]
    exact hblank'.settles.always nofun

theorem Blank.readResult (h : Blank p base) :
    SettlesIf (∀ n ∈ sizesRead p.pipe, Serves p.mem n) p.readResult base := by
  have hblank := h.read 4
  unfold Parent.readResult sizesRead
  by_cases hlen : 4 ≤ p.pipe.length
  · rw [safeRead_of_le hlen (by decide)] at hblank ⊢
    simp only [hlen, true_and] at hblank ⊢
    by_cases hstrs : ofLe (p.pipe.take 4) = TestResult.assertEqStrFail.code
    · rw [hstrs, TestResult.ofCode_code, if_pos rfl]
      exact hblank.readStrs
    · rw [if_neg hstrs]
      refine Settles.always ?_ nofun
      split
      -- the tags without data
      all_goals first
        | exact (hblank.setResult rfl).close
        | exact hblank.readCmpr rfl _
        | exact hblank.flAdd_close _
        | exact absurd (TestResult.ofCode_eq_some (by assumption)) hstrs
  · rw [safeRead_of_lt (Nat.not_le.mp hlen) (by decide)] at hblank ⊢
    rw [if_neg fun htag => hlen htag.1]
    obtain ⟨q, hadd, hblank'⟩ := hblank.flAdd .pipeError
    simp only [hadd]
    exact hblank'.settles.always nofun

theorem Blank.afterWait (h : Blank p base) (shouldFail killErr : Bool) (wait : WaitRes) :
    SettlesIf (Served p.mem shouldFail wait p.pipe) (p.afterWait shouldFail killErr wait) base := by
  cases wait with
  | err => exact (h.flAdd_close _).always nofun
  | signaled => exact (h.setResult rfl).close.always nofun
  | timeout =>
    have hset : Blank (p.setResult .timeout) base := h.setResult rfl
    refine Settles.always ?_ nofun
    unfold Parent.afterWait attemptSafeKillAndReap
    simp only
    split
    · exact hset.flAdd_close _
    · exact hset.close
  | exited code =>
    by_cases hread : code = 0 ∧ shouldFail = false
    · obtain ⟨rfl, rfl⟩ := hread
      refine h.readResult.of_iff ?_
      exact ⟨fun hserved => hserved rfl rfl, fun hserved _ _ => hserved⟩
    · have hserved : Served p.mem shouldFail (.exited code) p.pipe := fun hcode hfail =>
        absurd ⟨WaitRes.exited.inj hcode, hfail⟩ hread
      refine Settles.always ?_ hserved
      unfold Parent.afterWait
      simp only
      split
      · obtain ⟨q, hadd, hblank⟩ := h.flAdd .pipeError
        rw [hadd]
        exact hblank.settles
      · split
        · exact h.flAdd_close _
        · split
          · exact (h.setResult (by cases shouldFail <;> rfl)).close
          · rename_i hzero
            have hfail : shouldFail = true :=
              Bool.of_not_eq_false fun hfail => hread ⟨Nat.eq_zero_of_not_pos hzero, hfail⟩
            rw [if_pos hfail]
            exact (h.setResult rfl).close

/-- **What the parent owns.** Whatever the child left in the pipe, the parent returns, its run's data
is there exactly for a failed comparison, and the live blocks are the run's and those of before; unless
the host has no memory for the strings, and the process ends. -/
theorem chunitParentProcess_settles (h : Heap) (mem : Nat → Bool) (shouldFail : Bool) (wait : WaitRes)
    (killErr : Bool) (pipe : List UInt8) : SettlesIf (Served mem shouldFail wait pipe)
      (chunitParentProcess h mem shouldFail wait killErr pipe) h.live := by
  have hclosed : Blank { newTestRun h mem pipe with wrOpen := false } h.live := ⟨.refl _, rfl, rfl⟩
  exact hclosed.afterWait shouldFail killErr wait

end Parent

/-- The list, its array and the run itself are freed last. -/
theorem freeErrors_of_perm {tr : TestRun} {h : Heap} {base : List Nat}
    (hlive : h.live.Perm ([tr.errorsArr, tr.errorsBuf, tr.selfBuf] ++ base)) :
    ∃ h', ((h.safeFree tr.errorsArr).bind fun h => (h.safeFree tr.errorsBuf).bind fun h =>
      h.safeFree tr.selfBuf) = some h' ∧ h'.live.Perm base := by
  obtain ⟨h₁, hfree₁, hlive₁⟩ := Heap.safeFree_of_perm hlive
  obtain ⟨h₂, hfree₂, hlive₂⟩ := Heap.safeFree_of_perm hlive₁
  obtain ⟨h₃, hfree₃, hlive₃⟩ := Heap.safeFree_of_perm hlive₂
  exact ⟨h₃, by rw [hfree₁, Option.bind_some, hfree₂, Option.bind_some, hfree₃], hlive₃⟩

/-- **Delete frees what the run owns**, each block once. -/
theorem chunitDeleteTestRun_of_owns {p : Parent} {base : List Nat} (h : Owns p [] base)
    (hfits : DataFits p.tr) :
    ∃ h', chunitDeleteTestRun p.tr p.heap = some h' ∧ h'.live.Perm base := by
  unfold Owns TestRun.blocks at h
  unfold DataFits at hfits
  have hdone : ∀ h₁ : Heap, freeData p.tr p.heap = some h₁ →
      h₁.live.Perm ([p.tr.errorsArr, p.tr.errorsBuf, p.tr.selfBuf] ++ base) →
      ∃ h', chunitDeleteTestRun p.tr p.heap = some h' ∧ h'.live.Perm base := by
    intro h₁ hdata hlive
    obtain ⟨h', hfree, hlive'⟩ := freeErrors_of_perm hlive
    exact ⟨h', by rw [chunitDeleteTestRun, hdata]; exact hfree, hlive'⟩
  cases hdata : p.tr.data with
  | none =>
    rw [hdata] at h hfits
    have hplain := Bool.or_eq_false_iff.mp hfits
    refine hdone p.heap ?_ h
    rw [freeData, if_neg (by simpa using hplain.2), if_neg (by simp [hplain.1])]
  | some data =>
    cases data with
    | cmpr buf bytes =>
      rw [hdata] at h hfits
      obtain ⟨h₁, hfree, hlive⟩ := Heap.safeFree_of_perm h
      have hne : p.tr.result ≠ .assertEqStrFail := by
        intro heq
        rw [heq] at hfits
        cases hfits
      refine hdone h₁ ?_ hlive
      rw [freeData, if_neg hne, if_pos hfits, hdata]
      exact hfree
    | strs buf expectedBuf actualBuf expected actual =>
      rw [hdata] at h hfits
      obtain ⟨h₁, hfree₁, hlive₁⟩ := Heap.safeFree_of_perm h
      obtain ⟨h₂, hfree₂, hlive₂⟩ := Heap.safeFree_of_perm hlive₁
      obtain ⟨h₃, hfree₃, hlive₃⟩ := Heap.safeFree_of_perm hlive₂
      refine hdone h₃ ?_ hlive₃
      rw [freeData, if_pos hfits, hdata]
      simp only [hfree₁, Option.bind_some, hfree₂, hfree₃]

end Chvm.Testing
