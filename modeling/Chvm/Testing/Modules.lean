import Mathlib.Algebra.Order.Ring.Nat
import Mathlib.Algebra.BigOperators.Group.List.Basic
import Chvm.Testing.Chunit

/-!
# Tests, suites and modules

`chunit_run_test` makes the pipe and the process of a test, `chunit_run_suite` and `chunit_run_module` run
the tests in order and count the successes, and the decorators are told what happens. The host's answers
are given for each test; where it has no memory for the strings of a test's message the process ends. The
deletes give every buffer back, and the descriptors that are left open are counted.
-/

set_option autoImplicit false

namespace Chvm.Testing

open Chvm.Lib

/-! ## The pipe -/

namespace Parent

variable {p p' : Parent}

/-- The read end is open, and no trouble with the pipe has been noted. -/
structure Reading (p : Parent) : Prop where
  rd : p.rdOpen = true
  wr : p.wrOpen = false
  errors : .pipeError ∉ p.tr.errors

/-- The write end is closed, and the read end was left open where there was trouble with the pipe. -/
structure Left (p : Parent) : Prop where
  wr : p.wrOpen = false
  rd : p.rdOpen = true ↔ .pipeError ∈ p.tr.errors

/-- The parent, when it returns, has left its pipe so. -/
def Leaves (r : Option Parent) : Prop := ∀ p', r = some p' → p'.Left

theorem flAdd_eq_some {err : FrameworkError} (h : p.flAdd err = some p') :
    p'.rdOpen = p.rdOpen ∧ p'.wrOpen = p.wrOpen ∧ p'.tr.errors = p.tr.errors ++ [err] := by
  unfold flAdd at h
  split at h
  · obtain ⟨heap, -, rfl⟩ := Option.map_eq_some_iff.mp h
    exact ⟨rfl, rfl, rfl⟩
  · cases h
    exact ⟨rfl, rfl, rfl⟩

theorem safeFree_eq_some {b : Nat} (h : p.safeFree b = some p') :
    p'.rdOpen = p.rdOpen ∧ p'.wrOpen = p.wrOpen ∧ p'.tr = p.tr := by
  obtain ⟨heap, -, rfl⟩ := Option.map_eq_some_iff.mp h
  exact ⟨rfl, rfl, rfl⟩

theorem Reading.flAdd {err : FrameworkError} (h : p.Reading) (hne : err ≠ .pipeError)
    (hadd : p.flAdd err = some p') : p'.Reading := by
  obtain ⟨hrd, hwr, herrors⟩ := flAdd_eq_some hadd
  refine ⟨hrd.trans h.rd, hwr.trans h.wr, fun hmem => ?_⟩
  rw [herrors, List.mem_append, List.mem_singleton] at hmem
  exact hmem.elim h.errors fun heq => hne heq.symm

theorem Reading.close (h : p.Reading) : Leaves p.attemptSafeClose := by
  intro p' hclose
  rw [attemptSafeClose, if_pos h.rd] at hclose
  cases hclose
  exact ⟨h.wr, iff_of_false Bool.false_ne_true h.errors⟩

/-- The end of file, or an error: the read end is not closed. -/
theorem Reading.pipeError (h : p.Reading) : Leaves (p.flAdd .pipeError) := by
  intro p' hadd
  obtain ⟨hrd, hwr, herrors⟩ := flAdd_eq_some hadd
  refine ⟨hwr.trans h.wr, iff_of_true (hrd.trans h.rd) ?_⟩
  rw [herrors]
  exact List.mem_append_right _ (List.mem_singleton_self _)

theorem Reading.flAdd_close {err : FrameworkError} (h : p.Reading) (hne : err ≠ .pipeError) :
    Leaves ((p.flAdd err).bind attemptSafeClose) := by
  intro p' hbind
  obtain ⟨q, hadd, hclose⟩ := Option.bind_eq_some_iff.mp hbind
  exact (h.flAdd hne hadd).close p' hclose

theorem Leaves.free {r : Option Parent} (h : Leaves r) (b : Nat) : Leaves (r.bind (·.safeFree b)) := by
  intro p' hbind
  obtain ⟨q, hq, hfree⟩ := Option.bind_eq_some_iff.mp hbind
  obtain ⟨hrd, hwr, htr⟩ := safeFree_eq_some hfree
  have hleft := h q hq
  exact ⟨hwr.trans hleft.wr, by rw [hrd, htr]; exact hleft.rd⟩

theorem Reading.read (h : p.Reading) (n : Nat) : (p.safeRead n).2.Reading := by
  unfold safeRead
  split
  · exact h
  · split <;> exact ⟨h.rd, h.wr, h.errors⟩

theorem Reading.malloc (h : p.Reading) : p.safeMalloc.2.Reading := ⟨h.rd, h.wr, h.errors⟩

theorem Reading.setResult (h : p.Reading) (r : TestResult) : (p.setResult r).Reading :=
  ⟨h.rd, h.wr, h.errors⟩

theorem Reading.readCmpr (h : p.Reading) (res : TestResult) (size : Nat) :
    Leaves (p.attemptReadCmprAndClose res size) := by
  have hread := h.malloc.read (size * 2)
  unfold attemptReadCmprAndClose
  simp only
  generalize p.safeMalloc.2.safeRead (size * 2) = read at hread
  obtain ⟨bytes, q⟩ := read
  cases bytes with
  | none => exact hread.pipeError.free _
  | some bytes =>
    have hset : Reading { q with tr :=
      { q.tr with data := some (.cmpr p.safeMalloc.1 bytes), result := res } } :=
      ⟨hread.rd, hread.wr, hread.errors⟩
    exact hset.close

theorem Reading.readStr (h : p.Reading) {n buf : Nat} {bytes : Option (List UInt8)} {q : Parent}
    (hread : p.readStr n = some (buf, bytes, q)) : q.Reading := by
  by_cases hserves : Serves p.mem n
  · have heq := (readStr_of_serves hserves).symm.trans hread
    have hq : (p.safeMalloc.2.safeRead n).2 = q := congrArg (·.2.2) (Option.some.inj heq)
    rw [← hq]
    exact h.malloc.read n
  · cases (readStr_of_not_serves hserves).symm.trans hread

theorem Reading.readActual (h : p.Reading) (expectedBuf : Nat) (expected : List UInt8) (n : Nat) :
    Leaves (p.readActualAndClose expectedBuf expected n) := by
  intro p' hbind
  obtain ⟨⟨actualBuf, actual, q⟩, hread, hclose⟩ := Option.bind_eq_some_iff.mp hbind
  have hactual := h.readStr hread
  cases actual with
  | none => exact (hactual.pipeError.free _).free _ p' hclose
  | some actual =>
    have hset : Reading { q.safeMalloc.2 with tr := { q.safeMalloc.2.tr with
        data := some (.strs q.safeMalloc.1 expectedBuf actualBuf expected actual)
        result := .assertEqStrFail } } := ⟨hactual.rd, hactual.wr, hactual.errors⟩
    exact hset.close p' hclose

theorem Reading.readStrs (h : p.Reading) : Leaves p.readStrsAndClose := by
  have hsizes := h.read 16
  unfold readStrsAndClose
  generalize p.safeRead 16 = read at hsizes
  obtain ⟨sizes, q⟩ := read
  cases sizes with
  | none => exact hsizes.pipeError
  | some sizes =>
    intro p' hbind
    obtain ⟨⟨expectedBuf, expected, q₁⟩, hread, hclose⟩ := Option.bind_eq_some_iff.mp hbind
    have hexpected := hsizes.readStr hread
    cases expected with
    | none => exact hexpected.pipeError.free _ p' hclose
    | some expected => exact hexpected.readActual _ _ _ p' hclose

theorem Reading.readResult (h : p.Reading) : Leaves p.readResult := by
  have htag := h.read 4
  unfold Parent.readResult
  generalize p.safeRead 4 = read at htag
  obtain ⟨tag, q⟩ := read
  cases tag with
  | none => exact htag.pipeError
  | some tag =>
    simp only
    split
    -- the tags without data
    all_goals first
      | exact (htag.setResult _).close
      | exact htag.readCmpr _ _
      | exact htag.readStrs
      | exact htag.flAdd_close nofun

theorem Reading.afterWait (h : p.Reading) (shouldFail killErr : Bool) (wait : WaitRes) :
    Leaves (p.afterWait shouldFail killErr wait) := by
  cases wait with
  | err => exact h.flAdd_close nofun
  | signaled => exact (h.setResult _).close
  | timeout =>
    have hset := h.setResult .timeout
    unfold Parent.afterWait attemptSafeKillAndReap
    simp only
    split
    · exact hset.flAdd_close nofun
    · exact hset.close
  | exited code =>
    unfold Parent.afterWait
    simp only
    split
    · exact h.pipeError
    · split
      · exact h.flAdd_close nofun
      · split
        · exact (h.setResult _).close
        · split
          · exact (h.setResult _).close
          · exact h.readResult

/-- **The pipe of a test.** The parent leaves the read end open exactly when its run notes a pipe error. -/
theorem chunitParentProcess_leaves (h : Heap) (mem : Nat → Bool) (shouldFail : Bool) (wait : WaitRes)
    (killErr : Bool) (pipe : List UInt8) :
    Leaves (chunitParentProcess h mem shouldFail wait killErr pipe) := by
  have hreading : Reading { newTestRun h mem pipe with wrOpen := false } := ⟨rfl, rfl, nofun⟩
  exact hreading.afterWait shouldFail killErr wait

end Parent

/-! ## Running tests -/

/-- `chunit_test`; the host waits for the timeout. -/
structure ChunitTest where
  name : String
  shouldFail : Bool
deriving DecidableEq, Repr

structure TestSuite where
  name : String
  tests : List ChunitTest
deriving DecidableEq, Repr

structure TestModule where
  name : String
  suites : List TestSuite
deriving DecidableEq, Repr

/-- The host's answers to one test: whether `pipe` fails, the child `safe_fork` makes, if any, what the
parent gets of the child, and whether there is a block of so many bytes for it. -/
structure TestHost where
  pipeErr : Bool
  pid : Option Nat
  wait : WaitRes
  killErr : Bool
  pipe : List UInt8
  mem : Nat → Bool

structure TestDecorator (σ : Type) where
  startTest : ChunitTest → Nat → σ → σ
  endTest : TestRun → σ → σ

structure SuiteDecorator (σ : Type) where
  testDecorator : TestDecorator σ
  prepContext : TestSuite → Nat → σ → σ
  cleanupContext : σ → σ

structure ModuleDecorator (σ : Type) where
  suiteDecorator : SuiteDecorator σ
  prepContext : TestModule → Nat → σ → σ
  cleanupContext : σ → σ

/-- The buffers, the decorators' context, and how many descriptors the tests have left open. -/
structure Runner (σ : Type) where
  heap : Heap
  ctx : σ
  fds : Nat

def Parent.ends (p : Parent) : Nat := (if p.rdOpen then 1 else 0) + if p.wrOpen then 1 else 0

/-- A decorator, where there is one. -/
def decorate {σ δ : Type} (decorator : Option δ) (f : δ → σ → σ) (ctx : σ) : σ :=
  match decorator with
  | none => ctx
  | some d => f d ctx

section
variable {σ : Type}

/-- `chunit_run_test`. The ends of the pipe are not closed when there is no child. -/
def chunitRunTest (test : ChunitTest) (decorator : Option (TestDecorator σ)) (host : TestHost)
    (s : Runner σ) : Option (TestRun × Runner σ) :=
  if host.pipeErr then
    let p : Parent := { Parent.newTestRun s.heap host.mem [] with rdOpen := false, wrOpen := false }
    (p.flAdd .pipeError).map fun p => (p.tr, { s with heap := p.heap })
  else
    match host.pid with
    | none => ((Parent.newTestRun s.heap host.mem []).flAdd .forkError).map fun p =>
        (p.tr, { s with heap := p.heap, fds := s.fds + p.ends })
    | some pid =>
      let ctx := decorate decorator (·.startTest test pid) s.ctx
      (Parent.chunitParentProcess s.heap host.mem test.shouldFail host.wait host.killErr
        host.pipe).map fun p =>
        (p.tr, { heap := p.heap, ctx := decorate decorator (·.endTest p.tr) ctx, fds := s.fds + p.ends })

def TestRun.succeeded (tr : TestRun) : Bool := tr.result = .success && tr.errors.length = 0

/-- `chunit_test_suite_run`, with the buffers of itself and of `test_runs`. -/
structure TestSuiteRun where
  selfBuf : Nat
  suite : TestSuite
  successes : Nat
  runsBuf : Nat
  testRuns : List TestRun
deriving DecidableEq, Repr

/-- The loop of `chunit_run_suite`, from the test at `i` on. -/
def runTests (suite : TestSuite) (decorator : Option (SuiteDecorator σ)) (host : Nat → TestHost) :
    Nat → List ChunitTest → TestSuiteRun → Runner σ → Option (TestSuiteRun × Runner σ)
  | _, [], tsr, s => some (tsr, s)
  | i, test :: tests, tsr, s =>
    let s := { s with ctx := decorate decorator (·.prepContext suite i) s.ctx }
    match chunitRunTest test (decorator.map (·.testDecorator)) (host i) s with
    | none => none
    | some (tr, s) =>
      runTests suite decorator host (i + 1) tests
        { tsr with
          testRuns := tsr.testRuns ++ [tr]
          successes := if tr.succeeded then tsr.successes + 1 else tsr.successes }
        { s with ctx := decorate decorator (·.cleanupContext) s.ctx }

/-- `chunit_run_suite`. -/
def chunitRunSuite (suite : TestSuite) (decorator : Option (SuiteDecorator σ)) (host : Nat → TestHost)
    (s : Runner σ) : Option (TestSuiteRun × Runner σ) :=
  let (selfBuf, heap) := s.heap.safeMalloc
  let (runsBuf, heap) := heap.safeMalloc
  runTests suite decorator host 0 suite.tests ⟨selfBuf, suite, 0, runsBuf, []⟩ { s with heap := heap }

/-- `chunit_test_module_run`. -/
structure TestModuleRun where
  selfBuf : Nat
  mod : TestModule
  successful : Bool
  suitesBuf : Nat
  suiteRuns : List TestSuiteRun
deriving DecidableEq, Repr

/-- The loop of `chunit_run_module`, from the suite at `i` on. -/
def runSuites (mod : TestModule) (decorator : Option (ModuleDecorator σ)) (host : Nat → Nat → TestHost) :
    Nat → List TestSuite → TestModuleRun → Runner σ → Option (TestModuleRun × Runner σ)
  | _, [], tmr, s => some (tmr, s)
  | i, suite :: suites, tmr, s =>
    let s := { s with ctx := decorate decorator (·.prepContext mod i) s.ctx }
    match chunitRunSuite suite (decorator.map (·.suiteDecorator)) (host i) s with
    | none => none
    | some (tsr, s) =>
      runSuites mod decorator host (i + 1) suites
        { tmr with
          suiteRuns := tmr.suiteRuns ++ [tsr]
          successful := tmr.successful && tsr.successes = tsr.suite.tests.length }
        { s with ctx := decorate decorator (·.cleanupContext) s.ctx }

/-- `chunit_run_module`. -/
def chunitRunModule (mod : TestModule) (decorator : Option (ModuleDecorator σ)) (host : Nat → Nat → TestHost)
    (s : Runner σ) : Option (TestModuleRun × Runner σ) :=
  let (selfBuf, heap) := s.heap.safeMalloc
  let (suitesBuf, heap) := heap.safeMalloc
  runSuites mod decorator host 0 mod.suites ⟨selfBuf, mod, true, suitesBuf, []⟩ { s with heap := heap }

/-- `chunit_delete_test_suite_run`. -/
def chunitDeleteTestSuiteRun (tsr : TestSuiteRun) (h : Heap) : Option Heap :=
  (tsr.testRuns.foldlM (fun h tr => chunitDeleteTestRun tr h) h).bind fun h =>
    (h.safeFree tsr.runsBuf).bind (·.safeFree tsr.selfBuf)

/-- `chunit_delete_test_module_run`. -/
def chunitDeleteTestModuleRun (tmr : TestModuleRun) (h : Heap) : Option Heap :=
  (tmr.suiteRuns.foldlM (fun h tsr => chunitDeleteTestSuiteRun tsr h) h).bind fun h =>
    (h.safeFree tmr.suitesBuf).bind (·.safeFree tmr.selfBuf)

/-! ## One test -/

variable {test : ChunitTest} {decorator : Option (TestDecorator σ)} {host : TestHost} {s s' : Runner σ}
  {tr : TestRun}

/-- The ends of the pipe that are left open. -/
def TestHost.leftOpen (host : TestHost) (tr : TestRun) : Nat :=
  if host.pipeErr then 0 else if host.pid = none then 2 else if .pipeError ∈ tr.errors then 1 else 0

/-- The context after a test, which a decorator is told of when there is a process. -/
def testContext (test : ChunitTest) (decorator : Option (TestDecorator σ)) (host : TestHost) (tr : TestRun)
    (ctx : σ) : σ :=
  match host.pipeErr, host.pid with
  | false, some pid => decorate decorator (·.endTest tr) (decorate decorator (·.startTest test pid) ctx)
  | _, _ => ctx

/-- What a test's run is, and what else it leaves. -/
structure TestRan (test : ChunitTest) (decorator : Option (TestDecorator σ)) (host : TestHost)
    (s : Runner σ) (tr : TestRun) (s' : Runner σ) : Prop where
  owns : s'.heap.live.Perm (tr.blocks ++ s.heap.live)
  fits : DataFits tr
  fds : s'.fds = s.fds + host.leftOpen tr
  ctx : s'.ctx = testContext test decorator host tr s.ctx
  child : host.pipeErr = true ∨ host.pid = none → tr.succeeded = false

theorem not_succeeded (err : FrameworkError) (h : err ∈ tr.errors) : tr.succeeded = false := by
  have hlen := List.length_pos_of_mem h
  unfold TestRun.succeeded
  rw [decide_eq_false (show ¬tr.errors.length = 0 by omega), Bool.and_false]

/-- The host has memory for the strings of the test's message. -/
def TestHost.HasMem (host : TestHost) (test : ChunitTest) : Prop :=
  host.pipeErr = false → host.pid ≠ none → Served host.mem test.shouldFail host.wait host.pipe

/-- Where it has not, `safe_malloc` ends the process. -/
theorem chunitRunTest_exits (decorator : Option (TestDecorator σ)) (s : Runner σ)
    (h : ¬host.HasMem test) : chunitRunTest test decorator host s = none := by
  obtain ⟨hpipe, hpid, hserved⟩ : host.pipeErr = false ∧ host.pid ≠ none ∧
      ¬Served host.mem test.shouldFail host.wait host.pipe := by
    simpa only [TestHost.HasMem, Classical.not_imp] using h
  obtain ⟨pid, hpid⟩ := Option.ne_none_iff_exists'.mp hpid
  unfold chunitRunTest
  rw [hpipe, if_neg Bool.false_ne_true, hpid]
  simp only
  rw [(Parent.chunitParentProcess_settles ..).exits hserved, Option.map_none]

/-- **One test.** -/
theorem chunitRunTest_spec (test : ChunitTest) (decorator : Option (TestDecorator σ)) (host : TestHost)
    (s : Runner σ) (hmem : host.HasMem test) : ∃ tr s', chunitRunTest test decorator host s = some (tr, s') ∧
      TestRan test decorator host s tr s' := by
  have hnew : Parent.Blank (Parent.newTestRun s.heap host.mem []) s.heap.live := ⟨.refl _, rfl, rfl⟩
  unfold chunitRunTest
  cases hpipe : host.pipeErr with
  | true =>
    have hblank : Parent.Blank { Parent.newTestRun s.heap host.mem [] with rdOpen := false, wrOpen := false }
        s.heap.live := ⟨.refl _, rfl, rfl⟩
    obtain ⟨p, hadd, hp⟩ := hblank.flAdd .pipeError
    obtain ⟨-, -, herrors⟩ := Parent.flAdd_eq_some hadd
    have hrun := congrArg (Option.map fun q : Parent => (q.tr, { s with heap := q.heap })) hadd
    rw [if_pos rfl]
    refine ⟨p.tr, _, hrun, hp.owns, hp.fits, ?_, ?_, fun _ => not_succeeded .pipeError ?_⟩
    · rw [TestHost.leftOpen, if_pos hpipe, Nat.add_zero]
    · unfold testContext
      rw [hpipe]
    · rw [herrors]
      exact List.mem_append_right _ (List.mem_singleton_self _)
  | false =>
    rw [if_neg Bool.false_ne_true]
    cases hpid : host.pid with
    | none =>
      obtain ⟨p, hadd, hp⟩ := hnew.flAdd .forkError
      obtain ⟨hrd, hwr, herrors⟩ := Parent.flAdd_eq_some hadd
      rw [hadd]
      refine ⟨_, _, rfl, hp.owns, hp.fits, ?_, ?_, fun _ => not_succeeded .forkError ?_⟩
      · rw [TestHost.leftOpen, if_neg (by rw [hpipe]; exact Bool.false_ne_true), if_pos hpid]
        show s.fds + p.ends = s.fds + 2
        unfold Parent.ends
        rw [hrd, hwr]
        rfl
      · unfold testContext
        rw [hpipe, hpid]
      · rw [herrors]
        exact List.mem_append_right _ (List.mem_singleton_self _)
    | some pid =>
      have hserved := hmem hpipe (by rw [hpid]; exact Option.some_ne_none _)
      obtain ⟨p, hrun, howns, hfits⟩ := (Parent.chunitParentProcess_settles s.heap host.mem test.shouldFail
        host.wait host.killErr host.pipe).settles hserved
      obtain ⟨hwr, hrd⟩ := Parent.chunitParentProcess_leaves _ _ _ _ _ _ p hrun
      simp only
      rw [hrun]
      refine ⟨_, _, rfl, howns, hfits, ?_, ?_, fun h => ?_⟩
      · rw [TestHost.leftOpen, if_neg (by rw [hpipe]; exact Bool.false_ne_true), if_neg (by rw [hpid]; nofun)]
        show s.fds + p.ends = _
        unfold Parent.ends
        simp only [hrd, hwr, Bool.false_eq_true, if_false, Nat.add_zero]
      · unfold testContext
        rw [hpipe, hpid]
      · rw [hpid] at h
        rcases h with h | h
        · cases hpipe.symm.trans h
        · cases h

/-! ## Suites and modules -/

def TestSuiteRun.blocks (tsr : TestSuiteRun) : List Nat :=
  tsr.testRuns.flatMap TestRun.blocks ++ [tsr.runsBuf, tsr.selfBuf]

def TestModuleRun.blocks (tmr : TestModuleRun) : List Nat :=
  tmr.suiteRuns.flatMap TestSuiteRun.blocks ++ [tmr.suitesBuf, tmr.selfBuf]

/-- The ends of pipes that the tests from the one at `i` on have left open. -/
def leftOpenTests (host : Nat → TestHost) (i : Nat) (trs : List TestRun) : Nat :=
  ((trs.zipIdx i).map fun (tr, j) => (host j).leftOpen tr).sum

def leftOpenSuites (host : Nat → Nat → TestHost) (i : Nat) (tsrs : List TestSuiteRun) : Nat :=
  ((tsrs.zipIdx i).map fun (tsr, j) => leftOpenTests (host j) 0 tsr.testRuns).sum

/-- The context after the tests from the one at `i` on. -/
def testsContext (suite : TestSuite) (decorator : Option (SuiteDecorator σ)) (host : Nat → TestHost) :
    Nat → List ChunitTest → List TestRun → σ → σ
  | i, test :: tests, tr :: trs, ctx =>
    let ctx := decorate decorator (·.prepContext suite i) ctx
    let ctx := testContext test (decorator.map (·.testDecorator)) (host i) tr ctx
    testsContext suite decorator host (i + 1) tests trs (decorate decorator (·.cleanupContext) ctx)
  | _, _, _, ctx => ctx

/-- The context after the suites from the one at `i` on. -/
def suitesContext (mod : TestModule) (decorator : Option (ModuleDecorator σ)) (host : Nat → Nat → TestHost) :
    Nat → List TestSuiteRun → σ → σ
  | i, tsr :: tsrs, ctx =>
    let ctx := decorate decorator (·.prepContext mod i) ctx
    let ctx := testsContext tsr.suite (decorator.map (·.suiteDecorator))
      (host i) 0 tsr.suite.tests tsr.testRuns ctx
    suitesContext mod decorator host (i + 1) tsrs (decorate decorator (·.cleanupContext) ctx)
  | _, [], ctx => ctx

theorem runTests_spec (suite : TestSuite) (decorator : Option (SuiteDecorator σ)) (host : Nat → TestHost)
    (tests : List ChunitTest) (i : Nat) (tsr : TestSuiteRun) (s : Runner σ)
    (hmem : ∀ p ∈ tests.zipIdx i, (host p.2).HasMem p.1) :
    ∃ trs s', runTests suite decorator host i tests tsr s = some ({ tsr with
        testRuns := tsr.testRuns ++ trs, successes := tsr.successes + trs.countP (·.succeeded) }, s') ∧
      trs.length = tests.length ∧ (∀ tr ∈ trs, DataFits tr) ∧
      s'.heap.live.Perm (trs.flatMap TestRun.blocks ++ s.heap.live) ∧
      s'.fds = s.fds + leftOpenTests host i trs ∧
      s'.ctx = testsContext suite decorator host i tests trs s.ctx ∧
      ∀ tr j, (tr, j) ∈ trs.zipIdx i → (host j).pipeErr = true ∨ (host j).pid = none → tr.succeeded =
        false := by
  induction tests generalizing i tsr s with
  | nil =>
    refine ⟨[], s, ?_, rfl, nofun, .refl _, rfl, rfl, nofun⟩
    rw [runTests, List.append_nil]
    rfl
  | cons test tests ih =>
    rw [List.zipIdx_cons, List.forall_mem_cons] at hmem
    obtain ⟨tr, s₁, hrun, htr⟩ := chunitRunTest_spec test (decorator.map (·.testDecorator)) (host i)
      { s with ctx := decorate decorator (·.prepContext suite i) s.ctx } hmem.1
    obtain ⟨trs, s', hruns, hlen, hfits, hlive, hfds, hctx, hchild⟩ := ih (i + 1) { tsr with
      testRuns := tsr.testRuns ++ [tr]
      successes := if tr.succeeded then tsr.successes + 1 else tsr.successes }
      { s₁ with ctx := decorate decorator (·.cleanupContext) s₁.ctx } hmem.2
    refine ⟨tr :: trs, s', ?_, by rw [List.length_cons, List.length_cons, hlen], ?_, ?_, ?_, ?_, ?_⟩
    · rw [runTests]
      simp only [hrun, hruns, List.append_assoc, List.singleton_append, List.countP_cons]
      cases tr.succeeded with
      | true =>
        simp only [if_true, Nat.add_assoc, Nat.add_comm 1]
      | false => rfl
    · exact List.forall_mem_cons.mpr ⟨htr.fits, hfits⟩
    · have hperm := hlive.trans (htr.owns.append_left (trs.flatMap TestRun.blocks))
      rw [List.flatMap_cons]
      refine hperm.trans ?_
      rw [← List.append_assoc]
      exact List.perm_append_comm.append_right _
    · rw [hfds, htr.fds]
      simp only [leftOpenTests, List.zipIdx_cons, List.map_cons, List.sum_cons, Nat.add_assoc]
    · rw [hctx, htr.ctx]
      rfl
    · intro tr' j hmem hno
      rw [List.zipIdx_cons, List.mem_cons] at hmem
      rcases hmem with heq | hmem
      · cases heq
        exact htr.child hno
      · exact hchild tr' j hmem hno

theorem runTests_exits (suite : TestSuite) (decorator : Option (SuiteDecorator σ)) (host : Nat → TestHost)
    (tests : List ChunitTest) (i : Nat) (tsr : TestSuiteRun) (s : Runner σ)
    (hmem : ¬∀ p ∈ tests.zipIdx i, (host p.2).HasMem p.1) :
    runTests suite decorator host i tests tsr s = none := by
  induction tests generalizing i tsr s with
  | nil => exact absurd nofun hmem
  | cons test tests ih =>
    rw [List.zipIdx_cons, List.forall_mem_cons] at hmem
    rw [runTests]
    by_cases hone : (host i).HasMem test
    · obtain ⟨tr, s₁, hrun, -⟩ := chunitRunTest_spec test (decorator.map (·.testDecorator)) (host i)
        { s with ctx := decorate decorator (·.prepContext suite i) s.ctx } hone
      rw [hrun]
      exact ih (i + 1) _ _ fun hrest => hmem ⟨hone, hrest⟩
    · rw [chunitRunTest_exits _ _ hone]

/-- The host has memory for the strings of the messages of all a suite's tests. -/
def TestSuite.HasMem (suite : TestSuite) (host : Nat → TestHost) : Prop :=
  ∀ p ∈ suite.tests.zipIdx, (host p.2).HasMem p.1

/-- And of all the tests of a module. -/
def TestModule.HasMem (mod : TestModule) (host : Nat → Nat → TestHost) : Prop :=
  ∀ p ∈ mod.suites.zipIdx, p.1.HasMem (host p.2)

instance (host : TestHost) (test : ChunitTest) : Decidable (host.HasMem test) :=
  inferInstanceAs (Decidable (_ → _ → _))

instance (suite : TestSuite) (host : Nat → TestHost) : Decidable (suite.HasMem host) :=
  inferInstanceAs (Decidable (∀ p ∈ suite.tests.zipIdx, (host p.2).HasMem p.1))

instance (mod : TestModule) (host : Nat → Nat → TestHost) : Decidable (mod.HasMem host) :=
  inferInstanceAs (Decidable (∀ p ∈ mod.suites.zipIdx, p.1.HasMem (host p.2)))

/-- What a suite's run is. -/
structure SuiteRan (suite : TestSuite) (host : Nat → TestHost) (tsr : TestSuiteRun) : Prop where
  ofSuite : tsr.suite = suite
  length : tsr.testRuns.length = suite.tests.length
  successes : tsr.successes = tsr.testRuns.countP (·.succeeded)
  fits : ∀ tr ∈ tsr.testRuns, DataFits tr
  child : ∀ tr j, (tr, j) ∈ tsr.testRuns.zipIdx → (host j).pipeErr = true ∨ (host j).pid = none →
    tr.succeeded = false

/-- **One suite.** -/
theorem chunitRunSuite_spec (suite : TestSuite) (decorator : Option (SuiteDecorator σ))
    (host : Nat → TestHost) (s : Runner σ) (hmem : suite.HasMem host) :
    ∃ tsr s', chunitRunSuite suite decorator host s = some (tsr, s') ∧
      SuiteRan suite host tsr ∧ s'.heap.live.Perm (tsr.blocks ++ s.heap.live) ∧
      s'.fds = s.fds + leftOpenTests host 0 tsr.testRuns ∧
      s'.ctx = testsContext suite decorator host 0 suite.tests tsr.testRuns s.ctx := by
  unfold chunitRunSuite
  simp only
  obtain ⟨trs, s', hruns, hlen, hfits, hlive, hfds, hctx,
    hchild⟩ := runTests_spec suite decorator host suite.tests
    0 ⟨s.heap.safeMalloc.1, suite, 0, s.heap.safeMalloc.2.safeMalloc.1, []⟩
    { s with heap := s.heap.safeMalloc.2.safeMalloc.2 } hmem
  refine ⟨_, s', hruns, ⟨rfl, hlen, Nat.zero_add _, hfits, hchild⟩, ?_, hfds, hctx⟩
  unfold TestSuiteRun.blocks
  rw [List.append_assoc]
  exact hlive

theorem chunitRunSuite_exits {suite : TestSuite} (decorator : Option (SuiteDecorator σ))
    {host : Nat → TestHost} (s : Runner σ) (hmem : ¬suite.HasMem host) :
    chunitRunSuite suite decorator host s = none :=
  runTests_exits suite decorator host suite.tests 0 _ _ hmem

/-- All the tests of a suite succeeded. -/
theorem SuiteRan.all_iff {suite : TestSuite} {host : Nat → TestHost} {tsr : TestSuiteRun}
    (h : SuiteRan suite host tsr) :
    tsr.successes = tsr.suite.tests.length ↔ ∀ tr ∈ tsr.testRuns, tr.succeeded = true := by
  rw [h.ofSuite, ← h.length, h.successes]
  exact List.countP_eq_length

theorem runSuites_spec (mod : TestModule) (decorator : Option (ModuleDecorator σ))
    (host : Nat → Nat → TestHost)
    (suites : List TestSuite) (i : Nat) (tmr : TestModuleRun) (s : Runner σ)
    (hmem : ∀ p ∈ suites.zipIdx i, p.1.HasMem (host p.2)) :
    ∃ tsrs s', runSuites mod decorator host i suites tmr s = some ({ tmr with
        suiteRuns := tmr.suiteRuns ++ tsrs
        successful := tmr.successful && tsrs.all fun tsr => tsr.successes = tsr.suite.tests.length }, s') ∧
      List.Forall₂ (fun p tsr => SuiteRan p.1 (host p.2) tsr) (suites.zipIdx i) tsrs ∧
      s'.heap.live.Perm (tsrs.flatMap TestSuiteRun.blocks ++ s.heap.live) ∧
      s'.fds = s.fds + leftOpenSuites host i tsrs ∧ s'.ctx =
        suitesContext mod decorator host i tsrs s.ctx := by
  induction suites generalizing i tmr s with
  | nil =>
    refine ⟨[], s, ?_, .nil, .refl _, rfl, rfl⟩
    rw [runSuites, List.append_nil, List.all_nil, Bool.and_true]
  | cons suite suites ih =>
    rw [List.zipIdx_cons, List.forall_mem_cons] at hmem
    obtain ⟨tsr, s₁, hrun, hran, hlive₁, hfds₁, hctx₁⟩ := chunitRunSuite_spec suite
      (decorator.map (·.suiteDecorator)) (host i)
        { s with ctx := decorate decorator (·.prepContext mod i) s.ctx } hmem.1
    obtain ⟨tsrs, s', hruns, hrans, hlive, hfds, hctx⟩ := ih (i + 1) { tmr with
      suiteRuns := tmr.suiteRuns ++ [tsr]
      successful := tmr.successful && tsr.successes = tsr.suite.tests.length }
      { s₁ with ctx := decorate decorator (·.cleanupContext) s₁.ctx } hmem.2
    refine ⟨tsr :: tsrs, s', ?_, .cons hran hrans, ?_, ?_, ?_⟩
    · rw [runSuites]
      simp only [hrun, hruns, List.append_assoc, List.singleton_append, List.all_cons, Bool.and_assoc]
    · have hperm := hlive.trans (hlive₁.append_left (tsrs.flatMap TestSuiteRun.blocks))
      rw [List.flatMap_cons]
      refine hperm.trans ?_
      rw [← List.append_assoc]
      exact List.perm_append_comm.append_right _
    · rw [hfds, hfds₁]
      simp only [leftOpenSuites, List.zipIdx_cons, List.map_cons, List.sum_cons, Nat.add_assoc]
    · rw [hctx, hctx₁, suitesContext, hran.ofSuite]

theorem runSuites_exits (mod : TestModule) (decorator : Option (ModuleDecorator σ))
    (host : Nat → Nat → TestHost) (suites : List TestSuite) (i : Nat) (tmr : TestModuleRun) (s : Runner σ)
    (hmem : ¬∀ p ∈ suites.zipIdx i, p.1.HasMem (host p.2)) :
    runSuites mod decorator host i suites tmr s = none := by
  induction suites generalizing i tmr s with
  | nil => exact absurd nofun hmem
  | cons suite suites ih =>
    rw [List.zipIdx_cons, List.forall_mem_cons] at hmem
    rw [runSuites]
    by_cases hone : suite.HasMem (host i)
    · obtain ⟨tsr, s₁, hrun, -⟩ := chunitRunSuite_spec suite (decorator.map (·.suiteDecorator)) (host i)
        { s with ctx := decorate decorator (·.prepContext mod i) s.ctx } hone
      rw [hrun]
      exact ih (i + 1) _ _ fun hrest => hmem ⟨hone, hrest⟩
    · rw [chunitRunSuite_exits _ _ hone]

/-! ## The deletes -/

/-- Owners whose delete gives back their blocks are deleted one after another. -/
theorem deleteAll {α : Type} {blocks : α → List Nat} {delete : α → Heap → Option Heap} {ok : α → Prop}
    (hdelete : ∀ a h base, ok a → h.live.Perm (blocks a ++ base) →
      ∃ h', delete a h = some h' ∧ h'.live.Perm base)
    (as : List α) {h : Heap} {base : List Nat} (hok : ∀ a ∈ as, ok a)
    (hlive : h.live.Perm (as.flatMap blocks ++ base)) :
    ∃ h', as.foldlM (fun h a => delete a h) h = some h' ∧ h'.live.Perm base := by
  induction as generalizing h with
  | nil => exact ⟨h, rfl, hlive⟩
  | cons a as ih =>
    rw [List.flatMap_cons, List.append_assoc] at hlive
    obtain ⟨h₁, hone, hlive₁⟩ := hdelete a h _ (hok a List.mem_cons_self) hlive
    obtain ⟨h', hrest, hlive'⟩ := ih (fun b hb => hok b (List.mem_cons_of_mem _ hb)) hlive₁
    exact ⟨h', by rw [List.foldlM_cons, hone]; exact hrest, hlive'⟩

theorem chunitDeleteTestRun_of_perm {h : Heap} {base : List Nat} (hfits : DataFits tr)
    (hlive : h.live.Perm (tr.blocks ++ base)) : ∃ h', chunitDeleteTestRun tr h = some h' ∧
      h'.live.Perm base :=
  chunitDeleteTestRun_of_owns (p := ⟨tr, h, fun _ => true, [], false, false⟩) hlive hfits

/-- The array and the run itself are freed last. -/
theorem freeTwo_of_perm {h : Heap} {base : List Nat} {a b : Nat} (hlive : h.live.Perm ([a, b] ++ base)) :
    ∃ h', ((h.safeFree a).bind (·.safeFree b)) = some h' ∧ h'.live.Perm base := by
  obtain ⟨h₁, hfree₁, hlive₁⟩ := Heap.safeFree_of_perm hlive
  obtain ⟨h₂, hfree₂, hlive₂⟩ := Heap.safeFree_of_perm hlive₁
  exact ⟨h₂, by rw [hfree₁, Option.bind_some, hfree₂], hlive₂⟩

theorem chunitDeleteTestSuiteRun_of_perm {tsr : TestSuiteRun} {h : Heap} {base : List Nat}
    (hfits : ∀ tr ∈ tsr.testRuns, DataFits tr) (hlive : h.live.Perm (tsr.blocks ++ base)) :
    ∃ h', chunitDeleteTestSuiteRun tsr h = some h' ∧ h'.live.Perm base := by
  rw [TestSuiteRun.blocks, List.append_assoc] at hlive
  obtain ⟨h₁, hall, hlive₁⟩ := deleteAll
    (fun tr h base => chunitDeleteTestRun_of_perm) tsr.testRuns hfits hlive
  obtain ⟨h₂, hfree, hlive₂⟩ := freeTwo_of_perm hlive₁
  exact ⟨h₂, by rw [chunitDeleteTestSuiteRun, hall]; exact hfree, hlive₂⟩

theorem chunitDeleteTestModuleRun_of_perm {tmr : TestModuleRun} {h : Heap} {base : List Nat}
    (hfits : ∀ tsr ∈ tmr.suiteRuns, ∀ tr ∈ tsr.testRuns, DataFits tr)
    (hlive : h.live.Perm (tmr.blocks ++ base)) :
    ∃ h', chunitDeleteTestModuleRun tmr h = some h' ∧ h'.live.Perm base := by
  rw [TestModuleRun.blocks, List.append_assoc] at hlive
  obtain ⟨h₁, hall, hlive₁⟩ := deleteAll
    (fun tsr h base => chunitDeleteTestSuiteRun_of_perm) tmr.suiteRuns hfits
    hlive
  obtain ⟨h₂, hfree, hlive₂⟩ := freeTwo_of_perm hlive₁
  exact ⟨h₂, by rw [chunitDeleteTestModuleRun, hall]; exact hfree, hlive₂⟩

/-! ## Decorators only watch -/

/-- The runner without the decorators' context. -/
def Runner.plain (s : Runner σ) : Runner Unit := ⟨s.heap, (), s.fds⟩

theorem chunitRunTest_plain (test : ChunitTest) (decorator : Option (TestDecorator σ)) (host : TestHost)
    (s : Runner σ) : chunitRunTest test none host s.plain =
      (chunitRunTest test decorator host s).map fun r => (r.1, r.2.plain) := by
  unfold chunitRunTest
  split
  · simp only [Option.map_map]
    rfl
  · split <;>
    · simp only [Option.map_map]
      rfl

theorem runTests_plain (suite : TestSuite) (decorator : Option (SuiteDecorator σ)) (host : Nat → TestHost)
    (tests : List ChunitTest) (i : Nat) (tsr : TestSuiteRun) (s : Runner σ) :
    runTests suite none host i tests tsr s.plain =
      (runTests suite decorator host i tests tsr s).map fun r => (r.1, r.2.plain) := by
  induction tests generalizing i tsr s with
  | nil => rfl
  | cons test tests ih =>
    have hone := chunitRunTest_plain test (decorator.map (·.testDecorator)) (host i)
      { s with ctx := decorate decorator (·.prepContext suite i) s.ctx }
    rw [runTests, runTests]
    have hundecorated : chunitRunTest test ((none : Option (SuiteDecorator Unit)).map (·.testDecorator))
        (host i) { s.plain with
          ctx := decorate (none : Option (SuiteDecorator Unit)) (·.prepContext suite i) s.plain.ctx } =
        _ := hone
    rw [hundecorated]
    cases chunitRunTest test (decorator.map (·.testDecorator)) (host i)
      { s with ctx := decorate decorator (·.prepContext suite i) s.ctx } with
    | none => rfl
    | some r => exact ih (i + 1) _ { r.2 with ctx := decorate decorator (·.cleanupContext) r.2.ctx }

theorem chunitRunSuite_plain (suite : TestSuite) (decorator : Option (SuiteDecorator σ))
    (host : Nat → TestHost)
    (s : Runner σ) : chunitRunSuite suite none host s.plain =
      (chunitRunSuite suite decorator host s).map fun r => (r.1, r.2.plain) :=
  runTests_plain suite decorator host suite.tests 0 _ { s with heap := s.heap.safeMalloc.2.safeMalloc.2 }

theorem runSuites_plain (mod : TestModule) (decorator : Option (ModuleDecorator σ))
    (host : Nat → Nat → TestHost)
    (suites : List TestSuite) (i : Nat) (tmr : TestModuleRun) (s : Runner σ) :
    runSuites mod none host i suites tmr s.plain =
      (runSuites mod decorator host i suites tmr s).map fun r => (r.1, r.2.plain) := by
  induction suites generalizing i tmr s with
  | nil => rfl
  | cons suite suites ih =>
    have hone := chunitRunSuite_plain suite (decorator.map (·.suiteDecorator)) (host i)
      { s with ctx := decorate decorator (·.prepContext mod i) s.ctx }
    rw [runSuites, runSuites]
    have hundecorated : chunitRunSuite suite ((none : Option (ModuleDecorator Unit)).map (·.suiteDecorator))
        (host i) { s.plain with
          ctx := decorate (none : Option (ModuleDecorator Unit)) (·.prepContext mod i) s.plain.ctx } =
        _ := hone
    rw [hundecorated]
    cases chunitRunSuite suite (decorator.map (·.suiteDecorator)) (host i)
      { s with ctx := decorate decorator (·.prepContext mod i) s.ctx } with
    | none => rfl
    | some r => exact ih (i + 1) _ { r.2 with ctx := decorate decorator (·.cleanupContext) r.2.ctx }

/-! ## A module -/

theorem exists_of_forall₂ {α β : Type} {r : α → β → Prop} {as : List α} {bs : List β}
    (h : List.Forall₂ r as bs)
    {b : β} (hb : b ∈ bs) : ∃ a ∈ as, r a b := by
  induction h with
  | nil => cases hb
  | @cons a b' as bs hab _ ih =>
    rcases List.mem_cons.mp hb with rfl | hb
    · exact ⟨a, List.mem_cons_self, hab⟩
    · obtain ⟨a', ha', hr⟩ := ih hb
      exact ⟨a', List.mem_cons_of_mem _ ha', hr⟩

theorem chunitRunModule_spec (mod : TestModule) (decorator : Option (ModuleDecorator σ))
    (host : Nat → Nat → TestHost) (s : Runner σ) (hmem : mod.HasMem host) :
    ∃ tmr s', chunitRunModule mod decorator host s = some (tmr, s') ∧
      List.Forall₂ (fun p tsr => SuiteRan p.1 (host p.2) tsr) mod.suites.zipIdx tmr.suiteRuns ∧
      (tmr.successful = true ↔ ∀ tsr ∈ tmr.suiteRuns, ∀ tr ∈ tsr.testRuns, tr.succeeded = true) ∧
      s'.heap.live.Perm (tmr.blocks ++ s.heap.live) ∧
      s'.fds = s.fds + leftOpenSuites host 0 tmr.suiteRuns ∧
      s'.ctx = suitesContext mod decorator host 0 tmr.suiteRuns s.ctx := by
  unfold chunitRunModule
  simp only
  obtain ⟨tsrs, s', hruns, hrans, hlive, hfds, hctx⟩ := runSuites_spec mod decorator host mod.suites 0
    ⟨s.heap.safeMalloc.1, mod, true, s.heap.safeMalloc.2.safeMalloc.1, []⟩
    { s with heap := s.heap.safeMalloc.2.safeMalloc.2 } hmem
  refine ⟨_, s', hruns, hrans, ?_, ?_, hfds, hctx⟩
  · rw [Bool.true_and, List.all_eq_true]
    refine forall₂_congr fun tsr htsr => ?_
    obtain ⟨p, -, hran⟩ := exists_of_forall₂ hrans htsr
    rw [decide_eq_true_eq, hran.all_iff]
  · unfold TestModuleRun.blocks
    rw [List.append_assoc]
    exact hlive

theorem chunitRunModule_exits (mod : TestModule) (decorator : Option (ModuleDecorator σ))
    (host : Nat → Nat → TestHost) (s : Runner σ) (hmem : ¬mod.HasMem host) :
    chunitRunModule mod decorator host s = none :=
  runSuites_exits mod decorator host mod.suites 0 _ _ hmem

theorem fits_of_ran {mod : TestModule} {host : Nat → Nat → TestHost} {tsrs : List TestSuiteRun}
    (h : List.Forall₂ (fun p tsr => SuiteRan p.1 (host p.2) tsr) mod.suites.zipIdx tsrs) :
    ∀ tsr ∈ tsrs, ∀ tr ∈ tsr.testRuns, DataFits tr := by
  intro tsr htsr
  obtain ⟨p, -, hran⟩ := exists_of_forall₂ h htsr
  exact hran.fits

/-- **A module.** Where the host has no memory for the strings of a test's message, the process ends.
Whatever else the host answers and the children do, the run of a module returns, with a run for
each test of each suite in order; it is successful exactly when every test succeeded, which no test
without a process does; the decorators change nothing; the descriptors left open are two for a process that
was not made and one for a pipe error noted after that; and the delete gives back every buffer, each once. -/
theorem chunitRunModule_exact (mod : TestModule) (decorator : Option (ModuleDecorator σ))
    (host : Nat → Nat → TestHost) (s : Runner σ) :
    (¬mod.HasMem host → chunitRunModule mod decorator host s = none) ∧
    (mod.HasMem host → ∃ tmr s', chunitRunModule mod decorator host s = some (tmr, s') ∧
      chunitRunModule mod none host s.plain = some (tmr, s'.plain) ∧
      List.Forall₂ (fun p tsr => SuiteRan p.1 (host p.2) tsr) mod.suites.zipIdx tmr.suiteRuns ∧
      (tmr.successful = true ↔ ∀ tsr ∈ tmr.suiteRuns, ∀ tr ∈ tsr.testRuns, tr.succeeded = true) ∧
      s'.fds = s.fds + leftOpenSuites host 0 tmr.suiteRuns ∧
      ∃ h, chunitDeleteTestModuleRun tmr s'.heap = some h ∧ h.live.Perm s.heap.live) := by
  refine ⟨chunitRunModule_exits mod decorator host s, fun hmem => ?_⟩
  obtain ⟨tmr, s', hrun, hrans, hall, hlive, hfds, -⟩ := chunitRunModule_spec mod decorator host s hmem
  refine ⟨tmr, s', hrun, ?_, hrans, hall, hfds, chunitDeleteTestModuleRun_of_perm (fits_of_ran hrans) hlive⟩
  have hplain := runSuites_plain mod decorator host mod.suites 0
    ⟨s.heap.safeMalloc.1, mod, true, s.heap.safeMalloc.2.safeMalloc.1, []⟩
    { s with heap := s.heap.safeMalloc.2.safeMalloc.2 }
  have hrun' : runSuites mod decorator host 0 mod.suites
      ⟨s.heap.safeMalloc.1, mod, true, s.heap.safeMalloc.2.safeMalloc.1, []⟩
      { s with heap := s.heap.safeMalloc.2.safeMalloc.2 } = some (tmr, s') := hrun
  rw [hrun'] at hplain
  exact hplain

/-- One test, which leaves the comparison of two strings in the pipe. -/
def strsModule : TestModule := ⟨"m", [⟨"s", [⟨"t", false⟩]⟩]⟩

def strsHost (mem : Nat → Bool) : TestHost where
  pipeErr := false
  pid := some 7
  wait := .exited 0
  killErr := false
  pipe := le 4 TestResult.assertEqStrFail.code ++ (le 8 2 ++ le 8 3) ++ [97, 0] ++ [98, 99, 0]
  mem

/-- The strings take three and four bytes: a host with blocks of four has the module run. -/
theorem chunitRunModule_of_strs : (∃ tmr s', chunitRunModule strsModule none
    (fun _ _ => strsHost (decide <| · ≤ 4)) ⟨⟨0, [], nofun, .nil⟩, (), 0⟩ = some (tmr, s') ∧
      ∃ h, chunitDeleteTestModuleRun tmr s'.heap = some h ∧ h.live.Perm []) ∧
    chunitRunModule strsModule none (fun _ _ => strsHost (decide <| · ≤ 3))
      ⟨⟨0, [], nofun, .nil⟩, (), 0⟩ = none := by
  constructor
  · obtain ⟨tmr, s', hrun, -, -, -, -, hdelete⟩ := (chunitRunModule_exact strsModule none
      (fun _ _ => strsHost (decide <| · ≤ 4)) ⟨⟨0, [], nofun, .nil⟩, (), 0⟩).2 (by decide)
    exact ⟨tmr, s', hrun, hdelete⟩
  · exact (chunitRunModule_exact strsModule none (fun _ _ => strsHost (decide <| · ≤ 3))
      ⟨⟨0, [], nofun, .nil⟩, (), 0⟩).1 (by decide)

end

/-! ## The progress bar -/

/-- A line of output: how far the bar is, with the suite, the test and its process, or that all is done. -/
inductive PbarLine
  | running (completed total : Nat) (suite : Option String) (test : String) (pid : Nat)
  | done
deriving DecidableEq, Repr

/-- `chunit_pbar_context`, and what was printed. -/
structure PbarContext where
  mod : TestModule
  suiteI : Nat
  totalTests : Nat
  completedTests : Nat
  out : List PbarLine

/-- `chunit_pbar_start_test`. -/
def chunitPbarStartTest (test : ChunitTest) (pid : Nat) (c : PbarContext) : PbarContext :=
  { c with out := c.out ++
      [.running c.completedTests c.totalTests ((c.mod.suites[c.suiteI]?).map (·.name)) test.name pid] }

/-- `chunit_pbar_end_test`. -/
def chunitPbarEndTest (c : PbarContext) : PbarContext :=
  let c := { c with completedTests := c.completedTests + 1 }
  if c.completedTests = c.totalTests then { c with out := c.out ++ [.done] } else c

/-- `CHUNIT_PBAR_MOD_DEC`, with the decorators in it. -/
def chunitPbarModDec : ModuleDecorator PbarContext where
  suiteDecorator := {
    testDecorator := { startTest := chunitPbarStartTest, endTest := fun _ => chunitPbarEndTest }
    prepContext := fun _ _ c => c
    cleanupContext := id }
  prepContext := fun _ i c => { c with suiteI := i }
  cleanupContext := id

def TestModule.totalTests (mod : TestModule) : Nat := (mod.suites.map (·.tests.length)).sum

/-- `chunit_run_module_pb`: the run, the runner and what was printed. -/
def chunitRunModulePb (mod : TestModule) (host : Nat → Nat → TestHost) (s : Runner Unit) :
    Option (TestModuleRun × Runner Unit × List PbarLine) :=
  let (buf, heap) := s.heap.safeMalloc
  match chunitRunModule mod (some chunitPbarModDec) host ⟨heap, ⟨mod, 0, mod.totalTests, 0, []⟩, s.fds⟩ with
  | none => none
  | some (tmr, s) => (s.heap.safeFree buf).map fun heap => (tmr, ⟨heap, (), s.fds⟩, s.ctx.out)

/-- A test with its process, where there is one. -/
def TestHost.started (host : TestHost) (test : ChunitTest) : Option (ChunitTest × Nat) :=
  if host.pipeErr then none else host.pid.map (test, ·)

/-- The tests of a suite, from the one at `i` on, for which there was a process. -/
def startedTests (host : Nat → TestHost) (i : Nat) (tests : List ChunitTest) : List (ChunitTest × Nat) :=
  (tests.zipIdx i).filterMap fun p => (host p.2).started p.1

/-- The tests of a module for which there was a process, with their suites. -/
def startedOf (host : Nat → Nat → TestHost) (i : Nat) (suites : List TestSuite) : List
    (String × ChunitTest × Nat) :=
  (suites.zipIdx i).flatMap fun (suite, j) => (startedTests (host j) 0 suite.tests).map (suite.name, ·)

/-- The lines of tests that were started, the first as the `k`-th, and the last line when they bring the bar
to its end. -/
def pbarLines (total k : Nat) (started : List (String × ChunitTest × Nat)) : List PbarLine :=
  (started.zipIdx k).map (fun ((suite, test, pid), k) => .running k total (some suite) test.name pid) ++
    if started ≠ [] ∧ k + started.length = total then [.done] else []

@[simp] theorem pbarLines_nil (total k : Nat) : pbarLines total k [] = [] := by
  rw [pbarLines, if_neg fun h => h.1 rfl]
  rfl

/-- Only the last of the started tests can bring the bar to its end. -/
theorem pbarLines_append (total k : Nat) (as bs : List (String × ChunitTest × Nat))
    (hle : k + (as ++ bs).length ≤ total) :
    pbarLines total k as ++ pbarLines total (k + as.length) bs = pbarLines total k (as ++ bs) := by
  rw [List.length_append] at hle
  cases bs with
  | nil => rw [pbarLines_nil, List.append_nil, List.append_nil]
  | cons b bs =>
    rw [List.length_cons] at hle
    have hnot : ¬(as ≠ [] ∧ k + as.length = total) := fun h => by omega
    have hiff : (b :: bs ≠ [] ∧ k + as.length + (b :: bs).length = total) ↔
        as ++ b :: bs ≠ [] ∧ k + (as ++ b :: bs).length = total := by
      rw [List.length_append, Nat.add_assoc]
      exact and_congr_left fun _ => iff_of_true (List.cons_ne_nil _ _)
        (List.append_ne_nil_of_right_ne_nil _ (List.cons_ne_nil _ _))
    unfold pbarLines
    rw [if_neg hnot, List.append_nil, List.zipIdx_append, List.map_append, List.append_assoc]
    simp only [hiff]

/-- The bar after a test that was started. -/
def pbarTest (c : PbarContext) (p : ChunitTest × Nat) : PbarContext :=
  chunitPbarEndTest (chunitPbarStartTest p.1 p.2 c)

theorem testsContext_pbar (suite : TestSuite) (host : Nat → TestHost) (tests : List ChunitTest) (i : Nat)
    {trs : List TestRun} (hlen : trs.length = tests.length) (c : PbarContext) :
    testsContext suite (some chunitPbarModDec.suiteDecorator) host i tests trs c =
      (startedTests host i tests).foldl pbarTest c := by
  induction tests generalizing i trs c with
  | nil =>
    rw [List.length_eq_zero_iff.mp hlen]
    rfl
  | cons test tests ih =>
    obtain ⟨tr, trs, rfl⟩ := List.exists_cons_of_length_eq_add_one hlen
    rw [testsContext]
    rw [ih (i + 1) (Nat.succ.inj hlen)]
    have hcontext : testContext test (some chunitPbarModDec.suiteDecorator.testDecorator) (host i) tr c =
        ((host i).started test).toList.foldl pbarTest c := by
      unfold testContext TestHost.started
      cases (host i).pipeErr with
      | true => rfl
      | false =>
        cases (host i).pid with
        | none => rfl
        | some pid => rfl
    have hstarted : startedTests host i (test :: tests) =
        ((host i).started test).toList ++ startedTests host (i + 1) tests := by
      unfold startedTests
      rw [List.zipIdx_cons, List.filterMap_cons]
      cases (host i).started test with
      | none => rfl
      | some p => rfl
    rw [hstarted, List.foldl_append, ← hcontext]
    rfl

theorem pbarTest_eq {name : String} {p : ChunitTest × Nat} {c : PbarContext}
    (hsuite : (c.mod.suites[c.suiteI]?).map (·.name) = some name) : pbarTest c p = { c with
      completedTests := c.completedTests + 1
      out := c.out ++ pbarLines c.totalTests c.completedTests [(name, p)] } := by
  have hlines : pbarLines c.totalTests c.completedTests [(name, p)] =
      .running c.completedTests c.totalTests (some name) p.1.name p.2 ::
        if c.completedTests + 1 = c.totalTests then [.done] else [] := by
    simp [pbarLines]
  unfold pbarTest chunitPbarEndTest chunitPbarStartTest
  rw [hlines]
  simp only [hsuite]
  split
  · rw [List.append_assoc]
    rfl
  · rfl

/-- The started tests of one suite. -/
theorem foldl_pbarTest {name : String} (ps : List (ChunitTest × Nat)) {c : PbarContext}
    (hsuite : (c.mod.suites[c.suiteI]?).map (·.name) = some name)
    (hle : c.completedTests + ps.length ≤ c.totalTests) : ps.foldl pbarTest c = { c with
      completedTests := c.completedTests + ps.length
      out := c.out ++ pbarLines c.totalTests c.completedTests (ps.map (name, ·)) } := by
  induction ps generalizing c with
  | nil =>
    rw [List.map_nil, pbarLines_nil, List.append_nil]
    rfl
  | cons p ps ih =>
    rw [List.length_cons] at hle
    have hrest := ih (c := { c with
      completedTests := c.completedTests + 1
      out := c.out ++ pbarLines c.totalTests c.completedTests [(name, p)] }) hsuite (by
        show c.completedTests + 1 + ps.length ≤ c.totalTests
        omega)
    have happend := pbarLines_append c.totalTests c.completedTests [(name, p)] (ps.map (name, ·)) (by
      rw [List.length_append, List.length_map, List.length_singleton]
      omega)
    rw [List.foldl_cons, pbarTest_eq hsuite, hrest, List.append_assoc]
    rw [List.length_singleton] at happend
    rw [happend, List.length_cons, Nat.add_assoc, Nat.add_comm 1]
    rfl

theorem length_startedTests_le (host : Nat → TestHost) (i : Nat) (tests : List ChunitTest) :
    (startedTests host i tests).length ≤ tests.length := by
  have hle := List.length_filterMap_le (fun p : ChunitTest × Nat => (host p.2).started p.1) (tests.zipIdx i)
  rw [List.length_zipIdx] at hle
  exact hle

theorem startedOf_cons (host : Nat → Nat → TestHost) (i : Nat) (suite : TestSuite) (suites : List TestSuite) :
    startedOf host i (suite :: suites) =
      (startedTests (host i) 0 suite.tests).map (suite.name, ·) ++ startedOf host (i + 1) suites := by
  rw [startedOf, List.zipIdx_cons, List.flatMap_cons]
  rfl

theorem length_startedOf_le (host : Nat → Nat → TestHost) (i : Nat) (suites : List TestSuite) :
    (startedOf host i suites).length ≤ (suites.map (·.tests.length)).sum := by
  induction suites generalizing i with
  | nil => exact Nat.le_refl _
  | cons suite suites ih =>
    rw [startedOf_cons, List.length_append, List.length_map, List.map_cons, List.sum_cons]
    exact Nat.add_le_add (length_startedTests_le _ _ _) (ih (i + 1))

/-- The bar of a module. -/
theorem suitesContext_pbar {mod : TestModule} {host : Nat → Nat → TestHost} {suites : List TestSuite}
    {i : Nat}
    {tsrs : List TestSuiteRun}
    (hrans : List.Forall₂ (fun p tsr => SuiteRan p.1 (host p.2) tsr) (suites.zipIdx i) tsrs)
    (hsuites : ∀ k, mod.suites[i + k]? = suites[k]?) {c : PbarContext} (hmod : c.mod = mod)
    (hle : c.completedTests + (startedOf host i suites).length ≤ c.totalTests) :
    (suitesContext mod (some chunitPbarModDec) host i tsrs c).out = c.out ++
      pbarLines c.totalTests c.completedTests (startedOf host i suites) := by
  induction suites generalizing i tsrs c with
  | nil =>
    cases hrans
    rw [startedOf, List.zipIdx_nil, List.flatMap_nil, pbarLines_nil, List.append_nil]
    rfl
  | cons suite suites ih =>
    rw [List.zipIdx_cons] at hrans
    cases hrans with
    | @cons _ tsr _ tsrs hran hrest =>
      obtain ⟨hsuite, hlen, -⟩ := hran
      rw [startedOf_cons] at hle ⊢
      rw [List.length_append, List.length_map] at hle
      have hname : (c.mod.suites[i]?).map (·.name) = some suite.name := by
        rw [hmod, show i = i + 0 from rfl, hsuites 0]
        rfl
      have hone := foldl_pbarTest (startedTests (host i) 0 suite.tests) (c := { c with suiteI := i }) hname
        (by
        show c.completedTests + _ ≤ c.totalTests
        omega)
      have hcontext := testsContext_pbar suite (host i) suite.tests 0 hlen { c with suiteI := i }
      rw [hone] at hcontext
      have hnext : ∀ k, mod.suites[i + 1 + k]? = suites[k]? := fun k => by
        rw [Nat.add_assoc, Nat.add_comm 1, hsuites (k + 1)]
        rfl
      rw [suitesContext, hsuite]
      show (suitesContext mod (some chunitPbarModDec) host (i + 1) tsrs
        (testsContext suite (some chunitPbarModDec.suiteDecorator) (host i) 0 suite.tests tsr.testRuns
          { c with suiteI := i })).out = _
      rw [hcontext]
      have hout := ih (c := { c with
        suiteI := i
        completedTests := c.completedTests + (startedTests (host i) 0 suite.tests).length
        out := c.out ++ pbarLines c.totalTests c.completedTests
          ((startedTests (host i) 0 suite.tests).map (suite.name, ·)) }) hrest hnext hmod (by
        show c.completedTests + _ + _ ≤ c.totalTests
        omega)
      have happend := pbarLines_append c.totalTests c.completedTests
        ((startedTests (host i) 0 suite.tests).map (suite.name, ·)) (startedOf host (i + 1) suites) (by
          rw [List.length_append, List.length_map]
          omega)
      rw [List.length_map] at happend
      refine hout.trans ?_
      rw [List.append_assoc]
      exact congrArg _ happend

/-- **The progress bar.** Given memory for the strings of the messages, a module run under the bar gives the
run of the module; a line is printed for each test for which there was a process, in order, and the last
line exactly when there was one for every test, of which there are some; and with the delete every buffer
is given back, the bar's among them. -/
theorem chunitRunModulePb_exact (mod : TestModule) (host : Nat → Nat → TestHost) (s : Runner Unit) :
    (¬mod.HasMem host → chunitRunModulePb mod host s = none) ∧
    (mod.HasMem host → ∃ tmr s' out, chunitRunModulePb mod host s = some (tmr, s', out) ∧
      List.Forall₂ (fun p tsr => SuiteRan p.1 (host p.2) tsr) mod.suites.zipIdx tmr.suiteRuns ∧
      (tmr.successful = true ↔ ∀ tsr ∈ tmr.suiteRuns, ∀ tr ∈ tsr.testRuns, tr.succeeded = true) ∧
      out = pbarLines mod.totalTests 0 (startedOf host 0 mod.suites) ∧
      (.done ∈ out ↔ mod.totalTests ≠ 0 ∧ (startedOf host 0 mod.suites).length = mod.totalTests) ∧
      ∃ h, chunitDeleteTestModuleRun tmr s'.heap = some h ∧ h.live.Perm s.heap.live) := by
  refine ⟨fun hnot => ?_, fun hmem => ?_⟩
  · unfold chunitRunModulePb
    simp only [chunitRunModule_exits mod _ host _ hnot]
  obtain ⟨tmr, s', hrun, hrans, hall, hlive, -, hctx⟩ := chunitRunModule_spec mod (some chunitPbarModDec) host
    ⟨s.heap.safeMalloc.2, ⟨mod, 0, mod.totalTests, 0, []⟩, s.fds⟩ hmem
  have hle : 0 + (startedOf host 0 mod.suites).length ≤ mod.totalTests := by
    rw [Nat.zero_add]
    exact length_startedOf_le host 0 mod.suites
  have hout := suitesContext_pbar (c := ⟨mod, 0, mod.totalTests, 0, []⟩) hrans
    (fun k => by rw [Nat.zero_add]) rfl hle
  rw [← hctx, List.nil_append] at hout
  -- the context's buffer is freed while the run's are live
  have hbuf : s'.heap.live.Perm (s.heap.safeMalloc.1 :: (tmr.blocks ++ s.heap.live)) :=
    hlive.trans List.perm_middle
  obtain ⟨h₁, hfree, hlive₁⟩ := Heap.safeFree_of_perm hbuf
  refine ⟨tmr, ⟨h₁, (), s'.fds⟩, s'.ctx.out, ?_, hrans, hall, hout, ?_,
    chunitDeleteTestModuleRun_of_perm (fits_of_ran hrans) hlive₁⟩
  · unfold chunitRunModulePb
    simp only [hrun, hfree, Option.map_some]
  · rw [hout]
    unfold pbarLines
    rw [List.mem_append, Nat.zero_add]
    have hrunning : ∀ l : List ((String × ChunitTest × Nat) × Nat), PbarLine.done ∉
        l.map fun ((suite, test, pid), k) => .running k mod.totalTests (some suite) test.name pid := by
      intro l hmem
      obtain ⟨p, -, heq⟩ := List.mem_map.mp hmem
      cases heq
    rw [or_iff_right (hrunning _)]
    split
    next h =>
      have hpos := List.length_pos_iff.mpr h.1
      have hall : (startedOf host 0 mod.suites).length = mod.totalTests := h.2
      exact iff_of_true (List.mem_singleton_self _) ⟨by omega, hall⟩
    next h =>
      refine iff_of_false List.not_mem_nil fun ⟨hsome, hall⟩ => h ⟨List.length_pos_iff.mp (by omega), hall⟩

/-- The same module under the bar. -/
theorem chunitRunModulePb_of_strs : (∃ tmr s' out, chunitRunModulePb strsModule
    (fun _ _ => strsHost (decide <| · ≤ 4)) ⟨⟨0, [], nofun, .nil⟩, (), 0⟩ = some (tmr, s', out) ∧
      out = [.running 0 1 (some "s") "t" 7, .done] ∧ tmr.successful = false) ∧
    chunitRunModulePb strsModule (fun _ _ => strsHost (decide <| · ≤ 3))
      ⟨⟨0, [], nofun, .nil⟩, (), 0⟩ = none := by
  constructor
  · obtain ⟨tmr, s', out, hrun, -, -, hout, -⟩ := (chunitRunModulePb_exact strsModule
      (fun _ _ => strsHost (decide <| · ≤ 4)) ⟨⟨0, [], nofun, .nil⟩, (), 0⟩).2 (by decide)
    refine ⟨tmr, s', out, hrun, hout, ?_⟩
    cases hrun
    rfl
  · exact (chunitRunModulePb_exact strsModule (fun _ _ => strsHost (decide <| · ≤ 3))
      ⟨⟨0, [], nofun, .nil⟩, (), 0⟩).1 (by decide)

/-- A process that was not made leaves the bar undone, and its pipe open. -/
example : (chunitRunModulePb strsModule (fun _ _ => { strsHost fun _ => true with pid := none })
    ⟨⟨0, [], nofun, .nil⟩, (), 0⟩).map (fun r => (r.1.successful, r.2.1.fds, r.2.2)) =
      some (false, 2, []) := rfl

end Chvm.Testing
