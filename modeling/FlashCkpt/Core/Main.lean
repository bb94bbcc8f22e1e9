import FlashCkpt.Core.Options

/-! The exits of `ckpt_core`. Each path of `main` is the sequence of its fallible
steps and of its writes to the driver and to the gate; a fallible step that
fails returns from `main` with nothing undone. -/
namespace FlashCkpt.Core

open Gate (Phase)

/-- The capture a buffered or streaming step works on. -/
inductive Part where
  | dynamic | static | base | delta
  deriving DecidableEq, Repr

/-- The points of `main` at which it may fail. -/
inductive Site where
  | root | openUvm | uvmInitialize | keyGeneration | gateOpen
  | allocTable
  | prepareAll
  | baselineErr | mallocDirty | getDirtyPages | deltaErr
  | rangesFile | openRanges | mallocRanges
  | getVaRanges
  | callocCaps (part : Part)
  | capture (part : Part) (i : Nat)
  | encrypt (part : Part)
  | writeImage (part : Part)
  | coalesced (part : Part)
  | poolInit (part : Part)
  | regionSizes
  | streamStart (part : Part)
  | callocCap (part : Part) (i : Nat)
  | streamJoin (part : Part)
  | mallocRegions
  deriving DecidableEq, Repr

/-- How `FINALIZE` goes. The driver reports success also when it could not
allocate a block context or could not map a block back. -/
inductive FinalizeOutcome where
  | complete | partialOk | fails
  deriving DecidableEq, Repr

/-- What a run meets: which steps fail, the sizes that decide its loops, and
whether the application parks again between the two writes of a release that
writes `RESUME` first. -/
structure Env where
  fails : Site → Bool
  nFilt : Nat
  nStatic : Nat
  nRegions : Nat
  nDynamic : Nat
  finalize : FinalizeOutcome
  reparks : Bool

/-- The driver and the gate as this run leaves them. -/
structure Sys where
  prepared : Bool
  tracking : Bool
  requested : Bool
  ckptReq : Bool
  phase : Phase
  err : Bool
  deriving DecidableEq, Repr

/-- The state after `gate_open`. -/
def opened (phase : Phase) : Sys where
  prepared := false
  tracking := false
  requested := false
  ckptReq := false
  phase := phase
  err := false

inductive Check where
  | attempt (site : Site)
  | require (condition : Bool)
  deriving DecidableEq, Repr

def Check.failing (env : Env) : Check → Bool
  | .attempt site => env.fails site
  | .require condition => !condition

/-- A stretch of fallible steps, a stretch whose failures are only recorded, or
a write. -/
inductive Step where
  | checks (list : List Check)
  | tolerate (sites : List Site)
  | track
  | request
  | awaitBoundary
  | finalize
  | releaseReqFirst
  | releasePhaseFirst
  deriving DecidableEq, Repr

/-- `none` is an early return. -/
def Step.exec (env : Env) (s : Sys) : Step → Option Sys
  | .checks list => if list.any (Check.failing env) then none else some s
  | .tolerate sites => some { s with err := s.err || sites.any env.fails }
  | .track => some { s with prepared := true, tracking := true }
  | .request => some { s with requested := true, ckptReq := true }
  | .awaitBoundary => some { s with phase := .atBoundary }
  | .finalize => some { s with tracking := s.tracking && env.finalize != .complete }
  | .releaseReqFirst => some { s with ckptReq := false, phase := .resume }
  | .releasePhaseFirst =>
      some { s with ckptReq := false, phase := if env.reparks then .atBoundary else .resume }

/-- The state when `main` returns, and its exit code. -/
def runSteps (env : Env) : List Step → Sys → Sys × Nat
  | [], s => (s, if s.err then 1 else 0)
  | step :: rest, s =>
      match step.exec env s with
      | none => (s, 1)
      | some s' => runSteps env rest s'

def attempts (sites : List Site) : List Check := sites.map .attempt

def captures (part : Part) (n : Nat) : List Site := (List.range n).map (.capture part)

/-- The buffered capture of a part: all ranges, then the CPU encryption when it
is wanted, then the image. -/
def buffered (part : Part) (n : Nat) (encrypted : Bool) : List Check :=
  attempts (.callocCaps part :: captures part n ++
    (if encrypted then [.encrypt part] else []) ++ [.writeImage part])

/-- The streaming capture of a part: a capture record and a capture for each
range, then the join of the writer pool, which reports every worker. -/
def streamed (part : Part) (n : Nat) : List Check :=
  attempts (.streamStart part ::
    (List.range n).flatMap (fun i => [.callocCap part i, .capture part i]) ++
    [.streamJoin part])

/-- Everything before the branch into the four paths. -/
def startChecks (o : Options) : List Check :=
  .require o.valid :: attempts ([.root, .openUvm, .uvmInitialize] ++
    (if o.needK3 then [.keyGeneration] else []) ++ [.gateOpen])

def staticChecks (o : Options) (env : Env) : List Check :=
  if env.nStatic = 0 then []
  else if o.useEncryptedIoctl then attempts [.coalesced .static]
  else buffered .static env.nStatic true

/-- What each path does before it prepares the driver or stops the application. -/
def setupChecks (o : Options) (env : Env) : List Check :=
  startChecks o ++
    match o.mode with
    | .strawman => attempts [.allocTable, .baselineErr, .writeImage .delta]
    | .precopyBaseline => attempts [.allocTable, .prepareAll]
    | .stunCopy => attempts [.rangesFile, .openRanges, .mallocRanges]
    | .mainPath =>
        attempts [.getVaRanges] ++ [.require (0 < env.nFilt)] ++ staticChecks o env ++
          attempts [.prepareAll]

def baseChecks (o : Options) (env : Env) : List Check :=
  if o.useEncryptedIoctl && o.coalesce then attempts [.coalesced .base]
  else if o.useEncryptedIoctl then attempts [.poolInit .base] ++ streamed .base env.nFilt
  else buffered .base env.nFilt o.encryptK3

def deltaChecks (o : Options) (env : Env) : List Check :=
  if o.useEncryptedIoctl && !o.deltaLegacy then attempts [.coalesced .delta]
  else
    attempts [.mallocDirty, .getDirtyPages, .mallocRegions] ++
      if o.useEncryptedIoctl && 0 < env.nRegions then
        attempts [.poolInit .delta, .regionSizes] ++ streamed .delta env.nRegions
      else buffered .delta env.nRegions (o.encryptK3 || o.useEncryptedIoctl)

/-- What each path does from the moment the driver tracks or `ckpt_req` is set. -/
def work (o : Options) (env : Env) : List Step :=
  match o.mode with
  | .strawman => []
  | .precopyBaseline =>
      [.track, .checks (attempts [.baselineErr]), .request, .awaitBoundary,
       .checks (attempts [.mallocDirty, .getDirtyPages]), .releasePhaseFirst,
       .checks (attempts [.deltaErr]), .finalize]
  | .stunCopy =>
      [.request, .awaitBoundary, .checks (attempts [.callocCaps .dynamic]),
       .tolerate (captures .dynamic env.nDynamic ++
         (if o.encryptK3 || o.useEncryptedIoctl then [.encrypt .dynamic] else []) ++
         [.writeImage .dynamic, .writeImage .delta]),
       .releaseReqFirst]
  | .mainPath =>
      .track ::
        (if o.pauseFirst then
          [.request, .awaitBoundary, .checks (baseChecks o env)]
        else [.checks (baseChecks o env), .request, .awaitBoundary]) ++
      [.checks (deltaChecks o env), .finalize, .releaseReqFirst]

def runMain (o : Options) (env : Env) (phase : Phase) : Sys × Nat :=
  runSteps env (.checks (setupChecks o env) :: work o env) (opened phase)

/-- If the run prepared the driver or stopped the application, the driver is
finalized and the application released. -/
def Restored (s : Sys) : Prop :=
  s.prepared = true ∨ s.requested = true →
    s.tracking = false ∧ s.ckptReq = false ∧ s.phase = .resume

/-- The steps which, going wrong, leave the system as it is or unreleased. -/
def Step.goesWrong (env : Env) : Step → Bool
  | .checks list => list.any (Check.failing env)
  | .finalize => env.finalize != .complete
  | .releasePhaseFirst => env.reparks
  | _ => false

theorem runSteps_checks (env : Env) (list : List Check) (rest : List Step) (s : Sys) :
    runSteps env (.checks list :: rest) s =
      if list.any (Check.failing env) then (s, 1) else runSteps env rest s := by
  cases hAny : list.any (Check.failing env) <;> simp [runSteps, Step.exec, hAny]

/-- On each path, the part after the set-up restores the system exactly when
nothing in it goes wrong: every early return comes after `track` or `request`
and before the matching `finalize` or release. -/
theorem restored_work_iff (o : Options) (env : Env) (phase : Phase) :
    Restored (runSteps env (work o env) (opened phase)).1 ↔
      ∀ step ∈ work o env, step.goesWrong env = false := by
  cases hMode : o.mode with
  | strawman => simp [work, hMode, runSteps, Restored, opened]
  | precopyBaseline =>
      simp only [work, hMode]
      generalize attempts [.baselineErr] = baseline
      generalize attempts [.mallocDirty, .getDirtyPages] = dirty
      generalize attempts [.deltaErr] = delta
      cases hBaseline : baseline.any (Check.failing env) <;>
        cases hDirty : dirty.any (Check.failing env) <;>
        cases hDelta : delta.any (Check.failing env) <;>
        simp [runSteps, Step.exec, Step.goesWrong, Restored, opened, hBaseline, hDirty, hDelta,
          and_comm]
  | stunCopy =>
      simp only [work, hMode]
      generalize attempts [.callocCaps .dynamic] = calloc
      cases hCalloc : calloc.any (Check.failing env) <;>
        simp [runSteps, Step.exec, Step.goesWrong, Restored, opened, hCalloc]
  | mainPath =>
      simp only [work, hMode]
      generalize baseChecks o env = base
      generalize deltaChecks o env = delta
      cases o.pauseFirst <;>
        cases hBase : base.any (Check.failing env) <;>
        cases hDelta : delta.any (Check.failing env) <;>
        simp [runSteps, Step.exec, Step.goesWrong, Restored, opened, hBase, hDelta]

/-- A run restores the system exactly when it returns before it has changed
anything, or nothing goes wrong afterwards. -/
theorem restored_iff (o : Options) (env : Env) (phase : Phase) :
    Restored (runMain o env phase).1 ↔
      (∃ check ∈ setupChecks o env, check.failing env = true) ∨
        ∀ step ∈ work o env, step.goesWrong env = false := by
  rw [runMain, runSteps_checks, ← List.any_eq_true]
  cases hSetup : (setupChecks o env).any (Check.failing env) with
  | true => simp [Restored, opened]
  | false =>
      simp only [Bool.false_eq_true, if_false, false_or]
      exact restored_work_iff o env phase

/-- An encrypted pre-copy run whose fused delta ioctl fails. -/
def fusedDeltaFails : Env where
  fails := fun site => site = .coalesced .delta
  nFilt := 1
  nStatic := 0
  nRegions := 0
  nDynamic := 0
  finalize := .complete
  reparks := false

/-- `main` returns with the driver tracking and the application stopped. -/
theorem not_restored_fusedDeltaFails :
    ¬ ∀ (o : Options) (env : Env) (phase : Phase), Restored (runMain o env phase).1 := by
  intro h
  have hRestored := h { useEncryptedIoctl := true, coalesce := true } fusedDeltaFails .init
  have hTracking := (hRestored (.inl rfl)).1
  cases hTracking

end FlashCkpt.Core
