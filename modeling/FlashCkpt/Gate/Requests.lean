import FlashCkpt.Gate.Protocol
import FlashCkpt.Library.ByteImage

/-! The request words of the gate over a sequence of `ckpt_core` runs against one
application. Every word carries the run that wrote it last; the handlers of
`libckpt_vllm.c` log what they read. A baseline copies page by page, inside the
hook or in a background thread, while the GPU works on. -/
namespace FlashCkpt.Gate.Requests

open Transition ByteImage

/-- A word of the gate and the run that wrote it last. The zero-filled gate has
no writer. -/
structure Cell (α : Type) where
  value : α
  writer : Option Nat
  deriving DecidableEq, Repr

/-- What the command line of a run gives to its requests. -/
structure Args where
  mode : Mode
  basePath : Bytes
  deltaPath : Bytes
  mstreams : Nat
  deriving DecidableEq, Repr

/-- The words the handlers read to serve a request. -/
inductive Field where
  | baselineConcurrent
  | baselinePath
  | baselineMstreams
  | deltaPath
  | dirtyTable
  deriving DecidableEq, Repr

/-- A handler's read on behalf of a run. -/
structure Read where
  run : Nat
  mode : Mode
  field : Field
  writer : Option Nat
  deriving DecidableEq, Repr

/-- Position inside `maybe_baseline_post_sync`: claimed by the swap, mode read,
waiting for the device, copying. A copy that does not stop the world is that of
`baseline_bg_thread`. -/
inductive Stage where
  | claimed
  | decided (concurrent : Bool)
  | quiescing
  | copying (stopTheWorld : Bool)
  deriving DecidableEq, Repr

/-- A claimed baseline. `origin` is the memory when the copying began. -/
structure Baseline where
  thread : Nat
  stage : Stage
  path : Bytes
  mstreams : Nat
  origin : Nat → Nat
  image : Nat → Option Nat

/-- A baseline image that was reported as written. -/
structure Written where
  run : Nat
  mode : Mode
  stopTheWorld : Bool
  path : Bytes
  mstreams : Nat
  origin : Nat → Nat
  image : Nat → Option Nat

/-- Position of the current run. -/
inductive AgentPc where
  | idle
  | opening
  | opened
  | written
  | awaitBaseline
  | closing
  | stun
  | awaitBoundary
  | stopped
  | deltaWritten
  | awaitDelta
  | clearing
  deriving DecidableEq, Repr

structure State where
  phase : Phase
  ckptReq : Bool
  baselineReq : Nat
  baselineDone : Bool
  baselineErr : Bool
  baselineConcurrent : Cell Bool
  baselinePath : Cell Bytes
  baselineMstreams : Cell Nat
  deltaReq : Nat
  deltaDone : Bool
  deltaErr : Bool
  deltaPath : Cell Bytes
  dirtyTable : Cell (List (Nat × Nat))
  run : Nat
  args : Args
  agent : AgentPc
  baseline : Option Baseline
  delta : Option Nat
  parked : Option Nat
  memory : Nat → Nat
  pending : Nat
  reads : List Read
  written : List Written

def initial : State where
  phase := .invalid
  ckptReq := false
  baselineReq := 0
  baselineDone := false
  baselineErr := false
  baselineConcurrent := ⟨false, none⟩
  baselinePath := ⟨[], none⟩
  baselineMstreams := ⟨0, none⟩
  deltaReq := 0
  deltaDone := false
  deltaErr := false
  deltaPath := ⟨[], none⟩
  dirtyTable := ⟨[], none⟩
  run := 0
  args := ⟨.strawman, [], [], 0⟩
  agent := .idle
  baseline := none
  delta := none
  parked := none
  memory := fun _ => 0
  pending := 0
  reads := []
  written := []

/-- `snprintf` into a path of the gate. -/
def snprintfPath (path : Bytes) : Bytes := path.take 255

/-- The path a handler writes to: an empty one stands for its default. -/
def pathOr (default path : Bytes) : Bytes := if path = [] then default else path

def defaultBasePath : Bytes := "/dev/shm/ckpt_base.img".toUTF8.toList

/-- `gate_open` resets the request words of a gate that was resumed. -/
def gateOpen (s : State) : State :=
  if s.phase = .resume then
    { s with ckptReq := false, baselineReq := 0, baselineDone := false, baselineErr := false,
             deltaReq := 0, deltaDone := false, deltaErr := false }
  else s

/-- The words both in-app modes write before they set `baseline_req`. -/
def writeRequest (s : State) : State :=
  { s with baselinePath := ⟨snprintfPath s.args.basePath, some s.run⟩
           baselineDone := false
           baselineErr := false
           baselineMstreams := ⟨s.args.mstreams % 2 ^ 32, some s.run⟩ }

/-- One step of `ckpt_core`; the dirty ranges are those it got from
`GET_DIRTY_PAGES`. -/
def agentStep (s : State) (ranges : List (Nat × Nat)) : Option State :=
  match s.agent with
  | .idle => none
  | .opening => if gateReady s.phase then some { gateOpen s with agent := .opened } else some s
  | .opened =>
      match s.args.mode with
      | .strawman => some { writeRequest s with agent := .written }
      | .precopyBaseline =>
          some { writeRequest s with baselineConcurrent := ⟨true, some s.run⟩, agent := .written }
      | .mainPath | .stunCopy => some { s with agent := .stun }
  | .written => some { s with baselineReq := 1, agent := .awaitBaseline }
  | .awaitBaseline =>
      if s.baselineDone then
        if s.baselineErr then some { s with agent := .idle }
        else if s.args.mode = .precopyBaseline then some { s with agent := .stun }
        else some { s with agent := .closing }
      else some s
  | .closing => some { s with baselineReq := 0, agent := .idle }
  | .stun => some { s with ckptReq := true, agent := .awaitBoundary }
  | .awaitBoundary => if s.phase = .atBoundary then some { s with agent := .stopped } else some s
  | .stopped =>
      if s.args.mode = .precopyBaseline then
        some { s with dirtyTable := ⟨ranges, some s.run⟩
                      deltaPath := ⟨snprintfPath s.args.deltaPath, some s.run⟩
                      deltaDone := false
                      deltaErr := false
                      agent := .deltaWritten }
      else some { s with ckptReq := false, phase := .resume, agent := .idle }
  | .deltaWritten => some { s with deltaReq := 1, agent := .awaitDelta }
  | .awaitDelta =>
      if s.deltaDone then
        some { s with phase := .resume, ckptReq := false,
                      agent := if s.deltaErr then .idle else .clearing }
      else some s
  | .clearing => some { s with baselineReq := 0, deltaReq := 0, agent := .idle }

/-- A run gives up before its request, after it has seen the boundary, or when the
empty delta of the strawman cannot be written. -/
def agentFail (s : State) : Option State :=
  match s.agent with
  | .opening | .opened | .closing | .stun | .stopped => some { s with agent := .idle }
  | _ => none

def State.log (s : State) (field : Field) (writer : Option Nat) : State :=
  { s with reads := s.reads ++ [⟨s.run, s.args.mode, field, writer⟩] }

/-- The handler reports its result. -/
def reportBaseline (s : State) (ok : Bool) : State :=
  { s with baselineDone := true, baselineErr := s.baselineErr || !ok, baseline := none }

/-- One step of `maybe_baseline_post_sync` after the swap. A step that is not `ok`
is a failed allocation, thread creation or device synchronization. -/
def serveBaseline (s : State) (ok : Bool) : Option State :=
  match s.baseline with
  | none => none
  | some b =>
      match b.stage with
      | .claimed =>
          some { s.log .baselineConcurrent s.baselineConcurrent.writer with
                 baseline := some { b with stage := .decided s.baselineConcurrent.value } }
      | .decided concurrent =>
          let t := (s.log .baselinePath s.baselinePath.writer).log .baselineMstreams
            s.baselineMstreams.writer
          let c := { b with path := pathOr defaultBasePath s.baselinePath.value
                            mstreams := s.baselineMstreams.value }
          if concurrent then
            if ok then
              some { t with baseline := some { c with stage := .copying false, origin := s.memory } }
            else some (reportBaseline t false)
          else some { t with baseline := some { c with stage := .quiescing } }
      | .quiescing =>
          if ok then
            if s.pending = 0 then
              some { s with baseline := some { b with stage := .copying true, origin := s.memory } }
            else none
          else some (reportBaseline s false)
      | .copying _ => none

/-- A page is copied. -/
def copyPage (s : State) (p : Nat) : Option State :=
  match s.baseline with
  | some b =>
      match b.stage with
      | .copying _ =>
          some { s with baseline := some { b with
                   image := fun q => if q = p then some (s.memory p) else b.image q } }
      | _ => none
  | none => none

/-- `ckpt_baseline_run` returns. -/
def finishBaseline (s : State) (ok : Bool) : Option State :=
  match s.baseline with
  | some b =>
      match b.stage with
      | .copying stopTheWorld =>
          some (reportBaseline
            { s with written := if ok then s.written ++ [⟨s.run, s.args.mode, stopTheWorld, b.path,
                       b.mstreams, b.origin, b.image⟩] else s.written } ok)
      | _ => none
  | none => none

/-- The thread is inside a handler: it holds the inline baseline or the delta, or
waits for `RESUME`. -/
def State.busy (s : State) (t : Nat) : Bool :=
  s.parked = some t || s.delta = some t ||
    s.baseline.any fun b => b.thread = t && b.stage != .copying false

inductive Label where
  | start (args : Args)
  | agent (ranges : List (Nat × Nat))
  | agentFail
  | signalInit
  | park (t : Nat)
  | unpark
  | claim (t : Nat)
  | serve (ok : Bool)
  | copy (p : Nat)
  | finish (ok : Bool)
  | claimDelta (t : Nat)
  | finishDelta (ok : Bool)
  | submit (t : Nat)
  | retire
  | store (p v : Nat)
  | hostStore (t p v : Nat)
  deriving DecidableEq, Repr

def setMemory (s : State) (p v : Nat) : State :=
  { s with memory := fun q => if q = p then v else s.memory q }

def next (s : State) : Label → Option State
  | .start args =>
      if s.agent = .idle then some { s with agent := .opening, run := s.run + 1, args := args }
      else none
  | .agent ranges => agentStep s ranges
  | .agentFail => agentFail s
  | .signalInit => if s.phase = .invalid then some { s with phase := .init } else none
  | .park t =>
      if s.ckptReq ∧ s.parked = none ∧ s.busy t = false then
        some { s with phase := .atBoundary, parked := some t }
      else none
  | .unpark => if s.phase = .resume then some { s with parked := none } else none
  | .claim t =>
      if s.baselineReq = 1 ∧ s.busy t = false then
        some { s with baselineReq := 2
                      baseline := some ⟨t, .claimed, [], 0, s.memory, fun _ => none⟩ }
      else none
  | .serve ok => serveBaseline s ok
  | .copy p => copyPage s p
  | .finish ok => finishBaseline s ok
  | .claimDelta t =>
      if s.deltaReq = 1 then
        some { (s.log .deltaPath s.deltaPath.writer).log .dirtyTable s.dirtyTable.writer with
               deltaReq := 2, delta := some t }
      else none
  | .finishDelta ok =>
      match s.delta with
      | none => none
      | some _ =>
          some { s with deltaDone := true, deltaErr := s.deltaErr || !ok, delta := none }
  | .submit t => if s.busy t then none else some { s with pending := s.pending + 1 }
  | .retire => if 0 < s.pending then some { s with pending := s.pending - 1 } else none
  | .store p v => if 0 < s.pending then some (setMemory s p v) else none
  | .hostStore t p v => if s.busy t then none else some (setMemory s p v)

/-- Every word read for a run was written by that run. -/
def OwnFields (s : State) : Prop := ∀ r ∈ s.reads, r.writer = some r.run

/-- Every strawman image was taken with `stop_the_world`. -/
def StopsTheWorld (s : State) : Prop := ∀ w ∈ s.written, w.mode = .strawman → w.stopTheWorld = true

/-- Every strawman image holds the memory of one instant. -/
def OneInstant (s : State) : Prop :=
  ∀ w ∈ s.written, w.mode = .strawman → ∀ p v, w.image p = some v → v = w.origin p

/-- No strawman run writes its request to a gate on which a P1e run has left
`baseline_concurrent`. -/
def NoStrawmanAfterPrecopy (s : State) : Label → Prop
  | .agent _ => s.agent = .opened → s.args.mode = .strawman → s.baselineConcurrent.writer = none
  | _ => True

/-- No other thread of the application uses the memory while one copies inside its
hook. -/
def AloneInCopy (s : State) : Label → Prop
  | .submit _ | .hostStore _ _ _ => ∀ b, s.baseline = some b → b.stage ≠ .copying true
  | _ => True

/-- The run has written its request and may be served. -/
def AgentPc.requesting : AgentPc → Bool
  | .written | .awaitBaseline => true
  | _ => false

def AgentPc.requestingDelta : AgentPc → Bool
  | .deltaWritten | .awaitDelta => true
  | _ => false

/-- The words of a baseline request are its run's own, but for a strawman run, which
leaves `baseline_concurrent` as it was. -/
structure OwnRequest (s : State) : Prop where
  mode : s.args.mode = .strawman ∨ s.args.mode = .precopyBaseline
  path : s.baselinePath.writer = some s.run
  mstreams : s.baselineMstreams.writer = some s.run
  concurrent : s.baselineConcurrent.writer = some s.run ↔ s.args.mode ≠ .strawman

structure BaselineInv (s : State) : Prop where
  claimed : ∀ b, s.baseline = some b →
    s.agent = .awaitBaseline ∧ s.baselineReq ≠ 1 ∧ s.baselineDone = false
  requested : s.baselineReq = 1 → s.agent = .awaitBaseline ∧ s.baselineDone = false
  fresh : s.agent = .written → s.baselineDone = false
  own : s.agent.requesting = true → OwnRequest s
  writer_le : ∀ w, s.baselineConcurrent.writer = some w → w ≤ s.run
  writer_lt : s.agent = .opening ∨ s.agent = .opened →
    ∀ w, s.baselineConcurrent.writer = some w → w < s.run

structure OwnDelta (s : State) : Prop where
  mode : s.args.mode = .precopyBaseline
  path : s.deltaPath.writer = some s.run
  table : s.dirtyTable.writer = some s.run

structure DeltaInv (s : State) : Prop where
  claimed : ∀ t, s.delta = some t → s.agent = .awaitDelta ∧ s.deltaReq ≠ 1 ∧ s.deltaDone = false
  requested : s.deltaReq = 1 → s.agent = .awaitDelta ∧ s.deltaDone = false
  fresh : s.agent = .deltaWritten → s.deltaDone = false
  own : s.agent.requestingDelta = true → OwnDelta s

/-- The log of reads: only a strawman's `baseline_concurrent` is not its own. -/
def LogInv (s : State) : Prop :=
  ∀ r ∈ s.reads, r.writer = some r.run ↔ ¬ (r.mode = .strawman ∧ r.field = .baselineConcurrent)

section AgentMoves

variable {s s' : State} {ranges : List (Nat × Nat)}

/-- The steps of `ckpt_core`, each with what it has seen. -/
inductive AgentMove (s : State) (ranges : List (Nat × Nat)) : State → Prop where
  | polls : AgentMove s ranges s
  | opens (hAgent : s.agent = .opening) (hReady : gateReady s.phase = true) :
      AgentMove s ranges { gateOpen s with agent := .opened }
  | requestsStrawman (hAgent : s.agent = .opened) (hMode : s.args.mode = .strawman) :
      AgentMove s ranges { writeRequest s with agent := .written }
  | requestsPrecopy (hAgent : s.agent = .opened) (hMode : s.args.mode = .precopyBaseline) :
      AgentMove s ranges
        { writeRequest s with baselineConcurrent := ⟨true, some s.run⟩, agent := .written }
  | quiesces (hAgent : s.agent = .opened) (hMode : s.args.mode = .mainPath ∨ s.args.mode = .stunCopy) :
      AgentMove s ranges { s with agent := .stun }
  | posts (hAgent : s.agent = .written) :
      AgentMove s ranges { s with baselineReq := 1, agent := .awaitBaseline }
  | servedBadly (hAgent : s.agent = .awaitBaseline) (hDone : s.baselineDone = true)
      (hErr : s.baselineErr = true) : AgentMove s ranges { s with agent := .idle }
  | servedPrecopy (hAgent : s.agent = .awaitBaseline) (hDone : s.baselineDone = true)
      (hErr : s.baselineErr = false) (hMode : s.args.mode = .precopyBaseline) :
      AgentMove s ranges { s with agent := .stun }
  | servedStrawman (hAgent : s.agent = .awaitBaseline) (hDone : s.baselineDone = true)
      (hErr : s.baselineErr = false) (hMode : s.args.mode ≠ .precopyBaseline) :
      AgentMove s ranges { s with agent := .closing }
  | closes (hAgent : s.agent = .closing) : AgentMove s ranges { s with baselineReq := 0, agent := .idle }
  | stuns (hAgent : s.agent = .stun) :
      AgentMove s ranges { s with ckptReq := true, agent := .awaitBoundary }
  | stops (hAgent : s.agent = .awaitBoundary) (hPhase : s.phase = .atBoundary) :
      AgentMove s ranges { s with agent := .stopped }
  | writesDelta (hAgent : s.agent = .stopped) (hMode : s.args.mode = .precopyBaseline) :
      AgentMove s ranges
        { s with dirtyTable := ⟨ranges, some s.run⟩
                 deltaPath := ⟨snprintfPath s.args.deltaPath, some s.run⟩
                 deltaDone := false
                 deltaErr := false
                 agent := .deltaWritten }
  | releases (hAgent : s.agent = .stopped) (hMode : s.args.mode ≠ .precopyBaseline) :
      AgentMove s ranges { s with ckptReq := false, phase := .resume, agent := .idle }
  | postsDelta (hAgent : s.agent = .deltaWritten) :
      AgentMove s ranges { s with deltaReq := 1, agent := .awaitDelta }
  | resumesBadly (hAgent : s.agent = .awaitDelta) (hDone : s.deltaDone = true) (hErr : s.deltaErr = true) :
      AgentMove s ranges { s with phase := .resume, ckptReq := false, agent := .idle }
  | resumes (hAgent : s.agent = .awaitDelta) (hDone : s.deltaDone = true) (hErr : s.deltaErr = false) :
      AgentMove s ranges { s with phase := .resume, ckptReq := false, agent := .clearing }
  | clears (hAgent : s.agent = .clearing) :
      AgentMove s ranges { s with baselineReq := 0, deltaReq := 0, agent := .idle }

/-- `ckpt_core` has no other steps. -/
theorem agentMove_of_agentStep (hStep : agentStep s ranges = some s') : AgentMove s ranges s' := by
  cases hAgent : s.agent with
  | idle => simp [agentStep, hAgent] at hStep
  | opening =>
      simp only [agentStep, hAgent] at hStep
      split at hStep <;> cases hStep
      · next hReady => exact .opens hAgent hReady
      · exact .polls
  | opened =>
      simp only [agentStep, hAgent] at hStep
      split at hStep <;> rename_i hMode <;> cases hStep
      · exact .requestsStrawman hAgent hMode
      · exact .requestsPrecopy hAgent hMode
      · exact .quiesces hAgent (.inl hMode)
      · exact .quiesces hAgent (.inr hMode)
  | written =>
      simp only [agentStep, hAgent] at hStep
      cases hStep
      exact .posts hAgent
  | awaitBaseline =>
      simp only [agentStep, hAgent] at hStep
      split at hStep
      · next hDone =>
          split at hStep
          · next hErr =>
              cases hStep
              exact .servedBadly hAgent hDone hErr
          · next hErr =>
              rw [Bool.not_eq_true] at hErr
              split at hStep <;> cases hStep
              · next hMode => exact .servedPrecopy hAgent hDone hErr hMode
              · next hMode => exact .servedStrawman hAgent hDone hErr hMode
      · cases hStep
        exact .polls
  | closing =>
      simp only [agentStep, hAgent] at hStep
      cases hStep
      exact .closes hAgent
  | stun =>
      simp only [agentStep, hAgent] at hStep
      cases hStep
      exact .stuns hAgent
  | awaitBoundary =>
      simp only [agentStep, hAgent] at hStep
      split at hStep <;> cases hStep
      · next hPhase => exact .stops hAgent hPhase
      · exact .polls
  | stopped =>
      simp only [agentStep, hAgent] at hStep
      split at hStep <;> cases hStep
      · next hMode => exact .writesDelta hAgent hMode
      · next hMode => exact .releases hAgent hMode
  | deltaWritten =>
      simp only [agentStep, hAgent] at hStep
      cases hStep
      exact .postsDelta hAgent
  | awaitDelta =>
      simp only [agentStep, hAgent] at hStep
      split at hStep <;> cases hStep
      · next hDone =>
          split
          · next hErr => exact .resumesBadly hAgent hDone hErr
          · next hErr => exact .resumes hAgent hDone (Bool.eq_false_iff.mpr hErr)
      · exact .polls
  | clearing =>
      simp only [agentStep, hAgent] at hStep
      cases hStep
      exact .clears hAgent

theorem AgentMove.reads (hMove : AgentMove s ranges s') :
    s'.reads = s.reads ∧ s'.baseline = s.baseline ∧ s'.args = s.args ∧ s'.written = s.written ∧
      s'.memory = s.memory ∧ s'.pending = s.pending := by
  cases hMove with
  | opens =>
      unfold gateOpen
      split <;> exact ⟨rfl, rfl, rfl, rfl, rfl, rfl⟩
  | _ => exact ⟨rfl, rfl, rfl, rfl, rfl, rfl⟩

/-- Only a P1e run writes `baseline_concurrent`. -/
theorem AgentMove.concurrent (hMove : AgentMove s ranges s') :
    s'.baselineConcurrent = s.baselineConcurrent ∨
      s.args.mode = .precopyBaseline ∧ s'.baselineConcurrent = ⟨true, some s.run⟩ := by
  cases hMove with
  | opens =>
      unfold gateOpen
      split <;> exact .inl rfl
  | requestsPrecopy _ hMode => exact .inr ⟨hMode, rfl⟩
  | _ => exact .inl rfl

end AgentMoves

section Baseline

variable {s s' : State}

/-- No request is in flight before the run waits, nor after it was served. -/
theorem BaselineInv.not_requested (h : BaselineInv s)
    (hAgent : s.agent ≠ .awaitBaseline ∨ s.baselineDone = true) :
    s.baseline = none ∧ s.baselineReq ≠ 1 := by
  have hNot : ¬ (s.agent = .awaitBaseline ∧ s.baselineDone = false) := by
    rintro ⟨hAwait, hDone⟩
    rcases hAgent with hOther | hServed
    · exact hOther hAwait
    · simp [hServed] at hDone
  refine ⟨Option.eq_none_iff_forall_ne_some.mpr fun b hb => ?_, fun hReq => hNot (h.requested hReq)⟩
  exact hNot ⟨(h.claimed b hb).1, (h.claimed b hb).2.2⟩

theorem BaselineInv.of_quiet (h : BaselineInv s) (hBaseline : s'.baseline = none)
    (hReq : s'.baselineReq ≠ 1) (hAgent : s'.agent.requesting = false)
    (hConcurrent : s'.baselineConcurrent = s.baselineConcurrent) (hRun : s'.run = s.run)
    (hOpen : s'.agent = .opening ∨ s'.agent = .opened → s.agent = .opening ∨ s.agent = .opened) :
    BaselineInv s' := by
  refine ⟨?_, fun hOne => absurd hOne hReq, ?_, ?_, ?_, ?_⟩
  · simp [hBaseline]
  · intro hWritten
    simp [hWritten, AgentPc.requesting] at hAgent
  · simp [hAgent]
  · rw [hConcurrent, hRun]
    exact h.writer_le
  · intro hFrom
    rw [hConcurrent, hRun]
    exact h.writer_lt (hOpen hFrom)

theorem BaselineInv.of_frame (h : BaselineInv s) (hAgent : s'.agent = s.agent)
    (hReq : s'.baselineReq = s.baselineReq) (hDone : s'.baselineDone = s.baselineDone)
    (hClaimed : ∀ b, s'.baseline = some b → ∃ b', s.baseline = some b')
    (hConcurrent : s'.baselineConcurrent = s.baselineConcurrent)
    (hPath : s'.baselinePath = s.baselinePath) (hStreams : s'.baselineMstreams = s.baselineMstreams)
    (hRun : s'.run = s.run) (hArgs : s'.args = s.args) : BaselineInv s' := by
  refine ⟨?_, ?_, ?_, ?_, ?_, ?_⟩
  · intro b hb
    obtain ⟨b', hb'⟩ := hClaimed b hb
    rw [hAgent, hReq, hDone]
    exact h.claimed b' hb'
  · rw [hAgent, hReq, hDone]
    exact h.requested
  · rw [hAgent, hDone]
    exact h.fresh
  · intro hRequesting
    obtain ⟨hMode, hOwnPath, hOwnStreams, hOwn⟩ := h.own (hAgent ▸ hRequesting)
    refine ⟨?_, ?_, ?_, ?_⟩
    · rwa [hArgs]
    · rwa [hPath, hRun]
    · rwa [hStreams, hRun]
    · rwa [hConcurrent, hRun, hArgs]
  · rw [hConcurrent, hRun]
    exact h.writer_le
  · rw [hAgent, hConcurrent, hRun]
    exact h.writer_lt

theorem gateOpen_frame (s : State) : (gateOpen s).baseline = s.baseline ∧
    (gateOpen s).baselineConcurrent = s.baselineConcurrent ∧ (gateOpen s).run = s.run ∧
    (s.baselineReq ≠ 1 → (gateOpen s).baselineReq ≠ 1) ∧ (gateOpen s).delta = s.delta ∧
    (s.deltaReq ≠ 1 → (gateOpen s).deltaReq ≠ 1) := by
  unfold gateOpen
  split <;> simp

theorem AgentMove.baselineInv {ranges : List (Nat × Nat)} (h : BaselineInv s)
    (hMove : AgentMove s ranges s') : BaselineInv s' := by
  cases hMove with
  | polls => exact h
  | opens hAgent =>
      obtain ⟨hNone, hReq⟩ := h.not_requested (Or.inl (by simp [hAgent]))
      obtain ⟨hBaseline, hConcurrent, hRun, hReset, -⟩ := gateOpen_frame s
      exact h.of_quiet (hBaseline.trans hNone) (hReset hReq) rfl hConcurrent hRun
        fun _ => Or.inl hAgent
  | requestsStrawman hAgent hMode =>
      obtain ⟨hNone, hReq⟩ := h.not_requested (Or.inl (by simp [hAgent]))
      have hOlder := h.writer_lt (Or.inr hAgent)
      refine ⟨by simp [writeRequest, hNone], fun hOne => absurd hOne hReq, fun _ => rfl,
        fun _ => ?_, h.writer_le, by simp⟩
      refine ⟨Or.inl hMode, rfl, rfl, ?_⟩
      simp only [writeRequest, hMode, ne_eq, not_true_eq_false, iff_false]
      exact fun hOwn => Nat.lt_irrefl _ (hOlder _ hOwn)
  | requestsPrecopy hAgent hMode =>
      obtain ⟨hNone, hReq⟩ := h.not_requested (Or.inl (by simp [hAgent]))
      refine ⟨by simp [writeRequest, hNone], fun hOne => absurd hOne hReq, fun _ => rfl,
        fun _ => ?_, ?_, by simp⟩
      · exact ⟨Or.inr hMode, rfl, rfl, by simp [writeRequest, hMode]⟩
      · simp [writeRequest]
  | posts hAgent =>
      obtain ⟨hNone, -⟩ := h.not_requested (Or.inl (by simp [hAgent]))
      obtain ⟨hMode, hPath, hStreams, hOwn⟩ := h.own (by rw [hAgent]; rfl)
      exact ⟨by simp [hNone], fun _ => ⟨rfl, h.fresh hAgent⟩, by simp,
        fun _ => ⟨hMode, hPath, hStreams, hOwn⟩, h.writer_le, by simp⟩
  | servedBadly hAgent hDone | servedPrecopy hAgent hDone | servedStrawman hAgent hDone =>
      obtain ⟨hNone, hReq⟩ := h.not_requested (Or.inr hDone)
      exact h.of_quiet hNone hReq rfl rfl rfl (by simp)
  | quiesces hAgent | closes hAgent | stuns hAgent | stops hAgent | writesDelta hAgent
  | releases hAgent | postsDelta hAgent | resumesBadly hAgent | resumes hAgent | clears hAgent =>
      obtain ⟨hNone, hReq⟩ := h.not_requested (Or.inl (by simp [hAgent]))
      exact h.of_quiet hNone (by simp [hReq]) rfl rfl rfl (by simp)

theorem agentFail_baselineInv (h : BaselineInv s) (hStep : agentFail s = some s') :
    BaselineInv s' := by
  have hAgent : s.agent ≠ .awaitBaseline := by
    intro hAwait
    simp [agentFail, hAwait] at hStep
  obtain ⟨hNone, hReq⟩ := h.not_requested (Or.inl hAgent)
  unfold agentFail at hStep
  split at hStep <;> cases hStep <;> exact h.of_quiet hNone hReq rfl rfl rfl (by simp)

/-- The handler has reported: nothing is claimed any more. -/
theorem BaselineInv.report (h : BaselineInv s) {b : Baseline} (hb : s.baseline = some b) (ok : Bool)
    (written : List Written) (reads : List Read) :
    BaselineInv (reportBaseline { s with written := written, reads := reads } ok) := by
  obtain ⟨hAgent, hReq, -⟩ := h.claimed b hb
  exact ⟨by simp [reportBaseline], fun hOne => absurd hOne hReq, by simp [reportBaseline, hAgent],
    fun hRequesting => ⟨(h.own hRequesting).mode, (h.own hRequesting).path,
      (h.own hRequesting).mstreams, (h.own hRequesting).concurrent⟩, h.writer_le, h.writer_lt⟩

theorem serveBaseline_baselineInv {ok : Bool} (h : BaselineInv s)
    (hStep : serveBaseline s ok = some s') : BaselineInv s' := by
  unfold serveBaseline at hStep
  split at hStep
  · cases hStep
  · rename_i b hb
    have hSame : ∀ (c : Baseline) (reads : List Read),
        BaselineInv { s with reads := reads, baseline := some c } := fun c reads =>
      h.of_frame rfl rfl rfl (fun _ _ => ⟨b, hb⟩) rfl rfl rfl rfl rfl
    split at hStep
    · cases hStep
      exact hSame _ _
    · dsimp only at hStep
      split at hStep
      · split at hStep <;> cases hStep
        · exact hSame _ _
        · exact h.report hb false s.written _
      · cases hStep
        exact hSame _ _
    · split at hStep
      · split at hStep <;> cases hStep
        exact hSame _ s.reads
      · cases hStep
        exact h.report hb false s.written s.reads
    · cases hStep

theorem next_baselineInv (s : State) (label : Label) (s' : State) (h : BaselineInv s)
    (hStep : next s label = some s') : BaselineInv s' := by
  cases label with
  | start args =>
      simp only [next] at hStep
      split at hStep <;> cases hStep
      rename_i hIdle
      obtain ⟨hNone, hReq⟩ := h.not_requested (Or.inl (by simp [hIdle]))
      refine ⟨by simp [hNone], fun hOne => absurd hOne hReq, by simp, by simp [AgentPc.requesting],
        ?_, ?_⟩
      · exact fun w hw => Nat.le_succ_of_le (h.writer_le w hw)
      · exact fun _ w hw => Nat.lt_succ_of_le (h.writer_le w hw)
  | agent ranges => exact (agentMove_of_agentStep hStep).baselineInv h
  | agentFail => exact agentFail_baselineInv h hStep
  | claim t =>
      simp only [next] at hStep
      split at hStep <;> cases hStep
      rename_i hClaim
      obtain ⟨hAgent, hDone⟩ := h.requested hClaim.1
      exact ⟨fun _ _ => ⟨hAgent, by simp, hDone⟩, by simp, h.fresh,
        fun hRequesting => ⟨(h.own hRequesting).mode, (h.own hRequesting).path,
          (h.own hRequesting).mstreams, (h.own hRequesting).concurrent⟩, h.writer_le, h.writer_lt⟩
  | serve ok => exact serveBaseline_baselineInv h hStep
  | copy p =>
      simp only [next, copyPage] at hStep
      split at hStep
      · rename_i b hb
        split at hStep <;> cases hStep
        exact h.of_frame rfl rfl rfl (fun _ _ => ⟨b, hb⟩) rfl rfl rfl rfl rfl
      · cases hStep
  | finish ok =>
      simp only [next, finishBaseline] at hStep
      split at hStep
      · rename_i b hb
        split at hStep <;> cases hStep
        exact h.report hb ok _ s.reads
      · cases hStep
  | finishDelta ok =>
      simp only [next] at hStep
      split at hStep <;> cases hStep
      exact h.of_frame rfl rfl rfl (fun b hb => ⟨b, hb⟩) rfl rfl rfl rfl rfl
  | signalInit | park t | unpark | claimDelta t | submit t | retire | store p v | hostStore t p v =>
      simp only [next] at hStep
      split at hStep <;> cases hStep
      exact h.of_frame rfl rfl rfl (fun b hb => ⟨b, hb⟩) rfl rfl rfl rfl rfl

end Baseline

section Delta

variable {s s' : State}

/-- What the delta request depends on. -/
def State.deltaPart (s : State) :
    AgentPc × Nat × Bool × Option Nat × Cell Bytes × Cell (List (Nat × Nat)) × Nat × Args :=
  (s.agent, s.deltaReq, s.deltaDone, s.delta, s.deltaPath, s.dirtyTable, s.run, s.args)

theorem DeltaInv.of_deltaPart (h : DeltaInv s) (hSame : s'.deltaPart = s.deltaPart) :
    DeltaInv s' := by
  simp only [State.deltaPart, Prod.mk.injEq] at hSame
  obtain ⟨hAgent, hReq, hDone, hDelta, hPath, hTable, hRun, hArgs⟩ := hSame
  refine ⟨?_, ?_, ?_, fun hRequesting => ?_⟩
  · rw [hAgent, hReq, hDone, hDelta]
    exact h.claimed
  · rw [hAgent, hReq, hDone]
    exact h.requested
  · rw [hAgent, hDone]
    exact h.fresh
  · obtain ⟨hMode, hOwnPath, hOwnTable⟩ := h.own (hAgent ▸ hRequesting)
    exact ⟨by rwa [hArgs], by rwa [hPath, hRun], by rwa [hTable, hRun]⟩

theorem DeltaInv.of_quiet (hDelta : s'.delta = none) (hReq : s'.deltaReq ≠ 1)
    (hAgent : s'.agent.requestingDelta = false) : DeltaInv s' := by
  refine ⟨by simp [hDelta], fun hOne => absurd hOne hReq, fun hWritten => ?_, by simp [hAgent]⟩
  simp [hWritten, AgentPc.requestingDelta] at hAgent

theorem DeltaInv.not_requested (h : DeltaInv s)
    (hAgent : s.agent ≠ .awaitDelta ∨ s.deltaDone = true) : s.delta = none ∧ s.deltaReq ≠ 1 := by
  have hNot : ¬ (s.agent = .awaitDelta ∧ s.deltaDone = false) := by
    rintro ⟨hAwait, hDone⟩
    rcases hAgent with hOther | hServed
    · exact hOther hAwait
    · simp [hServed] at hDone
  refine ⟨Option.eq_none_iff_forall_ne_some.mpr fun t ht => ?_, fun hReq => hNot (h.requested hReq)⟩
  exact hNot ⟨(h.claimed t ht).1, (h.claimed t ht).2.2⟩

theorem AgentMove.deltaInv {ranges : List (Nat × Nat)} (h : DeltaInv s)
    (hMove : AgentMove s ranges s') : DeltaInv s' := by
  cases hMove with
  | polls => exact h
  | opens hAgent =>
      obtain ⟨hNone, hReq⟩ := h.not_requested (Or.inl (by simp [hAgent]))
      obtain ⟨-, -, -, -, hDelta, hReset⟩ := gateOpen_frame s
      exact .of_quiet (hDelta.trans hNone) (hReset hReq) rfl
  | writesDelta hAgent hMode =>
      obtain ⟨hNone, hReq⟩ := h.not_requested (Or.inl (by simp [hAgent]))
      exact ⟨by simp [hNone], fun hOne => absurd hOne hReq, fun _ => rfl,
        fun _ => ⟨hMode, rfl, rfl⟩⟩
  | postsDelta hAgent =>
      obtain ⟨hNone, -⟩ := h.not_requested (Or.inl (by simp [hAgent]))
      obtain ⟨hMode, hPath, hTable⟩ := h.own (by rw [hAgent]; rfl)
      exact ⟨by simp [hNone], fun _ => ⟨rfl, h.fresh hAgent⟩, by simp,
        fun _ => ⟨hMode, hPath, hTable⟩⟩
  | resumesBadly hAgent hDone | resumes hAgent hDone =>
      obtain ⟨hNone, hReq⟩ := h.not_requested (Or.inr hDone)
      exact .of_quiet hNone hReq rfl
  | requestsStrawman hAgent | requestsPrecopy hAgent | quiesces hAgent | posts hAgent
  | servedBadly hAgent | servedPrecopy hAgent | servedStrawman hAgent | closes hAgent | stuns hAgent
  | stops hAgent | releases hAgent | clears hAgent =>
      obtain ⟨hNone, hReq⟩ := h.not_requested (Or.inl (by simp [hAgent]))
      exact .of_quiet hNone (by simp [writeRequest, hReq]) rfl

theorem agentFail_deltaInv (h : DeltaInv s) (hStep : agentFail s = some s') : DeltaInv s' := by
  have hAgent : s.agent ≠ .awaitDelta := by
    intro hAwait
    simp [agentFail, hAwait] at hStep
  obtain ⟨hNone, hReq⟩ := h.not_requested (Or.inl hAgent)
  unfold agentFail at hStep
  split at hStep <;> cases hStep <;> exact .of_quiet hNone hReq rfl

theorem serveBaseline_deltaPart {ok : Bool} (hStep : serveBaseline s ok = some s') :
    s'.deltaPart = s.deltaPart := by
  unfold serveBaseline at hStep
  split at hStep
  · cases hStep
  · split at hStep
    · cases hStep
      rfl
    · dsimp only at hStep
      split at hStep
      · split at hStep <;> cases hStep <;> rfl
      · cases hStep
        rfl
    · split at hStep
      · split at hStep <;> cases hStep
        rfl
      · cases hStep
        rfl
    · cases hStep

theorem next_deltaInv (s : State) (label : Label) (s' : State) (h : DeltaInv s)
    (hStep : next s label = some s') : DeltaInv s' := by
  cases label with
  | start args =>
      simp only [next] at hStep
      split at hStep <;> cases hStep
      rename_i hIdle
      obtain ⟨hNone, hReq⟩ := h.not_requested (Or.inl (by simp [hIdle]))
      exact .of_quiet hNone hReq rfl
  | agent ranges => exact (agentMove_of_agentStep hStep).deltaInv h
  | agentFail => exact agentFail_deltaInv h hStep
  | serve ok => exact h.of_deltaPart (serveBaseline_deltaPart hStep)
  | copy p =>
      simp only [next, copyPage] at hStep
      split at hStep
      · split at hStep <;> cases hStep
        exact h.of_deltaPart rfl
      · cases hStep
  | finish ok =>
      simp only [next, finishBaseline] at hStep
      split at hStep
      · split at hStep <;> cases hStep
        exact h.of_deltaPart rfl
      · cases hStep
  | claimDelta t =>
      simp only [next] at hStep
      split at hStep <;> cases hStep
      rename_i hReq
      obtain ⟨hAgent, hDone⟩ := h.requested hReq
      exact ⟨fun _ _ => ⟨hAgent, by simp, hDone⟩, by simp, h.fresh,
        fun hRequesting => ⟨(h.own hRequesting).mode, (h.own hRequesting).path,
          (h.own hRequesting).table⟩⟩
  | finishDelta ok =>
      simp only [next] at hStep
      split at hStep <;> cases hStep
      rename_i t ht
      obtain ⟨hAgent, hReq, -⟩ := h.claimed t ht
      exact ⟨by simp, fun hOne => absurd hOne hReq, by simp [hAgent],
        fun hRequesting => ⟨(h.own hRequesting).mode, (h.own hRequesting).path,
          (h.own hRequesting).table⟩⟩
  | signalInit | park t | unpark | claim t | submit t | retire | store p v | hostStore t p v =>
      simp only [next] at hStep
      split at hStep <;> cases hStep
      exact h.of_deltaPart rfl

end Delta

structure Inv (s : State) : Prop where
  baseline : BaselineInv s
  delta : DeltaInv s
  log : LogInv s

theorem initial_inv : Inv initial := by
  refine ⟨⟨?_, ?_, ?_, ?_, ?_, ?_⟩, ⟨?_, ?_, ?_, ?_⟩, ?_⟩ <;>
    simp [initial, AgentPc.requesting, AgentPc.requestingDelta, LogInv]

section Log

variable {s s' : State}

theorem LogInv.log (h : LogInv s) {field : Field} {writer : Option Nat}
    (hRead : writer = some s.run ↔
      ¬ (s.args.mode = .strawman ∧ field = .baselineConcurrent)) : LogInv (s.log field writer) := by
  intro r hr
  simp only [State.log, List.mem_append, List.mem_singleton] at hr
  rcases hr with hr | rfl
  · exact h r hr
  · exact hRead

theorem serveBaseline_logInv {ok : Bool} (h : Inv s) (hStep : serveBaseline s ok = some s') :
    LogInv s' := by
  unfold serveBaseline at hStep
  split at hStep
  · cases hStep
  · rename_i b hb
    obtain ⟨hAgent, -⟩ := h.baseline.claimed b hb
    have hOwn := h.baseline.own (by rw [hAgent]; rfl)
    have hBoth : LogInv ((s.log .baselinePath s.baselinePath.writer).log .baselineMstreams
        s.baselineMstreams.writer) := by
      apply LogInv.log
      · exact h.log.log (by simp [hOwn.path])
      · simp [State.log, hOwn.mstreams]
    split at hStep
    · cases hStep
      exact h.log.log (by simp [hOwn.concurrent])
    · dsimp only at hStep
      split at hStep
      · split at hStep <;> cases hStep <;> exact hBoth
      · cases hStep
        exact hBoth
    · split at hStep
      · split at hStep <;> cases hStep
        exact h.log
      · cases hStep
        exact h.log
    · cases hStep

theorem agentFail_reads (hStep : agentFail s = some s') :
    s'.reads = s.reads ∧ s'.baseline = s.baseline ∧ s'.args = s.args ∧ s'.written = s.written ∧
      s'.memory = s.memory ∧ s'.pending = s.pending := by
  unfold agentFail at hStep
  split at hStep <;> cases hStep <;> simp

theorem next_logInv {label : Label} (h : Inv s) (hStep : next s label = some s') : LogInv s' := by
  have hSame : s'.reads = s.reads → LogInv s' := by
    intro hReads
    rw [LogInv, hReads]
    exact h.log
  cases label with
  | agent ranges => exact hSame (agentMove_of_agentStep hStep).reads.1
  | agentFail => exact hSame (agentFail_reads hStep).1
  | serve ok => exact serveBaseline_logInv h hStep
  | copy p =>
      simp only [next, copyPage] at hStep
      split at hStep
      · split at hStep <;> cases hStep
        exact hSame rfl
      · cases hStep
  | finish ok =>
      simp only [next, finishBaseline] at hStep
      split at hStep
      · split at hStep <;> cases hStep
        exact hSame rfl
      · cases hStep
  | claimDelta t =>
      simp only [next] at hStep
      split at hStep <;> cases hStep
      rename_i hReq
      obtain ⟨hAgent, -⟩ := h.delta.requested hReq
      have hOwn := h.delta.own (by rw [hAgent]; rfl)
      have hBoth : LogInv ((s.log .deltaPath s.deltaPath.writer).log .dirtyTable
          s.dirtyTable.writer) := by
        apply LogInv.log
        · exact h.log.log (by simp [hOwn.path])
        · simp [State.log, hOwn.table]
      exact hBoth
  | start _ | signalInit | park _ | unpark | claim _ | finishDelta _ | submit _ | retire
  | store _ _ | hostStore _ _ _ =>
      simp only [next] at hStep
      split at hStep <;> cases hStep
      exact hSame rfl

theorem next_inv (s : State) (label : Label) (s' : State) (h : Inv s)
    (hStep : next s label = some s') : Inv s' :=
  ⟨next_baselineInv s label s' h.baseline hStep, next_deltaInv s label s' h.delta hStep,
    next_logInv h hStep⟩

end Log

/-- While no strawman request meets a leftover `baseline_concurrent`, every strawman
baseline is on the stop-and-copy path. -/
structure StopInv (s : State) : Prop where
  inv : Inv s
  unwritten : s.baselineConcurrent.writer = none → s.baselineConcurrent.value = false
  request : s.agent.requesting = true → s.args.mode = .strawman →
    s.baselineConcurrent.writer = none
  stage : ∀ b, s.baseline = some b → s.args.mode = .strawman →
    b.stage ≠ .decided true ∧ b.stage ≠ .copying false
  written : StopsTheWorld s

section Stop

variable {s s' : State}

theorem StopInv.of_frame (h : StopInv s) (hInv : Inv s')
    (hConcurrent : s'.baselineConcurrent = s.baselineConcurrent) (hAgent : s'.agent = s.agent)
    (hArgs : s'.args = s.args) (hWritten : s'.written = s.written)
    (hStage : ∀ b, s'.baseline = some b → s.args.mode = .strawman →
      b.stage ≠ .decided true ∧ b.stage ≠ .copying false) : StopInv s' := by
  refine ⟨hInv, ?_, ?_, ?_, ?_⟩
  · rw [hConcurrent]
    exact h.unwritten
  · rw [hConcurrent, hAgent, hArgs]
    exact h.request
  · rw [hArgs]
    exact hStage
  · rw [StopsTheWorld, hWritten]
    exact h.written

/-- A run that may be served has just written its request, or had done so before. -/
theorem AgentMove.requesting {ranges : List (Nat × Nat)} (hMove : AgentMove s ranges s')
    (hRequesting : s'.agent.requesting = true) :
    s.agent = .opened ∨
      (s.agent.requesting = true ∧ s'.baselineConcurrent = s.baselineConcurrent) := by
  cases hMove with
  | polls => exact .inr ⟨hRequesting, rfl⟩
  | requestsStrawman hAgent | requestsPrecopy hAgent => exact .inl hAgent
  | posts hAgent => exact .inr ⟨by rw [hAgent]; rfl, rfl⟩
  | _ => cases hRequesting

theorem AgentMove.stopInv {ranges : List (Nat × Nat)} (h : StopInv s) (hInv : Inv s')
    (hOk : NoStrawmanAfterPrecopy s (.agent ranges)) (hMove : AgentMove s ranges s') :
    StopInv s' := by
  obtain ⟨-, hBaseline, hArgs, hWritten, -⟩ := hMove.reads
  refine ⟨hInv, ?_, ?_, ?_, ?_⟩
  · rcases hMove.concurrent with hSame | ⟨-, hOwn⟩
    · rw [hSame]
      exact h.unwritten
    · rw [hOwn]
      exact fun hNone => absurd hNone (Option.some_ne_none _)
  · intro hRequesting hMode
    rw [hArgs] at hMode
    rcases hMove.concurrent with hSame | ⟨hPrecopy, -⟩
    · rw [hSame]
      rcases hMove.requesting hRequesting with hOpened | ⟨hBefore, -⟩
      · exact hOk hOpened hMode
      · exact h.request hBefore hMode
    · rw [hMode] at hPrecopy
      cases hPrecopy
  · rw [hBaseline, hArgs]
    exact h.stage
  · rw [StopsTheWorld, hWritten]
    exact h.written

theorem serveBaseline_stopInv {ok : Bool} (h : StopInv s) (hInv : Inv s')
    (hStep : serveBaseline s ok = some s') : StopInv s' := by
  unfold serveBaseline at hStep
  split at hStep
  · cases hStep
  · rename_i b hb
    obtain ⟨hAgent, -⟩ := h.inv.baseline.claimed b hb
    split at hStep
    · cases hStep
      refine h.of_frame hInv rfl rfl rfl rfl ?_
      rintro c hc hMode
      cases hc
      have hNone := h.request (by rw [hAgent]; rfl) hMode
      simp [h.unwritten hNone]
    · rename_i concurrent hStage
      dsimp only at hStep
      split at hStep
      · rename_i hConcurrent
        subst hConcurrent
        split at hStep <;> cases hStep
        · refine h.of_frame hInv rfl rfl rfl rfl ?_
          rintro c hc hMode
          exact absurd hStage (h.stage b hb hMode).1
        · exact h.of_frame hInv rfl rfl rfl rfl (by simp [reportBaseline])
      · cases hStep
        refine h.of_frame hInv rfl rfl rfl rfl ?_
        rintro c hc hMode
        cases hc
        simp
    · split at hStep
      · split at hStep <;> cases hStep
        refine h.of_frame hInv rfl rfl rfl rfl ?_
        rintro c hc hMode
        cases hc
        simp
      · cases hStep
        exact h.of_frame hInv rfl rfl rfl rfl (by simp [reportBaseline])
    · cases hStep

theorem next_stopInv (s : State) (label : Label) (s' : State)
    (hOk : NoStrawmanAfterPrecopy s label) (h : StopInv s) (hStep : next s label = some s') :
    StopInv s' := by
  have hInv := next_inv s label s' h.inv hStep
  cases label with
  | start args =>
      simp only [next] at hStep
      split at hStep <;> cases hStep
      rename_i hIdle
      have hNone := (h.inv.baseline.not_requested (Or.inl (by simp [hIdle]))).1
      exact ⟨hInv, h.unwritten, by simp [AgentPc.requesting], by simp [hNone], h.written⟩
  | agent ranges => exact (agentMove_of_agentStep hStep).stopInv h hInv hOk
  | agentFail =>
      simp only [next, agentFail] at hStep
      split at hStep <;> cases hStep <;>
        exact ⟨hInv, h.unwritten, by simp [AgentPc.requesting], h.stage, h.written⟩
  | claim t =>
      simp only [next] at hStep
      split at hStep <;> cases hStep
      refine h.of_frame hInv rfl rfl rfl rfl ?_
      rintro c hc hMode
      cases hc
      simp
  | serve ok => exact serveBaseline_stopInv h hInv hStep
  | copy p =>
      simp only [next, copyPage] at hStep
      split at hStep
      · rename_i b hb
        split at hStep <;> cases hStep
        refine h.of_frame hInv rfl rfl rfl rfl ?_
        rintro c hc hMode
        cases hc
        exact h.stage b hb hMode
      · cases hStep
  | finish ok =>
      simp only [next, finishBaseline] at hStep
      split at hStep
      · rename_i b hb
        split at hStep <;> cases hStep
        rename_i stopTheWorld hStage
        refine ⟨hInv, h.unwritten, h.request, by simp [reportBaseline], ?_⟩
        intro w hw hMode
        simp only [reportBaseline] at hw
        split at hw
        · rcases List.mem_append.mp hw with hw | hw
          · exact h.written w hw hMode
          · rw [List.mem_singleton] at hw
            subst hw
            have hNot := (h.stage b hb hMode).2
            rw [hStage] at hNot
            cases stopTheWorld <;> simp_all
        · exact h.written w hw hMode
      · cases hStep
  | finishDelta ok =>
      simp only [next] at hStep
      split at hStep <;> cases hStep
      exact h.of_frame hInv rfl rfl rfl rfl h.stage
  | signalInit | park _ | unpark | claimDelta _ | submit _ | retire | store _ _ | hostStore _ _ _ =>
      simp only [next] at hStep
      split at hStep <;> cases hStep
      exact h.of_frame hInv rfl rfl rfl rfl h.stage

theorem initial_stopInv : StopInv initial :=
  ⟨initial_inv, fun _ => rfl, by simp [initial, AgentPc.requesting], by simp [initial],
    by simp [StopsTheWorld, initial]⟩

end Stop

/-- While a thread copies inside its hook and no other one uses the memory, the
memory stays as it was. -/
structure InstantInv (s : State) : Prop where
  still : ∀ b, s.baseline = some b → b.stage = .copying true → s.pending = 0 ∧ s.memory = b.origin
  copied : ∀ b, s.baseline = some b → b.stage = .copying true →
    ∀ p v, b.image p = some v → v = b.origin p
  empty : ∀ b, s.baseline = some b → (∀ stopTheWorld, b.stage ≠ .copying stopTheWorld) →
    b.image = fun _ => none
  written : ∀ w ∈ s.written, w.stopTheWorld = true → ∀ p v, w.image p = some v → v = w.origin p

section Instant

variable {s s' : State}

theorem InstantInv.of_frame (h : InstantInv s) (hBaseline : s'.baseline = s.baseline)
    (hMemory : s'.memory = s.memory) (hPending : s.pending = 0 → s'.pending = 0)
    (hWritten : s'.written = s.written) : InstantInv s' := by
  refine ⟨?_, ?_, ?_, ?_⟩
  · intro b hb hStage
    rw [hBaseline] at hb
    rw [hMemory]
    obtain ⟨hIdle, hSame⟩ := h.still b hb hStage
    exact ⟨hPending hIdle, hSame⟩
  · rw [hBaseline]
    exact h.copied
  · rw [hBaseline]
    exact h.empty
  · rw [hWritten]
    exact h.written

/-- The memory may change when nobody copies inside a hook. -/
theorem InstantInv.of_notCopying (h : InstantInv s) (hBaseline : s'.baseline = s.baseline)
    (hNot : ∀ b, s.baseline = some b → b.stage ≠ .copying true) (hWritten : s'.written = s.written) :
    InstantInv s' := by
  refine ⟨?_, ?_, ?_, ?_⟩
  · intro b hb hStage
    exact absurd hStage (hNot b (hBaseline ▸ hb))
  · intro b hb hStage
    exact absurd hStage (hNot b (hBaseline ▸ hb))
  · rw [hBaseline]
    exact h.empty
  · rw [hWritten]
    exact h.written

theorem InstantInv.report (h : InstantInv s) (ok : Bool) : InstantInv (reportBaseline s ok) :=
  ⟨by simp [reportBaseline], by simp [reportBaseline], by simp [reportBaseline], h.written⟩

theorem serveBaseline_instantInv {ok : Bool} (h : InstantInv s)
    (hStep : serveBaseline s ok = some s') : InstantInv s' := by
  unfold serveBaseline at hStep
  split at hStep
  · cases hStep
  · rename_i b hb
    split at hStep
    · rename_i hStage
      cases hStep
      have hEmpty := h.empty b hb (by simp [hStage])
      refine ⟨by simp, by simp, ?_, h.written⟩
      rintro c hc -
      cases hc
      exact hEmpty
    · rename_i hStage
      have hEmpty := h.empty b hb (by simp [hStage])
      dsimp only at hStep
      split at hStep
      · split at hStep <;> cases hStep
        · refine ⟨by simp, by simp, ?_, h.written⟩
          rintro c hc hNot
          cases hc
          exact absurd rfl (hNot false)
        · exact ⟨by simp [reportBaseline], by simp [reportBaseline], by simp [reportBaseline],
            h.written⟩
      · cases hStep
        refine ⟨by simp, by simp, ?_, h.written⟩
        rintro c hc -
        cases hc
        exact hEmpty
    · rename_i hStage
      have hEmpty := h.empty b hb (by simp [hStage])
      split at hStep
      · split at hStep <;> cases hStep
        rename_i hIdle
        refine ⟨?_, ?_, ?_, h.written⟩
        · rintro c hc -
          cases hc
          exact ⟨hIdle, rfl⟩
        · rintro c hc - p v hv
          cases hc
          simp [hEmpty] at hv
        · rintro c hc hNot
          cases hc
          exact absurd rfl (hNot true)
      · cases hStep
        exact h.report false
    · cases hStep

theorem copyPage_instantInv {p : Nat} (h : InstantInv s) (hStep : copyPage s p = some s') :
    InstantInv s' := by
  unfold copyPage at hStep
  split at hStep
  · rename_i b hb
    split at hStep <;> cases hStep
    rename_i stopTheWorld hStage
    refine ⟨?_, ?_, ?_, h.written⟩
    · rintro c hc hTrue
      cases hc
      exact h.still b hb hTrue
    · rintro c hc hTrue q v hv
      cases hc
      dsimp only at hv hTrue ⊢
      split at hv
      · rename_i hq
        cases hv
        rw [hq, (h.still b hb hTrue).2]
      · exact h.copied b hb hTrue q v hv
    · rintro c hc hNot
      cases hc
      exact absurd hStage (hNot stopTheWorld)
  · cases hStep

theorem finishBaseline_instantInv {ok : Bool} (h : InstantInv s)
    (hStep : finishBaseline s ok = some s') : InstantInv s' := by
  unfold finishBaseline at hStep
  split at hStep
  · rename_i b hb
    split at hStep <;> cases hStep
    rename_i stopTheWorld hStage
    refine ⟨by simp [reportBaseline], by simp [reportBaseline], by simp [reportBaseline], ?_⟩
    intro w hw hStop
    simp only [reportBaseline] at hw
    split at hw
    · rcases List.mem_append.mp hw with hw | hw
      · exact h.written w hw hStop
      · rw [List.mem_singleton] at hw
        subst hw
        have hTrue : stopTheWorld = true := hStop
        exact h.copied b hb (by rw [hStage, hTrue])
    · exact h.written w hw hStop
  · cases hStep

theorem next_instantInv (s : State) (label : Label) (s' : State) (hOk : AloneInCopy s label)
    (h : InstantInv s) (hStep : next s label = some s') : InstantInv s' := by
  cases label with
  | agent ranges =>
      obtain ⟨-, hBaseline, -, hWritten, hMemory, hPending⟩ :=
        (agentMove_of_agentStep hStep).reads
      exact h.of_frame hBaseline hMemory (fun hIdle => hPending.trans hIdle) hWritten
  | agentFail =>
      obtain ⟨-, hBaseline, -, hWritten, hMemory, hPending⟩ := agentFail_reads hStep
      exact h.of_frame hBaseline hMemory (fun hIdle => hPending.trans hIdle) hWritten
  | claim t =>
      simp only [next] at hStep
      split at hStep <;> cases hStep
      refine ⟨by simp, by simp, ?_, h.written⟩
      rintro c hc -
      cases hc
      rfl
  | serve ok => exact serveBaseline_instantInv h hStep
  | copy p => exact copyPage_instantInv h hStep
  | finish ok => exact finishBaseline_instantInv h hStep
  | submit t =>
      simp only [next] at hStep
      split at hStep <;> cases hStep
      exact h.of_notCopying rfl hOk rfl
  | hostStore t p v =>
      simp only [next] at hStep
      split at hStep <;> cases hStep
      exact h.of_notCopying rfl hOk rfl
  | store p v =>
      simp only [next] at hStep
      split at hStep <;> cases hStep
      rename_i hPending
      refine h.of_notCopying rfl (fun b hb hStage => ?_) rfl
      have hIdle := (h.still b hb hStage).1
      omega
  | retire =>
      simp only [next] at hStep
      split at hStep <;> cases hStep
      exact h.of_frame rfl rfl (fun hIdle => by simp [hIdle]) rfl
  | start _ | signalInit | park _ | unpark | claimDelta _ | finishDelta _ =>
      simp only [next] at hStep
      split at hStep <;> cases hStep
      exact h.of_frame rfl rfl id rfl

theorem initial_instantInv : InstantInv initial := by
  constructor <;> simp [initial]

end Instant

/-- The condition on the steps under which a strawman image is a snapshot. -/
def Undisturbed (s : State) (label : Label) : Prop :=
  NoStrawmanAfterPrecopy s label ∧ AloneInCopy s label

theorem next_bothInv (s : State) (label : Label) (s' : State) (hOk : Undisturbed s label)
    (h : StopInv s ∧ InstantInv s) (hStep : next s label = some s') :
    StopInv s' ∧ InstantInv s' :=
  ⟨next_stopInv s label s' hOk.1 h.1 hStep, next_instantInv s label s' hOk.2 h.2 hStep⟩

theorem StopInv.oneInstant {s : State} (h : StopInv s) (hInstant : InstantInv s) : OneInstant s :=
  fun w hw hMode => hInstant.written w hw (h.written w hw hMode)

/-- Over every sequence of runs: the handlers read only words of the run they serve
exactly while none of them has read for a strawman run; a strawman baseline stops
the world as long as none is requested after a P1e run; and its image is that of one
instant if besides no other thread uses the memory during the copy. -/
theorem requests_independent (labels : List Label) (s : State)
    (hRun : execute next initial labels = some s) :
    (OwnFields s ↔ ∀ r ∈ s.reads, ¬ (r.mode = .strawman ∧ r.field = .baselineConcurrent)) ∧
      (Along next NoStrawmanAfterPrecopy initial labels → StopsTheWorld s) ∧
      (Along next Undisturbed initial labels → OneInstant s) := by
  refine ⟨?_, fun hOk => ?_, fun hOk => ?_⟩
  · have hAlways : Along next (fun _ _ => True) initial labels :=
      along_of_forall (fun _ _ => trivial) initial
    have hInv := invariant_along (fun s label t _ => next_inv s label t) labels initial s initial_inv
      hAlways hRun
    exact forall₂_congr fun r hr => hInv.log r hr
  · exact (invariant_along next_stopInv labels initial s initial_stopInv hOk hRun).written
  · obtain ⟨hStop, hInstant⟩ := invariant_along next_bothInv labels initial s
      ⟨initial_stopInv, initial_instantInv⟩ hOk hRun
    exact hStop.oneInstant hInstant

/-- The run is no P1e run. -/
def NotPrecopy : Label → Prop
  | .start args => args.mode ≠ .precopyBaseline
  | _ => True

theorem next_unwritten {s s' : State} {label : Label} (hNot : NotPrecopy label)
    (hWriter : s.baselineConcurrent.writer = none) (hMode : s.args.mode ≠ .precopyBaseline)
    (hStep : next s label = some s') :
    s'.baselineConcurrent.writer = none ∧ s'.args.mode ≠ .precopyBaseline := by
  cases label with
  | agent ranges =>
      have hMove := agentMove_of_agentStep hStep
      rw [hMove.reads.2.2.1]
      refine ⟨?_, hMode⟩
      rcases hMove.concurrent with hSame | ⟨hPrecopy, -⟩
      · rw [hSame]
        exact hWriter
      · exact absurd hPrecopy hMode
  | agentFail =>
      simp only [next, agentFail] at hStep
      split at hStep <;> cases hStep <;> exact ⟨hWriter, hMode⟩
  | start args =>
      simp only [next] at hStep
      split at hStep <;> cases hStep
      exact ⟨hWriter, hNot⟩
  | serve ok =>
      simp only [next, serveBaseline] at hStep
      split at hStep <;> (try split at hStep) <;> (try split at hStep) <;> (try split at hStep) <;>
        cases hStep <;> exact ⟨hWriter, hMode⟩
  | copy p =>
      simp only [next, copyPage] at hStep
      split at hStep <;> (try split at hStep) <;> cases hStep
      exact ⟨hWriter, hMode⟩
  | finish ok =>
      simp only [next, finishBaseline] at hStep
      split at hStep <;> (try split at hStep) <;> cases hStep
      exact ⟨hWriter, hMode⟩
  | signalInit | park _ | unpark | claim _ | claimDelta _ | finishDelta _ | submit _ | retire
  | store _ _ | hostStore _ _ _ =>
      simp only [next] at hStep
      split at hStep <;> cases hStep
      exact ⟨hWriter, hMode⟩

/-- Without P1e runs no strawman run meets a leftover word. -/
theorem along_of_notPrecopy {labels : List Label} (hNot : ∀ label ∈ labels, NotPrecopy label)
    {s : State} (hWriter : s.baselineConcurrent.writer = none)
    (hMode : s.args.mode ≠ .precopyBaseline) : Along next NoStrawmanAfterPrecopy s labels := by
  induction labels generalizing s with
  | nil => trivial
  | cons label rest ih =>
      intro s' hStep
      obtain ⟨hWriter', hMode'⟩ := next_unwritten (hNot label List.mem_cons_self) hWriter hMode hStep
      refine ⟨?_, ih (fun l hl => hNot l (List.mem_cons_of_mem label hl)) hWriter' hMode'⟩
      cases label <;> simp [NoStrawmanAfterPrecopy, hWriter]

/-- A P1e run from its request to its end. -/
def precopyRun : List Label :=
  [.start ⟨.precopyBaseline, [47, 98], [47, 100], 1⟩, .agent [], .agent [], .agent [], .claim 0,
    .serve true, .serve true, .finish true, .agent [], .agent [], .park 0, .agent [], .agent [],
    .agent [], .claimDelta 0, .finishDelta true, .agent [], .agent [], .unpark]

/-- A strawman run up to the copying. -/
def strawmanRequest : List Label :=
  [.start ⟨.strawman, [47, 98], [47, 100], 1⟩, .agent [], .agent [], .agent [], .claim 0,
    .serve true, .serve true]

/-- A strawman run alone, whose handler waits for the device and copies one page. -/
theorem strawmanAlone_independent :
    ∃ s, execute next initial
        (.signalInit :: strawmanRequest ++ [.serve true, .copy 0, .finish true]) = some s ∧
      s.written.map Written.stopTheWorld = [true] ∧ StopsTheWorld s := by
  refine ⟨_, rfl, rfl, (requests_independent
    (.signalInit :: strawmanRequest ++ [.serve true, .copy 0, .finish true]) _ rfl).2.1 ?_⟩
  apply along_of_notPrecopy
  · simp [strawmanRequest, NotPrecopy]
  · rfl
  · decide

/-- After a P1e run the strawman baseline runs in the background, and the application
writes two pages between the copies of the first and of the second. -/
theorem not_independent_afterPrecopy :
    ∃ s, execute next initial (.signalInit :: precopyRun ++ strawmanRequest ++
        [.copy 0, .hostStore 0 0 1, .hostStore 0 1 1, .copy 1, .finish true]) = some s ∧
      ¬ OwnFields s ∧ ¬ StopsTheWorld s ∧ ¬ OneInstant s := by
  refine ⟨_, rfl, ?_, ?_, ?_⟩
  · intro h
    have hRead := h ⟨2, .strawman, .baselineConcurrent, some 1⟩ (by decide)
    cases hRead
  · intro h
    have hStop := h _ (.tail _ (.head _)) rfl
    cases hStop
  · intro h
    have hSame := h _ (.tail _ (.head _)) rfl 1 1 rfl
    cases hSame

end FlashCkpt.Gate.Requests
