import FlashCkpt.Gate.Protocol

/-! Release of the application. The runs which clear `ckpt_req` before they write
`RESUME` leave no thread parked and no boundary behind. The precopy release
writes the two words in the other order, and a thread can park between them. -/
namespace FlashCkpt.Gate

open Transition

/-- After a release no thread is parked or about to publish the boundary, and
a run that sees the boundary sees the one published for its own request. -/
structure GateSafe (s : State) : Prop where
  notParked : s.quiet = true → ∀ t, (s.pc t).waiting = true → s.phase = .resume
  notParking : s.quiet = true → ∀ t, s.pc t ≠ .publish
  noBoundary : s.quiet = true → s.phase ≠ .atBoundary
  ownBoundary : ∀ mode, s.agent = .await mode → s.phase = .atBoundary →
    s.boundaryRun = s.requests

/-- The run is a precopy run, the only kind whose release writes `RESUME` first. -/
def AgentPc.precopy : AgentPc → Bool
  | .opening mode | .openCheck mode | .openResume mode | .request mode | .await mode
  | .stopped mode => mode = .precopyBaseline
  | .awaitDelta | .releasePhaseFirst | .releaseReqLast => true
  | .idle | .releaseReq | .releasePhase => false

/-- The run has found the gate ready and has not made its request. -/
def AgentPc.opened : AgentPc → Bool
  | .openCheck _ | .openResume _ | .request _ => true
  | _ => false

def AgentPc.awaiting : AgentPc → Bool
  | .await _ => true
  | _ => false

/-- The run has seen the boundary and has not completed its release. -/
def AgentPc.releasing : AgentPc → Bool
  | .stopped _ | .releaseReq | .releasePhase => true
  | _ => false

theorem AgentPc.of_opened {agent : AgentPc} (h : agent.opened = true) :
    agent.awaiting = false ∧ agent.releasing = false ∧ agent ≠ .releasePhase := by
  cases agent <;> simp_all [AgentPc.opened, AgentPc.awaiting, AgentPc.releasing]

/-- A request that was not released keeps the gate at the boundary of its own
thread, so that `gate_open` never finds the gate ready again: this is what
`stuckGate` says of a run which gave up after it had stopped the application. -/
structure ReleaseInv (s : State) : Prop where
  mutexHeld : ∀ t, (s.pc t).holding = true → s.mutex = some t
  unsignaled : s.initSignaled = false → s.phase = .invalid ∧ ∀ t, s.pc t ≠ .signalInit
  signaling : ∀ t, s.pc t = .signalInit →
    s.phase = .invalid ∧ ∀ u, s.pc u = .signalInit → u = t
  beforeInit : s.phase = .invalid →
    s.quiet = true ∧ ∀ t, s.pc t ≠ .lock ∧ (s.pc t).holding = false
  parkedAtBoundary : s.phase = .atBoundary → ∃ t, (s.pc t).waiting = true
  quietGate : s.quiet = true → s.ckptReq = false ∧ s.phase ≠ .atBoundary ∧
    ∀ t, s.pc t ≠ .publish ∧ ((s.pc t).waiting = true → s.phase = .resume)
  stuckGate : s.quiet = false → s.agent.awaiting = false → s.phase = .atBoundary
  openedQuiet : s.agent.opened = true → s.quiet = true ∧ s.phase ≠ .invalid
  awaitingOwn : s.agent.awaiting = true →
    s.quiet = false ∧ (s.phase = .atBoundary → s.boundaryRun = s.requests)
  notQuiet : s.agent.releasing = true → s.quiet = false
  reqCleared : s.agent = .releasePhase → s.ckptReq = false
  notPrecopy : s.agent.precopy = false

theorem initial_releaseInv : ReleaseInv initial := by
  constructor <;> simp [initial, ThreadPc.holding, ThreadPc.waiting, AgentPc.awaiting,
    AgentPc.opened, AgentPc.releasing, AgentPc.precopy]

theorem ReleaseInv.gateSafe {s : State} (h : ReleaseInv s) : GateSafe s where
  notParked hQuiet t := ((h.quietGate hQuiet).2.2 t).2
  notParking hQuiet t := ((h.quietGate hQuiet).2.2 t).1
  noBoundary hQuiet := (h.quietGate hQuiet).2.1
  ownBoundary mode hAgent := (h.awaitingOwn (by rw [hAgent]; rfl)).2

/-- A step of a thread that writes no word of the handshake, by what is said of its new
place. -/
theorem ReleaseInv.moveTo {s : State} (h : ReleaseInv s) {t : Nat} {pc : ThreadPc} (req : Nat)
    (done : Bool) (hHolding : pc.holding = true → s.mutex = some t) (hSignal : pc ≠ .signalInit)
    (hBefore : s.phase = .invalid → pc ≠ .lock ∧ pc.holding = false)
    (hParked : (s.pc t).waiting = true → s.phase = .atBoundary → pc.waiting = true)
    (hQuiet : s.quiet = true → pc ≠ .publish ∧ (pc.waiting = true → s.phase = .resume)) :
    ReleaseInv (State.setPc { s with deltaReq := req, deltaDone := done } t pc) := by
  refine { h with
    mutexHeld := fun u hu => ?_
    unsignaled := fun hUnsignaled => ⟨(h.unsignaled hUnsignaled).1, fun u => ?_⟩
    signaling := fun u hu => ?_
    beforeInit := fun hPhase => ⟨(h.beforeInit hPhase).1, fun u => ?_⟩
    parkedAtBoundary := fun hPhase => ?_
    quietGate := fun hGate => ?_ }
  · simp only [State.setPc] at hu ⊢
    split at hu
    · rename_i hEq
      rw [hEq]
      exact hHolding hu
    · exact h.mutexHeld u hu
  · simp only [State.setPc]
    split
    · exact hSignal
    · exact (h.unsignaled hUnsignaled).2 u
  · simp only [State.setPc] at hu ⊢
    split at hu
    · exact absurd hu hSignal
    · obtain ⟨hPhase, hOnly⟩ := h.signaling u hu
      refine ⟨hPhase, fun v hv => ?_⟩
      split at hv
      · exact absurd hv hSignal
      · exact hOnly v hv
  · simp only [State.setPc]
    split
    · exact hBefore hPhase
    · exact (h.beforeInit hPhase).2 u
  · obtain ⟨u, hu⟩ := h.parkedAtBoundary hPhase
    refine ⟨u, ?_⟩
    simp only [State.setPc]
    split
    · rename_i hEq
      exact hParked (hEq ▸ hu) hPhase
    · exact hu
  · obtain ⟨hReq, hPhase, hAll⟩ := h.quietGate hGate
    refine ⟨hReq, hPhase, fun u => ?_⟩
    simp only [State.setPc]
    split
    · exact hQuiet hGate
    · exact hAll u

/-- The steps of a thread which write no word of the handshake. -/
theorem Move.releaseInv {s : State} {t : Nat} {pc : ThreadPc} (hMove : Move s t pc)
    (h : ReleaseInv s) (req : Nat) (done : Bool) :
    ReleaseInv (State.setPc { s with deltaReq := req, deltaDone := done } t pc) := by
  have hBefore := h.beforeInit
  have hQuiet := h.quietGate
  have hHeld := h.mutexHeld t
  cases hMove with
  | outside hFrom hTo =>
      have hFrom' := ThreadPc.of_outside hFrom
      have hTo' := ThreadPc.of_outside hTo
      apply h.moveTo req done <;> grind
  | synced hFrom _ _ =>
      apply h.moveTo req done <;> grind [ThreadPc.holding, ThreadPc.waiting]
  | pass hFrom hReq hTo =>
      have hTo' := ThreadPc.of_outside hTo
      apply h.moveTo req done <;> grind [ThreadPc.waiting]
  | queue hFrom hReq =>
      apply h.moveTo req done <;> grind [ThreadPc.holding, ThreadPc.waiting]
  | commit hFrom hReq =>
      apply h.moveTo req done <;> grind [ThreadPc.holding, ThreadPc.waiting]
  | retreat hFrom hReq =>
      apply h.moveTo req done <;> grind [ThreadPc.holding, ThreadPc.waiting]
  | resume hFrom hPhase =>
      apply h.moveTo req done <;> grind [ThreadPc.holding, ThreadPc.waiting]
  | poll hFrom hTo =>
      have hFrom' := ThreadPc.of_waiting hFrom
      have hTo' := ThreadPc.of_waiting hTo
      apply h.moveTo req done <;> grind

section Words

variable {s : State} {t : Nat} (h : ReleaseInv s)
include h

/-- The first synchronization of a process claims the initialization. -/
theorem ReleaseInv.signal (hUnsignaled : s.initSignaled = false) :
    ReleaseInv (State.setPc { s with initSignaled := true } t .signalInit) := by
  obtain ⟨h1, h2, h3, h4, h5, h6, h7, h8, h9, h10, h11, h12⟩ := h
  constructor <;> simp only [State.setPc] <;> grind [ThreadPc.holding, ThreadPc.waiting]

theorem ReleaseInv.initialize (hFrom : s.pc t = .signalInit) :
    ReleaseInv (State.setPc { s with phase := .init } t .enter) := by
  obtain ⟨h1, h2, h3, h4, h5, h6, h7, h8, h9, h10, h11, h12⟩ := h
  constructor <;> simp only [State.setPc] <;> grind [ThreadPc.holding, ThreadPc.waiting]

theorem ReleaseInv.takeMutex (hFrom : s.pc t = .lock) (hFree : s.mutex = none) :
    ReleaseInv (State.setPc { s with mutex := some t } t .locked) := by
  obtain ⟨h1, h2, h3, h4, h5, h6, h7, h8, h9, h10, h11, h12⟩ := h
  constructor <;> simp only [State.setPc] <;> grind [ThreadPc.holding, ThreadPc.waiting]

theorem ReleaseInv.publish (hFrom : s.pc t = .publish) :
    ReleaseInv (State.setPc { s with ckptSeq := s.ckptSeq + 1, phase := .atBoundary,
                                     boundaryRun := s.requests } t .wait) := by
  obtain ⟨h1, h2, h3, h4, h5, h6, h7, h8, h9, h10, h11, h12⟩ := h
  constructor <;> simp only [State.setPc] <;> grind [ThreadPc.holding, ThreadPc.waiting]

theorem ReleaseInv.dropMutex (hFrom : s.pc t = .unlock) {pc : ThreadPc}
    (hOutside : pc.outside = true) :
    ReleaseInv (State.setPc { s with mutex := none } t pc) := by
  have hTo := ThreadPc.of_outside hOutside
  obtain ⟨h1, h2, h3, h4, h5, h6, h7, h8, h9, h10, h11, h12⟩ := h
  constructor <;> simp only [State.setPc] <;> grind [ThreadPc.holding, ThreadPc.waiting]

end Words

theorem threadStep_releaseInv {s s' : State} {t : Nat} (h : ReleaseInv s)
    (hStep : threadStep s t = some s') : ReleaseInv s' := by
  rcases threadStep_cases hStep with ⟨req, done, pc, hMove, rfl⟩ | ⟨-, -, hUnsignaled, rfl⟩ |
    ⟨hFrom, rfl⟩ | ⟨hFrom, hFree, rfl⟩ | ⟨hFrom, rfl⟩ | ⟨hFrom, rfl⟩
  · exact hMove.releaseInv h req done
  · exact h.signal hUnsignaled
  · exact h.initialize hFrom
  · exact h.takeMutex hFrom hFree
  · exact h.publish hFrom
  · exact h.dropMutex hFrom (afterCheckpoint_outside (s.hook t))

/-- While a thread waits at the boundary, no other thread is about to publish it. -/
theorem ReleaseInv.not_publish {s : State} (h : ReleaseInv s) (hPhase : s.phase = .atBoundary)
    (t : Nat) : s.pc t ≠ .publish := by
  intro hPublish
  obtain ⟨u, hu⟩ := h.parkedAtBoundary hPhase
  have hHolder := h.mutexHeld u (ThreadPc.of_waiting hu).1
  have hOwn := h.mutexHeld t (by rw [hPublish]; rfl)
  have hEq : u = t := Option.some.inj (hHolder.symm.trans hOwn)
  subst hEq
  rw [hPublish] at hu
  cases hu

/-- A step of a run that only moves on keeps what is said of the threads. -/
theorem ReleaseInv.with_agent {s : State} (h : ReleaseInv s) {agent : AgentPc}
    (hStuck : s.quiet = false → agent.awaiting = false → s.phase = .atBoundary)
    (hOpened : agent.opened = true → s.quiet = true ∧ s.phase ≠ .invalid)
    (hAwaiting : agent.awaiting = true →
      s.quiet = false ∧ (s.phase = .atBoundary → s.boundaryRun = s.requests))
    (hReleasing : agent.releasing = true → s.quiet = false)
    (hCleared : agent = .releasePhase → s.ckptReq = false)
    (hPrecopy : agent.precopy = false) : ReleaseInv { s with agent := agent } :=
  { h with
    stuckGate := hStuck
    openedQuiet := hOpened
    awaitingOwn := hAwaiting
    notQuiet := hReleasing
    reqCleared := hCleared
    notPrecopy := hPrecopy }

/-- A request that is cleared is none. -/
theorem ReleaseInv.clearReq {s : State} (h : ReleaseInv s) (req : Nat) (done : Bool) :
    ReleaseInv { s with ckptReq := false, deltaReq := req, deltaDone := done } :=
  { h with
    quietGate := fun hQuiet => ⟨rfl, (h.quietGate hQuiet).2⟩
    reqCleared := fun _ => rfl }

theorem ReleaseInv.request {s : State} (h : ReleaseInv s) {mode : Mode}
    (hAgent : s.agent = .request mode) :
    ReleaseInv { s with ckptReq := true, quiet := false, requests := s.requests + 1,
                        agent := .await mode } := by
  obtain ⟨h1, h2, h3, h4, h5, h6, h7, h8, h9, h10, h11, h12⟩ := h
  constructor <;> grind [AgentPc.opened, AgentPc.awaiting, AgentPc.releasing, AgentPc.precopy]

/-- `RESUME` is written where the request is cleared and no thread is about to publish. -/
theorem ReleaseInv.resumed {s : State} (h : ReleaseInv s) (hAgent : s.agent = .releasePhase) :
    ReleaseInv { s with phase := .resume, quiet := true, agent := .idle } := by
  have hPublish := h.not_publish
  obtain ⟨h1, h2, h3, h4, h5, h6, h7, h8, h9, h10, h11, h12⟩ := h
  constructor <;> grind [AgentPc.opened, AgentPc.awaiting, AgentPc.releasing, AgentPc.precopy]

/-- A run ends, or gives up, where it does not wait for the boundary. -/
theorem ReleaseInv.idle {s : State} (h : ReleaseInv s) (hAwaiting : s.agent.awaiting = false) :
    ReleaseInv { s with agent := .idle } :=
  h.with_agent (fun hQuiet _ => h.stuckGate hQuiet hAwaiting) (nomatch ·) (nomatch ·) (nomatch ·)
    (nomatch ·) rfl

/-- A run that has found the gate ready goes on to the next of its reads. -/
theorem ReleaseInv.openOn {s : State} (h : ReleaseInv s) (hGate : s.quiet = true)
    (hPhase : s.phase ≠ .invalid) {agent : AgentPc} (hOpened : agent.opened = true)
    (hPrecopy : agent.precopy = false) : ReleaseInv { s with agent := agent } := by
  obtain ⟨hAwaiting, hReleasing, hCleared⟩ := AgentPc.of_opened hOpened
  exact h.with_agent (fun hQuiet _ => Bool.noConfusion (hGate.symm.trans hQuiet))
    (fun _ => ⟨hGate, hPhase⟩) (fun hTrue => Bool.noConfusion (hAwaiting.symm.trans hTrue))
    (fun hTrue => Bool.noConfusion (hReleasing.symm.trans hTrue))
    (fun hTrue => absurd hTrue hCleared) hPrecopy

theorem agentStep_releaseInv {s s' : State} (h : ReleaseInv s)
    (hStep : agentStep s = some s') : ReleaseInv s' := by
  have hStuck := h.stuckGate
  have hOpened := h.openedQuiet
  have hOwn := h.awaitingOwn
  have hReleasing := h.notQuiet
  have hPrecopy := h.notPrecopy
  cases hAgent : s.agent with
  | idle => simp [agentStep, hAgent] at hStep
  | opening mode =>
      rw [hAgent] at hStuck hPrecopy
      simp only [agentStep, hAgent] at hStep
      split at hStep <;> cases hStep
      · rename_i hReady
        have hInit : s.phase ≠ .invalid := fun hPhase => by
          rw [hPhase] at hReady
          cases hReady
        refine h.openOn ?_ hInit rfl hPrecopy
        by_contra hNot
        rw [hStuck (Bool.eq_false_iff.mpr hNot) rfl] at hReady
        cases hReady
      · exact h
  | openCheck mode =>
      rw [hAgent] at hOpened hPrecopy
      simp only [agentStep, hAgent, Option.some.injEq] at hStep
      subst hStep
      split
      · exact h.openOn (hOpened rfl).1 (hOpened rfl).2 rfl hPrecopy
      · exact h.idle (by rw [hAgent]; rfl)
  | openResume mode =>
      rw [hAgent] at hOpened hPrecopy
      have hNext : ReleaseInv { s with agent := afterOpen mode } := by
        cases mode with
        | strawman => exact h.idle (by rw [hAgent]; rfl)
        | mainPath | stunCopy | precopyBaseline =>
            exact h.openOn (hOpened rfl).1 (hOpened rfl).2 rfl hPrecopy
      simp only [agentStep, hAgent] at hStep
      split at hStep <;> cases hStep
      · exact hNext.clearReq 0 false
      · exact hNext
  | request mode =>
      simp only [agentStep, hAgent, Option.some.injEq] at hStep
      subst hStep
      exact h.request hAgent
  | await mode =>
      rw [hAgent] at hOwn hPrecopy
      simp only [agentStep, hAgent, Option.some.injEq] at hStep
      subst hStep
      split
      · rename_i hPhase
        exact h.with_agent (fun _ _ => hPhase) (nomatch ·) (nomatch ·) (fun _ => (hOwn rfl).1)
          (nomatch ·) hPrecopy
      · exact h.with_agent (fun _ hNot => nomatch hNot) (nomatch ·) (fun _ => hOwn rfl) (nomatch ·)
          (nomatch ·) hPrecopy
  | stopped mode =>
      rw [hAgent] at hStuck hReleasing hPrecopy
      cases mode with
      | precopyBaseline => cases hPrecopy
      | strawman | mainPath | stunCopy =>
          simp only [agentStep, hAgent, Option.some.injEq] at hStep
          subst hStep
          exact h.with_agent (fun hQuiet _ => hStuck hQuiet rfl) (nomatch ·) (nomatch ·)
            (fun _ => hReleasing rfl) (nomatch ·) rfl
  | releaseReq =>
      rw [hAgent] at hStuck hReleasing
      simp only [agentStep, hAgent, Option.some.injEq] at hStep
      subst hStep
      exact (h.clearReq s.deltaReq s.deltaDone).with_agent (fun hQuiet _ => hStuck hQuiet rfl)
        (nomatch ·) (nomatch ·) (fun _ => hReleasing rfl) (fun _ => rfl) rfl
  | releasePhase =>
      simp only [agentStep, hAgent, Option.some.injEq] at hStep
      subst hStep
      exact h.resumed hAgent
  | awaitDelta | releasePhaseFirst | releaseReqLast =>
      rw [hAgent] at hPrecopy
      cases hPrecopy

theorem agentFail_releaseInv {s s' : State} (h : ReleaseInv s)
    (hStep : agentFail s = some s') : ReleaseInv s' := by
  unfold agentFail at hStep
  split at hStep <;> rename_i hAgent <;> cases hStep <;> exact h.idle (by rw [hAgent]; rfl)

/-- The invariant does not speak of the GPU queue. -/
theorem ReleaseInv.with_pending {s : State} (h : ReleaseInv s) (pending : List Work)
    (hook : Nat → Hook) : ReleaseInv { s with pending, hook } := by
  obtain ⟨h1, h2, h3, h4, h5, h6, h7, h8, h9, h10, h11, h12⟩ := h
  exact ⟨h1, h2, h3, h4, h5, h6, h7, h8, h9, h10, h11, h12⟩

theorem callHook_releaseInv {s : State} {t : Nat} (h : ReleaseInv s)
    (hRunning : s.pc t = .running) (hook : Hook) : ReleaseInv (callHook s t hook) := by
  have hFrom : (s.pc t).outside = true := by rw [hRunning]; rfl
  cases hook with
  | memcpyAsync stream =>
      have hMove : Move ((s.push t stream).setHook t (.memcpyAsync stream)) t .copied :=
        .outside hFrom rfl
      exact hMove.releaseInv (h.with_pending _ _) s.deltaReq s.deltaDone
  | streamSynchronize stream =>
      have hMove : Move (s.setHook t (.streamSynchronize stream)) t .syncing := .outside hFrom rfl
      exact hMove.releaseInv (h.with_pending s.pending _) s.deltaReq s.deltaDone
  | deviceSynchronize =>
      have hMove : Move (s.setHook t .deviceSynchronize) t .syncing := .outside hFrom rfl
      exact hMove.releaseInv (h.with_pending s.pending _) s.deltaReq s.deltaDone

theorem completeWork_releaseInv {s s' : State} {i : Nat} (h : ReleaseInv s)
    (hStep : completeWork s i = some s') : ReleaseInv s' := by
  unfold completeWork at hStep
  split at hStep
  · cases hStep
  · split at hStep
    · cases hStep
      exact h.with_pending _ s.hook
    · cases hStep

theorem start_releaseInv {s : State} (h : ReleaseInv s) (hIdle : s.agent = .idle) {mode : Mode}
    (hMode : mode ≠ .precopyBaseline) : ReleaseInv { s with agent := .opening mode } := by
  exact h.with_agent (fun hQuiet _ => h.stuckGate hQuiet (by rw [hIdle]; rfl)) (nomatch ·)
    (nomatch ·) (nomatch ·) (nomatch ·) (decide_eq_false hMode)

theorem next_releaseInv (s : State) (label : Label) (s' : State)
    (hMode : label ≠ .start .precopyBaseline) (h : ReleaseInv s)
    (hStep : next s label = some s') : ReleaseInv s' := by
  cases label with
  | submit t stream =>
      simp only [next] at hStep
      split at hStep <;> cases hStep
      exact h.with_pending _ s.hook
  | complete i => exact completeWork_releaseInv h hStep
  | call t hook =>
      simp only [next] at hStep
      split at hStep <;> cases hStep
      rename_i hRunning
      exact callHook_releaseInv h hRunning hook
  | thread t => exact threadStep_releaseInv h hStep
  | start mode =>
      simp only [next] at hStep
      split at hStep <;> cases hStep
      rename_i hIdle
      exact start_releaseInv h hIdle (fun hEq => hMode (by rw [hEq]))
  | agent => exact agentStep_releaseInv h hStep
  | agentFail => exact agentFail_releaseInv h hStep

/-- No step starts a precopy run. -/
def NoPrecopyRun (_ : State) (label : Label) : Prop := label ≠ .start .precopyBaseline

/-- The application's first device synchronization registers the gate. -/
def registered : List Label := .call 0 .deviceSynchronize :: List.replicate 4 (.thread 0)

/-- A run of the mode opens the gate and makes its request. -/
def requested (mode : Mode) : List Label := .start mode :: List.replicate 4 .agent

/-- A thread whose device synchronization finds the request publishes the boundary. -/
def parkedBy (t : Nat) : List Label := .call t .deviceSynchronize :: List.replicate 5 (.thread t)

/-- A main-path run stops the thread, releases it, and the thread returns from its hook. -/
def mainPathRun : List Label :=
  registered ++ requested .mainPath ++ parkedBy 0 ++ List.replicate 4 .agent ++
    List.replicate 3 (.thread 0)

/-- A precopy run obtains its delta and writes `RESUME`; the thread returns from
its hook, finds `ckpt_req` still set at its next synchronization and parks
again; only then does the run clear `ckpt_req`. -/
def precopyRun : List Label :=
  registered ++ requested .precopyBaseline ++ parkedBy 0 ++ List.replicate 2 .agent ++
    List.replicate 3 (.thread 0) ++ List.replicate 2 .agent ++
    List.replicate 3 (.thread 0) ++ parkedBy 0 ++ [.agent]

end FlashCkpt.Gate
