import FlashCkpt.Library.Transition

/-! The checkpoint gate of `ckpt_gate.h`: the synchronization hooks of
`libckpt_vllm.c` on any number of application threads, the GPU work these
threads submit, and a sequence of `ckpt_core` runs which request and release
the boundary. Every access to `ckpt_req` or `phase` is a step of its own. -/
namespace FlashCkpt.Gate

/-- `GATE_PHASE_*`. -/
inductive Phase where
  | invalid | init | atBoundary | resume | done
  deriving DecidableEq, Repr

/-- The intercepted calls through which the boundary can be entered.
`cudaEventSynchronize` is not intercepted. -/
inductive Hook where
  | streamSynchronize (stream : Nat)
  | deviceSynchronize
  | memcpyAsync (stream : Nat)
  deriving DecidableEq, Repr

/-- The stream a hook waits for before it looks at the gate; `none` is the whole device. -/
def Hook.waitsFor : Hook → Option Nat
  | .streamSynchronize stream => some stream
  | .deviceSynchronize => none
  | .memcpyAsync _ => none

/-- Position of an application thread. `syncing` is inside the real CUDA
synchronization; from `enter` to `unlock` the thread is inside
`maybe_checkpoint_post_sync`, from `postSync` on in the handlers called after it. -/
inductive ThreadPc where
  | running
  | copied
  | syncing
  | signalInit
  | enter
  | lock
  | locked
  | publish
  | wait
  | serveDelta
  | writeDelta
  | unlock
  | postSync
  | postDelta
  deriving DecidableEq, Repr

/-- How a `ckpt_core` run was started. The strawman baseline opens the gate
but writes neither `ckpt_req` nor `phase`. -/
inductive Mode where
  | strawman | mainPath | stunCopy | precopyBaseline
  deriving DecidableEq, Repr

/-- Position of the current `ckpt_core` run. The releases `releaseReq`,
`releasePhase` and `releasePhaseFirst`, `releaseReqLast` are the two write
orders of the source. -/
inductive AgentPc where
  | idle
  | opening (mode : Mode)
  | openCheck (mode : Mode)
  | openResume (mode : Mode)
  | request (mode : Mode)
  | await (mode : Mode)
  | stopped (mode : Mode)
  | awaitDelta
  | releaseReq
  | releasePhase
  | releasePhaseFirst
  | releaseReqLast
  deriving DecidableEq, Repr

/-- One kernel or copy that the GPU has not finished. -/
structure Work where
  thread : Nat
  stream : Nat
  deriving DecidableEq, Repr

/-- The shared words, the GPU queue and the control points. The last three
fields are not in the program: they record whether the last request has been
released, how many requests were made, and which request was current when
`AT_BOUNDARY` was last written. -/
structure State where
  phase : Phase
  ckptReq : Bool
  ckptSeq : Nat
  deltaReq : Nat
  deltaDone : Bool
  initSignaled : Bool
  mutex : Option Nat
  pending : List Work
  hook : Nat → Hook
  pc : Nat → ThreadPc
  agent : AgentPc
  quiet : Bool
  requests : Nat
  boundaryRun : Nat

/-- The zero-filled gate file before the first synchronization of the application. -/
def initial : State where
  phase := .invalid
  ckptReq := false
  ckptSeq := 0
  deltaReq := 0
  deltaDone := false
  initSignaled := false
  mutex := none
  pending := []
  hook := fun _ => .deviceSynchronize
  pc := fun _ => .running
  agent := .idle
  quiet := true
  requests := 0
  boundaryRun := 0

def State.setPc (s : State) (t : Nat) (pc : ThreadPc) : State :=
  { s with pc := fun u => if u = t then pc else s.pc u }

def State.setHook (s : State) (t : Nat) (hook : Hook) : State :=
  { s with hook := fun u => if u = t then hook else s.hook u }

def State.push (s : State) (t stream : Nat) : State :=
  { s with pending := s.pending ++ [⟨t, stream⟩] }

inductive Label where
  | submit (t stream : Nat)
  | complete (i : Nat)
  | call (t : Nat) (hook : Hook)
  | thread (t : Nat)
  | start (mode : Mode)
  | agent
  | agentFail
  deriving DecidableEq, Repr

/-- The real synchronization returns: nothing it waits for is pending. -/
def drained (pending : List Work) : Option Nat → Bool
  | none => pending.isEmpty
  | some stream => pending.all fun w => w.stream != stream

/-- A hook is entered. The copy hook submits its copy first. -/
def callHook (s : State) (t : Nat) : Hook → State
  | .memcpyAsync stream => ((s.push t stream).setHook t (.memcpyAsync stream)).setPc t .copied
  | hook => (s.setHook t hook).setPc t .syncing

/-- What follows `maybe_checkpoint_post_sync`: the copy hook returns, the other
two call `maybe_baseline_post_sync`, which writes neither word of the handshake,
and `maybe_delta_post_sync`. -/
def afterCheckpoint : Hook → ThreadPc
  | .memcpyAsync _ => .running
  | _ => .postSync

/-- One step of a thread inside a hook. The copy hook synchronizes the device
only when a checkpoint is requested; every hook performs the first-sync
handshake before `maybe_checkpoint_post_sync`. -/
def threadStep (s : State) (t : Nat) : Option State :=
  match s.pc t with
  | .running => none
  | .copied => some (s.setPc t (if s.ckptReq then .syncing else .running))
  | .syncing =>
      if drained s.pending (s.hook t).waitsFor then
        if s.initSignaled then some (s.setPc t .enter)
        else some ({ s with initSignaled := true }.setPc t .signalInit)
      else none
  | .signalInit => some ({ s with phase := .init }.setPc t .enter)
  | .enter => some (s.setPc t (if s.ckptReq then .lock else afterCheckpoint (s.hook t)))
  | .lock =>
      if s.mutex = none then some ({ s with mutex := some t }.setPc t .locked) else none
  | .locked => some (s.setPc t (if s.ckptReq then .publish else .unlock))
  | .publish =>
      some ({ s with ckptSeq := s.ckptSeq + 1, phase := .atBoundary,
                     boundaryRun := s.requests }.setPc t .wait)
  | .wait => some (s.setPc t (if s.phase = .resume then .unlock else .serveDelta))
  | .serveDelta =>
      if s.deltaReq = 1 then some ({ s with deltaReq := 2 }.setPc t .writeDelta)
      else some (s.setPc t .wait)
  | .writeDelta => some ({ s with deltaDone := true }.setPc t .wait)
  | .unlock => some ({ s with mutex := none }.setPc t (afterCheckpoint (s.hook t)))
  | .postSync =>
      if s.deltaReq = 1 then some ({ s with deltaReq := 2 }.setPc t .postDelta)
      else some (s.setPc t .running)
  | .postDelta => some ({ s with deltaDone := true }.setPc t .running)

/-- `gate_open` accepts a gate which is freshly registered or was resumed. -/
def gateReady (phase : Phase) : Bool := phase = .init || phase = .resume

/-- A run which has opened the gate either stops there or goes on to its request. -/
def afterOpen : Mode → AgentPc
  | .strawman => .idle
  | mode => .request mode

/-- One step of `ckpt_core`. The three tests of `phase` in `gate_open` are
three reads. The main and stun-copy paths clear `ckpt_req` before they write
`RESUME`; the precopy path writes them in the other order. -/
def agentStep (s : State) : Option State :=
  match s.agent with
  | .idle => none
  | .opening mode =>
      if gateReady s.phase then some { s with agent := .openCheck mode } else some s
  | .openCheck mode =>
      some { s with agent := if gateReady s.phase then .openResume mode else .idle }
  | .openResume mode =>
      if s.phase = .resume then
        some { s with ckptReq := false, deltaReq := 0, deltaDone := false,
                      agent := afterOpen mode }
      else some { s with agent := afterOpen mode }
  | .request mode =>
      some { s with ckptReq := true, quiet := false, requests := s.requests + 1,
                    agent := .await mode }
  | .await mode =>
      some { s with agent := if s.phase = .atBoundary then .stopped mode else .await mode }
  | .stopped .precopyBaseline =>
      some { s with deltaReq := 1, deltaDone := false, agent := .awaitDelta }
  | .stopped _ => some { s with agent := .releaseReq }
  | .awaitDelta =>
      some { s with agent := if s.deltaDone then .releasePhaseFirst else .awaitDelta }
  | .releaseReq => some { s with ckptReq := false, agent := .releasePhase }
  | .releasePhase => some { s with phase := .resume, quiet := true, agent := .idle }
  | .releasePhaseFirst => some { s with phase := .resume, agent := .releaseReqLast }
  | .releaseReqLast => some { s with ckptReq := false, quiet := true, agent := .idle }

/-- A run may give up while it waits for the gate, before its request, and
after it has seen the boundary; the boundary wait itself never gives up. -/
def agentFail (s : State) : Option State :=
  match s.agent with
  | .opening _ | .openCheck _ | .openResume _ | .request _ | .stopped _ =>
      some { s with agent := .idle }
  | _ => none

/-- Work on one stream finishes in submission order. -/
def completeWork (s : State) (i : Nat) : Option State :=
  match s.pending[i]? with
  | none => none
  | some w =>
      if (s.pending.take i).all (fun earlier => earlier.stream != w.stream) then
        some { s with pending := s.pending.eraseIdx i }
      else none

def next (s : State) : Label → Option State
  | .submit t stream => if s.pc t = .running then some (s.push t stream) else none
  | .complete i => completeWork s i
  | .call t hook => if s.pc t = .running then some (callHook s t hook) else none
  | .thread t => threadStep s t
  | .start mode => if s.agent = .idle then some { s with agent := .opening mode } else none
  | .agent => agentStep s
  | .agentFail => agentFail s

/-- The thread is in the loop that polls `phase` for `RESUME`. -/
def ThreadPc.waiting : ThreadPc → Bool
  | .wait | .serveDelta | .writeDelta => true
  | _ => false

/-- The thread holds `g_ckpt_mutex`. -/
def ThreadPc.holding : ThreadPc → Bool
  | .locked | .publish | .wait | .serveDelta | .writeDelta | .unlock => true
  | _ => false

/-- The thread has not passed a synchronization, or has left the checkpoint section. -/
def ThreadPc.outside : ThreadPc → Bool
  | .running | .copied | .syncing | .postSync | .postDelta => true
  | _ => false

theorem ThreadPc.of_outside {pc : ThreadPc} (h : pc.outside = true) :
    pc.holding = false ∧ pc.waiting = false ∧ pc ≠ .signalInit ∧ pc ≠ .lock ∧ pc ≠ .publish := by
  cases pc <;> simp_all [ThreadPc.outside, ThreadPc.holding, ThreadPc.waiting]

theorem ThreadPc.of_waiting {pc : ThreadPc} (h : pc.waiting = true) :
    pc.holding = true ∧ pc.outside = false ∧ pc ≠ .signalInit ∧ pc ≠ .lock ∧ pc ≠ .publish := by
  cases pc <;> simp_all [ThreadPc.outside, ThreadPc.holding, ThreadPc.waiting]

theorem afterCheckpoint_outside (hook : Hook) : (afterCheckpoint hook).outside = true := by
  cases hook <;> rfl

/-- The thread steps that write no word of the handshake, by the position they lead to. -/
inductive Move (s : State) (t : Nat) : ThreadPc → Prop where
  | outside {pc : ThreadPc} (hFrom : (s.pc t).outside = true) (hTo : pc.outside = true) :
      Move s t pc
  | synced (hFrom : s.pc t = .syncing) (hDrained : drained s.pending (s.hook t).waitsFor = true)
      (hSignaled : s.initSignaled = true) : Move s t .enter
  | pass {pc : ThreadPc} (hFrom : s.pc t = .enter) (hReq : s.ckptReq = false)
      (hTo : pc.outside = true) : Move s t pc
  | queue (hFrom : s.pc t = .enter) (hReq : s.ckptReq = true) : Move s t .lock
  | commit (hFrom : s.pc t = .locked) (hReq : s.ckptReq = true) : Move s t .publish
  | retreat (hFrom : s.pc t = .locked) (hReq : s.ckptReq = false) : Move s t .unlock
  | resume (hFrom : s.pc t = .wait) (hPhase : s.phase = .resume) : Move s t .unlock
  | poll {pc : ThreadPc} (hFrom : (s.pc t).waiting = true) (hTo : pc.waiting = true) :
      Move s t pc

/-- Everything one step of a thread can do. -/
theorem threadStep_cases {s s' : State} {t : Nat} (h : threadStep s t = some s') :
    (∃ req done pc, Move s t pc ∧
      s' = State.setPc { s with deltaReq := req, deltaDone := done } t pc) ∨
    (s.pc t = .syncing ∧ drained s.pending (s.hook t).waitsFor = true ∧
      s.initSignaled = false ∧ s' = State.setPc { s with initSignaled := true } t .signalInit) ∨
    (s.pc t = .signalInit ∧ s' = State.setPc { s with phase := .init } t .enter) ∨
    (s.pc t = .lock ∧ s.mutex = none ∧ s' = State.setPc { s with mutex := some t } t .locked) ∨
    (s.pc t = .publish ∧
      s' = State.setPc { s with ckptSeq := s.ckptSeq + 1, phase := .atBoundary,
                                boundaryRun := s.requests } t .wait) ∨
    (s.pc t = .unlock ∧
      s' = State.setPc { s with mutex := none } t (afterCheckpoint (s.hook t))) := by
  cases hPc : s.pc t with
  | running => simp [threadStep, hPc] at h
  | copied =>
      simp only [threadStep, hPc, Option.some.injEq] at h
      refine .inl ⟨_, _, _, (.outside (by rw [hPc]; rfl) ?_), h.symm⟩
      split <;> rfl
  | syncing =>
      simp only [threadStep, hPc] at h
      split at h
      · rename_i hDrained
        split at h
        · rename_i hSignaled
          cases h
          exact .inl ⟨_, _, _, (.synced hPc hDrained hSignaled), rfl⟩
        · rename_i hSignaled
          cases h
          exact .inr (.inl ⟨rfl, hDrained, by simpa using hSignaled, rfl⟩)
      · cases h
  | signalInit =>
      simp only [threadStep, hPc, Option.some.injEq] at h
      exact .inr (.inr (.inl ⟨rfl, h.symm⟩))
  | enter =>
      simp only [threadStep, hPc, Option.some.injEq] at h
      refine .inl ⟨_, _, _, ?_, h.symm⟩
      cases hReq : s.ckptReq with
      | true => exact .queue hPc hReq
      | false => exact .pass hPc hReq (afterCheckpoint_outside _)
  | lock =>
      simp only [threadStep, hPc] at h
      split at h
      · rename_i hFree
        cases h
        exact .inr (.inr (.inr (.inl ⟨rfl, hFree, rfl⟩)))
      · cases h
  | locked =>
      simp only [threadStep, hPc, Option.some.injEq] at h
      refine .inl ⟨_, _, _, ?_, h.symm⟩
      cases hReq : s.ckptReq with
      | true => exact .commit hPc hReq
      | false => exact .retreat hPc hReq
  | publish =>
      simp only [threadStep, hPc, Option.some.injEq] at h
      exact .inr (.inr (.inr (.inr (.inl ⟨rfl, h.symm⟩))))
  | wait =>
      simp only [threadStep, hPc, Option.some.injEq] at h
      refine .inl ⟨_, _, _, ?_, h.symm⟩
      split
      · rename_i hPhase
        exact .resume hPc hPhase
      · exact .poll (by rw [hPc]; rfl) rfl
  | serveDelta =>
      simp only [threadStep, hPc] at h
      split at h <;> cases h <;>
        exact .inl ⟨_, _, _, (.poll (by rw [hPc]; rfl) rfl), rfl⟩
  | writeDelta =>
      simp only [threadStep, hPc, Option.some.injEq] at h
      exact .inl ⟨_, _, _, (.poll (by rw [hPc]; rfl) rfl), h.symm⟩
  | unlock =>
      simp only [threadStep, hPc, Option.some.injEq] at h
      exact .inr (.inr (.inr (.inr (.inr ⟨rfl, h.symm⟩))))
  | postSync =>
      simp only [threadStep, hPc] at h
      split at h <;> cases h <;>
        exact .inl ⟨_, _, _, (.outside (by rw [hPc]; rfl) rfl), rfl⟩
  | postDelta =>
      simp only [threadStep, hPc, Option.some.injEq] at h
      exact .inl ⟨_, _, _, (.outside (by rw [hPc]; rfl) rfl), h.symm⟩

end FlashCkpt.Gate
