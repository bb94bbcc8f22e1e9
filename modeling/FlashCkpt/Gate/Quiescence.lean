import FlashCkpt.Gate.Protocol

/-! Quiescence at the boundary: `ckpt_gate.h` says that the GPU is idle at
`AT_BOUNDARY`. The device-wide synchronization of the copy hook establishes
this, the stream hook waits for its own stream only, and no hook holds back the
launches of the other threads. -/
namespace FlashCkpt.Gate

open Transition

/-- No submitted work is pending while the gate is at the boundary. -/
def Quiescent (s : State) : Prop := s.phase = .atBoundary → s.pending = []

/-- The thread has returned from its synchronization and may still publish the
boundary, or holds the application there. -/
def ThreadPc.synced : ThreadPc → Bool
  | .signalInit | .enter | .lock | .locked | .publish | .wait | .serveDelta | .writeDelta => true
  | _ => false

/-- The application synchronizes as the gate expects: a synchronization of one
stream returns when no other stream has work, and nothing is submitted while
some thread is between its synchronization and the end of its checkpoint. -/
def SyncDiscipline (s : State) : Label → Prop
  | .thread t => s.pc t = .syncing → ∀ stream, (s.hook t).waitsFor = some stream →
      ∀ w ∈ s.pending, w.stream = stream
  | .submit _ _ | .call _ (.memcpyAsync _) => ∀ u, (s.pc u).synced = false
  | _ => True

structure QuiescenceInv (s : State) : Prop where
  idle : ∀ t, (s.pc t).synced = true → s.pending = []
  parked : s.phase = .atBoundary → ∃ t, (s.pc t).waiting = true

theorem ThreadPc.waiting_synced {pc : ThreadPc} (h : pc.waiting = true) : pc.synced = true := by
  cases pc <;> simp_all [ThreadPc.waiting, ThreadPc.synced]

theorem ThreadPc.outside_synced {pc : ThreadPc} (h : pc.outside = true) : pc.synced = false := by
  cases pc <;> simp_all [ThreadPc.outside, ThreadPc.synced]

theorem initial_quiescenceInv : QuiescenceInv initial := by
  constructor <;> simp [initial]

theorem QuiescenceInv.quiescent {s : State} (h : QuiescenceInv s) : Quiescent s := by
  intro hPhase
  obtain ⟨t, ht⟩ := h.parked hPhase
  exact h.idle t (ThreadPc.waiting_synced ht)

/-- Under the discipline every synchronization waits for the whole device. -/
theorem pending_nil_of_drained {s : State} {t : Nat} (hOk : SyncDiscipline s (.thread t))
    (hFrom : s.pc t = .syncing) (h : drained s.pending (s.hook t).waitsFor = true) :
    s.pending = [] := by
  cases hWaits : (s.hook t).waitsFor with
  | none => simpa [hWaits, drained] using h
  | some stream =>
      refine List.eq_nil_iff_forall_not_mem.mpr fun w hw => ?_
      have hSame := hOk hFrom stream hWaits w hw
      have hOther := List.all_eq_true.mp (by simpa only [hWaits, drained] using h) w hw
      simp [hSame] at hOther

theorem QuiescenceInv.idle_setPc {s s' : State} {t : Nat} {pc : ThreadPc} (h : QuiescenceInv s)
    (hPc : s'.pc = fun u => if u = t then pc else s.pc u) (hPending : s'.pending = s.pending)
    (hTo : pc.synced = true → s.pending = []) :
    ∀ u, (s'.pc u).synced = true → s'.pending = [] := by
  intro u hu
  rw [hPending]
  by_cases hEq : u = t
  · exact hTo (by simpa [hPc, hEq] using hu)
  · exact h.idle u (by simpa [hPc, hEq] using hu)

/-- A waiting thread other than the one that moves keeps waiting. -/
theorem QuiescenceInv.parked_setPc {s s' : State} {t : Nat} {pc : ThreadPc} (h : QuiescenceInv s)
    (hPc : s'.pc = fun u => if u = t then pc else s.pc u) (hPhase : s'.phase = s.phase)
    (hTo : (s.pc t).waiting = true → s.phase = .atBoundary → pc.waiting = true) :
    s'.phase = .atBoundary → ∃ u, (s'.pc u).waiting = true := by
  intro hAt
  rw [hPhase] at hAt
  obtain ⟨u, hu⟩ := h.parked hAt
  by_cases hEq : u = t
  · subst hEq
    exact ⟨u, by simpa [hPc] using hTo hu hAt⟩
  · exact ⟨u, by simpa [hPc, hEq] using hu⟩

theorem Move.quiescenceInv {s : State} {t : Nat} {pc : ThreadPc} (hMove : Move s t pc)
    (hOk : SyncDiscipline s (.thread t)) (h : QuiescenceInv s) (req : Nat) (done : Bool) :
    QuiescenceInv (State.setPc { s with deltaReq := req, deltaDone := done } t pc) := by
  refine ⟨h.idle_setPc rfl rfl fun hTo => ?_, h.parked_setPc rfl rfl fun hFrom hAt => ?_⟩
  · cases hMove with
    | outside _ hOut | pass _ _ hOut => simp [ThreadPc.outside_synced hOut] at hTo
    | synced hFrom hDrained _ => exact pending_nil_of_drained hOk hFrom hDrained
    | queue hFrom _ | commit hFrom _ => exact h.idle t (by rw [hFrom]; rfl)
    | retreat _ _ | resume _ _ => cases hTo
    | poll hFrom _ => exact h.idle t (ThreadPc.waiting_synced hFrom)
  · cases hMove with
    | outside hOut _ => simp [(ThreadPc.of_outside hOut).2.1] at hFrom
    | synced hPc _ _ | pass hPc _ _ | queue hPc _ | commit hPc _ | retreat hPc _ =>
        rw [hPc] at hFrom
        cases hFrom
    | resume _ hPhase =>
        rw [hPhase] at hAt
        cases hAt
    | poll _ hTo => exact hTo

theorem threadStep_quiescenceInv {s s' : State} {t : Nat} (hOk : SyncDiscipline s (.thread t))
    (h : QuiescenceInv s) (hStep : threadStep s t = some s') : QuiescenceInv s' := by
  rcases threadStep_cases hStep with ⟨req, done, pc, hMove, rfl⟩ | ⟨hFrom, hDrained, _, rfl⟩ |
    ⟨hFrom, rfl⟩ | ⟨hFrom, _, rfl⟩ | ⟨hFrom, rfl⟩ | ⟨hFrom, rfl⟩
  · exact hMove.quiescenceInv hOk h req done
  · refine ⟨h.idle_setPc rfl rfl fun _ => pending_nil_of_drained hOk hFrom hDrained,
      h.parked_setPc rfl rfl fun hWait => ?_⟩
    simp [hFrom, ThreadPc.waiting] at hWait
  · exact ⟨h.idle_setPc rfl rfl fun _ => h.idle t (by rw [hFrom]; rfl), fun hAt => by cases hAt⟩
  · refine ⟨h.idle_setPc rfl rfl fun _ => h.idle t (by rw [hFrom]; rfl),
      h.parked_setPc rfl rfl fun hWait => ?_⟩
    simp [hFrom, ThreadPc.waiting] at hWait
  · exact ⟨h.idle_setPc rfl rfl fun _ => h.idle t (by rw [hFrom]; rfl),
      fun _ => ⟨t, by simp [State.setPc, ThreadPc.waiting]⟩⟩
  · refine ⟨h.idle_setPc rfl rfl fun hTo => ?_, h.parked_setPc rfl rfl fun hWait => ?_⟩
    · simp [ThreadPc.outside_synced (afterCheckpoint_outside _)] at hTo
    · simp [hFrom, ThreadPc.waiting] at hWait

/-- `ckpt_core` submits no work and writes no phase but `RESUME`. -/
theorem agentStep_frame {s s' : State} (hStep : agentStep s = some s') :
    s'.pc = s.pc ∧ s'.hook = s.hook ∧ s'.pending = s.pending ∧
      (s'.phase = s.phase ∨ s'.phase = .resume) := by
  unfold agentStep at hStep
  split at hStep <;> (try split at hStep) <;> cases hStep <;> simp

theorem agentFail_frame {s s' : State} (hStep : agentFail s = some s') :
    s'.pc = s.pc ∧ s'.hook = s.hook ∧ s'.pending = s.pending ∧ s'.phase = s.phase := by
  unfold agentFail at hStep
  split at hStep <;> cases hStep <;> simp

theorem QuiescenceInv.of_frame {s s' : State} (h : QuiescenceInv s) (hPc : s'.pc = s.pc)
    (hPending : s.pending = [] → s'.pending = [])
    (hPhase : s'.phase = s.phase ∨ s'.phase = .resume) : QuiescenceInv s' := by
  refine ⟨fun t ht => hPending (h.idle t (by rwa [hPc] at ht)), fun hAt => ?_⟩
  rw [hPc]
  rcases hPhase with hSame | hResume
  · exact h.parked (hSame ▸ hAt)
  · rw [hResume] at hAt
    cases hAt

theorem completeWork_frame {s s' : State} {i : Nat} (hStep : completeWork s i = some s') :
    s'.pc = s.pc ∧ s'.hook = s.hook ∧ (s.pending = [] → s'.pending = []) ∧
      s'.phase = s.phase := by
  unfold completeWork at hStep
  split at hStep
  · cases hStep
  · split at hStep <;> cases hStep
    exact ⟨rfl, rfl, fun hNil => by simp [hNil], rfl⟩

/-- Nothing is submitted while a thread is past its synchronization, so the
queue may grow. -/
theorem QuiescenceInv.push {s : State} (h : QuiescenceInv s) (hOk : ∀ u, (s.pc u).synced = false)
    (t stream : Nat) : QuiescenceInv (s.push t stream) := by
  refine ⟨fun u hu => ?_, h.parked⟩
  exact absurd hu (by simp [State.push, hOk u])

theorem callHook_quiescenceInv {s : State} {t : Nat} {hook : Hook} (h : QuiescenceInv s)
    (hOk : SyncDiscipline s (.call t hook)) (hRunning : s.pc t = .running) :
    QuiescenceInv (callHook s t hook) := by
  have hNotWaiting : (s.pc t).waiting = true → ∀ {P : Prop}, P := by
    intro hWait
    rw [hRunning] at hWait
    cases hWait
  cases hook with
  | memcpyAsync stream =>
      have hPushed := h.push hOk t stream
      exact ⟨hPushed.idle_setPc rfl rfl (fun hTo => by cases hTo),
        hPushed.parked_setPc rfl rfl fun hWait _ => hNotWaiting hWait⟩
  | streamSynchronize stream | deviceSynchronize =>
      exact ⟨h.idle_setPc rfl rfl (fun hTo => by cases hTo),
        h.parked_setPc rfl rfl fun hWait _ => hNotWaiting hWait⟩

theorem next_quiescenceInv (s : State) (label : Label) (s' : State)
    (hOk : SyncDiscipline s label) (h : QuiescenceInv s) (hStep : next s label = some s') :
    QuiescenceInv s' := by
  cases label with
  | submit t stream =>
      simp only [next] at hStep
      split at hStep <;> cases hStep
      exact h.push hOk t stream
  | complete i =>
      obtain ⟨hPc, -, hPending, hPhase⟩ := completeWork_frame hStep
      exact h.of_frame hPc hPending (.inl hPhase)
  | call t hook =>
      simp only [next] at hStep
      split at hStep <;> cases hStep
      rename_i hRunning
      exact callHook_quiescenceInv h hOk hRunning
  | thread t => exact threadStep_quiescenceInv hOk h hStep
  | start mode =>
      simp only [next] at hStep
      split at hStep <;> cases hStep
      exact h.of_frame rfl id (.inl rfl)
  | agent =>
      obtain ⟨hPc, -, hPending, hPhase⟩ := agentStep_frame hStep
      exact h.of_frame hPc (fun hNil => hPending.trans hNil) hPhase
  | agentFail =>
      obtain ⟨hPc, -, hPending, hPhase⟩ := agentFail_frame hStep
      exact h.of_frame hPc (fun hNil => hPending.trans hNil) (.inl hPhase)

/-- In every run which keeps the discipline the GPU is idle from the moment the
boundary is published until `RESUME`. -/
theorem quiescent_of_syncDiscipline (labels : List Label) (s : State)
    (hOk : Along next SyncDiscipline initial labels)
    (hRun : execute next initial labels = some s) : Quiescent s :=
  (invariant_along next_quiescenceInv labels initial s initial_quiescenceInv hOk hRun).quiescent

/-- Only one thread uses CUDA, and it synchronizes the whole device. -/
def DeviceSyncOnly (t : Nat) : Label → Prop
  | .submit u _ => u = t
  | .call u hook => u = t ∧ hook.waitsFor = none
  | _ => True

structure Alone (t : Nat) (s : State) : Prop where
  others : ∀ u, u ≠ t → s.pc u = .running
  device : (s.hook t).waitsFor = none

theorem Alone.not_synced {t : Nat} {s : State} (h : Alone t s) (hRunning : s.pc t = .running)
    (u : Nat) : (s.pc u).synced = false := by
  by_cases hEq : u = t
  · rw [hEq, hRunning]
    rfl
  · rw [h.others u hEq]
    rfl

theorem threadStep_hook {s s' : State} {t : Nat} (hStep : threadStep s t = some s') :
    s'.hook = s.hook ∧ ∀ u, u ≠ t → s'.pc u = s.pc u := by
  rcases threadStep_cases hStep with ⟨req, done, pc, hMove, rfl⟩ | ⟨_, _, _, rfl⟩ |
    ⟨_, rfl⟩ | ⟨_, _, rfl⟩ | ⟨_, rfl⟩ | ⟨_, rfl⟩ <;>
    exact ⟨rfl, fun u hu => by simp [State.setPc, hu]⟩

/-- A step of the one thread, of the GPU or of a run keeps the others out of the hooks. -/
theorem Alone.step {t : Nat} {s s' : State} {label : Label} (h : Alone t s)
    (hOnly : DeviceSyncOnly t label) (hStep : next s label = some s') :
    SyncDiscipline s label ∧ Alone t s' := by
  cases label with
  | submit u stream =>
      simp only [next] at hStep
      split at hStep <;> cases hStep
      rename_i hRunning
      cases hOnly
      exact ⟨h.not_synced hRunning, h.others, h.device⟩
  | complete i =>
      obtain ⟨hPc, hHook, -, -⟩ := completeWork_frame hStep
      exact ⟨trivial, fun u hu => hPc ▸ h.others u hu, hHook ▸ h.device⟩
  | call u hook =>
      simp only [next] at hStep
      split at hStep <;> cases hStep
      rename_i hRunning
      obtain ⟨rfl, hWaits⟩ := hOnly
      cases hook with
      | memcpyAsync stream =>
          refine ⟨h.not_synced hRunning, fun v hv => ?_, ?_⟩
          · simpa [callHook, State.setPc, State.setHook, State.push, hv] using h.others v hv
          · simp [callHook, State.setPc, State.setHook, Hook.waitsFor]
      | streamSynchronize stream => cases hWaits
      | deviceSynchronize =>
          refine ⟨trivial, fun v hv => ?_, ?_⟩
          · simpa [callHook, State.setPc, State.setHook, hv] using h.others v hv
          · simp [callHook, State.setPc, State.setHook, Hook.waitsFor]
  | thread u =>
      have hSelf : u = t := by
        by_contra hNe
        simp [next, threadStep, h.others u hNe] at hStep
      subst hSelf
      obtain ⟨hHook, hOthers⟩ := threadStep_hook hStep
      refine ⟨fun _ stream hStream => ?_, fun v hv => ?_, ?_⟩
      · rw [h.device] at hStream
        cases hStream
      · rw [hOthers v hv]
        exact h.others v hv
      · rw [hHook]
        exact h.device
  | start mode =>
      simp only [next] at hStep
      split at hStep <;> cases hStep
      exact ⟨trivial, h.others, h.device⟩
  | agent =>
      obtain ⟨hPc, hHook, -, -⟩ := agentStep_frame hStep
      exact ⟨trivial, fun u hu => hPc ▸ h.others u hu, hHook ▸ h.device⟩
  | agentFail =>
      obtain ⟨hPc, hHook, -, -⟩ := agentFail_frame hStep
      exact ⟨trivial, fun u hu => hPc ▸ h.others u hu, hHook ▸ h.device⟩

/-- An application with one CUDA thread and no stream synchronization keeps the
discipline, whatever it submits and whenever it is checkpointed. -/
theorem Alone.along {t : Nat} {s : State} (h : Alone t s) {labels : List Label}
    (hOnly : ∀ label ∈ labels, DeviceSyncOnly t label) : Along next SyncDiscipline s labels := by
  induction labels generalizing s with
  | nil => trivial
  | cons label rest ih =>
      intro s' hStep
      obtain ⟨hOk, hAlone⟩ := h.step (hOnly label List.mem_cons_self) hStep
      exact ⟨hOk, ih hAlone fun l hl => hOnly l (List.mem_cons_of_mem label hl)⟩

/-- A launch on one stream after the request, then a synchronization, after
which the thread publishes the boundary. -/
def boundaryAfter (sync : Hook) : List Label :=
  [.call 0 .deviceSynchronize, .thread 0, .thread 0, .thread 0, .thread 0,
   .start .mainPath, .agent, .agent, .agent, .agent, .submit 0 2, .call 0 sync]

def publishes : List Label := [.thread 0, .thread 0, .thread 0, .thread 0, .thread 0]

theorem quiescent_deviceBoundary :
    ∃ s, execute next initial
        (boundaryAfter .deviceSynchronize ++ [.complete 0] ++ publishes) = some s ∧
      s.phase = .atBoundary ∧ Quiescent s := by
  refine ⟨_, rfl, rfl, quiescent_of_syncDiscipline
    (boundaryAfter .deviceSynchronize ++ [.complete 0] ++ publishes) _ ?_ rfl⟩
  have hAlone : Alone 0 initial := ⟨fun _ _ => rfl, rfl⟩
  apply hAlone.along
  simp [boundaryAfter, publishes, DeviceSyncOnly, Hook.waitsFor]

/-- The launch is still pending when the synchronization of another stream
publishes the boundary. -/
theorem not_quiescent_streamBoundary :
    ¬ ∀ (labels : List Label) (s : State),
      execute next initial labels = some s → Quiescent s := by
  intro h
  have hPending := h (boundaryAfter (.streamSynchronize 1) ++ publishes) _ rfl rfl
  cases hPending

end FlashCkpt.Gate
