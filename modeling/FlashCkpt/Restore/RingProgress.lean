import FlashCkpt.Restore.RingControl

/-! Progress in the restore ring. When the allocations before one have all been called,
the first job that is not consumed can be: a worker takes it, its slot comes round, and
its consumer is there. No thread has to wake up without a reason. -/
namespace FlashCkpt.Restore

open TicketRing Transition

/-- A turn that does not fail, of a thread that has a reason to run. -/
def RingLabel.Smooth : RingLabel → Prop
  | .worker _ (.decrypt failure) => failure = none
  | .worker _ .spurious => False
  | .worker _ _ => True
  | .consumer _ .check => True
  | .consumer _ (.copy ok) => ok = true
  | .consumer _ .release => True
  | _ => False

/-- A copy to the device does not fail. -/
def RingLabel.Copies : RingLabel → Prop
  | .consumer _ (.copy ok) => ok = true
  | _ => True

/-- The call is in the loop, or has left it at its end. -/
def Consumer.Begun (x : Consumer) : Prop := x.stage ≠ .idle ∧ x.stage ≠ .failed

/-- A pool that runs, with the calls begun and the jobs before a number consumed. -/
structure Flowing (plan : RingPlan) (called : Nat → Prop) (m : Nat) (pool : Pool) : Prop where
  inv : ∃ dispatched, Inv plan dispatched none pool ∧
    (.exited ∈ pool.workers → Left plan dispatched pool.shared)
  going : pool.shared.stop = false
  begun : ∀ c, called c → ∃ x, pool.consumers[c]? = some x ∧ x.Begun
  before : ∀ i < m, i ∈ pool.shared.consumed

section Steps

variable {plan : RingPlan} {pool pool' : Pool} {label : RingLabel}

theorem RingLabel.Smooth.decrypts (h : label.Smooth) : label.decrypts := by
  cases label with
  | worker t turn =>
      cases turn with
      | decrypt failure => exact h
      | fetch | acquire | publish | spurious => trivial
  | consumer | stop | broadcast => trivial

theorem RingLabel.Smooth.copies (h : label.Smooth) : label.Copies := by
  cases label with
  | consumer c turn =>
      cases turn with
      | copy ok => exact h
      | enter | check | release | spurious => trivial
  | worker | stop | broadcast => trivial

theorem RingLabel.Smooth.ne_stop (h : label.Smooth) : label ≠ .stop := by
  rintro rfl
  exact h

theorem step_worker {t : Nat} {w : Worker} {turn : WorkerTurn} {next : Turn Worker}
    (ht : pool.workers[t]? = some w) (hTurn : workerTurn plan pool.shared w turn = some next) :
    pool.step plan (.worker t turn) = some (Pool.wakeOpt plan
      { pool with shared := next.shared, workers := pool.workers.set t next.thread }
      next.broadcast) := by
  rw [Pool.step, ht, Option.bind_some, hTurn, Option.map_some]

theorem step_consumer {c : Nat} {x : Consumer} {turn : ConsumerTurn} {next : Turn Consumer}
    (hc : pool.consumers[c]? = some x) (hTurn : consumerTurn plan c pool.shared x turn = some next) :
    pool.step plan (.consumer c turn) = some (Pool.wakeOpt plan
      { pool with shared := next.shared, consumers := pool.consumers.set c next.thread }
      next.broadcast) := by
  rw [Pool.step, hc, Option.bind_some, hTurn, Option.map_some]

/-- What is consumed stays so. -/
theorem consumed_step (hStep : pool.step plan label = some pool') :
    ∀ j ∈ pool.shared.consumed, j ∈ pool'.shared.consumed := by
  intro j hj
  cases label with
  | worker t turn =>
      obtain ⟨w, -, hNext⟩ := Option.bind_eq_some_iff.mp hStep
      obtain ⟨next, hTurn, rfl⟩ := Option.map_eq_some_iff.mp hNext
      rw [shared_wakeOpt, (workerTurn_frame hTurn).2.2]
      exact hj
  | consumer c turn =>
      obtain ⟨x, -, hNext⟩ := Option.bind_eq_some_iff.mp hStep
      obtain ⟨next, hTurn, rfl⟩ := Option.map_eq_some_iff.mp hNext
      rw [shared_wakeOpt]
      rcases (consumerTurn_frame hTurn).2 with hSame | hMore
      · rwa [hSame]
      · rw [hMore]
        exact List.mem_append_left _ hj
  | stop =>
      cases hStep
      exact hj
  | broadcast slot =>
      rw [Pool.step, Option.ite_none_right_eq_some] at hStep
      cases hStep.2
      exact hj

/-- Only the shutdown stops the pool. -/
theorem stop_step (hLabel : label ≠ .stop) (hStep : pool.step plan label = some pool') :
    pool'.shared.stop = pool.shared.stop := by
  cases label with
  | worker t turn =>
      obtain ⟨w, -, hNext⟩ := Option.bind_eq_some_iff.mp hStep
      obtain ⟨next, hTurn, rfl⟩ := Option.map_eq_some_iff.mp hNext
      rw [shared_wakeOpt, (workerTurn_frame hTurn).1]
  | consumer c turn =>
      obtain ⟨x, -, hNext⟩ := Option.bind_eq_some_iff.mp hStep
      obtain ⟨next, hTurn, rfl⟩ := Option.map_eq_some_iff.mp hNext
      rw [shared_wakeOpt, (consumerTurn_frame hTurn).1]
  | stop => exact absurd rfl hLabel
  | broadcast slot =>
      rw [Pool.step, Option.ite_none_right_eq_some] at hStep
      cases hStep.2
      rfl

/-- What a step makes of a consumer: a turn of its own, and then perhaps a wake-up. -/
structure Consumer.Moved (plan : RingPlan) (s : RingState) (label : RingLabel) (c : Nat)
    (x x' : Consumer) : Prop where
  moved : ∃ y, (y = x ∨ ∃ turn next, label = .consumer c turn ∧
      consumerTurn plan c s x turn = some next ∧ y = next.thread) ∧
    (x' = y ∨ ∃ slot, x' = y.wake plan.ring slot (plan.firstJob c))

theorem consumer_wakeOpt {c : Nat} {y : Consumer} (slot : Option Nat)
    (hy : pool.consumers[c]? = some y) :
    ∃ x', (pool.wakeOpt plan slot).consumers[c]? = some x' ∧
      (x' = y ∨ ∃ slot, x' = y.wake plan.ring slot (plan.firstJob c)) := by
  cases slot with
  | none => exact ⟨y, hy, .inl rfl⟩
  | some slot =>
      refine ⟨_, ?_, .inr ⟨slot, rfl⟩⟩
      rw [Pool.wakeOpt, Pool.wake, List.getElem?_mapIdx, hy, Option.map_some]

theorem consumer_step (hStep : pool.step plan label = some pool') {c : Nat} {x : Consumer}
    (hx : pool.consumers[c]? = some x) :
    ∃ x', pool'.consumers[c]? = some x' ∧ x.Moved plan pool.shared label c x' := by
  cases label with
  | worker t turn =>
      obtain ⟨w, -, hNext⟩ := Option.bind_eq_some_iff.mp hStep
      obtain ⟨next, -, rfl⟩ := Option.map_eq_some_iff.mp hNext
      obtain ⟨x', hx', hWoken⟩ := consumer_wakeOpt next.broadcast
        (show ({ pool with shared := next.shared, workers := _ } : Pool).consumers[c]? = some x
          from hx)
      exact ⟨x', hx', ⟨x, .inl rfl, hWoken⟩⟩
  | consumer c' turn =>
      obtain ⟨x₀, hx₀, hNext⟩ := Option.bind_eq_some_iff.mp hStep
      obtain ⟨next, hTurn, rfl⟩ := Option.map_eq_some_iff.mp hNext
      by_cases hSame : c' = c
      · subst hSame
        cases hx₀.symm.trans hx
        obtain ⟨x', hx', hWoken⟩ := consumer_wakeOpt next.broadcast
          (show ({ pool with shared := next.shared, consumers := _ } : Pool).consumers[c']? =
            some next.thread from List.getElem?_set_self (List.getElem?_eq_some_iff.mp hx₀).1)
        exact ⟨x', hx', ⟨_, .inr ⟨turn, next, rfl, hTurn, rfl⟩, hWoken⟩⟩
      · obtain ⟨x', hx', hWoken⟩ := consumer_wakeOpt next.broadcast
          (show ({ pool with shared := next.shared, consumers := _ } : Pool).consumers[c]? = some x
            from (List.getElem?_set_ne hSame).trans hx)
        exact ⟨x', hx', ⟨x, .inl rfl, hWoken⟩⟩
  | stop =>
      cases hStep
      exact ⟨x, hx, ⟨x, .inl rfl, .inl rfl⟩⟩
  | broadcast slot =>
      rw [Pool.step, Option.ite_none_right_eq_some] at hStep
      cases hStep.2
      obtain ⟨x', hx', hWoken⟩ := consumer_wakeOpt (some slot) hx
      exact ⟨x', hx', ⟨x, .inl rfl, hWoken⟩⟩

theorem length_consumers_step (hStep : pool.step plan label = some pool') :
    pool'.consumers.length = pool.consumers.length := by
  have hWake : ∀ (p : Pool) (slot : Option Nat),
      (p.wakeOpt plan slot).consumers.length = p.consumers.length := by
    intro p slot
    cases slot with
    | none => rfl
    | some slot => exact List.length_mapIdx
  cases label with
  | worker t turn =>
      obtain ⟨w, -, hNext⟩ := Option.bind_eq_some_iff.mp hStep
      obtain ⟨next, -, rfl⟩ := Option.map_eq_some_iff.mp hNext
      exact hWake _ _
  | consumer c turn =>
      obtain ⟨x, -, hNext⟩ := Option.bind_eq_some_iff.mp hStep
      obtain ⟨next, -, rfl⟩ := Option.map_eq_some_iff.mp hNext
      exact (hWake _ _).trans List.length_set
  | stop =>
      cases hStep
      rfl
  | broadcast slot =>
      rw [Pool.step, Option.ite_none_right_eq_some] at hStep
      cases hStep.2
      exact hWake pool (some slot)

theorem Consumer.Begun.wake {x : Consumer} (h : x.Begun) (ring slot first : Nat) :
    (x.wake ring slot first).Begun := by
  obtain ⟨k, off, stage⟩ := x
  cases stage with
  | wait asleep => simp [Consumer.Begun, Consumer.wake]
  | idle | copy | release | done | failed => exact h

theorem consumerTurn_begun {c : Nat} {s : RingState} {x : Consumer} {turn : ConsumerTurn}
    {next : Turn Consumer} (hCopies : (RingLabel.consumer c turn).Copies)
    (h : consumerTurn plan c s x turn = some next) : next.thread.Begun := by
  cases turn with
  | enter | spurious =>
      rw [consumerTurn, Option.ite_none_right_eq_some] at h
      cases h.2
      simp [Consumer.Begun]
  | check =>
      rw [consumerTurn, Option.ite_none_right_eq_some] at h
      obtain ⟨-, h⟩ := h
      dsimp only at h
      split at h
      · split at h <;> (cases h; simp [Consumer.Begun])
      · cases h
        simp [Consumer.Begun]
  | copy ok =>
      cases hCopies
      rw [consumerTurn, Option.ite_none_right_eq_some] at h
      obtain ⟨job, -, rfl⟩ := Option.map_eq_some_iff.mp h.2
      dsimp only
      split
      · simp [Consumer.Begun]
      · simp [Consumer.Begun]
  | release =>
      rw [consumerTurn, Option.ite_none_right_eq_some] at h
      obtain ⟨job, -, rfl⟩ := Option.map_eq_some_iff.mp h.2
      simp [Consumer.Begun]

/-- A call that has begun does not go back. -/
theorem begun_step (hCopies : label.Copies) (hStep : pool.step plan label = some pool') {c : Nat}
    (h : ∃ x, pool.consumers[c]? = some x ∧ x.Begun) :
    ∃ x, pool'.consumers[c]? = some x ∧ x.Begun := by
  obtain ⟨x, hx, hBegun⟩ := h
  obtain ⟨x', hx', y, hTurn, hWoken⟩ := consumer_step hStep hx
  have hy : y.Begun := by
    rcases hTurn with rfl | ⟨turn, next, rfl, hTurn, rfl⟩
    · exact hBegun
    · exact consumerTurn_begun hCopies hTurn
  refine ⟨x', hx', ?_⟩
  rcases hWoken with rfl | ⟨slot, rfl⟩
  · exact hy
  · exact hy.wake plan.ring slot (plan.firstJob c)

end Steps

section Progress

variable {plan : RingPlan} {called : Nat → Prop} {pool pool' : Pool} {j : Nat}

/-- The sizes are those with which the pool can run. -/
structure RingPlan.Sound (plan : RingPlan) : Prop where
  counted : plan.jobs.length + plan.workers ≤ 2 ^ 32
  fits : ∀ job ∈ plan.jobs, job.byteSize ≤ plan.chunkSize
  some : 0 < plan.workers

theorem Flowing.step (h : Flowing plan called j pool) (hPlan : plan.Sound) {label : RingLabel}
    (hSmooth : label.Smooth) (hStep : pool.step plan label = some pool') :
    Flowing plan called j pool' := by
  obtain ⟨dispatched, hInv, hLeft⟩ := h.inv
  obtain ⟨later, hExit, hInv'⟩ := hInv.step hPlan.counted hPlan.fits hSmooth.decrypts hStep
  exact ⟨⟨later, hInv', hExit hLeft⟩, (stop_step hSmooth.ne_stop hStep).trans h.going,
    fun c hc => begun_step hSmooth.copies hStep (h.begun c hc),
    fun i hi => consumed_step hStep i (h.before i hi)⟩

theorem Flowing.more (h : Flowing plan called j pool) (hj : j ∈ pool.shared.consumed) :
    Flowing plan called (j + 1) pool :=
  { h with
    before := fun i hi => by
      rcases Nat.lt_succ_iff_lt_or_eq.mp hi with hLess | rfl
      · exact h.before i hLess
      · exact hj }

/-- The job is one of an allocation that has been called. -/
structure Owned (plan : RingPlan) (called : Nat → Prop) (c j : Nat) : Prop where
  called : called c
  low : plan.firstJob c ≤ j
  high : j < plan.firstJob c + plan.nJobs c

/-- The consumer of the first job that is not consumed stands at it. -/
theorem Flowing.owner (h : Flowing plan called j pool) {c : Nat} (hOwned : Owned plan called c j)
    (hj : j ∉ pool.shared.consumed) :
    ∃ x, pool.consumers[c]? = some x ∧ plan.firstJob c + x.k = j ∧
      ((∃ asleep, x.stage = .wait asleep) ∨ x.stage = .copy ∨ x.stage = .release) := by
  obtain ⟨hCalled, hLow, hHigh⟩ := hOwned
  obtain ⟨dispatched, hInv, -⟩ := h.inv
  obtain ⟨x, hx, hIdle, hFailed⟩ := h.begun c hCalled
  have hOk := hInv.consumers c x hx
  have hNotPast : ¬j < plan.firstJob c + x.k := mt (hOk.consumed j hLow hHigh).mpr hj
  have hAt : plan.firstJob c + x.k = j := by
    by_contra hNe
    have hBefore := h.before (plan.firstJob c + x.k) (by omega)
    rw [hOk.consumed _ (Nat.le_add_right _ _) (by omega)] at hBefore
    exact lt_irrefl _ hBefore
  refine ⟨x, hx, hAt, ?_⟩
  have hStage := hOk.stage
  rw [StageOk] at hStage
  cases hCase : x.stage with
  | idle => exact absurd hCase hIdle
  | failed => exact absurd hCase hFailed
  | wait asleep => exact .inl ⟨asleep, rfl⟩
  | copy => exact .inr (.inl rfl)
  | release => exact .inr (.inr rfl)
  | done =>
      rw [hCase] at hStage
      dsimp only at hStage
      omega

/-- The job can be consumed, and all that holds of the pool goes on. -/
def Consumable (plan : RingPlan) (called : Nat → Prop) (j : Nat) (pool : Pool) : Prop :=
  CanReach (Pool.step plan) RingLabel.Smooth pool (Flowing plan called (j + 1))

theorem Flowing.job (h : Flowing plan called j pool) {c : Nat} {x : Consumer}
    (hx : pool.consumers[c]? = some x) (hAt : x.stage = .copy ∨ x.stage = .release) :
    ∃ job, plan.jobs[plan.firstJob c + x.k]? = some job := by
  obtain ⟨dispatched, hInv, -⟩ := h.inv
  have hStage := (hInv.consumers c x hx).stage
  have hMore : x.k < plan.nJobs c := by
    rw [StageOk] at hStage
    rcases hAt with hAt | hAt <;> (rw [hAt] at hStage; exact hStage.more)
  exact ⟨_, List.getElem?_eq_getElem (RingPlan.job_lt hMore)⟩

theorem Flowing.release (h : Flowing plan called j pool) (hPlan : plan.Sound) {c : Nat} {x : Consumer}
    (hx : pool.consumers[c]? = some x) (hAt : plan.firstJob c + x.k = j)
    (hStage : x.stage = .release) : Consumable plan called j pool := by
  obtain ⟨job, hJob⟩ := h.job hx (.inr hStage)
  have hTurn : consumerTurn plan c pool.shared x .release = some _ :=
    (if_pos hStage).trans (Option.map_eq_some_iff.mpr ⟨job, hJob, rfl⟩)
  have hStep := step_consumer hx hTurn
  refine CanReach.step (by trivial) hStep (CanReach.here ((h.step hPlan (by trivial) hStep).more ?_))
  rw [shared_wakeOpt, ← hAt]
  exact List.mem_append_right _ List.mem_cons_self

theorem Flowing.copy (h : Flowing plan called j pool) (hPlan : plan.Sound) {c : Nat} {x : Consumer}
    (hx : pool.consumers[c]? = some x) (hAt : plan.firstJob c + x.k = j)
    (hStage : x.stage = .copy) : Consumable plan called j pool := by
  obtain ⟨job, hJob⟩ := h.job hx (.inl hStage)
  have hTurn : consumerTurn plan c pool.shared x (.copy true) = some _ :=
    (if_pos hStage).trans (Option.map_eq_some_iff.mpr ⟨job, hJob, rfl⟩)
  have hStep := step_consumer hx hTurn
  have hLess := (List.getElem?_eq_some_iff.mp hx).1
  refine CanReach.step (by trivial) hStep ((h.step hPlan (by trivial) hStep).release hPlan
    (x := { x with stage := .release }) ?_ hAt rfl)
  dsimp only
  split
  · rw [if_pos rfl]
    exact List.getElem?_set_self hLess
  · exact List.getElem?_set_self hLess

/-- The slot is ready: whoever owns the job takes it. -/
theorem Flowing.ready (h : Flowing plan called j pool) (hPlan : plan.Sound) {c : Nat}
    (hOwned : Owned plan called c j) (hj : j ∉ pool.shared.consumed)
    (hReady : (slotOf plan pool.shared j).state = .ready)
    (hSeq : (slotOf plan pool.shared j).nextSeq = j) : Consumable plan called j pool := by
  obtain ⟨x, hx, hAt, ⟨asleep, hWait⟩ | hCopy | hRelease⟩ := h.owner hOwned hj
  · obtain ⟨dispatched, hInv, -⟩ := h.inv
    have hStage := (hInv.consumers c x hx).stage
    rw [StageOk, hWait] at hStage
    cases asleep with
    | true =>
        obtain ⟨-, hStill⟩ := hStage rfl
        rw [hAt] at hStill
        exact absurd ⟨hReady, hSeq⟩ (hStill (Option.some_ne_none _))
    | false =>
        have hMore : x.k < plan.nJobs c := by
          have hHigh := hOwned.high
          omega
        have hMine : (pool.shared.slots ((plan.firstJob c + x.k) % plan.ring)).state = .ready ∧
            (pool.shared.slots ((plan.firstJob c + x.k) % plan.ring)).nextSeq =
              plan.firstJob c + x.k := by
          rw [hAt]
          exact ⟨hReady, hSeq⟩
        have hTurn : consumerTurn plan c pool.shared x .check = some _ :=
          (if_pos hWait).trans ((if_pos hMore).trans (if_pos hMine))
        have hStep := step_consumer hx hTurn
        exact CanReach.step (by trivial) hStep ((h.step hPlan (by trivial) hStep).copy hPlan
          (List.getElem?_set_self (List.getElem?_eq_some_iff.mp hx).1) hAt rfl)
  · exact h.copy hPlan hx hAt hCopy
  · exact h.release hPlan hx hAt hRelease

theorem Inv.nextSeq_of_turn {dispatched : Nat} (h : Inv plan dispatched none pool)
    (hTurn : turnOf plan pool.shared j = j) (hj : j < plan.jobs.length) :
    (slotOf plan pool.shared j).nextSeq = j := by
  have hSeq : (slotOf plan pool.shared j).nextSeq = turnOf plan pool.shared j % 2 ^ 32 :=
    (h.slots _ (plan.slot_lt j)).nextSeq
  rwa [hTurn, Nat.mod_eq_of_lt (hj.trans plan.jobs_lt)] at hSeq

/-- A worker in its slot has not lost the job to a consumer. -/
theorem Inv.pending_of_turn {dispatched : Nat} (h : Inv plan dispatched none pool)
    (hTurn : turnOf plan pool.shared j = j) : j ∉ pool.shared.consumed := by
  rw [h.jobs.inTurn j]
  exact not_lt.mpr hTurn.le

theorem Flowing.publish (h : Flowing plan called j pool) (hPlan : plan.Sound) {c t : Nat}
    (hOwned : Owned plan called c j) (ht : pool.workers[t]? = some (.publish j)) :
    Consumable plan called j pool := by
  obtain ⟨dispatched, hInv, -⟩ := h.inv
  obtain ⟨-, hLess, -, hTurn, -⟩ := hInv.workers t _ ht
  have hStep := step_worker ht (rfl : workerTurn plan pool.shared (.publish j) .publish = some _)
  refine CanReach.step (by trivial) hStep ((h.step hPlan (by trivial) hStep).ready hPlan hOwned
    (hInv.pending_of_turn hTurn) ?_ ?_)
  · rw [shared_wakeOpt]
    exact congrArg Slot.state (slotOf_setSlot_self rfl _)
  · rw [shared_wakeOpt]
    exact (congrArg Slot.nextSeq (slotOf_setSlot_self rfl _)).trans (hInv.nextSeq_of_turn hTurn hLess)

theorem Flowing.decrypt (h : Flowing plan called j pool) (hPlan : plan.Sound) {c t : Nat}
    (hOwned : Owned plan called c j) (ht : pool.workers[t]? = some (.decrypt j)) :
    Consumable plan called j pool := by
  obtain ⟨dispatched, hInv, -⟩ := h.inv
  obtain ⟨-, hLess, -⟩ := hInv.workers t _ ht
  have hTurn : workerTurn plan pool.shared (.decrypt j) (.decrypt none) = some _ :=
    Option.map_eq_some_iff.mpr ⟨_, List.getElem?_eq_getElem hLess, rfl⟩
  have hStep := step_worker ht hTurn
  have hSmooth : (RingLabel.worker t (.decrypt none)).Smooth := rfl
  exact CanReach.step hSmooth hStep ((h.step hPlan hSmooth hStep).publish hPlan hOwned
    (List.getElem?_set_self (List.getElem?_eq_some_iff.mp ht).1))

/-- A worker that holds the job gets its slot, or the slot has been filled already. -/
theorem Flowing.wait (h : Flowing plan called j pool) (hPlan : plan.Sound) {c t : Nat}
    (hOwned : Owned plan called c j) {asleep : Bool}
    (ht : pool.workers[t]? = some (.wait j asleep)) : Consumable plan called j pool := by
  obtain ⟨dispatched, hInv, -⟩ := h.inv
  obtain ⟨-, hLess, hPending, -, hStill⟩ := hInv.workers t _ ht
  have hTurn : turnOf plan pool.shared j = j :=
    hInv.jobs.inTurn.turn_first plan.ring_pos h.before hPending
  have hSeq := hInv.nextSeq_of_turn hTurn hLess
  cases hState : (slotOf plan pool.shared j).state with
  | ready => exact h.ready hPlan hOwned hPending hState hSeq
  | assigned =>
      obtain ⟨w, hw, hAt⟩ := hInv.assigned _ (plan.slot_lt j) hState
      change w = .decrypt (turnOf plan pool.shared j) ∨ w = .publish (turnOf plan pool.shared j) at hAt
      rw [hTurn] at hAt
      obtain ⟨t', ht'⟩ := List.getElem?_of_mem hw
      rcases hAt with rfl | rfl
      · exact h.decrypt hPlan hOwned ht'
      · exact h.publish hPlan hOwned ht'
  | free =>
      cases asleep with
      | true => exact absurd ⟨hState, hSeq⟩ (hStill rfl nofun)
      | false =>
          have hGoing : ¬pool.shared.stop = true := by
            rw [h.going]
            exact Bool.false_ne_true
          have hTake : workerTurn plan pool.shared (.wait j false) .acquire = some _ :=
            (if_neg hGoing).trans (if_pos ⟨hState, hSeq⟩)
          have hStep := step_worker ht hTake
          exact CanReach.step (by trivial) hStep ((h.step hPlan (by trivial) hStep).decrypt hPlan
            hOwned (List.getElem?_set_self (List.getElem?_eq_some_iff.mp ht).1))

/-- A worker that holds a job holds one that is not consumed. -/
theorem Inv.held_pending {dispatched : Nat} (h : Inv plan dispatched none pool) {t i : Nat}
    {w : Worker} (ht : pool.workers[t]? = some w) (hHeld : w.job = some i) :
    i ∉ pool.shared.consumed := by
  have hOk := h.workers t w ht
  cases w with
  | fetch | exited => cases hHeld
  | wait k asleep =>
      cases hHeld
      exact hOk.2.2.1
  | decrypt k =>
      cases hHeld
      exact h.pending_of_turn hOk.2.2.2.1
  | publish k =>
      cases hHeld
      exact h.pending_of_turn hOk.2.2.2.1

/-- No worker has taken the job: then none holds one at all, and the next to come takes
it. -/
theorem Flowing.fetch (h : Flowing plan called j pool) (hPlan : plan.Sound) {c dispatched : Nat}
    (hOwned : Owned plan called c j) (hInv : Inv plan dispatched none pool)
    (hLeft : .exited ∈ pool.workers → Left plan dispatched pool.shared) (hTaken : dispatched ≤ j)
    (hLess : j < plan.jobs.length) : Consumable plan called j pool := by
  have hNext : dispatched = j := by
    refine le_antisymm hTaken (not_lt.mp fun hBefore => ?_)
    have hDone := hInv.jobs.consumed _ (h.before dispatched hBefore)
    exact lt_irrefl _ (hInv.jobs.decrypted _ hDone).1
  have hSome : 0 < pool.workers.length := by
    rw [hInv.workerCount]
    exact hPlan.some
  have ht := List.getElem?_eq_getElem hSome
  have hIdle : ∀ i, (pool.workers[0]).job ≠ some i := by
    intro i hHeld
    have hOld := ((hInv.workers 0 _ ht).taken hHeld).1
    exact hInv.held_pending ht hHeld (h.before i (by omega))
  cases hw : pool.workers[0] with
  | wait i asleep | decrypt i | publish i => exact absurd (congrArg Worker.job hw) (hIdle i)
  | exited =>
      rcases hLeft (hw ▸ List.getElem_mem hSome) with hStop | hEnd
      · rw [h.going] at hStop
        cases hStop
      · omega
  | fetch =>
      rw [hw] at ht
      have hGoing : ¬pool.shared.stop = true := by
        rw [h.going]
        exact Bool.false_ne_true
      have hCounter : pool.shared.nextDispatch = j := by
        rw [hInv.counter, hNext]
        exact Nat.mod_eq_of_lt (hLess.trans plan.jobs_lt)
      have hMore : ¬plan.jobs.length ≤ pool.shared.nextDispatch := by
        rw [hCounter]
        exact not_le.mpr hLess
      have hTurn : workerTurn plan pool.shared .fetch .fetch = some _ := if_neg hGoing
      have hStep := step_worker ht hTurn
      have hHeld : (pool.workers.set 0 (if plan.jobs.length ≤ pool.shared.nextDispatch then .exited
          else .wait pool.shared.nextDispatch false))[0]? = some (.wait j false) := by
        rw [List.getElem?_set_self hSome, if_neg hMore, hCounter]
      exact CanReach.step (by trivial) hStep
        ((h.step hPlan (by trivial) hStep).wait hPlan hOwned hHeld)

/-- The first job that is not consumed can be, when its allocation has been called. -/
theorem Flowing.consume (h : Flowing plan called j pool) (hPlan : plan.Sound) {c : Nat}
    (hOwned : Owned plan called c j) : Consumable plan called j pool := by
  by_cases hj : j ∈ pool.shared.consumed
  · exact CanReach.here (h.more hj)
  obtain ⟨dispatched, hInv, hLeft⟩ := h.inv
  have hHigh := hOwned.high
  have hLess : j < plan.jobs.length := by
    obtain ⟨k, rfl⟩ := Nat.exists_eq_add_of_le hOwned.low
    exact RingPlan.job_lt (by omega)
  by_cases hTaken : j < dispatched
  · rcases hInv.pending h.going j hLess hTaken hj with ⟨w, hw, hHeld⟩ | ⟨hReady, hTurn⟩
    · obtain ⟨t, ht⟩ := List.getElem?_of_mem hw
      cases w with
      | fetch | exited => cases hHeld
      | wait i asleep =>
          cases hHeld
          exact h.wait hPlan hOwned ht
      | decrypt i =>
          cases hHeld
          exact h.decrypt hPlan hOwned ht
      | publish i =>
          cases hHeld
          exact h.publish hPlan hOwned ht
    · exact h.ready hPlan hOwned hj hReady (hInv.nextSeq_of_turn hTurn hLess)
  · exact h.fetch hPlan hOwned hInv hLeft (not_lt.mp hTaken) hLess

theorem Flowing.consumeAll (h : Flowing plan called 0 pool) (hPlan : plan.Sound) (n : Nat)
    (hOwned : ∀ j < n, ∃ c, Owned plan called c j) :
    CanReach (Pool.step plan) RingLabel.Smooth pool (Flowing plan called n) := by
  induction n with
  | zero => exact CanReach.here h
  | succ n ih =>
      obtain ⟨c, hc⟩ := hOwned n (Nat.lt_succ_self n)
      exact (ih fun j hj => hOwned j (Nat.lt_succ_of_lt hj)).bind fun _ hNext =>
        hNext.consume hPlan hc

/-- A call leaves its loop when its jobs are consumed. -/
theorem Flowing.leave {c : Nat} (h : Flowing plan called (plan.firstJob c + plan.nJobs c) pool)
    (hCalled : called c) : CanReach (Pool.step plan) RingLabel.Smooth pool fun last =>
      ∃ x, last.consumers[c]? = some x ∧ x.stage = .done := by
  obtain ⟨dispatched, hInv, -⟩ := h.inv
  obtain ⟨x, hx, hIdle, hFailed⟩ := h.begun c hCalled
  have hOk := hInv.consumers c x hx
  have hEnd : ¬x.k < plan.nJobs c := by
    intro hMore
    have hNext := h.before (plan.firstJob c + x.k) (by omega)
    rw [hOk.consumed _ (Nat.le_add_right _ _) (by omega)] at hNext
    exact lt_irrefl _ hNext
  have hStage := hOk.stage
  rw [StageOk] at hStage
  cases hCase : x.stage with
  | idle => exact absurd hCase hIdle
  | failed => exact absurd hCase hFailed
  | done => exact CanReach.here ⟨x, hx, hCase⟩
  | copy =>
      rw [hCase] at hStage
      exact absurd hStage.more hEnd
  | release =>
      rw [hCase] at hStage
      exact absurd hStage.more hEnd
  | wait asleep =>
      rw [hCase] at hStage
      cases asleep with
      | true => exact absurd (hStage rfl).1 hEnd
      | false =>
          have hTurn : consumerTurn plan c pool.shared x .check = some _ :=
            (if_pos hCase).trans (if_neg hEnd)
          exact CanReach.step (by trivial) (step_consumer hx hTurn)
            (CanReach.here ⟨_, List.getElem?_set_self (List.getElem?_eq_some_iff.mp hx).1, rfl⟩)

end Progress

end FlashCkpt.Restore
