import FlashCkpt.Restore.RingRuns
import Mathlib.Algebra.Order.BigOperators.Group.List

/-! Who may move in the restore ring does not depend on the bytes in the slots, nor on
whether a decryption failed: a worker whose call fails publishes its slot like the
others. A run is therefore matched by one in which no decryption fails and the slots
are as large as the jobs. -/
namespace FlashCkpt.Restore

open TicketRing Transition

/-- The same pool with slots of another size. -/
def RingPlan.withChunk (plan : RingPlan) (size : Nat) : RingPlan :=
  { plan with chunkSize := size }

/-- Slots in which every job fits. -/
def RingPlan.roomy (plan : RingPlan) : RingPlan :=
  plan.withChunk (plan.jobs.map ChunkJob.byteSize).sum

theorem RingPlan.roomy_fits (plan : RingPlan) :
    ∀ job ∈ plan.roomy.jobs, job.byteSize ≤ plan.roomy.chunkSize := fun _ hJob =>
  List.single_le_sum (fun _ _ => Nat.zero_le _) _ (List.mem_map_of_mem hJob)

/-- Slots that differ in their bytes only. -/
structure Slot.Alike (a b : Slot) : Prop where
  state : a.state = b.state
  nextSeq : a.nextSeq = b.nextSeq

structure RingState.Alike (s s' : RingState) : Prop where
  slots : ∀ i, (s.slots i).Alike (s'.slots i)
  nextDispatch : s.nextDispatch = s'.nextDispatch
  stop : s.stop = s'.stop
  consumed : s.consumed = s'.consumed

structure Pool.Alike (pool pool' : Pool) : Prop where
  shared : pool.shared.Alike pool'.shared
  workers : pool.workers = pool'.workers
  consumers : pool.consumers = pool'.consumers

/-- The turn with its decryption succeeding. -/
def WorkerTurn.succeed : WorkerTurn → WorkerTurn
  | .decrypt _ => .decrypt none
  | turn => turn

def RingLabel.succeed : RingLabel → RingLabel
  | .worker t turn => .worker t turn.succeed
  | label => label

theorem RingLabel.decrypts_succeed (label : RingLabel) : label.succeed.decrypts := by
  cases label with
  | worker t turn => cases turn <;> trivial
  | consumer | stop | broadcast => trivial

theorem RingLabel.succeed_eq {label : RingLabel} (h : label.decrypts) : label.succeed = label := by
  cases label with
  | worker t turn =>
      cases turn with
      | decrypt failure =>
          cases h
          rfl
      | fetch | acquire | publish | spurious => rfl
  | consumer | stop | broadcast => rfl

section Steps

variable {plan : RingPlan} {size size' : Nat} {s s' : RingState} {pool pool' : Pool}

theorem RingState.Alike.symm (h : s.Alike s') : s'.Alike s :=
  ⟨fun i => ⟨(h.slots i).state.symm, (h.slots i).nextSeq.symm⟩, h.nextDispatch.symm, h.stop.symm,
    h.consumed.symm⟩

theorem Pool.Alike.symm (h : pool.Alike pool') : pool'.Alike pool :=
  ⟨h.shared.symm, h.workers.symm, h.consumers.symm⟩

theorem RingState.Alike.setSlot (h : s.Alike s') (i : Nat) {slot slot' : Slot}
    (hSlot : slot.Alike slot') (k : Nat) :
    ((s.setSlot i slot).slots k).Alike ((s'.setSlot i slot').slots k) := by
  by_cases hSame : k = i
  · subst hSame
    rw [slots_setSlot_self, slots_setSlot_self]
    exact hSlot
  · rw [slots_setSlot_ne hSame, slots_setSlot_ne hSame]
    exact h.slots k

/-- Turns that lead to the same place. -/
structure Turn.Alike {Thread : Type} (a b : Turn Thread) : Prop where
  thread : a.thread = b.thread
  shared : a.shared.Alike b.shared
  broadcast : a.broadcast = b.broadcast

theorem workerTurn_alike (h : s.Alike s') {w : Worker} {turn turn' : WorkerTurn}
    (hSame : turn.succeed = turn'.succeed) {next : Turn Worker}
    (hTurn : workerTurn (plan.withChunk size) s w turn = some next) :
    ∃ next', workerTurn (plan.withChunk size') s' w turn' = some next' ∧ next.Alike next' := by
  cases w with
  | fetch =>
      cases turn <;> try cases hTurn
      cases turn' <;> try cases hSame
      rw [workerTurn, h.stop, h.nextDispatch] at hTurn
      rw [workerTurn]
      by_cases hStop : s'.stop = true
      · rw [if_pos hStop] at hTurn ⊢
        cases hTurn
        exact ⟨_, rfl, rfl, h, rfl⟩
      · rw [if_neg hStop] at hTurn ⊢
        cases hTurn
        exact ⟨_, rfl, rfl, ⟨h.slots, rfl, rfl, h.consumed⟩, rfl⟩
  | wait j asleep =>
      cases asleep with
      | true =>
          cases turn <;> try cases hTurn
          cases turn' <;> try cases hSame
          exact ⟨_, rfl, rfl, h, rfl⟩
      | false =>
          cases turn <;> try cases hTurn
          cases turn' <;> try cases hSame
          have hSlot := h.slots (j % plan.ring)
          rw [workerTurn] at hTurn ⊢
          change (if s.stop = true then _ else if (s.slots (j % plan.ring)).state = .free ∧
            (s.slots (j % plan.ring)).nextSeq = j then _ else _) = _ at hTurn
          rw [h.stop, hSlot.state, hSlot.nextSeq] at hTurn
          by_cases hStop : s'.stop = true
          · rw [if_pos hStop] at hTurn ⊢
            cases hTurn
            exact ⟨_, rfl, rfl, h, rfl⟩
          · rw [if_neg hStop] at hTurn ⊢
            by_cases hMine : (s'.slots (j % plan.ring)).state = .free ∧
                (s'.slots (j % plan.ring)).nextSeq = j
            · rw [if_pos hMine] at hTurn
              cases hTurn
              exact ⟨_, if_pos hMine, rfl,
                ⟨h.setSlot _ ⟨rfl, hSlot.nextSeq⟩, h.nextDispatch, h.stop, h.consumed⟩, rfl⟩
            · rw [if_neg hMine] at hTurn
              cases hTurn
              exact ⟨_, if_neg hMine, rfl, h, rfl⟩
  | decrypt j =>
      cases turn <;> try cases hTurn
      cases turn' <;> try cases hSame
      obtain ⟨job, hJob, rfl⟩ := Option.map_eq_some_iff.mp hTurn
      refine ⟨_, Option.map_eq_some_iff.mpr ⟨job, hJob, rfl⟩, rfl, ?_, rfl⟩
      have hSlot := h.slots (j % plan.ring)
      exact ⟨h.setSlot _ ⟨hSlot.state, hSlot.nextSeq⟩, h.nextDispatch, h.stop, h.consumed⟩
  | publish j =>
      cases turn <;> try cases hTurn
      cases turn' <;> try cases hSame
      exact ⟨_, rfl, rfl,
        ⟨h.setSlot _ ⟨rfl, (h.slots _).nextSeq⟩, h.nextDispatch, h.stop, h.consumed⟩, rfl⟩
  | exited => cases turn <;> cases hTurn

theorem consumerTurn_alike (h : s.Alike s') {c : Nat} {x : Consumer} {turn : ConsumerTurn}
    {next : Turn Consumer} (hTurn : consumerTurn (plan.withChunk size) c s x turn = some next) :
    ∃ next', consumerTurn (plan.withChunk size') c s' x turn = some next' ∧ next.Alike next' := by
  have hSlot := h.slots ((plan.firstJob c + x.k) % plan.ring)
  cases turn with
  | enter | spurious =>
      rw [consumerTurn, Option.ite_none_right_eq_some] at hTurn
      obtain ⟨hStage, hNext⟩ := hTurn
      cases hNext
      exact ⟨_, if_pos hStage, rfl, h, rfl⟩
  | check =>
      rw [consumerTurn, Option.ite_none_right_eq_some] at hTurn
      obtain ⟨hStage, hTurn⟩ := hTurn
      change (if x.k < plan.nJobs c then (if (s.slots ((plan.firstJob c + x.k) % plan.ring)).state =
        .ready ∧ (s.slots ((plan.firstJob c + x.k) % plan.ring)).nextSeq = plan.firstJob c + x.k
          then _ else _) else _) = _ at hTurn
      rw [hSlot.state, hSlot.nextSeq] at hTurn
      rw [consumerTurn, if_pos hStage]
      by_cases hMore : x.k < plan.nJobs c
      · rw [if_pos hMore] at hTurn
        by_cases hReady : (s'.slots ((plan.firstJob c + x.k) % plan.ring)).state = .ready ∧
            (s'.slots ((plan.firstJob c + x.k) % plan.ring)).nextSeq = plan.firstJob c + x.k
        · rw [if_pos hReady] at hTurn
          cases hTurn
          exact ⟨_, (if_pos hMore).trans (if_pos hReady), rfl, h, rfl⟩
        · rw [if_neg hReady] at hTurn
          cases hTurn
          exact ⟨_, (if_pos hMore).trans (if_neg hReady), rfl, h, rfl⟩
      · rw [if_neg hMore] at hTurn
        cases hTurn
        exact ⟨_, if_neg hMore, rfl, h, rfl⟩
  | copy ok =>
      rw [consumerTurn, Option.ite_none_right_eq_some] at hTurn
      obtain ⟨hStage, hTurn⟩ := hTurn
      obtain ⟨job, hJob, hNext⟩ := Option.map_eq_some_iff.mp hTurn
      dsimp only at hNext
      by_cases hSome : 0 < plan.chunkCopy c x.logicalOff job
      · rw [if_pos (show 0 < (plan.withChunk size).chunkCopy c x.logicalOff job from hSome)] at hNext
        cases ok with
        | true =>
            cases hNext
            exact ⟨_, (if_pos hStage).trans
              (Option.map_eq_some_iff.mpr ⟨job, hJob, (if_pos hSome).trans (if_pos rfl)⟩), rfl,
              ⟨h.slots, h.nextDispatch, h.stop, h.consumed⟩, rfl⟩
        | false =>
            cases hNext
            exact ⟨_, (if_pos hStage).trans
              (Option.map_eq_some_iff.mpr ⟨job, hJob, (if_pos hSome).trans (if_neg Bool.false_ne_true)⟩), rfl, h, rfl⟩
      · rw [if_neg (show ¬0 < (plan.withChunk size).chunkCopy c x.logicalOff job from hSome)] at hNext
        cases hNext
        exact ⟨_, (if_pos hStage).trans
          (Option.map_eq_some_iff.mpr ⟨job, hJob, if_neg hSome⟩), rfl, h, rfl⟩
  | release =>
      rw [consumerTurn, Option.ite_none_right_eq_some] at hTurn
      obtain ⟨hStage, hTurn⟩ := hTurn
      obtain ⟨job, hJob, rfl⟩ := Option.map_eq_some_iff.mp hTurn
      refine ⟨_, (if_pos hStage).trans (Option.map_eq_some_iff.mpr ⟨job, hJob, rfl⟩), rfl, ?_, rfl⟩
      exact ⟨h.setSlot _ ⟨rfl, rfl⟩, h.nextDispatch, h.stop, congrArg (· ++ _) h.consumed⟩

theorem Pool.Alike.wakeOpt (h : pool.Alike pool') (slot : Option Nat) :
    (pool.wakeOpt (plan.withChunk size) slot).Alike
      (pool'.wakeOpt (plan.withChunk size') slot) := by
  cases slot with
  | none => exact h
  | some slot =>
      exact ⟨h.shared, congrArg (List.map _) h.workers, congrArg (List.mapIdx _) h.consumers⟩

/-- A step is matched by one that goes the same way with other bytes. -/
theorem Pool.Alike.step (h : pool.Alike pool') {label label' : RingLabel}
    (hSame : label.succeed = label'.succeed) {next : Pool}
    (hStep : pool.step (plan.withChunk size) label = some next) :
    ∃ next', pool'.step (plan.withChunk size') label' = some next' ∧ next.Alike next' := by
  cases label with
  | worker t turn =>
      cases label' <;> try cases hSame
      rename_i t' turn'
      obtain ⟨rfl, hTurns⟩ := RingLabel.worker.inj hSame
      obtain ⟨w, hw, hNext⟩ := Option.bind_eq_some_iff.mp hStep
      obtain ⟨after, hTurn, rfl⟩ := Option.map_eq_some_iff.mp hNext
      obtain ⟨after', hTurn', hAlike⟩ := workerTurn_alike h.shared hTurns hTurn
      rw [h.workers] at hw
      refine ⟨_, Option.bind_eq_some_iff.mpr ⟨w, hw, Option.map_eq_some_iff.mpr ⟨_, hTurn', rfl⟩⟩, ?_⟩
      rw [hAlike.broadcast]
      apply Pool.Alike.wakeOpt
      refine ⟨hAlike.shared, ?_, h.consumers⟩
      dsimp only
      rw [h.workers, hAlike.thread]
  | consumer c turn =>
      cases label' <;> try cases hSame
      obtain ⟨x, hx, hNext⟩ := Option.bind_eq_some_iff.mp hStep
      obtain ⟨after, hTurn, rfl⟩ := Option.map_eq_some_iff.mp hNext
      obtain ⟨after', hTurn', hAlike⟩ := consumerTurn_alike h.shared hTurn
      rw [h.consumers] at hx
      refine ⟨_, Option.bind_eq_some_iff.mpr ⟨x, hx, Option.map_eq_some_iff.mpr ⟨_, hTurn', rfl⟩⟩, ?_⟩
      rw [hAlike.broadcast]
      apply Pool.Alike.wakeOpt
      refine ⟨hAlike.shared, h.workers, ?_⟩
      dsimp only
      rw [h.consumers, hAlike.thread]
  | stop =>
      cases label' <;> try cases hSame
      cases hStep
      exact ⟨_, rfl, ⟨h.shared.slots, h.shared.nextDispatch, rfl, h.shared.consumed⟩, h.workers,
        h.consumers⟩
  | broadcast slot =>
      cases label' <;> try cases hSame
      rw [Pool.step, Option.ite_none_right_eq_some] at hStep
      obtain ⟨hStop, hNext⟩ := hStep
      cases hNext
      rw [h.shared.stop] at hStop
      exact ⟨_, if_pos hStop, h.wakeOpt (some slot)⟩

theorem Pool.alike_start (plan : RingPlan) :
    (Pool.start plan).Alike (Pool.start plan.roomy) :=
  ⟨⟨fun _ => ⟨rfl, rfl⟩, rfl, rfl, rfl⟩, rfl, rfl⟩

end Steps

end FlashCkpt.Restore
