import FlashCkpt.Restore.RingSteps
import Mathlib.Data.List.Nodup
import Mathlib.Data.List.Perm.Basic

/-! Whole runs of the restore ring, with any number of workers and with consumers in any
order. What is delivered and when the ring moves on rest on every decryption having
succeeded: a worker whose call failed marks its slot ready all the same. -/
namespace FlashCkpt.Restore

open ByteImage TicketRing Transition

section Definitions

variable (plan : RingPlan)

/-- The bytes are the plaintext of the job, as far as the new allocation reaches. -/
def DeviceCopy.Exact (copy : DeviceCopy) : Prop :=
  ∃ k job, k < plan.nJobs copy.alloc ∧ copy.job = plan.firstJob copy.alloc + k ∧
    plan.jobs[copy.job]? = some job ∧ copy.dst = job.byteOff ∧
    copy.bytes = (plan.plain job).take
      (plan.chunkCopy copy.alloc (plan.logicalOff copy.alloc k) job)

/-- A job of which anything is to be copied has been. -/
def Copied (s : RingState) (alloc k : Nat) : Prop :=
  ∀ job, plan.jobs[plan.firstJob alloc + k]? = some job →
    0 < plan.chunkCopy alloc (plan.logicalOff alloc k) job →
      ∃ copy ∈ s.copied, copy.job = plan.firstJob alloc + k

/-- The jobs copied are those consumed, and those about to be. -/
structure CopiesOk (pool : Pool) : Prop where
  exact : ∀ copy ∈ pool.shared.copied, copy.Exact plan
  once : (pool.shared.copied.map DeviceCopy.job).Nodup
  origin : ∀ copy ∈ pool.shared.copied, copy.job ∈ pool.shared.consumed ∨
    ∃ (c : Nat) (x : Consumer), pool.consumers[c]? = some x ∧ x.stage = .release ∧
      copy.job = plan.firstJob c + x.k
  consumed : ∀ alloc k, k < plan.nJobs alloc → plan.firstJob alloc + k ∈ pool.shared.consumed →
    Copied plan pool.shared alloc k
  leaving : ∀ (c : Nat) (x : Consumer), pool.consumers[c]? = some x → x.stage = .release →
    Copied plan pool.shared c x.k

def Worker.asleep : Worker → Bool
  | .wait _ asleep => asleep
  | _ => false

/-- What the restore ring is for. -/
structure Delivers (pool : Pool) : Prop where
  exact : ∀ copy ∈ pool.shared.copied, copy.Exact plan
  copiedOnce : (pool.shared.copied.map DeviceCopy.job).Nodup
  decryptedOnce : pool.shared.decrypted.Nodup
  consumedOnce : pool.shared.consumed.Nodup
  finished : ∀ (c : Nat) (x : Consumer), pool.consumers[c]? = some x → x.stage = .done →
    ∀ k < plan.nJobs c, Copied plan pool.shared c k
  complete : (∀ x ∈ pool.consumers, x.stage = .done) →
    pool.shared.decrypted.Perm (List.range plan.jobs.length) ∧
      pool.shared.consumed.Perm (List.range plan.jobs.length)
  overwritten : ∀ j, j ∈ pool.shared.decrypted ∨ .decrypt j ∈ pool.workers → plan.ring ≤ j →
    j - plan.ring ∈ pool.shared.consumed
  inside : pool.shared.overran = false
  awake : pool.shared.stop = false → (∀ w ∈ pool.workers, w.asleep = true) →
    ∀ (c : Nat) (x : Consumer), pool.consumers[c]? = some x → x.stage = .wait true →
      ¬∀ j < plan.firstJob c + x.k, j ∈ pool.shared.consumed

/-- The decryption succeeds. -/
def RingLabel.decrypts : RingLabel → Prop
  | .worker _ (.decrypt failure) => failure = none
  | _ => True

end Definitions

variable {plan : RingPlan} {dispatched : Nat} {pool pool' : Pool}

section Runs

theorem inv_start (plan : RingPlan) : Inv plan 0 none (Pool.start plan) where
  counter := rfl
  bound := Nat.zero_le _
  workerCount := List.length_replicate
  consumerCount := List.length_replicate
  slots := by
    intro i hi
    have hRing := plan.ring_lt
    have hSmall : turn plan.ring [] i < 2 ^ 32 := by
      rw [turn_nil]
      omega
    exact ⟨(Nat.mod_eq_of_lt hSmall).symm, List.length_replicate, nofun⟩
  jobs := ⟨inTurn_nil, List.nodup_nil, List.nodup_nil, nofun, nofun⟩
  workers := by
    intro t w hw
    rw [(List.mem_replicate.mp (List.mem_of_getElem? hw)).2]
    trivial
  unique := by
    intro t t' w w' j hw _ hJob _
    rw [(List.mem_replicate.mp (List.mem_of_getElem? hw)).2] at hJob
    cases hJob
  consumers := by
    intro c x hx
    rw [(List.mem_replicate.mp (List.mem_of_getElem? hx)).2]
    refine ⟨Nat.zero_le _, rfl, fun j hLow _ => ?_, trivial⟩
    exact iff_of_false (List.not_mem_nil) (not_lt.mpr hLow)
  assigned := nofun
  pending := fun _ j _ hTaken => absurd hTaken (Nat.not_lt_zero j)
  inside := rfl

theorem Inv.wakeOpt {slot : Option Nat} (h : Inv plan dispatched slot pool) :
    Inv plan dispatched none (pool.wakeOpt plan slot) := by
  cases slot with
  | none => exact h
  | some slot => exact h.wake

theorem shared_wakeOpt {slot : Option Nat} : (pool.wakeOpt plan slot).shared = pool.shared := by
  cases slot <;> rfl

/-- A broadcast does not end a thread. -/
theorem exited_wakeOpt {slot : Option Nat} :
    .exited ∈ (pool.wakeOpt plan slot).workers ↔ .exited ∈ pool.workers := by
  cases slot with
  | none => rfl
  | some slot =>
      simp only [Pool.wakeOpt, Pool.wake, List.mem_map]
      constructor
      · rintro ⟨w, hw, hExited⟩
        exact Worker.wake_exited.mp hExited ▸ hw
      · exact fun hw => ⟨_, hw, rfl⟩

/-- No worker shuts the pool down, copies or consumes. -/
theorem workerTurn_frame {s : RingState} {w : Worker} {turn : WorkerTurn} {next : Turn Worker}
    (h : workerTurn plan s w turn = some next) :
    next.shared.stop = s.stop ∧ next.shared.copied = s.copied ∧
      next.shared.consumed = s.consumed := by
  unfold workerTurn at h
  split at h
  · split at h <;> (cases h; exact ⟨rfl, rfl, rfl⟩)
  · dsimp only at h
    split at h
    · cases h
      exact ⟨rfl, rfl, rfl⟩
    · split at h <;> (cases h; exact ⟨rfl, rfl, rfl⟩)
  · obtain ⟨job, -, rfl⟩ := Option.map_eq_some_iff.mp h
    exact ⟨rfl, rfl, rfl⟩
  · cases h
    exact ⟨rfl, rfl, rfl⟩
  · cases h
    exact ⟨rfl, rfl, rfl⟩
  · cases h

/-- No consumer shuts the pool down, and it consumes its own next job only. -/
theorem consumerTurn_frame {c : Nat} {s : RingState} {x : Consumer} {turn : ConsumerTurn}
    {next : Turn Consumer} (h : consumerTurn plan c s x turn = some next) :
    next.shared.stop = s.stop ∧ (next.shared.consumed = s.consumed ∨
      next.shared.consumed = s.consumed ++ [plan.firstJob c + x.k]) := by
  cases turn with
  | enter | spurious =>
      rw [consumerTurn, Option.ite_none_right_eq_some] at h
      cases h.2
      exact ⟨rfl, .inl rfl⟩
  | check =>
      rw [consumerTurn, Option.ite_none_right_eq_some] at h
      obtain ⟨-, h⟩ := h
      dsimp only at h
      split at h
      · split at h <;> (cases h; exact ⟨rfl, .inl rfl⟩)
      · cases h
        exact ⟨rfl, .inl rfl⟩
  | copy ok =>
      rw [consumerTurn, Option.ite_none_right_eq_some] at h
      obtain ⟨job, -, rfl⟩ := Option.map_eq_some_iff.mp h.2
      dsimp only
      split
      · cases ok <;> exact ⟨rfl, .inl rfl⟩
      · exact ⟨rfl, .inl rfl⟩
  | release =>
      rw [consumerTurn, Option.ite_none_right_eq_some] at h
      obtain ⟨job, -, rfl⟩ := Option.map_eq_some_iff.mp h.2
      exact ⟨rfl, .inr rfl⟩

/-- A worker has left: the pool is shut down, or the jobs are all taken. -/
def Left (plan : RingPlan) (dispatched : Nat) (s : RingState) : Prop :=
  s.stop = true ∨ plan.jobs.length ≤ dispatched

/-- Every turn of a worker whose decryption does not fail. -/
theorem Inv.workerTurn (h : Inv plan dispatched none pool)
    (hPlan : plan.jobs.length + plan.workers ≤ 2 ^ 32)
    (hFits : ∀ job ∈ plan.jobs, job.byteSize ≤ plan.chunkSize) {t : Nat} {w : Worker}
    (ht : pool.workers[t]? = some w) {turn : WorkerTurn} {next : Turn Worker}
    (hDecrypts : (RingLabel.worker t turn).decrypts)
    (hTurn : Restore.workerTurn plan pool.shared w turn = some next) :
    ∃ dispatched' ≥ dispatched, (next.thread = .exited → Left plan dispatched' next.shared) ∧
      Inv plan dispatched' next.broadcast
        { pool with shared := next.shared, workers := pool.workers.set t next.thread } := by
  have hElsewhere : ∀ {v : Worker}, v.job = none ∨ (∃ j b, v = .wait j b) → ∀ j, ¬v.At j := by
    rintro v hv j (rfl | rfl) <;> rcases hv with hv | ⟨_, _, hv⟩ <;> cases hv
  cases w with
  | fetch =>
      cases turn <;> try cases hTurn
      by_cases hStop : pool.shared.stop = true
      · rw [Restore.workerTurn, if_pos hStop] at hTurn
        cases hTurn
        exact ⟨dispatched, le_refl _, fun _ => .inl hStop,
          h.workerWaits ht nofun (hElsewhere (.inl rfl)) trivial (.inr ⟨rfl, hStop⟩)⟩
      · rw [Restore.workerTurn, if_neg hStop] at hTurn
        cases hTurn
        refine ⟨dispatched + 1, Nat.le_succ _, fun hExit => .inr ?_, h.fetch hPlan ht rfl⟩
        by_cases hEnd : plan.jobs.length ≤ pool.shared.nextDispatch
        · rw [h.counter] at hEnd
          exact (hEnd.trans (Nat.mod_le _ _)).trans (Nat.le_succ _)
        · dsimp only at hExit
          rw [if_neg hEnd] at hExit
          cases hExit
  | wait j asleep =>
      have hOk := h.workers t _ ht
      have hStays := hElsewhere (.inr ⟨j, asleep, rfl⟩)
      refine ⟨dispatched, le_refl _, ?_⟩
      cases asleep with
      | true =>
          cases turn <;> try cases hTurn
          exact ⟨nofun, h.workerWaits ht nofun hStays
            ⟨hOk.1, hOk.2.1, hOk.2.2.1, hOk.2.2.2.1, nofun⟩ (.inl rfl)⟩
      | false =>
          cases turn <;> try cases hTurn
          by_cases hStop : pool.shared.stop = true
          · rw [Restore.workerTurn, if_pos hStop] at hTurn
            cases hTurn
            exact ⟨fun _ => .inl hStop, h.workerWaits ht nofun hStays trivial (.inr ⟨rfl, hStop⟩)⟩
          · rw [Restore.workerTurn, if_neg hStop] at hTurn
            by_cases hMine : (pool.shared.slots (j % plan.ring)).state = .free ∧
                (pool.shared.slots (j % plan.ring)).nextSeq = j
            · rw [if_pos hMine] at hTurn
              cases hTurn
              exact ⟨nofun, h.acquire ht hMine.1 hMine.2⟩
            · rw [if_neg hMine] at hTurn
              cases hTurn
              exact ⟨nofun, h.workerWaits ht nofun hStays
                ⟨hOk.1, hOk.2.1, hOk.2.2.1, hOk.2.2.2.1, fun _ _ => hMine⟩ (.inl rfl)⟩
  | decrypt j =>
      cases turn <;> try cases hTurn
      cases hDecrypts
      obtain ⟨job, hJob, rfl⟩ := Option.map_eq_some_iff.mp hTurn
      exact ⟨dispatched, le_refl _, nofun,
        h.decrypt ht hJob (hFits job (List.mem_of_getElem? hJob))⟩
  | publish j =>
      cases turn <;> try cases hTurn
      exact ⟨dispatched, le_refl _, nofun, h.publish ht⟩
  | exited => cases turn <;> cases hTurn

/-- The number a ready slot carries is the job whose turn it is. -/
theorem Inv.turn_of_nextSeq (h : Inv plan dispatched none pool) {c : Nat} {x : Consumer}
    (hc : pool.consumers[c]? = some x) (hMore : x.k < plan.nJobs c)
    (hSeq : (slotOf plan pool.shared (plan.firstJob c + x.k)).nextSeq = plan.firstJob c + x.k) :
    turnOf plan pool.shared (plan.firstJob c + x.k) = plan.firstJob c + x.k := by
  have hPending : plan.firstJob c + x.k ∉ pool.shared.consumed := by
    rw [(h.consumers c x hc).consumed _ (Nat.le_add_right _ _) (by omega)]
    exact lt_irrefl _
  exact h.turn_of_pending hPending (RingPlan.job_lt hMore) hSeq

/-- Every turn of a consumer. -/
theorem Inv.consumerTurn (h : Inv plan dispatched none pool) {c : Nat} {x : Consumer}
    (hc : pool.consumers[c]? = some x) {turn : ConsumerTurn} {next : Turn Consumer}
    (hTurn : Restore.consumerTurn plan c pool.shared x turn = some next) :
    Inv plan dispatched next.broadcast
      { pool with shared := next.shared, consumers := pool.consumers.set c next.thread } := by
  have hStage := (h.consumers c x hc).stage
  have hLe := (h.consumers c x hc).k_le
  cases turn with
  | enter =>
      rw [Restore.consumerTurn, Option.ite_none_right_eq_some] at hTurn
      cases hTurn.2
      exact h.consumerMoves hc _ (.wait false) nofun
  | check =>
      rw [Restore.consumerTurn, Option.ite_none_right_eq_some] at hTurn
      obtain ⟨-, hTurn⟩ := hTurn
      by_cases hMore : x.k < plan.nJobs c
      · rw [if_pos hMore] at hTurn
        by_cases hReady : (pool.shared.slots ((plan.firstJob c + x.k) % plan.ring)).state = .ready ∧
            (pool.shared.slots ((plan.firstJob c + x.k) % plan.ring)).nextSeq = plan.firstJob c + x.k
        · have hMine := h.turn_of_nextSeq hc hMore hReady.2
          rw [if_pos hReady] at hTurn
          cases hTurn
          exact h.consumerMoves hc _ .copy ⟨hMore, hReady.1, hMine⟩
        · rw [if_neg hReady] at hTurn
          cases hTurn
          exact h.consumerMoves hc _ (.wait true) fun _ => ⟨hMore, fun _ => hReady⟩
      · rw [if_neg hMore] at hTurn
        cases hTurn
        exact h.consumerMoves hc _ .done (le_antisymm hLe (not_lt.mp hMore))
  | copy ok =>
      rw [Restore.consumerTurn, Option.ite_none_right_eq_some] at hTurn
      obtain ⟨hCopy, hTurn⟩ := hTurn
      obtain ⟨job, -, hNext⟩ := Option.map_eq_some_iff.mp hTurn
      have hAt : AtSlot plan pool.shared c x := by rwa [StageOk, hCopy] at hStage
      dsimp only at hNext
      by_cases hSome : 0 < plan.chunkCopy c x.logicalOff job
      · rw [if_pos hSome] at hNext
        cases ok with
        | true =>
            cases hNext
            exact h.consumerMoves hc _ .release ⟨hAt.more, hAt.ready, hAt.turn⟩
        | false =>
            cases hNext
            exact h.consumerMoves hc _ .failed trivial
      · rw [if_neg hSome] at hNext
        cases hNext
        exact h.consumerMoves hc _ .release ⟨hAt.more, hAt.ready, hAt.turn⟩
  | release =>
      rw [Restore.consumerTurn, Option.ite_none_right_eq_some] at hTurn
      obtain ⟨hRelease, hTurn⟩ := hTurn
      obtain ⟨job, hJob, rfl⟩ := Option.map_eq_some_iff.mp hTurn
      exact h.release hc hRelease hJob
  | spurious =>
      rw [Restore.consumerTurn, Option.ite_none_right_eq_some] at hTurn
      cases hTurn.2
      exact h.consumerMoves hc _ (.wait false) nofun

/-- Shutting the pool down changes no slot. -/
theorem Inv.stop (h : Inv plan dispatched none pool) :
    Inv plan dispatched none { pool with shared := { pool.shared with stop := true } } where
  counter := h.counter
  bound := h.bound
  workerCount := h.workerCount
  consumerCount := h.consumerCount
  slots := fun k hk => (h.slots k hk).frame (i := plan.ring) hk hk.ne (fun _ _ => rfl)
    (fun _ _ => rfl) fun _ hj => hj
  jobs := ⟨h.jobs.inTurn, h.jobs.consumedOnce, h.jobs.decryptedOnce, h.jobs.consumed,
    h.jobs.decrypted⟩
  workers := by
    intro t w hw
    exact (h.workers t w hw).frame (i := plan.ring) (le_refl _) (fun _ _ => rfl) (fun _ _ => rfl)
      (fun _ _ hj => hj) (fun _ _ => Iff.rfl)
      (fun j _ hSlot => absurd hSlot (plan.slot_lt j).ne) fun j _ hSlot =>
        absurd hSlot (plan.slot_lt j).ne
  unique := h.unique
  consumers := by
    intro c x hx
    exact (h.consumers c x hx).frame (i := plan.ring) (fun _ _ => rfl) (fun _ _ => rfl)
      (fun _ _ _ => Iff.rfl) (fun _ hSlot => absurd hSlot (plan.slot_lt _).ne)
      fun hSlot => absurd hSlot (plan.slot_lt _).ne
  assigned := h.assigned
  pending := nofun
  inside := h.inside

theorem Inv.unwoken {slot : Nat} (h : Inv plan dispatched none pool) :
    Inv plan dispatched (some slot) pool :=
  { h with
    workers := fun t w hw => (h.workers t w hw).frame (i := plan.ring) (le_refl _)
      (fun _ _ => rfl) (fun _ _ => rfl) (fun _ _ hj => hj) (fun _ _ => Iff.rfl)
      (fun j _ hSlot => absurd hSlot (plan.slot_lt j).ne)
      fun j _ hSlot => absurd hSlot (plan.slot_lt j).ne
    consumers := fun c x hx => (h.consumers c x hx).frame (i := plan.ring) (fun _ _ => rfl)
      (fun _ _ => rfl) (fun _ _ _ => Iff.rfl) (fun _ hSlot => absurd hSlot (plan.slot_lt _).ne)
      fun hSlot => absurd hSlot (plan.slot_lt _).ne }

theorem Inv.step (h : Inv plan dispatched none pool)
    (hPlan : plan.jobs.length + plan.workers ≤ 2 ^ 32)
    (hFits : ∀ job ∈ plan.jobs, job.byteSize ≤ plan.chunkSize) {label : RingLabel}
    (hDecrypts : label.decrypts) (hStep : pool.step plan label = some pool') :
    ∃ dispatched', ((.exited ∈ pool.workers → Left plan dispatched pool.shared) →
      .exited ∈ pool'.workers → Left plan dispatched' pool'.shared) ∧
      Inv plan dispatched' none pool' := by
  cases label with
  | worker t turn =>
      obtain ⟨w, hw, hNext⟩ := Option.bind_eq_some_iff.mp hStep
      obtain ⟨next, hTurn, rfl⟩ := Option.map_eq_some_iff.mp hNext
      obtain ⟨later, hLater, hExit, hInv⟩ := h.workerTurn hPlan hFits hw hDecrypts hTurn
      refine ⟨later, fun hBefore hExited => ?_, hInv.wakeOpt⟩
      rw [shared_wakeOpt]
      rcases List.mem_or_eq_of_mem_set (exited_wakeOpt.mp hExited) with hOld | hNew
      · exact (hBefore hOld).imp (workerTurn_frame hTurn).1.trans fun hEnd => hEnd.trans hLater
      · exact hExit hNew.symm
  | consumer c turn =>
      obtain ⟨x, hx, hNext⟩ := Option.bind_eq_some_iff.mp hStep
      obtain ⟨next, hTurn, rfl⟩ := Option.map_eq_some_iff.mp hNext
      refine ⟨dispatched, fun hBefore hExited => ?_, (h.consumerTurn hx hTurn).wakeOpt⟩
      have hOld := exited_wakeOpt.mp hExited
      rw [shared_wakeOpt]
      exact (hBefore hOld).imp_left (consumerTurn_frame hTurn).1.trans
  | stop =>
      cases hStep
      exact ⟨dispatched, fun _ _ => .inl rfl, h.stop⟩
  | broadcast slot =>
      rw [Pool.step, Option.ite_none_right_eq_some] at hStep
      obtain ⟨hStop, hNext⟩ := hStep
      cases hNext
      exact ⟨dispatched, fun _ _ => .inl hStop, h.unwoken.wake⟩

end Runs

section Copies

theorem copiesOk_start (plan : RingPlan) : CopiesOk plan (Pool.start plan) where
  exact := nofun
  once := List.nodup_nil
  origin := nofun
  consumed := nofun
  leaving := by
    intro c x hx hRelease
    rw [(List.mem_replicate.mp (List.mem_of_getElem? hx)).2] at hRelease
    cases hRelease

/-- What the workers do concerns no copy. -/
theorem CopiesOk.frame (h : CopiesOk plan pool)
    (hCopied : pool'.shared.copied = pool.shared.copied)
    (hConsumed : pool'.shared.consumed = pool.shared.consumed)
    (hReleases : ∀ (c : Nat) k, (∃ x, pool'.consumers[c]? = some x ∧ x.stage = .release ∧ x.k = k) ↔
      ∃ x, pool.consumers[c]? = some x ∧ x.stage = .release ∧ x.k = k) : CopiesOk plan pool' where
  exact := by
    rw [hCopied]
    exact h.exact
  once := by
    rw [hCopied]
    exact h.once
  origin := by
    intro copy hCopy
    rw [hCopied] at hCopy
    rw [hConsumed]
    rcases h.origin copy hCopy with hOld | ⟨c, x, hx, hRelease, hJob⟩
    · exact .inl hOld
    · obtain ⟨x', hx', hRelease', hk⟩ := (hReleases c x.k).mpr ⟨x, hx, hRelease, rfl⟩
      exact .inr ⟨c, x', hx', hRelease', hk ▸ hJob⟩
  consumed := by
    intro alloc k hk hMem job hJob hSome
    rw [hConsumed] at hMem
    rw [hCopied]
    exact h.consumed alloc k hk hMem job hJob hSome
  leaving := by
    intro c x hx hRelease
    obtain ⟨x₀, hx₀, hRelease₀, hk⟩ := (hReleases c x.k).mp ⟨x, hx, hRelease, rfl⟩
    rw [← hk]
    intro job hJob hSome
    rw [hCopied]
    exact h.leaving c x₀ hx₀ hRelease₀ job hJob hSome

theorem CopiesOk.wake {slot : Nat} (h : CopiesOk plan pool) : CopiesOk plan (pool.wake plan slot) := by
  refine h.frame rfl rfl fun c k => ?_
  have hSame : ∀ x : Consumer, (x.wake plan.ring slot (plan.firstJob c)).stage = .release ∧
      (x.wake plan.ring slot (plan.firstJob c)).k = k ↔ x.stage = .release ∧ x.k = k := by
    rintro ⟨k', off, stage⟩
    cases stage <;> simp [Consumer.wake]
  change (∃ x, (pool.consumers.mapIdx _)[c]? = some x ∧ _) ↔ _
  rw [List.getElem?_mapIdx]
  constructor
  · rintro ⟨x, hx, hAt⟩
    obtain ⟨x₀, hx₀, rfl⟩ := Option.map_eq_some_iff.mp hx
    exact ⟨x₀, hx₀, (hSame x₀).mp hAt⟩
  · rintro ⟨x, hx, hAt⟩
    exact ⟨_, Option.map_eq_some_iff.mpr ⟨x, hx, rfl⟩, (hSame x).mpr hAt⟩

theorem CopiesOk.wakeOpt {slot : Option Nat} (h : CopiesOk plan pool) :
    CopiesOk plan (pool.wakeOpt plan slot) := by
  cases slot with
  | none => exact h
  | some slot => exact h.wake

/-- A consumer that is not about to release, and copies nothing. -/
theorem CopiesOk.moves (h : CopiesOk plan pool) {c : Nat} {x x' : Consumer}
    (hc : pool.consumers[c]? = some x) (hBefore : x.stage ≠ .release) (hAfter : x'.stage ≠ .release) :
    CopiesOk plan { pool with consumers := pool.consumers.set c x' } := by
  refine h.frame rfl rfl fun c' k => ?_
  constructor
  · rintro ⟨y, hy, hRelease, hk⟩
    rcases getElem?_set_cases hy with ⟨rfl, rfl⟩ | ⟨-, hOld⟩
    · exact absurd hRelease hAfter
    · exact ⟨y, hOld, hRelease, hk⟩
  · rintro ⟨y, hy, hRelease, hk⟩
    have hOther : c ≠ c' := by
      rintro rfl
      rw [hc] at hy
      cases hy
      exact hBefore hRelease
    exact ⟨y, (List.getElem?_set_ne hOther).trans hy, hRelease, hk⟩

/-- A job that its consumer has yet to copy is among no copies. -/
theorem CopiesOk.fresh (h : CopiesOk plan pool) (hInv : Inv plan dispatched none pool) {c : Nat}
    {x : Consumer} (hc : pool.consumers[c]? = some x) (hMore : x.k < plan.nJobs c)
    (hBefore : x.stage ≠ .release) :
    plan.firstJob c + x.k ∉ pool.shared.copied.map DeviceCopy.job := by
  intro hMem
  obtain ⟨copy, hCopy, hJob⟩ := List.mem_map.mp hMem
  rcases h.origin copy hCopy with hOld | ⟨c', y, hy, hRelease, hHeld⟩
  · rw [hJob, (hInv.consumers c x hc).consumed _ (Nat.le_add_right _ _) (by omega)] at hOld
    exact lt_irrefl _ hOld
  · have hAt : AtSlot plan pool.shared c' y := by
      have hStage := (hInv.consumers c' y hy).stage
      rwa [StageOk, hRelease] at hStage
    have hMore' := hAt.more
    have hSame : c = c' := plan.alloc_unique (j := plan.firstJob c + x.k)
      (by omega) (by omega) (by omega) (by omega)
    subst hSame
    rw [hc] at hy
    cases hy
    exact hBefore hRelease

/-- A consumer that has copied what there is to copy of its job. -/
theorem CopiesOk.copies (h : CopiesOk plan pool) {c : Nat} {x : Consumer}
    (hc : pool.consumers[c]? = some x) (hStage : x.stage = .copy) (more : List DeviceCopy)
    (hMore : ∀ copy ∈ more, copy.Exact plan ∧ copy.job = plan.firstJob c + x.k)
    (hOnce : ((pool.shared.copied ++ more).map DeviceCopy.job).Nodup)
    (hDone : Copied plan { pool.shared with copied := pool.shared.copied ++ more } c x.k) :
    CopiesOk plan
      { pool with
        shared := { pool.shared with copied := pool.shared.copied ++ more }
        consumers := pool.consumers.set c { x with stage := .release } } where
  exact := by
    intro copy hCopy
    rcases List.mem_append.mp hCopy with hOld | hNew
    · exact h.exact copy hOld
    · exact (hMore copy hNew).1
  once := hOnce
  origin := by
    intro copy hCopy
    rcases List.mem_append.mp hCopy with hOld | hNew
    · rcases h.origin copy hOld with hConsumed | ⟨c', y, hy, hRelease, hJob⟩
      · exact .inl hConsumed
      · have hOther : c ≠ c' := by
          rintro rfl
          rw [hc] at hy
          cases hy
          rw [hStage] at hRelease
          cases hRelease
        exact .inr ⟨c', y, (List.getElem?_set_ne hOther).trans hy, hRelease, hJob⟩
    · exact .inr ⟨c, _, List.getElem?_set_self (List.getElem?_eq_some_iff.mp hc).1, rfl,
        (hMore copy hNew).2⟩
  consumed := by
    intro alloc k hk hMem job hJob hSome
    obtain ⟨copy, hCopy, hSame⟩ := h.consumed alloc k hk hMem job hJob hSome
    exact ⟨copy, List.mem_append_left _ hCopy, hSame⟩
  leaving := by
    intro c' y hy hRelease
    rcases getElem?_set_cases hy with ⟨rfl, rfl⟩ | ⟨-, hOld⟩
    · exact hDone
    · intro job hJob hSome
      obtain ⟨copy, hCopy, hSame⟩ := h.leaving c' y hOld hRelease job hJob hSome
      exact ⟨copy, List.mem_append_left _ hCopy, hSame⟩

/-- The bytes in the slot of a consumer are the plaintext of its job. -/
theorem exact_of_atSlot (hInv : Inv plan dispatched none pool) {c : Nat} {x : Consumer}
    (hc : pool.consumers[c]? = some x) (hAt : AtSlot plan pool.shared c x) {job : ChunkJob}
    (hJob : plan.jobs[plan.firstJob c + x.k]? = some job) :
    DeviceCopy.Exact plan ⟨c, plan.firstJob c + x.k, job.byteOff,
      (slotOf plan pool.shared (plan.firstJob c + x.k)).buf.take
        (plan.chunkCopy c x.logicalOff job)⟩ := by
  refine ⟨x.k, job, hAt.more, rfl, hJob, rfl, ?_⟩
  have hPlain := (hInv.atSlot hAt).2 job hJob
  have hShort : plan.chunkCopy c x.logicalOff job ≤ job.byteSize := by
    unfold RingPlan.chunkCopy
    split
    · split <;> omega
    · exact le_refl _
  rw [← (hInv.consumers c x hc).off, ← hPlain, List.take_take, Nat.min_eq_left hShort]

/-- A consumer that releases the slot of a job it has copied. -/
theorem CopiesOk.release (h : CopiesOk plan pool) {c : Nat} {x x' : Consumer}
    (hc : pool.consumers[c]? = some x) (hStage : x.stage = .release) (hMore : x.k < plan.nJobs c)
    (hAfter : x'.stage ≠ .release) {s : RingState} (hCopied : s.copied = pool.shared.copied)
    (hConsumed : s.consumed = pool.shared.consumed ++ [plan.firstJob c + x.k]) :
    CopiesOk plan { pool with shared := s, consumers := pool.consumers.set c x' } where
  exact := by
    intro copy hCopy
    exact h.exact copy (hCopied ▸ hCopy)
  once := by
    change (s.copied.map DeviceCopy.job).Nodup
    rw [hCopied]
    exact h.once
  origin := by
    intro copy hCopy
    change copy ∈ s.copied at hCopy
    change copy.job ∈ s.consumed ∨ _
    rw [hCopied] at hCopy
    rw [hConsumed, List.mem_append, List.mem_singleton]
    rcases h.origin copy hCopy with hOld | ⟨c', y, hy, hRelease, hJob⟩
    · exact .inl (.inl hOld)
    · by_cases hSame : c = c'
      · subst hSame
        rw [hc] at hy
        cases hy
        exact .inl (.inr hJob)
      · exact .inr ⟨c', y, (List.getElem?_set_ne hSame).trans hy, hRelease, hJob⟩
  consumed := by
    intro alloc k hk hMem job hJob hSome
    change _ ∈ s.consumed at hMem
    change ∃ copy ∈ s.copied, _
    rw [hConsumed, List.mem_append, List.mem_singleton] at hMem
    rw [hCopied]
    rcases hMem with hOld | hNew
    · exact h.consumed alloc k hk hOld job hJob hSome
    · have hSame : alloc = c := plan.alloc_unique (j := plan.firstJob alloc + k)
        (by omega) (by omega) (by omega) (by omega)
      subst hSame
      have hIndex : k = x.k := by omega
      subst hIndex
      exact h.leaving alloc x hc hStage job hJob hSome
  leaving := by
    intro c' y hy hRelease
    rcases getElem?_set_cases hy with ⟨rfl, rfl⟩ | ⟨-, hOld⟩
    · exact absurd hRelease hAfter
    · intro job hJob hSome
      change ∃ copy ∈ s.copied, _
      rw [hCopied]
      exact h.leaving c' y hOld hRelease job hJob hSome

theorem CopiesOk.consumerTurn (h : CopiesOk plan pool) (hInv : Inv plan dispatched none pool)
    {c : Nat} {x : Consumer} (hc : pool.consumers[c]? = some x) {turn : ConsumerTurn}
    {next : Turn Consumer} (hTurn : Restore.consumerTurn plan c pool.shared x turn = some next) :
    CopiesOk plan { pool with shared := next.shared, consumers := pool.consumers.set c next.thread } := by
  have hMoves : ∀ {stage stage' : Stage}, x.stage = stage → stage ≠ .release → stage' ≠ .release →
      CopiesOk plan { pool with consumers := pool.consumers.set c { x with stage := stage' } } := by
    intro stage stage' hStage hBefore hAfter
    exact h.moves hc (hStage ▸ hBefore) hAfter
  cases turn with
  | enter =>
      rw [Restore.consumerTurn, Option.ite_none_right_eq_some] at hTurn
      cases hTurn.2
      exact hMoves hTurn.1 (by simp) (by simp)
  | check =>
      rw [Restore.consumerTurn, Option.ite_none_right_eq_some] at hTurn
      obtain ⟨hWait, hTurn⟩ := hTurn
      dsimp only at hTurn
      split at hTurn
      · split at hTurn <;> cases hTurn <;> exact hMoves hWait (by simp) (by simp)
      · cases hTurn
        exact hMoves hWait (by simp) (by simp)
  | copy ok =>
      rw [Restore.consumerTurn, Option.ite_none_right_eq_some] at hTurn
      obtain ⟨hCopy, hTurn⟩ := hTurn
      obtain ⟨job, hJob, hNext⟩ := Option.map_eq_some_iff.mp hTurn
      have hAt : AtSlot plan pool.shared c x := by
        have hStage := (hInv.consumers c x hc).stage
        rwa [StageOk, hCopy] at hStage
      have hOff := (hInv.consumers c x hc).off
      dsimp only at hNext
      by_cases hSome : 0 < plan.chunkCopy c x.logicalOff job
      · rw [if_pos hSome] at hNext
        cases ok with
        | true =>
            cases hNext
            refine h.copies hc hCopy _ ?_ ?_ ?_
            · intro copy hMem
              rw [List.mem_singleton] at hMem
              subst hMem
              exact ⟨exact_of_atSlot hInv hc hAt hJob, rfl⟩
            · rw [List.map_append]
              exact nodup_concat h.once (h.fresh hInv hc hAt.more (by simp [hCopy]))
            · intro _ _ _
              exact ⟨_, List.mem_append_right _ List.mem_cons_self, rfl⟩
        | false =>
            cases hNext
            exact hMoves hCopy (by simp) (by simp)
      · rw [if_neg hSome] at hNext
        cases hNext
        have hNothing := h.copies hc hCopy []
          (fun _ hMem => absurd hMem List.not_mem_nil) (by simpa using h.once) ?_
        · simpa using hNothing
        · intro job' hJob' hSome'
          cases hJob.symm.trans hJob'
          rw [← hOff] at hSome'
          exact absurd hSome' hSome
  | release =>
      rw [Restore.consumerTurn, Option.ite_none_right_eq_some] at hTurn
      obtain ⟨hRelease, hTurn⟩ := hTurn
      obtain ⟨job, hJob, rfl⟩ := Option.map_eq_some_iff.mp hTurn
      have hAt : AtSlot plan pool.shared c x := by
        have hStage := (hInv.consumers c x hc).stage
        rwa [StageOk, hRelease] at hStage
      exact h.release hc hRelease hAt.more (by simp) rfl rfl
  | spurious =>
      rw [Restore.consumerTurn, Option.ite_none_right_eq_some] at hTurn
      cases hTurn.2
      exact hMoves hTurn.1 (by simp) (by simp)

/-- Every step keeps what is copied right. -/
theorem CopiesOk.step (h : CopiesOk plan pool) (hInv : Inv plan dispatched none pool)
    {label : RingLabel} (hStep : pool.step plan label = some pool') : CopiesOk plan pool' := by
  cases label with
  | worker t turn =>
      obtain ⟨w, hw, hNext⟩ := Option.bind_eq_some_iff.mp hStep
      obtain ⟨next, hTurn, rfl⟩ := Option.map_eq_some_iff.mp hNext
      obtain ⟨-, hCopied, hConsumed⟩ := workerTurn_frame hTurn
      exact CopiesOk.wakeOpt (h.frame hCopied hConsumed fun _ _ => Iff.rfl)
  | consumer c turn =>
      obtain ⟨x, hx, hNext⟩ := Option.bind_eq_some_iff.mp hStep
      obtain ⟨next, hTurn, rfl⟩ := Option.map_eq_some_iff.mp hNext
      exact (h.consumerTurn hInv hx hTurn).wakeOpt
  | stop =>
      cases hStep
      exact h.frame rfl rfl fun _ _ => Iff.rfl
  | broadcast slot =>
      rw [Pool.step, Option.ite_none_right_eq_some] at hStep
      cases hStep.2
      exact h.wake

end Copies

section Delivery

/-- While a worker is there at all, the workers and the consumer of the first job that is
not consumed do not all sleep. -/
theorem Inv.awake (h : Inv plan dispatched none pool) (hWorkers : 0 < plan.workers)
    (hStop : pool.shared.stop = false) (hAsleep : ∀ w ∈ pool.workers, w.asleep = true) {c : Nat}
    {x : Consumer} (hc : pool.consumers[c]? = some x) (hStage : x.stage = .wait true) :
    ¬∀ j < plan.firstJob c + x.k, j ∈ pool.shared.consumed := by
  intro hBefore
  have hOk := h.consumers c x hc
  have hSleeps := hOk.stage
  rw [StageOk, hStage] at hSleeps
  obtain ⟨hMore, hNotReady⟩ := hSleeps rfl
  have hPending : plan.firstJob c + x.k ∉ pool.shared.consumed := by
    rw [hOk.consumed _ (Nat.le_add_right _ _) (by omega)]
    exact lt_irrefl _
  have hLess := RingPlan.job_lt hMore
  generalize plan.firstJob c + x.k = j at hBefore hNotReady hPending hLess
  have hTurn : turnOf plan pool.shared j = j :=
    h.jobs.inTurn.turn_first plan.ring_pos hBefore hPending
  have hSlotOk := h.slots _ (plan.slot_lt j)
  have hSeq : (slotOf plan pool.shared j).nextSeq = j := by
    have hNext : (slotOf plan pool.shared j).nextSeq = turnOf plan pool.shared j % 2 ^ 32 :=
      hSlotOk.nextSeq
    rw [hTurn, Nat.mod_eq_of_lt (hLess.trans plan.jobs_lt)] at hNext
    exact hNext
  by_cases hTaken : j < dispatched
  · rcases h.pending hStop j hLess hTaken hPending with ⟨w, hw, hHeld⟩ | ⟨hReady, -⟩
    · -- the worker that holds the job sleeps, though its slot is free for it
      have hSleeping := hAsleep w hw
      obtain ⟨t, ht⟩ := List.getElem?_of_mem hw
      have hWorker := h.workers t w ht
      cases w with
      | wait i asleep =>
          cases hHeld
          cases hSleeping
          have hNotFree := hWorker.2.2.2.2 rfl (Option.some_ne_none _)
          cases hState : (slotOf plan pool.shared j).state with
          | free => exact hNotFree ⟨hState, hSeq⟩
          | ready => exact hNotReady (Option.some_ne_none _) ⟨hState, hSeq⟩
          | assigned =>
              obtain ⟨v, hv, hAt⟩ := h.assigned _ (plan.slot_lt j) hState
              have hSleepsToo := hAsleep v hv
              rcases hAt with rfl | rfl <;> cases hSleepsToo
      | fetch | decrypt i | publish i | exited => cases hSleeping
    · exact hNotReady (Option.some_ne_none _) ⟨hReady, hSeq⟩
  · -- a worker that sleeps holds a job, and all jobs taken are consumed
    have hSome : 0 < pool.workers.length := by
      rw [h.workerCount]
      exact hWorkers
    have hSleeping := hAsleep _ (List.getElem_mem hSome)
    have hWorker := h.workers 0 _ (List.getElem?_eq_getElem hSome)
    generalize pool.workers[0] = w at hSleeping hWorker
    cases w with
    | wait i asleep =>
        obtain ⟨hOld, -, hWaits, -⟩ := hWorker
        exact hWaits (hBefore i (by omega))
    | fetch | decrypt i | publish i | exited => cases hSleeping

theorem Inv.delivers (h : Inv plan dispatched none pool) (hCopies : CopiesOk plan pool)
    (hWorkers : 0 < plan.workers) : Delivers plan pool where
  exact := hCopies.exact
  copiedOnce := hCopies.once
  decryptedOnce := h.jobs.decryptedOnce
  consumedOnce := h.jobs.consumedOnce
  finished := by
    intro c x hx hDone k hk
    have hOk := h.consumers c x hx
    have hStage := hOk.stage
    rw [StageOk, hDone] at hStage
    apply hCopies.consumed c k hk
    rw [hOk.consumed _ (Nat.le_add_right _ _) (by omega), hStage]
    omega
  complete := by
    intro hDone
    have hAll : ∀ j < plan.jobs.length, j ∈ pool.shared.consumed := by
      intro j hj
      obtain ⟨c, hc, hLow, hHigh⟩ := RingPlan.exists_alloc hj
      rw [← h.consumerCount] at hc
      have hx := List.getElem?_eq_getElem hc
      have hOk := h.consumers c _ hx
      have hStage := hOk.stage
      rw [StageOk, hDone _ (List.getElem_mem hc)] at hStage
      rwa [hOk.consumed j hLow hHigh, hStage]
    constructor
    · rw [List.perm_ext_iff_of_nodup h.jobs.decryptedOnce List.nodup_range]
      intro j
      rw [List.mem_range]
      exact ⟨fun hj => (h.jobs.decrypted j hj).2.1, fun hj => h.jobs.consumed j (hAll j hj)⟩
    · rw [List.perm_ext_iff_of_nodup h.jobs.consumedOnce List.nodup_range]
      intro j
      rw [List.mem_range]
      exact ⟨fun hj => (h.jobs.decrypted j (h.jobs.consumed j hj)).2.1, hAll j⟩
  overwritten := by
    rintro j (hPlain | hWorker) hLate
    · exact (h.jobs.decrypted j hPlain).2.2 hLate
    · obtain ⟨t, ht⟩ := List.getElem?_of_mem hWorker
      obtain ⟨-, -, -, hTurn, -⟩ := h.workers t _ ht
      exact h.jobs.inTurn.previous plan.ring_pos hTurn hLate
  inside := h.inside
  awake := fun hStop hAsleep _ _ hc hStage => h.awake hWorkers hStop hAsleep hc hStage

/-- Every state of every run is right, whatever the order of the threads, if each
decryption succeeds. -/
theorem execute_delivers (plan : RingPlan) (hWorkers : 0 < plan.workers)
    (hPlan : plan.jobs.length + plan.workers ≤ 2 ^ 32)
    (hFits : ∀ job ∈ plan.jobs, job.byteSize ≤ plan.chunkSize) (labels : List RingLabel) {pool : Pool}
    (hDecrypts : ∀ label ∈ labels, label.decrypts)
    (hRun : execute (Pool.step plan) (Pool.start plan) labels = some pool) :
    Delivers plan pool := by
  have hEnd : ∃ dispatched, Inv plan dispatched none pool ∧ CopiesOk plan pool := by
    have hKeeps : ∀ before (label : RingLabel) after, label.decrypts →
        (∃ dispatched, Inv plan dispatched none before ∧ CopiesOk plan before) →
          Pool.step plan before label = some after →
            ∃ dispatched, Inv plan dispatched none after ∧ CopiesOk plan after := by
      rintro before label after hLabel ⟨dispatched, hInv, hCopies⟩ hStep
      obtain ⟨dispatched', -, hInv'⟩ := hInv.step hPlan hFits hLabel hStep
      exact ⟨dispatched', hInv', hCopies.step hInv hStep⟩
    exact invariant_along hKeeps labels _ _ ⟨0, inv_start plan, copiesOk_start plan⟩
      (along_of_forall hDecrypts _) hRun
  obtain ⟨dispatched, hInv, hCopies⟩ := hEnd
  exact hInv.delivers hCopies hWorkers

/-- One allocation of one byte, decrypted by one worker. -/
def oneJob : RingPlan where
  allocs := [[⟨0, 1, 0, []⟩]]
  plain := fun job => List.replicate job.byteSize 1
  newSize := fun _ => 1
  ring := 3
  workers := 1
  chunkSize := 1
  plain_length := fun _ => List.length_replicate
  jobs_lt := by decide
  ring_ge := RingPlan.smallRing_ge
  ring_lt := RingPlan.smallRing_lt

/-- The worker decrypts the job, and then its consumer takes it. -/
def oneJobRun (failure : Option Bytes) : List RingLabel :=
  [.worker 0 .fetch, .worker 0 .acquire, .worker 0 (.decrypt failure), .worker 0 .publish,
    .consumer 0 .enter, .consumer 0 .check, .consumer 0 (.copy true), .consumer 0 .release,
    .consumer 0 .check]

theorem execute_delivers_oneJob : ∃ pool,
    execute (Pool.step oneJob) (Pool.start oneJob) (oneJobRun none) = some pool ∧
      Delivers oneJob pool := by
  refine ⟨_, rfl, ?_⟩
  refine execute_delivers oneJob (by decide) (by decide) ?_ (oneJobRun none) ?_ rfl
  · intro job hJob
    cases List.mem_singleton.mp hJob
    exact le_refl _
  · intro label hLabel
    simp only [oneJobRun, List.mem_cons, List.not_mem_nil, or_false] at hLabel
    rcases hLabel with rfl | rfl | rfl | rfl | rfl | rfl | rfl | rfl | rfl <;> trivial

/-- The call fails and writes nothing: the zeros of the slot are copied instead of the
plaintext, and the call of `restore_apply_alloc` succeeds. -/
theorem not_delivers_failedDecryption : ∃ pool,
    execute (Pool.step oneJob) (Pool.start oneJob) (oneJobRun (some [])) = some pool ∧
      ¬Delivers oneJob pool := by
  refine ⟨_, rfl, fun h => ?_⟩
  obtain ⟨k, job, -, -, -, -, hBytes⟩ := h.exact ⟨0, 0, 0, [0]⟩ List.mem_cons_self
  have hZero : (0 : UInt8) ∈ (oneJob.plain job).take
      (oneJob.chunkCopy 0 (oneJob.logicalOff 0 k) job) := hBytes ▸ List.mem_cons_self
  exact absurd (List.mem_replicate.mp (List.mem_of_mem_take hZero)).2 (by decide)

end Delivery

end FlashCkpt.Restore
