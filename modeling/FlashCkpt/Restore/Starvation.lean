import FlashCkpt.Restore.Replay

/-! Whether the ring can starve. A slot that is not released serves no later job: if a
call leaves jobs behind, every call with a job that falls to one of their slots waits for
ever. Where no call leaves any, each call made can return. -/
namespace FlashCkpt.Restore

open ByteImage SizeCut Crypto Image Baseline TicketRing Transition

section Steps

variable {plan : RingPlan} {pool pool' : Pool} {label : RingLabel}

/-- A thread that has not come to the loop. -/
def Consumer.out : Consumer := ⟨0, 0, .idle⟩

theorem out_step (hRunning : label.running = true) (hStep : pool.step plan label = some pool')
    {c : Nat} (h : pool.consumers[c]? = some .out) : pool'.consumers[c]? = some .out := by
  obtain ⟨x', hx', y, hTurn, hWoken⟩ := consumer_step hStep h
  have hy : y = .out := by
    rcases hTurn with rfl | ⟨turn, next, rfl, hTurn, rfl⟩
    · rfl
    · cases turn with
      | enter => cases hRunning
      | check | copy | release | spurious => cases hTurn
  rw [hx']
  subst hy
  rcases hWoken with rfl | ⟨slot, rfl⟩ <;> rfl

/-- No call has been ended by a failed copy. -/
def Pool.Unfailed (pool : Pool) : Prop :=
  ∀ (c : Nat) (x : Consumer), pool.consumers[c]? = some x → x.stage ≠ .failed

theorem unfailed_step (hCopies : label.Copies) (hStep : pool.step plan label = some pool')
    (h : pool.Unfailed) : pool'.Unfailed := by
  intro c x hx
  have hLess := (List.getElem?_eq_some_iff.mp hx).1
  rw [length_consumers_step hStep] at hLess
  have hOld := List.getElem?_eq_getElem hLess
  obtain ⟨x', hx', y, hTurn, hWoken⟩ := consumer_step hStep hOld
  cases hx.symm.trans hx'
  have hy : y.stage ≠ .failed := by
    rcases hTurn with rfl | ⟨turn, next, rfl, hTurn, rfl⟩
    · exact h c _ hOld
    · exact (consumerTurn_begun hCopies hTurn).2
  rcases hWoken with rfl | ⟨slot, rfl⟩
  · exact hy
  · obtain ⟨k, off, stage⟩ := y
    cases stage with
    | failed => exact absurd rfl hy
    | idle | wait | copy | release | done => exact nofun

theorem Pool.Unfailed.any (h : pool.Unfailed) :
    (pool.consumers.any fun x => x.stage = .failed) = false := by
  rw [List.any_eq_false]
  intro x hx
  obtain ⟨c, hc⟩ := List.getElem?_of_mem hx
  rw [decide_eq_true_eq]
  exact h c x hc

end Steps

section Runs

variable {r : Replay} {s s' : Replaying}

/-- What holds in every run in which the counter has not come back to zero: the pool is
like one whose decryptions have succeeded, and the consumers of calls to come, and of
calls that took another route, are not in the loop. -/
structure Tracked (r : Replay) (s : Replaying) : Prop where
  pool : ∃ pool', s.pool.Alike pool' ∧ ∃ dispatched, Inv r.plan.roomy dispatched none pool' ∧
    (.exited ∈ pool'.workers → Left r.plan.roomy dispatched pool'.shared)
  going : s.pool.shared.stop = false
  out : ∀ idx < r.plan.allocs.length, (s.calls ≤ idx ∨ r.routeOf idx ≠ .ring) →
    s.pool.consumers[idx]? = some .out

/-- What holds besides when every call is fetched from the base image. -/
structure Fetched (r : Replay) (s : Replaying) : Prop extends Tracked r s where
  begun : ∀ idx < s.calls, r.routeOf idx = .ring → ∃ x, s.pool.consumers[idx]? = some x ∧ x.Begun
  served : ∀ idx < s.calls, r.plan.nJobs idx ≠ 0 → r.routeOf idx = .ring
  unfailed : s.pool.Unfailed

theorem tracked_start (r : Replay) : Tracked r r.start where
  pool := ⟨Pool.start r.plan.roomy, Pool.alike_start r.plan, 0, inv_start r.plan.roomy, fun hExited =>
    absurd (List.eq_of_mem_replicate hExited) nofun⟩
  going := rfl
  out := by
    intro idx hLess _
    rw [Replay.start, Pool.start, List.getElem?_replicate, if_pos hLess]
    rfl

theorem fetched_start (r : Replay) : Fetched r r.start where
  toTracked := tracked_start r
  begun := fun _ hLess => absurd hLess (Nat.not_lt_zero _)
  served := fun _ hLess => absurd hLess (Nat.not_lt_zero _)
  unfailed := by
    intro c x hx
    rw [Replay.start, Pool.start] at hx
    obtain ⟨hLess, rfl⟩ := List.getElem?_eq_some_iff.mp hx
    rw [List.getElem_replicate]
    exact nofun

/-- The index of a call that takes the ring is in the table. -/
theorem Replay.lt_of_route {idx : Nat} (h : r.routeOf idx = .ring) : idx < r.plan.allocs.length := by
  by_contra hOut
  rw [mapM_length r.jobs_eq] at hOut
  rw [Replay.routeOf, route, List.getElem?_eq_none (not_lt.mp hOut)] at h
  cases h

/-- Coming to the loop is a turn of the consumer. -/
theorem enter_step {plan : RingPlan} {pool : Pool} {idx : Nat}
    (h : pool.consumers[idx]? = some .out) :
    pool.step plan (.consumer idx .enter) = some (pool.enter idx) :=
  step_consumer h (rfl : consumerTurn plan idx pool.shared .out .enter = some _)

theorem Tracked.poolStep (h : Tracked r s) (hPlan : r.plan.jobs.length + r.plan.workers ≤ 2 ^ 32)
    {label : RingLabel} {pool' : Pool} (hLabel : label ≠ .stop)
    (hStep : s.pool.step r.plan label = some pool') :
    (∃ pool'', pool'.Alike pool'' ∧ ∃ dispatched, Inv r.plan.roomy dispatched none pool'' ∧
      (.exited ∈ pool''.workers → Left r.plan.roomy dispatched pool''.shared)) ∧
    pool'.shared.stop = false := by
  obtain ⟨before, hAlike, dispatched, hInv, hLeft⟩ := h.pool
  have hSame : label.succeed = label.succeed.succeed :=
    (RingLabel.succeed_eq label.decrypts_succeed).symm
  obtain ⟨after, hStep', hAlike'⟩ := hAlike.step hSame hStep
  obtain ⟨later, hExit, hInv'⟩ := hInv.step hPlan r.plan.roomy_fits label.decrypts_succeed hStep'
  exact ⟨⟨after, hAlike', later, hInv', hExit hLeft⟩, (stop_step hLabel hStep).trans h.going⟩

/-- A step that is a call. -/
theorem step_call {ok : Bool} (hStep : r.step s (.call ok) = some s') (hCalls : s.calls < 2 ^ 32) :
    s'.calls = s.calls + 1 ∧
      (r.routeOf s.calls = .ring ∧ s'.pool = s.pool.enter s.calls ∨
        r.routeOf s.calls ≠ .ring ∧ s'.pool = s.pool) := by
  rw [Replay.step, Nat.mod_eq_of_lt hCalls] at hStep
  split at hStep
  · cases hStep
  dsimp only at hStep
  split at hStep
  · rename_i hRoute
    cases hStep
    exact ⟨rfl, .inl ⟨hRoute, rfl⟩⟩
  all_goals
    rename_i hRoute
    cases hStep
    exact ⟨rfl, .inr ⟨by rw [hRoute]; exact nofun, rfl⟩⟩

/-- A step that is a turn. -/
theorem step_thread {label : RingLabel} (hStep : r.step s (.thread label) = some s') :
    s.aborted = false ∧ label.running = true ∧ s'.calls = s.calls ∧
      s.pool.step r.plan label = some s'.pool := by
  rw [Replay.step, Option.ite_none_left_eq_some] at hStep
  obtain ⟨hGuard, hNext⟩ := hStep
  obtain ⟨pool, hPool, rfl⟩ := Option.map_eq_some_iff.mp hNext
  rw [Bool.or_eq_true, not_or, Bool.not_eq_true, Bool.not_eq_true, Bool.not_eq_false'] at hGuard
  exact ⟨hGuard.1, hGuard.2, rfl, hPool⟩

theorem RingLabel.Smooth.running {label : RingLabel} (h : label.Smooth) : label.running = true := by
  cases label with
  | worker => rfl
  | consumer c turn =>
      cases turn with
      | enter => exact h.elim
      | check | copy | release | spurious => rfl
  | stop => exact h.elim
  | broadcast => exact h.elim

theorem RingLabel.ne_stop_of_running {label : RingLabel} (h : label.running = true) :
    label ≠ .stop := by
  rintro rfl
  cases h

theorem getElem?_enter_self {pool : Pool} {idx : Nat} {x : Consumer} (h : pool.consumers[idx]? = some x) :
    (pool.enter idx).consumers[idx]? = some ⟨0, 0, .wait false⟩ :=
  List.getElem?_set_self (List.getElem?_eq_some_iff.mp h).1

/-- The counter has not come back to zero. -/
def Counted (s : Replaying) : ReplayLabel → Prop
  | .call _ => s.calls < 2 ^ 32
  | .thread _ => True

theorem Tracked.step (h : Tracked r s) (hPlan : r.plan.jobs.length + r.plan.workers ≤ 2 ^ 32)
    {label : ReplayLabel} (hCounted : Counted s label) (hStep : r.step s label = some s') :
    Tracked r s' := by
  cases label with
  | call ok =>
      obtain ⟨hNext, ⟨hRoute, hPool⟩ | ⟨-, hPool⟩⟩ := step_call hStep hCounted
      · have hOut := h.out _ (Replay.lt_of_route hRoute) (.inl (le_refl _))
        have hEnter : RingLabel.consumer s.calls .enter ≠ .stop := nofun
        obtain ⟨hTracked, hGoing⟩ := h.poolStep hPlan hEnter (enter_step hOut)
        rw [← hPool] at hTracked hGoing
        refine ⟨hTracked, hGoing, fun idx hLess hOther => ?_⟩
        have hNe : s.calls ≠ idx := by
          rintro rfl
          rcases hOther with hLater | hElse
          · omega
          · exact hElse hRoute
        rw [hPool, Pool.enter, List.getElem?_set_ne hNe]
        exact h.out idx hLess (hOther.imp_left (by omega))
      · refine ⟨hPool ▸ h.pool, hPool ▸ h.going, fun idx hLess hOther => ?_⟩
        rw [hPool]
        exact h.out idx hLess (hOther.imp_left (by omega))
  | thread label =>
      obtain ⟨-, hRunning, hSame, hPool⟩ := step_thread hStep
      obtain ⟨hTracked, hGoing⟩ := h.poolStep hPlan (RingLabel.ne_stop_of_running hRunning) hPool
      refine ⟨hTracked, hGoing, fun idx hLess hOther => out_step hRunning hPool ?_⟩
      exact h.out idx hLess (hSame ▸ hOther)

theorem Replay.Ok.counted {label : ReplayLabel} (h : r.Ok s label) : Counted s label := by
  cases label with
  | call ok => exact h.1
  | thread label => trivial

theorem Fetched.step (h : Fetched r s) (hPlan : r.plan.jobs.length + r.plan.workers ≤ 2 ^ 32)
    {label : ReplayLabel} (hOk : r.Ok s label) (hStep : r.step s label = some s') :
    Fetched r s' := by
  have hTracked := h.toTracked.step hPlan hOk.counted hStep
  cases label with
  | call ok =>
      obtain ⟨hNext, hRoutes⟩ := step_call hStep hOk.counted
      refine { toTracked := hTracked, begun := ?_, served := ?_, unfailed := ?_ }
      · intro idx hLess hRoute
        rcases hRoutes with ⟨-, hPool⟩ | ⟨hElse, hPool⟩
        · rw [hPool]
          by_cases hSame : s.calls = idx
          · subst hSame
            have hOut := h.out _ (Replay.lt_of_route hRoute) (.inl (le_refl _))
            exact ⟨_, getElem?_enter_self hOut, nofun, nofun⟩
          · rw [Pool.enter, List.getElem?_set_ne hSame]
            exact h.begun idx (by omega) hRoute
        · rw [hPool]
          refine h.begun idx ?_ hRoute
          have hNe : idx ≠ s.calls := by
            rintro rfl
            exact hElse hRoute
          omega
      · intro idx hLess hJobs
        by_cases hSame : s.calls = idx
        · subst hSame
          exact (Replay.route_ring_iff hJobs).mpr hOk.2
        · exact h.served idx (by omega) hJobs
      · rcases hRoutes with ⟨-, hPool⟩ | ⟨-, hPool⟩
        · rw [hPool]
          intro c x hx
          rcases getElem?_set_cases hx with ⟨-, rfl⟩ | ⟨-, hOld⟩
          · exact nofun
          · exact h.unfailed c x hOld
        · rw [hPool]
          exact h.unfailed
  | thread label =>
      obtain ⟨-, -, hSame, hPool⟩ := step_thread hStep
      refine { toTracked := hTracked, begun := ?_, served := hSame ▸ h.served,
               unfailed := unfailed_step hOk hPool h.unfailed }
      intro idx hLess hRoute
      exact begun_step hOk hPool (h.begun idx (hSame ▸ hLess) hRoute)

/-- The jobs of a call that has returned. -/
theorem Fetched.consumed (h : Fetched r s) {idx k : Nat} (hReturned : r.Returned s idx)
    (hk : k < r.plan.nJobs idx) : r.plan.firstJob idx + k ∈ s.pool.shared.consumed := by
  obtain ⟨hLess, hDone⟩ := hReturned
  obtain ⟨x, hx, hStage⟩ := hDone (h.served idx hLess (by omega))
  obtain ⟨pool', hAlike, dispatched, hInv, -⟩ := h.pool
  have hOk := hInv.consumers idx x (hAlike.consumers ▸ hx)
  have hEnd := hOk.stage
  rw [StageOk, hStage.resolve_right (h.unfailed idx x hx)] at hEnd
  rw [hAlike.shared.consumed]
  refine (hOk.consumed _ (Nat.le_add_right _ _) (Nat.add_lt_add_left hk _)).mpr ?_
  exact hEnd ▸ Nat.add_lt_add_left hk _

/-- A call in the loop can come to its end. -/
theorem Fetched.canReturn (h : Fetched r s) (hPlan : r.plan.jobs.length + r.plan.workers ≤ 2 ^ 32)
    (hWorkers : 0 < r.plan.workers) {idx : Nat} (hLess : idx < s.calls)
    (hRoute : r.routeOf idx = .ring) :
    CanReach (Pool.step r.plan) RingLabel.Smooth s.pool fun last =>
      ∃ x, last.consumers[idx]? = some x ∧ x.stage = .done := by
  obtain ⟨pool', hAlike, hInv⟩ := h.pool
  have hSound : r.plan.roomy.Sound := ⟨hPlan, r.plan.roomy_fits, hWorkers⟩
  have hFlowing : Flowing r.plan.roomy (fun c => c < s.calls ∧ r.routeOf c = .ring) 0 pool' := by
    refine ⟨hInv, hAlike.shared.stop ▸ h.going, ?_, fun i hi => absurd hi (Nat.not_lt_zero i)⟩
    intro c hc
    rw [← hAlike.consumers]
    exact h.begun c hc.1 hc.2
  have hOwned : ∀ j < r.plan.firstJob idx + r.plan.nJobs idx,
      ∃ c, Owned r.plan.roomy (fun c => c < s.calls ∧ r.routeOf c = .ring) c j := by
    intro j hj
    have hEnd : r.plan.firstJob idx + r.plan.nJobs idx ≤ r.plan.jobs.length := by
      rw [← RingPlan.firstJob_length, ← RingPlan.firstJob_succ (Replay.lt_of_route hRoute)]
      exact RingPlan.firstJob_mono (Replay.lt_of_route hRoute)
    obtain ⟨c, -, hLow, hHigh⟩ := RingPlan.exists_alloc (hj.trans_le hEnd)
    have hBefore : c ≤ idx := by
      by_contra hAfter
      have hNext := r.plan.firstJob_next (not_le.mp hAfter)
      omega
    exact ⟨c, ⟨by omega, h.served c (by omega) (by omega)⟩, hLow, hHigh⟩
  obtain ⟨labels, last', hSmooth, hRun, x, hx, hStage⟩ :=
    (hFlowing.consumeAll hSound _ hOwned).bind fun _ hNext => hNext.leave ⟨hLess, hRoute⟩
  -- the same turns with the slots and decryptions as they are
  have hMatch : ∀ p' p (label : RingLabel) q', Pool.Alike p p' → label.Smooth →
      Pool.step r.plan.roomy p' label = some q' →
        ∃ q, Pool.step r.plan p label = some q ∧ Pool.Alike q q' := by
    intro p' p label q' hp _ hNext
    obtain ⟨q, hNext', hq⟩ := hp.symm.step rfl hNext
    exact ⟨q, hNext', hq.symm⟩
  obtain ⟨last, hRun', hLast⟩ := execute_related hMatch labels hAlike hSmooth hRun
  rw [List.map_id'] at hRun'
  exact ⟨labels, last, hSmooth, hRun', x, hLast.consumers ▸ hx, hStage⟩

/-- Turns of the pool are turns of the replay, as long as no copy fails. -/
theorem Fetched.unblocked (h : Fetched r s) (hPlan : r.plan.jobs.length + r.plan.workers ≤ 2 ^ 32)
    (hWorkers : 0 < r.plan.workers) (hAlive : s.aborted = false) {idx : Nat} (hLess : idx < s.calls) :
    CanReach r.step ReplayLabel.Smooth s (r.Returned · idx) := by
  by_cases hRoute : r.routeOf idx = .ring
  · obtain ⟨labels, last, hSmooth, hRun, x, hx, hStage⟩ := h.canReturn hPlan hWorkers hLess hRoute
    have hMatch : ∀ p (t : Replaying) (label : RingLabel) q,
        t.pool = p ∧ t.aborted = false ∧ t.calls = s.calls ∧ p.Unfailed → label.Smooth →
          Pool.step r.plan p label = some q → ∃ t', r.step t (.thread label) = some t' ∧
            (t'.pool = q ∧ t'.aborted = false ∧ t'.calls = s.calls ∧ q.Unfailed) := by
      rintro p t label q ⟨rfl, hGoing, hCalls, hUnfailed⟩ hLabel hNext
      have hAfter := unfailed_step hLabel.copies hNext hUnfailed
      refine ⟨{ t with pool := q, aborted := false }, ?_, rfl, rfl, hCalls, hAfter⟩
      rw [Replay.step, hGoing, hLabel.running, hNext, Option.map_some, hAfter.any]
      rfl
    obtain ⟨last', hRun', rfl, -, hCalls, -⟩ :=
      execute_related hMatch labels ⟨rfl, hAlive, rfl, h.unfailed⟩ hSmooth hRun
    refine ⟨_, last', ?_, hRun', hCalls ▸ hLess, fun _ => ⟨x, hx, .inl hStage⟩⟩
    intro label hLabel
    obtain ⟨l, hl, rfl⟩ := List.mem_map.mp hLabel
    exact hSmooth l hl
  · exact CanReach.here ⟨hLess, fun hRing => absurd hRing hRoute⟩

end Runs

/-- No call starves in a run in which each is fetched from the base image if that covers
it, whatever the order of the threads and whether decryptions fail. -/
theorem execute_unstarved (r : Replay) (hWorkers : 0 < r.plan.workers)
    (hPlan : r.plan.jobs.length + r.plan.workers ≤ 2 ^ 32) (labels : List ReplayLabel)
    {s : Replaying} (hOk : Along r.step r.Ok r.start labels)
    (hRun : execute r.step r.start labels = some s) : Unstarved r s := by
  have hFetched : Fetched r s :=
    invariant_along (fun _ _ _ hOk hFetched hStep => hFetched.step hPlan hOk hStep) labels _ _
      (fetched_start r) hOk hRun
  exact ⟨fun _ hReturned _ hk => hFetched.consumed hReturned hk,
    fun hAlive _ hLess => hFetched.unblocked hPlan hWorkers hAlive hLess⟩

/-- Turns of threads are allowed if their copies do not fail. -/
theorem along_threads (r : Replay) {labels : List ReplayLabel}
    (h : ∀ label ∈ labels, ∃ l : RingLabel, label = .thread l ∧ l.Copies) (s : Replaying) :
    Along r.step r.Ok s labels := by
  induction labels generalizing s with
  | nil => trivial
  | cons label rest ih =>
      obtain ⟨l, rfl, hCopies⟩ := h label List.mem_cons_self
      exact fun t _ => ⟨hCopies, ih (fun l' hl' => h l' (List.mem_cons_of_mem _ hl')) t⟩

/-- A job of a call that did not come to the ring keeps its slot: a call with a later job
for the slot does not come to its end, in any run. -/
theorem execute_blocked (r : Replay) (hPlan : r.plan.jobs.length + r.plan.workers ≤ 2 ^ 32)
    (labels : List ReplayLabel) {s : Replaying} (hCounted : Along r.step Counted r.start labels)
    (hRun : execute r.step r.start labels = some s) {left idx k i : Nat}
    (hLeft : r.routeOf left ≠ .ring) (hk : k < r.plan.nJobs left) (hi : i < r.plan.nJobs idx)
    (hLater : left < idx)
    (hSlot : (r.plan.firstJob idx + i) % r.plan.ring = (r.plan.firstJob left + k) % r.plan.ring) :
    ¬∃ x, s.pool.consumers[idx]? = some x ∧ x.stage = .done := by
  rintro ⟨x, hx, hDone⟩
  have hTracked : Tracked r s :=
    invariant_along (fun _ _ _ hOk hTracked hStep => hTracked.step hPlan hOk hStep) labels _ _
      (tracked_start r) hCounted hRun
  obtain ⟨pool', hAlike, dispatched, hInv, -⟩ := hTracked.pool
  have hInTurn : InTurn r.plan.ring pool'.shared.consumed := hInv.jobs.inTurn
  have hInside : left < r.plan.allocs.length := by
    by_contra hOut
    rw [RingPlan.nJobs, List.getD_eq_default _ _ (not_lt.mp hOut)] at hk
    exact absurd hk (Nat.not_lt_zero k)
  have hOut := hTracked.out left hInside (.inr hLeft)
  rw [hAlike.consumers] at hx hOut
  have hKept : r.plan.firstJob left + k ∉ pool'.shared.consumed := fun hMem =>
    absurd (((hInv.consumers left _ hOut).consumed _ (Nat.le_add_right _ _)
      (Nat.add_lt_add_left hk _)).mp hMem) (not_lt.mpr (Nat.le_add_right _ k))
  have hOk := hInv.consumers idx x hx
  have hEnd := hOk.stage
  rw [StageOk, hDone] at hEnd
  have hServed : r.plan.firstJob idx + i ∈ pool'.shared.consumed :=
    (hOk.consumed _ (Nat.le_add_right _ _) (Nat.add_lt_add_left hi _)).mpr
      (hEnd ▸ Nat.add_lt_add_left hi _)
  refine hKept ((hInTurn _).mpr ?_)
  rw [← hSlot]
  have hTurn := (hInTurn _).mp hServed
  have hOrder := r.plan.firstJob_next hLater
  omega

/-- The smallest chunk of the ring. -/
def mib : Nat := 2 ^ 20

/-- Some megabytes of GPU memory, one to a transfer. -/
def bigRange (n : Nat) : RangeDesc where
  baseVa := 0x7f0000000000
  length := n * mib
  numPages := n * 256
  dataOffset := dataStart 1
  resmapSize := n * 256
  cpuBytes := 0
  gpuBytes := n * mib
  cryptoMetaBytes := n * cryptoMetaSize

def bigFile (n : Nat) : BaseFile where
  version := 3
  descs := [bigRange n]
  data := fun i =>
    if i < (bigRange n).gpuOffset then 1
    else if i < (bigRange n).metaOffset then 0
    else if (i - (bigRange n).metaOffset) % cryptoMetaSize = 2 then 0x10
    else 0
  size := (bigRange n).stop

def bigMeta : CryptoMeta := ⟨mib, List.replicate 12 0, 0, List.replicate 16 0, 0⟩

def firstAlloc : AllocEntry := ⟨0x7f0000000000, mib, false, heapBase_lt, by decide⟩

def secondAlloc : AllocEntry := ⟨0x7f0000100000, 3 * mib, false, by decide, by decide⟩

/-- One job for the first allocation and three for the second. -/
def bigJobs : List (List ChunkJob) :=
  [[⟨0, mib, 1112, [bigMeta]⟩],
    [⟨0, mib, 1112 + mib, [bigMeta]⟩, ⟨mib, mib, 1112 + 2 * mib, [bigMeta]⟩,
      ⟨2 * mib, mib, 1112 + 3 * mib, [bigMeta]⟩]]

def bigState (staticImg : Option BaseFile) : State where
  allocs := [firstAlloc, secondAlloc]
  base := bigFile 4
  key := []
  delta := none
  staticImg := staticImg
  chunkSize := mib
  ring := some bigJobs

theorem rangeMetas_bigFile : rangeMetas (bigFile 4) (bigRange 4) = List.replicate 4 bigMeta := by
  decide +kernel

theorem allocJobs_bigFile :
    [firstAlloc, secondAlloc].mapM (allocJobs (bigFile 4) mib) = some bigJobs := by
  have hFirst : findDesc (bigFile 4).descs firstAlloc.va firstAlloc.size = some (bigRange 4) := by
    decide
  have hSecond : findDesc (bigFile 4).descs secondAlloc.va secondAlloc.size = some (bigRange 4) := by
    decide
  simp only [List.mapM_cons, List.mapM_nil, allocJobs, hFirst, hSecond, rangeMetas_bigFile]
  simp [cutAlloc, cutChunks, takeUpTo, bigMeta, total, toJobs, mib, bigRange, List.replicate,
    RangeDesc.gpuOffset, dataStart, fileHeaderSize, rangeDescSize, firstAlloc, secondAlloc, bigJobs]

theorem restoreInit_big (staticImg : Option BaseFile) :
    restoreInit [firstAlloc, secondAlloc] (bigFile 4) none ⟨0, 0, [], fun _ => 0, 0⟩ staticImg true mib
      true = some (bigState staticImg) := by
  have hPool : poolInit (bigFile 4) [firstAlloc, secondAlloc] mib true = some bigJobs := by
    rw [poolInit, allocJobs_bigFile]
    rfl
  rw [restoreInit, hPool]
  rfl

def bigPlan : RingPlan where
  allocs := bigJobs
  plain := fun job => List.replicate job.byteSize 0
  newSize := fun idx => (([firstAlloc, secondAlloc][idx]?).map AllocEntry.size).getD 0
  ring := 3
  workers := 1
  chunkSize := mib
  plain_length := fun _ => List.length_replicate
  jobs_lt := by decide
  ring_ge := RingPlan.smallRing_ge
  ring_lt := RingPlan.smallRing_lt

def bigReplay (staticImg : Option BaseFile) : Replay where
  state := bigState staticImg
  plan := bigPlan
  started := ⟨_, _, _, _, _, _, _, _, restoreInit_big staticImg⟩
  ring := rfl
  chunk := rfl

/-- The first allocation, with its decryption failing. -/
def bigRun : List ReplayLabel :=
  [.call true, .thread (.worker 0 .fetch), .thread (.worker 0 .acquire),
    .thread (.worker 0 (.decrypt (some []))), .thread (.worker 0 .publish),
    .thread (.consumer 0 .check), .thread (.consumer 0 (.copy true)),
    .thread (.consumer 0 .release), .thread (.consumer 0 .check)]

theorem execute_unstarved_bigRun : ∃ s,
    execute (bigReplay none).step (bigReplay none).start bigRun = some s ∧
      Unstarved (bigReplay none) s := by
  refine ⟨_, rfl, execute_unstarved (bigReplay none) (by decide) (by decide) bigRun ?_ rfl⟩
  have hFrom : FromBase (bigState none) 0 mib := by
    intro e d hEntry _ hDesc
    cases hEntry
    cases (show findDesc (bigFile 4).descs firstAlloc.va firstAlloc.size = some (bigRange 4) by
      decide).symm.trans hDesc
    exact ⟨nofun, by decide, rfl⟩
  refine fun s _ => ⟨⟨by decide, hFrom⟩, along_threads _ ?_ s⟩
  intro label hLabel
  simp only [List.mem_cons, List.not_mem_nil, or_false] at hLabel
  rcases hLabel with rfl | rfl | rfl | rfl | rfl | rfl | rfl | rfl <;> exact ⟨_, rfl, by trivial⟩

/-- The static image covers the first allocation as well. Its job is planned, but its call
does not come for it, and the second allocation waits for ever. -/
theorem not_unstarved_coveredTwice : ∃ s,
    execute (bigReplay (some (bigFile 1))).step (bigReplay (some (bigFile 1))).start
        [.call true, .call true] = some s ∧
      ¬Unstarved (bigReplay (some (bigFile 1))) s ∧
      ∀ labels last, Along (bigReplay (some (bigFile 1))).step Counted s labels →
        execute (bigReplay (some (bigFile 1))).step s labels = some last →
          ¬∃ x, last.pool.consumers[1]? = some x ∧ x.stage = .done := by
  have hStatic : (bigReplay (some (bigFile 1))).routeOf 0 ≠ .ring := by decide
  refine ⟨_, rfl, fun h => ?_, fun labels last hCounted hRun => ?_⟩
  · exact absurd (h.consumed 0 ⟨Nat.zero_lt_two, fun hRing => absurd hRing hStatic⟩ 0 (by decide))
      List.not_mem_nil
  · have hNone : 0 < 2 ^ 32 := by decide
    have hOne : 1 < 2 ^ 32 := by decide
    exact execute_blocked (bigReplay (some (bigFile 1))) (by decide)
      (.call true :: .call true :: labels)
      (along_cons rfl hNone (along_cons rfl hOne hCounted)) hRun (k := 0) (i := 2)
      hStatic (by decide) (by decide) Nat.zero_lt_one (by decide)

end FlashCkpt.Restore
