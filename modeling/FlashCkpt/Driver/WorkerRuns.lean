import FlashCkpt.Driver.Workers

/-! `lm_mt_run_workers`. The run list is dealt out in slices, one to each worker; the caller
waits for all of them. Whatever the turns of workers and device are, each run is handed over as
its own submission, and nothing is copied outside the part of a run. -/
namespace FlashCkpt.Driver

open ByteImage Crypto Image PingPong Transition

/-- The thread count that the workers are started with: `LM_MT_DEFAULT_THREADS` for 0 and for
more than `LM_MT_MAX_THREADS`, and no more than there are runs. -/
def threadCount (numThreads nr : Nat) : Nat :=
  let n := if numThreads = 0 ∨ 16 < numThreads then 4 else numThreads
  if nr < n then max 1 nr else n

/-- What the calls of `lm_mt_run_workers` return, what lies in the slots of a new worker, and
the turns that are taken. -/
structure PoolEnv where
  mm : Bool
  workersAlloc : Bool
  spawned : Nat → Bool
  stale : Nat → Bool → Slot
  turns : List (Nat × Turn)

/-- A worker as it is started; where `kthread_run` fails it is over at once. -/
def Worker.spawn (env : PoolEnv) (nr count k : Nat) : Worker where
  sliceStart := Shares.start nr count k
  sliceCount := Shares.size nr count k
  cryptoMetaBase := Shares.start nr count k
  stage := if env.spawned k then .start else .ended
  slots := fun c => { env.stale k c with act := false }
  plainBuf := []
  status := if env.spawned k then .ok else .noMemory
  localNt := Shares.start nr count k
  numTransfers := 0
  pushes := []

def workerProgram (job : Job) : Components.Program Worker Turn Effect HandOver :=
  ⟨Worker.step job, Effect.apply⟩

/-- The first status that is not `NV_OK`. -/
def firstError : List Status → Status
  | [] => .ok
  | status :: rest => if status ≠ .ok then status else firstError rest

/-- There is no status while the caller still waits. `submissions` is what the device has been
given, slice by slice. -/
structure PoolResult where
  status : Option Status
  numTransfers : Nat
  handOver : HandOver
  submissions : List Submission

def poolStart (job : Job) (numThreads : Nat) (env : PoolEnv) (before : HandOver) :
    Components.State Worker HandOver :=
  let nr := job.transfers.length
  let count := threadCount numThreads nr
  ⟨(List.range count).map (Worker.spawn env nr count), before⟩

def poolResult (job : Job) (last : Components.State Worker HandOver) : PoolResult where
  status :=
    if last.parts.all (fun w => w.stage = .ended) then
      some (firstError (last.parts.map Worker.status))
    else none
  numTransfers :=
    if job.isCiphertext then (last.parts.map Worker.numTransfers).sum else job.transfers.length
  handOver := last.shared
  submissions := (last.parts.map Worker.pushes).flatten

/-- `lm_mt_run_workers`, as far as the turns lead. -/
def runWorkers (job : Job) (numThreads : Nat) (env : PoolEnv) (before : HandOver) :
    Option PoolResult :=
  if !env.mm then some ⟨some .other, 0, before, []⟩
  else if !env.workersAlloc then some ⟨some .noMemory, 0, before, []⟩
  else
    (execute (Components.next (workerProgram job)) (poolStart job numThreads env before)
      env.turns).map (poolResult job)

theorem threadCount_pos (numThreads nr : Nat) : 0 < threadCount numThreads nr := by
  simp only [threadCount]
  split <;> split <;> omega

theorem firstError_eq_ok {statuses : List Status} :
    firstError statuses = .ok ↔ ∀ status ∈ statuses, status = .ok := by
  induction statuses with
  | nil => simp [firstError]
  | cons status rest ih =>
      rw [firstError]
      split
      · rename_i hStatus
        exact iff_of_false hStatus fun h => hStatus (h status List.mem_cons_self)
      · rename_i hStatus
        rw [ih, List.forall_mem_cons]
        exact (and_iff_right (not_not.mp hStatus)).symm

section Transfers

theorem transfersFrom_getElem {runs : List (Run Nat)} {k r : Nat} {t : Transfer}
    (h : (transfersFrom k runs)[r]? = some t) :
    ∃ run, runs[r]? = some run ∧ t.source = run.first ∧ t.bytes = run.pages.length * pageSize ∧
      t.start = k + ((runs.take r).map fun run => run.pages.length).sum := by
  induction runs generalizing k r with
  | nil => cases h
  | cons run rest ih =>
      cases r with
      | zero =>
          cases h
          exact ⟨run, rfl, rfl, rfl, rfl⟩
      | succ r =>
          obtain ⟨run', hRun, hSource, hBytes, hStart⟩ := ih h
          refine ⟨run', hRun, hSource, hBytes, ?_⟩
          rw [hStart, List.take_succ_cons, List.map_cons, List.sum_cons, Nat.add_assoc]

@[simp] theorem transfersFrom_length (k : Nat) (runs : List (Run Nat)) :
    (transfersFrom k runs).length = runs.length := by
  induction runs generalizing k with
  | nil => rfl
  | cons run rest ih => rw [transfersFrom, List.length_cons, ih, List.length_cons]

/-- A run ends in the buffer before the later ones begin. -/
theorem transfersFrom_before {runs : List (Run Nat)} {k r r' : Nat} {t t' : Transfer} (hLt : r < r')
    (h : (transfersFrom k runs)[r]? = some t) (h' : (transfersFrom k runs)[r']? = some t') :
    t.offset + t.bytes ≤ t'.offset := by
  induction runs generalizing k r r' with
  | nil => cases h
  | cons run rest ih =>
      cases r' with
      | zero => exact absurd hLt (Nat.not_lt_zero r)
      | succ r' =>
          cases r with
          | zero =>
              cases h
              obtain ⟨-, -, -, -, hStart⟩ := transfersFrom_getElem (r := r') h'
              rw [Transfer.offset, Transfer.offset, hStart, ← Nat.add_mul]
              exact Nat.mul_le_mul_right _ (Nat.le_add_right _ _)
          | succ r => exact ih (Nat.lt_of_succ_lt_succ hLt) h h'

theorem apart_transfersFrom (runs : List (Run Nat)) (userGpuBuf isCiphertext : Bool) :
    (Job.mk (transfersFrom 0 runs) userGpuBuf isCiphertext).Apart := by
  intro r r' t t' hNe h h'
  rcases Nat.lt_or_gt_of_ne hNe with hLt | hGt
  · exact .inl (transfersFrom_before hLt h h')
  · exact .inr (transfersFrom_before hGt h' h)

end Transfers

/-- What holds of worker number `k` along every run. -/
structure Worker.Inv (job : Job) (count k : Nat) (w : Worker) (h : HandOver) : Prop where
  number : k < count
  sliceStart : w.sliceStart = Shares.start job.transfers.length count k
  sliceCount : w.sliceCount = Shares.size job.transfers.length count k
  good : w.status = .ok → w.Good job h
  quiet : w.status ≠ .ok → w.Quiet

section Pool

variable {job : Job} {numThreads : Nat} {env : PoolEnv} {before : HandOver}

theorem inv_keeps (hApart : job.Apart) (count : Nat) :
    Components.Keeps (workerProgram job) (Worker.Inv job count) := by
  constructor
  · intro k w h turn w' e hInv hStep
    have hTook := Worker.took_of_step job w hStep
    obtain ⟨hStart, hCount⟩ := hTook.slice
    by_cases hOk : w.status = .ok
    · obtain ⟨hGood, hQuiet, -⟩ := hTook.leads hApart (hInv.good hOk) hOk
      exact ⟨hInv.number, hStart.trans hInv.sliceStart, hCount.trans hInv.sliceCount, hGood, hQuiet⟩
    · obtain ⟨hNot, hQuiet, -⟩ := hTook.quiet hOk (hInv.quiet hOk)
      exact ⟨hInv.number, hStart.trans hInv.sliceStart, hCount.trans hInv.sliceCount,
        fun hOk => absurd hOk hNot, fun _ => hQuiet⟩
  · intro k k' w other h turn other' e hNe hInv hOther hStep
    have hTook := Worker.took_of_step job other hStep
    by_cases hOk : other.status = .ok
    · obtain ⟨-, -, hWithin⟩ := hTook.leads hApart (hOther.good hOk) hOk
      refine ⟨hInv.number, hInv.sliceStart, hInv.sliceCount, fun hFine => ?_, hInv.quiet⟩
      apply (hInv.good hFine).apply hApart hWithin
      rintro r ⟨hLow, hHigh⟩ ⟨hLow', hHigh'⟩
      rw [hInv.sliceStart] at hLow hHigh
      rw [hOther.sliceStart] at hLow' hHigh'
      rw [hInv.sliceCount] at hHigh
      rw [hOther.sliceCount] at hHigh'
      rcases Nat.lt_or_gt_of_ne hNe with hLt | hGt
      · have := Shares.start_add_size_le job.transfers.length count hLt
        omega
      · have := Shares.start_add_size_le job.transfers.length count hGt
        omega
    · obtain ⟨-, -, rfl⟩ := hTook.quiet hOk (hOther.quiet hOk)
      exact hInv

theorem inv_poolStart : (poolStart job numThreads env before).Holds
    (Worker.Inv job (threadCount numThreads job.transfers.length)) := by
  intro k w hw
  rw [poolStart] at hw ⊢
  dsimp only at hw ⊢
  obtain ⟨i, hi, rfl⟩ := Option.map_eq_some_iff.mp (List.getElem?_map ▸ hw)
  obtain ⟨hLt, rfl⟩ := List.getElem?_eq_some_iff.mp hi
  rw [List.getElem_range]
  rw [List.length_range] at hLt
  refine ⟨hLt, rfl, rfl, fun hOk => ⟨core_nil job before (fun _ => rfl) rfl, ?_⟩, fun hNot => ?_⟩
  · rw [Worker.spawn] at hOk ⊢
    dsimp only at hOk ⊢
    split
    · exact ⟨rfl, fun _ => rfl⟩
    · rename_i hSpawned
      rw [if_neg hSpawned] at hOk
      cases hOk
  · rw [Worker.spawn] at hNot
    dsimp only at hNot
    split at hNot
    · exact absurd rfl hNot
    · rename_i hSpawned
      exact .inr (if_neg hSpawned)

/-- Each run is submitted once and handed over as its own submission. -/
structure PoolResult.Complete (job : Job) (result : PoolResult) : Prop where
  numTransfers : result.numTransfers = job.transfers.length
  submitted : result.submissions.length = job.transfers.length
  delivered : ∀ (r : Nat) (t : Transfer), job.transfers[r]? = some t →
    ∃ sub, result.submissions[r]? = some sub ∧ sub.source = t.source ∧ sub.bytes = t.bytes ∧
      Delivered job result.handOver r t sub

/-- What a worker that ended without an error has handed over. -/
theorem Worker.Good.ended {w : Worker} {h : HandOver} (hGood : w.Good job h)
    (hStage : w.stage = .ended) : w.pushes.length = w.sliceCount ∧
      (job.isCiphertext = true → w.numTransfers = w.sliceCount) ∧
      ∀ (j : Nat) (sub : Submission), w.pushes[j]? = some sub →
        ∃ t, job.transfers[w.sliceStart + j]? = some t ∧ sub.Of t (lane j) ∧
          Delivered job h (w.sliceStart + j) t sub := by
  obtain ⟨hCore, hAt⟩ := hGood
  rw [hStage] at hAt
  obtain ⟨hLength, hFree⟩ := hAt
  refine ⟨hLength, fun hMode => (hCore.counted hMode).2.trans hLength, fun j sub hSub => ?_⟩
  obtain ⟨t, hRun, hOf⟩ := hCore.pushed j sub hSub
  refine ⟨t, hRun, hOf, (hCore.settled j sub t hSub hRun).resolve_left fun hLies => ?_⟩
  rw [hFree] at hLies
  cases hLies.1

theorem runWorkers_eq_some {result : PoolResult}
    (h : runWorkers job numThreads env before = some result) :
    (result.status ≠ some .ok ∧ result.handOver = before) ∨
    ∃ last, execute (Components.next (workerProgram job)) (poolStart job numThreads env before)
        env.turns = some last ∧ result = poolResult job last := by
  rw [runWorkers] at h
  split at h
  · cases h
    exact .inl ⟨nofun, rfl⟩
  · split at h
    · cases h
      exact .inl ⟨nofun, rfl⟩
    · obtain ⟨last, hRun, rfl⟩ := Option.map_eq_some_iff.mp h
      exact .inr ⟨last, hRun, rfl⟩

theorem poolResult_ok {last : Components.State Worker HandOver}
    (h : (poolResult job last).status = some .ok) :
    ∀ w ∈ last.parts, w.stage = .ended ∧ w.status = .ok := by
  rw [poolResult] at h
  dsimp only at h
  split at h
  · rename_i hEnded
    intro w hw
    refine ⟨of_decide_eq_true (List.all_eq_true.mp hEnded w hw), ?_⟩
    exact firstError_eq_ok.mp (Option.some.inj h) w.status (List.mem_map_of_mem hw)
  · cases h

theorem poolStart_length : (poolStart job numThreads env before).parts.length =
    threadCount numThreads job.transfers.length := by
  simp [poolStart]

/-- Where workers with slices of the whole list have all ended without an error, each run has
been handed over. -/
theorem complete_of_holds {count : Nat} (hPos : 0 < count) {last : Components.State Worker HandOver}
    (hParts : last.parts.length = count) (hHolds : last.Holds (Worker.Inv job count))
    (hOk : (poolResult job last).status = some .ok) : (poolResult job last).Complete job := by
  have hWorker : ∀ (k : Nat) (w : Worker), last.parts[k]? = some w →
      w.sliceStart = Shares.start job.transfers.length count k ∧ w.sliceCount = Shares.size job.transfers.length count k ∧
        w.Good job last.shared ∧ w.stage = .ended := by
    intro k w hw
    have hInv := hHolds k w hw
    obtain ⟨hEnded, hStatus⟩ := poolResult_ok hOk w (List.mem_of_getElem? hw)
    exact ⟨hInv.sliceStart, hInv.sliceCount, hInv.good hStatus, hEnded⟩
  have hSizes : ∀ (k : Nat) (pushes : List Submission),
      (last.parts.map Worker.pushes)[k]? = some pushes →
        pushes.length = Shares.size job.transfers.length count k := by
    intro k pushes hPushes
    obtain ⟨w, hw, rfl⟩ := Option.map_eq_some_iff.mp (List.getElem?_map ▸ hPushes)
    obtain ⟨-, hCount, hGood, hStage⟩ := hWorker k w hw
    exact (hGood.ended hStage).1.trans hCount
  have hLength : ((last.parts.map Worker.pushes).flatten).length = job.transfers.length := by
    have hAll := Shares.flatten_take_length hSizes (Nat.le_refl _)
    rw [List.take_length, List.length_map, hParts, Shares.start_count job.transfers.length hPos] at hAll
    exact hAll
  refine ⟨?_, hLength, fun r t hr => ?_⟩
  · rw [poolResult]
    dsimp only
    split
    · rename_i hMode
      rw [← hLength, List.length_flatten, List.map_map]
      congr 1
      apply List.map_congr_left
      intro w hw
      obtain ⟨k, hk⟩ := List.getElem?_of_mem hw
      obtain ⟨-, -, hGood, hStage⟩ := hWorker k w hk
      obtain ⟨hPushes, hNum, -⟩ := hGood.ended hStage
      exact (hNum hMode).trans hPushes.symm
    · rfl
  · obtain ⟨hLt, -⟩ := List.getElem?_eq_some_iff.mp hr
    obtain ⟨k, hk, hLow, hHigh⟩ := Shares.exists_share hPos hLt
    obtain ⟨w, hw⟩ : ∃ w, last.parts[k]? = some w :=
      ⟨_, List.getElem?_eq_getElem (hParts ▸ hk)⟩
    obtain ⟨hStart, hCount, hGood, hStage⟩ := hWorker k w hw
    obtain ⟨hPushes, -, hDelivered⟩ := hGood.ended hStage
    obtain ⟨j, rfl⟩ := Nat.exists_eq_add_of_le hLow
    have hj : j < w.pushes.length := by omega
    have hSub := List.getElem?_eq_getElem hj
    obtain ⟨t', hRun', hOf, hDone⟩ := hDelivered j _ hSub
    rw [hStart] at hRun' hDone
    cases hr.symm.trans hRun'
    have hPart : (last.parts.map Worker.pushes)[k]? = some w.pushes := by
      rw [List.getElem?_map, hw]
      rfl
    have hIndex := (Shares.getElem?_flatten hSizes hPart hj).trans hSub
    exact ⟨_, hIndex, hOf.source, hOf.bytes, hDone⟩

theorem runWorkers_complete (hApart : job.Apart) {result : PoolResult}
    (h : runWorkers job numThreads env before = some result) (hOk : result.status = some .ok) :
    result.Complete job := by
  rcases runWorkers_eq_some h with ⟨hNot, -⟩ | ⟨last, hRun, rfl⟩
  · exact absurd hOk hNot
  · apply complete_of_holds (threadCount_pos numThreads job.transfers.length) ?_ ?_ hOk
    · exact (Components.parts_length env.turns hRun).trans poolStart_length
    · exact (inv_keeps hApart _).execute env.turns inv_poolStart hRun

/-- At any time, and also where a worker fails, copies are made to the parts of the runs only. -/
theorem runWorkers_within (hApart : job.Apart) {result : PoolResult}
    (h : runWorkers job numThreads env before = some result) {v : Write}
    (hv : v ∈ result.handOver.writes) : v ∈ before.writes ∨
      (job.userGpuBuf = true ∧ ∃ t ∈ job.transfers, v.off = t.offset ∧
        v.bytes.length ≤ t.bytes) := by
  rcases runWorkers_eq_some h with ⟨-, hBefore⟩ | ⟨last, hRun, rfl⟩
  · exact .inl (hBefore ▸ hv)
  have hKeeps := inv_keeps hApart (threadCount numThreads job.transfers.length)
  refine hKeeps.shared (P := fun h => ∀ v ∈ h.writes, v ∈ before.writes ∨
    (job.userGpuBuf = true ∧ ∃ t ∈ job.transfers, v.off = t.offset ∧
      v.bytes.length ≤ t.bytes)) ?_ env.turns inv_poolStart (fun v hv => .inl hv) hRun v hv
  intro k w h turn w' e hInv hStep hBefore v hv
  have hTook := Worker.took_of_step job w hStep
  have hWithin : ∃ own, e.Within job own := by
    by_cases hOk : w.status = .ok
    · exact ⟨_, (hTook.leads hApart (hInv.good hOk) hOk).within⟩
    · obtain ⟨-, -, rfl⟩ := hTook.quiet hOk (hInv.quiet hOk)
      exact ⟨fun _ => True, trivial⟩
  obtain ⟨own, hWithin⟩ := hWithin
  cases e with
  | none => exact hBefore v hv
  | store ti entry => exact hBefore v hv
  | copy v' =>
      rcases List.mem_append.mp hv with hOld | hNew
      · exact hBefore v hOld
      · rw [List.mem_singleton.mp hNew]
        obtain ⟨hBuf, r, t, -, hRun, hPart⟩ := hWithin
        exact .inr ⟨hBuf, t, List.mem_of_getElem? hRun, hPart⟩

end Pool

namespace Worker

/-- The slots with a submission. -/
def actives (w : Worker) : Nat :=
  (if (w.slots false).act then 1 else 0) + if (w.slots true).act then 1 else 0

/-- The submissions that the device has not ended. -/
def unfinished (w : Worker) : Nat := w.pushes.countP fun sub => sub.result.isNone

/-- How far a worker is from its end at most, if nothing fails. -/
def weight (w : Worker) : Nat :=
  w.unfinished + match w.stage with
    | .start => 4 * w.sliceCount + 9
    | .wait i => 4 * (w.sliceCount - i) + 8
    | .copy i => 4 * (w.sliceCount - i) + 7
    | .submit i => 4 * (w.sliceCount - i) + 6
    | .drainWait _ => 2 * w.actives
    | .drainCopy _ => 2 * w.actives - 1
    | .ended => 0

variable {job : Job} {h : HandOver} {w : Worker}

theorem actives_le (w : Worker) : w.actives ≤ 2 := by
  rw [actives]
  split <;> split <;> omega

theorem actives_release {c : Bool} (hAct : (w.slots c).act = true) :
    (w.release c).actives + 1 = w.actives := by
  cases c with
  | false => simp [actives, release, hAct]; omega
  | true => simp [actives, release, hAct]

theorem weight_drain (w : Worker) : w.drain.weight ≤ w.unfinished + 2 * w.actives := by
  have hStage : ∀ stage, w.drain.stage = stage → (∃ c, stage = .drainWait c) ∨ stage = .ended :=
    fun _ hStage => hStage ▸ quiet_drain
  rw [weight]
  rcases hStage _ rfl with ⟨c, hc⟩ | hEnded
  · rw [hc]
    exact Nat.le_refl _
  · rw [hEnded]
    exact Nat.le_add_right _ _

theorem weight_iterate (w : Worker) (i : Nat) :
    (w.iterate i).weight ≤ w.unfinished + (4 * (w.sliceCount - i) + 8) := by
  rw [iterate]
  split
  · rw [weight]
    dsimp only
    apply Nat.add_le_add_left
    cases (w.slots (lane i)).act with
    | true => exact Nat.le_refl _
    | false => exact Nat.add_le_add_left (show 6 ≤ 8 by decide) _
  · have hDrain := weight_drain w
    have hActives := actives_le w
    omega

/-- The device can end what a slot waits for, or has done so. -/
theorem exists_end (hGood : w.Good job h) {c : Bool} (hAct : (w.slots c).act = true) :
    (∃ turn w', w.step job turn = some (w', .none) ∧ w'.status = w.status ∧ w'.weight < w.weight) ∨
      w.mayReturn c .ok .ok (List.replicate (w.slots c).rb 0) = true := by
  obtain ⟨-, -, t, sub, hSub, -⟩ := hGood.core.loaded c hAct
  cases hResult : sub.result with
  | some result =>
      right
      simp [mayReturn, hSub, hResult]
  | none =>
      left
      obtain ⟨hLt, hSame⟩ := List.getElem?_eq_some_iff.mp hSub
      have hEnds : w.deviceEnds (w.slots c).push (List.replicate sub.bytes 0) [] = some { w with
          pushes := w.pushes.set (w.slots c).push
            { sub with result := some (List.replicate sub.bytes 0, []) }
          slots := Function.update w.slots sub.slot
            ((w.slots sub.slot).fill (List.replicate sub.bytes 0) []) } := by
        rw [deviceEnds, hSub]
        exact if_pos ⟨hResult, List.length_replicate⟩
      have hStep : w.step job (.device (w.slots c).push (List.replicate sub.bytes 0) []) =
          some (_, .none) := congrArg (Option.map fun w' => (w', Effect.none)) hEnds
      refine ⟨_, _, hStep, rfl, ?_⟩
      have hOpen : 0 < w.pushes.countP fun sub => sub.result.isNone :=
        List.countP_pos_iff.mpr ⟨sub, List.mem_of_getElem? hSub, by rw [hResult]; rfl⟩
      simp only [weight, unfinished, actives, update_fill_act, List.countP_set hLt, hSame, hResult,
        Option.isNone_none, Option.isNone_some, if_true]
      apply Nat.add_lt_add_right
      simp only [Bool.false_eq_true, if_false]
      omega

/-- A received submission, if the slot's wait returns. -/
theorem receive_ok (job : Job) (w : Worker) (c : Bool) :
    ∃ plainBuf e, w.receive job c .ok (List.replicate (w.slots c).rb 0) =
      ({ w with plainBuf := plainBuf }, e) := by
  rw [receive]
  split
  · exact ⟨_, _, rfl⟩
  · exact ⟨_, _, rfl⟩

theorem copyFails_all (job : Job) (w : Worker) (c : Bool) :
    w.copyFails job c (w.slots c).rb = false := by
  rw [copyFails, decide_eq_false (Nat.lt_irrefl _), Bool.and_false]

/-- A worker that has not failed and is not over has a turn that brings it nearer to its end. -/
theorem exists_turn (hGood : w.Good job h) (hOk : w.status = .ok) (hNot : w.stage ≠ .ended)
    (hRuns : w.sliceStart + w.sliceCount ≤ job.transfers.length) :
    ∃ turn w' e, w.step job turn = some (w', e) ∧ w'.status = .ok ∧ w'.weight < w.weight := by
  have hAt := hGood.stage
  cases hStage : w.stage with
  | start =>
      refine ⟨.alloc true .ok .ok, w.iterate 0, .none, ?_, ?_, ?_⟩
      · simp [step, hStage, allocate]
      · rw [iterate_status, hOk]
      · have hWeight := weight_iterate w 0
        have hHere : w.weight = w.unfinished + (4 * w.sliceCount + 9) := by rw [weight, hStage]
        omega
  | wait i =>
      rw [hStage] at hAt
      rcases exists_end hGood hAt.2.2 with ⟨turn, w', hStep, hStatus, hLess⟩ | hReturns
      · exact ⟨turn, w', .none, hStep, hStatus.trans hOk, hLess⟩
      · obtain ⟨plainBuf, e, hReceive⟩ := receive_ok job w (lane i)
        refine ⟨.wait .ok .ok (List.replicate (w.slots (lane i)).rb 0),
          { w with plainBuf := plainBuf, stage := .copy i }, e, ?_, hOk, ?_⟩
        · simp [step, hStage, hReturns, waitTurn, hReceive, hOk]
        · simp only [weight, hStage, unfinished]
          omega
  | copy i =>
      refine ⟨.copy (w.slots (lane i)).rb, { w.release (lane i) with stage := .submit i },
        w.copyOut job (lane i) (w.slots (lane i)).rb, ?_, hOk, ?_⟩
      · simp [step, hStage, copyFails_all]
      · simp only [weight, hStage, unfinished, release]
        omega
  | submit i =>
      rw [hStage] at hAt
      obtain ⟨hLength, hLt, -⟩ := hAt
      have hRun := List.getElem?_eq_getElem
        (show w.sliceStart + i < job.transfers.length by omega)
      refine ⟨.submit .ok [] 0 0, (w.push job (lane i) job.transfers[w.sliceStart + i] [] 0 0).iterate
        (i + 1), .none, ?_, ?_, ?_⟩
      · simp [step, hStage, hRun]
      · rw [iterate_status]
        exact hOk
      · have hWeight := weight_iterate (w.push job (lane i) job.transfers[w.sliceStart + i] [] 0 0) (i + 1)
        have hMore : (w.push job (lane i) job.transfers[w.sliceStart + i] [] 0 0).unfinished =
            w.unfinished + 1 := by
          simp [unfinished, push, List.countP_append]
        have hSlice : (w.push job (lane i) job.transfers[w.sliceStart + i] [] 0 0).sliceCount =
            w.sliceCount := rfl
        rw [hMore, hSlice] at hWeight
        have hHere : w.weight = w.unfinished + (4 * (w.sliceCount - i) + 6) := by
          rw [weight, hStage]
        omega
  | drainWait c =>
      rw [hStage] at hAt
      rcases exists_end hGood hAt.2 with ⟨turn, w', hStep, hStatus, hLess⟩ | hReturns
      · exact ⟨turn, w', .none, hStep, hStatus.trans hOk, hLess⟩
      · obtain ⟨plainBuf, e, hReceive⟩ := receive_ok job w c
        refine ⟨.wait .ok .ok (List.replicate (w.slots c).rb 0),
          { w with plainBuf := plainBuf, stage := .drainCopy c }, e, ?_, hOk, ?_⟩
        · simp [step, hStage, hReturns, drainTurn, hReceive, hOk]
        · have hOne := actives_release hAt.2
          simp only [weight, hStage, unfinished]
          have hSame : ({ w with plainBuf := plainBuf, stage := .drainCopy c } : Worker).actives =
            w.actives := rfl
          omega
  | drainCopy c =>
      rw [hStage] at hAt
      refine ⟨.copy (w.slots c).rb, (w.release c).drain, w.copyOut job c (w.slots c).rb, ?_, hOk, ?_⟩
      · simp only [step, hStage, copyFails_all, Bool.false_eq_true, if_false]
        rfl
      · have hWeight := weight_drain (w.release c)
        have hOne := actives_release hAt.2.1
        have hSame : (w.release c).unfinished = w.unfinished := rfl
        have hHere : w.weight = w.unfinished + (2 * w.actives - 1) := by rw [weight, hStage]
        omega
  | ended => exact absurd hStage hNot

end Worker

/-- Nothing fails, and the workers take these turns. -/
def calmPool (turns : List (Nat × Turn)) : PoolEnv where
  mm := true
  workersAlloc := true
  spawned := fun _ => true
  stale := fun _ _ => ⟨false, 0, 0, 0, 0, [], 0, 0, [], []⟩
  turns := turns

/-- There are turns with which nothing fails. -/
theorem exists_calmPool {job : Job} (hApart : job.Apart) (numThreads : Nat) (before : HandOver) :
    ∃ turns result, runWorkers job numThreads (calmPool turns) before = some result ∧
      result.status = some .ok := by
  have hPos := threadCount_pos numThreads job.transfers.length
  have hFine : ∀ w ∈ (poolStart job numThreads (calmPool []) before).parts, w.status = .ok := by
    intro w hw
    obtain ⟨k, -, rfl⟩ := List.mem_map.mp hw
    rfl
  have hTurn : ∀ (k : Nat) (w : Worker) (h : HandOver),
      Worker.Inv job (threadCount numThreads job.transfers.length) k w h → w.status = .ok →
        ¬w.stage = .ended → ∃ turn w' e, w.step job turn = some (w', e) ∧ w'.status = .ok ∧
          w'.weight < w.weight := by
    intro k w h hInv hOk hNot
    have hLast := Shares.start_mono job.transfers.length (threadCount numThreads job.transfers.length)
      hInv.number
    rw [Shares.start_count _ hPos] at hLast
    apply Worker.exists_turn (hInv.good hOk) hOk hNot
    rw [hInv.sliceStart, hInv.sliceCount]
    exact hLast
  have hStart : (poolStart job numThreads (calmPool []) before).Holds
      (Worker.Inv job (threadCount numThreads job.transfers.length)) := inv_poolStart
  obtain ⟨turns, last, hRun, -, hEnd⟩ :=
    (inv_keeps hApart _).exists_run Worker.weight hTurn hStart hFine
  refine ⟨turns, poolResult job last, ?_, ?_⟩
  · have hSame : execute (Components.next (workerProgram job))
        (poolStart job numThreads (calmPool turns) before) (calmPool turns).turns = some last := hRun
    rw [runWorkers, hSame]
    rfl
  · have hAll : last.parts.all (fun w => w.stage = .ended) = true :=
      List.all_eq_true.mpr fun w hw => decide_eq_true (hEnd w hw).2
    rw [poolResult]
    dsimp only
    rw [if_pos hAll, Option.some.injEq, firstError_eq_ok]
    intro status hStatus
    obtain ⟨w, hw, rfl⟩ := List.mem_map.mp hStatus
    exact (hEnd w hw).1

end FlashCkpt.Driver
