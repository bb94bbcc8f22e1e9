import FlashCkpt.Restore.RingInvariant

/-! The turns of the restore ring keep its invariant, one by one. -/
namespace FlashCkpt.Restore

open ByteImage TicketRing Transition

variable {plan : RingPlan} {dispatched dispatched' : Nat} {woken : Option Nat}
variable {s s' : RingState} {pool : Pool}

/-- A list with one element replaced has that element, and the others it had. -/
theorem getElem?_set_cases {α : Type} {l : List α} {i k : Nat} {x y : α}
    (h : (l.set i x)[k]? = some y) : k = i ∧ y = x ∨ k ≠ i ∧ l[k]? = some y := by
  by_cases hSame : k = i
  · subst hSame
    have hLess := (List.getElem?_eq_some_iff.mp h).1
    rw [List.length_set] at hLess
    rw [List.getElem?_set_self hLess] at h
    exact .inl ⟨rfl, (Option.some.inj h).symm⟩
  · rw [List.getElem?_set_ne (Ne.symm hSame)] at h
    exact .inr ⟨hSame, h⟩

theorem mem_set_of_ne {α : Type} {l : List α} {i : Nat} {x y z : α} (hi : l[i]? = some x)
    (hMem : y ∈ l) (hNe : y ≠ x) : y ∈ l.set i z := by
  obtain ⟨k, hk⟩ := List.getElem?_of_mem hMem
  have hOther : i ≠ k := by
    rintro rfl
    exact hNe (Option.some.inj (hk.symm.trans hi))
  exact List.mem_of_getElem? ((List.getElem?_set_ne hOther).trans hk)

theorem nodup_concat {α : Type} {l : List α} {x : α} (h : l.Nodup) (hNew : x ∉ l) :
    (l ++ [x]).Nodup := by
  rw [List.nodup_append]
  refine ⟨h, List.nodup_cons.mpr ⟨List.not_mem_nil, List.nodup_nil⟩, ?_⟩
  rintro y hy z hz rfl
  exact hNew (List.mem_singleton.mp hz ▸ hy)

/-- A worker inside the slot of a job. -/
def Worker.At (w : Worker) (j : Nat) : Prop := w = .decrypt j ∨ w = .publish j

theorem Worker.At.job {w : Worker} {j : Nat} (h : w.At j) : w.job = some j := by
  rcases h with rfl | rfl <;> rfl

theorem WorkerOk.taken {w : Worker} {j : Nat} (h : WorkerOk plan dispatched woken s w)
    (hJob : w.job = some j) : j < dispatched ∧ j < plan.jobs.length := by
  cases w with
  | fetch | exited => cases hJob
  | wait i asleep | decrypt i | publish i =>
      cases hJob
      exact ⟨h.1, h.2.1⟩

/-- What has to be shown of a turn of a worker: the other workers, the consumers and
the slots bear the change, and no job is lost. -/
theorem Inv.setWorker (h : Inv plan dispatched none pool) {t : Nat} {w w' : Worker}
    (ht : pool.workers[t]? = some w)
    (hCounter : s'.nextDispatch = dispatched' % 2 ^ 32)
    (hBound : dispatched' ≤ plan.jobs.length + (pool.workers.set t w').countP (· = .exited))
    (hSlots : ∀ i < plan.ring, SlotOk plan s' i) (hJobs : JobsOk plan dispatched' s')
    (hOwn : WorkerOk plan dispatched' woken s' w')
    (hJob : ∀ j, w'.job = some j → w.job = some j ∨ dispatched ≤ j)
    (hOthers : ∀ v, WorkerOk plan dispatched none pool.shared v →
      (∀ j, w.job = some j → v.job ≠ some j) → WorkerOk plan dispatched' woken s' v)
    (hConsumers : ∀ c x, ConsumerOk plan none pool.shared c x → ConsumerOk plan woken s' c x)
    (hAssigned : ∀ i < plan.ring, (s'.slots i).state = .assigned →
      w'.At (turn plan.ring s'.consumed i) ∨ (pool.shared.slots i).state = .assigned ∧
        turn plan.ring s'.consumed i = turn plan.ring pool.shared.consumed i ∧
        ¬w.At (turn plan.ring pool.shared.consumed i))
    (hPending : s'.stop = false → pool.shared.stop = false ∧ ∀ j < plan.jobs.length,
      j < dispatched' → j ∉ s'.consumed →
        w'.job = some j ∨ ((slotOf plan s' j).state = .ready ∧ turnOf plan s' j = j) ∨
          j < dispatched ∧ j ∉ pool.shared.consumed ∧ w.job ≠ some j ∧
            ¬((slotOf plan pool.shared j).state = .ready ∧ turnOf plan pool.shared j = j))
    (hInside : s'.overran = false) :
    Inv plan dispatched' woken { pool with shared := s', workers := pool.workers.set t w' } where
  counter := hCounter
  bound := hBound
  workerCount := List.length_set.trans h.workerCount
  consumerCount := h.consumerCount
  slots := hSlots
  jobs := hJobs
  workers := by
    intro i v hv
    rcases getElem?_set_cases hv with ⟨rfl, rfl⟩ | ⟨hNe, hOld⟩
    · exact hOwn
    · exact hOthers v (h.workers i v hOld) fun j hHeld hSame =>
        hNe (h.unique i t v w j hOld ht hSame hHeld)
  unique := by
    have hApart : ∀ (i : Nat) v j, i ≠ t → pool.workers[i]? = some v → v.job = some j →
        w'.job ≠ some j := by
      intro i v j hNe hv hHeld hSame
      rcases hJob j hSame with hOld | hNew
      · exact hNe (h.unique i t v w j hv ht hHeld hOld)
      · exact absurd ((h.workers i v hv).taken hHeld).1 (not_lt.mpr hNew)
    intro i i' v v' j hv hv' hHeld hHeld'
    rcases getElem?_set_cases hv with ⟨rfl, rfl⟩ | ⟨hNe, hOld⟩
    · rcases getElem?_set_cases hv' with ⟨rfl, -⟩ | ⟨hNe', hOld'⟩
      · rfl
      · exact absurd hHeld (hApart i' v' j hNe' hOld' hHeld')
    · rcases getElem?_set_cases hv' with ⟨rfl, rfl⟩ | ⟨hNe', hOld'⟩
      · exact absurd hHeld' (hApart i v j hNe hOld hHeld)
      · exact h.unique i i' v v' j hOld hOld' hHeld hHeld'
  consumers := fun c x hx => hConsumers c x (h.consumers c x hx)
  assigned := by
    intro i hi hState
    have hSelf : w' ∈ pool.workers.set t w' :=
      List.mem_set (List.getElem?_eq_some_iff.mp ht).1 w'
    rcases hAssigned i hi hState with hOwn | ⟨hOld, hTurn, hNot⟩
    · exact ⟨w', hSelf, hOwn⟩
    · obtain ⟨v, hv, hAt⟩ := h.assigned i hi hOld
      have hOther : v ≠ w := by
        rintro rfl
        exact hNot hAt
      refine ⟨v, mem_set_of_ne ht hv hOther, ?_⟩
      rw [hTurn]
      exact hAt
  pending := by
    intro hStop j hj hTaken hConsumed
    obtain ⟨hGoing, hJobs⟩ := hPending hStop
    have hSelf : w' ∈ pool.workers.set t w' :=
      List.mem_set (List.getElem?_eq_some_iff.mp ht).1 w'
    rcases hJobs j hj hTaken hConsumed with hOwn | hReady | ⟨hOld, hBefore, hNotOwn, hNotReady⟩
    · exact .inl ⟨w', hSelf, hOwn⟩
    · exact .inr hReady
    · rcases h.pending hGoing j hj hOld hBefore with ⟨v, hv, hHeld⟩ | hReady
      · refine .inl ⟨v, mem_set_of_ne ht hv ?_, hHeld⟩
        rintro rfl
        exact hNotOwn hHeld
      · exact absurd hReady hNotReady
  inside := hInside

/-- The same of a turn of a consumer. -/
theorem Inv.setConsumer (h : Inv plan dispatched none pool) {c : Nat} {x x' : Consumer}
    (hc : pool.consumers[c]? = some x) (hCounter : s'.nextDispatch = pool.shared.nextDispatch)
    (hSlots : ∀ i < plan.ring, SlotOk plan s' i) (hJobs : JobsOk plan dispatched s')
    (hOwn : ConsumerOk plan woken s' c x')
    (hOthers : ∀ c' y, c' ≠ c → ConsumerOk plan none pool.shared c' y → ConsumerOk plan woken s' c' y)
    (hWorkers : ∀ v, WorkerOk plan dispatched none pool.shared v →
      WorkerOk plan dispatched woken s' v)
    (hAssigned : ∀ i < plan.ring, (s'.slots i).state = .assigned →
      (pool.shared.slots i).state = .assigned ∧
        turn plan.ring s'.consumed i = turn plan.ring pool.shared.consumed i)
    (hStop : s'.stop = pool.shared.stop)
    (hPending : ∀ j, j ∉ s'.consumed → j ∉ pool.shared.consumed ∧
      ((slotOf plan pool.shared j).state = .ready ∧ turnOf plan pool.shared j = j →
        (slotOf plan s' j).state = .ready ∧ turnOf plan s' j = j))
    (hInside : s'.overran = pool.shared.overran) :
    Inv plan dispatched woken
      { pool with shared := s', consumers := pool.consumers.set c x' } where
  counter := hCounter.trans h.counter
  bound := h.bound
  workerCount := h.workerCount
  consumerCount := List.length_set.trans h.consumerCount
  slots := hSlots
  jobs := hJobs
  workers := fun t v hv => hWorkers v (h.workers t v hv)
  unique := h.unique
  consumers := by
    intro c' y hy
    rcases getElem?_set_cases hy with ⟨rfl, rfl⟩ | ⟨hNe, hOld⟩
    · exact hOwn
    · exact hOthers c' y hNe (h.consumers c' y hOld)
  assigned := by
    intro i hi hState
    obtain ⟨hOld, hTurn⟩ := hAssigned i hi hState
    rw [hTurn]
    exact h.assigned i hi hOld
  pending := by
    intro hGoing j hj hTaken hConsumed
    obtain ⟨hBefore, hReady⟩ := hPending j hConsumed
    rcases h.pending (hStop.symm.trans hGoing) j hj hTaken hBefore with hHeld | hOld
    · exact .inl hHeld
    · exact .inr (hReady hOld)
  inside := hInside.trans h.inside

section Frames

theorem slotOf_setSlot_self {i j : Nat} (h : j % plan.ring = i) (slot : Slot) :
    slotOf plan (s.setSlot i slot) j = slot := by
  rw [slotOf, h]
  exact Function.update_self i slot s.slots

theorem slotOf_setSlot_ne {i j : Nat} (h : j % plan.ring ≠ i) (slot : Slot) :
    slotOf plan (s.setSlot i slot) j = slotOf plan s j := by
  simp only [slotOf, RingState.setSlot, Function.update_of_ne h]

/-- What a change of one slot leaves to a worker that is not in the slot. -/
theorem WorkerOk.frame {i : Nat} {w : Worker} (h : WorkerOk plan dispatched none s w)
    (hLater : dispatched ≤ dispatched')
    (hSlots : ∀ j, j % plan.ring ≠ i → slotOf plan s' j = slotOf plan s j)
    (hTurns : ∀ j, j % plan.ring ≠ i → turnOf plan s' j = turnOf plan s j)
    (hConsumed : ∀ j, j ∉ s.decrypted → j ∉ s.consumed → j ∉ s'.consumed)
    (hDecrypted : ∀ j, w.job = some j → (j ∈ s'.decrypted ↔ j ∈ s.decrypted))
    (hBusy : ∀ j, w.At j → j % plan.ring = i → (slotOf plan s j).state = .assigned →
      turnOf plan s j = j → False)
    (hAsleep : ∀ j, w.job = some j → j % plan.ring = i → some i ≠ woken →
      ¬((slotOf plan s' j).state = .free ∧ (slotOf plan s' j).nextSeq = j)) :
    WorkerOk plan dispatched' woken s' w := by
  cases w with
  | fetch | exited => trivial
  | wait j asleep =>
      obtain ⟨hTaken, hLess, hPending, hCipher, hStill⟩ := h
      refine ⟨hTaken.trans_le hLater, hLess, hConsumed j hCipher hPending,
        mt (hDecrypted j rfl).mp hCipher, fun hSleeps hWoken => ?_⟩
      by_cases hSlot : j % plan.ring = i
      · exact hAsleep j rfl hSlot (hSlot ▸ hWoken)
      · rw [hSlots j hSlot]
        exact hStill hSleeps nofun
  | decrypt j =>
      obtain ⟨hTaken, hLess, hState, hTurn, hCipher⟩ := h
      have hSlot : j % plan.ring ≠ i := fun hSlot => hBusy j (.inl rfl) hSlot hState hTurn
      exact ⟨hTaken.trans_le hLater, hLess, (congrArg Slot.state (hSlots j hSlot)).trans hState,
        (hTurns j hSlot).trans hTurn, mt (hDecrypted j rfl).mp hCipher⟩
  | publish j =>
      obtain ⟨hTaken, hLess, hState, hTurn, hPlain, hBuf⟩ := h
      have hSlot : j % plan.ring ≠ i := fun hSlot => hBusy j (.inr rfl) hSlot hState hTurn
      refine ⟨hTaken.trans_le hLater, hLess, (congrArg Slot.state (hSlots j hSlot)).trans hState,
        (hTurns j hSlot).trans hTurn, (hDecrypted j rfl).mpr hPlain, fun job hJob => ?_⟩
      rw [hSlots j hSlot]
      exact hBuf job hJob

/-- The same for a consumer. -/
theorem ConsumerOk.frame {i alloc : Nat} {c : Consumer} (h : ConsumerOk plan none s alloc c)
    (hSlots : ∀ j, j % plan.ring ≠ i → slotOf plan s' j = slotOf plan s j)
    (hTurns : ∀ j, j % plan.ring ≠ i → turnOf plan s' j = turnOf plan s j)
    (hConsumed : ∀ j, plan.firstJob alloc ≤ j → j < plan.firstJob alloc + plan.nJobs alloc →
      (j ∈ s'.consumed ↔ j ∈ s.consumed))
    (hBusy : AtSlot plan s alloc c → (plan.firstJob alloc + c.k) % plan.ring = i → False)
    (hAsleep : (plan.firstJob alloc + c.k) % plan.ring = i → some i ≠ woken →
      ¬((slotOf plan s' (plan.firstJob alloc + c.k)).state = .ready ∧
        (slotOf plan s' (plan.firstJob alloc + c.k)).nextSeq = plan.firstJob alloc + c.k)) :
    ConsumerOk plan woken s' alloc c := by
  refine ⟨h.k_le, h.off, fun j hLow hHigh => (hConsumed j hLow hHigh).trans (h.consumed j hLow hHigh),
    ?_⟩
  have hAt : AtSlot plan s alloc c → AtSlot plan s' alloc c := by
    intro hAt
    have hSlot : (plan.firstJob alloc + c.k) % plan.ring ≠ i := hBusy hAt
    exact ⟨hAt.more, (congrArg Slot.state (hSlots _ hSlot)).trans hAt.ready,
      (hTurns _ hSlot).trans hAt.turn⟩
  have hStage := h.stage
  unfold StageOk at hStage ⊢
  split at hStage
  · intro hSleeps
    obtain ⟨hMore, hStill⟩ := hStage hSleeps
    refine ⟨hMore, fun hWoken => ?_⟩
    by_cases hSlot : (plan.firstJob alloc + c.k) % plan.ring = i
    · exact hAsleep hSlot (hSlot ▸ hWoken)
    · rw [hSlots _ hSlot]
      exact hStill nofun
  · exact hAt hStage
  · exact hAt hStage
  · exact hStage
  · trivial

/-- The same for the other slots. -/
theorem SlotOk.frame {i k : Nat} (h : SlotOk plan s k) (hk : k < plan.ring) (hOther : k ≠ i)
    (hSlots : ∀ k, k ≠ i → s'.slots k = s.slots k)
    (hTurns : ∀ k, k ≠ i → turn plan.ring s'.consumed k = turn plan.ring s.consumed k)
    (hDecrypted : ∀ j ∈ s.decrypted, j ∈ s'.decrypted) : SlotOk plan s' k := by
  have hSlot := hSlots k hOther
  have hTurn := hTurns k hOther
  refine ⟨?_, ?_, fun hReady => ?_⟩
  · rw [hSlot, hTurn]
    exact h.nextSeq
  · rw [hSlot]
    exact h.buf
  · rw [hSlot] at hReady
    rw [hTurn]
    obtain ⟨hLess, hPlain, hBuf⟩ := h.ready hReady
    refine ⟨hLess, hDecrypted _ hPlain, fun job hJob => ?_⟩
    have hHome : slotOf plan s' (turn plan.ring s.consumed k) =
        slotOf plan s (turn plan.ring s.consumed k) := by
      rw [slotOf, slotOf, turn_mod hk, hSlot]
    rw [hHome]
    exact hBuf job hJob

/-- A change to one slot, which stands as it should behind it. -/
theorem Inv.slots_of_one (h : Inv plan dispatched none pool) {i : Nat} (hOwn : SlotOk plan s' i)
    (hSlots : ∀ k, k ≠ i → s'.slots k = pool.shared.slots k)
    (hTurns : ∀ k, k ≠ i → turn plan.ring s'.consumed k = turn plan.ring pool.shared.consumed k)
    (hDecrypted : ∀ j ∈ pool.shared.decrypted, j ∈ s'.decrypted) :
    ∀ k < plan.ring, SlotOk plan s' k := by
  intro k hk
  by_cases hSame : k = i
  · subst hSame
    exact hOwn
  · exact (h.slots k hk).frame hk hSame hSlots hTurns hDecrypted

/-- No consumer stands at a slot that is not ready. -/
theorem AtSlot.elsewhere {c j : Nat} {x : Consumer} (hAt : AtSlot plan s c x)
    (hNotReady : (slotOf plan s j).state ≠ .ready) :
    (plan.firstJob c + x.k) % plan.ring ≠ j % plan.ring := by
  intro hSame
  have hReady := hAt.ready
  rw [slotOf, hSame] at hReady
  exact hNotReady hReady

/-- A worker in the slot of the job whose turn it is in another slot stands there. -/
theorem slot_of_at {w : Worker} {i j : Nat} (hi : i < plan.ring) (hHeld : w.job = some j)
    (hAt : w.At (turn plan.ring s.consumed i)) : i = j % plan.ring := by
  have hTurn : j = turn plan.ring s.consumed i := Option.some.inj (hHeld.symm.trans hAt.job)
  rw [hTurn, turn_mod hi]

end Frames

section WorkerTurns

variable {t : Nat} {w w' : Worker}

theorem countP_exited_set (ht : pool.workers[t]? = some w) (hGoing : w ≠ .exited) (w' : Worker) :
    (pool.workers.set t w').countP (· = .exited) =
      pool.workers.countP (· = .exited) + if w' = .exited then 1 else 0 := by
  obtain ⟨hLess, rfl⟩ := List.getElem?_eq_some_iff.mp ht
  rw [List.countP_set hLess]
  simp [hGoing]

theorem countP_exited_lt (ht : pool.workers[t]? = some w) (hGoing : w ≠ .exited) :
    pool.workers.countP (· = .exited) < pool.workers.length := by
  have hSet := countP_exited_set ht hGoing .exited
  have hLe := List.countP_le_length (p := fun v => decide (v = Worker.exited))
    (l := pool.workers.set t .exited)
  rw [List.length_set, hSet, if_pos rfl] at hLe
  exact hLe

/-- A worker that only goes on waiting, or leaves when the pool is shut down. -/
theorem Inv.workerWaits (h : Inv plan dispatched none pool) (ht : pool.workers[t]? = some w)
    (hGoing : w ≠ .exited) (hAt : ∀ j, ¬w.At j) (hOwn : WorkerOk plan dispatched none pool.shared w')
    (hJob : w'.job = w.job ∨ w' = .exited ∧ pool.shared.stop = true) :
    Inv plan dispatched none { pool with workers := pool.workers.set t w' } := by
  refine h.setWorker ht h.counter ?_ h.slots h.jobs hOwn ?_ (fun v hv _ => hv) (fun c x hx => hx)
    (fun i _ hState => .inr ⟨hState, rfl, hAt _⟩) ?_ h.inside
  · rw [countP_exited_set ht hGoing]
    exact h.bound.trans (by omega)
  · intro j hHeld
    rcases hJob with hSame | ⟨rfl, -⟩
    · exact .inl (hSame ▸ hHeld)
    · cases hHeld
  · intro hStop
    refine ⟨hStop, fun j _ hTaken hConsumed => ?_⟩
    rcases hJob with hSame | ⟨-, hStopped⟩
    · by_cases hHeld : w'.job = some j
      · exact .inl hHeld
      · by_cases hReady : (slotOf plan pool.shared j).state = .ready ∧ turnOf plan pool.shared j = j
        · exact .inr (.inl hReady)
        · exact .inr (.inr ⟨hTaken, hConsumed, hSame ▸ hHeld, hReady⟩)
    · rw [hStop] at hStopped
      cases hStopped

/-- Taking the next job off the counter. With fewer than 2^32 jobs and workers together
the counter does not come back to zero before every worker has left. -/
theorem Inv.fetch (h : Inv plan dispatched none pool) (hPlan : plan.jobs.length + plan.workers ≤ 2 ^ 32)
    (ht : pool.workers[t]? = some .fetch) (hw' : w' = if plan.jobs.length ≤ pool.shared.nextDispatch
      then .exited else .wait pool.shared.nextDispatch false) :
    Inv plan (dispatched + 1) none
      { pool with
        shared := { pool.shared with nextDispatch := (pool.shared.nextDispatch + 1) % 2 ^ 32 }
        workers := pool.workers.set t w' } := by
  have hGoing : (Worker.fetch) ≠ .exited := nofun
  have hCount := countP_exited_lt ht hGoing
  have hBound := h.bound
  have hThreads := h.workerCount
  have hSmall : pool.shared.nextDispatch = dispatched :=
    h.counter.trans (Nat.mod_eq_of_lt (by omega))
  rw [hSmall] at hw' ⊢
  have hFresh : dispatched ∉ pool.shared.decrypted := fun hMem =>
    lt_irrefl _ (h.jobs.decrypted _ hMem).1
  refine h.setWorker ht rfl ?_ ?_ ?_ ?_ ?_ ?_ ?_ ?_ ?_ h.inside
  · rw [countP_exited_set ht hGoing]
    by_cases hEnd : plan.jobs.length ≤ dispatched
    · rw [hw', if_pos hEnd, if_pos rfl]
      omega
    · omega
  · intro k hk
    exact (h.slots k hk).frame (i := plan.ring) hk hk.ne (fun _ _ => rfl) (fun _ _ => rfl)
      fun _ hj => hj
  · exact ⟨h.jobs.inTurn, h.jobs.consumedOnce, h.jobs.decryptedOnce, h.jobs.consumed, fun j hj =>
      ⟨(h.jobs.decrypted j hj).1.trans_le (Nat.le_succ _), (h.jobs.decrypted j hj).2⟩⟩
  · rw [hw']
    split
    · trivial
    · rename_i hMore
      exact ⟨Nat.lt_succ_self _, not_le.mp hMore, fun hMem => hFresh (h.jobs.consumed _ hMem), hFresh,
        nofun⟩
  · intro j hHeld
    rw [hw'] at hHeld
    split at hHeld
    · cases hHeld
    · cases hHeld
      exact .inr (le_refl _)
  · intro v hv _
    exact hv.frame (i := plan.ring) (Nat.le_succ _) (fun _ _ => rfl) (fun _ _ => rfl)
      (fun _ _ hj => hj) (fun _ _ => Iff.rfl)
      (fun j _ hSlot => absurd hSlot (plan.slot_lt j).ne) fun j _ hSlot =>
        absurd hSlot (plan.slot_lt j).ne
  · intro c x hx
    exact hx.frame (i := plan.ring) (fun _ _ => rfl) (fun _ _ => rfl) (fun _ _ _ => Iff.rfl)
      (fun _ hSlot => absurd hSlot (plan.slot_lt _).ne) fun hSlot => absurd hSlot (plan.slot_lt _).ne
  · intro i _ hState
    exact .inr ⟨hState, rfl, fun hAt => by rcases hAt with hAt | hAt <;> cases hAt⟩
  · intro hStop
    refine ⟨hStop, fun j hj hTaken hConsumed => ?_⟩
    by_cases hNew : j = dispatched
    · left
      rw [hw', if_neg (by omega), hNew]
      rfl
    · by_cases hReady : (slotOf plan pool.shared j).state = .ready ∧ turnOf plan pool.shared j = j
      · exact .inr (.inl hReady)
      · exact .inr (.inr ⟨by omega, hConsumed, nofun, hReady⟩)

/-- Slots other than the one changed. -/
theorem slots_setSlot_ne {i k : Nat} (h : k ≠ i) (slot : Slot) :
    (s.setSlot i slot).slots k = s.slots k := by
  simp only [RingState.setSlot, Function.update_of_ne h]

theorem slots_setSlot_self (i : Nat) (slot : Slot) : (s.setSlot i slot).slots i = slot := by
  simp only [RingState.setSlot, Function.update_self]

/-- In the slot of its job a worker is alone. -/
theorem alone {j j' : Nat} {v : Worker} (hTurn : turnOf plan s j = j) (hSlot : j' % plan.ring = j % plan.ring)
    (hTurn' : turnOf plan s j' = j') (hOther : v.job ≠ some j) (hAt : v.At j') : False := by
  rw [turnOf, hSlot] at hTurn'
  rw [turnOf, hTurn'] at hTurn
  subst hTurn
  exact hOther hAt.job

/-- A job that is not consumed has its turn when its slot carries its number: the
sequence numbers have not wrapped around by then. -/
theorem Inv.turn_of_pending (h : Inv plan dispatched none pool) {j : Nat}
    (hPending : j ∉ pool.shared.consumed) (hLess : j < plan.jobs.length)
    (hSeq : (slotOf plan pool.shared j).nextSeq = j) : turnOf plan pool.shared j = j := by
  have hLow : turnOf plan pool.shared j ≤ j := not_lt.mp (mt (h.jobs.inTurn j).mpr hPending)
  have hNext : (slotOf plan pool.shared j).nextSeq = turnOf plan pool.shared j % 2 ^ 32 :=
    (h.slots _ (plan.slot_lt j)).nextSeq
  rw [Nat.mod_eq_of_lt (hLow.trans_lt (hLess.trans plan.jobs_lt))] at hNext
  exact hNext.symm.trans hSeq

/-- The jobs of others stand as before when a slot that is not ready is changed. -/
theorem pending_others {j i : Nat} (hHeld : w.job = some j)
    (hNotReady : (slotOf plan s j).state ≠ .ready)
    (hSlots : ∀ k, k % plan.ring ≠ j % plan.ring → slotOf plan s' k = slotOf plan s k)
    (hTurn : turnOf plan s' i = turnOf plan s i) (hBefore : i < dispatched) (hNot : i ∉ s.consumed)
    (hOther : i ≠ j) : (slotOf plan s' i).state = .ready ∧ turnOf plan s' i = i ∨
      i < dispatched ∧ i ∉ s.consumed ∧ w.job ≠ some i ∧
        ¬((slotOf plan s i).state = .ready ∧ turnOf plan s i = i) := by
  by_cases hReady : (slotOf plan s i).state = .ready ∧ turnOf plan s i = i
  · have hElse : i % plan.ring ≠ j % plan.ring := by
      intro hHere
      rw [slotOf, hHere] at hReady
      exact hNotReady hReady.1
    left
    rw [hSlots i hElse, hTurn]
    exact hReady
  · exact .inr ⟨hBefore, hNot,
      fun hSame => hOther (Option.some.inj (hSame.symm.trans hHeld)), hReady⟩

/-- Acquiring the slot: the worker's turn has come. -/
theorem Inv.acquire (h : Inv plan dispatched none pool) {j : Nat}
    (ht : pool.workers[t]? = some (.wait j false))
    (hFree : (slotOf plan pool.shared j).state = .free)
    (hSeq : (slotOf plan pool.shared j).nextSeq = j) :
    Inv plan dispatched none
      { pool with
        shared := pool.shared.setSlot (j % plan.ring)
          { slotOf plan pool.shared j with state := .assigned, jobIdx := some j }
        workers := pool.workers.set t (.decrypt j) } := by
  obtain ⟨hTaken, hLess, hPending, hCipher, -⟩ := h.workers t _ ht
  have hSlotOk := h.slots _ (plan.slot_lt j)
  have hTurn := h.turn_of_pending hPending hLess hSeq
  have hNotReady : (slotOf plan pool.shared j).state ≠ .ready := by
    rw [hFree]
    exact nofun
  refine h.setWorker ht h.counter ?_ ?_ ?_ ?_ ?_ ?_ ?_ ?_ ?_ h.inside
  · rw [countP_exited_set ht nofun]
    exact h.bound.trans (by omega)
  · refine h.slots_of_one ⟨?_, ?_, ?_⟩ (fun i hi => slots_setSlot_ne hi _) (fun _ _ => rfl)
      fun _ hi => hi
    · rw [slots_setSlot_self]
      exact hSlotOk.nextSeq
    · rw [slots_setSlot_self]
      exact hSlotOk.buf
    · rw [slots_setSlot_self]
      exact nofun
  · exact ⟨h.jobs.inTurn, h.jobs.consumedOnce, h.jobs.decryptedOnce, h.jobs.consumed,
      h.jobs.decrypted⟩
  · exact ⟨hTaken, hLess, congrArg Slot.state (slotOf_setSlot_self rfl _), hTurn, hCipher⟩
  · intro i hHeld
    exact .inl hHeld
  · intro v hv _
    refine hv.frame (i := j % plan.ring) (le_refl _) (fun i hi => slotOf_setSlot_ne hi _)
      (fun _ _ => rfl) (fun _ _ hi => hi) (fun _ _ => Iff.rfl) ?_ ?_
    · intro i _ hSlot hState _
      rw [slotOf, hSlot] at hState
      exact nomatch hFree.symm.trans hState
    · intro i _ hSlot _ hNow
      rw [slotOf_setSlot_self hSlot] at hNow
      exact nomatch hNow.1
  · intro c x hx
    refine hx.frame (i := j % plan.ring) (fun i hi => slotOf_setSlot_ne hi _) (fun _ _ => rfl)
      (fun _ _ _ => Iff.rfl) (fun hAt => hAt.elsewhere hNotReady) ?_
    intro hSlot _ hNow
    rw [slotOf_setSlot_self hSlot] at hNow
    exact nomatch hNow.1
  · intro i _ hState
    by_cases hSlot : i = j % plan.ring
    · subst hSlot
      exact .inl (.inl (congrArg Worker.decrypt hTurn.symm))
    · rw [slots_setSlot_ne hSlot] at hState
      exact .inr ⟨hState, rfl, fun hAt => by rcases hAt with hAt | hAt <;> cases hAt⟩
  · intro hStop
    refine ⟨hStop, fun i _ hBefore hNot => ?_⟩
    by_cases hSame : i = j
    · subst hSame
      exact .inl rfl
    · exact .inr (pending_others rfl hNotReady (fun k hk => slotOf_setSlot_ne hk _) rfl hBefore hNot hSame)

/-- A job is decrypted once, when its slot has come round to it. -/
theorem JobsOk.decrypt (h : JobsOk plan dispatched s) {j : Nat} (hCipher : j ∉ s.decrypted)
    (hTaken : j < dispatched) (hLess : j < plan.jobs.length) (hTurn : turnOf plan s j = j)
    (hConsumed : s'.consumed = s.consumed) (hDecrypted : s'.decrypted = s.decrypted ++ [j]) :
    JobsOk plan dispatched s' := by
  constructor
  · rw [hConsumed]
    exact h.inTurn
  · rw [hConsumed]
    exact h.consumedOnce
  · rw [hDecrypted]
    exact nodup_concat h.decryptedOnce hCipher
  · intro i hi
    rw [hConsumed] at hi
    rw [hDecrypted]
    exact List.mem_append_left _ (h.consumed i hi)
  · intro i hi
    rw [hDecrypted, List.mem_append, List.mem_singleton] at hi
    rw [hConsumed]
    rcases hi with hOld | rfl
    · exact h.decrypted i hOld
    · exact ⟨hTaken, hLess, h.inTurn.previous plan.ring_pos hTurn⟩

/-- A job is consumed once, and its slot goes on to the next one. -/
theorem JobsOk.consume (h : JobsOk plan dispatched s) {j : Nat} (hPending : j ∉ s.consumed)
    (hPlain : j ∈ s.decrypted) (hTurn : turnOf plan s j = j)
    (hConsumed : s'.consumed = s.consumed ++ [j]) (hDecrypted : s'.decrypted = s.decrypted) :
    JobsOk plan dispatched s' := by
  constructor
  · rw [hConsumed]
    exact h.inTurn.serve plan.ring_pos hTurn
  · rw [hConsumed]
    exact nodup_concat h.consumedOnce hPending
  · rw [hDecrypted]
    exact h.decryptedOnce
  · intro i hi
    rw [hConsumed, List.mem_append, List.mem_singleton] at hi
    rw [hDecrypted]
    rcases hi with hOld | rfl
    · exact h.consumed i hOld
    · exact hPlain
  · intro i hi
    rw [hDecrypted] at hi
    obtain ⟨hTaken, hRange, hPrevious⟩ := h.decrypted i hi
    rw [hConsumed]
    exact ⟨hTaken, hRange, fun hLate => List.mem_append_left _ (hPrevious hLate)⟩

theorem take_splice_front {buf src : Bytes} : (splice buf 0 src).take src.length = src := by
  rw [splice, List.take_zero, List.nil_append, List.take_left]

/-- A decryption that succeeds, of a job that fits the slot. -/
theorem Inv.decrypt (h : Inv plan dispatched none pool) {j : Nat} {job : ChunkJob}
    (ht : pool.workers[t]? = some (.decrypt j)) (hJob : plan.jobs[j]? = some job)
    (hFits : job.byteSize ≤ plan.chunkSize) :
    Inv plan dispatched none
      { pool with
        shared :=
          { pool.shared.setSlot (j % plan.ring)
              { slotOf plan pool.shared j with
                buf := splice (slotOf plan pool.shared j).buf 0
                  ((plan.plain job).take plan.chunkSize) } with
            decrypted := pool.shared.decrypted ++ [j]
            overran := pool.shared.overran || decide (plan.chunkSize < job.byteSize) }
        workers := pool.workers.set t (.publish j) } := by
  obtain ⟨hTaken, hLess, hState, hTurn, hCipher⟩ := h.workers t _ ht
  have hSlotOk := h.slots _ (plan.slot_lt j)
  have hNotReady : (slotOf plan pool.shared j).state ≠ .ready := by
    rw [hState]
    exact nofun
  have hLength := plan.plain_length job
  have hWhole : (plan.plain job).take plan.chunkSize = plan.plain job :=
    List.take_of_length_le (by omega)
  rw [hWhole]
  generalize hShared : ({ pool.shared.setSlot (j % plan.ring) _ with
    decrypted := _, overran := _ } : RingState) = after
  have hSlotsNe : ∀ k, k ≠ j % plan.ring → after.slots k = pool.shared.slots k := by
    intro k hk
    rw [← hShared]
    exact slots_setSlot_ne hk _
  have hSlotNe : ∀ i, i % plan.ring ≠ j % plan.ring → slotOf plan after i = slotOf plan pool.shared i :=
    fun i hi => hSlotsNe _ hi
  have hSlot : after.slots (j % plan.ring) = { slotOf plan pool.shared j with
      buf := splice (slotOf plan pool.shared j).buf 0 (plan.plain job) } := by
    rw [← hShared]
    exact slots_setSlot_self _ _
  have hConsumed : after.consumed = pool.shared.consumed := by rw [← hShared]; rfl
  have hDecrypted : after.decrypted = pool.shared.decrypted ++ [j] := by rw [← hShared]
  have hTurns : ∀ i, turnOf plan after i = turnOf plan pool.shared i := by
    intro i
    rw [turnOf, hConsumed, turnOf]
  refine h.setWorker ht ?_ ?_ ?_ ?_ ?_ ?_ ?_ ?_ ?_ ?_ ?_
  · rw [← hShared]
    exact h.counter
  · rw [countP_exited_set ht nofun]
    exact h.bound.trans (by omega)
  · refine h.slots_of_one ⟨?_, ?_, ?_⟩ hSlotsNe (fun i _ => by rw [hConsumed]) fun i hi => by
      rw [hDecrypted]
      exact List.mem_append_left _ hi
    · rw [hSlot, hConsumed]
      exact hSlotOk.nextSeq
    · rw [hSlot]
      refine (splice_length ?_).trans hSlotOk.buf
      have hRoom : (slotOf plan pool.shared j).buf.length = plan.chunkSize := hSlotOk.buf
      omega
    · rw [hSlot]
      exact fun hReady => absurd hReady hNotReady
  · exact h.jobs.decrypt hCipher hTaken hLess hTurn hConsumed hDecrypted
  · refine ⟨hTaken, hLess, ?_, (hTurns j).trans hTurn, ?_, ?_⟩
    · rw [slotOf, hSlot]
      exact hState
    · rw [hDecrypted]
      exact List.mem_append_right _ List.mem_cons_self
    · intro job' hJob'
      cases hJob.symm.trans hJob'
      rw [slotOf, hSlot, ← hLength]
      exact take_splice_front
  · intro i hHeld
    exact .inl hHeld
  · intro v hv hOther
    refine hv.frame (i := j % plan.ring) (le_refl _) hSlotNe (fun i _ => hTurns i) ?_ ?_ ?_ ?_
    · intro i _ hi
      rw [hConsumed]
      exact hi
    · intro i hHeld
      rw [hDecrypted, List.mem_append, List.mem_singleton]
      exact or_iff_left fun hSame => hOther j rfl (hSame ▸ hHeld)
    · intro i hAt hSame _ hTurn'
      exact alone hTurn hSame hTurn' (hOther j rfl) hAt
    · intro i _ hSame _ hNow
      rw [slotOf, hSame, hSlot] at hNow
      exact nomatch hState.symm.trans hNow.1
  · intro c x hx
    refine hx.frame (i := j % plan.ring) hSlotNe (fun i _ => hTurns i) (fun i _ _ => by rw [hConsumed])
      (fun hAt => hAt.elsewhere hNotReady) ?_
    intro hSame _ hNow
    rw [slotOf, hSame, hSlot] at hNow
    exact hNotReady hNow.1
  · intro i hi hNow
    by_cases hSame : i = j % plan.ring
    · subst hSame
      rw [hConsumed]
      exact .inl (.inr (congrArg Worker.publish hTurn.symm))
    · rw [hSlotsNe i hSame] at hNow
      exact .inr ⟨hNow, by rw [hConsumed], fun hAt => hSame (slot_of_at hi rfl hAt)⟩
  · intro hStop
    rw [← hShared] at hStop
    refine ⟨hStop, fun i _ hBefore hNot => ?_⟩
    rw [hConsumed] at hNot
    by_cases hSame : i = j
    · subst hSame
      exact .inl rfl
    · exact .inr (pending_others rfl hNotReady hSlotNe (hTurns i) hBefore hNot hSame)
  · rw [← hShared]
    change (pool.shared.overran || decide (plan.chunkSize < job.byteSize)) = false
    rw [h.inside, Bool.false_or, decide_eq_false_iff_not]
    exact not_lt.mpr hFits

/-- Publishing: the slot is ready, and whoever sleeps on it is woken. -/
theorem Inv.publish (h : Inv plan dispatched none pool) {j : Nat}
    (ht : pool.workers[t]? = some (.publish j)) :
    Inv plan dispatched (some (j % plan.ring))
      { pool with
        shared := pool.shared.setSlot (j % plan.ring)
          { slotOf plan pool.shared j with state := .ready }
        workers := pool.workers.set t .fetch } := by
  obtain ⟨hTaken, hLess, hState, hTurn, hPlain, hBuf⟩ := h.workers t _ ht
  have hSlotOk := h.slots _ (plan.slot_lt j)
  have hNotReady : (slotOf plan pool.shared j).state ≠ .ready := by
    rw [hState]
    exact nofun
  refine h.setWorker ht h.counter ?_ ?_ ?_ trivial (fun i hHeld => nomatch hHeld) ?_ ?_ ?_ ?_ h.inside
  · rw [countP_exited_set ht nofun]
    exact h.bound.trans (by omega)
  · refine h.slots_of_one ⟨?_, ?_, fun _ => ?_⟩ (fun i hi => slots_setSlot_ne hi _) (fun _ _ => rfl)
      fun _ hi => hi
    · rw [slots_setSlot_self]
      exact hSlotOk.nextSeq
    · rw [slots_setSlot_self]
      exact hSlotOk.buf
    · change turnOf plan pool.shared j < _ ∧ turnOf plan pool.shared j ∈ _ ∧
        HoldsPlain plan _ (turnOf plan pool.shared j)
      rw [hTurn]
      refine ⟨hLess, hPlain, fun job hJob => ?_⟩
      rw [slotOf_setSlot_self rfl]
      exact hBuf job hJob
  · exact ⟨h.jobs.inTurn, h.jobs.consumedOnce, h.jobs.decryptedOnce, h.jobs.consumed,
      h.jobs.decrypted⟩
  · intro v hv hOther
    refine hv.frame (i := j % plan.ring) (le_refl _) (fun i hi => slotOf_setSlot_ne hi _)
      (fun _ _ => rfl) (fun _ _ hi => hi) (fun _ _ => Iff.rfl) ?_ fun _ _ _ hWoken => absurd rfl hWoken
    intro i hAt hSame _ hTurn'
    exact alone hTurn hSame hTurn' (hOther j rfl) hAt
  · intro c x hx
    refine hx.frame (i := j % plan.ring) (fun i hi => slotOf_setSlot_ne hi _) (fun _ _ => rfl)
      (fun _ _ _ => Iff.rfl) (fun hAt => hAt.elsewhere hNotReady) fun _ hWoken => absurd rfl hWoken
  · intro i hi hNow
    by_cases hSame : i = j % plan.ring
    · subst hSame
      rw [slots_setSlot_self] at hNow
      cases hNow
    · rw [slots_setSlot_ne hSame] at hNow
      exact .inr ⟨hNow, rfl, fun hAt => hSame (slot_of_at hi rfl hAt)⟩
  · intro hStop
    refine ⟨hStop, fun i _ hBefore hNot => ?_⟩
    right
    by_cases hSame : i = j
    · subst hSame
      rw [slotOf_setSlot_self rfl]
      exact .inl ⟨rfl, hTurn⟩
    · exact pending_others rfl hNotReady (fun k hk => slotOf_setSlot_ne hk _) rfl hBefore hNot hSame

end WorkerTurns

section ConsumerTurns

variable {c : Nat} {x : Consumer}

/-- A consumer that moves on without giving back its slot. -/
theorem Inv.consumerMoves (h : Inv plan dispatched none pool) (hc : pool.consumers[c]? = some x)
    (copies : List DeviceCopy) (stage : Stage)
    (hStage : StageOk plan none pool.shared c { x with stage := stage }) :
    Inv plan dispatched none
      { pool with
        shared := { pool.shared with copied := copies }
        consumers := pool.consumers.set c { x with stage := stage } } := by
  have hOk := h.consumers c x hc
  have hMoved : ConsumerOk plan none pool.shared c { x with stage := stage } :=
    ⟨hOk.k_le, hOk.off, hOk.consumed, hStage⟩
  -- the change leaves every slot alone
  have hOther : ∀ c' y, ConsumerOk plan none pool.shared c' y →
      ConsumerOk plan none { pool.shared with copied := copies } c' y := by
    intro c' y hy
    exact hy.frame (i := plan.ring) (fun _ _ => rfl) (fun _ _ => rfl) (fun _ _ _ => Iff.rfl)
      (fun _ hSlot => absurd hSlot (plan.slot_lt _).ne) fun hSlot => absurd hSlot (plan.slot_lt _).ne
  refine h.setConsumer hc rfl ?_ ?_ (hOther c _ hMoved) (fun c' y _ hy => hOther c' y hy) ?_
    (fun i _ hState => ⟨hState, rfl⟩) rfl (fun j hj => ⟨hj, fun hReady => hReady⟩) rfl
  · intro k hk
    exact (h.slots k hk).frame (i := plan.ring) hk hk.ne (fun _ _ => rfl) (fun _ _ => rfl)
      fun _ hj => hj
  · exact ⟨h.jobs.inTurn, h.jobs.consumedOnce, h.jobs.decryptedOnce, h.jobs.consumed,
      h.jobs.decrypted⟩
  · intro v hv
    exact hv.frame (i := plan.ring) (le_refl _) (fun _ _ => rfl) (fun _ _ => rfl)
      (fun _ _ hj => hj) (fun _ _ => Iff.rfl)
      (fun j _ hSlot => absurd hSlot (plan.slot_lt j).ne) fun j _ hSlot =>
        absurd hSlot (plan.slot_lt j).ne

/-- The slot of a consumer at its job. -/
theorem Inv.atSlot (h : Inv plan dispatched none pool) (hAt : AtSlot plan pool.shared c x) :
    plan.firstJob c + x.k ∈ pool.shared.decrypted ∧ HoldsPlain plan pool.shared (plan.firstJob c + x.k) := by
  obtain ⟨-, hPlain, hBuf⟩ := (h.slots _ (plan.slot_lt _)).ready hAt.ready
  have hTurn := hAt.turn
  rw [turnOf] at hTurn
  rw [hTurn] at hPlain hBuf
  exact ⟨hPlain, hBuf⟩

/-- Releasing the slot: the next turn there is a round later. -/
theorem Inv.release (h : Inv plan dispatched none pool) (hc : pool.consumers[c]? = some x)
    (hRelease : x.stage = .release) {job : ChunkJob}
    (hJob : plan.jobs[plan.firstJob c + x.k]? = some job) :
    Inv plan dispatched (some ((plan.firstJob c + x.k) % plan.ring))
      { pool with
        shared :=
          { pool.shared.setSlot ((plan.firstJob c + x.k) % plan.ring)
              { slotOf plan pool.shared (plan.firstJob c + x.k) with
                state := .free
                jobIdx := none
                nextSeq := (plan.firstJob c + x.k + plan.ring) % 2 ^ 32 } with
            consumed := pool.shared.consumed ++ [plan.firstJob c + x.k] }
        consumers := pool.consumers.set c
          ⟨x.k + 1, x.logicalOff + job.byteSize, .wait false⟩ } := by
  have hOk := h.consumers c x hc
  have hAt : AtSlot plan pool.shared c x := by
    have hStage := hOk.stage
    rwa [StageOk, hRelease] at hStage
  have hMine := hOk.consumed
  obtain ⟨hPlain, -⟩ := h.atSlot hAt
  generalize hj : plan.firstJob c + x.k = j at hJob hPlain ⊢
  obtain ⟨hMore, hReady, hTurn⟩ := hAt
  rw [hj] at hReady hTurn
  have hSlotOk := h.slots _ (plan.slot_lt j)
  have hLess := (List.getElem?_eq_some_iff.mp hJob).1
  have hPending : j ∉ pool.shared.consumed := by
    rw [hMine j (by omega) (by omega)]
    omega
  generalize hShared : ({ pool.shared.setSlot (j % plan.ring) _ with
    consumed := _ } : RingState) = after
  have hSlotsNe : ∀ k, k ≠ j % plan.ring → after.slots k = pool.shared.slots k := by
    intro k hk
    rw [← hShared]
    exact slots_setSlot_ne hk _
  have hSlotNe : ∀ i, i % plan.ring ≠ j % plan.ring → slotOf plan after i = slotOf plan pool.shared i :=
    fun i hi => hSlotsNe _ hi
  have hSlot : after.slots (j % plan.ring) = { slotOf plan pool.shared j with
      state := .free, jobIdx := none, nextSeq := (j + plan.ring) % 2 ^ 32 } := by
    rw [← hShared]
    exact slots_setSlot_self _ _
  have hConsumed : after.consumed = pool.shared.consumed ++ [j] := by rw [← hShared]
  have hDecrypted : after.decrypted = pool.shared.decrypted := by rw [← hShared]; rfl
  have hTurnsNe : ∀ k, k ≠ j % plan.ring →
      turn plan.ring after.consumed k = turn plan.ring pool.shared.consumed k := by
    intro k hk
    rw [hConsumed]
    exact turn_append_other (Ne.symm hk)
  have hTurnNext : turn plan.ring after.consumed (j % plan.ring) = j + plan.ring := by
    rw [hConsumed, turn_append_self]
    exact congrArg (· + plan.ring) hTurn
  refine h.setConsumer hc ?_ ?_ ?_ ?_ ?_ ?_ ?_ ?_ ?_ ?_
  · rw [← hShared]
    rfl
  · refine h.slots_of_one ⟨?_, ?_, ?_⟩ hSlotsNe hTurnsNe fun i hi => by rwa [hDecrypted]
    · rw [hSlot, hTurnNext]
    · rw [hSlot]
      exact hSlotOk.buf
    · rw [hSlot]
      exact nofun
  · exact h.jobs.consume hPending hPlain hTurn hConsumed hDecrypted
  · refine ⟨hMore, ?_, ?_, nofun⟩
    · rw [RingPlan.logicalOff_succ hMore (hj ▸ hJob), ← hOk.off]
    · intro i hLow hHigh
      rw [hConsumed, List.mem_append, List.mem_singleton, hMine i hLow hHigh]
      change _ ↔ i < plan.firstJob c + (x.k + 1)
      omega
  · intro c' y hNe hy
    refine hy.frame (i := j % plan.ring) hSlotNe (fun i hi => hTurnsNe _ hi) ?_ ?_ ?_
    · intro i hLow hHigh
      rw [hConsumed, List.mem_append, List.mem_singleton]
      refine or_iff_left fun hSame => hNe ?_
      subst hSame
      exact plan.alloc_unique hLow hHigh (by omega) (by omega)
    · intro hAt' hSame
      have hTurn' := hAt'.turn
      rw [turnOf, hSame] at hTurn'
      have hBoth : j = plan.firstJob c' + y.k := hTurn.symm.trans hTurn'
      have hMore' := hAt'.more
      exact hNe (plan.alloc_unique (j := j) (by omega) (by omega) (by omega)
        (by omega))
    · intro _ hWoken
      exact absurd rfl hWoken
  · intro v hv
    refine hv.frame (i := j % plan.ring) (le_refl _) hSlotNe (fun i hi => hTurnsNe _ hi) ?_ ?_ ?_
      fun _ _ _ hWoken => absurd rfl hWoken
    · intro i hCipher hBefore
      rw [hConsumed, List.mem_append, List.mem_singleton, not_or]
      refine ⟨hBefore, ?_⟩
      rintro rfl
      exact hCipher hPlain
    · intro i _
      rw [hDecrypted]
    · intro i _ hSame hState _
      rw [slotOf, hSame] at hState
      exact nomatch hReady.symm.trans hState
  · intro i hi hNow
    have hElse : i ≠ j % plan.ring := by
      rintro rfl
      rw [hSlot] at hNow
      cases hNow
    rw [hSlotsNe i hElse] at hNow
    exact ⟨hNow, hTurnsNe i hElse⟩
  · rw [← hShared]
    rfl
  · intro i hNot
    rw [hConsumed, List.mem_append, List.mem_singleton, not_or] at hNot
    refine ⟨hNot.1, fun hOld => ?_⟩
    have hElse : i % plan.ring ≠ j % plan.ring := by
      intro hSame
      have hTurn' := hOld.2
      rw [turnOf, hSame] at hTurn'
      exact hNot.2 (hTurn'.symm.trans hTurn)
    rw [hSlotNe i hElse, turnOf, hTurnsNe _ hElse]
    exact hOld
  · rw [← hShared]
    rfl

end ConsumerTurns

end FlashCkpt.Restore
