import FlashCkpt.Restore.Ring
import Mathlib.Data.List.GetD

/-! What every turn in the restore ring keeps. Each slot serves its jobs in turn; the
worker that has acquired a slot is the only one there until it publishes, and the
consumer that has found it ready the only one until it releases. -/
namespace FlashCkpt.Restore

open ByteImage TicketRing Transition

namespace RingPlan

variable {plan : RingPlan}

theorem ring_pos (plan : RingPlan) : 0 < plan.ring := by
  have := plan.ring_ge
  omega

theorem slot_lt (plan : RingPlan) (j : Nat) : j % plan.ring < plan.ring :=
  Nat.mod_lt j plan.ring_pos

theorem firstJob_succ {alloc : Nat} (h : alloc < plan.allocs.length) :
    plan.firstJob (alloc + 1) = plan.firstJob alloc + plan.nJobs alloc := by
  rw [firstJob, firstJob, nJobs, List.take_succ_eq_append_getElem h, List.flatten_append,
    List.length_append, List.getD_eq_getElem _ _ h]
  simp

theorem firstJob_mono {alloc alloc' : Nat} (h : alloc ≤ alloc') :
    plan.firstJob alloc ≤ plan.firstJob alloc' := by
  obtain ⟨more, rfl⟩ := Nat.exists_eq_add_of_le h
  rw [firstJob, firstJob, List.take_add, List.flatten_append, List.length_append]
  exact Nat.le_add_right _ _

/-- The jobs of an allocation come before those of the next ones. -/
theorem firstJob_next (plan : RingPlan) {alloc alloc' : Nat} (hLess : alloc < alloc') :
    plan.firstJob alloc + plan.nJobs alloc ≤ plan.firstJob alloc' := by
  by_cases h : alloc < plan.allocs.length
  · rw [← firstJob_succ h]
    exact firstJob_mono hLess
  · rw [nJobs, List.getD_eq_default _ _ (not_lt.mp h)]
    exact firstJob_mono hLess.le

theorem firstJob_length : plan.firstJob plan.allocs.length = plan.jobs.length := by
  rw [firstJob, List.take_length, jobs]

/-- A job belongs to one allocation only. -/
theorem alloc_unique (plan : RingPlan) {alloc alloc' j : Nat} (h : plan.firstJob alloc ≤ j)
    (hEnd : j < plan.firstJob alloc + plan.nJobs alloc) (h' : plan.firstJob alloc' ≤ j)
    (hEnd' : j < plan.firstJob alloc' + plan.nJobs alloc') : alloc = alloc' := by
  rcases Nat.lt_trichotomy alloc alloc' with hLess | hEq | hMore
  · have := plan.firstJob_next hLess
    omega
  · exact hEq
  · have := plan.firstJob_next hMore
    omega

theorem exists_alloc {j : Nat} (h : j < plan.jobs.length) : ∃ alloc < plan.allocs.length,
    plan.firstJob alloc ≤ j ∧ j < plan.firstJob alloc + plan.nJobs alloc := by
  have hSome : ∀ n ≤ plan.allocs.length, j < plan.firstJob n → ∃ alloc < n,
      plan.firstJob alloc ≤ j ∧ j < plan.firstJob alloc + plan.nJobs alloc := by
    intro n
    induction n with
    | zero =>
        intro _ hLess
        exact absurd hLess (Nat.not_lt_zero j)
    | succ n ih =>
        intro hn hLess
        by_cases hBefore : j < plan.firstJob n
        · obtain ⟨alloc, hAlloc, hRange⟩ := ih (by omega) hBefore
          exact ⟨alloc, by omega, hRange⟩
        · rw [firstJob_succ hn] at hLess
          exact ⟨n, by omega, not_lt.mp hBefore, hLess⟩
  exact hSome _ (le_refl _) (by rwa [firstJob_length])

theorem jobs_getElem? (plan : RingPlan) {alloc k : Nat} (h : k < plan.nJobs alloc) :
    plan.jobs[plan.firstJob alloc + k]? = (plan.allocs.getD alloc [])[k]? := by
  have hAlloc : alloc < plan.allocs.length := by
    by_contra hOut
    rw [nJobs, List.getD_eq_default _ _ (not_lt.mp hOut)] at h
    exact absurd h (Nat.not_lt_zero k)
  have hSplit : plan.jobs = (plan.allocs.take alloc).flatten ++
      (plan.allocs.getD alloc [] ++ (plan.allocs.drop (alloc + 1)).flatten) := by
    rw [jobs, List.getD_eq_getElem _ _ hAlloc, ← List.flatten_cons,
      ← List.drop_eq_getElem_cons hAlloc, ← List.flatten_append, List.take_append_drop]
  rw [hSplit, firstJob, List.getElem?_append_right (Nat.le_add_right _ k), Nat.add_sub_cancel_left,
    List.getElem?_append_left h]

theorem job_lt {alloc k : Nat} (h : k < plan.nJobs alloc) :
    plan.firstJob alloc + k < plan.jobs.length := by
  have hGet := plan.jobs_getElem? h
  rw [List.getElem?_eq_getElem h] at hGet
  exact (List.getElem?_eq_some_iff.mp hGet).1

theorem logicalOff_succ {alloc k : Nat} {job : ChunkJob} (h : k < plan.nJobs alloc)
    (hJob : plan.jobs[plan.firstJob alloc + k]? = some job) :
    plan.logicalOff alloc (k + 1) = plan.logicalOff alloc k + job.byteSize := by
  rw [plan.jobs_getElem? h] at hJob
  obtain ⟨hk, rfl⟩ := List.getElem?_eq_some_iff.mp hJob
  rw [logicalOff, logicalOff, List.take_succ_eq_append_getElem hk, List.map_append, List.sum_append]
  simp

end RingPlan

/-- The number of the job a worker holds. -/
def Worker.job : Worker → Option Nat
  | .wait j _ | .decrypt j | .publish j => some j
  | _ => none

section Invariants

variable (plan : RingPlan)

/-- The slot of a job, and the job whose turn it is there. -/
def slotOf (s : RingState) (j : Nat) : Slot := s.slots (j % plan.ring)

def turnOf (s : RingState) (j : Nat) : Nat := turn plan.ring s.consumed (j % plan.ring)

/-- The slot of a job holds its plaintext. -/
def HoldsPlain (s : RingState) (j : Nat) : Prop :=
  ∀ job, plan.jobs[j]? = some job → (slotOf plan s j).buf.take job.byteSize = plan.plain job

/-- A thread that sleeps has nothing to wake up for, unless it is about to be woken
because of the slot `woken`. -/
def WorkerOk (dispatched : Nat) (woken : Option Nat) (s : RingState) : Worker → Prop
  | .wait j asleep =>
      j < dispatched ∧ j < plan.jobs.length ∧ j ∉ s.consumed ∧ j ∉ s.decrypted ∧
        (asleep = true → some (j % plan.ring) ≠ woken →
          ¬((slotOf plan s j).state = .free ∧ (slotOf plan s j).nextSeq = j))
  | .decrypt j =>
      j < dispatched ∧ j < plan.jobs.length ∧ (slotOf plan s j).state = .assigned ∧
        turnOf plan s j = j ∧ j ∉ s.decrypted
  | .publish j =>
      j < dispatched ∧ j < plan.jobs.length ∧ (slotOf plan s j).state = .assigned ∧
        turnOf plan s j = j ∧ j ∈ s.decrypted ∧ HoldsPlain plan s j
  | _ => True

/-- A consumer at a slot that is ready for it. -/
structure AtSlot (s : RingState) (alloc : Nat) (c : Consumer) : Prop where
  more : c.k < plan.nJobs alloc
  ready : (slotOf plan s (plan.firstJob alloc + c.k)).state = .ready
  turn : turnOf plan s (plan.firstJob alloc + c.k) = plan.firstJob alloc + c.k

def StageOk (woken : Option Nat) (s : RingState) (alloc : Nat) (c : Consumer) : Prop :=
  match c.stage with
  | .wait asleep => asleep = true → c.k < plan.nJobs alloc ∧
      (some ((plan.firstJob alloc + c.k) % plan.ring) ≠ woken →
        ¬((slotOf plan s (plan.firstJob alloc + c.k)).state = .ready ∧
          (slotOf plan s (plan.firstJob alloc + c.k)).nextSeq = plan.firstJob alloc + c.k))
  | .copy | .release => AtSlot plan s alloc c
  | .done => c.k = plan.nJobs alloc
  | _ => True

structure ConsumerOk (woken : Option Nat) (s : RingState) (alloc : Nat) (c : Consumer) : Prop where
  k_le : c.k ≤ plan.nJobs alloc
  off : c.logicalOff = plan.logicalOff alloc c.k
  consumed : ∀ j, plan.firstJob alloc ≤ j → j < plan.firstJob alloc + plan.nJobs alloc →
    (j ∈ s.consumed ↔ j < plan.firstJob alloc + c.k)
  stage : StageOk plan woken s alloc c

structure SlotOk (s : RingState) (i : Nat) : Prop where
  nextSeq : (s.slots i).nextSeq = turn plan.ring s.consumed i % 2 ^ 32
  buf : (s.slots i).buf.length = plan.chunkSize
  ready : (s.slots i).state = .ready → turn plan.ring s.consumed i < plan.jobs.length ∧
    turn plan.ring s.consumed i ∈ s.decrypted ∧ HoldsPlain plan s (turn plan.ring s.consumed i)

/-- What holds of the jobs that are done with. -/
structure JobsOk (dispatched : Nat) (s : RingState) : Prop where
  inTurn : InTurn plan.ring s.consumed
  consumedOnce : s.consumed.Nodup
  decryptedOnce : s.decrypted.Nodup
  consumed : ∀ j ∈ s.consumed, j ∈ s.decrypted
  decrypted : ∀ j ∈ s.decrypted, j < dispatched ∧ j < plan.jobs.length ∧
    (plan.ring ≤ j → j - plan.ring ∈ s.consumed)

/-- A job that a worker has taken is with the worker, or in its slot. -/
def Pending (pool : Pool) (j : Nat) : Prop :=
  (∃ w ∈ pool.workers, w.job = some j) ∨
    (slotOf plan pool.shared j).state = .ready ∧ turnOf plan pool.shared j = j

structure Inv (dispatched : Nat) (woken : Option Nat) (pool : Pool) : Prop where
  counter : pool.shared.nextDispatch = dispatched % 2 ^ 32
  bound : dispatched ≤ plan.jobs.length + pool.workers.countP (· = .exited)
  workerCount : pool.workers.length = plan.workers
  consumerCount : pool.consumers.length = plan.allocs.length
  slots : ∀ i < plan.ring, SlotOk plan pool.shared i
  jobs : JobsOk plan dispatched pool.shared
  workers : ∀ (t : Nat) w, pool.workers[t]? = some w → WorkerOk plan dispatched woken pool.shared w
  unique : ∀ (t t' : Nat) w w' j, pool.workers[t]? = some w → pool.workers[t']? = some w' →
    w.job = some j → w'.job = some j → t = t'
  consumers : ∀ (c : Nat) x, pool.consumers[c]? = some x → ConsumerOk plan woken pool.shared c x
  assigned : ∀ i < plan.ring, (pool.shared.slots i).state = .assigned →
    ∃ w ∈ pool.workers, w = .decrypt (turn plan.ring pool.shared.consumed i) ∨
      w = .publish (turn plan.ring pool.shared.consumed i)
  pending : pool.shared.stop = false → ∀ j < plan.jobs.length, j < dispatched →
    j ∉ pool.shared.consumed → Pending plan pool j
  inside : pool.shared.overran = false

end Invariants

section Wake

variable {plan : RingPlan} {dispatched : Nat} {slot : Nat} {pool : Pool}

theorem Worker.wake_job (ring slot : Nat) (w : Worker) : (w.wake ring slot).job = w.job := by
  cases w <;> rfl

theorem Worker.wake_exited {ring slot : Nat} {w : Worker} : w.wake ring slot = .exited ↔ w = .exited := by
  cases w <;> simp [Worker.wake]

theorem WorkerOk.wake {s : RingState} {w : Worker}
    (h : WorkerOk plan dispatched (some slot) s w) :
    WorkerOk plan dispatched none s (w.wake plan.ring slot) := by
  cases w with
  | wait j asleep =>
      obtain ⟨hTaken, hLess, hConsumed, hDecrypted, hAsleep⟩ := h
      refine ⟨hTaken, hLess, hConsumed, hDecrypted, fun hWoken _ => ?_⟩
      rw [Bool.and_eq_true, decide_eq_true_eq] at hWoken
      exact hAsleep hWoken.1 fun hSlot => hWoken.2 (Option.some.inj hSlot)
  | fetch | decrypt | publish | exited => exact h

theorem ConsumerOk.wake {s : RingState} {alloc : Nat} {c : Consumer}
    (h : ConsumerOk plan (some slot) s alloc c) :
    ConsumerOk plan none s alloc (c.wake plan.ring slot (plan.firstJob alloc)) := by
  obtain ⟨k, off, stage⟩ := c
  cases stage with
  | wait asleep =>
      refine ⟨h.k_le, h.off, h.consumed, fun hWoken => ?_⟩
      rw [Bool.and_eq_true, decide_eq_true_eq] at hWoken
      obtain ⟨hMore, hStill⟩ := h.stage hWoken.1
      exact ⟨hMore, fun _ => hStill fun hSlot => hWoken.2 (Option.some.inj hSlot)⟩
  | idle | copy | release | done | failed => exact ⟨h.k_le, h.off, h.consumed, h.stage⟩

/-- A broadcast wakes the threads that the change before it concerns. -/
theorem Inv.wake (h : Inv plan dispatched (some slot) pool) :
    Inv plan dispatched none (pool.wake plan slot) where
  counter := h.counter
  bound := by
    have hCount : (pool.workers.map (Worker.wake plan.ring slot)).countP (· = .exited) =
        pool.workers.countP (· = .exited) := by
      rw [List.countP_map]
      apply List.countP_congr
      intro w _
      simp [Worker.wake_exited]
    exact h.bound.trans (Nat.add_le_add_left hCount.ge _)
  workerCount := (List.length_map _).trans h.workerCount
  consumerCount := List.length_mapIdx.trans h.consumerCount
  slots := h.slots
  jobs := h.jobs
  workers := by
    intro t w hw
    obtain ⟨w₀, hw₀, rfl⟩ := Option.map_eq_some_iff.mp ((List.getElem?_map ..).symm.trans hw)
    exact (h.workers t w₀ hw₀).wake
  unique := by
    intro t t' w w' j hw hw' hJob hJob'
    obtain ⟨w₀, hw₀, rfl⟩ := Option.map_eq_some_iff.mp ((List.getElem?_map ..).symm.trans hw)
    obtain ⟨w₀', hw₀', rfl⟩ := Option.map_eq_some_iff.mp ((List.getElem?_map ..).symm.trans hw')
    rw [Worker.wake_job] at hJob hJob'
    exact h.unique t t' w₀ w₀' j hw₀ hw₀' hJob hJob'
  consumers := by
    intro c x hx
    obtain ⟨x₀, hx₀, rfl⟩ := Option.map_eq_some_iff.mp (List.getElem?_mapIdx.symm.trans hx)
    exact (h.consumers c x₀ hx₀).wake
  assigned := by
    intro i hi hState
    obtain ⟨w, hw, hAt⟩ := h.assigned i hi hState
    refine ⟨_, List.mem_map_of_mem hw, ?_⟩
    rcases hAt with rfl | rfl
    · exact .inl rfl
    · exact .inr rfl
  pending := by
    intro hStop j hj hTaken hConsumed
    rcases h.pending hStop j hj hTaken hConsumed with ⟨w, hw, hJob⟩ | hReady
    · exact .inl ⟨_, List.mem_map_of_mem hw, (Worker.wake_job ..).trans hJob⟩
    · exact .inr hReady
  inside := h.inside

end Wake

end FlashCkpt.Restore
