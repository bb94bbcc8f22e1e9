import FlashCkpt.Library.TicketRing
import FlashCkpt.Library.Transition
import FlashCkpt.Restore.InApp
import Mathlib.Logic.Function.Basic

/-! The chunked restore ring of `libckpt_vllm.c`. Workers take jobs off a counter and
decrypt each into the slot with its number modulo the ring; the threads in
`restore_apply_alloc` wait for the slots of their jobs and copy them to the device. A
section under the lock of a slot is one step. -/
namespace FlashCkpt.Restore

open ByteImage TicketRing Transition

/-- What `rst_pool_init_once` has fixed when the workers run: the jobs of every
allocation, and the sizes of the pool. `plain` is the plaintext of a job, and `newSize`
the size the application asks for. -/
structure RingPlan where
  allocs : List (List ChunkJob)
  plain : ChunkJob → Bytes
  newSize : Nat → Nat
  ring : Nat
  workers : Nat
  chunkSize : Nat
  plain_length : ∀ job, (plain job).length = job.byteSize
  jobs_lt : allocs.flatten.length < 2 ^ 32
  ring_ge : workers + 2 ≤ ring
  ring_lt : ring < 2 ^ 31

namespace RingPlan

/-- The smallest ring, for one worker. -/
theorem smallRing_ge : 1 + 2 ≤ 3 := Nat.le_refl _

theorem smallRing_lt : 3 < 2 ^ 31 := by decide

variable (plan : RingPlan)

/-- `g_rst_jobs`. -/
def jobs : List ChunkJob := plan.allocs.flatten

/-- `g_rst_alloc_first_job` and `g_rst_alloc_n_jobs`. -/
def firstJob (alloc : Nat) : Nat := (plan.allocs.take alloc).flatten.length

def nJobs (alloc : Nat) : Nat := (plan.allocs.getD alloc []).length

/-- The bytes of an allocation before one of its jobs. -/
def logicalOff (alloc k : Nat) : Nat :=
  (((plan.allocs.getD alloc []).take k).map ChunkJob.byteSize).sum

/-- How much of a job is copied to the new allocation. -/
def chunkCopy (alloc logicalOff : Nat) (job : ChunkJob) : Nat :=
  if plan.newSize alloc < logicalOff + job.byteSize then
    if plan.newSize alloc ≤ logicalOff then 0 else plan.newSize alloc - logicalOff
  else job.byteSize

end RingPlan

inductive SlotState where
  | free | assigned | ready
  deriving DecidableEq, Repr

/-- `rst_ring_slot_t`. -/
structure Slot where
  buf : Bytes
  state : SlotState
  nextSeq : Nat
  jobIdx : Option Nat

/-- Where a worker is in `rst_worker_thread`. A thread that sleeps is in
`pthread_cond_wait` and has not been woken. -/
inductive Worker where
  | fetch
  | wait (j : Nat) (asleep : Bool)
  | decrypt (j : Nat)
  | publish (j : Nat)
  | exited
  deriving DecidableEq, Repr

/-- Where a thread is in the loop of `restore_apply_alloc`. -/
inductive Stage where
  | idle
  | wait (asleep : Bool)
  | copy
  | release
  | done
  | failed
  deriving DecidableEq, Repr

structure Consumer where
  k : Nat
  logicalOff : Nat
  stage : Stage

/-- A copy to the device. -/
structure DeviceCopy where
  alloc : Nat
  job : Nat
  dst : Nat
  bytes : Bytes
  deriving DecidableEq

/-- What the threads share, with what has been decrypted, copied and consumed so far.
`overran` says that a job was decrypted past the end of its slot. -/
structure RingState where
  slots : Nat → Slot
  nextDispatch : Nat
  stop : Bool
  decrypted : List Nat
  copied : List DeviceCopy
  consumed : List Nat
  overran : Bool

/-- The pool with its threads: the consumers are those of the allocations. -/
structure Pool where
  shared : RingState
  workers : List Worker
  consumers : List Consumer

def RingState.setSlot (s : RingState) (i : Nat) (slot : Slot) : RingState :=
  { s with slots := Function.update s.slots i slot }

/-- `pthread_cond_broadcast` on the condition of a slot. -/
def Worker.wake (ring slot : Nat) : Worker → Worker
  | .wait j asleep => .wait j (asleep && decide (j % ring ≠ slot))
  | w => w

def Consumer.wake (ring slot first : Nat) (c : Consumer) : Consumer :=
  match c.stage with
  | .wait asleep => { c with stage := .wait (asleep && decide ((first + c.k) % ring ≠ slot)) }
  | _ => c

inductive WorkerTurn where
  | fetch
  | acquire
  | decrypt (failure : Option Bytes)
  | publish
  | spurious

inductive ConsumerTurn where
  | enter
  | check
  | copy (ok : Bool)
  | release
  | spurious

/-- A turn: the thread and the shared state after it, and the slot whose condition it
has broadcast. -/
structure Turn (Thread : Type) where
  thread : Thread
  shared : RingState
  broadcast : Option Nat

section Steps

variable (plan : RingPlan)

/-- A turn of `rst_worker_thread`. A decryption that fails leaves some bytes in the
slot, and the worker goes on. -/
def workerTurn (s : RingState) : Worker → WorkerTurn → Option (Turn Worker)
  | .fetch, .fetch =>
      if s.stop then some ⟨.exited, s, none⟩
      else some ⟨if plan.jobs.length ≤ s.nextDispatch then .exited else .wait s.nextDispatch false,
        { s with nextDispatch := (s.nextDispatch + 1) % 2 ^ 32 }, none⟩
  | .wait j false, .acquire =>
      let slot := s.slots (j % plan.ring)
      if s.stop then some ⟨.exited, s, none⟩
      else if slot.state = .free ∧ slot.nextSeq = j then
        some ⟨.decrypt j,
          s.setSlot (j % plan.ring) { slot with state := .assigned, jobIdx := some j }, none⟩
      else some ⟨.wait j true, s, none⟩
  | .decrypt j, .decrypt failure =>
      plan.jobs[j]?.map fun job =>
        let slot := s.slots (j % plan.ring)
        let written := failure.getD (plan.plain job)
        ⟨.publish j,
          { s.setSlot (j % plan.ring)
              { slot with buf := splice slot.buf 0 (written.take plan.chunkSize) } with
            decrypted := if failure.isNone then s.decrypted ++ [j] else s.decrypted
            overran := s.overran || decide (plan.chunkSize < job.byteSize) }, none⟩
  | .publish j, .publish =>
      some ⟨.fetch, s.setSlot (j % plan.ring)
        { s.slots (j % plan.ring) with state := .ready }, some (j % plan.ring)⟩
  | .wait j true, .spurious => some ⟨.wait j false, s, none⟩
  | _, _ => none

/-- A turn in `restore_apply_alloc`, for the allocation with a number. A copy to the
device that fails ends the call, which keeps the slot. -/
def consumerTurn (alloc : Nat) (s : RingState) (c : Consumer) :
    ConsumerTurn → Option (Turn Consumer)
  | .enter => if c.stage = .idle then some ⟨{ c with stage := .wait false }, s, none⟩ else none
  | .check =>
      if c.stage = .wait false then
        if c.k < plan.nJobs alloc then
          let j := plan.firstJob alloc + c.k
          let slot := s.slots (j % plan.ring)
          if slot.state = .ready ∧ slot.nextSeq = j then some ⟨{ c with stage := .copy }, s, none⟩
          else some ⟨{ c with stage := .wait true }, s, none⟩
        else some ⟨{ c with stage := .done }, s, none⟩
      else none
  | .copy ok =>
      if c.stage = .copy then
        let j := plan.firstJob alloc + c.k
        plan.jobs[j]?.map fun job =>
          let chunkCopy := plan.chunkCopy alloc c.logicalOff job
          if 0 < chunkCopy then
            if ok then
              ⟨{ c with stage := .release },
                { s with
                  copied := s.copied ++
                    [⟨alloc, j, job.byteOff, (s.slots (j % plan.ring)).buf.take chunkCopy⟩] },
                none⟩
            else ⟨{ c with stage := .failed }, s, none⟩
          else ⟨{ c with stage := .release }, s, none⟩
      else none
  | .release =>
      if c.stage = .release then
        let j := plan.firstJob alloc + c.k
        plan.jobs[j]?.map fun job =>
          ⟨{ k := c.k + 1
             logicalOff := c.logicalOff + job.byteSize
             stage := .wait false },
            { s.setSlot (j % plan.ring)
                { s.slots (j % plan.ring) with
                  state := .free
                  jobIdx := none
                  nextSeq := (j + plan.ring) % 2 ^ 32 } with
              consumed := s.consumed ++ [j] },
            some (j % plan.ring)⟩
      else none
  | .spurious =>
      if c.stage = .wait true then some ⟨{ c with stage := .wait false }, s, none⟩ else none

end Steps

inductive RingLabel where
  | worker (t : Nat) (turn : WorkerTurn)
  | consumer (c : Nat) (turn : ConsumerTurn)
  | stop
  | broadcast (slot : Nat)

namespace Pool

/-- All threads that sleep on a slot are woken. -/
def wake (plan : RingPlan) (pool : Pool) (slot : Nat) : Pool :=
  { pool with
    workers := pool.workers.map (Worker.wake plan.ring slot)
    consumers := pool.consumers.mapIdx fun c => Consumer.wake plan.ring slot (plan.firstJob c) }

def wakeOpt (plan : RingPlan) (pool : Pool) : Option Nat → Pool
  | none => pool
  | some slot => pool.wake plan slot

/-- One step of a thread, or of `rst_pool_shutdown`. -/
def step (plan : RingPlan) (pool : Pool) : RingLabel → Option Pool
  | .worker t turn =>
      pool.workers[t]?.bind fun w => (workerTurn plan pool.shared w turn).map fun next =>
        wakeOpt plan { pool with shared := next.shared, workers := pool.workers.set t next.thread }
          next.broadcast
  | .consumer c turn =>
      pool.consumers[c]?.bind fun consumer =>
        (consumerTurn plan c pool.shared consumer turn).map fun next =>
          wakeOpt plan
            { pool with shared := next.shared, consumers := pool.consumers.set c next.thread }
            next.broadcast
  | .stop => some { pool with shared := { pool.shared with stop := true } }
  | .broadcast slot => if pool.shared.stop then some (pool.wake plan slot) else none

/-- The pool as `rst_pool_init_once` leaves it. -/
def start (plan : RingPlan) : Pool where
  shared :=
    { slots := fun i => ⟨List.replicate plan.chunkSize 0, .free, i, none⟩
      nextDispatch := 0
      stop := false
      decrypted := []
      copied := []
      consumed := []
      overran := false }
  workers := List.replicate plan.workers .fetch
  consumers := List.replicate plan.allocs.length ⟨0, 0, .idle⟩

end Pool

end FlashCkpt.Restore
