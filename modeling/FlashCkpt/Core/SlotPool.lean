import FlashCkpt.Baseline.Dispatch
import FlashCkpt.Core.Streaming
import FlashCkpt.Library.SlotPipelineEnds

/-! The slot pools and work queues of ckpt_core and of the in-app baseline. In both a main thread
takes a staging slot, fills it and queues it, and writers empty it and give it back. -/
namespace FlashCkpt.Core

open Transition BoundedQueue SlotPipeline
open Crypto Image
open Baseline (Work Region dispatchAll cryptoChunkBytes)

/-- `capture_pool_acquire`, `baseline_wq_push` and `baseline_writer_thread`, with the offset of
the next range carried along. A capture that succeeds has the range it was asked for. Nothing
in the source sets `shared_err`, which the writers read; here it may be set at any time. -/
def baselineWriter : Code (Nat × Nat) (Option StreamCapture) Nat (Sections × RangeDesc) Unit where
  fill curOff range captured :=
    match captured with
    | none => none
    | some c =>
        let desc := c.sections.descAt curOff
        if (desc.baseVa, desc.length) = range then some ((c.sections, desc), desc.stop) else none
  fate sharedErr _ _ := if sharedErr then .dropped else .done
  size item := item.2.resmapSize + item.2.cpuBytes + item.2.gpuBytes + item.2.cryptoMetaBytes
  shares := true
  blank := (⟨0, 0, [], [], [], []⟩, zeroDesc)

/-- The pipeline of `main` with this many writers: as many slots as places in the queue. -/
def StreamPlan.pipeline (plan : StreamPlan) (writers : Nat) :
    Setup (Nat × Nat) (Option StreamCapture) Nat (Sections × RangeDesc) Unit where
  toCode := baselineWriter
  tasks := plan.ranges
  carry := plan.reserve
  slots := 2 * writers
  capacity := 2 * writers
  workers := writers

/-- `bl_pool_acquire`, `bl_wq_push` and `bl_writer_thread`: whether `cudaMemcpyAsync` takes the
copy, and whether `cudaEventSynchronize` and `ckpt_crypto_encrypt_pages` succeed. -/
def blWriter : Code Work Bool Unit Work (Bool × Bool) where
  fill _ work launched := if launched then some (work, ()) else none
  fate _ work found :=
    if work.bytes < cryptoChunkBytes ∨ work.bytes % cryptoChunkBytes ≠ 0 then .failed
    else if !found.1 then .failed
    else if !found.2 then .failed
    else .done
  size work := work.bytes
  shares := false
  blank := ⟨0, 0, 0, 0, 0⟩

/-- The launcher and the writers of `ckpt_baseline.c`, with staging slots of a size. -/
def blPipeline (slots chunk : Nat) (regions : List Region) (iv writers : Nat) :
    Setup Work Bool Unit Work (Bool × Bool) where
  toCode := blWriter
  tasks := dispatchAll chunk regions iv
  carry := ()
  slots := slots
  capacity := slots * 2
  workers := writers

def stagingRingSlots : Nat := 8
def deltaStagingRingSlots : Nat := 4

/-- `_ckpt_baseline_run_body`. -/
def baselineRunBody : List Region → Nat → Nat → Setup Work Bool Unit Work (Bool × Bool) :=
  blPipeline stagingRingSlots Baseline.chunkBytes

/-- `_ckpt_baseline_delta_body`. -/
def baselineDeltaBody : List Region → Nat → Nat → Setup Work Bool Unit Work (Bool × Bool) :=
  blPipeline deltaStagingRingSlots Baseline.deltaChunkBytes

/-- In every state that some turns of the threads lead to, slots and queue are in order; and
where there are writers, the threads come to their end, and all slots are back then. -/
def KeepsSlots {Task Seen Carry Payload Found : Type} (p : Setup Task Seen Carry Payload Found) :
    Prop :=
  ∀ labels s, execute (next p) (SlotPipeline.start p) labels = some s →
    Kept p s ∧ (0 < p.workers → Ends p labels s ∧ (s.producer = .ended → Settled p s))

theorem keepsSlots {Task Seen Carry Payload Found : Type} [Nonempty Seen] [Nonempty Found]
    (p : Setup Task Seen Carry Payload Found) (hSlots : 0 < p.workers → 0 < p.slots)
    (hCapacity : 0 < p.workers → 0 < p.capacity) : KeepsSlots p := by
  intro labels s hRun
  have hInv := inv_run hRun
  refine ⟨hInv.kept, fun hWorkers => ⟨?_, hInv.settled hWorkers⟩⟩
  exact ends_run hWorkers (hSlots hWorkers) (hCapacity hWorkers) hRun

/-- For any ranges to capture, any regions to copy, and any number of writers. -/
theorem pools_keepSlots (plan : StreamPlan) (regions : List Region) (iv writers : Nat) :
    KeepsSlots (plan.pipeline writers) ∧ KeepsSlots (baselineRunBody regions iv writers) ∧
      KeepsSlots (baselineDeltaBody regions iv writers) := by
  refine ⟨?_, ?_, ?_⟩
  · apply keepsSlots
    · exact fun hWorkers => Nat.mul_pos Nat.two_pos hWorkers
    · exact fun hWorkers => Nat.mul_pos Nat.two_pos hWorkers
  · exact keepsSlots _ (fun _ => Nat.zero_lt_succ 7) fun _ => Nat.zero_lt_succ 15
  · exact keepsSlots _ (fun _ => Nat.zero_lt_succ 3) fun _ => Nat.zero_lt_succ 7

end FlashCkpt.Core
