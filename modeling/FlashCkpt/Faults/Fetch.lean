import Mathlib.Data.Finset.Max
import Mathlib.Data.List.Basic
import Mathlib.Order.Basic
import FlashCkpt.Uvm.Mappings

/-! Replayable faults as they are fetched from the fault buffer of a GPU: faults on one page
from one context are merged, and the entry with the most intrusive access stands for them. -/
namespace FlashCkpt.Faults

/-- `uvm_fault_access_type_t`, from the least to the most intrusive. -/
inductive AccessType where
  | prefetch
  | read
  | write
  | atomicWeak
  | atomicStrong
  deriving DecidableEq, Repr

namespace AccessType

def rank : AccessType → Nat
  | prefetch => 0
  | read => 1
  | write => 2
  | atomicWeak => 3
  | atomicStrong => 4

theorem rank_injective : Function.Injective rank := by
  intro a b h
  cases a <;> cases b <;> first | rfl | cases h

instance : LinearOrder AccessType := LinearOrder.lift' rank rank_injective

/-- `uvm_fault_access_type_to_prot`. -/
def toProt : AccessType → Uvm.Prot
  | atomicStrong => .readWriteAtomic
  | atomicWeak | write => .readWrite
  | read | prefetch => .readOnly

theorem toProt_mono {a b : AccessType} (h : a ≤ b) : a.toProt ≤ b.toProt := by
  revert h
  cases a <;> cases b <;> decide

end AccessType

/-- The part of `NV_STATUS` that a fault can end with. -/
inductive Status where
  | invalidAddress
  | invalidAccessType
  | noMemory
  deriving DecidableEq, Repr

/-- `UvmEventFatalReason`. -/
inductive FatalReason where
  | invalidFaultType
  | ofStatus (status : Status)
  deriving DecidableEq, Repr

/-- `uvm_fault_cancel_va_mode_t`. -/
inductive CancelVaMode where
  | all
  | writeAndAtomic
  deriving DecidableEq, Repr

/-- What the GPU reports of a fault. -/
structure Report where
  instancePtr : Nat
  veId : Nat
  utlbId : Nat
  faultAddress : Nat
  accessType : AccessType
  isFatal : Bool
  deriving DecidableEq, Repr

def pageSize : Nat := 4096

/-- The address as the driver tracks it, with `UVM_PAGE_ALIGN_DOWN`. -/
def Report.aligned (report : Report) : Report :=
  { report with faultAddress := report.faultAddress / pageSize * pageSize }

/-- `uvm_fault_buffer_entry_t`. What a filtered entry holds in its counter and its mask is not read
by anybody. -/
structure Entry (V : Type) extends Report where
  fatalReason : Option FatalReason
  vaSpace : Option V
  filtered : Bool
  cancelVaMode : CancelVaMode
  numInstances : Nat
  accessTypeMask : Finset AccessType
  isThrottled : Bool
  isInvalidPrefetch : Bool

variable {V : Type}

/-- An entry as it is after `parse_replayable_entry` and the initialization behind it. -/
def Entry.parsed (V : Type) (report : Report) : Entry V where
  toReport := report.aligned
  fatalReason := if report.isFatal then some .invalidFaultType else none
  vaSpace := none
  filtered := false
  cancelVaMode := .all
  numInstances := 0
  accessTypeMask := ∅
  isThrottled := false
  isInvalidPrefetch := false

/-- What `cmp_fault_instance_ptr` compares. -/
def Report.context (r : Report) : Nat × Nat := (r.instancePtr, r.veId)

/-- Whether `cmp_fault_instance_ptr` finds two faults to come from one context. -/
def Report.sameInstance (a b : Report) : Bool :=
  a.instancePtr == b.instancePtr && a.veId == b.veId

/-- Faults on one page from one context. -/
def Report.SamePage (a b : Report) : Prop :=
  a.context = b.context ∧ a.faultAddress = b.faultAddress

theorem Report.SamePage.symm {a b : Report} (h : a.SamePage b) : b.SamePage a := ⟨h.1.symm, h.2.symm⟩

theorem Report.SamePage.trans {a b c : Report} (h : a.SamePage b) (h' : b.SamePage c) :
    a.SamePage c :=
  ⟨h.1.trans h'.1, h.2.trans h'.2⟩

theorem Report.sameInstance_iff {a b : Report} : a.sameInstance b = true ↔ a.context = b.context := by
  rw [sameInstance, Bool.and_eq_true, beq_iff_eq, beq_iff_eq, context, context, Prod.mk.injEq]

/-- `uvm_fault_utlb_info_t`. The last fault is an index of the cache. -/
structure Utlb where
  numPendingFaults : Nat
  lastFault : Nat
  hasFatalFaults : Bool
  deriving DecidableEq, Repr

/-- What a fetch writes of `uvm_fault_service_batch_context_t`. The lists of merged instances are
kept as rings of indices of the cache, each with the entry that stands for the others. -/
structure Batch (V : Type) where
  cache : List (Entry V)
  rings : List (List Nat)
  utlbs : Nat → Utlb
  maxUtlbId : Nat
  lastFault : Option Nat
  isSingleInstancePtr : Bool
  numCoalescedFaults : Nat

namespace Batch

/-- A batch context as it is allocated. -/
def empty (V : Type) : Batch V := ⟨[], [], fun _ => ⟨0, 0, false⟩, 0, none, true, 0⟩

/-- The context at the start of `fetch_fault_buffer_entries`. Only the uTLBs that the batch before
has seen are cleared. -/
def reset (b : Batch V) : Batch V where
  cache := []
  rings := []
  utlbs id := if id ≤ b.maxUtlbId then ⟨0, (b.utlbs id).lastFault, false⟩ else b.utlbs id
  maxUtlbId := 0
  lastFault := none
  isSingleInstancePtr := true
  numCoalescedFaults := 0

/-- A ring with `pair` in the place of `j`. -/
def link (pair : List Nat) (j : Nat) (ring : List Nat) : List Nat :=
  ring.flatMap fun k => if k = j then pair else [k]

/-- `fetch_fault_buffer_merge_entry`, for the entry that is fetched next. An entry that takes the
place of the last one enters its ring before it (`list_replace`, `list_add`), another one behind it. -/
def mergeEntry (b : Batch V) (current last : Entry V) (j : Nat) : Batch V :=
  let merged := { last with
    numInstances := last.numInstances + 1
    accessTypeMask := insert current.accessType last.accessTypeMask }
  if last.accessType < current.accessType then
    { b with
      cache := b.cache.set j { merged with filtered := true } ++ [{ current with
        numInstances := merged.numInstances
        accessTypeMask := merged.accessTypeMask }]
      rings := b.rings.map (link [b.cache.length, j] j) }
  else
    { b with
      cache := b.cache.set j merged ++ [{ current with filtered := true }]
      rings := b.rings.map (link [j, b.cache.length] j) }

def setUtlbLast (b : Batch V) (id : Nat) : Batch V :=
  { b with utlbs := Function.update b.utlbs id { b.utlbs id with lastFault := b.cache.length - 1 } }

/-- The entry that `is_last_tlb_fault` finds. -/
def lastTlbEntry (b : Batch V) (current : Entry V) : Option (Entry V) :=
  if 0 < (b.utlbs current.utlbId).numPendingFaults then
    b.cache[(b.utlbs current.utlbId).lastFault]?.filter fun last =>
      current.sameInstance last.toReport && current.faultAddress == last.faultAddress
  else none

/-- `fetch_fault_buffer_try_merge_entry`, where `last` is the last fault of the whole batch. -/
def tryMergeEntry (b : Batch V) (current last : Entry V) (j : Nat) : Option (Batch V) :=
  match b.lastTlbEntry current with
  | some lastTlb =>
      let merged := b.mergeEntry current lastTlb (b.utlbs current.utlbId).lastFault
      some (if lastTlb.accessType < current.accessType then merged.setUtlbLast current.utlbId else merged)
  | none =>
      if current.sameInstance last.toReport && current.faultAddress == last.faultAddress &&
          decide (current.accessType ≤ last.accessType) then
        let merged := b.mergeEntry current last j
        some (if last.accessType < current.accessType then { merged with lastFault := some b.cache.length }
          else merged)
      else none

/-- An entry of its own. -/
def addEntry (b : Batch V) (current : Entry V) (isSameInstancePtr : Bool) : Batch V :=
  let tlb := b.utlbs current.utlbId
  { b with
    cache := b.cache ++ [{ current with numInstances := 1, accessTypeMask := {current.accessType} }]
    rings := b.rings ++ [[b.cache.length]]
    utlbs := Function.update b.utlbs current.utlbId
      { tlb with numPendingFaults := tlb.numPendingFaults + 1, lastFault := b.cache.length }
    lastFault := some b.cache.length
    isSingleInstancePtr := b.isSingleInstancePtr && isSameInstancePtr
    numCoalescedFaults := b.numCoalescedFaults + 1 }

def noteUtlb (b : Batch V) (id : Nat) : Batch V := { b with maxUtlbId := max b.maxUtlbId id }

/-- A fault that is merged, or has an entry of its own. -/
def placeEntry (b : Batch V) (mayFilter : Bool) (current : Entry V) : Batch V :=
  match b.lastFault with
  | none => b.addEntry current true
  | some j =>
      match b.cache[j]? with
      | none => b
      | some last =>
          match if mayFilter && !current.isFatal then b.tryMergeEntry current last j else none with
          | some merged => merged
          | none => b.addEntry current (current.sameInstance last.toReport)

/-- One round of the loop of `fetch_fault_buffer_entries`. -/
def fetchEntry (mayFilter : Bool) (b : Batch V) (report : Report) : Batch V :=
  (b.noteUtlb report.utlbId).placeEntry mayFilter (Entry.parsed V report)

/-- `fetch_fault_buffer_entries`, for the entries it finds valid in the buffer. -/
def fetchEntries (mayFilter : Bool) (b : Batch V) (reports : List Report) : Batch V :=
  reports.foldl (fetchEntry mayFilter) b.reset

end Batch

end FlashCkpt.Faults
