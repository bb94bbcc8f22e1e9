import FlashCkpt.Faults.Fetch

/-! The scan of the faults of one block: which pages are serviced and with which access, and which
faults are to be cancelled. -/
namespace FlashCkpt.Faults

open Uvm (Prot Proc)

variable {V : Type} {g : Nat}

/-- `uvm_perf_thrashing_hint_t`. -/
inductive Hint (g : Nat) where
  | none
  | pin (residency : Proc g)
  | throttle
  deriving DecidableEq

/-- What the scan reads of a block. The checks of permissions take an address, whose migratability
they know; a hint is asked for an index of the ordered view and may change from one to the next. Who
may have one access, or has one permission, may have, or has, all below it. -/
structure BlockView (g : Nat) where
  start : Nat
  check : Nat → AccessType → Option Status
  authorized : Nat → Prot → Bool
  hint : Nat → Hint g
  select : Nat → Finset AccessType → Hint g → Proc g × Bool
  check_mono : ∀ address {a b}, a ≤ b → check address b = none → check address a = none
  authorized_mono : ∀ page {p q : Prot}, p ≤ q → authorized page q = true → authorized page p = true

/-- `uvm_va_block_cpu_page_index`. -/
def BlockView.pageIndex (view : BlockView g) (address : Nat) : Nat := (address - view.start) / pageSize

/-- The part of `uvm_service_block_context_t` that a scan fills for the service of the block. A mask
holds what an earlier use has left in it until its first page is set. -/
structure ServiceContext (g : Nat) where
  residentProcessors : Finset (Proc g)
  newResidency : Proc g → Finset Nat
  thrashingPinCount : Nat
  thrashingPinMask : Finset Nat
  readDuplicateCount : Nat
  readDuplicateMask : Finset Nat
  accessType : Nat → AccessType
  pageFaultCount : Nat
  firstPageIndex : Nat
  lastPageIndex : Nat

/-- The context at the start of a scan of a block with this many pages. -/
def ServiceContext.reset (pages : Nat) (c : ServiceContext g) : ServiceContext g :=
  { c with
    residentProcessors := ∅
    thrashingPinCount := 0
    readDuplicateCount := 0
    pageFaultCount := 0
    firstPageIndex := pages
    lastPageIndex := 0 }

/-- What the faults of a batch leave in its context for the steps behind the service. -/
structure BatchFlags (V : Type) where
  numDuplicateFaults : Nat
  numInvalidPrefetchFaults : Nat
  hasThrottledFaults : Bool
  fatalVaSpace : Option V
  fatalUtlbs : Finset Nat

structure ScanState (V : Type) (g : Nat) where
  flags : BatchFlags V
  context : ServiceContext g

/-- `check_fault_entry_duplicate`. -/
def checkFaultEntryDuplicate [DecidableEq V] (current : Entry V) (previous : Option (Entry V)) : Bool :=
  previous.any fun p => decide (current.vaSpace = p.vaSpace) && current.faultAddress == p.faultAddress

namespace BatchFlags

variable (flags : BatchFlags V) (e : Entry V)

/-- The counter of `update_batch_and_notify_fault`. -/
def countDuplicates (isDuplicate : Bool) : BatchFlags V :=
  { flags with
    numDuplicateFaults := flags.numDuplicateFaults +
      (if isDuplicate then e.numInstances else e.numInstances - 1) }

/-- `mark_fault_invalid_prefetch`. -/
def markInvalidPrefetch : Entry V × BatchFlags V :=
  ({ e with isInvalidPrefetch := true },
    { flags with numInvalidPrefetchFaults := flags.numInvalidPrefetchFaults + e.numInstances })

/-- `mark_fault_throttled`. -/
def markThrottled : Entry V × BatchFlags V :=
  ({ e with isThrottled := true }, { flags with hasThrottledFaults := true })

/-- `mark_fault_fatal`. -/
def markFatal (reason : FatalReason) (mode : CancelVaMode) : Entry V × BatchFlags V :=
  ({ e with isFatal := true, fatalReason := some reason, cancelVaMode := mode },
    { flags with
      fatalUtlbs := insert e.utlbId flags.fatalUtlbs
      fatalVaSpace := flags.fatalVaSpace.or e.vaSpace })

/-- `fault_entry_duplicate_flags`. -/
def duplicateFlags (previous : Entry V) : Entry V × BatchFlags V :=
  let marked := if previous.isInvalidPrefetch then flags.markInvalidPrefetch e else (e, flags)
  if previous.isThrottled then marked.2.markThrottled marked.1 else marked

/-- The flags of the fault before, for another one on its page. -/
def markDuplicate (isDuplicate : Bool) : Option (Entry V) → Entry V × BatchFlags V
  | some previous => if isDuplicate then flags.duplicateFlags e previous else (e, flags)
  | none => (e, flags)

/-- `check_fault_access_permissions`, with the access to be serviced if there is any. -/
def checkFaultAccessPermissions (check : AccessType → Option Status) (numRetries : Nat) :
    (Entry V × BatchFlags V) × Option AccessType :=
  match check e.accessType with
  | none => ((e, flags), some e.accessType)
  | some status =>
      if e.accessType = .prefetch then
        (if numRetries = 0 then flags.markInvalidPrefetch e else (e, flags), none)
      else if .read < e.accessType then
        if .read ∈ e.accessTypeMask then
          match check .read with
          | none => (flags.markFatal e (.ofStatus status) .writeAndAtomic, some .read)
          | some readStatus => (flags.markFatal e (.ofStatus readStatus) .all, none)
        else (flags.markFatal e (.ofStatus status) .writeAndAtomic, none)
      else (flags.markFatal e (.ofStatus status) .all, none)

end BatchFlags

/-- The masks with one more page. -/
def ServiceContext.add (c : ServiceContext g) (page : Nat) (access : AccessType) (hint : Hint g)
    (residency : Proc g) (readDuplicate : Bool) : ServiceContext g :=
  let pinned := match hint with
    | .pin _ => { c with
        thrashingPinCount := c.thrashingPinCount + 1
        thrashingPinMask := insert page (if c.thrashingPinCount = 0 then ∅ else c.thrashingPinMask) }
    | _ => c
  let duplicated := if readDuplicate then { pinned with
      readDuplicateCount := c.readDuplicateCount + 1
      readDuplicateMask := insert page (if c.readDuplicateCount = 0 then ∅ else c.readDuplicateMask) }
    else pinned
  { duplicated with
    residentProcessors := insert residency c.residentProcessors
    newResidency := Function.update c.newResidency residency
      (insert page (if residency ∈ c.residentProcessors then c.newResidency residency else ∅))
    accessType := Function.update c.accessType page access
    pageFaultCount := c.pageFaultCount + 1
    firstPageIndex := min c.firstPageIndex page
    lastPageIndex := max c.lastPageIndex page }

/-- The page of a fault that may be serviced, unless the GPU has the permission already or is to be
slowed down. -/
def servicePage (view : BlockView g) (numRetries i : Nat) (access : AccessType)
    (marked : Entry V × BatchFlags V) (c : ServiceContext g) : Entry V × ScanState V g :=
  let e := marked.1
  let page := view.pageIndex e.faultAddress
  if view.authorized page access.toProt then (e, ⟨marked.2, c⟩)
  else
    match view.hint i with
    | .throttle =>
        let throttled := if numRetries = 0 then marked.2.markThrottled e else marked
        (throttled.1, ⟨throttled.2, c⟩)
    | hint =>
        let mask := if access = e.accessType then e.accessTypeMask else {access}
        let selected := view.select page mask hint
        (e, ⟨marked.2, c.add page access hint selected.1 selected.2⟩)

/-- One round of the scan of `service_fault_batch_block_locked`. -/
def scanEntry [DecidableEq V] (view : BlockView g) (numRetries i : Nat) (previous : Option (Entry V))
    (s : ScanState V g) (current : Entry V) : Entry V × ScanState V g :=
  let e := { current with isThrottled := false, isInvalidPrefetch := false }
  let isDuplicate := checkFaultEntryDuplicate e previous
  let flags := if numRetries = 0 then s.flags.countDuplicates e isDuplicate else s.flags
  let marked := flags.markDuplicate e isDuplicate previous
  -- a page is serviced for its first fault that is not fatal
  if previous.any fun p => isDuplicate && !p.isFatal then (marked.1, ⟨marked.2, s.context⟩)
  else
    let checked := marked.2.checkFaultAccessPermissions marked.1 (view.check e.faultAddress) numRetries
    match checked.2 with
    | none => (checked.1.1, ⟨checked.1.2, s.context⟩)
    | some access => servicePage view numRetries i access checked.1 s.context

/-- The scan of the faults of a block, from the one at `i` on. -/
def scan [DecidableEq V] (view : BlockView g) (numRetries : Nat) :
    Nat → Option (Entry V) → ScanState V g → List (Entry V) → List (Entry V) × ScanState V g
  | _, _, s, [] => ([], s)
  | i, previous, s, e :: rest =>
      let scanned := scanEntry view numRetries i previous s e
      let behind := scan view numRetries (i + 1) (some scanned.1) scanned.2 rest
      (scanned.1 :: behind.1, behind.2)

end FlashCkpt.Faults
