import Mathlib.Data.Finset.Union
import FlashCkpt.Faults.Judgement
import FlashCkpt.Uvm.StaleMasks

/-! The service of a batch: the faults of a block are scanned and serviced together, again as long
as the service asks for it, and the blocks follow each other in the order of the faults. -/
namespace FlashCkpt.Faults

open Uvm (Prot Proc)

variable {V B : Type} {g n : Nat}

/-- What `uvm_va_block_check_logical_permissions` reads for a GPU. -/
structure Permissions where
  zombie : Bool
  builtinTests : Bool
  logicalProt : Nat → Prot
  migratable : Nat → Bool
  preferredReachable : Bool

/-- `uvm_va_block_check_logical_permissions` for a GPU on a managed range. -/
def Permissions.check (p : Permissions) (address : Nat) (access : AccessType) : Option Status :=
  if p.zombie then some .invalidAddress
  else if p.builtinTests = true ∧ p.logicalProt address < access.toProt then some .invalidAccessType
  else if p.migratable address = false ∧ p.preferredReachable = false then some .invalidAccessType
  else none

theorem Permissions.check_mono (p : Permissions) (address : Nat) {a b : AccessType} (h : a ≤ b)
    (hb : p.check address b = none) : p.check address a = none := by
  rw [check] at hb ⊢
  have hProt : a.toProt.level ≤ b.toProt.level := AccessType.toProt_mono h
  cases hZombie : p.zombie
  · rw [hZombie, if_neg Bool.false_ne_true, ite_eq_iff'] at hb
    rw [if_neg Bool.false_ne_true, if_neg]
    · rw [ite_eq_iff'] at hb
      rw [if_neg]
      exact fun hDenied => Option.some_ne_none _ ((hb.2 fun hTests =>
        Option.some_ne_none _ (hb.1 hTests)).1 hDenied)
    · rintro ⟨hTests, hLess⟩
      exact Option.some_ne_none _ (hb.1 ⟨hTests, Nat.lt_of_lt_of_le hLess hProt⟩)
  · rw [hZombie, if_pos rfl] at hb
    cases hb

/-- A managed block as the service of its faults sees it. -/
structure ManagedBlock (V : Type) (g : Nat) where
  space : V
  start : Nat
  range : Uvm.Range g
  permissions : Permissions
  aligned : pageSize ∣ start

/-- The answers that one scan and the service behind it get, and what else the service reads: `base`
is what it reads for one residency besides the masks of the scan. -/
structure Attempt (g n : Nat) where
  hint : Nat → Hint g
  select : Nat → Finset AccessType → Hint g → Proc g × Bool
  prefetchHint : Option (Finset Nat)
  base : Proc g → Uvm.Request g n
  retry : Bool

def ManagedBlock.view (m : ManagedBlock V g) (gpu : Fin g) (b : Uvm.Block g n) (a : Attempt g n) :
    BlockView g where
  start := m.start
  check := m.permissions.check
  authorized page prot := if h : page < n then decide (prot ≤ b.prot (.gpu gpu) ⟨page, h⟩) else false
  hint := a.hint
  select := a.select
  check_mono address _ _ h hb := m.permissions.check_mono address h hb
  authorized_mono page {p q} hProt h := by
    by_cases hPage : page < n
    · rw [dif_pos hPage] at h ⊢
      exact decide_eq_true (Nat.le_trans hProt (of_decide_eq_true h))
    · rw [dif_neg hPage] at h
      cases h

/-- `uvm_va_block_get_prefetch_hint`, which live migration switches off. -/
def ServiceContext.getPrefetchHint (c : ServiceContext g) (duplicates : Nat → Bool)
    (hint : Option (Finset Nat)) : ServiceContext g :=
  match hint with
  | none => c
  | some pages =>
      if c.residentProcessors.card = 1 then
        let duplicated := pages.filter fun page => duplicates page
        let newResidency := fun p =>
          if p ∈ c.residentProcessors then c.newResidency p ∪ pages else c.newResidency p
        let mask := c.residentProcessors.biUnion newResidency
        { c with
          accessType := fun page => if page ∈ pages then .prefetch else c.accessType page
          readDuplicateCount := c.readDuplicateCount + duplicated.card
          readDuplicateMask := if duplicated = ∅ then c.readDuplicateMask else
            duplicated ∪ (if c.readDuplicateCount = 0 then ∅ else c.readDuplicateMask)
          newResidency := newResidency
          firstPageIndex := mask.min.untopD c.firstPageIndex
          lastPageIndex := mask.max.unbotD c.lastPageIndex }
      else c

/-- What `uvm_va_block_service_copy` and `uvm_va_block_service_finish` read for one residency. -/
def ServiceContext.request (c : ServiceContext g) (gpu : Fin g) (a : Attempt g n) (residency : Proc g) :
    Uvm.Request g n :=
  { a.base residency with
    processor := .gpu gpu
    newResidency := residency
    pages := Finset.univ.filter fun page => page.val ∈ c.newResidency residency
    region := Finset.univ.filter fun page => c.firstPageIndex ≤ page.val ∧ page.val ≤ c.lastPageIndex
    access := fun page => (c.accessType page.val).toProt
    readDuplicate := if c.readDuplicateCount = 0 then ∅ else
      Finset.univ.filter fun page => page.val ∈ c.readDuplicateMask
    thrashingPin := if c.thrashingPinCount = 0 then ∅ else
      Finset.univ.filter fun page => page.val ∈ c.thrashingPinMask
    accessCounters := false }

/-- Whether the stages of the second half of a service succeed. -/
def stagesSucceed (range : Uvm.Range g) (mm : Bool) :
    List (Uvm.Stage g n) → List (Option (Uvm.Failure n)) → Uvm.Block g n → Bool
  | [], _, _ => true
  | stage :: rest, failures, b =>
      let ran := Uvm.runOps range mm stage.ops (failures.head?.getD none) b
      (ran.2 || stage.soft) && stagesSucceed range mm rest failures.tail ran.1

def finishSucceeds (range : Uvm.Range g) (req : Uvm.Request g n) (before b : Uvm.Block g n) : Bool :=
  let b₁ := Uvm.makeResidentFinish req b
  let plan := Uvm.finalPlan range req b₁
  !req.noMemory && stagesSucceed range req.mm (Uvm.finishStages range req before b₁ plan)
    req.finishFailures { b₁ with dirty := b₁.dirty || Uvm.recordsWriteFault req b₁ plan }

/-- `uvm_va_block_service_copy` and `uvm_va_block_service_finish` with their status. -/
def serviceResidency (range : Uvm.Range g) (req : Uvm.Request g n) (b : Uvm.Block g n) :
    Uvm.Block g n × Bool :=
  let copied := Uvm.serviceCopy range req b
  (Uvm.service range req b, copied.2 && finishSucceeds range req b copied.1)

/-- The loop of `uvm_va_block_service_locked`. -/
def serviceResidencies (range : Uvm.Range g) (request : Proc g → Uvm.Request g n) :
    List (Proc g) → Uvm.Block g n → Uvm.Block g n × Bool
  | [], b => (b, true)
  | residency :: rest, b =>
      let serviced := serviceResidency range (request residency) b
      if serviced.2 then serviceResidencies range request rest serviced.1 else serviced

/-- `uvm_va_block_service_locked`. -/
def serviceLocked (m : ManagedBlock V g) (gpu : Fin g) (a : Attempt g n) (c : ServiceContext g)
    (b : Uvm.Block g n) : Uvm.Block g n × Bool :=
  let duplicates := fun page => m.range.isReadDuplicate ||
    decide (m.range.readDuplication ≠ .disabled) && decide (∃ p ∈ b.readDuplicated, p.val = page)
  let context := if b.tracked then c else c.getPrefetchHint duplicates a.prefetchHint
  serviceResidencies m.range (context.request gpu a)
    (Proc.all.filter fun p => p ∈ context.residentProcessors) b

/-- What the service of a block leaves. -/
structure Serviced (V : Type) (g n : Nat) where
  entries : List (Entry V)
  state : ScanState V g
  block : Uvm.Block g n
  ok : Bool

/-- `service_fault_batch_block`: the faults are scanned and serviced until the service does not ask for a
retry. -/
def serviceFaultBatchBlock [DecidableEq V] (m : ManagedBlock V g) (gpu : Fin g) (first : Nat) :
    Nat → List (Attempt g n) → ScanState V g → Uvm.Block g n → List (Entry V) → Serviced V g n
  | _, [], s, b, entries => ⟨entries, s, b, false⟩
  | numRetries, a :: more, s, b, entries =>
      let scanned := scan (m.view gpu b a) numRetries first none ⟨s.flags, s.context.reset n⟩ entries
      let serviced := if scanned.2.context.pageFaultCount = 0 then (b, true)
        else serviceLocked m gpu a scanned.2.context b
      if serviced.2 then ⟨scanned.1, scanned.2, serviced.1, true⟩
      else if a.retry then
        serviceFaultBatchBlock m gpu first (numRetries + 1) more scanned.2 serviced.1 scanned.1
      else ⟨scanned.1, scanned.2, serviced.1, false⟩

/-- `service_fault_batch_fatal_notify`. -/
def serviceFaultBatchFatalNotify [DecidableEq V] (status : Status) (previous : Option (Entry V))
    (flags : BatchFlags V) (current : Entry V) : Entry V × BatchFlags V :=
  let isDuplicate := checkFaultEntryDuplicate current previous
  let marked := flags.markDuplicate current isDuplicate previous
  let judged := if current.accessType = .prefetch then marked.2.markInvalidPrefetch marked.1
    else marked.2.markFatal marked.1 (.ofStatus status) .all
  (judged.1, judged.2.countDuplicates current isDuplicate)

/-- What the service of a batch reads of the driver. A block that is found holds the address, and
blocks do not overlap. -/
structure Driver (V B : Type) (g n : Nat) where
  gpu : Fin g
  gpuVaSpace : V → Bool
  managed : B → ManagedBlock V g
  find : V → Nat → Except Status B
  find_holds : ∀ space address blk, find space address = .ok blk →
    (managed blk).space = space ∧ (managed blk).start ≤ address ∧
      address < (managed blk).start + n * pageSize
  disjoint : ∀ blk blk' address, (managed blk).space = (managed blk').space →
    (managed blk).start ≤ address → address < (managed blk).start + n * pageSize →
    (managed blk').start ≤ address → address < (managed blk').start + n * pageSize → blk = blk'
  replayPerVaBlock : Bool

/-- What the service of a batch changes, and the blocks that it has serviced. -/
structure BatchState (V B : Type) (g n : Nat) where
  scan : ScanState V g
  blocks : B → Uvm.Block g n
  visited : List B
  numReplays : Nat

/-- The state behind one dispatch. With the policy for blocks it is followed by a replay. -/
def BatchState.replay (s : BatchState V B g n) (d : Driver V B g n) : BatchState V B g n :=
  if d.replayPerVaBlock && s.scan.flags.fatalVaSpace.isNone then { s with numReplays := s.numReplays + 1 }
  else s

/-- The faults that are scanned along with the first one: those in its block. -/
def inBlock [DecidableEq V] (n : Nat) (m : ManagedBlock V g) (e : Entry V) : Bool :=
  decide (e.vaSpace = some m.space) && decide (e.faultAddress < m.start + n * pageSize)

variable [DecidableEq V] [DecidableEq B]

/-- `service_fault_batch`, from the fault at `i` on, with the attempts for each block that it services. The
flag tells whether it has come to the end. -/
def serviceFaultBatch (d : Driver V B g n) :
    Nat → List (List (Attempt g n)) → Nat → Option (Entry V) → BatchState V B g n → List (Entry V) →
      List (Entry V) × BatchState V B g n × Bool
  | _, _, _, _, s, [] => ([], s, true)
  | 0, _, _, _, s, entries => (entries, s, false)
  | fuel + 1, attempts, i, previous, s, e :: rest =>
      if e.isFatal then
        let flags := { s.scan.flags with
          fatalVaSpace := s.scan.flags.fatalVaSpace.or e.vaSpace
          fatalUtlbs := insert e.utlbId s.scan.flags.fatalUtlbs }
        let behind := serviceFaultBatch d fuel attempts (i + 1) (some e)
          { s with scan := { s.scan with flags := flags } } rest
        (e :: behind.1, behind.2)
      else
        match e.vaSpace.filter fun space => d.gpuVaSpace space with
        | none =>
            let behind := serviceFaultBatch d fuel attempts (i + 1) (some e) s rest
            (e :: behind.1, behind.2)
        | some space =>
            match d.find space e.faultAddress with
            | .error status =>
                let judged := serviceFaultBatchFatalNotify status previous s.scan.flags e
                let next : BatchState V B g n := { s with scan := { s.scan with flags := judged.2 } }
                let behind := serviceFaultBatch d fuel attempts (i + 1) (some judged.1) (next.replay d) rest
                (judged.1 :: behind.1, behind.2)
            | .ok blk =>
                let segment := (e :: rest).takeWhile (inBlock n (d.managed blk))
                let remaining := (e :: rest).dropWhile (inBlock n (d.managed blk))
                let serviced := serviceFaultBatchBlock (d.managed blk) d.gpu i 0
                  (attempts.head?.getD []) s.scan (s.blocks blk) segment
                let next : BatchState V B g n :=
                  { s with
                    scan := serviced.state
                    blocks := Function.update s.blocks blk serviced.block
                    visited := s.visited ++ [blk] }
                if serviced.ok then
                  let behind := serviceFaultBatch d fuel attempts.tail (i + segment.length)
                    serviced.entries.getLast? (next.replay d) remaining
                  (serviced.entries ++ behind.1, behind.2)
                else (serviced.entries ++ remaining, next, false)

end FlashCkpt.Faults
