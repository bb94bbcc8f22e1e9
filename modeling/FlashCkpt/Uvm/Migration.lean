import FlashCkpt.Library.Transition
import FlashCkpt.Uvm.Service

/-! The managed blocks of a VA space while a checkpoint tracks them: PREPARE_ALL,
the service of faults, the creation of blocks and FINALIZE, in any order. The
ioctls come from another process, so they have no `mm`. -/
namespace FlashCkpt.Uvm

open Transition

variable {g n : Nat}

/-- A block with the range it belongs to. `wrote` is not part of the driver: it says
whether the block was written since the last PREPARE_ALL that reached it. -/
structure Managed (g n : Nat) where
  rangeId : Nat
  range : Range g
  block : Block g n
  wrote : Bool

/-- The blocks in the order of their addresses. -/
structure State (g n : Nat) where
  blocks : List (Managed g n)
  trackingActive : Bool

/-- A VA space that is not tracked. -/
structure Start (g n : Nat) where
  blocks : List (Managed g n)
  untracked : ∀ m ∈ blocks, m.block.tracked = false

def Start.state (x : Start g n) : State g n := ⟨x.blocks, false⟩

/-- Why PREPARE_ALL stops at a block: there is no context for its range, or its
revoke fails. -/
inductive PrepareFailure (n : Nat) where
  | noContext
  | revoke (failure : Failure n)

inductive Label (g n : Nat) where
  | prepare (failure : Option (Nat × PrepareFailure n))
  | service (i : Nat) (req : Request g n)
  | create (i : Nat) (rangeId : Nat) (range : Range g)
  | write (i : Nat) (p : Proc g) (page : Fin n)
  | finalize (noContext : Nat → Bool) (failures : Nat → Option (Failure n))

/-- The calls by which a block loses its write permissions. -/
def revokeAllOps (b : Block g n) : List (Op g n) :=
  b.residentProcessors.map fun p => .revoke p Finset.univ .readWrite

/-- The calls by which it gets them back. -/
def restoreAllOps (b : Block g n) : List (Op g n) :=
  b.residentProcessors.map fun p => .map p Finset.univ .readWriteAtomic

/-- The body of the loop of `prepare_va_space_for_migration`. -/
def prepareBlock (range : Range g) (failure : Option (Failure n)) (b : Block g n) :
    Block g n × Bool :=
  let b' := { b with dirty := false, tracked := true }
  if b'.residentProcessors = [] then (b', true)
  else runOps range false (revokeAllOps b') failure b'

def Managed.prepare (m : Managed g n) (failure : Option (Failure n)) : Managed g n :=
  { m with block := (prepareBlock m.range failure m.block).1, wrote := false }

/-- `prepare_va_space_for_migration`, with the blocks reached so far behind it. -/
def prepareBlocks : List (Managed g n) → Option (Nat × PrepareFailure n) →
    List (Managed g n) × Bool
  | [], failure => ([], failure.isNone)
  | m :: rest, some (0, .noContext) => (m :: rest, false)
  | m :: rest, some (0, .revoke failure) =>
      if (prepareBlock m.range (some failure) m.block).2 then
        (m.prepare (some failure) :: (prepareBlocks rest none).1, true)
      else (m.prepare (some failure) :: rest, false)
  | m :: rest, some (k + 1, failure) =>
      let later := prepareBlocks rest (some (k, failure))
      (m.prepare none :: later.1, later.2)
  | m :: rest, none =>
      let later := prepareBlocks rest none
      (m.prepare none :: later.1, later.2)

/-- The body of the loop of `uvm_api_live_migration_finalize`. -/
def finalizeBlock (range : Range g) (failure : Option (Failure n)) (b : Block g n) :
    Block g n :=
  let b' := { b with tracked := false, dirty := false }
  if b'.residentProcessors = [] then b'
  else (runOps range false (restoreAllOps b') failure b').1

def Managed.finalize (noContext : Nat → Bool) (failures : Nat → Option (Failure n))
    (m : Managed g n) (i : Nat) : Managed g n :=
  if noContext m.rangeId then m
  else { m with block := finalizeBlock m.range (failures i) m.block }

/-- `uvm_va_range_block_create`. -/
def createBlock (trackingActive : Bool) : Block g n where
  resident := fun _ => ∅
  prot := fun _ _ => .none
  readDuplicated := ∅
  maybeMapped := ∅
  tracked := trackingActive
  dirty := false

def next (s : State g n) : Label g n → Option (State g n)
  | .prepare failure =>
      let prepared := prepareBlocks s.blocks failure
      some ⟨prepared.1, s.trackingActive || prepared.2⟩
  | .service i req =>
      s.blocks[i]?.bind fun m =>
        if req.selected m.range m.block then
          some { s with
            blocks := s.blocks.set i { m with block := service m.range req m.block } }
        else none
  | .create i rangeId range =>
      some { s with
        blocks := s.blocks.insertIdx i ⟨rangeId, range, createBlock s.trackingActive, false⟩ }
  | .write i p page =>
      s.blocks[i]?.bind fun m =>
        if (m.block.prot p page).writable then
          some { s with blocks := s.blocks.set i { m with wrote := true } }
        else none
  | .finalize noContext failures =>
      some ⟨s.blocks.mapIdx fun i m => m.finalize noContext failures i, false⟩

theorem revokeAllOps_givesNoWrite {b : Block g n} : ∀ op ∈ revokeAllOps b, op.GivesNoWrite := by
  intro op hOp q pages prot hMap
  subst hMap
  simp [revokeAllOps] at hOp

/-- A range of a process with one GPU, which both processors can access. -/
def plainRange : Range 1 where
  canAccess := fun _ _ => true
  nativeAtomics := fun residency p => decide (residency = p)
  faultable := Proc.isGpu
  systemWideAtomics := fun _ => true
  gpuVaSpace := fun _ => true
  hasMemory := fun _ => true
  canReadDuplicate := true
  faultForceSysmem := false
  preferredLocation := none
  accessedBy := fun _ => false
  readDuplication := .unset
  uvmLite := fun _ => false
  logicalProt := .readWriteAtomic

/-- A block whose two pages are on the GPU and mapped there for writing. -/
def gpuBlock : Block 1 2 where
  resident := fun p => if p.isGpu then Finset.univ else ∅
  prot := fun p _ => if p.isGpu then .readWriteAtomic else .none
  readDuplicated := ∅
  maybeMapped := Finset.univ
  tracked := false
  dirty := false

def firstPage : Fin 2 := 0

/-- A write fault on the first page, which is made resident on the processor. -/
def writeFault (p : Proc 1) : Request 1 2 where
  processor := p
  newResidency := p
  pages := {firstPage}
  region := {firstPage}
  access := fun _ => .readWrite
  readDuplicate := ∅
  staged := ∅
  accessCounters := false
  thrashingPin := ∅
  thrashingProcessors := fun _ _ => false
  migratable := Finset.univ
  leftover := fun _ => ∅
  mm := true
  duplicateFailure := none
  copyFailure := none
  noMemory := false
  finishFailures := []

end FlashCkpt.Uvm
