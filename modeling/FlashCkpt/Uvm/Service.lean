import FlashCkpt.Uvm.Mappings

/-! The service of a fault, or of an access counter notification, on one block:
`uvm_va_block_service_copy` makes the pages resident at their new place and
`uvm_va_block_service_finish` maps them, with the bulk restore and the record of
write faults that live migration adds. -/
namespace FlashCkpt.Uvm

variable {g n : Nat}

/-- What a service reads besides the block, and where it fails. `access` is the
permission the fault of a page asks for, and `leftover` what the page masks of
`mappings_by_prot` hold from earlier uses of the service context. -/
structure Request (g n : Nat) where
  processor : Proc g
  newResidency : Proc g
  pages : Finset (Fin n)
  region : Finset (Fin n)
  access : Fin n → Prot
  readDuplicate : Finset (Fin n)
  staged : Finset (Fin n)
  accessCounters : Bool
  thrashingPin : Finset (Fin n)
  thrashingProcessors : Fin n → Proc g → Bool
  migratable : Finset (Fin n)
  leftover : Prot → Finset (Fin n)
  mm : Bool
  duplicateFailure : Option (Failure n)
  copyFailure : Option (Failure n)
  noMemory : Bool
  finishFailures : List (Option (Failure n))

namespace Request

variable (req : Request g n)

/-- The pages whose permission is computed. -/
def served : Finset (Fin n) := req.pages ∩ req.region

/-- The pages that get a further copy. -/
def duplicated : Finset (Fin n) := req.served ∩ req.readDuplicate

/-- The pages that are made resident at the new place only. -/
def moved : Finset (Fin n) := req.served \ req.readDuplicate

end Request

/-- The read-duplicated pages of a request are those of
`uvm_va_block_select_residency`, and every fault asks for some permission. -/
def Request.selected (range : Range g) (req : Request g n) (b : Block g n) : Bool :=
  decide (∀ page ∈ req.served, req.access page ≠ .none ∧
    (page ∈ req.readDuplicate → req.access page = .readOnly ∧
      (range.isReadDuplicate = true ∨
        range.readDuplication ≠ .disabled ∧ page ∈ b.readDuplicated)))

section Copy

variable (range : Range g) (req : Request g n)

/-- `block_prep_read_duplicate_mapping` for each processor that holds pages which
enter read duplication: only this processor keeps them mapped, for reading. -/
def prepReadDuplicateOps (b : Block g n) : List (Op g n) :=
  b.residentProcessors.flatMap fun src =>
    let pages := (req.duplicated \ b.readDuplicated) ∩ b.resident src
    if pages = ∅ then [] else
      ((Proc.all.filter fun q => b.mapped q && !range.uvmLite q && q ≠ src).map
        fun q => .unmap q pages) ++ [.revoke src pages .readWrite]

/-- The residency after `uvm_va_block_make_resident_read_duplicate`. Pages staged
in system memory on their way stay there as well. -/
def duplicatedResidency (b : Block g n) : Block g n :=
  let migrated := (req.duplicated \ b.resident req.newResidency).filter fun page =>
    b.pageResidentProcessors page ≠ []
  let staged := if req.newResidency.isGpu then req.staged ∩ migrated else ∅
  { b with
    resident := fun p =>
      if p = req.newResidency then b.resident p ∪ req.duplicated
      else if p = .cpu then b.resident p ∪ staged
      else b.resident p
    readDuplicated := b.readDuplicated ∪ migrated }

/-- `uvm_va_block_make_resident_read_duplicate`. A failure behind the calls is one
of the copy. -/
def makeResidentReadDuplicate (b : Block g n) : Block g n × Bool :=
  if req.duplicated = ∅ then (b, true)
  else
    let prepared := runOps range req.mm (prepReadDuplicateOps range req b) req.duplicateFailure b
    (if prepared.2 then duplicatedResidency req prepared.1 else prepared.1, prepared.2)

/-- The unmaps of `uvm_va_block_make_resident_copy`: pages that are not at the new
place from all processors but the UVM-Lite ones, then read-duplicated pages from
all but the new place as well. -/
def makeResidentOps (b : Block g n) : List (Op g n) :=
  let holders := Proc.all.filter fun q => b.mapped q && !range.uvmLite q
  (holders.map fun q => .unmap q (req.moved \ b.resident req.newResidency)) ++
    ((holders.filter fun q => q ≠ req.newResidency).map
      fun q => .unmap q (req.moved ∩ b.readDuplicated))

def makeResidentCopy (b : Block g n) : Block g n × Bool :=
  if req.moved = ∅ then (b, true)
  else runOps range req.mm (makeResidentOps range req b) req.copyFailure b

/-- `uvm_va_block_service_copy`. -/
def serviceCopy (b : Block g n) : Block g n × Bool :=
  let duplicated := makeResidentReadDuplicate range req b
  if duplicated.2 then makeResidentCopy range req duplicated.1 else duplicated

/-- `uvm_va_block_make_resident_finish`: the moved pages are at the new place only. -/
def makeResidentFinish (b : Block g n) : Block g n :=
  { b with
    resident := fun p =>
      if p = req.newResidency then b.resident p ∪ req.moved else b.resident p \ req.moved
    readDuplicated := b.readDuplicated \ req.moved
    maybeMapped := b.maybeMapped \ (req.moved \ b.resident req.newResidency).filter fun page =>
      b.pageResidentProcessors page ≠ [] }

/-- The block when the pages are at their new place. -/
def Request.settled (b : Block g n) : Block g n :=
  makeResidentFinish req (serviceCopy range req b).1

/-- `pages_changed_residency` at the end, from the block at the start: pages with a
further copy do not count unless they were nowhere. -/
def didMigrate (b : Block g n) : Finset (Fin n) :=
  (req.moved \ b.resident req.newResidency) ∪
    req.duplicated.filter fun page => b.pageResidentProcessors page = []

end Copy

section Permissions

variable (range : Range g)

/-- `block_region_might_read_duplicate` for one page. -/
def mightReadDuplicate (b : Block g n) (page : Fin n) : Bool :=
  range.canReadDuplicate &&
    match range.readDuplication with
    | .disabled => false
    | .enabled => true
    | .unset => decide (page ∈ b.readDuplicated)

/-- `compute_new_permission`: reads are promoted unless that would take atomics
from another processor, and writes where atomics are native. -/
def computeNewPermission (req : Request g n) (b : Block g n) (page : Fin n) : Prot :=
  let promoted :=
    if .readOnly < range.logicalProt ∧ req.access page = .readOnly ∧
        mightReadDuplicate range b page = false ∧
        (b.pageAuthorizedProcessors page .readWriteAtomic).filter
          (fun q => !range.nativeAtomics req.newResidency q && range.faultable q) = []
    then .readWrite else req.access page
  if range.logicalProt = .readWriteAtomic ∧ promoted = .readWrite ∧
      range.nativeAtomics req.newResidency req.processor = true
  then .readWriteAtomic else promoted

/-- `uvm_va_block_page_compute_highest_permission`. -/
def computeHighestPermission (b : Block g n) (p : Proc g) (page : Fin n) : Prot :=
  if range.uvmLite p then .readWriteAtomic
  else match b.pageResidentProcessors page with
    | [] => .none
    | [residency] =>
        if range.canAccess p residency = false then .none
        else if page ∉ b.maybeMapped then .readWriteAtomic
        else
          let atomics := (b.pageAuthorizedProcessors page .readWriteAtomic).filter
            fun q => range.systemWideAtomics q && q ≠ p
          let writes := (b.pageAuthorizedProcessors page .readWrite).filter fun q => q ≠ p
          if atomics.head?.any fun q => !range.nativeAtomics residency q then .readOnly
          else if range.systemWideAtomics p = false ∨ range.nativeAtomics residency p = true ∨
            writes = [] then .readWriteAtomic
          else .readWrite
    | many => if p ∈ many then .readOnly else .none

end Permissions

/-- An entry of `mappings_by_prot`. -/
structure Mappings (n : Nat) where
  pages : Finset (Fin n)
  count : Nat

/-- The pages to map with each permission, and the region they are taken from. -/
structure Plan (n : Nat) where
  readOnly : Mappings n
  readWrite : Mappings n
  readWriteAtomic : Mappings n
  region : Finset (Fin n)

def Plan.byProt (plan : Plan n) : Prot → Mappings n
  | .none => ⟨∅, 0⟩
  | .readOnly => plan.readOnly
  | .readWrite => plan.readWrite
  | .readWriteAtomic => plan.readWriteAtomic

section Plans

variable (range : Range g) (req : Request g n)

/-- The pages with one permission. A mask without pages is not cleared. -/
def computeMappings (b : Block g n) (prot : Prot) : Mappings n :=
  let pages := req.served.filter fun page => computeNewPermission range req b page = prot
  ⟨if pages.card = 0 then req.leftover prot else pages, pages.card⟩

def computePlan (b : Block g n) : Plan n where
  readOnly := computeMappings range req b .readOnly
  readWrite := computeMappings range req b .readWrite
  readWriteAtomic := computeMappings range req b .readWriteAtomic
  region := req.region

/-- The guard of the bulk restore: a tracked block and a GPU that holds the pages. -/
def restoresBulk (b : Block g n) : Bool :=
  b.tracked && req.processor.isGpu && decide (req.processor = req.newResidency)

/-- The bulk restore: the pages to be mapped for writing, and all pages the GPU
holds, are mapped for writing and atomics. Counts are unsigned 32-bit numbers. -/
def bulkRestore (b : Block g n) (plan : Plan n) : Plan n :=
  let writes := plan.readWrite.pages
  let atomics := plan.readWriteAtomic.pages ∪ writes
  let rest := b.resident req.newResidency \ atomics
  { readOnly := ⟨plan.readOnly.pages \ rest, plan.readOnly.count⟩
    readWrite := ⟨∅, (plan.readWrite.count + 2 ^ 32 - writes.card) % 2 ^ 32⟩
    readWriteAtomic :=
      ⟨atomics ∪ rest, (plan.readWriteAtomic.count + writes.card + rest.card) % 2 ^ 32⟩
    region := Finset.univ }

def finalPlan (b : Block g n) : Plan n :=
  if restoresBulk req b then bulkRestore req b (computePlan range req b)
  else computePlan range req b

/-- Whether `uvm_live_migration_record_write_fault` is called for a page. -/
def recordsWriteFault (b : Block g n) (plan : Plan n) : Bool :=
  b.tracked && req.processor.isGpu &&
    decide (((plan.readWrite.pages ∪ plan.readWriteAtomic.pages) ∩ plan.region).Nonempty)

end Plans

/-- Calls whose failure ends the service, or only this row of calls. -/
structure Stage (g n : Nat) where
  ops : List (Op g n)
  soft : Bool

section Finish

variable (range : Range g) (req : Request g n)

/-- The processors a permission is revoked from, in step 2. -/
def revokeProcessors (b : Block g n) (prot : Prot) : List (Proc g) :=
  Proc.all.filter fun q =>
    b.mapped q && range.faultable q && q ≠ req.processor &&
      (if prot = .readWrite ∨ range.systemWideAtomics req.processor = false ∨
          range.nativeAtomics req.newResidency req.processor = true
        then !range.nativeAtomics req.newResidency q && range.systemWideAtomics q else true) &&
      !range.uvmLite q

def revokeStage (before b : Block g n) (plan : Plan n) (prot : Prot) : List (Stage g n) :=
  let mappings := plan.byProt prot
  let pages := (req.pages \ didMigrate req before) ∩ mappings.pages
  if mappings.count = 0 ∨ pages = ∅ then []
  else
    let revoked : Prot :=
      if req.processor.isGpu ∧ prot = .readWriteAtomic then .readWrite else .readWriteAtomic
    [⟨(revokeProcessors range req b prot).map fun q => .revoke q (pages ∩ plan.region) revoked,
      false⟩]

/-- Step 3. A CPU mapping is removed before it is made again. -/
def mapStage (plan : Plan n) (prot : Prot) : List (Stage g n) :=
  let mappings := plan.byProt prot
  if mappings.count = 0 then []
  else
    let pages := mappings.pages ∩ plan.region
    [⟨(if req.accessCounters = false ∧ req.processor = .cpu then [.unmap .cpu pages] else []) ++
      [.map req.processor pages prot], false⟩]

/-- `do_block_add_mappings_after_migration`. -/
def addMappingsOps (processors : List (Proc g)) (pages : Finset (Fin n)) (maxProt : Prot) :
    List (Op g n) :=
  let native := range.nativeAtomics req.newResidency
  let others := fun (qs : List (Proc g)) (prot : Prot) => qs.map fun q =>
    (.map q pages (if prot = .readWrite ∧ range.systemWideAtomics q = false
      then .readWriteAtomic else prot) : Op g n)
  if maxProt = .readWriteAtomic then
    if native req.processor then
      ((processors.filter fun q => native q).map fun q => .map q pages .readWriteAtomic) ++
        others (processors.filter fun q => !native q) .readWrite
    else others processors (if req.processor = .cpu then .readWrite else .readOnly)
  else others processors maxProt

/-- The processors that are mapped along with the one that faulted. -/
def mapOtherProcessors (thrashing : Proc g → Bool) : List (Proc g) :=
  Proc.all.filter fun q =>
    (range.accessedBy q || thrashing q) && range.canAccess q req.newResidency &&
      q ≠ req.processor &&
      !(decide (range.preferredLocation = some q) && q ≠ req.newResidency && range.hasMemory q)

/-- `uvm_va_block_add_mappings_after_migration`. The stages without calls are the
allocations of processor masks. -/
def addMappingsAfterMigration (b : Block g n) (region pages : Finset (Fin n)) (maxProt : Prot)
    (thrashing : Proc g → Bool) : List (Stage g n) :=
  if range.isReadDuplicate then []
  else
    let final := if range.readDuplication = .unset then pages \ b.readDuplicated else pages
    let others := mapOtherProcessors range req thrashing
    let lite :=
      if range.preferredLocation = some req.newResidency then others.filter fun q => range.uvmLite q
      else []
    let rest := others.filter fun q => !range.uvmLite q
    let cpuApart := decide (.cpu ∈ rest) && !decide (region ⊆ req.migratable)
    [⟨lite.map fun q => .map q (final ∩ region) .readWriteAtomic, false⟩] ++
      (if cpuApart then
        [⟨[], false⟩,
          ⟨addMappingsOps range req [.cpu] (final ∩ req.migratable ∩ region) maxProt, true⟩]
        else []) ++
      [⟨[], false⟩,
        ⟨addMappingsOps range req (if cpuApart then rest.filter (· ≠ .cpu) else rest)
          (final ∩ region) maxProt, true⟩]

/-- Step 4, first for the pages pinned because they are thrashing. -/
def otherStages (b : Block g n) (plan : Plan n) (prot : Prot) : List (Stage g n) :=
  let mappings := plan.byProt prot
  let pages := req.pages ∩ mappings.pages
  if mappings.count = 0 ∨ pages = ∅ then []
  else
    ((List.finRange n).filter (· ∈ req.thrashingPin ∩ plan.region ∩ pages)).flatMap
        (fun page => addMappingsAfterMigration range req b {page} pages prot
          (req.thrashingProcessors page)) ++
      if pages \ req.thrashingPin = ∅ then []
      else addMappingsAfterMigration range req b plan.region (pages \ req.thrashingPin) prot
        fun _ => false

def finishStages (before b : Block g n) (plan : Plan n) : List (Stage g n) :=
  ([.readWrite, .readWriteAtomic] : List Prot).flatMap (revokeStage range req before b plan) ++
    ([.readOnly, .readWrite, .readWriteAtomic] : List Prot).flatMap (mapStage req plan) ++
    ([.readOnly, .readWrite, .readWriteAtomic] : List Prot).flatMap (otherStages range req b plan)

/-- The stages up to one that fails and does not keep its failure to itself. -/
def runStages (range : Range g) (mm : Bool) :
    List (Stage g n) → List (Option (Failure n)) → Block g n → Block g n
  | [], _, b => b
  | stage :: rest, failures, b =>
      let (b', ok) := runOps range mm stage.ops (failures.head?.getD none) b
      if ok || stage.soft then runStages range mm rest failures.tail b' else b'

/-- `uvm_va_block_service_finish`, with the block as it was before the copy. -/
def serviceFinish (before b : Block g n) : Block g n :=
  let b₁ := makeResidentFinish req b
  if req.noMemory then b₁
  else
    let plan := finalPlan range req b₁
    runStages range req.mm (finishStages range req before b₁ plan) req.finishFailures
      { b₁ with dirty := b₁.dirty || recordsWriteFault req b₁ plan }

/-- The service of one new residency in `uvm_va_block_service_locked`. -/
def service (b : Block g n) : Block g n :=
  let (b', ok) := serviceCopy range req b
  if ok then serviceFinish range req b b' else b'

end Finish

section Facts

theorem runStages_preserves {range : Range g} {mm : Bool} {Inv : Block g n → Prop}
    {stages : List (Stage g n)} {b : Block g n}
    (hOp : ∀ stage ∈ stages, ∀ op ∈ stage.ops, ∀ done b, Inv b → Inv (op.apply range mm done b))
    (failures : List (Option (Failure n))) (h : Inv b) :
    Inv (runStages range mm stages failures b) := by
  induction stages generalizing failures b with
  | nil => exact h
  | cons stage rest ih =>
      have hStage : Inv (runOps range mm stage.ops (failures.head?.getD none) b).1 :=
        runOps_preserves (hOp stage List.mem_cons_self) _ h
      have hRest := fun stage' h' => hOp stage' (List.mem_cons_of_mem stage h')
      simp only [runStages]
      split
      · exact ih hRest failures.tail hStage
      · exact hStage

theorem Remapped.runStages (range : Range g) (mm : Bool) (stages : List (Stage g n))
    (failures : List (Option (Failure n))) (b : Block g n) :
    Remapped b (runStages range mm stages failures b) :=
  runStages_preserves (fun _ _ op _ done _ h => h.trans (Remapped.apply range mm done _ op))
    failures (Remapped.refl b)

variable (range : Range g) (req : Request g n) (b : Block g n)

theorem prepReadDuplicateOps_givesNoWrite :
    ∀ op ∈ prepReadDuplicateOps range req b, op.GivesNoWrite := by
  intro op hOp q pages prot hMap
  subst hMap
  simp only [prepReadDuplicateOps, List.mem_flatMap] at hOp
  obtain ⟨src, -, hMem⟩ := hOp
  split at hMem
  · cases hMem
  · simp at hMem

theorem makeResidentOps_givesNoWrite :
    ∀ op ∈ makeResidentOps range req b, op.GivesNoWrite := by
  intro op hOp q pages prot hMap
  subst hMap
  simp [makeResidentOps] at hOp

/-- A page that nobody may write is so while the pages are copied. -/
theorem makeResidentReadDuplicate_not_writable {q : Proc g} {page : Fin n}
    (h : (b.prot q page).writable = false) :
    ((makeResidentReadDuplicate range req b).1.prot q page).writable = false := by
  have hPrep := runOps_not_writable range req.mm (prepReadDuplicateOps_givesNoWrite range req b)
    req.duplicateFailure h
  unfold makeResidentReadDuplicate
  split
  · exact h
  · cases hOk : (runOps range req.mm (prepReadDuplicateOps range req b)
        req.duplicateFailure b).2 with
    | false => simpa [hOk] using hPrep
    | true => simpa [hOk, duplicatedResidency] using hPrep

theorem serviceCopy_not_writable {q : Proc g} {page : Fin n}
    (h : (b.prot q page).writable = false) :
    ((serviceCopy range req b).1.prot q page).writable = false := by
  have hDuplicate := makeResidentReadDuplicate_not_writable range req b h
  simp only [serviceCopy, makeResidentCopy]
  split
  · split
    · exact hDuplicate
    · exact runOps_not_writable range req.mm (makeResidentOps_givesNoWrite range req _)
        req.copyFailure hDuplicate
  · exact hDuplicate

theorem makeResidentReadDuplicate_flags :
    (makeResidentReadDuplicate range req b).1.tracked = b.tracked ∧
      (makeResidentReadDuplicate range req b).1.dirty = b.dirty := by
  have hPrep := Remapped.runOps range req.mm (prepReadDuplicateOps range req b)
    req.duplicateFailure b
  unfold makeResidentReadDuplicate
  split
  · exact ⟨rfl, rfl⟩
  · cases hOk : (runOps range req.mm (prepReadDuplicateOps range req b)
        req.duplicateFailure b).2 with
    | false => simpa [hOk] using ⟨hPrep.tracked, hPrep.dirty⟩
    | true => simpa [hOk, duplicatedResidency] using ⟨hPrep.tracked, hPrep.dirty⟩

/-- The copy leaves the flags of live migration alone. -/
theorem serviceCopy_flags :
    (serviceCopy range req b).1.tracked = b.tracked ∧
      (serviceCopy range req b).1.dirty = b.dirty := by
  have hDuplicate := makeResidentReadDuplicate_flags range req b
  simp only [serviceCopy, makeResidentCopy]
  split
  · split
    · exact hDuplicate
    · have hCopy := Remapped.runOps range req.mm
        (makeResidentOps range req (makeResidentReadDuplicate range req b).1) req.copyFailure
        (makeResidentReadDuplicate range req b).1
      exact ⟨hCopy.tracked.trans hDuplicate.1, hCopy.dirty.trans hDuplicate.2⟩
  · exact hDuplicate

/-- The pages of a mapping call are among those that have the permission, and are
counted. -/
structure FromPlan (plan : Plan n) (maxProt : Prot) (pages : Finset (Fin n)) : Prop where
  counted : (plan.byProt maxProt).count ≠ 0
  subset : pages ⊆ (plan.byProt maxProt).pages ∩ plan.region

/-- Whether a UVM-Lite GPU is mapped along, which it is for writing and atomics
whatever the fault asks for. -/
def addsLite : Bool :=
  decide (range.preferredLocation = some req.newResidency) &&
    Proc.all.any fun q => range.uvmLite q &&
      (decide (q ∈ mapOtherProcessors range req fun _ => false) ||
        decide (∃ page ∈ req.thrashingPin,
          q ∈ mapOtherProcessors range req (req.thrashingProcessors page)))

/-- What a processor that is mapped along gets: no page that is read-duplicated, and
no more than the one that faulted unless it is a UVM-Lite GPU. -/
structure MappedAlong (pages : Finset (Fin n)) (maxProt prot : Prot) : Prop where
  notDuplicated : range.isReadDuplicate = false ∧
    (range.readDuplication = .unset → ∀ page ∈ pages, page ∉ b.readDuplicated)
  prot : prot.writable = true → maxProt.writable = true ∨ addsLite range req = true

theorem revokeStage_givesNoWrite (before : Block g n) (plan : Plan n) (prot : Prot) :
    ∀ stage ∈ revokeStage range req before b plan prot, ∀ op ∈ stage.ops, op.GivesNoWrite := by
  intro stage hStage op hOp q pages prot' hMap
  subst hMap
  simp only [revokeStage] at hStage
  split at hStage
  · cases hStage
  · rw [List.mem_singleton] at hStage
    subst hStage
    simp at hOp

theorem mapStage_op (plan : Plan n) (maxProt : Prot) {stage : Stage g n}
    (hStage : stage ∈ mapStage req plan maxProt) {q : Proc g} {pages : Finset (Fin n)}
    {prot : Prot} (hOp : .map q pages prot ∈ stage.ops) :
    FromPlan plan maxProt pages ∧ q = req.processor ∧ prot = maxProt := by
  simp only [mapStage] at hStage
  split at hStage
  · cases hStage
  · rename_i hCount
    rw [List.mem_singleton] at hStage
    subst hStage
    rw [List.mem_append, List.mem_singleton] at hOp
    rcases hOp with hUnmap | hMap
    · split at hUnmap <;> simp at hUnmap
    · cases hMap
      exact ⟨⟨hCount, Finset.Subset.refl _⟩, rfl, rfl⟩

/-- What `do_block_add_mappings_after_migration` gives is for writing only if the
processor that faulted can write. -/
theorem addMappingsOps_op (processors : List (Proc g)) (given : Finset (Fin n)) (maxProt : Prot)
    {q : Proc g} {pages : Finset (Fin n)} {prot : Prot}
    (hOp : .map q pages prot ∈ addMappingsOps range req processors given maxProt) :
    pages = given ∧ (prot.writable = true → maxProt.writable = true) := by
  simp only [addMappingsOps] at hOp
  split at hOp
  · rename_i hAtomic
    subst hAtomic
    refine ⟨?_, fun _ => rfl⟩
    split at hOp
    · simp only [List.mem_append, List.mem_map, Op.map.injEq] at hOp
      rcases hOp with ⟨_, -, -, rfl, -⟩ | ⟨_, -, -, rfl, -⟩ <;> rfl
    · simp only [List.mem_map, Op.map.injEq] at hOp
      obtain ⟨_, -, -, rfl, -⟩ := hOp
      rfl
  · simp only [List.mem_map, Op.map.injEq] at hOp
    obtain ⟨_, -, -, rfl, rfl⟩ := hOp
    refine ⟨rfl, fun hWrite => ?_⟩
    split at hWrite
    · rename_i hBoth
      rw [hBoth.1]
      rfl
    · exact hWrite

theorem addMappingsAfterMigration_op (region given : Finset (Fin n)) (maxProt : Prot)
    (thrashing : Proc g → Bool)
    (hLite : range.preferredLocation = some req.newResidency →
      ∀ q ∈ mapOtherProcessors range req thrashing, range.uvmLite q = true →
        addsLite range req = true)
    {stage : Stage g n}
    (hStage : stage ∈ addMappingsAfterMigration range req b region given maxProt thrashing)
    {q : Proc g} {pages : Finset (Fin n)} {prot : Prot}
    (hOp : .map q pages prot ∈ stage.ops) :
    pages ⊆ given ∩ region ∧ MappedAlong range req b pages maxProt prot := by
  simp only [addMappingsAfterMigration] at hStage
  split at hStage
  · cases hStage
  · rename_i hNotDuplicate
    generalize hFinal : (if range.readDuplication = .unset then given \ b.readDuplicated
      else given) = final at hStage
    have hGiven : final ⊆ given := by
      rw [← hFinal]
      split
      · exact Finset.sdiff_subset
      · exact Finset.Subset.refl _
    have hSingle : range.readDuplication = .unset → ∀ page ∈ final, page ∉ b.readDuplicated := by
      intro hUnset page hPage
      rw [← hFinal, if_pos hUnset, Finset.mem_sdiff] at hPage
      exact hPage.2
    -- each stage maps pages of `final` in the region
    have hAlong : pages ⊆ final ∩ region →
        (prot.writable = true → maxProt.writable = true ∨ addsLite range req = true) →
        pages ⊆ given ∩ region ∧ MappedAlong range req b pages maxProt prot := by
      intro hPages hProt
      refine ⟨hPages.trans (Finset.inter_subset_inter_right hGiven), ⟨by simpa using hNotDuplicate,
        fun hUnset page hPage => hSingle hUnset page ?_⟩, hProt⟩
      exact Finset.mem_of_mem_inter_left (hPages hPage)
    simp only [List.mem_append, List.mem_cons, List.not_mem_nil, or_false] at hStage
    rcases hStage with (rfl | hApart) | rfl | rfl
    · simp only [List.mem_map, Op.map.injEq] at hOp
      obtain ⟨lite, hMem, rfl, rfl, rfl⟩ := hOp
      refine hAlong (Finset.Subset.refl _) fun _ => .inr ?_
      split at hMem
      · rename_i hPreferred
        rw [List.mem_filter] at hMem
        exact hLite hPreferred lite hMem.1 hMem.2
      · cases hMem
    · split at hApart
      · simp only [List.mem_cons, List.not_mem_nil, or_false] at hApart
        rcases hApart with rfl | rfl
        · cases hOp
        · obtain ⟨rfl, hProt⟩ := addMappingsOps_op range req _ _ _ hOp
          refine hAlong ?_ fun h => .inl (hProt h)
          exact Finset.inter_subset_inter_right Finset.inter_subset_left
      · cases hApart
    · cases hOp
    · obtain ⟨rfl, hProt⟩ := addMappingsOps_op range req _ _ _ hOp
      exact hAlong (Finset.Subset.refl _) fun h => .inl (hProt h)

theorem otherStages_op (plan : Plan n) (maxProt : Prot) {stage : Stage g n}
    (hStage : stage ∈ otherStages range req b plan maxProt) {q : Proc g}
    {pages : Finset (Fin n)} {prot : Prot} (hOp : .map q pages prot ∈ stage.ops) :
    FromPlan plan maxProt pages ∧ MappedAlong range req b pages maxProt prot := by
  simp only [otherStages] at hStage
  split at hStage
  · cases hStage
  · rename_i hCount
    rw [not_or] at hCount
    rw [List.mem_append] at hStage
    rcases hStage with hPinned | hRest
    · rw [List.mem_flatMap] at hPinned
      obtain ⟨page, hPage, hMem⟩ := hPinned
      rw [List.mem_filter, decide_eq_true_eq, Finset.mem_inter, Finset.mem_inter,
        Finset.mem_inter] at hPage
      obtain ⟨-, ⟨hPin, hRegion⟩, -, hMask⟩ := hPage
      have hLite : range.preferredLocation = some req.newResidency →
          ∀ q ∈ mapOtherProcessors range req (req.thrashingProcessors page),
            range.uvmLite q = true → addsLite range req = true := by
        intro hPreferred q hMapped hUvmLite
        simp only [addsLite, Bool.and_eq_true, decide_eq_true_eq, List.any_eq_true,
          Bool.or_eq_true]
        exact ⟨hPreferred, q, q.mem_all, hUvmLite, .inr ⟨page, hPin, hMapped⟩⟩
      obtain ⟨hPages, hAlong⟩ := addMappingsAfterMigration_op range req b _ _ _ _ hLite hMem hOp
      refine ⟨⟨hCount.1, fun page' hPage' => ?_⟩, hAlong⟩
      have hSame := Finset.mem_of_mem_inter_right (hPages hPage')
      rw [Finset.mem_singleton] at hSame
      subst hSame
      exact Finset.mem_inter_of_mem hMask hRegion
    · split at hRest
      · cases hRest
      · have hLite : range.preferredLocation = some req.newResidency →
            ∀ q ∈ mapOtherProcessors range req fun _ => false,
              range.uvmLite q = true → addsLite range req = true := by
          intro hPreferred q hMapped hUvmLite
          simp only [addsLite, Bool.and_eq_true, decide_eq_true_eq, List.any_eq_true,
            Bool.or_eq_true]
          exact ⟨hPreferred, q, q.mem_all, hUvmLite, .inl hMapped⟩
        obtain ⟨hPages, hAlong⟩ :=
          addMappingsAfterMigration_op range req b _ _ _ _ hLite hRest hOp
        refine ⟨⟨hCount.1, hPages.trans (Finset.inter_subset_inter_right ?_)⟩, hAlong⟩
        exact Finset.sdiff_subset.trans Finset.inter_subset_right

/-- Every mapping call of the second half of a service maps pages of one permission,
for the processor that faulted or for one that is mapped along. -/
theorem finishStages_op (before : Block g n) (plan : Plan n) {stage : Stage g n}
    (hStage : stage ∈ finishStages range req before b plan) {q : Proc g}
    {pages : Finset (Fin n)} {prot : Prot} (hOp : .map q pages prot ∈ stage.ops)
    (hWrite : prot.writable = true) :
    ∃ maxProt, FromPlan plan maxProt pages ∧
      (q = req.processor ∧ prot = maxProt ∨ MappedAlong range req b pages maxProt prot) := by
  simp only [finishStages, List.mem_append, List.mem_flatMap] at hStage
  rcases hStage with (⟨maxProt, -, hRevoke⟩ | ⟨maxProt, -, hMap⟩) | ⟨maxProt, -, hOther⟩
  · have hNone := revokeStage_givesNoWrite range req b before plan maxProt stage hRevoke _ hOp
      q pages prot rfl
    rw [hNone] at hWrite
    cases hWrite
  · obtain ⟨hFrom, hTarget⟩ := mapStage_op req plan maxProt hMap hOp
    exact ⟨maxProt, hFrom, .inl hTarget⟩
  · obtain ⟨hFrom, hAlong⟩ := otherStages_op range req b plan maxProt hOther hOp
    exact ⟨maxProt, hFrom, .inr hAlong⟩

end Facts

end FlashCkpt.Uvm
