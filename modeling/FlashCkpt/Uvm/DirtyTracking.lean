import Mathlib.Data.List.InsertIdx
import FlashCkpt.Uvm.Migration

/-! Soundness of the dirty flag: while a block is tracked and clean, nobody can write
to it without a further fault. -/
namespace FlashCkpt.Uvm

open Transition

variable {g n : Nat}

/-- Nobody has a write permission on a page of the block. -/
def Block.WriteProtected (b : Block g n) : Prop :=
  ∀ p page, (b.prot p page).writable = false

/-- A tracked block that is not marked dirty cannot be written, and was not. -/
def Managed.Sound (m : Managed g n) : Prop :=
  m.block.tracked = true → m.block.dirty = false →
    m.block.WriteProtected ∧ m.wrote = false

def DirtySound (x : Start g n) (labels : List (Label g n)) : Prop :=
  ∀ s, execute next x.state labels = some s → ∀ m ∈ s.blocks, m.Sound

/-- The mappings PREPARE_ALL finds and takes: a processor with a write permission
holds a page of the block, and what a GPU can write is resident somewhere. -/
def Block.Revocable (b : Block g n) : Prop :=
  ∀ p page, (b.prot p page).writable = true →
    (b.resident p).Nonempty ∧ (p.isGpu = true → ∃ r, page ∈ b.resident r)

/-- The permissions given without a record: a fault of the CPU asks for reading only
and is not promoted, and no UVM-Lite GPU is mapped along. -/
def Request.GrantsReads (range : Range g) (req : Request g n) (b : Block g n) : Prop :=
  (req.processor = .cpu → ∀ page ∈ req.served, req.access page = .readOnly ∧
    (range.logicalProt ≤ .readOnly ∨
      mightReadDuplicate range (req.settled range b) page = true)) ∧
  (addsLite range req = true →
    recordsWriteFault req (req.settled range b) (finalPlan range req (req.settled range b)) =
      true)

/-- The condition on a step. PREPARE_ALL does not fail and finds every write mapping;
the service of a tracked clean block gives reads only, or records the write. -/
def GrantsRecorded (s : State g n) : Label g n → Prop
  | .prepare failure => failure = none ∧ ∀ m ∈ s.blocks, m.block.Revocable
  | .service i req => ∀ m, s.blocks[i]? = some m → m.block.tracked = true →
      m.block.dirty = false → req.GrantsReads m.range m.block
  | _ => True

section Prepare

variable {range : Range g} {b : Block g n}

theorem mem_residentProcessors {p : Proc g} (h : (b.resident p).Nonempty) :
    p ∈ b.residentProcessors := by
  rw [Block.residentProcessors, List.mem_filter]
  exact ⟨p.mem_all, decide_eq_true h⟩

theorem prepareBlock_flags (failure : Option (Failure n)) :
    (prepareBlock range failure b).1.tracked = true ∧
      (prepareBlock range failure b).1.dirty = false := by
  simp only [prepareBlock]
  split
  · exact ⟨rfl, rfl⟩
  · have hRun := Remapped.runOps range false
      (revokeAllOps { b with dirty := false, tracked := true }) failure
      { b with dirty := false, tracked := true }
    exact ⟨hRun.tracked, hRun.dirty⟩

/-- After PREPARE_ALL a block whose write mappings it finds is write-protected. -/
theorem prepareBlock_writeProtected (h : b.Revocable) :
    (prepareBlock range none b).1.WriteProtected := by
  intro p page
  simp only [prepareBlock]
  generalize hPrepared : { b with dirty := false, tracked := true } = b'
  have hProt : b'.prot = b.prot := by
    rw [← hPrepared]
  have hResident : b'.resident = b.resident := by
    rw [← hPrepared]
  cases hBefore : (b'.prot p page).writable with
  | false =>
      split
      · exact hBefore
      · exact runOps_not_writable range false revokeAllOps_givesNoWrite none hBefore
  | true =>
      rw [hProt] at hBefore
      obtain ⟨hHolds, hSomewhere⟩ := h p page hBefore
      have hMem : p ∈ b'.residentProcessors := mem_residentProcessors (by rwa [hResident])
      rw [if_neg (List.ne_nil_of_mem hMem)]
      refine runOps_clears revokeAllOps_givesNoWrite (List.mem_map_of_mem hMem)
        fun c hRemapped => ?_
      refine Op.revoke_clears p (Finset.mem_univ page) fun hGpu => ?_
      rw [hRemapped.resident, hResident]
      exact hSomewhere hGpu

theorem prepareBlocks_none {blocks : List (Managed g n)} {m : Managed g n}
    (h : m ∈ (prepareBlocks blocks none).1) : ∃ m' ∈ blocks, m = m'.prepare none := by
  induction blocks with
  | nil => cases h
  | cons first rest ih =>
      rw [prepareBlocks] at h
      rcases List.mem_cons.mp h with rfl | hLater
      · exact ⟨first, List.mem_cons_self, rfl⟩
      · obtain ⟨m', hMem, rfl⟩ := ih hLater
        exact ⟨m', List.mem_cons_of_mem first hMem, rfl⟩

end Prepare

section Service

variable {range : Range g} {req : Request g n} {b : Block g n}

theorem serviceFinish_tracked (before : Block g n) :
    (serviceFinish range req before b).tracked = b.tracked := by
  simp only [serviceFinish]
  split
  · rfl
  · exact (Remapped.runStages range req.mm _ _ _).tracked

theorem service_tracked : (service range req b).tracked = b.tracked := by
  simp only [service]
  split
  · rw [serviceFinish_tracked, (serviceCopy_flags range req b).1]
  · exact (serviceCopy_flags range req b).1

/-- A block that is clean at the end of a service was clean before. -/
theorem service_dirty (h : (service range req b).dirty = false) : b.dirty = false := by
  rw [← (serviceCopy_flags range req b).2]
  simp only [service] at h
  split at h
  · simp only [serviceFinish] at h
    split at h
    · exact h
    · rw [(Remapped.runStages range req.mm _ _ _).dirty, Bool.or_eq_false_iff] at h
      exact h.1
  · exact h

/-- A read that cannot be promoted is mapped for reading. -/
theorem computeNewPermission_reads {page : Fin n} (hAccess : req.access page = .readOnly)
    (hKept : range.logicalProt ≤ .readOnly ∨ mightReadDuplicate range b page = true) :
    computeNewPermission range req b page = .readOnly := by
  have hNotPromoted : ¬(.readOnly < range.logicalProt ∧ req.access page = .readOnly ∧
      mightReadDuplicate range b page = false ∧
      (b.pageAuthorizedProcessors page .readWriteAtomic).filter
        (fun q => !range.nativeAtomics req.newResidency q && range.faultable q) = []) := by
    intro hPromoted
    rcases hKept with hLogical | hDuplicate
    · exact absurd hPromoted.1 (Nat.not_lt.mpr hLogical)
    · rw [hPromoted.2.2.1] at hDuplicate
      cases hDuplicate
  simp only [computeNewPermission]
  rw [if_neg hNotPromoted, hAccess]
  exact if_neg fun h => by cases h.2.1

/-- The CPU part: nothing is counted for writing. -/
theorem computePlan_reads (hReads : ∀ page ∈ req.served, req.access page = .readOnly ∧
      (range.logicalProt ≤ .readOnly ∨ mightReadDuplicate range b page = true))
    {maxProt : Prot} (hCount : ((computePlan range req b).byProt maxProt).count ≠ 0) :
    maxProt.writable = false := by
  have hNone : ∀ prot, prot ≠ .readOnly → (computeMappings range req b prot).count = 0 := by
    intro prot hProt
    refine Finset.card_eq_zero.mpr (Finset.filter_eq_empty_iff.mpr fun page hPage hSame => ?_)
    rw [computeNewPermission_reads (hReads page hPage).1 (hReads page hPage).2] at hSame
    exact hProt hSame.symm
  cases maxProt with
  | none => rfl
  | readOnly => rfl
  | readWrite => exact absurd (hNone .readWrite (by decide)) hCount
  | readWriteAtomic => exact absurd (hNone .readWriteAtomic (by decide)) hCount

/-- The GPU part: what is mapped for writing in the region is recorded. -/
theorem recordsWriteFault_of_mem (hGpu : req.processor.isGpu = true) (hTracked : b.tracked = true)
    {plan : Plan n} {maxProt : Prot} (hWrite : maxProt.writable = true) {page : Fin n}
    (hPage : page ∈ (plan.byProt maxProt).pages ∩ plan.region) :
    recordsWriteFault req b plan = true := by
  rw [Finset.mem_inter] at hPage
  have hMem : page ∈ (plan.readWrite.pages ∪ plan.readWriteAtomic.pages) ∩ plan.region := by
    cases maxProt with
    | none => cases hWrite
    | readOnly => cases hWrite
    | readWrite => exact Finset.mem_inter_of_mem (Finset.mem_union_left _ hPage.1) hPage.2
    | readWriteAtomic => exact Finset.mem_inter_of_mem (Finset.mem_union_right _ hPage.1) hPage.2
  rw [recordsWriteFault, hTracked, hGpu]
  exact decide_eq_true ⟨page, hMem⟩

/-- Without a record, nothing is mapped for writing from a plan that the CPU only
reads with. -/
theorem finalPlan_reads (hReads : req.processor = .cpu → ∀ page ∈ req.served,
      req.access page = .readOnly ∧
        (range.logicalProt ≤ .readOnly ∨ mightReadDuplicate range b page = true))
    (hTracked : b.tracked = true)
    (hRecord : recordsWriteFault req b (finalPlan range req b) = false) {maxProt : Prot}
    {pages : Finset (Fin n)} (hFrom : FromPlan (finalPlan range req b) maxProt pages)
    {page : Fin n} (hPage : page ∈ pages) : maxProt.writable = false := by
  cases hProcessor : req.processor with
  | cpu =>
      have hPlan : finalPlan range req b = computePlan range req b := by
        simp [finalPlan, restoresBulk, hProcessor, Proc.isGpu]
      rw [hPlan] at hFrom
      exact computePlan_reads (hReads hProcessor) hFrom.counted
  | gpu id =>
      cases hWrite : maxProt.writable with
      | false => rfl
      | true =>
          have hGpu : req.processor.isGpu = true := by
            rw [hProcessor]
            rfl
          rw [recordsWriteFault_of_mem hGpu hTracked hWrite (hFrom.subset hPage)] at hRecord
          cases hRecord

/-- A service that gives reads, or records the write, keeps a tracked clean block
write-protected as long as it stays clean. -/
theorem service_writeProtected (hTracked : b.tracked = true) (hProtected : b.WriteProtected)
    (hReads : req.GrantsReads range b) (hClean : (service range req b).dirty = false) :
    (service range req b).WriteProtected := by
  have hCopied : (serviceCopy range req b).1.WriteProtected := fun p page =>
    serviceCopy_not_writable range req b (hProtected p page)
  have hSettled : (req.settled range b).WriteProtected := hCopied
  have hStillTracked : (req.settled range b).tracked = true :=
    (serviceCopy_flags range req b).1.trans hTracked
  simp only [service] at hClean ⊢
  split at hClean
  · rename_i hOk
    rw [if_pos hOk]
    simp only [serviceFinish] at hClean ⊢
    split at hClean
    · rename_i hMemory
      rw [if_pos hMemory]
      exact hSettled
    · rename_i hMemory
      rw [if_neg hMemory]
      rw [(Remapped.runStages range req.mm _ _ _).dirty, Bool.or_eq_false_iff] at hClean
      have hRecord : recordsWriteFault req (req.settled range b)
          (finalPlan range req (req.settled range b)) = false := hClean.2
      have hNoLite : addsLite range req ≠ true := fun hLite => by
        rw [hReads.2 hLite] at hRecord
        cases hRecord
      intro p page
      let Inv := fun c : Block g n => (c.prot p page).writable = false
      have hOps : ∀ stage ∈ finishStages range req b (req.settled range b)
          (finalPlan range req (req.settled range b)), ∀ op ∈ stage.ops, ∀ done c, Inv c →
            Inv (op.apply range req.mm done c) := by
        intro stage hStage op hOp done c hBefore
        cases hAfter : ((op.apply range req.mm done c).prot p page).writable with
        | false => exact hAfter
        | true =>
            rcases op.apply_writable hAfter with hWas | ⟨pages, prot, rfl, hPage, -, hWrite⟩
            · rw [show (c.prot p page).writable = false from hBefore] at hWas
              cases hWas
            · obtain ⟨maxProt, hFrom, hTarget⟩ :=
                finishStages_op range req _ b _ hStage hOp hWrite
              have hMax := finalPlan_reads hReads.1 hStillTracked hRecord hFrom hPage
              rcases hTarget with ⟨-, rfl⟩ | hAlong
              · rw [hMax] at hWrite
                cases hWrite
              · rcases hAlong.prot hWrite with hMaxWrite | hLite
                · rw [hMax] at hMaxWrite
                  cases hMaxWrite
                · exact absurd hLite hNoLite
      exact runStages_preserves hOps req.finishFailures (hSettled p page)
  · rename_i hFailed
    rw [if_neg hFailed]
    exact hCopied

end Service

section Runs

theorem Managed.prepare_sound {m : Managed g n} (h : m.block.Revocable) :
    (m.prepare none).Sound := fun _ _ => ⟨prepareBlock_writeProtected h, rfl⟩

theorem finalizeBlock_untracked (range : Range g) (failure : Option (Failure n))
    (b : Block g n) : (finalizeBlock range failure b).tracked = false := by
  simp only [finalizeBlock]
  split
  · rfl
  · exact (Remapped.runOps range false _ failure _).tracked

theorem Managed.finalize_sound {m : Managed g n} (h : m.Sound) (noContext : Nat → Bool)
    (failures : Nat → Option (Failure n)) (i : Nat) : (m.finalize noContext failures i).Sound := by
  unfold Managed.finalize
  split
  · exact h
  · intro hTracked
    rw [finalizeBlock_untracked] at hTracked
    cases hTracked

theorem Managed.service_sound {m : Managed g n} {req : Request g n} (h : m.Sound)
    (hReads : m.block.tracked = true → m.block.dirty = false →
      req.GrantsReads m.range m.block) :
    Managed.Sound { m with block := service m.range req m.block } := by
  intro hTracked hClean
  have hWas : m.block.tracked = true := service_tracked.symm.trans hTracked
  have hBefore : m.block.dirty = false := service_dirty hClean
  obtain ⟨hProtected, hWrote⟩ := h hWas hBefore
  exact ⟨service_writeProtected hWas hProtected (hReads hWas hBefore) hClean, hWrote⟩

/-- A block that can be written is marked, or it is not tracked. -/
theorem Managed.write_sound {m : Managed g n} {p : Proc g} {page : Fin n} (h : m.Sound)
    (hWrite : (m.block.prot p page).writable = true) :
    Managed.Sound { m with wrote := true } := by
  intro hTracked hClean
  rw [(h hTracked hClean).1 p page] at hWrite
  cases hWrite

theorem createBlock_sound (rangeId : Nat) (range : Range g) (trackingActive : Bool) :
    Managed.Sound ⟨rangeId, range, (createBlock trackingActive : Block g n), false⟩ :=
  fun _ _ => ⟨fun _ _ => rfl, rfl⟩

theorem sound_next {s t : State g n} {label : Label g n} (hOk : GrantsRecorded s label)
    (h : ∀ m ∈ s.blocks, m.Sound) (hNext : next s label = some t) :
    ∀ m ∈ t.blocks, m.Sound := by
  cases label with
  | prepare failure =>
      obtain ⟨rfl, hRevocable⟩ := hOk
      cases hNext
      intro m hm
      obtain ⟨m', hMem, rfl⟩ := prepareBlocks_none hm
      exact Managed.prepare_sound (hRevocable m' hMem)
  | service i req =>
      simp only [next, Option.bind_eq_some_iff, Option.ite_none_right_eq_some,
        Option.some.injEq] at hNext
      obtain ⟨m₀, hGet, -, rfl⟩ := hNext
      intro m hm
      rcases List.mem_or_eq_of_mem_set hm with hOld | rfl
      · exact h m hOld
      · exact Managed.service_sound (h m₀ (List.mem_of_getElem? hGet)) (hOk m₀ hGet)
  | create i rangeId range =>
      cases hNext
      intro m hm
      rcases List.eq_or_mem_of_mem_insertIdx hm with rfl | hOld
      · exact createBlock_sound rangeId range s.trackingActive
      · exact h m hOld
  | write i p page =>
      simp only [next, Option.bind_eq_some_iff, Option.ite_none_right_eq_some,
        Option.some.injEq] at hNext
      obtain ⟨m₀, hGet, hWrite, rfl⟩ := hNext
      intro m hm
      rcases List.mem_or_eq_of_mem_set hm with hOld | rfl
      · exact h m hOld
      · exact Managed.write_sound (h m₀ (List.mem_of_getElem? hGet)) hWrite
  | finalize noContext failures =>
      cases hNext
      intro m hm
      obtain ⟨i, m₀, hMem, rfl⟩ := List.mem_mapIdx.mp hm
      exact Managed.finalize_sound (h _ (List.getElem_mem _)) noContext failures i

/-- In every run whose write permissions are found by PREPARE_ALL and recorded when
they are given, a tracked clean block cannot be written and was not. -/
theorem dirtySound_of_grantsRecorded (x : Start g n) (labels : List (Label g n))
    (hOk : Along next GrantsRecorded x.state labels) : DirtySound x labels := by
  intro s hRun
  have hStart : ∀ m ∈ x.state.blocks, m.Sound := by
    intro m hm hTracked
    rw [x.untracked m hm] at hTracked
    cases hTracked
  exact invariant_along (fun _ _ _ hStep hBefore hNext => sound_next hStep hBefore hNext) labels
    _ _ hStart hOk hRun

end Runs

def gpuStart : Start 1 2 where
  blocks := [⟨0, plainRange, gpuBlock, false⟩]
  untracked := by simp [gpuBlock]

/-- The GPU writes to a block that was prepared, to the page that faulted and to the
other one. -/
def gpuWrites : List (Label 1 2) :=
  [.prepare none, .service 0 (writeFault (.gpu (Fin.last 0))),
    .write 0 (.gpu (Fin.last 0)) firstPage, .write 0 (.gpu (Fin.last 0)) (Fin.last 1),
    .finalize (fun _ => false) fun _ => none]

theorem dirtySound_gpuWrites :
    (∃ s, execute next gpuStart.state gpuWrites = some s) ∧ DirtySound gpuStart gpuWrites := by
  refine ⟨⟨_, rfl⟩, dirtySound_of_grantsRecorded gpuStart gpuWrites ?_⟩
  have hRevocable : gpuBlock.Revocable := by
    unfold Block.Revocable
    decide
  have hPrepare : ∀ m ∈ gpuStart.state.blocks, m.block.Revocable := by
    intro m hm
    cases List.mem_singleton.mp hm
    exact hRevocable
  apply along_cons rfl ⟨rfl, hPrepare⟩
  apply along_cons rfl
  · intro m hm _ _
    cases hm
    refine ⟨?_, ?_⟩
    · intro hCpu
      cases hCpu
    · intro hLite
      exact absurd hLite (by decide)
  · exact along_cons rfl trivial (along_cons rfl trivial (along_cons rfl trivial trivial))

/-- The CPU writes to it instead. -/
def cpuWrites : List (Label 1 2) :=
  [.prepare none, .service 0 (writeFault .cpu), .write 0 .cpu firstPage]

theorem not_dirtySound_cpuWrites : ¬DirtySound gpuStart cpuWrites := by
  intro h
  have hSound := h _ rfl _ List.mem_cons_self (by decide) (by decide)
  exact absurd hSound.2 (by decide)

end FlashCkpt.Uvm
