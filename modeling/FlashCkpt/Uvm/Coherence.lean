import Mathlib.Data.List.InsertIdx
import FlashCkpt.Uvm.Migration
import FlashCkpt.Uvm.ReadDuplication

/-! Single-writer coherence beside live migration: pages with several copies stay
mapped for reading, and neither the bulk restore nor FINALIZE maps a page with more
than the driver's own rules allow. -/
namespace FlashCkpt.Uvm

open Transition

variable {g n : Nat}

/-- What the second block gives more than the first is within the limit. -/
def GivesWithin (limit : Proc g → Fin n → Prot) (b b' : Block g n) : Prop :=
  ∀ p page, b.prot p page < b'.prot p page → b'.prot p page ≤ limit p page

/-- Every call of a row gives at most the highest permission of that moment. -/
def OpsWithin (range : Range g) (mm : Bool) :
    List (Op g n) → Option (Failure n) → Block g n → Prop
  | [], _, _ => True
  | op :: rest, none, b =>
      GivesWithin (computeHighestPermission range b) b (op.apply range mm Finset.univ b) ∧
        OpsWithin range mm rest none (op.apply range mm Finset.univ b)
  | op :: _, some ⟨0, done⟩, b =>
      GivesWithin (computeHighestPermission range b) b (op.apply range mm done b)
  | op :: rest, some ⟨k + 1, done⟩, b =>
      GivesWithin (computeHighestPermission range b) b (op.apply range mm Finset.univ b) ∧
        OpsWithin range mm rest (some ⟨k, done⟩) (op.apply range mm Finset.univ b)

/-- The call by which the bulk restore maps its pages gives a page that faulted at
most what is computed for its fault, and any other page at most the highest
permission. -/
def Request.RestoresWithin (range : Range g) (req : Request g n) (b : Block g n) : Prop :=
  let mappings := (finalPlan range req b).readWriteAtomic
  restoresBulk req b = true → mappings.count ≠ 0 →
    GivesWithin
      (fun p page => if page ∈ req.served then computeNewPermission range req b page
        else computeHighestPermission range b p page)
      b ((Op.map req.processor mappings.pages .readWriteAtomic).apply range req.mm Finset.univ b)

def PermissionsWithin (s : State g n) : Label g n → Prop
  | .service i req => ∀ m, s.blocks[i]? = some m →
      (serviceCopy m.range req m.block).2 = true →
      req.RestoresWithin m.range (req.settled m.range m.block)
  | .finalize noContext failures => ∀ i m, s.blocks[i]? = some m →
      noContext m.rangeId = false →
      OpsWithin m.range false (restoreAllOps m.block) (failures i)
        { m.block with tracked := false, dirty := false }
  | _ => True

/-- Blocks that satisfy the driver's invariant, whatever the state of the tracking. -/
structure CoherentStart (g n : Nat) where
  state : State g n
  duplicates : ∀ m ∈ state.blocks, Duplicates m.range m.block

/-- In every state reached the blocks are coherent, and on every step the two bulk
paths stay within the driver's rules. -/
def CoherenceKept (x : CoherentStart g n) (labels : List (Label g n)) : Prop :=
  (∀ s, execute next x.state labels = some s → ∀ m ∈ s.blocks, m.block.Coherent m.range) ∧
    Along next PermissionsWithin x.state labels

/-- What the bulk restore relies on. The masks hold no page from earlier uses that the
GPU reaches elsewhere; the pages of the GPU have one copy; and nobody without native
atomics to the GPU has atomics on them, nor is a read on its own to be mapped for
reading only. -/
structure Request.RestoresOwn (range : Range g) (req : Request g n) (b : Block g n) :
    Prop where
  leftover : ∀ page ∈ req.leftover .readWrite ∪ req.leftover .readWriteAtomic,
    page ∈ b.reachable range req.processor → page ∈ b.resident req.processor
  single : ∀ page ∈ b.resident req.processor, page ∉ b.readDuplicated
  native : range.nativeAtomics req.processor req.processor = true
  writable : ∀ page ∈ req.served,
    req.access page = .readWriteAtomic ∨ range.logicalProt = .readWriteAtomic
  reads : ∀ page ∈ req.served, req.access page = .readOnly → range.isReadDuplicate = false ∧
    ∀ q, q ≠ req.processor → b.prot q page = .readWriteAtomic → range.faultable q = true →
      range.nativeAtomics req.processor q = true
  others : ∀ page ∈ b.resident req.processor, page ∉ req.served →
    ∀ q, q ≠ req.processor → b.prot q page = .readWriteAtomic →
      range.systemWideAtomics q = true → range.nativeAtomics req.processor q = true

/-- FINALIZE maps the page for this processor. -/
structure Block.Restores (range : Range g) (b : Block g n) (q : Proc g) (page : Fin n) :
    Prop where
  canMap : canMap range false q = true
  holds : (b.resident q).Nonempty
  reachable : page ∈ b.reachable range q

/-- What FINALIZE relies on. A page it maps has one copy; everybody else who has
atomics on the page or gets them has them natively, or apart from the system; and so
has the processor itself, unless nobody else can write to the page. -/
structure Block.RestoresSingle (range : Range g) (b : Block g n) : Prop where
  single : ∀ q page, b.Restores range q page → range.uvmLite q = false →
    page ∉ b.readDuplicated
  atomics : ∀ q page, b.Restores range q page → range.uvmLite q = false →
    ∀ r, page ∈ b.resident r → ∀ q', q' ≠ q → range.systemWideAtomics q' = true →
      b.prot q' page = .readWriteAtomic ∨ b.Restores range q' page →
        range.nativeAtomics r q' = true
  writes : ∀ q page, b.Restores range q page → range.uvmLite q = false →
    ∀ r, page ∈ b.resident r →
      range.systemWideAtomics q = false ∨ range.nativeAtomics r q = true ∨
        ∀ q', q' ≠ q → (b.prot q' page).writable = false ∧ ¬b.Restores range q' page

/-- The condition on a step. -/
def SingleCopies (s : State g n) : Label g n → Prop
  | .service i req => ∀ m, s.blocks[i]? = some m →
      (serviceCopy m.range req m.block).2 = true →
      restoresBulk req (req.settled m.range m.block) = true →
      req.RestoresOwn m.range (req.settled m.range m.block)
  | .finalize noContext _ => ∀ m ∈ s.blocks, noContext m.rangeId = false →
      m.block.RestoresSingle m.range
  | _ => True

section Permissions

variable {range : Range g} {req : Request g n} {b : Block g n}

theorem Prot.eq_of_readWriteAtomic_le {prot : Prot} (h : .readWriteAtomic ≤ prot) :
    prot = .readWriteAtomic := by
  revert h
  cases prot <;> decide

/-- A page with one copy may be mapped with all permissions when that takes atomics
from nobody. -/
theorem computeHighestPermission_single {p r : Proc g} {page : Fin n}
    (hHome : b.pageResidentProcessors page = [r]) (hAccess : range.canAccess p r = true)
    (hAtomics : ∀ q, q ≠ p → range.systemWideAtomics q = true →
      b.prot q page = .readWriteAtomic → range.nativeAtomics r q = true)
    (hWrites : range.systemWideAtomics p = false ∨ range.nativeAtomics r p = true ∨
      ∀ q, q ≠ p → (b.prot q page).writable = false) :
    computeHighestPermission range b p page = .readWriteAtomic := by
  unfold computeHighestPermission
  split
  · rfl
  simp only [hHome, hAccess, Bool.true_eq_false, if_false]
  split
  · rfl
  have hFirst : (((b.pageAuthorizedProcessors page .readWriteAtomic).filter
      fun q => range.systemWideAtomics q && q ≠ p).head?.any
        fun q => !range.nativeAtomics r q) = false := by
    rw [Option.any_eq_false]
    intro q hq
    have hMem := List.mem_of_mem_head? hq
    simp only [Block.pageAuthorizedProcessors, List.mem_filter, decide_eq_true_eq,
      Bool.and_eq_true] at hMem
    rw [hAtomics q hMem.2.2 hMem.2.1 (Prot.eq_of_readWriteAtomic_le hMem.1.2)]
    rfl
  rw [hFirst]
  simp only [Bool.false_eq_true, if_false]
  refine if_pos ?_
  rcases hWrites with hApart | hNative | hNone
  · exact .inl hApart
  · exact .inr (.inl hNative)
  · refine .inr (.inr (List.filter_eq_nil_iff.mpr fun q hq => ?_))
    simp only [Block.pageAuthorizedProcessors, List.mem_filter, decide_eq_true_eq] at hq
    intro hOther
    have hWritable := decide_eq_true hq.2
    rw [show decide (.readWrite ≤ b.prot q page) = false from
      hNone q (of_decide_eq_true hOther)] at hWritable
    cases hWritable

/-- What can be reached on the one processor that holds it is accessible there. -/
theorem canAccess_of_reachable {p r : Proc g} {page : Fin n}
    (hHome : b.pageResidentProcessors page = [r]) (hReach : page ∈ b.reachable range p) :
    range.canAccess p r = true := by
  rw [Block.reachable, Finset.mem_filter] at hReach
  obtain ⟨-, r', hAllowed, hHolds⟩ := hReach
  have hSame : r' ∈ b.pageResidentProcessors page := by
    rw [Block.pageResidentProcessors, List.mem_filter]
    exact ⟨r'.mem_all, decide_eq_true hHolds⟩
  rw [hHome, List.mem_singleton] at hSame
  subst hSame
  simp only [Block.allowedDestinations, List.mem_filter, decide_eq_true_eq] at hAllowed
  exact hAllowed.2.2

end Permissions

section Service

variable {range : Range g} {req : Request g n} {b : Block g n}

theorem mem_computeMappings {prot : Prot} {page : Fin n}
    (h : page ∈ (computeMappings range req b prot).pages) :
    page ∈ req.served ∧ computeNewPermission range req b page = prot ∨
      (computeMappings range req b prot).count = 0 ∧ page ∈ req.leftover prot := by
  simp only [computeMappings] at h ⊢
  split at h
  · rename_i hCount
    exact .inr ⟨hCount, h⟩
  · exact .inl (Finset.mem_filter.mp h)

theorem restoresBulk_newResidency (hBulk : restoresBulk req b = true) :
    req.newResidency = req.processor := by
  simp only [restoresBulk, Bool.and_eq_true, decide_eq_true_eq] at hBulk
  exact hBulk.2.symm

/-- The pages of the bulk restore that can be mapped lie on the GPU. -/
theorem Request.RestoresOwn.resident (h : req.RestoresOwn range b)
    (hBulk : restoresBulk req b = true) (hServed : req.served ⊆ b.resident req.newResidency)
    {page : Fin n} (hPage : page ∈ (finalPlan range req b).readWriteAtomic.pages)
    (hReach : page ∈ b.reachable range req.processor) : page ∈ b.resident req.processor := by
  have hNew := restoresBulk_newResidency hBulk
  rw [hNew] at hServed
  simp only [finalPlan, hBulk, if_true, bulkRestore, computePlan, hNew, Finset.mem_union] at hPage
  rcases hPage with (hAtomic | hWrite) | hRest
  · rcases mem_computeMappings hAtomic with hComputed | hLeft
    · exact hServed hComputed.1
    · exact h.leftover page (Finset.mem_union_right _ hLeft.2) hReach
  · rcases mem_computeMappings hWrite with hComputed | hLeft
    · exact hServed hComputed.1
    · exact h.leftover page (Finset.mem_union_left _ hLeft.2) hReach
  · exact (Finset.mem_sdiff.mp hRest).1

/-- On the GPU's own pages every fault is computed to be mapped with all permissions. -/
theorem Request.RestoresOwn.computeNewPermission (h : req.RestoresOwn range b)
    (hBulk : restoresBulk req b = true) {page : Fin n} (hPage : page ∈ req.served)
    (hAccess : req.access page ≠ .none) (hSingle : page ∉ b.readDuplicated) :
    computeNewPermission range req b page = .readWriteAtomic := by
  have hNew := restoresBulk_newResidency hBulk
  simp only [Uvm.computeNewPermission, hNew, h.native]
  rcases h.writable page hPage with hAtomic | hLogical
  · simp [hAtomic]
  cases hAsked : req.access page with
  | none => exact absurd hAsked hAccess
  | readWriteAtomic => simp
  | readWrite => simp [hLogical]
  | readOnly =>
      obtain ⟨hPolicy, hAtomics⟩ := h.reads page hPage hAsked
      have hNotDuplicate : mightReadDuplicate range b page = false := by
        cases hReadDuplication : range.readDuplication <;>
          simp_all [mightReadDuplicate, Range.isReadDuplicate]
      have hNobody : (b.pageAuthorizedProcessors page .readWriteAtomic).filter
          (fun q => !range.nativeAtomics req.processor q && range.faultable q) = [] := by
        refine List.filter_eq_nil_iff.mpr fun q hq => ?_
        simp only [Block.pageAuthorizedProcessors, List.mem_filter, decide_eq_true_eq] at hq
        intro hOther
        rw [Bool.and_eq_true, Bool.not_eq_true'] at hOther
        by_cases hSelf : q = req.processor
        · rw [hSelf, h.native] at hOther
          cases hOther.1
        · rw [hAtomics q hSelf (Prot.eq_of_readWriteAtomic_le hq.2) hOther.2] at hOther
          cases hOther.1
      have hPromoted : .readOnly < range.logicalProt := by
        rw [hLogical]
        decide
      have hPromote : .readOnly < range.logicalProt ∧ Prot.readOnly = .readOnly ∧
          mightReadDuplicate range b page = false ∧
          (b.pageAuthorizedProcessors page .readWriteAtomic).filter
            (fun q => !range.nativeAtomics req.processor q && range.faultable q) = [] :=
        ⟨hPromoted, rfl, hNotDuplicate, hNobody⟩
      rw [if_pos hPromote]
      exact if_pos ⟨hLogical, rfl, trivial⟩

/-- Under its condition the bulk restore stays within the limits. -/
theorem Request.RestoresOwn.restoresWithin (h : Duplicates range b)
    (hOwn : restoresBulk req b = true → req.RestoresOwn range b)
    (hServed : req.served ⊆ b.resident req.newResidency)
    (hAccess : ∀ page ∈ req.served, req.access page ≠ .none) : req.RestoresWithin range b := by
  intro hBulk _ p page hGains
  have hCond := hOwn hBulk
  rcases Block.map_prot range req.mm req.processor
      ((finalPlan range req b).readWriteAtomic.pages ∩ Finset.univ) .readWriteAtomic b p page with hSame | ⟨rfl, -, hPage, hReach, -, -⟩
  · rw [Op.apply, hSame] at hGains
    exact absurd hGains (Nat.lt_irrefl _)
  have hHome : page ∈ b.resident req.processor :=
    hCond.resident hBulk hServed (Finset.mem_of_mem_inter_left hPage) hReach
  have hSingle := hCond.single page hHome
  have hLimit : (if page ∈ req.served then Uvm.computeNewPermission range req b page
      else computeHighestPermission range b req.processor page) = .readWriteAtomic := by
    split
    · rename_i hMem
      exact hCond.computeNewPermission hBulk hMem (hAccess page hMem) hSingle
    · rename_i hOther
      have hOnly := h.pageResidentProcessors hHome hSingle
      exact computeHighestPermission_single hOnly (canAccess_of_reachable hOnly hReach)
        (fun q hq hApart hAtomic => hCond.others page hHome hOther q hq hAtomic hApart)
        (.inr (.inl hCond.native))
  show _ ≤ (if page ∈ req.served then _ else _ : Prot)
  rw [hLimit]
  exact Prot.le_readWriteAtomic _

/-- A read-duplicated page whose fault asks for reading is computed to be read. -/
theorem computeNewPermission_duplicated {page : Fin n} (hAsked : req.access page = .readOnly)
    (hDuplicate : mightReadDuplicate range b page = true) :
    computeNewPermission range req b page = .readOnly := by
  simp [computeNewPermission, hAsked, hDuplicate]

/-- Outside the bulk restore, a page that is mapped for writing was computed to be, so
it is not read-duplicated. -/
theorem computePlan_notDuplicated (h : Duplicates range b)
    (hReads : ∀ page ∈ req.duplicated, req.access page = .readOnly)
    (hMoved : ∀ page ∈ req.moved, page ∉ b.readDuplicated) {maxProt : Prot}
    (hWrite : maxProt.writable = true) {pages : Finset (Fin n)}
    (hFrom : FromPlan (computePlan range req b) maxProt pages) {page : Fin n}
    (hPage : page ∈ pages) : page ∉ b.readDuplicated := by
  intro hFlagged
  have hMask := (Finset.mem_inter.mp (hFrom.subset hPage)).1
  have hComputed : page ∈ req.served ∧ computeNewPermission range req b page = maxProt := by
    cases maxProt with
    | none => cases hWrite
    | readOnly => cases hWrite
    | readWrite => exact (mem_computeMappings hMask).resolve_right fun h => hFrom.counted h.1
    | readWriteAtomic =>
        exact (mem_computeMappings hMask).resolve_right fun h => hFrom.counted h.1
  have hDuplicated : page ∈ req.duplicated := by
    by_contra hNot
    apply hMoved page _ hFlagged
    rw [Request.duplicated, Finset.mem_inter, not_and] at hNot
    exact Finset.mem_sdiff.mpr ⟨hComputed.1, hNot hComputed.1⟩
  have hRead := computeNewPermission_duplicated (hReads page hDuplicated)
    (h.allowed page hFlagged)
  rw [hRead] at hComputed
  rw [← hComputed.2] at hWrite
  cases hWrite

/-- A permission to write is given on pages with one copy only. -/
theorem finishStages_notDuplicated (h : Duplicates range b)
    (hReads : ∀ page ∈ req.duplicated, req.access page = .readOnly)
    (hMoved : ∀ page ∈ req.moved, page ∉ b.readDuplicated)
    (hServed : req.served ⊆ b.resident req.newResidency)
    (hOwn : restoresBulk req b = true → req.RestoresOwn range b) {before : Block g n}
    {stage : Stage g n} (hStage : stage ∈ finishStages range req before b (finalPlan range req b))
    {q : Proc g} {pages : Finset (Fin n)} {prot : Prot} (hOp : .map q pages prot ∈ stage.ops)
    (hWrite : prot.writable = true) {page : Fin n} (hPage : page ∈ pages)
    (hReach : page ∈ b.reachable range q) : page ∉ b.readDuplicated := by
  obtain ⟨maxProt, hFrom, hTarget⟩ := finishStages_op range req b before _ hStage hOp hWrite
  rcases hTarget with ⟨rfl, rfl⟩ | hAlong
  · cases hBulk : restoresBulk req b with
    | false =>
        rw [finalPlan, hBulk] at hFrom
        exact computePlan_notDuplicated h hReads hMoved hWrite hFrom hPage
    | true =>
        have hMask := (Finset.mem_inter.mp (hFrom.subset hPage)).1
        have hAtomic : page ∈ (finalPlan range req b).readWriteAtomic.pages := by
          cases prot with
          | none => cases hWrite
          | readOnly => cases hWrite
          | readWrite =>
              simp only [Plan.byProt, finalPlan, hBulk, if_true, bulkRestore] at hMask
              cases hMask
          | readWriteAtomic => exact hMask
        exact (hOwn hBulk).single page ((hOwn hBulk).resident hBulk hServed hAtomic hReach)
  · intro hFlagged
    obtain ⟨hPolicy, hUnset⟩ := hAlong.notDuplicated
    have hMight := h.allowed page hFlagged
    simp only [mightReadDuplicate, Bool.and_eq_true] at hMight
    cases hReadDuplication : range.readDuplication with
    | unset => exact hUnset hReadDuplication page hPage hFlagged
    | disabled => simp [hReadDuplication] at hMight
    | enabled => simp [Range.isReadDuplicate, hReadDuplication, hMight.1] at hPolicy

theorem Request.selected_access (hSelected : req.selected range b = true) {page : Fin n}
    (hPage : page ∈ req.served) : req.access page ≠ .none :=
  (of_decide_eq_true hSelected page hPage).1

theorem Request.selected_reads (hSelected : req.selected range b = true) {page : Fin n}
    (hPage : page ∈ req.duplicated) : req.access page = .readOnly := by
  rw [Request.duplicated, Finset.mem_inter] at hPage
  exact ((of_decide_eq_true hSelected page hPage.1).2 hPage.2).1

/-- A service keeps the invariant, with the bulk restore under its condition. -/
theorem Duplicates.service (h : Duplicates range b) (hSelected : req.selected range b = true)
    (hOwn : (Uvm.serviceCopy range req b).2 = true →
      restoresBulk req (req.settled range b) = true →
        req.RestoresOwn range (req.settled range b)) : Duplicates range (service range req b) := by
  have hSettled : Duplicates range (req.settled range b) := h.settled hSelected
  simp only [Uvm.service]
  split
  · rename_i hOk
    simp only [serviceFinish]
    split
    · exact hSettled
    · have hMoved : ∀ page ∈ req.moved, page ∉ (req.settled range b).readDuplicated :=
        fun page hPage hFlagged => (Finset.mem_sdiff.mp hFlagged).2 hPage
      have hMarked : Duplicates range { req.settled range b with
          dirty := (req.settled range b).dirty || recordsWriteFault req (req.settled range b)
            (finalPlan range req (req.settled range b)) } :=
        ⟨hSettled.flagged, hSettled.readOnly, hSettled.allowed⟩
      refine hMarked.runStages req.mm ?_ req.finishFailures
      intro stage hStage q pages prot hOp hWrite page hPage hReach
      exact finishStages_notDuplicated hSettled
        (fun page hMem => Request.selected_reads hSelected hMem) hMoved
        (served_subset_settled hOk) (hOwn hOk) hStage hOp hWrite hPage hReach
  · exact h.serviceCopy hSelected

end Service

section Finalize

variable {range : Range g} {b : Block g n}

/-- While FINALIZE maps a block, permissions are old ones or its own. -/
structure Restoring (range : Range g) (b c : Block g n) : Prop where
  remapped : Remapped b c
  prot : ∀ q page, c.prot q page = b.prot q page ∨ b.Restores range q page

theorem Restoring.apply {c : Block g n} (h : Restoring range b c) {p : Proc g}
    (hHolds : (b.resident p).Nonempty) (done : Finset (Fin n)) :
    Restoring range b ((Op.map p Finset.univ .readWriteAtomic).apply range false done c) where
  remapped := h.remapped.trans (Remapped.apply range false done c _)
  prot := by
    intro q page
    rcases Block.map_prot range false p (Finset.univ ∩ done) .readWriteAtomic c q page with
      hSame | ⟨rfl, hCan, -, hReach, -, -⟩
    · rw [Op.apply, hSame]
      exact h.prot q page
    · rw [h.remapped.reachable_eq] at hReach
      exact .inr ⟨hCan, hHolds, hReach⟩

/-- One call of FINALIZE gives at most the highest permission. -/
theorem Restoring.givesWithin {c : Block g n} (h : Restoring range b c)
    (hDuplicates : Duplicates range b) (hSingle : b.RestoresSingle range) {p : Proc g}
    (hHolds : (b.resident p).Nonempty) (done : Finset (Fin n)) :
    GivesWithin (computeHighestPermission range c) c
      ((Op.map p Finset.univ .readWriteAtomic).apply range false done c) := by
  intro q page hGains
  rcases Block.map_prot range false p (Finset.univ ∩ done) .readWriteAtomic c q page with
    hSame | ⟨rfl, hCan, -, hReach, -, -⟩
  · rw [Op.apply, hSame] at hGains
    exact absurd hGains (Nat.lt_irrefl _)
  have hHighest : computeHighestPermission range c q page = .readWriteAtomic := by
    cases hLite : range.uvmLite q with
    | true => simp [computeHighestPermission, hLite]
    | false =>
        have hRestores : b.Restores range q page :=
          ⟨hCan, hHolds, h.remapped.reachable_eq range q ▸ hReach⟩
        have hNotFlagged := hSingle.single q page hRestores hLite
        have hReachable := hReach
        rw [Block.reachable, Finset.mem_filter] at hReachable
        obtain ⟨-, r, -, hr⟩ := hReachable
        rw [h.remapped.resident] at hr
        have hHome : c.pageResidentProcessors page = [r] := by
          rw [← hDuplicates.pageResidentProcessors hr hNotFlagged]
          simp only [Block.pageResidentProcessors, h.remapped.resident]
        refine computeHighestPermission_single hHome (canAccess_of_reachable hHome hReach) ?_ ?_
        · intro q' hOther hApart hAtomic
          apply hSingle.atomics q page hRestores hLite r hr q' hOther hApart
          rcases h.prot q' page with hOld | hNew
          · exact .inl (hOld ▸ hAtomic)
          · exact .inr hNew
        · rcases hSingle.writes q page hRestores hLite r hr with hApart | hNative | hNobody
          · exact .inl hApart
          · exact .inr (.inl hNative)
          · refine .inr (.inr fun q' hOther => ?_)
            rcases h.prot q' page with hOld | hNew
            · rw [hOld]
              exact (hNobody q' hOther).1
            · exact absurd hNew (hNobody q' hOther).2
  rw [hHighest]
  exact Prot.le_readWriteAtomic _

theorem mem_restoreAllOps {op : Op g n} (h : op ∈ restoreAllOps b) :
    ∃ p, op = .map p Finset.univ .readWriteAtomic ∧ (b.resident p).Nonempty := by
  obtain ⟨p, hp, rfl⟩ := List.mem_map.mp h
  rw [Block.residentProcessors, List.mem_filter] at hp
  exact ⟨p, rfl, of_decide_eq_true hp.2⟩

theorem Restoring.opsWithin (hDuplicates : Duplicates range b) (hSingle : b.RestoresSingle range)
    {ops : List (Op g n)}
    (hOps : ∀ op ∈ ops, ∃ p, op = .map p Finset.univ .readWriteAtomic ∧ (b.resident p).Nonempty)
    (failure : Option (Failure n)) {c : Block g n} (h : Restoring range b c) :
    OpsWithin range false ops failure c := by
  induction ops generalizing failure c with
  | nil => trivial
  | cons op rest ih =>
      obtain ⟨p, rfl, hHolds⟩ := hOps op List.mem_cons_self
      have hRest := fun op' h' => hOps op' (List.mem_cons_of_mem _ h')
      have hFirst := fun done => h.givesWithin hDuplicates hSingle hHolds done
      rcases failure with - | ⟨index, done⟩
      · exact ⟨hFirst Finset.univ, ih hRest none (h.apply hHolds Finset.univ)⟩
      · cases index with
        | zero => exact hFirst done
        | succ k =>
            exact ⟨hFirst Finset.univ, ih hRest (some ⟨k, done⟩) (h.apply hHolds Finset.univ)⟩

theorem Restoring.runOps {ops : List (Op g n)}
    (hOps : ∀ op ∈ ops, ∃ p, op = .map p Finset.univ .readWriteAtomic ∧ (b.resident p).Nonempty)
    (failure : Option (Failure n)) : Restoring range b (runOps range false ops failure b).1 := by
  refine runOps_preserves ?_ failure ⟨Remapped.refl b, fun _ _ => .inl rfl⟩
  intro op hOp done c hBefore
  obtain ⟨p, rfl, hHolds⟩ := hOps op hOp
  exact hBefore.apply hHolds done

/-- The condition does not depend on the flags FINALIZE clears. -/
theorem Block.RestoresSingle.cleared (h : b.RestoresSingle range) :
    Block.RestoresSingle range { b with tracked := false, dirty := false } := by
  have hSame : ∀ q page, Block.Restores range { b with tracked := false, dirty := false } q page →
      b.Restores range q page := fun _ _ hRestores =>
    ⟨hRestores.canMap, hRestores.holds, hRestores.reachable⟩
  refine ⟨fun q page hr => h.single q page (hSame q page hr), ?_, ?_⟩
  · intro q page hr hLite r hHolds q' hOther hApart hAtomic
    exact h.atomics q page (hSame q page hr) hLite r hHolds q' hOther hApart
      (hAtomic.imp_right (hSame q' page))
  · intro q page hr hLite r hHolds
    rcases h.writes q page (hSame q page hr) hLite r hHolds with hApart | hNative | hNobody
    · exact .inl hApart
    · exact .inr (.inl hNative)
    · refine .inr (.inr fun q' hOther => ⟨(hNobody q' hOther).1, fun hr' => ?_⟩)
      exact (hNobody q' hOther).2 (hSame q' page hr')

/-- FINALIZE keeps the invariant, under its condition. -/
theorem Duplicates.finalizeBlock (h : Duplicates range b) (hSingle : b.RestoresSingle range)
    (failure : Option (Failure n)) : Duplicates range (finalizeBlock range failure b) := by
  have hCleared : Duplicates range { b with tracked := false, dirty := false } :=
    ⟨h.flagged, h.readOnly, h.allowed⟩
  simp only [Uvm.finalizeBlock]
  split
  · exact hCleared
  · have hRestoring : Restoring range { b with tracked := false, dirty := false }
        (Uvm.runOps range false (restoreAllOps { b with tracked := false, dirty := false }) failure
          { b with tracked := false, dirty := false }).1 :=
      Restoring.runOps (fun op hOp => mem_restoreAllOps hOp) failure
    refine hCleared.remapped hRestoring.remapped fun page hPage p hLite => ?_
    rcases hRestoring.prot p page with hOld | ⟨hCan, hHolds, hReach⟩
    · rw [hOld]
      exact hCleared.readOnly page hPage p hLite
    · exact absurd hPage (hSingle.single p page ⟨hCan, hHolds, hReach⟩ hLite)

theorem Duplicates.prepareBlock (h : Duplicates range b) (failure : Option (Failure n)) :
    Duplicates range (prepareBlock range failure b).1 := by
  have hMarked : Duplicates range { b with dirty := false, tracked := true } :=
    ⟨h.flagged, h.readOnly, h.allowed⟩
  simp only [Uvm.prepareBlock]
  split
  · exact hMarked
  · exact hMarked.runOps false revokeAllOps_givesNoWrite failure

end Finalize

section Runs

theorem prepareBlocks_mem {blocks : List (Managed g n)}
    {failure : Option (Nat × PrepareFailure n)} {m : Managed g n}
    (h : m ∈ (prepareBlocks blocks failure).1) :
    ∃ m' ∈ blocks, m = m' ∨ ∃ stop, m = m'.prepare stop := by
  fun_induction prepareBlocks blocks failure with
  | case1 => cases h
  | case2 first rest => exact ⟨m, h, .inl rfl⟩
  | case3 first rest stop hOk ih =>
      rcases List.mem_cons.mp h with rfl | hLater
      · exact ⟨first, List.mem_cons_self, .inr ⟨_, rfl⟩⟩
      · obtain ⟨m', hMem, hSame⟩ := ih hLater
        exact ⟨m', List.mem_cons_of_mem first hMem, hSame⟩
  | case4 first rest stop hFailed =>
      rcases List.mem_cons.mp h with rfl | hLater
      · exact ⟨first, List.mem_cons_self, .inr ⟨_, rfl⟩⟩
      · exact ⟨m, List.mem_cons_of_mem first hLater, .inl rfl⟩
  | case5 first rest k stop later ih =>
      rcases List.mem_cons.mp h with rfl | hLater
      · exact ⟨first, List.mem_cons_self, .inr ⟨_, rfl⟩⟩
      · obtain ⟨m', hMem, hSame⟩ := ih hLater
        exact ⟨m', List.mem_cons_of_mem first hMem, hSame⟩
  | case6 first rest later ih =>
      rcases List.mem_cons.mp h with rfl | hLater
      · exact ⟨first, List.mem_cons_self, .inr ⟨_, rfl⟩⟩
      · obtain ⟨m', hMem, hSame⟩ := ih hLater
        exact ⟨m', List.mem_cons_of_mem first hMem, hSame⟩

/-- What every state of a run keeps. -/
def State.Duplicates (s : State g n) : Prop :=
  ∀ m ∈ s.blocks, Uvm.Duplicates m.range m.block

theorem duplicates_next {s t : State g n} {label : Label g n} (hOk : SingleCopies s label)
    (h : s.Duplicates) (hNext : next s label = some t) : t.Duplicates := by
  cases label with
  | prepare failure =>
      cases hNext
      intro m hm
      obtain ⟨m', hMem, rfl | ⟨stop, rfl⟩⟩ := prepareBlocks_mem hm
      · exact h m hMem
      · exact (h m' hMem).prepareBlock stop
  | service i req =>
      simp only [next, Option.bind_eq_some_iff, Option.ite_none_right_eq_some,
        Option.some.injEq] at hNext
      obtain ⟨m₀, hGet, hSelected, rfl⟩ := hNext
      intro m hm
      rcases List.mem_or_eq_of_mem_set hm with hOld | rfl
      · exact h m hOld
      · exact (h m₀ (List.mem_of_getElem? hGet)).service hSelected (hOk m₀ hGet)
  | create i rangeId range =>
      cases hNext
      intro m hm
      rcases List.eq_or_mem_of_mem_insertIdx hm with rfl | hOld
      · refine ⟨?_, ?_, ?_⟩
        · intro page p q _ hp
          cases hp
        · intro page hPage
          cases hPage
        · intro page hPage
          cases hPage
      · exact h m hOld
  | write i p page =>
      simp only [next, Option.bind_eq_some_iff, Option.ite_none_right_eq_some,
        Option.some.injEq] at hNext
      obtain ⟨m₀, hGet, -, rfl⟩ := hNext
      intro m hm
      rcases List.mem_or_eq_of_mem_set hm with hOld | rfl
      · exact h m hOld
      · exact h m₀ (List.mem_of_getElem? hGet)
  | finalize noContext failures =>
      cases hNext
      intro m hm
      obtain ⟨i, hLt, rfl⟩ := List.mem_mapIdx.mp hm
      have hBefore := h _ (List.getElem_mem hLt)
      unfold Managed.finalize
      split
      · exact hBefore
      · rename_i hContext
        exact hBefore.finalizeBlock
          (hOk _ (List.getElem_mem hLt) (Bool.not_eq_true _ ▸ hContext)) (failures i)

theorem permissionsWithin_of_singleCopies {s t : State g n} {label : Label g n}
    (hOk : SingleCopies s label) (h : s.Duplicates) (hNext : next s label = some t) :
    PermissionsWithin s label := by
  cases label with
  | service i req =>
      intro m hGet hCopied
      have hDuplicates := h m (List.mem_of_getElem? hGet)
      have hRequest : req.selected m.range m.block = true := by
        simp only [next, hGet, Option.bind_some, Option.ite_none_right_eq_some] at hNext
        exact hNext.1
      exact Request.RestoresOwn.restoresWithin (hDuplicates.settled hRequest)
        (hOk m hGet hCopied) (served_subset_settled hCopied)
        fun page hPage => Request.selected_access hRequest hPage
  | finalize noContext failures =>
      intro i m hGet hContext
      have hMem := List.mem_of_getElem? hGet
      have hDuplicates := h m hMem
      have hCleared : Uvm.Duplicates m.range
          { m.block with tracked := false, dirty := false } :=
        ⟨hDuplicates.flagged, hDuplicates.readOnly, hDuplicates.allowed⟩
      have hSingle := (hOk m hMem hContext).cleared
      exact Restoring.opsWithin hCleared hSingle (fun op hOp => mem_restoreAllOps hOp)
        (failures i) ⟨Remapped.refl _, fun _ _ => .inl rfl⟩
  | prepare failure => trivial
  | create i rangeId range => trivial
  | write i p page => trivial

/-- In every run whose bulk paths only map pages with one copy, the blocks stay
coherent and no bulk path exceeds the driver's own rules. -/
theorem coherenceKept_of_singleCopies (x : CoherentStart g n) (labels : List (Label g n))
    (hOk : Along next SingleCopies x.state labels) : CoherenceKept x labels := by
  have hStep : ∀ (s : State g n) label t, SingleCopies s label → s.Duplicates →
      next s label = some t → t.Duplicates :=
    fun _ _ _ hLabel h hNext => duplicates_next hLabel h hNext
  refine ⟨fun s hRun m hm => ?_, ?_⟩
  · exact (invariant_along hStep labels x.state s x.duplicates hOk hRun m hm).coherent
  · exact along_of_invariant hStep
      (fun _ _ _ hLabel h hNext => permissionsWithin_of_singleCopies hLabel h hNext)
      labels x.state x.duplicates hOk

end Runs

def ownStart : CoherentStart 1 2 where
  state := ⟨[⟨0, plainRange, gpuBlock, false⟩], false⟩
  duplicates := by
    intro m hm
    cases List.mem_singleton.mp hm
    exact ⟨by decide, by decide, by decide⟩

/-- A write fault of the GPU between PREPARE_ALL and FINALIZE. -/
def faultsOnce : List (Label 1 2) :=
  [.prepare none, .service 0 (writeFault (.gpu (Fin.last 0))), .finalize (fun _ => false) fun _ => none]

def faultedBlock : Block 1 2 :=
  service plainRange (writeFault (.gpu (Fin.last 0))) (prepareBlock plainRange none gpuBlock).1

theorem restoresSingle_faultedBlock : faultedBlock.RestoresSingle plainRange := by
  have hGpu : ∀ q : Proc 1, Block.canMap plainRange false q = true → q = .gpu 0 := by decide
  have hFlagged : ∀ page, page ∉ faultedBlock.readDuplicated := by decide
  have hCpu : ∀ q, q ≠ .gpu 0 → ∀ page, faultedBlock.prot q page = .none := by decide
  refine ⟨fun q page _ _ => hFlagged page, ?_, ?_⟩
  · intro q page hRestores _ r _ q' hOther _ hAtomic
    rw [hGpu q hRestores.canMap] at hOther
    rcases hAtomic with hOld | hNew
    · rw [hCpu q' hOther page] at hOld
      cases hOld
    · exact absurd (hGpu q' hNew.canMap) hOther
  · intro q page hRestores _ r _
    rw [hGpu q hRestores.canMap]
    refine .inr (.inr fun q' hOther => ⟨?_, fun hNew => hOther (hGpu q' hNew.canMap)⟩)
    rw [hCpu q' hOther page]
    rfl

theorem coherenceKept_faultsOnce :
    (∃ s, execute next ownStart.state faultsOnce = some s) ∧
      CoherenceKept ownStart faultsOnce := by
  refine ⟨⟨_, rfl⟩, coherenceKept_of_singleCopies ownStart faultsOnce ?_⟩
  apply along_cons rfl trivial
  apply along_cons rfl
  · intro m hm _ _
    cases hm
    exact ⟨by decide, by decide, by decide, by decide, by decide, by decide⟩
  · refine along_cons rfl ?_ trivial
    intro m hm _
    cases List.mem_singleton.mp hm
    exact restoresSingle_faultedBlock

/-- A page on the GPU, and one with a further copy on the CPU. -/
def mixedBlock : Block 1 2 where
  resident := fun p => if p.isGpu then Finset.univ else {Fin.last 1}
  prot := fun p page =>
    if page = Fin.last 1 then .readOnly else if p.isGpu then .readWrite else .none
  readDuplicated := {Fin.last 1}
  maybeMapped := Finset.univ
  tracked := false
  dirty := false

def mixedStart : CoherentStart 1 2 where
  state := ⟨[⟨0, plainRange, mixedBlock, false⟩], false⟩
  duplicates := by
    intro m hm
    cases List.mem_singleton.mp hm
    exact ⟨by decide, by decide, by decide⟩

def prepareAndFinalize : List (Label 1 2) :=
  [.prepare none, .finalize (fun _ => false) fun _ => none]

theorem not_coherenceKept_mixed : ¬CoherenceKept mixedStart prepareAndFinalize := by
  intro h
  have hCoherent := h.1 _ rfl _ List.mem_cons_self
  exact absurd (hCoherent 1 .cpu (.gpu 0) (by decide) (by decide) (by decide) (.gpu 0) rfl)
    (by decide)

end FlashCkpt.Uvm
