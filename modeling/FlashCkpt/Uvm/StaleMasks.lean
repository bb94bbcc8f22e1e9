import Mathlib.Data.Fintype.Card
import FlashCkpt.Uvm.Migration

/-! The service context is reused: a page mask of `mappings_by_prot` that no page of
the batch has set still holds the bits of an earlier block. What the service maps and
records is compared here with what it would from clear masks. -/
namespace FlashCkpt.Uvm

variable {g n : Nat}

/-- The same batch, served from a context whose page masks are clear. -/
def Request.cleared (req : Request g n) : Request g n := { req with leftover := fun _ => ∅ }

/-- A mask as its readers are to see it: they skip it while its count is zero. -/
def Mappings.seen (mappings : Mappings n) : Finset (Fin n) :=
  if mappings.count = 0 then ∅ else mappings.pages

namespace Plan

/-- The pages that the processor which faulted is mapped with one permission. -/
def maps (plan : Plan n) (prot : Prot) : Finset (Fin n) :=
  (plan.byProt prot).seen ∩ plan.region

/-- No page has two permissions, and each count is the number of pages. -/
structure Consistent (plan : Plan n) : Prop where
  disjoint : ∀ prot prot', prot ≠ prot' → Disjoint (plan.maps prot) (plan.maps prot')
  counts : ∀ prot, (plan.byProt prot).count = (plan.byProt prot).seen.card

/-- Two plans that differ only in bits their counts hide. -/
structure Agrees (plan plan' : Plan n) : Prop where
  counts : ∀ prot, (plan.byProt prot).count = (plan'.byProt prot).count
  seen : ∀ prot, (plan.byProt prot).seen = (plan'.byProt prot).seen
  region : plan.region = plan'.region

theorem Agrees.symm {plan plan' : Plan n} (h : plan.Agrees plan') : plan'.Agrees plan :=
  ⟨fun prot => (h.counts prot).symm, fun prot => (h.seen prot).symm, h.region.symm⟩

theorem Agrees.trans {plan plan' plan'' : Plan n} (h : plan.Agrees plan')
    (h' : plan'.Agrees plan'') : plan.Agrees plan'' :=
  ⟨fun prot => (h.counts prot).trans (h'.counts prot), fun prot => (h.seen prot).trans (h'.seen prot),
    h.region.trans h'.region⟩

theorem Agrees.maps {plan plan' : Plan n} (h : plan.Agrees plan') : plan.maps = plan'.maps := by
  funext prot
  rw [Plan.maps, Plan.maps, h.seen, h.region]

theorem Agrees.consistent {plan plan' : Plan n} (h : plan.Agrees plan') (hPlan : plan'.Consistent) :
    plan.Consistent where
  disjoint := by
    rw [h.maps]
    exact hPlan.disjoint
  counts := by
    intro prot
    rw [h.counts, h.seen]
    exact hPlan.counts prot

end Plan

section Definitions

variable (range : Range g) (req : Request g n)

/-- The pages of the batch that get one permission. -/
def granted (b : Block g n) (prot : Prot) : Finset (Fin n) :=
  req.served.filter fun page => computeNewPermission range req b page = prot

/-- What `uvm_va_block_service_finish` maps, unless it has no memory to begin. -/
def servicePlan (b : Block g n) : Option (Plan n) :=
  if req.noMemory then none else some (finalPlan range req (makeResidentFinish req b))

/-- The service maps and records what it would from clear masks, and its own masks
are consistent. -/
structure DependsOnBatch (before b : Block g n) : Prop where
  maps : (servicePlan range req b).map Plan.maps =
    (servicePlan range req.cleared b).map Plan.maps
  dirty : (serviceFinish range req before b).dirty =
    (serviceFinish range req.cleared before b).dirty
  consistent : ∀ plan ∈ servicePlan range req b, plan.Consistent

/-- Elsewhere than at the bulk restore only the record of write faults reads a mask
without its count. -/
def LeftoverUnrecorded (b : Block g n) : Prop :=
  b.dirty = true ∨ (granted range req b .readWrite ∪ granted range req b .readWriteAtomic).Nonempty ∨
    Disjoint (req.leftover .readWrite ∪ req.leftover .readWriteAtomic) req.region

/-- The bulk restore takes no page from the reading mask, whose count it leaves, and
finds no bits in the other two but those it would put there itself. -/
structure RestoreKeepsCounts (b : Block g n) : Prop where
  noReader : Disjoint (granted range req b .readOnly) (b.resident req.newResidency)
  writes : granted range req b .readWrite = ∅ → req.leftover .readWrite = ∅
  atomics : granted range req b .readWriteAtomic = ∅ →
    req.leftover .readWriteAtomic ⊆ granted range req b .readWrite ∨
      b.dirty = true ∧ granted range req b .readWrite = ∅ ∧ b.resident req.newResidency = ∅

/-- The leftover masks do not matter, with the block as it is when permissions are
computed. -/
def LeftoverHarmless (b : Block g n) : Prop :=
  req.noMemory = true ∨ b.tracked = false ∨ req.processor.isGpu = false ∨
    if req.processor = req.newResidency then RestoreKeepsCounts range req b
    else LeftoverUnrecorded range req b

end Definitions

section Computed

variable (range : Range g) (req : Request g n) (b : Block g n)

theorem granted_subset_region (prot : Prot) : granted range req b prot ⊆ req.region :=
  (Finset.filter_subset _ _).trans Finset.inter_subset_right

theorem granted_disjoint {prot prot' : Prot} (h : prot ≠ prot') :
    Disjoint (granted range req b prot) (granted range req b prot') := by
  rw [granted, granted, Finset.disjoint_filter]
  intro page _ hProt hProt'
  exact h (hProt.symm.trans hProt')

/-- A page that has the permission decides what the mask holds; without one the mask
is left as it was. -/
theorem computeMappings_pages (prot : Prot) :
    (computeMappings range req b prot).pages =
      if granted range req b prot = ∅ then req.leftover prot else granted range req b prot := by
  simp [computeMappings, granted]

theorem computeMappings_count (prot : Prot) :
    (computeMappings range req b prot).count = (granted range req b prot).card := rfl

theorem granted_subset_pages (prot : Prot) :
    granted range req b prot ⊆ (computeMappings range req b prot).pages := by
  rw [computeMappings_pages]
  split
  · rename_i hEmpty
    rw [hEmpty]
    exact Finset.empty_subset _
  · exact Finset.Subset.refl _

theorem computeMappings_cleared (prot : Prot) :
    computeMappings range req.cleared b prot =
      ⟨granted range req b prot, (granted range req b prot).card⟩ := by
  have hPages : (computeMappings range req.cleared b prot).pages = granted range req b prot := by
    rw [computeMappings_pages]
    split
    · rename_i hEmpty
      exact Eq.symm hEmpty
    · rfl
  exact congrArg (Mappings.mk · _) hPages

theorem computeMappings_seen (prot : Prot) :
    (computeMappings range req b prot).seen = granted range req b prot := by
  by_cases hEmpty : granted range req b prot = ∅
  · simp [Mappings.seen, computeMappings_count, hEmpty]
  · have hCount : (granted range req b prot).card ≠ 0 := Finset.card_ne_zero.mpr
      (Finset.nonempty_iff_ne_empty.mpr hEmpty)
    rw [Mappings.seen, computeMappings_count, if_neg hCount, computeMappings_pages, if_neg hEmpty]

/-- Before the bulk restore a permission has the pages that were computed to have it. -/
theorem computePlan_seen {prot : Prot} (h : prot ≠ .none) :
    ((computePlan range req b).byProt prot).seen = granted range req b prot := by
  cases prot with
  | none => exact absurd rfl h
  | readOnly => exact computeMappings_seen range req b .readOnly
  | readWrite => exact computeMappings_seen range req b .readWrite
  | readWriteAtomic => exact computeMappings_seen range req b .readWriteAtomic

theorem computePlan_count {prot : Prot} (h : prot ≠ .none) :
    ((computePlan range req b).byProt prot).count = (granted range req b prot).card := by
  cases prot with
  | none => exact absurd rfl h
  | readOnly | readWrite | readWriteAtomic => rfl

theorem computePlan_maps {prot : Prot} (h : prot ≠ .none) :
    (computePlan range req b).maps prot = granted range req b prot := by
  rw [Plan.maps, computePlan_seen range req b h]
  exact Finset.inter_eq_left.mpr (granted_subset_region range req b prot)

@[simp]
theorem Plan.maps_none (plan : Plan n) : plan.maps .none = ∅ := by
  simp [Plan.maps, Plan.byProt, Mappings.seen]

/-- What stock code relies on: the counts keep the leftover bits out of sight. -/
theorem computePlan_consistent : (computePlan range req b).Consistent where
  disjoint := by
    intro prot prot' hNe
    by_cases hNone : prot = .none
    · simp [hNone]
    by_cases hNone' : prot' = .none
    · simp [hNone']
    rw [computePlan_maps range req b hNone, computePlan_maps range req b hNone']
    exact granted_disjoint range req b hNe
  counts := by
    intro prot
    by_cases hNone : prot = .none
    · subst hNone
      rfl
    · rw [computePlan_count range req b hNone, computePlan_seen range req b hNone]

end Computed

section Restored

theorem bulkRestore_cleared (req : Request g n) (b : Block g n) (plan : Plan n) :
    bulkRestore req.cleared b plan = bulkRestore req b plan := rfl

variable {range : Range g} {req : Request g n} {b : Block g n}

/-- The plan of the bulk restore, from what the masks hold. -/
theorem bulkRestore_readOnly (plan : Plan n) :
    (bulkRestore req b plan).readOnly =
      ⟨plan.readOnly.pages \ (b.resident req.newResidency \
        (plan.readWriteAtomic.pages ∪ plan.readWrite.pages)), plan.readOnly.count⟩ := rfl

theorem card_le_block (hPages : n ≤ 512) (pages : Finset (Fin n)) : pages.card ≤ 512 := by
  exact (card_finset_fin_le pages).trans hPages

/-- Nothing is mapped for writing alone after the bulk restore, so the count must be
zero: every page moved has been counted. -/
theorem bulkRestore_readWrite_count (hPages : n ≤ 512) :
    (bulkRestore req b (computePlan range req b)).readWrite.count = 0 ↔
      (granted range req b .readWrite = ∅ → req.leftover .readWrite = ∅) := by
  have hCard := card_le_block hPages (computePlan range req b).readWrite.pages
  change ((granted range req b .readWrite).card + 2 ^ 32 -
    (computePlan range req b).readWrite.pages.card) % 2 ^ 32 = 0 ↔ _
  have hMask := computeMappings_pages range req b .readWrite
  change (computePlan range req b).readWrite.pages = _ at hMask
  rw [hMask] at hCard ⊢
  by_cases hEmpty : granted range req b .readWrite = ∅
  · rw [if_pos hEmpty] at hCard ⊢
    rw [hEmpty, Finset.card_empty]
    constructor
    · intro hCount _
      exact Finset.card_eq_zero.mp (by omega)
    · intro hNone
      simp [hNone rfl]
  · rw [if_neg hEmpty]
    exact ⟨fun _ h => absurd h hEmpty, fun _ => by omega⟩

theorem bulkRestore_atomics_count (range : Range g) (req : Request g n) (b : Block g n)
    (hPages : n ≤ 512) :
    (bulkRestore req b (computePlan range req b)).readWriteAtomic.count =
      (granted range req b .readWriteAtomic).card + (computePlan range req b).readWrite.pages.card +
        (b.resident req.newResidency \ ((computePlan range req b).readWriteAtomic.pages ∪
          (computePlan range req b).readWrite.pages)).card := by
  have hWrites := card_le_block hPages (computePlan range req b).readWrite.pages
  have hAtomics := card_le_block hPages (granted range req b .readWriteAtomic)
  have hRest := card_le_block hPages (b.resident req.newResidency \
    ((computePlan range req b).readWriteAtomic.pages ∪ (computePlan range req b).readWrite.pages))
  change (_ + _ + _) % 2 ^ 32 = _
  rw [Nat.mod_eq_of_lt]
  · rfl
  · change (granted range req b .readWriteAtomic).card + _ + _ < _
    omega

end Restored

section Bulk

variable (range : Range g) (req : Request g n) (b : Block g n)

/-- The plan the bulk restore is for: whatever is written, and whatever the GPU holds,
is mapped for writing and atomics. -/
def restoredPlan : Plan n :=
  let atomics := granted range req b .readWriteAtomic ∪ granted range req b .readWrite ∪
    b.resident req.newResidency
  { readOnly := ⟨granted range req b .readOnly, (granted range req b .readOnly).card⟩
    readWrite := ⟨∅, 0⟩
    readWriteAtomic := ⟨atomics, atomics.card⟩
    region := Finset.univ }

theorem Mappings.seen_exact (pages : Finset (Fin n)) :
    (Mappings.mk pages pages.card).seen = pages := by
  rw [Mappings.seen]
  split
  · rename_i hCount
    exact (Finset.card_eq_zero.mp hCount).symm
  · rfl

theorem restoredPlan_consistent
    (hReader : Disjoint (granted range req b .readOnly) (b.resident req.newResidency)) :
    (restoredPlan range req b).Consistent where
  disjoint := by
    have hApart : Disjoint ((restoredPlan range req b).maps .readOnly)
        ((restoredPlan range req b).maps .readWriteAtomic) := by
      apply Disjoint.mono Finset.inter_subset_left Finset.inter_subset_left
      change Disjoint (Mappings.seen ⟨_, _⟩) (Mappings.seen ⟨_, _⟩)
      rw [Mappings.seen_exact, Mappings.seen_exact]
      exact Finset.disjoint_union_right.mpr ⟨Finset.disjoint_union_right.mpr
        ⟨granted_disjoint range req b (by decide), granted_disjoint range req b (by decide)⟩,
        hReader⟩
    have hWrites : (restoredPlan range req b).maps .readWrite = ∅ := by
      simp [Plan.maps, Plan.byProt, restoredPlan, Mappings.seen]
    intro prot prot' hNe
    cases prot <;> cases prot' <;> first
      | exact absurd rfl hNe
      | exact hApart
      | exact hApart.symm
      | simp [hWrites]
  counts := by
    intro prot
    cases prot with
    | none | readWrite => rfl
    | readOnly | readWriteAtomic => exact (congrArg Finset.card (Mappings.seen_exact _)).symm

variable {range req b}

theorem writes_pages
    (hWrites : granted range req b .readWrite = ∅ → req.leftover .readWrite = ∅) :
    (computePlan range req b).readWrite.pages = granted range req b .readWrite := by
  have hMask := computeMappings_pages range req b .readWrite
  change (computePlan range req b).readWrite.pages = _ at hMask
  rw [hMask]
  split
  · rename_i hEmpty
    rw [hEmpty, hWrites hEmpty]
  · rfl

/-- Leftover bits in the last mask are among those the restore puts there. -/
theorem atomics_pages
    (hAtomics : granted range req b .readWriteAtomic = ∅ →
      req.leftover .readWriteAtomic ⊆ granted range req b .readWrite) :
    (computePlan range req b).readWriteAtomic.pages ∪ granted range req b .readWrite =
      granted range req b .readWriteAtomic ∪ granted range req b .readWrite := by
  have hMask := computeMappings_pages range req b .readWriteAtomic
  change (computePlan range req b).readWriteAtomic.pages = _ at hMask
  rw [hMask]
  split
  · rename_i hEmpty
    rw [hEmpty, Finset.empty_union]
    exact Finset.union_eq_right.mpr (hAtomics hEmpty)
  · rfl

theorem RestoreKeepsCounts.readOnly_seen (h : RestoreKeepsCounts range req b) :
    (bulkRestore req b (computePlan range req b)).readOnly.seen =
      granted range req b .readOnly := by
  have hSeen := computeMappings_seen range req b .readOnly
  rw [Mappings.seen] at hSeen ⊢
  rw [bulkRestore_readOnly]
  change (if (granted range req b .readOnly).card = 0 then _ else _) = _
  change (if (granted range req b .readOnly).card = 0 then _ else _) = _ at hSeen
  by_cases hCount : (granted range req b .readOnly).card = 0
  · rw [if_pos hCount]
    exact (Finset.card_eq_zero.mp hCount).symm
  · rw [if_neg hCount] at hSeen ⊢
    change (computePlan range req b).readOnly.pages = _ at hSeen
    rw [hSeen]
    exact Finset.sdiff_eq_self_of_disjoint (h.noReader.mono_right Finset.sdiff_subset)

/-- The atomics mask of the bulk restore, with its count, if the masks it started from
hold what was computed. -/
theorem atomics_exact (hPages : n ≤ 512)
    (hWrites : (computePlan range req b).readWrite.pages = granted range req b .readWrite)
    (hAtomics : granted range req b .readWriteAtomic = ∅ →
      req.leftover .readWriteAtomic ⊆ granted range req b .readWrite) :
    (bulkRestore req b (computePlan range req b)).readWriteAtomic =
      (restoredPlan range req b).readWriteAtomic := by
  have hCount := bulkRestore_atomics_count range req b hPages
  have hMask : (bulkRestore req b (computePlan range req b)).readWriteAtomic.pages =
      (computePlan range req b).readWriteAtomic.pages ∪ (computePlan range req b).readWrite.pages ∪
        (b.resident req.newResidency \ ((computePlan range req b).readWriteAtomic.pages ∪
          (computePlan range req b).readWrite.pages)) := rfl
  rw [hWrites, atomics_pages hAtomics] at hCount hMask
  have hCards : (bulkRestore req b (computePlan range req b)).readWriteAtomic.count =
      (restoredPlan range req b).readWriteAtomic.count := by
    rw [hCount, ← Finset.card_union_of_disjoint (granted_disjoint range req b (by decide)),
      ← Finset.card_union_of_disjoint Finset.disjoint_sdiff, Finset.union_sdiff_self_eq_union]
    rfl
  rw [Finset.union_sdiff_self_eq_union] at hMask
  cases hBulk : (bulkRestore req b (computePlan range req b)).readWriteAtomic
  rw [hBulk] at hCards hMask
  exact congrArg₂ Mappings.mk hMask hCards

theorem RestoreKeepsCounts.atomics_agree (hPages : n ≤ 512) (h : RestoreKeepsCounts range req b) :
    (bulkRestore req b (computePlan range req b)).readWriteAtomic.count =
        (restoredPlan range req b).readWriteAtomic.count ∧
      (bulkRestore req b (computePlan range req b)).readWriteAtomic.seen =
        (restoredPlan range req b).readWriteAtomic.seen := by
  by_cases hSub : granted range req b .readWriteAtomic = ∅ →
      req.leftover .readWriteAtomic ⊆ granted range req b .readWrite
  · rw [atomics_exact hPages (writes_pages h.writes) hSub]
    exact ⟨rfl, rfl⟩
  · -- a batch that maps nothing on a GPU that holds nothing
    rw [Classical.not_imp] at hSub
    obtain ⟨-, hWrites, hNowhere⟩ := (h.atomics hSub.1).resolve_left hSub.2
    have hCount : (bulkRestore req b (computePlan range req b)).readWriteAtomic.count = 0 := by
      rw [bulkRestore_atomics_count range req b hPages, (writes_pages h.writes), hSub.1, hWrites, hNowhere]
      simp
    have hRestored : (restoredPlan range req b).readWriteAtomic = ⟨∅, 0⟩ := by
      simp [restoredPlan, hSub.1, hWrites, hNowhere]
    rw [hRestored, Mappings.seen, if_pos hCount]
    exact ⟨hCount, rfl⟩

theorem RestoreKeepsCounts.agrees (hPages : n ≤ 512) (h : RestoreKeepsCounts range req b) :
    (bulkRestore req b (computePlan range req b)).Agrees (restoredPlan range req b) where
  counts := by
    intro prot
    cases prot with
    | none | readOnly => rfl
    | readWrite => exact (bulkRestore_readWrite_count hPages).mpr h.writes
    | readWriteAtomic => exact (h.atomics_agree hPages).1
  seen := by
    intro prot
    cases prot with
    | none => rfl
    | readOnly => exact h.readOnly_seen.trans (Mappings.seen_exact _).symm
    | readWrite => exact (ite_self _).trans (ite_self _).symm
    | readWriteAtomic => exact (h.atomics_agree hPages).2
  region := rfl

/-- Clear masks are harmless to the last two. -/
theorem RestoreKeepsCounts.of_cleared
    (hReader : Disjoint (granted range req b .readOnly) (b.resident req.newResidency)) :
    RestoreKeepsCounts range req.cleared b where
  noReader := hReader
  writes := fun _ => rfl
  atomics := fun _ => .inl (Finset.empty_subset _)

/-- From clear masks the restore maps all that is written or on the GPU. -/
theorem cleared_atomics (hPages : n ≤ 512) :
    (bulkRestore req b (computePlan range req.cleared b)).maps .readWriteAtomic =
      granted range req b .readWriteAtomic ∪ granted range req b .readWrite ∪
        b.resident req.newResidency := by
  have hWrites : (computePlan range req.cleared b).readWrite.pages = granted range req b .readWrite :=
    congrArg Mappings.pages (computeMappings_cleared range req b .readWrite)
  have hExact : (bulkRestore req b (computePlan range req.cleared b)).readWriteAtomic =
      (restoredPlan range req b).readWriteAtomic :=
    atomics_exact hPages hWrites fun _ => Finset.empty_subset _
  change (bulkRestore req b (computePlan range req.cleared b)).readWriteAtomic.seen ∩
    Finset.univ = _
  rw [hExact, Finset.inter_univ]
  exact Mappings.seen_exact _

/-- A page in the reading mask stays there unless it is taken for the GPU's own, and
then its count shows that. -/
theorem noReader_of_consistent (hPages : n ≤ 512)
    (hMaps : (bulkRestore req b (computePlan range req b)).maps =
      (bulkRestore req b (computePlan range req.cleared b)).maps)
    (hPlan : (bulkRestore req b (computePlan range req b)).Consistent) :
    Disjoint (granted range req b .readOnly) (b.resident req.newResidency) := by
  rw [Finset.disjoint_left]
  intro page hReader hHeld
  have hAtomic : page ∈ (bulkRestore req b (computePlan range req b)).maps .readWriteAtomic := by
    rw [hMaps, cleared_atomics hPages]
    exact Finset.mem_union_right _ hHeld
  have hSome : (granted range req b .readOnly).card ≠ 0 := Finset.card_ne_zero_of_mem hReader
  have hCounts := hPlan.counts .readOnly
  have hMask : (computePlan range req b).readOnly.pages = granted range req b .readOnly := by
    have hComputed := computeMappings_pages range req b .readOnly
    rwa [if_neg (fun hEmpty => hSome (Finset.card_eq_zero.mpr hEmpty))] at hComputed
  have hSeen : (bulkRestore req b (computePlan range req b)).readOnly.seen =
      granted range req b .readOnly \ (b.resident req.newResidency \
        ((computePlan range req b).readWriteAtomic.pages ∪
          (computePlan range req b).readWrite.pages)) := by
    rw [bulkRestore_readOnly, hMask]
    exact if_neg hSome
  have hKept : page ∈ (bulkRestore req b (computePlan range req b)).readOnly.seen := by
    change (granted range req b .readOnly).card =
      (bulkRestore req b (computePlan range req b)).readOnly.seen.card at hCounts
    rw [Finset.eq_of_subset_of_card_le (hSeen ▸ Finset.sdiff_subset) hCounts.le]
    exact hReader
  exact Finset.disjoint_left.mp (hPlan.disjoint .readOnly .readWriteAtomic (by decide))
    (Finset.mem_inter_of_mem hKept (Finset.mem_univ page)) hAtomic

/-- With a count that is right, the bits the atomics mask started with are among those
moved there. -/
theorem leftover_of_count (hPages : n ≤ 512) (hNone : granted range req b .readWriteAtomic = ∅)
    (hWrites : (computePlan range req b).readWrite.pages = granted range req b .readWrite)
    (hCount : (bulkRestore req b (computePlan range req b)).readWriteAtomic.count =
      (bulkRestore req b (computePlan range req b)).readWriteAtomic.pages.card) :
    req.leftover .readWriteAtomic ⊆ granted range req b .readWrite := by
  have hMask : (computePlan range req b).readWriteAtomic.pages = req.leftover .readWriteAtomic := by
    have hComputed := computeMappings_pages range req b .readWriteAtomic
    rwa [if_pos hNone] at hComputed
  rw [bulkRestore_atomics_count range req b hPages] at hCount
  change _ = ((computePlan range req b).readWriteAtomic.pages ∪
    (computePlan range req b).readWrite.pages ∪ (b.resident req.newResidency \
      ((computePlan range req b).readWriteAtomic.pages ∪
        (computePlan range req b).readWrite.pages))).card at hCount
  rw [Finset.card_union_of_disjoint Finset.disjoint_sdiff, hMask, hWrites, hNone,
    Finset.card_empty, Nat.zero_add, Nat.add_right_cancel_iff] at hCount
  have hWider : granted range req b .readWrite ⊆
      req.leftover .readWriteAtomic ∪ granted range req b .readWrite := Finset.subset_union_right
  exact Finset.union_eq_right.mp (Finset.eq_of_subset_of_card_le hWider hCount.ge).symm

end Bulk

section Main

variable {range : Range g} {req : Request g n} {b : Block g n}

theorem serviceFinish_dirty (before : Block g n) :
    (serviceFinish range req before b).dirty =
      (b.dirty || (!req.noMemory && recordsWriteFault req (makeResidentFinish req b)
        (finalPlan range req (makeResidentFinish req b)))) := by
  unfold serviceFinish
  cases req.noMemory with
  | true => simp [makeResidentFinish]
  | false => exact (Remapped.runStages range req.mm _ req.finishFailures _).dirty

/-- What is left to show of a service that has its memory, on the block as it is when
the permissions are computed. -/
theorem dependsOnBatch_iff_plans (before : Block g n) (hMemory : req.noMemory = false) :
    DependsOnBatch range req before b ↔
      (finalPlan range req (makeResidentFinish req b)).maps =
          (finalPlan range req.cleared (makeResidentFinish req b)).maps ∧
        ((makeResidentFinish req b).dirty = true ∨
          recordsWriteFault req (makeResidentFinish req b)
              (finalPlan range req (makeResidentFinish req b)) =
            recordsWriteFault req (makeResidentFinish req b)
              (finalPlan range req.cleared (makeResidentFinish req b))) ∧
        (finalPlan range req (makeResidentFinish req b)).Consistent := by
  have hPlan : servicePlan range req b = some (finalPlan range req (makeResidentFinish req b)) := by
    rw [servicePlan, hMemory]
    rfl
  have hClear : servicePlan range req.cleared b =
      some (finalPlan range req.cleared (makeResidentFinish req b)) := by
    rw [servicePlan, show req.cleared.noMemory = false from hMemory]
    rfl
  have hDirty : (serviceFinish range req before b).dirty =
      (serviceFinish range req.cleared before b).dirty ↔ (b.dirty = true ∨
        recordsWriteFault req (makeResidentFinish req b)
            (finalPlan range req (makeResidentFinish req b)) =
          recordsWriteFault req (makeResidentFinish req b)
            (finalPlan range req.cleared (makeResidentFinish req b))) := by
    rw [serviceFinish_dirty, serviceFinish_dirty, hMemory,
      show req.cleared.noMemory = false from hMemory]
    cases b.dirty with
    | true => simp
    | false => simp only [Bool.false_or, Bool.not_false, Bool.true_and, Bool.false_eq_true,
        false_or]; rfl
  constructor
  · rintro ⟨hMaps, hSame, hConsistent⟩
    rw [hPlan, hClear] at hMaps
    exact ⟨Option.some.inj hMaps, hDirty.mp hSame, hConsistent _ hPlan⟩
  · rintro ⟨hMaps, hSame, hConsistent⟩
    constructor
    · rw [hPlan, hClear]
      exact congrArg some hMaps
    · exact hDirty.mpr hSame
    · intro plan hMem
      rw [hPlan] at hMem
      cases hMem
      exact hConsistent

/-- Away from the bulk restore a write fault is recorded for the batch, or else for
bits the two masks have kept. -/
theorem recordsWriteFault_computed (range : Range g) (req : Request g n) (hTracked : b.tracked = true)
    (hGpu : req.processor.isGpu = true) :
    recordsWriteFault req b (computePlan range req b) = true ↔
      (granted range req b .readWrite ∪ granted range req b .readWriteAtomic).Nonempty ∨
        ¬ Disjoint (req.leftover .readWrite ∪ req.leftover .readWriteAtomic) req.region := by
  simp only [recordsWriteFault, hTracked, hGpu, Bool.true_and, decide_eq_true_eq]
  change (((computeMappings range req b .readWrite).pages ∪
    (computeMappings range req b .readWriteAtomic).pages) ∩ req.region).Nonempty ↔ _
  by_cases hSome :
      (granted range req b .readWrite ∪ granted range req b .readWriteAtomic).Nonempty
  · apply iff_of_true ?_ (.inl hSome)
    obtain ⟨page, hPage⟩ := hSome
    have hRegion : page ∈ req.region := (Finset.mem_union.mp hPage).elim
      (fun h => granted_subset_region range req b _ h) fun h =>
        granted_subset_region range req b _ h
    exact ⟨page, Finset.mem_inter_of_mem (Finset.union_subset_union
      (granted_subset_pages range req b .readWrite)
      (granted_subset_pages range req b .readWriteAtomic) hPage) hRegion⟩
  · have hNone := Finset.not_nonempty_iff_eq_empty.mp hSome
    rw [Finset.union_eq_empty] at hNone
    rw [computeMappings_pages, computeMappings_pages, if_pos hNone.1, if_pos hNone.2,
      Finset.not_disjoint_iff_nonempty_inter]
    exact (or_iff_right hSome).symm

theorem unrestored_iff (hTracked : b.tracked = true) (hGpu : req.processor.isGpu = true) :
    (b.dirty = true ∨ recordsWriteFault req b (computePlan range req b) =
        recordsWriteFault req b (computePlan range req.cleared b)) ↔
      LeftoverUnrecorded range req b := by
  have hActual := recordsWriteFault_computed range req hTracked hGpu
  have hClear : recordsWriteFault req b (computePlan range req.cleared b) = true ↔
      (granted range req b .readWrite ∪ granted range req b .readWriteAtomic).Nonempty := by
    have hCleared := recordsWriteFault_computed range req.cleared hTracked hGpu
    have hNothing : Disjoint ((∅ : Finset (Fin n)) ∪ ∅) req.region := by simp
    exact hCleared.trans (or_iff_left (not_not.mpr hNothing))
  have hSame := Bool.eq_iff_iff (a := recordsWriteFault req b (computePlan range req b))
    (b := recordsWriteFault req b (computePlan range req.cleared b))
  rw [hSame, hActual, hClear, LeftoverUnrecorded]
  by_cases hSome :
      (granted range req b .readWrite ∪ granted range req b .readWriteAtomic).Nonempty
  · simp only [hSome, true_or]
  · simp only [hSome, false_or, iff_false, not_not]

/-- The bulk restore records a write fault for whatever it maps for writing. -/
theorem recordsWriteFault_restored (hBulk : restoresBulk req b = true) (plan : Plan n) :
    recordsWriteFault req b (bulkRestore req b plan) = true ↔
      (plan.readWriteAtomic.pages ∪ plan.readWrite.pages ∪
        b.resident req.newResidency).Nonempty := by
  simp only [restoresBulk, Bool.and_eq_true] at hBulk
  simp only [recordsWriteFault, hBulk.1.1, hBulk.1.2, Bool.true_and, decide_eq_true_eq,
    bulkRestore, Finset.inter_univ, Finset.empty_union, Finset.union_sdiff_self_eq_union]

theorem cleared_atomics_pages :
    (computePlan range req.cleared b).readWriteAtomic.pages ∪
        (computePlan range req.cleared b).readWrite.pages =
      granted range req b .readWriteAtomic ∪ granted range req b .readWrite :=
  congrArg₂ (· ∪ ·) (congrArg Mappings.pages (computeMappings_cleared range req b .readWriteAtomic))
    (congrArg Mappings.pages (computeMappings_cleared range req b .readWrite))

/-- If the count of the atomics mask is zero, nothing is mapped and so nothing may be
recorded either. -/
theorem leftover_of_no_count (hPages : n ≤ 512) (hBulk : restoresBulk req b = true)
    (hMaps : (bulkRestore req b (computePlan range req b)).maps =
      (bulkRestore req b (computePlan range req.cleared b)).maps)
    (hDirty : b.dirty = true ∨
      recordsWriteFault req b (bulkRestore req b (computePlan range req b)) =
        recordsWriteFault req b (bulkRestore req b (computePlan range req.cleared b)))
    (hNone : granted range req b .readWriteAtomic = ∅)
    (hCount : (bulkRestore req b (computePlan range req b)).readWriteAtomic.count = 0) :
    req.leftover .readWriteAtomic ⊆ granted range req b .readWrite ∨
      b.dirty = true ∧ granted range req b .readWrite = ∅ ∧ b.resident req.newResidency = ∅ := by
  have hNothing : (bulkRestore req b (computePlan range req b)).maps .readWriteAtomic = ∅ := by
    have hSeen : (bulkRestore req b (computePlan range req b)).readWriteAtomic.seen = ∅ :=
      if_pos hCount
    change (bulkRestore req b (computePlan range req b)).readWriteAtomic.seen ∩ _ = ∅
    rw [hSeen, Finset.empty_inter]
  rw [hMaps, cleared_atomics hPages, Finset.union_eq_empty, Finset.union_eq_empty] at hNothing
  obtain ⟨⟨-, hWrites⟩, hHeld⟩ := hNothing
  rcases hDirty with hDirty | hSame
  · exact .inr ⟨hDirty, hWrites, hHeld⟩
  · left
    rw [Bool.eq_iff_iff, recordsWriteFault_restored hBulk, recordsWriteFault_restored hBulk,
      cleared_atomics_pages, hNone, hWrites, hHeld] at hSame
    have hEmpty := Finset.not_nonempty_iff_eq_empty.mp (mt hSame.mp (by simp))
    rw [Finset.union_eq_empty, Finset.union_eq_empty] at hEmpty
    have hMask : (computePlan range req b).readWriteAtomic.pages = _ :=
      computeMappings_pages range req b .readWriteAtomic
    rw [if_pos hNone, hEmpty.1.1] at hMask
    rw [← hMask]
    exact Finset.empty_subset _

/-- The bulk restore with right counts keeps nothing that the batch did not bring. -/
theorem bulkRestored_iff (hPages : n ≤ 512) (hBulk : restoresBulk req b = true) :
    ((bulkRestore req b (computePlan range req b)).maps =
          (bulkRestore req b (computePlan range req.cleared b)).maps ∧
        (b.dirty = true ∨
          recordsWriteFault req b (bulkRestore req b (computePlan range req b)) =
            recordsWriteFault req b (bulkRestore req b (computePlan range req.cleared b))) ∧
        (bulkRestore req b (computePlan range req b)).Consistent) ↔
      RestoreKeepsCounts range req b := by
  constructor
  · rintro ⟨hMaps, hDirty, hConsistent⟩
    have hWrites : granted range req b .readWrite = ∅ → req.leftover .readWrite = ∅ := by
      apply (bulkRestore_readWrite_count hPages).mp
      have hCount := hConsistent.counts .readWrite
      have hSeen : ((bulkRestore req b (computePlan range req b)).byProt .readWrite).seen = ∅ :=
        ite_self _
      rwa [hSeen] at hCount
    apply RestoreKeepsCounts.mk (noReader_of_consistent hPages hMaps hConsistent) hWrites
    intro hNone
    by_cases hCount : (bulkRestore req b (computePlan range req b)).readWriteAtomic.count = 0
    · exact leftover_of_no_count hPages hBulk hMaps hDirty hNone hCount
    · have hSeen : (bulkRestore req b (computePlan range req b)).readWriteAtomic.seen =
          (bulkRestore req b (computePlan range req b)).readWriteAtomic.pages := if_neg hCount
      have hCard := hConsistent.counts .readWriteAtomic
      change (bulkRestore req b (computePlan range req b)).readWriteAtomic.count =
        (bulkRestore req b (computePlan range req b)).readWriteAtomic.seen.card at hCard
      rw [hSeen] at hCard
      exact .inl (leftover_of_count hPages hNone (writes_pages hWrites) hCard)
  · intro h
    have hAgrees := h.agrees hPages
    have hClear : (bulkRestore req b (computePlan range req.cleared b)).Agrees
        (restoredPlan range req b) := (RestoreKeepsCounts.of_cleared h.noReader).agrees hPages
    apply And.intro (hAgrees.maps.trans hClear.maps.symm)
    apply And.intro ?_ (hAgrees.consistent (restoredPlan_consistent range req b h.noReader))
    by_cases hSub : granted range req b .readWriteAtomic = ∅ →
        req.leftover .readWriteAtomic ⊆ granted range req b .readWrite
    · right
      rw [Bool.eq_iff_iff, recordsWriteFault_restored hBulk, recordsWriteFault_restored hBulk,
        cleared_atomics_pages, writes_pages h.writes, atomics_pages hSub]
    · rw [Classical.not_imp] at hSub
      exact .inl ((h.atomics hSub.1).resolve_left hSub.2).1

end Main

section Stages

variable {range : Range g} {req : Request g n} {b : Block g n}

/-- A mapping call is made for the pages of `maps`, and for no others. -/
theorem mem_maps_iff (plan : Plan n) (prot : Prot) (page : Fin n) :
    page ∈ plan.maps prot ↔ ∃ stage ∈ mapStage req plan prot, ∃ pages,
      .map req.processor pages prot ∈ stage.ops ∧ page ∈ pages := by
  by_cases hCount : (plan.byProt prot).count = 0
  · simp [mapStage, Plan.maps, Mappings.seen, hCount]
  · simp only [mapStage, Plan.maps, Mappings.seen, if_neg hCount, List.mem_singleton,
      exists_eq_left]
    constructor
    · intro hPage
      exact ⟨_, List.mem_append_right _ List.mem_cons_self, hPage⟩
    · rintro ⟨pages, hOp, hPage⟩
      rcases List.mem_append.mp hOp with hUnmap | hMap
      · split at hUnmap <;> simp at hUnmap
      · cases List.mem_singleton.mp hMap
        exact hPage

theorem Plan.Agrees.byProt {plan plan' : Plan n} (h : plan.Agrees plan') {prot : Prot}
    (hCount : ¬ (plan'.byProt prot).count = 0) : plan.byProt prot = plan'.byProt prot := by
  have hCounts := h.counts prot
  have hSeen := h.seen prot
  rw [Mappings.seen, Mappings.seen, hCounts, if_neg hCount, if_neg hCount] at hSeen
  cases hPlan : plan.byProt prot
  cases hPlan' : plan'.byProt prot
  rw [hPlan, hPlan'] at hCounts hSeen
  exact congrArg₂ Mappings.mk hSeen hCounts

/-- Bits that a count hides reach no call of the service. -/
theorem finishStages_agrees (before : Block g n) {plan plan' : Plan n} (h : plan.Agrees plan') :
    finishStages range req before b plan = finishStages range req before b plan' := by
  have hRevoke : revokeStage range req before b plan = revokeStage range req before b plan' := by
    funext prot
    rw [revokeStage, revokeStage, h.counts, h.region]
    by_cases hCount : (plan'.byProt prot).count = 0
    · simp only [hCount, true_or, if_true]
    · rw [h.byProt hCount]
  have hMap : mapStage req plan = mapStage req plan' := by
    funext prot
    rw [mapStage, mapStage, h.counts, h.region]
    by_cases hCount : (plan'.byProt prot).count = 0
    · simp only [hCount, if_true]
    · rw [h.byProt hCount]
  have hOther : otherStages range req b plan = otherStages range req b plan' := by
    funext prot
    rw [otherStages, otherStages, h.counts, h.region]
    by_cases hCount : (plan'.byProt prot).count = 0
    · simp only [hCount, true_or, if_true]
    · rw [h.byProt hCount]
  rw [finishStages, finishStages, hRevoke, hMap, hOther]

theorem computePlan_agrees :
    (computePlan range req b).Agrees (computePlan range req.cleared b) where
  counts := by
    intro prot
    cases prot <;> rfl
  seen := by
    intro prot
    by_cases hNone : prot = .none
    · subst hNone
      rfl
    · rw [computePlan_seen range req b hNone, computePlan_seen range req.cleared b hNone]
      rfl
  region := rfl

end Stages

section Main

variable {range : Range g} {req : Request g n} {b : Block g n}

/-- The service depends on its own batch if and only if the masks that the batch leaves
unused have no bits where live migration reads them without their counts, and the bulk
restore takes no page from the reading mask. -/
theorem dependsOnBatch_iff (hPages : n ≤ 512) (before : Block g n) :
    DependsOnBatch range req before b ↔
      LeftoverHarmless range req (makeResidentFinish req b) := by
  cases hMemory : req.noMemory with
  | true =>
      have hNone : ∀ req' : Request g n, req'.noMemory = true → servicePlan range req' b = none :=
        fun req' h => if_pos h
      apply iff_of_true ?_ (.inl hMemory)
      constructor
      · rw [hNone req hMemory, hNone req.cleared hMemory]
      · rw [serviceFinish_dirty, serviceFinish_dirty, hMemory,
          show req.cleared.noMemory = true from hMemory, Bool.not_true, Bool.false_and,
          Bool.false_and]
      · intro plan hMem
        rw [hNone req hMemory] at hMem
        cases hMem
  | false =>
      rw [dependsOnBatch_iff_plans before hMemory, LeftoverHarmless, hMemory]
      rw [or_iff_right Bool.false_ne_true]
      by_cases hBulk : restoresBulk req (makeResidentFinish req b) = true
      · have hPlan : ∀ req' : Request g n, restoresBulk req' (makeResidentFinish req b) = true →
            finalPlan range req' (makeResidentFinish req b) =
              bulkRestore req' (makeResidentFinish req b)
                (computePlan range req' (makeResidentFinish req b)) := fun req' h => if_pos h
        have hGuard := hBulk
        simp only [restoresBulk, Bool.and_eq_true, decide_eq_true_eq] at hGuard
        rw [hPlan req hBulk, hPlan req.cleared hBulk, bulkRestore_cleared, bulkRestored_iff hPages hBulk,
          if_pos hGuard.2, hGuard.1.1, hGuard.1.2]
        simp
      · have hPlan : ∀ req' : Request g n, ¬ restoresBulk req' (makeResidentFinish req b) = true →
            finalPlan range req' (makeResidentFinish req b) =
              computePlan range req' (makeResidentFinish req b) := fun req' h => if_neg h
        rw [hPlan req hBulk, hPlan req.cleared hBulk,
          and_iff_right computePlan_agrees.maps,
          and_iff_left (computePlan_consistent range req (makeResidentFinish req b))]
        cases hTracked : (makeResidentFinish req b).tracked with
        | false => simp [recordsWriteFault, hTracked]
        | true =>
            cases hGpu : req.processor.isGpu with
            | false => simp [recordsWriteFault, hGpu]
            | true =>
                have hElsewhere : req.processor ≠ req.newResidency := by
                  intro hSame
                  exact hBulk (by simp [restoresBulk, hTracked, ← hSame, hGpu])
                rw [if_neg hElsewhere]
                refine (unrestored_iff hTracked hGpu).trans ?_
                simp

theorem LeftoverHarmless.agrees (hPages : n ≤ 512) (hMemory : req.noMemory = false)
    (h : LeftoverHarmless range req b) :
    (finalPlan range req b).Agrees (finalPlan range req.cleared b) := by
  cases hBulk : restoresBulk req b with
  | false =>
      have hPlan : finalPlan range req b = computePlan range req b :=
        if_neg (Bool.eq_false_iff.mp hBulk)
      have hClear : finalPlan range req.cleared b = computePlan range req.cleared b :=
        if_neg (Bool.eq_false_iff.mp hBulk)
      rw [hPlan, hClear]
      exact computePlan_agrees
  | true =>
      have hPlan : finalPlan range req b = bulkRestore req b (computePlan range req b) :=
        if_pos hBulk
      have hClear : finalPlan range req.cleared b =
          bulkRestore req b (computePlan range req.cleared b) := if_pos hBulk
      have hGuard := hBulk
      simp only [restoresBulk, Bool.and_eq_true, decide_eq_true_eq] at hGuard
      have hKeeps : RestoreKeepsCounts range req b := by
        rw [LeftoverHarmless, hMemory, hGuard.1.1, hGuard.1.2, if_pos hGuard.2] at h
        simpa using h
      rw [hPlan, hClear]
      exact (hKeeps.agrees hPages).trans
        ((RestoreKeepsCounts.of_cleared hKeeps.noReader).agrees hPages).symm

/-- Then the block itself comes out as from clear masks, whichever calls fail. -/
theorem serviceFinish_cleared (hPages : n ≤ 512) (before : Block g n)
    (h : LeftoverHarmless range req (makeResidentFinish req b)) :
    serviceFinish range req before b = serviceFinish range req.cleared before b := by
  cases hMemory : req.noMemory with
  | true =>
      have hStop : ∀ req' : Request g n, req'.noMemory = true →
          serviceFinish range req' before b = makeResidentFinish req' b := fun req' h => if_pos h
      rw [hStop req hMemory, hStop req.cleared hMemory]
      rfl
  | false =>
      have hRun : ∀ req' : Request g n, req'.noMemory = false →
          serviceFinish range req' before b =
            runStages range req'.mm (finishStages range req' before (makeResidentFinish req' b)
                (finalPlan range req' (makeResidentFinish req' b))) req'.finishFailures
              { makeResidentFinish req' b with
                dirty := b.dirty || recordsWriteFault req' (makeResidentFinish req' b)
                  (finalPlan range req' (makeResidentFinish req' b)) } :=
        fun req' h => if_neg (Bool.eq_false_iff.mp h)
      have hDirty := ((dependsOnBatch_iff hPages before).mpr h).dirty
      rw [serviceFinish_dirty, serviceFinish_dirty, hMemory,
        show req.cleared.noMemory = false from hMemory] at hDirty
      simp only [Bool.not_false, Bool.true_and] at hDirty
      rw [hRun req hMemory, hRun req.cleared hMemory, ← hDirty,
        finishStages_agrees before (h.agrees hPages hMemory)]
      rfl

/-- The first page is on the GPU, the second is not. -/
def splitBlock : Block 1 2 where
  resident := fun p => if p.isGpu then {firstPage} else {firstPage}ᶜ
  prot := fun _ _ => .none
  readDuplicated := ∅
  maybeMapped := ∅
  tracked := true
  dirty := false

/-- A write fault on the first page, when an earlier batch has left the second in the
mask of pages to be mapped for writing. -/
def staleFault : Request 1 2 :=
  { writeFault (.gpu 0) with leftover := fun prot => if prot = .readWrite then {firstPage}ᶜ else ∅ }

theorem dependsOnBatch_writeFault :
    DependsOnBatch plainRange (writeFault (.gpu 0)) splitBlock splitBlock := by
  apply (dependsOnBatch_iff (by decide) splitBlock).mpr
  refine .inr (.inr (.inr ?_))
  rw [if_pos (show (writeFault (.gpu 0)).processor = (writeFault (.gpu 0)).newResidency from rfl)]
  exact ⟨by decide, fun _ => rfl, fun _ => .inl (Finset.empty_subset _)⟩

/-- The page that is not on the GPU is mapped there for writing, and the count of the
mask it was in wraps around. -/
theorem not_dependsOnBatch_staleFault :
    ¬ DependsOnBatch plainRange staleFault splitBlock splitBlock := by
  intro h
  have hMaps := congrArg (Option.map fun maps => maps .readWriteAtomic) h.maps
  exact absurd hMaps (by decide)

end Main

end FlashCkpt.Uvm
