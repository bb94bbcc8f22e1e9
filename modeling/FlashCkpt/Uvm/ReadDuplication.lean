import FlashCkpt.Uvm.Service

/-! Read duplication: a page with more than one copy is mapped for reading only. The
invariant behind it, and how the service of a fault keeps it as long as the masks
hold what was computed for this fault. -/
namespace FlashCkpt.Uvm

variable {g n : Nat}

/-- A page with more than one copy is mapped at most for reading. UVM-Lite GPUs are
left out, as in `block_check_mappings_page`. -/
def Block.Coherent (range : Range g) (b : Block g n) : Prop :=
  ∀ page p q, p ≠ q → page ∈ b.resident p → page ∈ b.resident q →
    ∀ r, range.uvmLite r = false → b.prot r page ≤ .readOnly

/-- The invariant on `read_duplicated_pages`: it has every page with more than one
copy, its pages are mapped at most for reading, and it is empty where the policy
of the range or the VA space rules read duplication out. -/
structure Duplicates (range : Range g) (b : Block g n) : Prop where
  flagged : ∀ page p q, p ≠ q → page ∈ b.resident p → page ∈ b.resident q →
    page ∈ b.readDuplicated
  readOnly : ∀ page ∈ b.readDuplicated, ∀ p, range.uvmLite p = false →
    (b.prot p page).writable = false
  allowed : ∀ page ∈ b.readDuplicated, mightReadDuplicate range b page = true

variable {range : Range g} {req : Request g n} {b : Block g n}

theorem Duplicates.coherent (h : Duplicates range b) : b.Coherent range := by
  intro page p q hNe hp hq r hLite
  exact Prot.not_writable_iff.mp (h.readOnly page (h.flagged page p q hNe hp hq) r hLite)

/-- Calls that give no write permission on a read-duplicated page keep the
invariant. -/
theorem Duplicates.remapped {b' : Block g n} (h : Duplicates range b) (hSame : Remapped b b')
    (hProt : ∀ page ∈ b.readDuplicated, ∀ p, range.uvmLite p = false →
      (b'.prot p page).writable = false) : Duplicates range b' where
  flagged := by
    intro page p q hNe hp hq
    rw [hSame.resident] at hp hq
    rw [hSame.readDuplicated]
    exact h.flagged page p q hNe hp hq
  readOnly := by
    intro page hPage
    rw [hSame.readDuplicated] at hPage
    exact hProt page hPage
  allowed := by
    intro page hPage
    have hAllowed := h.allowed page (hSame.readDuplicated ▸ hPage)
    simpa only [mightReadDuplicate, hSame.readDuplicated] using hAllowed

theorem Duplicates.runOps (h : Duplicates range b) (mm : Bool) {ops : List (Op g n)}
    (hOps : ∀ op ∈ ops, op.GivesNoWrite) (failure : Option (Failure n)) :
    Duplicates range (runOps range mm ops failure b).1 :=
  h.remapped (Remapped.runOps range mm ops failure b) fun page hPage p hLite =>
    runOps_not_writable range mm hOps failure (h.readOnly page hPage p hLite)

/-- Mappings for writing that avoid the read-duplicated pages keep the invariant. -/
theorem Duplicates.runStages (h : Duplicates range b) (mm : Bool) {stages : List (Stage g n)}
    (hOps : ∀ stage ∈ stages, ∀ q pages prot, .map q pages prot ∈ stage.ops →
      prot.writable = true → ∀ page ∈ pages, page ∈ b.reachable range q →
        page ∉ b.readDuplicated)
    (failures : List (Option (Failure n))) :
    Duplicates range (runStages range mm stages failures b) := by
  let Inv := fun c : Block g n => Remapped b c ∧
    ∀ page ∈ b.readDuplicated, ∀ p, range.uvmLite p = false → (c.prot p page).writable = false
  have hStep : ∀ stage ∈ stages, ∀ op ∈ stage.ops, ∀ done c, Inv c →
      Inv (op.apply range mm done c) := by
    intro stage hStage op hOp done c ⟨hSame, hProt⟩
    refine ⟨hSame.trans (Remapped.apply range mm done c op), fun page hPage p hLite => ?_⟩
    cases hAfter : ((op.apply range mm done c).prot p page).writable with
    | false => rfl
    | true =>
        rcases op.apply_writable hAfter with hBefore | ⟨pages, prot, rfl, hMem, hReach, hWrite⟩
        · rw [hProt page hPage p hLite] at hBefore
          cases hBefore
        · rw [hSame.reachable_eq] at hReach
          exact absurd hPage (hOps stage hStage p pages prot hOp hWrite page hMem hReach)
  have hEnd := runStages_preserves hStep failures ⟨Remapped.refl b, h.readOnly⟩
  exact h.remapped hEnd.1 hEnd.2

/-- A page that is not read-duplicated is on the one processor that holds it. -/
theorem Duplicates.pageResidentProcessors (h : Duplicates range b) {page : Fin n} {p : Proc g}
    (hp : page ∈ b.resident p) (hSingle : page ∉ b.readDuplicated) :
    b.pageResidentProcessors page = [p] := by
  have hMem : ∀ q, q ∈ b.pageResidentProcessors page ↔ page ∈ b.resident q := by
    intro q
    simp [Block.pageResidentProcessors, q.mem_all]
  have hOnly : ∀ q ∈ b.pageResidentProcessors page, q = p := by
    intro q hq
    by_contra hNe
    exact hSingle (h.flagged page q p hNe ((hMem q).mp hq) hp)
  have hNodup : (b.pageResidentProcessors page).Nodup := Proc.all_nodup.filter _
  refine List.perm_singleton.mp ((List.perm_ext_iff_of_nodup hNodup
    (List.nodup_singleton p)).mpr fun q => ?_)
  rw [List.mem_singleton]
  exact ⟨hOnly q, fun hSame => hSame ▸ (hMem p).mpr hp⟩

section Copy

/-- Where a flagged page may be read-duplicated, it still may when its flag is kept. -/
theorem mightReadDuplicate_kept {b' : Block g n} {page : Fin n}
    (hMight : mightReadDuplicate range b page = true) (hPage : page ∈ b'.readDuplicated) :
    mightReadDuplicate range b' page = true := by
  simp only [mightReadDuplicate, Bool.and_eq_true] at hMight ⊢
  refine ⟨hMight.1, ?_⟩
  cases hPolicy : range.readDuplication with
  | disabled => simp [hPolicy] at hMight
  | enabled => rfl
  | unset => exact decide_eq_true hPage

theorem runOps_ok (range : Range g) (mm : Bool) (ops : List (Op g n))
    (failure : Option (Failure n)) (b : Block g n) :
    (runOps range mm ops failure b).2 = failure.isNone := by
  induction ops generalizing failure b with
  | nil => rfl
  | cons op rest ih =>
      rcases failure with - | ⟨index, done⟩
      · exact ih none _
      · cases index with
        | zero => rfl
        | succ k => exact ih (some ⟨k, done⟩) _

/-- Before a page gets its second copy, all write permissions on it are taken. -/
theorem prepReadDuplicate_clears {page : Fin n} {src : Proc g} (hPage : page ∈ req.duplicated)
    (hSingle : page ∉ b.readDuplicated) (hSrc : page ∈ b.resident src) {q : Proc g}
    (hLite : range.uvmLite q = false) :
    ((runOps range req.mm (prepReadDuplicateOps range req b) none b).1.prot q page).writable =
      false := by
  have hPages : page ∈ (req.duplicated \ b.readDuplicated) ∩ b.resident src := by
    rw [Finset.mem_inter, Finset.mem_sdiff]
    exact ⟨⟨hPage, hSingle⟩, hSrc⟩
  have hSrcMem : src ∈ b.residentProcessors := by
    rw [Block.residentProcessors, List.mem_filter]
    exact ⟨src.mem_all, decide_eq_true ⟨page, hSrc⟩⟩
  have hOps : ∀ op, op ∈ ((Proc.all.filter fun q => b.mapped q && !range.uvmLite q && q ≠ src).map
        fun q => Op.unmap q ((req.duplicated \ b.readDuplicated) ∩ b.resident src)) ++
        [.revoke src ((req.duplicated \ b.readDuplicated) ∩ b.resident src) .readWrite] →
      op ∈ prepReadDuplicateOps range req b := by
    intro op hOp
    refine List.mem_flatMap.mpr ⟨src, hSrcMem, ?_⟩
    rw [if_neg (Finset.ne_empty_of_mem hPages)]
    exact hOp
  have hGives := prepReadDuplicateOps_givesNoWrite range req b
  by_cases hSame : q = src
  · subst hSame
    have hRevoke := hOps _ (List.mem_append_right _ List.mem_cons_self)
    refine runOps_clears hGives hRevoke fun b' hRemapped => ?_
    exact Op.revoke_clears q hPages fun _ => ⟨q, hRemapped.resident ▸ hSrc⟩
  · by_cases hMapped : b.mapped q = true
    · have hUnmap : Op.unmap q ((req.duplicated \ b.readDuplicated) ∩ b.resident src) ∈
          prepReadDuplicateOps range req b := by
        refine hOps _ (List.mem_append_left _ (List.mem_map_of_mem ?_))
        simp [List.mem_filter, q.mem_all, hMapped, hLite, hSame]
      refine runOps_clears hGives hUnmap fun b' _ => ?_
      show (if q = q ∧ page ∈ _ ∩ Finset.univ then .none else b'.prot q page : Prot).writable = false
      rw [if_pos ⟨rfl, Finset.mem_inter_of_mem hPages (Finset.mem_univ page)⟩]
      rfl
    · refine runOps_not_writable range req.mm hGives none ?_
      have hNone : b.prot q page = .none := by
        by_contra hProt
        exact hMapped (decide_eq_true ⟨page, hProt⟩)
      rw [hNone]
      rfl

/-- The pages that gain a copy: those of the request that were only elsewhere. -/
def Request.gaining (req : Request g n) (b : Block g n) : Finset (Fin n) :=
  (req.duplicated \ b.resident req.newResidency).filter fun page =>
    b.pageResidentProcessors page ≠ []

theorem Request.mem_gaining {page : Fin n} : page ∈ req.gaining b ↔
    page ∈ req.duplicated ∧ page ∉ b.resident req.newResidency ∧ ∃ src, page ∈ b.resident src := by
  rw [Request.gaining, Finset.mem_filter, Finset.mem_sdiff, Block.pageResidentProcessors_ne_nil,
    and_assoc]

theorem duplicatedResidency_resident {page : Fin n} {p : Proc g}
    (h : page ∈ (duplicatedResidency req b).resident p) :
    page ∈ b.resident p ∨ p = req.newResidency ∧ page ∈ req.duplicated ∨
      page ∈ req.gaining b := by
  simp only [duplicatedResidency] at h
  split at h
  · rename_i hNew
    rcases Finset.mem_union.mp h with hOld | hDuplicated
    · exact .inl hOld
    · exact .inr (.inl ⟨hNew, hDuplicated⟩)
  · split at h
    · rcases Finset.mem_union.mp h with hOld | hStaged
      · exact .inl hOld
      · split at hStaged
        · exact .inr (.inr (Finset.mem_of_mem_inter_right hStaged))
        · cases hStaged
    · exact .inl h

/-- The invariant holds of the new copies, if nobody can write to pages that had only
one. -/
theorem Duplicates.duplicatedResidency (h : Duplicates range b)
    (hSelected : req.selected range b = true)
    (hClears : ∀ page ∈ req.duplicated, page ∉ b.readDuplicated → ∀ src,
      page ∈ b.resident src → ∀ q, range.uvmLite q = false →
        (b.prot q page).writable = false) :
    Duplicates range (duplicatedResidency req b) where
  flagged := by
    intro page p q hNe hp hq
    by_cases hGain : page ∈ req.gaining b
    · exact Finset.mem_union_right _ hGain
    have hOld : ∀ r, page ∈ (Uvm.duplicatedResidency req b).resident r → ∀ r', r' ≠ r →
        page ∈ b.resident r' → page ∈ b.resident r := by
      intro r hr r' _ hr'
      rcases duplicatedResidency_resident hr with hKept | ⟨rfl, hDuplicated⟩ | hMoved
      · exact hKept
      · by_contra hNew
        exact hGain (Request.mem_gaining.mpr ⟨hDuplicated, hNew, r', hr'⟩)
      · exact absurd hMoved hGain
    apply Finset.mem_union_left
    rcases duplicatedResidency_resident hp with hOldP | ⟨hNewP, -⟩ | hMoved
    · exact h.flagged page p q hNe hOldP (hOld q hq p hNe hOldP)
    · rcases duplicatedResidency_resident hq with hOldQ | ⟨hNewQ, -⟩ | hMoved
      · exact h.flagged page p q hNe (hOld p hp q (Ne.symm hNe) hOldQ) hOldQ
      · exact absurd (hNewP.trans hNewQ.symm) hNe
      · exact absurd hMoved hGain
    · exact absurd hMoved hGain
  readOnly := by
    intro page hPage p hLite
    by_cases hFlagged : page ∈ b.readDuplicated
    · exact h.readOnly page hFlagged p hLite
    · rcases Finset.mem_union.mp hPage with hOld | hGain
      · exact absurd hOld hFlagged
      · obtain ⟨hDuplicated, -, src, hSrc⟩ := Request.mem_gaining.mp hGain
        exact hClears page hDuplicated hFlagged src hSrc p hLite
  allowed := by
    intro page hPage
    by_cases hFlagged : page ∈ b.readDuplicated
    · exact mightReadDuplicate_kept (h.allowed page hFlagged) hPage
    · rcases Finset.mem_union.mp hPage with hOld | hGain
      · exact absurd hOld hFlagged
      · have hDuplicated := (Request.mem_gaining.mp hGain).1
        rw [Request.duplicated, Finset.mem_inter] at hDuplicated
        obtain ⟨-, hPolicy⟩ := (of_decide_eq_true hSelected page hDuplicated.1).2 hDuplicated.2
        rcases hPolicy with hEnabled | ⟨-, hOld⟩
        · rw [Range.isReadDuplicate, Bool.and_eq_true, decide_eq_true_eq] at hEnabled
          simp [mightReadDuplicate, hEnabled.1, hEnabled.2]
        · exact absurd hOld hFlagged

/-- The new copies are flagged, and nobody can write to them. -/
theorem Duplicates.makeResidentReadDuplicate (h : Duplicates range b)
    (hSelected : req.selected range b = true) :
    Duplicates range (makeResidentReadDuplicate range req b).1 := by
  have hPrep := h.runOps req.mm (prepReadDuplicateOps_givesNoWrite range req b)
    req.duplicateFailure
  have hSame := Remapped.runOps range req.mm (prepReadDuplicateOps range req b)
    req.duplicateFailure b
  have hOk := runOps_ok range req.mm (prepReadDuplicateOps range req b) req.duplicateFailure b
  unfold Uvm.makeResidentReadDuplicate
  split
  · exact h
  · cases hFailure : req.duplicateFailure with
    | some failure =>
        rw [hFailure] at hPrep hOk
        simpa [hOk] using hPrep
    | none =>
        have hClears : ∀ page ∈ req.duplicated, page ∉ b.readDuplicated → ∀ src,
            page ∈ b.resident src → ∀ q, range.uvmLite q = false →
            ((Uvm.runOps range req.mm (prepReadDuplicateOps range req b) none b).1.prot q
              page).writable = false :=
          fun page hPage hSingle src hSrc q hLite =>
            prepReadDuplicate_clears hPage hSingle hSrc hLite
        rw [hFailure] at hPrep hOk hSame
        simp only [hOk, Option.isNone_none, if_true]
        refine hPrep.duplicatedResidency ?_ ?_
        · rw [Request.selected, hSame.readDuplicated]
          exact hSelected
        · intro page hPage hSingle src hSrc
          rw [hSame.readDuplicated] at hSingle
          rw [hSame.resident] at hSrc
          exact hClears page hPage hSingle src hSrc

theorem Duplicates.serviceCopy (h : Duplicates range b)
    (hSelected : req.selected range b = true) : Duplicates range (serviceCopy range req b).1 := by
  have hDuplicate := h.makeResidentReadDuplicate hSelected
  simp only [Uvm.serviceCopy, makeResidentCopy]
  split
  · split
    · exact hDuplicate
    · exact hDuplicate.runOps req.mm (makeResidentOps_givesNoWrite range req _) req.copyFailure
  · exact hDuplicate

/-- A page that was moved is on one processor, and no longer flagged. -/
theorem Duplicates.makeResidentFinish (h : Duplicates range b) :
    Duplicates range (makeResidentFinish req b) where
  flagged := by
    intro page p q hNe hp hq
    by_cases hMoved : page ∈ req.moved
    · have hOnly : ∀ r, page ∈ (Uvm.makeResidentFinish req b).resident r →
          r = req.newResidency := by
        intro r hr
        by_contra hOther
        simp only [Uvm.makeResidentFinish, if_neg hOther] at hr
        exact (Finset.mem_sdiff.mp hr).2 hMoved
      exact absurd ((hOnly p hp).trans (hOnly q hq).symm) hNe
    · have hKept : ∀ r, page ∈ (Uvm.makeResidentFinish req b).resident r →
          page ∈ b.resident r := by
        intro r hr
        simp only [Uvm.makeResidentFinish] at hr
        split at hr
        · exact (Finset.mem_union.mp hr).resolve_right hMoved
        · exact (Finset.mem_sdiff.mp hr).1
      exact Finset.mem_sdiff.mpr ⟨h.flagged page p q hNe (hKept p hp) (hKept q hq), hMoved⟩
  readOnly := fun page hPage => h.readOnly page (Finset.mem_sdiff.mp hPage).1
  allowed := fun page hPage =>
    mightReadDuplicate_kept (h.allowed page (Finset.mem_sdiff.mp hPage).1) hPage

theorem Duplicates.settled (h : Duplicates range b) (hSelected : req.selected range b = true) :
    Duplicates range (req.settled range b) :=
  (h.serviceCopy hSelected).makeResidentFinish

/-- What a service is for is at its new place when it is mapped. -/
theorem served_subset_settled (hOk : (serviceCopy range req b).2 = true) :
    req.served ⊆ (req.settled range b).resident req.newResidency := by
  intro page hPage
  simp only [Request.settled, makeResidentFinish, if_true]
  by_cases hMoved : page ∈ req.moved
  · exact Finset.mem_union_right _ hMoved
  · have hDuplicated : page ∈ req.duplicated := by
      rw [Request.moved, Finset.mem_sdiff, not_and, not_not] at hMoved
      exact Finset.mem_inter_of_mem hPage (hMoved hPage)
    apply Finset.mem_union_left
    have hFirst : (makeResidentReadDuplicate range req b).2 = true := by
      by_contra hFailed
      simp only [serviceCopy, if_neg hFailed] at hOk
      exact hFailed hOk
    have hCopy : page ∈ (makeResidentReadDuplicate range req b).1.resident req.newResidency := by
      simp only [makeResidentReadDuplicate, if_neg (Finset.ne_empty_of_mem hDuplicated)]
        at hFirst ⊢
      simp only [hFirst, if_true, duplicatedResidency]
      exact Finset.mem_union_right _ hDuplicated
    simp only [serviceCopy, hFirst, if_true, makeResidentCopy]
    split
    · exact hCopy
    · rw [(Remapped.runOps range req.mm _ _ _).resident]
      exact hCopy

end Copy

end FlashCkpt.Uvm
