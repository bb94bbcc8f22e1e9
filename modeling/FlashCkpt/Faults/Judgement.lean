import FlashCkpt.Faults.Scan

/-! What the scan of a block decides: a fault that is permitted is covered, one that is not is to be
cancelled unless it is a prefetch, and reads are not cancelled along with writes. -/
namespace FlashCkpt.Faults

open Uvm (Prot Proc)

variable {V : Type} {g : Nat}

/-- What a scan does not change of an entry. -/
structure Entry.Kept (e e' : Entry V) : Prop where
  vaSpace : e'.vaSpace = e.vaSpace
  faultAddress : e'.faultAddress = e.faultAddress
  accessType : e'.accessType = e.accessType
  accessTypeMask : e'.accessTypeMask = e.accessTypeMask

theorem Entry.Kept.trans {e e' e'' : Entry V} (h : e.Kept e') (h' : e'.Kept e'') : e.Kept e'' :=
  ⟨h'.vaSpace.trans h.vaSpace, h'.faultAddress.trans h.faultAddress, h'.accessType.trans h.accessType,
    h'.accessTypeMask.trans h.accessTypeMask⟩

/-- An access to the page of an entry that is not denied. -/
def BlockView.Permits (view : BlockView g) (e : Entry V) (access : AccessType) : Prop :=
  view.check e.faultAddress access = none

/-- A fault that is to be cancelled. -/
def BlockView.Denies (view : BlockView g) (e : Entry V) : Prop :=
  ¬view.Permits e e.accessType ∧ e.accessType ≠ .prefetch

/-- A read that was merged with a write which is denied, and is permitted. -/
def BlockView.Rescues (view : BlockView g) (e : Entry V) : Prop :=
  view.Denies e ∧ .read < e.accessType ∧ .read ∈ e.accessTypeMask ∧ view.Permits e .read

/-- All accesses are cancelled when a read is. -/
def BlockView.CancelsAll (view : BlockView g) (e : Entry V) : Prop :=
  e.accessType ≤ .read ∨ .read ∈ e.accessTypeMask ∧ ¬view.Permits e .read

/-- A page that the service of the block gives the GPU a permission on. -/
structure ServiceContext.Serves (c : ServiceContext g) (page : Nat) (prot : Prot) : Prop where
  resident : ∃ p ∈ c.residentProcessors, page ∈ c.newResidency p
  access : prot ≤ (c.accessType page).toProt
  region : c.firstPageIndex ≤ page ∧ page ≤ c.lastPageIndex

/-- The GPU has the permission or gets it, or the page was held back because it is thrashing. -/
def BlockView.Covers (view : BlockView g) (numRetries : Nat) (Throttled : Nat → Prop)
    (c : ServiceContext g) (e : Entry V) (prot : Prot) : Prop :=
  view.authorized (view.pageIndex e.faultAddress) prot = true ∨
    Throttled e.faultAddress ∧ (numRetries = 0 → e.isThrottled = true) ∨
    c.Serves (view.pageIndex e.faultAddress) prot

/-- What the scan makes of an entry. -/
structure BlockView.Judges (view : BlockView g) (numRetries : Nat) (Throttled : Nat → Prop)
    (c : ServiceContext g) (e e' : Entry V) : Prop where
  kept : e.Kept e'
  fatal : e'.isFatal = true ↔ view.Denies e
  mode : view.Denies e → (e'.cancelVaMode = .all ↔ view.CancelsAll e)
  permitted : view.Permits e e.accessType → view.Covers numRetries Throttled c e' e.accessType.toProt
  rescued : view.Rescues e → view.Covers numRetries Throttled c e' Prot.readOnly

section Transport

variable {view : BlockView g} {e e' : Entry V}

theorem Entry.Kept.permits (h : e.Kept e') (access : AccessType) :
    view.Permits e' access ↔ view.Permits e access := by
  rw [BlockView.Permits, BlockView.Permits, h.faultAddress]

theorem Entry.Kept.denies (h : e.Kept e') : view.Denies e' ↔ view.Denies e := by
  rw [BlockView.Denies, BlockView.Denies, h.permits, h.accessType]

theorem Entry.Kept.rescues (h : e.Kept e') : view.Rescues e' ↔ view.Rescues e := by
  rw [BlockView.Rescues, BlockView.Rescues, h.denies, h.permits, h.accessType, h.accessTypeMask]

theorem Entry.Kept.cancelsAll (h : e.Kept e') : view.CancelsAll e' ↔ view.CancelsAll e := by
  rw [BlockView.CancelsAll, BlockView.CancelsAll, h.permits, h.accessType, h.accessTypeMask]

end Transport

section Checks

variable (flags : BatchFlags V) (e : Entry V) (view : BlockView g) (numRetries : Nat)

theorem markInvalidPrefetch_kept :
    e.Kept (flags.markInvalidPrefetch e).1 ∧ (flags.markInvalidPrefetch e).1.isFatal = e.isFatal :=
  ⟨⟨rfl, rfl, rfl, rfl⟩, rfl⟩

theorem duplicateFlags_kept (p : Entry V) :
    e.Kept (flags.duplicateFlags e p).1 ∧ (flags.duplicateFlags e p).1.isFatal = e.isFatal ∧
      (flags.duplicateFlags e p).1.cancelVaMode = e.cancelVaMode ∧
      (p.isThrottled = true → (flags.duplicateFlags e p).1.isThrottled = true) := by
  rw [BatchFlags.duplicateFlags]
  cases hThrottled : p.isThrottled
  · cases p.isInvalidPrefetch <;>
      exact ⟨⟨rfl, rfl, rfl, rfl⟩, rfl, rfl, fun h => absurd h Bool.false_ne_true⟩
  · cases p.isInvalidPrefetch <;> exact ⟨⟨rfl, rfl, rfl, rfl⟩, rfl, rfl, fun _ => rfl⟩

theorem markDuplicate_kept (isDuplicate : Bool) (previous : Option (Entry V)) :
    e.Kept (flags.markDuplicate e isDuplicate previous).1 ∧
      (flags.markDuplicate e isDuplicate previous).1.isFatal = e.isFatal := by
  cases previous with
  | none => exact ⟨⟨rfl, rfl, rfl, rfl⟩, rfl⟩
  | some p =>
      obtain ⟨hKept, hFatal, -⟩ := duplicateFlags_kept flags e p
      cases isDuplicate
      · exact ⟨⟨rfl, rfl, rfl, rfl⟩, rfl⟩
      · exact ⟨hKept, hFatal⟩

/-- What the check of the permissions finds. -/
inductive Checked : (Entry V × BatchFlags V) × Option AccessType → Prop
  | permitted (hPermits : view.Permits e e.accessType) : Checked ((e, flags), some e.accessType)
  | prefetch (marked : Entry V × BatchFlags V) (hDenied : ¬view.Permits e e.accessType)
      (hPrefetch : e.accessType = .prefetch) (hKept : e.Kept marked.1)
      (hFatal : marked.1.isFatal = e.isFatal) : Checked (marked, none)
  | rescued (marked : Entry V × BatchFlags V) (hRescues : view.Rescues e) (hKept : e.Kept marked.1)
      (hFatal : marked.1.isFatal = true) (hMode : marked.1.cancelVaMode = .writeAndAtomic) :
      Checked (marked, some .read)
  | denied (marked : Entry V × BatchFlags V) (hDenies : view.Denies e) (hRescues : ¬view.Rescues e)
      (hKept : e.Kept marked.1) (hFatal : marked.1.isFatal = true)
      (hMode : marked.1.cancelVaMode = .all ↔ view.CancelsAll e) : Checked (marked, none)

theorem checkFaultAccessPermissions_checked :
    Checked flags e view
      (flags.checkFaultAccessPermissions e (view.check e.faultAddress) numRetries) := by
  rw [BatchFlags.checkFaultAccessPermissions]
  cases hCheck : view.check e.faultAddress e.accessType with
  | none => exact .permitted hCheck
  | some status =>
      have hDenied : ¬view.Permits e e.accessType := by
        rw [BlockView.Permits, hCheck]
        exact Option.some_ne_none status
      simp only
      by_cases hPrefetch : e.accessType = .prefetch
      · rw [if_pos hPrefetch]
        split
        · exact .prefetch _ hDenied hPrefetch (markInvalidPrefetch_kept flags e).1
            (markInvalidPrefetch_kept flags e).2
        · exact .prefetch _ hDenied hPrefetch ⟨rfl, rfl, rfl, rfl⟩ rfl
      · have hDenies : view.Denies e := ⟨hDenied, hPrefetch⟩
        rw [if_neg hPrefetch]
        by_cases hWrite : .read < e.accessType
        · rw [if_pos hWrite]
          by_cases hMask : .read ∈ e.accessTypeMask
          · rw [if_pos hMask]
            cases hRead : view.check e.faultAddress .read with
            | none =>
                exact .rescued _ ⟨hDenies, hWrite, hMask, hRead⟩ ⟨rfl, rfl, rfl, rfl⟩ rfl rfl
            | some readStatus =>
                have hNot : ¬view.Permits e .read := by
                  rw [BlockView.Permits, hRead]
                  exact Option.some_ne_none readStatus
                exact .denied _ hDenies (fun h => hNot h.2.2.2) ⟨rfl, rfl, rfl, rfl⟩ rfl
                  (iff_of_true rfl (.inr ⟨hMask, hNot⟩))
          · rw [if_neg hMask]
            refine .denied _ hDenies (fun h => hMask h.2.2.1) ⟨rfl, rfl, rfl, rfl⟩ rfl
              (iff_of_false (fun hMode => CancelVaMode.noConfusion hMode) ?_)
            rintro (hLow | hBoth)
            · exact absurd hWrite (not_lt.mpr hLow)
            · exact hMask hBoth.1
        · rw [if_neg hWrite]
          exact .denied _ hDenies (fun h => hWrite h.2.1) ⟨rfl, rfl, rfl, rfl⟩ rfl
            (iff_of_true rfl (.inl (not_lt.mp hWrite)))

end Checks

section Pages

variable {c : ServiceContext g} {page page' : Nat} {prot : Prot} {access : AccessType} {hint : Hint g}
  {residency : Proc g} {readDuplicate : Bool}

theorem add_residentProcessors : (c.add page access hint residency readDuplicate).residentProcessors =
    insert residency c.residentProcessors :=
  rfl

theorem mem_add_newResidency {p : Proc g} (hp : p ∈ c.residentProcessors) (h : page' ∈ c.newResidency p) :
    page' ∈ (c.add page access hint residency readDuplicate).newResidency p := by
  change page' ∈ Function.update c.newResidency residency _ p
  by_cases hSame : p = residency
  · subst hSame
    rw [Function.update_self, if_pos hp]
    exact Finset.mem_insert_of_mem h
  · rw [Function.update_of_ne hSame]
    exact h

/-- A page that is added is serviced with the access it is added for. -/
theorem add_serves (h : prot ≤ access.toProt) :
    (c.add page access hint residency readDuplicate).Serves page prot := by
  refine ⟨⟨residency, ?_, ?_⟩, ?_, ?_⟩
  · rw [add_residentProcessors]
    exact Finset.mem_insert_self _ _
  · change page ∈ Function.update c.newResidency residency _ residency
    rw [Function.update_self]
    exact Finset.mem_insert_self _ _
  · change prot ≤ (Function.update c.accessType page access page).toProt
    rwa [Function.update_self]
  · exact ⟨Nat.min_le_right _ _, Nat.le_max_right _ _⟩

theorem AccessType.readOnly_le (access : AccessType) : Prot.readOnly ≤ access.toProt := by
  cases access <;> decide

/-- A page stays serviced when another one is added, and stays so for reading in any case. -/
theorem Serves.add (h : c.Serves page' prot) (hKeeps : page ≠ page' ∨ prot = .readOnly) :
    (c.add page access hint residency readDuplicate).Serves page' prot := by
  obtain ⟨⟨p, hp, hMem⟩, hAccess, hFirst, hLast⟩ := h
  refine ⟨⟨p, ?_, mem_add_newResidency hp hMem⟩, ?_, ?_⟩
  · rw [add_residentProcessors]
    exact Finset.mem_insert_of_mem hp
  · change prot ≤ (Function.update c.accessType page access page').toProt
    by_cases hSame : page' = page
    · subst hSame
      rw [Function.update_self, hKeeps.resolve_left fun hNe => hNe rfl]
      exact access.readOnly_le
    · rwa [Function.update_of_ne hSame]
  · exact ⟨(Nat.min_le_left _ _).trans hFirst, hLast.trans (Nat.le_max_left _ _)⟩

end Pages

section Passing

variable {view : BlockView g} {numRetries i : Nat} {current : Entry V} {Throttled : Nat → Prop}
  {access : AccessType} {marked : Entry V × BatchFlags V} {c : ServiceContext g}

/-- The order of the faults of one VA space in the ordered view. -/
def Entry.Precedes (p e : Entry V) : Prop :=
  p.vaSpace = e.vaSpace ∧
    (p.faultAddress < e.faultAddress ∨ p.faultAddress = e.faultAddress ∧ e.accessType ≤ p.accessType)

/-- Faults on pages of the block. -/
def BlockView.Holds (view : BlockView g) (e : Entry V) : Prop :=
  view.start ≤ e.faultAddress ∧ pageSize ∣ e.faultAddress - view.start

theorem pageIndex_eq_iff {e e' : Entry V} (h : view.Holds e) (h' : view.Holds e') :
    view.pageIndex e.faultAddress = view.pageIndex e'.faultAddress ↔ e.faultAddress = e'.faultAddress := by
  refine ⟨fun hPage => ?_, fun hAddress => congrArg view.pageIndex hAddress⟩
  have hEq := Nat.div_mul_cancel h.2
  have hEq' := Nat.div_mul_cancel h'.2
  rw [BlockView.pageIndex, BlockView.pageIndex] at hPage
  rw [hPage, hEq'] at hEq
  have hStart := h.1
  have hStart' := h'.1
  omega

/-- What the scan relies on of the fault before. -/
structure BlockView.Passed (view : BlockView g) (numRetries : Nat) (Throttled : Nat → Prop)
    (c : ServiceContext g) (p : Entry V) : Prop where
  holds : view.Holds p
  fatal : p.isFatal = true ↔ view.Denies p
  permitted : view.Permits p p.accessType → view.Covers numRetries Throttled c p p.accessType.toProt

theorem BlockView.Judges.passed {e e' : Entry V}
    (h : view.Judges numRetries Throttled c e e') (hHolds : view.Holds e) :
    view.Passed numRetries Throttled c e' := by
  refine ⟨?_, h.fatal.trans h.kept.denies.symm, fun hPermitted => ?_⟩
  · rw [BlockView.Holds, h.kept.faultAddress]
    exact hHolds
  · rw [h.kept.accessType] at hPermitted ⊢
    exact h.permitted ((h.kept.permits _).mp hPermitted)

/-- A fault on the page of one that was not fatal is permitted if that one was, and never fatal. -/
theorem Passed.duplicate {p : Entry V}
    (h : view.Passed numRetries Throttled c p) (hServiced : p.isFatal = false)
    (hAddress : current.faultAddress = p.faultAddress) (hAccess : current.accessType ≤ p.accessType) :
    ¬view.Denies current ∧ (view.Permits current current.accessType → view.Permits p p.accessType) := by
  have hNot : ¬view.Denies p := fun hDenies => by
    rw [h.fatal.mpr hDenies] at hServiced
    cases hServiced
  by_cases hPrefetch : p.accessType = .prefetch
  · have hSame : current.accessType = .prefetch := by
      rw [hPrefetch] at hAccess
      revert hAccess
      cases current.accessType <;> decide
    refine ⟨fun hDenies => hDenies.2 hSame, fun hPermits => ?_⟩
    rwa [BlockView.Permits, hPrefetch, ← hAddress, ← hSame]
  · have hPermits : view.Permits p p.accessType := by
      by_contra hDenied
      exact hNot ⟨hDenied, hPrefetch⟩
    refine ⟨fun hDenies => hDenies.1 ?_, fun _ => hPermits⟩
    rw [BlockView.Permits, hAddress]
    exact view.check_mono _ hAccess hPermits

theorem servicePage_kept (view : BlockView g) (numRetries i : Nat) (access : AccessType)
    (marked : Entry V × BatchFlags V) (c : ServiceContext g) :
    marked.1.Kept (servicePage view numRetries i access marked c).1 ∧
      (servicePage view numRetries i access marked c).1.isFatal = marked.1.isFatal ∧
      (servicePage view numRetries i access marked c).1.cancelVaMode = marked.1.cancelVaMode := by
  rw [servicePage]
  dsimp only
  split
  · exact ⟨⟨rfl, rfl, rfl, rfl⟩, rfl, rfl⟩
  · split
    · split <;> exact ⟨⟨rfl, rfl, rfl, rfl⟩, rfl, rfl⟩
    · exact ⟨⟨rfl, rfl, rfl, rfl⟩, rfl, rfl⟩

theorem servicePage_covers (numRetries : Nat) (access : AccessType) (c : ServiceContext g)
    (hHint : view.hint i = .throttle → Throttled marked.1.faultAddress) :
    view.Covers numRetries Throttled (servicePage view numRetries i access marked c).2.context
      (servicePage view numRetries i access marked c).1 access.toProt := by
  rw [BlockView.Covers, (servicePage_kept view numRetries i access marked c).1.faultAddress, servicePage]
  dsimp only
  split
  · rename_i hAuthorized
    exact .inl hAuthorized
  · split
    · rename_i hThrottle
      refine .inr (.inl ⟨hHint hThrottle, fun hFirst => ?_⟩)
      rw [if_pos hFirst]
      rfl
    · have hLe : access.toProt ≤ access.toProt := Nat.le_refl _
      exact .inr (.inr (add_serves hLe))

theorem servicePage_serves {page : Nat} {prot : Prot} (h : c.Serves page prot)
    (hKeeps : view.pageIndex marked.1.faultAddress ≠ page ∨ prot = .readOnly) :
    (servicePage view numRetries i access marked c).2.context.Serves page prot := by
  rw [servicePage]
  dsimp only
  split
  · exact h
  · split
    · exact h
    · exact Serves.add h hKeeps

theorem Covers.mono {e : Entry V} {p q : Prot} (hProt : p ≤ q)
    (h : view.Covers numRetries Throttled c e q) : view.Covers numRetries Throttled c e p := by
  rcases h with hAuthorized | hThrottled | hServes
  · exact .inl (view.authorized_mono _ hProt hAuthorized)
  · exact .inr (.inl hThrottled)
  · exact .inr (.inr ⟨hServes.resident, Nat.le_trans hProt hServes.access, hServes.region⟩)

end Passing

section Rounds

variable [DecidableEq V] {view : BlockView g} {numRetries i : Nat} {previous : Option (Entry V)}
  {s : ScanState V g} {current : Entry V} {Throttled : Nat → Prop}

/-- What one round of a scan does. -/
inductive Scanned (view : BlockView g) (numRetries i : Nat) (previous : Option (Entry V))
    (s : ScanState V g) (current : Entry V) : Entry V × ScanState V g → Prop
  | waived (p e : Entry V) (flags : BatchFlags V) (hPrevious : previous = some p)
      (hSpace : current.vaSpace = p.vaSpace) (hAddress : current.faultAddress = p.faultAddress)
      (hServiced : p.isFatal = false) (hKept : current.Kept e) (hFatal : e.isFatal = current.isFatal)
      (hThrottled : p.isThrottled = true → e.isThrottled = true) :
      Scanned view numRetries i previous s current (e, ⟨flags, s.context⟩)
  | prefetch (e : Entry V) (flags : BatchFlags V)
      (hDenied : ¬view.Permits current current.accessType)
      (hPrefetch : current.accessType = .prefetch) (hKept : current.Kept e)
      (hFatal : e.isFatal = current.isFatal) :
      Scanned view numRetries i previous s current (e, ⟨flags, s.context⟩)
  | denied (e : Entry V) (flags : BatchFlags V) (hDenies : view.Denies current)
      (hRescues : ¬view.Rescues current) (hKept : current.Kept e) (hFatal : e.isFatal = true)
      (hMode : e.cancelVaMode = .all ↔ view.CancelsAll current) :
      Scanned view numRetries i previous s current (e, ⟨flags, s.context⟩)
  | serviced (access : AccessType) (marked : Entry V × BatchFlags V) (hKept : current.Kept marked.1)
      (hAccess : view.Permits current current.accessType ∧ access = current.accessType ∧
          marked.1.isFatal = current.isFatal ∨
        view.Rescues current ∧ access = .read ∧ marked.1.isFatal = true ∧
          marked.1.cancelVaMode = .writeAndAtomic)
      (hFirst : ∀ p, previous = some p → current.vaSpace = p.vaSpace →
        current.faultAddress = p.faultAddress → p.isFatal = true) :
      Scanned view numRetries i previous s current
        (servicePage view numRetries i access marked s.context)

theorem scanEntry_scanned (view : BlockView g) (numRetries i : Nat) (previous : Option (Entry V))
    (s : ScanState V g) (current : Entry V) :
    Scanned view numRetries i previous s current (scanEntry view numRetries i previous s current) := by
  rw [scanEntry]
  generalize hReset : ({ current with isThrottled := false, isInvalidPrefetch := false } : Entry V) = e₀
  have hKept₀ : current.Kept e₀ := by
    subst hReset
    exact ⟨rfl, rfl, rfl, rfl⟩
  have hFatal₀ : e₀.isFatal = current.isFatal := by
    subst hReset
    rfl
  dsimp only
  generalize (if numRetries = 0 then s.flags.countDuplicates e₀ (checkFaultEntryDuplicate e₀ previous)
    else s.flags) = flags
  generalize hMarked : flags.markDuplicate e₀ (checkFaultEntryDuplicate e₀ previous) previous = marked
  have hKept : current.Kept marked.1 ∧ marked.1.isFatal = current.isFatal := by
    subst hMarked
    obtain ⟨hKept, hFatal⟩ := markDuplicate_kept flags e₀ (checkFaultEntryDuplicate e₀ previous) previous
    exact ⟨hKept₀.trans hKept, hFatal.trans hFatal₀⟩
  split
  · rename_i hWaived
    obtain ⟨p, hPrevious, hBoth⟩ := Option.any_eq_true _ _ |>.mp hWaived
    rw [Bool.and_eq_true, Bool.not_eq_true'] at hBoth
    have hSame := hBoth.1
    rw [checkFaultEntryDuplicate, hPrevious, Option.any_some, Bool.and_eq_true, decide_eq_true_eq,
      beq_iff_eq, hKept₀.vaSpace, hKept₀.faultAddress] at hSame
    refine .waived p _ _ hPrevious hSame.1 hSame.2 hBoth.2 hKept.1 hKept.2 fun hThrottled => ?_
    rw [hBoth.1, hPrevious, BatchFlags.markDuplicate, if_pos rfl] at hMarked
    subst hMarked
    exact (duplicateFlags_kept flags e₀ p).2.2.2 hThrottled
  · rename_i hWaived
    have hFirst : ∀ p, previous = some p → current.vaSpace = p.vaSpace →
        current.faultAddress = p.faultAddress → p.isFatal = true := by
      rintro p rfl hSpace hAddress
      by_contra hServiced
      refine hWaived ?_
      rw [Option.any_some, checkFaultEntryDuplicate, Option.any_some, hKept₀.vaSpace, hKept₀.faultAddress,
        hSpace, hAddress, decide_eq_true rfl, beq_self_eq_true, Bool.eq_false_iff.mpr hServiced]
      rfl
    have hChecked := checkFaultAccessPermissions_checked marked.2 marked.1 view numRetries
    rw [show view.check e₀.faultAddress = view.check marked.1.faultAddress by
      rw [hKept₀.faultAddress, hKept.1.faultAddress]]
    generalize marked.2.checkFaultAccessPermissions marked.1 (view.check marked.1.faultAddress) numRetries =
      checked at hChecked ⊢
    -- the permissions are those of the fault as it was before
    have hRescues : view.Rescues marked.1 ↔ view.Rescues current := hKept.1.rescues
    cases hChecked with
    | permitted hMay =>
        rw [hKept.1.permits, hKept.1.accessType] at hMay
        exact .serviced _ _ hKept.1 (.inl ⟨hMay, hKept.1.accessType, hKept.2⟩) hFirst
    | prefetch marked' hDenied hPrefetch hKept' hFatal =>
        rw [hKept.1.permits, hKept.1.accessType] at hDenied
        exact .prefetch _ _ hDenied (hKept.1.accessType.symm.trans hPrefetch) (hKept.1.trans hKept')
          (hFatal.trans hKept.2)
    | rescued marked' hRescue hKept' hFatal hMode =>
        exact .serviced _ _ (hKept.1.trans hKept') (.inr ⟨hRescues.mp hRescue, rfl, hFatal, hMode⟩) hFirst
    | denied marked' hDeny hRescue hKept' hFatal hMode =>
        exact .denied _ _ (hKept.1.denies.mp hDeny) (fun h => hRescue (hRescues.mpr h))
          (hKept.1.trans hKept') hFatal (hMode.trans hKept.1.cancelsAll)

/-- One round judges its fault, whatever became of the fault before. -/
theorem scanEntry_judges
    (hPrevious : ∀ p, previous = some p →
      p.Precedes current ∧ view.Passed numRetries Throttled s.context p)
    (hFatal : current.isFatal = true → view.Denies current)
    (hHint : view.hint i = .throttle → Throttled current.faultAddress) :
    view.Judges numRetries Throttled (scanEntry view numRetries i previous s current).2.context current
      (scanEntry view numRetries i previous s current).1 := by
  have hScanned := scanEntry_scanned view numRetries i previous s current
  generalize scanEntry view numRetries i previous s current = r at hScanned ⊢
  cases hScanned with
  | waived p e flags hBefore hSpace hAddress hServiced hKept hSame hThrottled =>
      obtain ⟨hOrder, hPassed⟩ := hPrevious p hBefore
      have hAccess : current.accessType ≤ p.accessType := by
        rcases hOrder.2 with hLess | hBoth
        · exact absurd hAddress (Nat.ne_of_gt hLess)
        · exact hBoth.2
      obtain ⟨hNot, hPermits⟩ := Passed.duplicate hPassed hServiced hAddress hAccess
      refine ⟨hKept, ⟨fun hIs => hFatal (hSame ▸ hIs), fun hDenies => absurd hDenies hNot⟩,
        fun hDenies => absurd hDenies hNot, fun hMay => ?_, fun hRescues => absurd hRescues.1 hNot⟩
      have hCovers := Covers.mono (AccessType.toProt_mono hAccess) (hPassed.permitted (hPermits hMay))
      rw [BlockView.Covers, hKept.faultAddress, hAddress]
      exact hCovers.imp_right fun h => h.imp_left fun hThrottle =>
        ⟨hThrottle.1, fun hFirst => hThrottled (hThrottle.2 hFirst)⟩
  | prefetch e flags hDenied hPrefetch hKept hSame =>
      have hNot : ¬view.Denies current := fun hDenies => hDenies.2 hPrefetch
      exact ⟨hKept, ⟨fun hIs => hFatal (hSame ▸ hIs), fun hDenies => absurd hDenies hNot⟩,
        fun hDenies => absurd hDenies hNot, fun hMay => absurd hMay hDenied,
        fun hRescues => absurd hRescues.1 hNot⟩
  | denied e flags hDenies hRescues hKept hIs hMode =>
      exact ⟨hKept, iff_of_true hIs hDenies, fun _ => hMode, fun hMay => absurd hMay hDenies.1,
        fun hRescue => absurd hRescue hRescues⟩
  | serviced access marked hKept hAccess hFirst =>
      obtain ⟨hEnd, hSame, hMode⟩ := servicePage_kept view numRetries i access marked s.context
      have hCovers := servicePage_covers numRetries access s.context
        (fun hThrottle => hKept.faultAddress ▸ hHint hThrottle)
      rcases hAccess with ⟨hMay, rfl, hIs⟩ | ⟨hRescue, rfl, hIs, hWrite⟩
      · have hNot : ¬view.Denies current := fun hDenies => hDenies.1 hMay
        exact ⟨hKept.trans hEnd, ⟨fun hNow => hFatal (hIs ▸ hSame ▸ hNow), fun hDenies =>
          absurd hDenies hNot⟩, fun hDenies => absurd hDenies hNot, fun _ => hCovers,
          fun hRescues => absurd hRescues.1 hNot⟩
      · refine ⟨hKept.trans hEnd, iff_of_true (hSame.trans hIs) hRescue.1, fun _ => ?_,
          fun hMay => absurd hMay hRescue.1.1, fun _ => hCovers⟩
        rw [hMode, hWrite]
        refine iff_of_false (fun hAll => CancelVaMode.noConfusion hAll) ?_
        rintro (hLow | hBoth)
        · exact absurd hRescue.2.1 (not_lt.mpr hLow)
        · exact hBoth.2 hRescue.2.2.2

end Rounds

section Runs

variable [DecidableEq V] {view : BlockView g} {numRetries i : Nat} {previous : Option (Entry V)}
  {s : ScanState V g} {Throttled : Nat → Prop} {e : Entry V} {rest : List (Entry V)}

/-- What a scan relies on, from the fault at `i` on. -/
structure Ready (view : BlockView g) (numRetries : Nat) (Throttled : Nat → Prop) (i : Nat)
    (previous : Option (Entry V)) (c : ServiceContext g) (rest : List (Entry V)) : Prop where
  sorted : rest.Pairwise Entry.Precedes
  holds : ∀ e ∈ rest, view.Holds e
  fatal : ∀ e ∈ rest, e.isFatal = true → view.Denies e
  hint : ∀ k e, rest[k]? = some e → view.hint (i + k) = .throttle → Throttled e.faultAddress
  previous : ∀ p, previous = some p →
    (∀ e ∈ rest, p.Precedes e) ∧ view.Passed numRetries Throttled c p

theorem Ready.judges (h : Ready view numRetries Throttled i previous s.context (e :: rest)) :
    view.Judges numRetries Throttled (scanEntry view numRetries i previous s e).2.context e
      (scanEntry view numRetries i previous s e).1 :=
  scanEntry_judges (fun p hp => ⟨(h.previous p hp).1 e List.mem_cons_self, (h.previous p hp).2⟩)
    (h.fatal e List.mem_cons_self) (h.hint 0 e rfl)

theorem Ready.next (h : Ready view numRetries Throttled i previous s.context (e :: rest)) :
    Ready view numRetries Throttled (i + 1) (some (scanEntry view numRetries i previous s e).1)
      (scanEntry view numRetries i previous s e).2.context rest := by
  have hJudges := h.judges
  have hSorted := List.pairwise_cons.mp h.sorted
  refine ⟨hSorted.2, fun e' he' => h.holds e' (List.mem_cons_of_mem e he'),
    fun e' he' => h.fatal e' (List.mem_cons_of_mem e he'), fun k e' hk hThrottle => ?_, fun p hp => ?_⟩
  · rw [Nat.add_assoc, Nat.add_comm 1 k] at hThrottle
    exact h.hint (k + 1) e' hk hThrottle
  · cases hp
    refine ⟨fun e' he' => ?_, hJudges.passed (h.holds e List.mem_cons_self)⟩
    have hOrder := hSorted.1 e' he'
    rw [Entry.Precedes, hJudges.kept.vaSpace, hJudges.kept.faultAddress, hJudges.kept.accessType]
    exact hOrder

/-- A page that is serviced stays so to the end of a scan, unless its last fault is fatal: then it stays
so for reading. -/
theorem scan_serves {page : Nat} {prot : Prot}
    (h : Ready view numRetries Throttled i previous s.context rest) (hServes : s.context.Serves page prot)
    (hKeeps : (∀ e ∈ rest, view.pageIndex e.faultAddress ≠ page) ∨ prot = .readOnly ∨
      ∃ p, previous = some p ∧ p.isFatal = false ∧ view.pageIndex p.faultAddress = page) :
    (scan view numRetries i previous s rest).2.context.Serves page prot := by
  induction rest generalizing i previous s with
  | nil => exact hServes
  | cons e rest ih =>
      have hJudges := h.judges
      have hScanned := scanEntry_scanned view numRetries i previous s e
      have hOther : view.pageIndex e.faultAddress ≠ page ∨ prot = .readOnly →
          (scanEntry view numRetries i previous s e).2.context.Serves page prot := by
        intro hKeeps
        generalize scanEntry view numRetries i previous s e = r at hScanned
        cases hScanned with
        | serviced access marked hKept _ _ =>
            exact servicePage_serves hServes (by rwa [hKept.faultAddress])
        | waived => exact hServes
        | prefetch => exact hServes
        | denied => exact hServes
      rw [scan]
      rcases hKeeps with hPages | hRead | ⟨p, hBefore, hServiced, hPage⟩
      · exact ih h.next (hOther (.inl (hPages e List.mem_cons_self)))
          (.inl fun e' he' => hPages e' (List.mem_cons_of_mem e he'))
      · exact ih h.next (hOther (.inr hRead)) (.inr (.inl hRead))
      · obtain ⟨hOrder, hPassed⟩ := h.previous p hBefore
        have hHolds := fun e' he' => pageIndex_eq_iff hPassed.holds (h.holds e' he')
        have hFirst := hOrder e List.mem_cons_self
        by_cases hSame : p.faultAddress = e.faultAddress
        · -- another fault on the page is waived
          have hAccess : e.accessType ≤ p.accessType := by
            rcases hFirst.2 with hLess | hBoth
            · exact absurd hSame (Nat.ne_of_lt hLess)
            · exact hBoth.2
          have hNot := (Passed.duplicate hPassed hServiced hSame.symm hAccess).1
          have hNext : (scanEntry view numRetries i previous s e).1.isFatal = false := by
            rw [← Bool.not_eq_true, hJudges.fatal]
            exact hNot
          have hContext : (scanEntry view numRetries i previous s e).2.context = s.context := by
            generalize scanEntry view numRetries i previous s e = r at hScanned
            cases hScanned with
            | serviced access marked _ _ hFatal =>
                rw [hFatal p hBefore hFirst.1.symm hSame.symm] at hServiced
                cases hServiced
            | waived => rfl
            | prefetch => rfl
            | denied => rfl
          refine ih h.next (hContext ▸ hServes) (.inr (.inr ⟨_, rfl, hNext, ?_⟩))
          rw [hJudges.kept.faultAddress, ← hSame]
          exact hPage
        · have hLess : p.faultAddress < e.faultAddress :=
            hFirst.2.resolve_right fun hBoth => hSame hBoth.1
          have hPages : ∀ e' ∈ e :: rest, view.pageIndex e'.faultAddress ≠ page := by
            intro e' he' hEq
            have hAddress := (hHolds e' he').mp (hPage.trans hEq.symm)
            rcases List.mem_cons.mp he' with rfl | hBehind
            · exact hSame hAddress
            · have hNext := ((List.pairwise_cons.mp h.sorted).1 e' hBehind).2
              rw [← hAddress] at hNext
              rcases hNext with hBack | hBoth
              · exact Nat.lt_asymm hLess hBack
              · exact hSame hBoth.1.symm
          exact ih h.next (hOther (.inl (hPages e List.mem_cons_self)))
            (.inl fun e' he' => hPages e' (List.mem_cons_of_mem e he'))

theorem scan_judges (h : Ready view numRetries Throttled i previous s.context rest) :
    List.Forall₂ (view.Judges numRetries Throttled (scan view numRetries i previous s rest).2.context) rest
      (scan view numRetries i previous s rest).1 := by
  induction rest generalizing i previous s with
  | nil => exact .nil
  | cons e rest ih =>
      have hJudges := h.judges
      rw [scan]
      refine .cons ⟨hJudges.kept, hJudges.fatal, hJudges.mode, fun hMay => ?_, fun hRescues => ?_⟩
        (ih h.next)
      · have hServiced : (scanEntry view numRetries i previous s e).1.isFatal = false := by
          rw [← Bool.not_eq_true, hJudges.fatal]
          exact fun hDenies => hDenies.1 hMay
        exact (hJudges.permitted hMay).imp_right fun hLater => hLater.imp_right fun hServes =>
          scan_serves h.next hServes (.inr (.inr ⟨_, rfl, hServiced, rfl⟩))
      · exact (hJudges.rescued hRescues).imp_right fun hLater => hLater.imp_right fun hServes =>
          scan_serves h.next hServes (.inr (.inl rfl))

/-- Each page is serviced for a fault on it, with an access that is permitted there and not more
intrusive than the fault. -/
def BlockView.Sound (view : BlockView g) (c : ServiceContext g) (entries : List (Entry V)) : Prop :=
  ∀ p ∈ c.residentProcessors, ∀ page ∈ c.newResidency p, ∃ e ∈ entries,
    view.pageIndex e.faultAddress = page ∧ view.Permits e (c.accessType page) ∧
      c.accessType page ≤ e.accessType

omit [DecidableEq V] in
theorem Sound.add {c : ServiceContext g} {entries : List (Entry V)} {page : Nat} {access : AccessType}
    {hint : Hint g} {residency : Proc g} {readDuplicate : Bool} (h : view.Sound c entries)
    (he : e ∈ entries) (hPage : view.pageIndex e.faultAddress = page) (hPermits : view.Permits e access)
    (hAccess : access ≤ e.accessType) :
    view.Sound (c.add page access hint residency readDuplicate) entries := by
  intro p hp page' hPage'
  change ∃ e ∈ entries, _ ∧ view.Permits e (Function.update c.accessType page access page') ∧
    Function.update c.accessType page access page' ≤ e.accessType
  by_cases hSame : page' = page
  · rw [hSame, Function.update_self]
    exact ⟨e, he, hPage, hPermits, hAccess⟩
  · rw [Function.update_of_ne hSame]
    change page' ∈ Function.update c.newResidency residency _ p at hPage'
    by_cases hHere : p = residency
    · rw [hHere, Function.update_self] at hPage'
      have hOld := (Finset.mem_insert.mp hPage').resolve_left hSame
      split at hOld
      · rename_i hResident
        exact h residency hResident page' hOld
      · exact absurd hOld (Finset.notMem_empty page')
    · rw [Function.update_of_ne hHere] at hPage'
      exact h p ((Finset.mem_insert.mp hp).resolve_left hHere) page' hPage'

omit [DecidableEq V] in
theorem Sound.servicePage {c : ServiceContext g} {entries : List (Entry V)} {access : AccessType}
    {marked : Entry V × BatchFlags V} (h : view.Sound c entries) (he : e ∈ entries)
    (hKept : e.Kept marked.1) (hPermits : view.Permits e access) (hAccess : access ≤ e.accessType) :
    view.Sound (servicePage view numRetries i access marked c).2.context entries := by
  rw [Faults.servicePage]
  dsimp only
  split
  · exact h
  · split
    · exact h
    · exact Sound.add h he (congrArg view.pageIndex hKept.faultAddress.symm) hPermits hAccess

theorem scan_sound {entries : List (Entry V)} (h : view.Sound s.context entries)
    (hRest : ∀ e ∈ rest, e ∈ entries) :
    view.Sound (scan view numRetries i previous s rest).2.context entries := by
  induction rest generalizing i previous s with
  | nil => exact h
  | cons e rest ih =>
      rw [scan]
      refine ih ?_ fun e' he' => hRest e' (List.mem_cons_of_mem e he')
      have hScanned := scanEntry_scanned view numRetries i previous s e
      generalize scanEntry view numRetries i previous s e = r at hScanned ⊢
      cases hScanned with
      | waived => exact h
      | prefetch => exact h
      | denied => exact h
      | serviced access marked hKept hAccess _ =>
          rcases hAccess with ⟨hMay, rfl, -⟩ | ⟨hRescue, rfl, -⟩
          · exact Sound.servicePage h (hRest e List.mem_cons_self) hKept hMay le_rfl
          · exact Sound.servicePage h (hRest e List.mem_cons_self) hKept hRescue.2.2.2
              (le_of_lt hRescue.2.1)

end Runs

end FlashCkpt.Faults
