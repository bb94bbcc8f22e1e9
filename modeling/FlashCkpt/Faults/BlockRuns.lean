import FlashCkpt.Faults.Service
import FlashCkpt.Uvm.DirtyTracking

/-! The service of the faults of one block: whatever the retries, the last scan judges the faults, and
what it schedules is serviced. A write that is serviced is recorded for the live migration. -/
namespace FlashCkpt.Faults

open Uvm (Prot Proc)

variable {V : Type} {g n : Nat}

section Lists

variable {α β γ : Type} {R : α → β → Prop} {S : β → γ → Prop} {T : α → γ → Prop}

theorem forall₂_trans (hTrans : ∀ a b c, R a b → S b c → T a c) {l₁ : List α} {l₂ : List β} {l₃ : List γ}
    (h : List.Forall₂ R l₁ l₂) (h' : List.Forall₂ S l₂ l₃) : List.Forall₂ T l₁ l₃ := by
  induction h generalizing l₃ with
  | nil =>
      cases h'
      exact .nil
  | cons hHead _ ih =>
      cases h' with
      | cons hHead' hTail' => exact .cons (hTrans _ _ _ hHead hHead') (ih hTail')

theorem forall₂_partner {l₁ : List α} {l₂ : List β} (h : List.Forall₂ R l₁ l₂) {b : β} (hb : b ∈ l₂) :
    ∃ a ∈ l₁, R a b := by
  induction h with
  | nil => cases hb
  | cons hHead _ ih =>
      rcases List.mem_cons.mp hb with rfl | hRest
      · exact ⟨_, List.mem_cons_self, hHead⟩
      · obtain ⟨a, ha, hSame⟩ := ih hRest
        exact ⟨a, List.mem_cons_of_mem _ ha, hSame⟩

end Lists

section Scans

variable [DecidableEq V] {view : BlockView g} {numRetries i : Nat} {previous : Option (Entry V)}
  {s : ScanState V g} {rest : List (Entry V)}

/-- A context that counts no page has none. -/
def ServiceContext.Counted (c : ServiceContext g) : Prop :=
  c.pageFaultCount = 0 → c.residentProcessors = ∅

theorem scan_counted (h : s.context.Counted) :
    (scan view numRetries i previous s rest).2.context.Counted := by
  induction rest generalizing i previous s with
  | nil => exact h
  | cons e rest ih =>
      rw [scan]
      refine ih ?_
      have hScanned := scanEntry_scanned view numRetries i previous s e
      generalize scanEntry view numRetries i previous s e = r at hScanned ⊢
      cases hScanned with
      | waived => exact h
      | prefetch => exact h
      | denied => exact h
      | serviced access marked _ _ _ =>
          rw [servicePage]
          dsimp only
          split
          · exact h
          · split
            · exact h
            · exact fun hNone => absurd hNone (Nat.succ_ne_zero _)

omit [DecidableEq V] in
/-- The judgement of an entry that an earlier scan has judged is that of the entry as it was. -/
theorem Judges.of_kept {c : ServiceContext g} {Throttled : Nat → Prop} {e e' e'' : Entry V}
    (hKept : e.Kept e') (h : view.Judges numRetries Throttled c e' e'') :
    view.Judges numRetries Throttled c e e'' := by
  refine ⟨hKept.trans h.kept, h.fatal.trans hKept.denies,
    fun hDeny => (h.mode (hKept.denies.mpr hDeny)).trans hKept.cancelsAll, fun hMay => ?_,
    fun hRescue => h.rescued (hKept.rescues.mpr hRescue)⟩
  rw [← hKept.permits, ← hKept.accessType] at hMay
  rw [← hKept.accessType]
  exact h.permitted hMay

omit [DecidableEq V] in
theorem BlockView.Judges.imp {Throttled Throttled' : Nat → Prop} {c : ServiceContext g} {e e' : Entry V}
    (h : view.Judges numRetries Throttled c e e')
    (hImp : ∀ address, Throttled address → Throttled' address) :
    view.Judges numRetries Throttled' c e e' :=
  ⟨h.kept, h.fatal, h.mode,
    fun hMay => (h.permitted hMay).imp_right fun hLater => hLater.imp_left fun hHeld =>
      ⟨hImp _ hHeld.1, hHeld.2⟩,
    fun hRescue => (h.rescued hRescue).imp_right fun hLater => hLater.imp_left fun hHeld =>
      ⟨hImp _ hHeld.1, hHeld.2⟩⟩

end Scans

section Records

variable {range : Uvm.Range g} {req : Uvm.Request g n} {b : Uvm.Block g n}

/-- A page that is serviced with a write access is recorded, by the bulk restore or without it. -/
theorem recordsWriteFault_served (hTracked : b.tracked = true) (hGpu : req.processor.isGpu = true)
    {page : Fin n} (hPage : page ∈ req.served) (hWrite : (req.access page).writable = true) :
    Uvm.recordsWriteFault req b (Uvm.finalPlan range req b) = true := by
  have hComputed : (Uvm.computeNewPermission range req b page).writable = true := by
    rw [Uvm.computeNewPermission]
    split
    · split <;> rfl
    · split
      · rfl
      · exact hWrite
  have hGranted : page ∈ Uvm.granted range req b .readWrite ∪ Uvm.granted range req b .readWriteAtomic := by
    rw [Finset.mem_union, Uvm.granted, Uvm.granted, Finset.mem_filter, Finset.mem_filter]
    cases hProt : Uvm.computeNewPermission range req b page with
    | none =>
        rw [hProt] at hComputed
        cases hComputed
    | readOnly =>
        rw [hProt] at hComputed
        cases hComputed
    | readWrite => exact .inl ⟨hPage, rfl⟩
    | readWriteAtomic => exact .inr ⟨hPage, rfl⟩
  rw [Uvm.finalPlan]
  split
  · rename_i hBulk
    rw [Uvm.recordsWriteFault_restored hBulk]
    refine ⟨page, Finset.mem_union_left _ ?_⟩
    rw [Finset.union_comm]
    exact Finset.union_subset_union (Uvm.granted_subset_pages range req b .readWrite)
      (Uvm.granted_subset_pages range req b .readWriteAtomic) hGranted
  · exact (Uvm.recordsWriteFault_computed range req hTracked hGpu).mpr (.inl ⟨page, hGranted⟩)

theorem serviceResidency_dirty (hTracked : b.tracked = true) (hGpu : req.processor.isGpu = true)
    {page : Fin n} (hPage : page ∈ req.served) (hWrite : (req.access page).writable = true)
    (hOk : (serviceResidency range req b).2 = true) : (serviceResidency range req b).1.dirty = true := by
  rw [serviceResidency, Bool.and_eq_true] at hOk
  obtain ⟨hCopied, hFinish⟩ := hOk
  rw [finishSucceeds, Bool.and_eq_true, Bool.not_eq_true'] at hFinish
  have hStill : (Uvm.makeResidentFinish req (Uvm.serviceCopy range req b).1).tracked = true :=
    (Uvm.serviceCopy_flags range req b).1.trans hTracked
  change (Uvm.service range req b).dirty = true
  simp only [Uvm.service, hCopied, if_true, Uvm.serviceFinish, hFinish.1, Bool.false_eq_true, if_false]
  rw [(Uvm.Remapped.runStages range req.mm _ _ _).dirty, Bool.or_eq_true]
  exact .inr (recordsWriteFault_served hStill hGpu hPage hWrite)

/-- Tracked, and nobody can write to it as long as it is clean. -/
structure Guarded (b : Uvm.Block g n) : Prop where
  tracked : b.tracked = true
  writeProtected : b.dirty = false → b.WriteProtected

theorem Guarded.serviceResidency (h : Guarded b) (hGpu : req.processor.isGpu = true)
    (hLite : ∀ q, range.uvmLite q = false) : Guarded (serviceResidency range req b).1 := by
  have hReads : req.GrantsReads range b := by
    refine ⟨fun hCpu => ?_, fun hAdds => ?_⟩
    · rw [hCpu] at hGpu
      cases hGpu
    · have hNone : Uvm.addsLite range req = false := by
        rw [Uvm.addsLite, Bool.and_eq_false_iff, List.any_eq_false]
        exact .inr fun q _ hBoth => by
          rw [Bool.and_eq_true, hLite q] at hBoth
          cases hBoth.1
      rw [hNone] at hAdds
      cases hAdds
  exact ⟨Uvm.service_tracked.trans h.tracked, fun hClean =>
    Uvm.service_writeProtected h.tracked (h.writeProtected (Uvm.service_dirty hClean)) hReads hClean⟩

variable {request : Proc g → Uvm.Request g n} {processors : List (Proc g)}

theorem serviceResidencies_preserves {P : Uvm.Block g n → Prop}
    (hStep : ∀ p b, P b → P (serviceResidency range (request p) b).1) (h : P b) :
    P (serviceResidencies range request processors b).1 := by
  induction processors generalizing b with
  | nil => exact h
  | cons p rest ih =>
      rw [serviceResidencies]
      split
      · exact ih (hStep p b h)
      · exact hStep p b h

theorem serviceResidency_keeps_dirty (h : b.dirty = true) :
    (serviceResidency range req b).1.dirty = true := by
  by_contra hClean
  rw [Uvm.service_dirty (Bool.eq_false_iff.mpr hClean)] at h
  cases h

/-- A service that comes to its end has serviced each residency. -/
theorem serviceResidencies_dirty (hTracked : b.tracked = true) {residency : Proc g}
    (hMem : residency ∈ processors) (hGpu : (request residency).processor.isGpu = true) {page : Fin n}
    (hPage : page ∈ (request residency).served) (hWrite : ((request residency).access page).writable = true)
    (hOk : (serviceResidencies range request processors b).2 = true) :
    (serviceResidencies range request processors b).1.dirty = true := by
  induction processors generalizing b with
  | nil => cases hMem
  | cons p rest ih =>
      rw [serviceResidencies] at hOk ⊢
      by_cases hServiced : (serviceResidency range (request p) b).2 = true
      · rw [if_pos hServiced] at hOk ⊢
        rcases List.mem_cons.mp hMem with rfl | hRest
        · exact serviceResidencies_preserves (P := fun b => b.dirty = true)
            (fun p b h => serviceResidency_keeps_dirty h)
            (serviceResidency_dirty hTracked hGpu hPage hWrite hServiced)
        · exact ih (Uvm.service_tracked.trans hTracked) hRest hOk
      · rw [if_neg hServiced] at hOk
        exact absurd hOk hServiced

end Records

section Locked

variable {m : ManagedBlock V g} {gpu : Fin g} {a : Attempt g n} {c : ServiceContext g}
  {b : Uvm.Block g n}

theorem serviceLocked_preserves {P : Uvm.Block g n → Prop}
    (hStep : ∀ req b, req.processor = .gpu gpu → P b → P (serviceResidency m.range req b).1) (h : P b) :
    P (serviceLocked m gpu a c b).1 :=
  serviceResidencies_preserves (fun _ b hb => hStep _ b rfl hb) h

/-- A write that is scheduled on a tracked block is recorded. -/
theorem serviceLocked_dirty (hTracked : b.tracked = true) {page : Nat} {prot : Prot} (hBound : page < n)
    (hServes : c.Serves page prot) (hWrite : prot.writable = true)
    (hOk : (serviceLocked m gpu a c b).2 = true) : (serviceLocked m gpu a c b).1.dirty = true := by
  obtain ⟨⟨p, hp, hMem⟩, hAccess, hRegion⟩ := hServes
  have hWritable : (c.accessType page).toProt.writable = true :=
    decide_eq_true (Nat.le_trans (of_decide_eq_true hWrite) hAccess)
  rw [serviceLocked, hTracked, if_pos rfl] at hOk ⊢
  have hListed : p ∈ Proc.all.filter fun p => p ∈ c.residentProcessors :=
    List.mem_filter.mpr ⟨p.mem_all, decide_eq_true hp⟩
  have hServed : (⟨page, hBound⟩ : Fin n) ∈ (c.request gpu a p).served :=
    Finset.mem_inter_of_mem (Finset.mem_filter.mpr ⟨Finset.mem_univ _, hMem⟩)
      (Finset.mem_filter.mpr ⟨Finset.mem_univ _, hRegion⟩)
  exact serviceResidencies_dirty hTracked hListed rfl hServed hWritable hOk

theorem serviceLocked_idle (h : c.residentProcessors = ∅) : serviceLocked m gpu a c b = (b, true) := by
  have hContext : ∀ duplicates, (c.getPrefetchHint duplicates a.prefetchHint).residentProcessors = ∅ := by
    intro duplicates
    cases a.prefetchHint with
    | none => exact h
    | some pages =>
        change (if c.residentProcessors.card = 1 then _ else c).residentProcessors = ∅
        rw [h, if_neg (by simp)]
        exact h
  have hNone : ∀ resident : Finset (Proc g), resident = ∅ →
      (Proc.all.filter fun p => p ∈ resident) = [] := by
    rintro _ rfl
    exact List.filter_eq_nil_iff.mpr fun p _ => by simp
  rw [serviceLocked]
  split
  · rw [hNone _ h]
    rfl
  · rw [hNone _ (hContext _)]
    rfl

end Locked

section Attempts

variable [DecidableEq V] {m : ManagedBlock V g} {gpu : Fin g} {first numRetries : Nat}
  {attempts : List (Attempt g n)} {s : ScanState V g} {b : Uvm.Block g n} {entries : List (Entry V)}

/-- The pages whose faults were held back in one scan. -/
def ThrottledAt (a : Attempt g n) (first : Nat) (entries : List (Entry V)) (address : Nat) : Prop :=
  ∃ k e, entries[k]? = some e ∧ e.faultAddress = address ∧ a.hint (first + k) = .throttle

/-- The last scan of a block and the service behind it, with the block as they find it. -/
structure LastAttempt (m : ManagedBlock V g) (gpu : Fin g) (first : Nat) (a : Attempt g n)
    (numRetries : Nat) (b : Uvm.Block g n) (entries out : List (Entry V)) (c : ServiceContext g)
    (serviced : Uvm.Block g n) : Prop where
  judged : List.Forall₂
    ((m.view gpu b a).Judges numRetries (ThrottledAt a first entries) c) entries out
  sound : (m.view gpu b a).Sound c entries
  serviced : serviceLocked m gpu a c b = (serviced, true)

/-- The faults of one block as they come from the ordered view. -/
structure Segment (n : Nat) (m : ManagedBlock V g) (entries : List (Entry V)) : Prop where
  sorted : entries.Pairwise Entry.Precedes
  holds : ∀ e ∈ entries, m.start ≤ e.faultAddress ∧ pageSize ∣ e.faultAddress - m.start ∧
    e.faultAddress < m.start + n * pageSize

/-- A fault that the permissions of the block do not allow. -/
def ManagedBlock.Denies (m : ManagedBlock V g) (e : Entry V) : Prop :=
  m.permissions.check e.faultAddress e.accessType ≠ none ∧ e.accessType ≠ .prefetch

omit [DecidableEq V] in
theorem Segment.of_kept {l l' : List (Entry V)} (h : Segment n m l) (hKept : List.Forall₂ Entry.Kept l l') :
    Segment n m l' := by
  induction hKept with
  | nil => exact ⟨.nil, fun _ he => absurd he List.not_mem_nil⟩
  | cons hHead hTail ih =>
      rename_i e e' l l'
      have hSorted := List.pairwise_cons.mp h.sorted
      have hRest := ih ⟨hSorted.2, fun x hx => h.holds x (List.mem_cons_of_mem e hx)⟩
      refine ⟨List.pairwise_cons.mpr ⟨fun x' hx' => ?_, hRest.sorted⟩, fun x' hx' => ?_⟩
      · obtain ⟨x, hx, hSame⟩ := forall₂_partner hTail hx'
        have hOrder := hSorted.1 x hx
        rw [Entry.Precedes, hHead.vaSpace, hHead.faultAddress, hHead.accessType, hSame.vaSpace,
          hSame.faultAddress, hSame.accessType]
        exact hOrder
      · rcases List.mem_cons.mp hx' with rfl | hx'
        · rw [hHead.faultAddress]
          exact h.holds e List.mem_cons_self
        · exact hRest.holds x' hx'

omit [DecidableEq V] in
theorem throttledAt_of_kept {a : Attempt g n} {l l' : List (Entry V)}
    (hKept : List.Forall₂ Entry.Kept l l') {address : Nat} (h : ThrottledAt a first l' address) :
    ThrottledAt a first l address := by
  obtain ⟨k, e', he', hAddress, hHint⟩ := h
  obtain ⟨hLength, hAll⟩ := List.forall₂_iff_get.mp hKept
  obtain ⟨hBound, hGet⟩ := List.getElem?_eq_some_iff.mp he'
  have hSame := hAll k (hLength ▸ hBound) hBound
  refine ⟨k, l.get ⟨k, hLength ▸ hBound⟩, List.getElem?_eq_getElem _, ?_, hHint⟩
  rw [← hAddress, ← hGet]
  exact hSame.faultAddress.symm

/-- What the service of a block does with its faults when it succeeds, whatever it does to the block
on the way. -/
theorem serviceFaultBatchBlock_last {P : Uvm.Block g n → Prop}
    (hStep : ∀ req b, req.processor = .gpu gpu → P b → P (serviceResidency m.range req b).1) (hb : P b)
    (hSegment : Segment n m entries) (hFatal : ∀ e ∈ entries, e.isFatal = true → m.Denies e)
    (hOk : (serviceFaultBatchBlock m gpu first numRetries attempts s b entries).ok = true) :
    ∃ a ∈ attempts, ∃ k b', P b' ∧
      LastAttempt m gpu first a k b' entries
        (serviceFaultBatchBlock m gpu first numRetries attempts s b entries).entries
        (serviceFaultBatchBlock m gpu first numRetries attempts s b entries).state.context
        (serviceFaultBatchBlock m gpu first numRetries attempts s b entries).block := by
  induction attempts generalizing numRetries s b entries with
  | nil => cases hOk
  | cons a more ih =>
      have hReady : Ready (m.view gpu b a) numRetries (ThrottledAt a first entries) first none
          (s.context.reset n) entries :=
        ⟨hSegment.sorted, fun e he => ⟨(hSegment.holds e he).1, (hSegment.holds e he).2.1⟩, hFatal,
          fun k e hk hHint => ⟨k, e, hk, rfl, hHint⟩, fun _ hNone => absurd hNone (Option.some_ne_none _).symm⟩
      have hJudged := scan_judges (s := ⟨s.flags, s.context.reset n⟩) hReady
      have hSound : (m.view gpu b a).Sound
          (scan (m.view gpu b a) numRetries first none ⟨s.flags, s.context.reset n⟩ entries).2.context
          entries :=
        scan_sound (fun _ hp => absurd hp (Finset.notMem_empty _)) fun _ he => he
      have hCounted :
          (scan (m.view gpu b a) numRetries first none ⟨s.flags, s.context.reset n⟩
            entries).2.context.Counted :=
        scan_counted fun _ => rfl
      rw [serviceFaultBatchBlock] at hOk ⊢
      generalize scan (m.view gpu b a) numRetries first none ⟨s.flags, s.context.reset n⟩ entries = scanned
        at hJudged hSound hCounted hOk ⊢
      -- a scan without pages has nothing to service
      have hLocked : (if scanned.2.context.pageFaultCount = 0 then (b, true)
          else serviceLocked m gpu a scanned.2.context b) = serviceLocked m gpu a scanned.2.context b := by
        split
        · exact (serviceLocked_idle (hCounted ‹_›)).symm
        · rfl
      simp only [hLocked] at hOk ⊢
      by_cases hServiced : (serviceLocked m gpu a scanned.2.context b).2 = true
      · rw [if_pos hServiced]
        exact ⟨a, List.mem_cons_self, numRetries, b, hb, hJudged, hSound, Prod.ext rfl hServiced⟩
      · rw [if_neg hServiced] at hOk ⊢
        by_cases hRetry : a.retry = true
        · rw [if_pos hRetry] at hOk ⊢
          have hKept := hJudged.imp fun _ _ h => h.kept
          have hStill : ∀ e' ∈ scanned.1, e'.isFatal = true → m.Denies e' := by
            intro e' he' hIs
            obtain ⟨e, _, hJudges⟩ := forall₂_partner hJudged he'
            have hDenies := hJudges.fatal.mp hIs
            rw [ManagedBlock.Denies, hJudges.kept.faultAddress, hJudges.kept.accessType]
            exact hDenies
          obtain ⟨a', ha', k, b', hb', hLast⟩ := ih (serviceLocked_preserves hStep hb)
            (hSegment.of_kept hKept) hStill hOk
          refine ⟨a', List.mem_cons_of_mem a ha', k, b', hb', ?_, ?_, hLast.serviced⟩
          · refine forall₂_trans ?_ hKept hLast.judged
            exact fun e e' e'' hFirst hLater => (Judges.of_kept hFirst hLater).imp fun _ hHeld =>
              throttledAt_of_kept hKept hHeld
          · intro p hp page hPage
            obtain ⟨e', he', hIndex, hPermits, hAccess⟩ := hLast.sound p hp page hPage
            obtain ⟨e, he, hSame⟩ := forall₂_partner hKept he'
            rw [BlockView.Permits, hSame.faultAddress] at hPermits
            rw [hSame.faultAddress] at hIndex
            rw [hSame.accessType] at hAccess
            exact ⟨e, he, hIndex, hPermits, hAccess⟩
        · rw [if_neg hRetry] at hOk
          cases hOk

/-- What the service of a block preserves, whether it succeeds or not. -/
theorem serviceFaultBatchBlock_preserves {P : Uvm.Block g n → Prop}
    (hStep : ∀ req b, req.processor = .gpu gpu → P b → P (serviceResidency m.range req b).1) (hb : P b) :
    P (serviceFaultBatchBlock m gpu first numRetries attempts s b entries).block := by
  induction attempts generalizing numRetries s b entries with
  | nil => exact hb
  | cons a more ih =>
      rw [serviceFaultBatchBlock]
      generalize scan (m.view gpu b a) numRetries first none ⟨s.flags, s.context.reset n⟩ entries = scanned
      have hServiced : P (if scanned.2.context.pageFaultCount = 0 then (b, true)
          else serviceLocked m gpu a scanned.2.context b).1 := by
        split
        · exact hb
        · exact serviceLocked_preserves hStep hb
      generalize (if scanned.2.context.pageFaultCount = 0 then (b, true)
        else serviceLocked m gpu a scanned.2.context b) = serviced at hServiced ⊢
      split
      · exact hServiced
      · split
        · exact ih hServiced
        · exact hServiced

end Attempts

end FlashCkpt.Faults
