import FlashCkpt.Faults.BatchRuns

/-! A batch from the fault buffer to the blocks: what becomes of the faults that the GPU has reported,
and that a write which the driver lets through is recorded for the live migration. -/
namespace FlashCkpt.Faults

open Uvm (Prot Proc)

variable {V B : Type} [LinearOrder V] [DecidableEq B] {g n : Nat}

/-- The context of the batch behind earlier ones. -/
abbrev fetched (V : Type) (earlier : List (Bool × List Report)) (mayFilter : Bool) (reports : List Report) :
    Batch V :=
  (Batch.after V earlier).fetchEntries mayFilter reports

/-- The page of a fault lies in the block. -/
structure Reported (d : Driver V B g n) (lookup : Nat × Nat → Option V) (blk : B) (report : Report) : Prop where
  space : lookup report.context = some (d.managed blk).space
  start : (d.managed blk).start ≤ report.aligned.faultAddress
  bound : report.aligned.faultAddress < (d.managed blk).start + n * pageSize

section Views

variable {d : Driver V B g n} {S : KernelSort (Entry V)} {lookup : Nat × Nat → Option V}
  {earlier : List (Bool × List Report)} {mayFilter : Bool} {reports : List Report} {view : List (Entry V)}

omit [DecidableEq B] in
/-- What the driver services is in order. -/
theorem ordered_of_reports
    (hView : preprocessFaultBatch S lookup (fetched V earlier mayFilter reports) = some view)
    (hApart : ∀ report ∈ reports, report.isFatal = true → ∀ blk, ¬Reported d lookup blk report) :
    d.Ordered view := by
  have hInv := (Batch.after_clean (V := V) earlier).fetchEntries mayFilter reports
  obtain ⟨hPerm, hSorted, -⟩ := preprocessFaultBatch_some S hInv hView
  have hReport : ∀ e ∈ view, ∃ report ∈ reports, report.aligned = e.toReport ∧
      e.vaSpace = lookup report.context := by
    intro e he
    obtain ⟨r, hr, rfl⟩ := List.mem_map.mp (hPerm.mem_iff.mp he)
    obtain ⟨j, hj⟩ := List.mem_iff_getElem?.mp (List.mem_of_mem_filter hr)
    obtain ⟨report, hMem, hEq⟩ := hInv.report_of hj
    exact ⟨report, hMem, hEq, (congrArg (fun r : Report => lookup r.context) hEq).symm⟩
  refine ⟨hSorted, fun e he => ?_, fun e he hFatal blk hContains => ?_⟩
  · obtain ⟨report, -, hEq, -⟩ := hReport e he
    rw [← hEq]
    exact Nat.dvd_mul_left _ _
  · obtain ⟨report, hMem, hEq, hSpace⟩ := hReport e he
    rw [← hEq] at hFatal
    refine hApart report hMem hFatal blk ⟨hSpace ▸ hContains.space, ?_, ?_⟩
    · rw [hEq]
      exact hContains.start
    · rw [hEq]
      exact hContains.bound

variable {s : BatchState V B g n} {attempts : List (List (Attempt g n))} {fuel : Nat}

/-- A batch of which nothing has been serviced before. -/
theorem handled_of_ordered {P : B → Uvm.Block g n → Prop}
    (hStep : ∀ blk req b, req.processor = .gpu d.gpu → P blk b →
      P blk (serviceResidency (d.managed blk).range req b).1)
    (hOrdered : d.Ordered view) (hStart : s.visited = []) (hP : ∀ blk, P blk (s.blocks blk))
    (hOk : (serviceFaultBatch d fuel attempts 0 none s view).2.2 = true) :
    Handled d P (fun a => ∃ asked ∈ attempts, a ∈ asked) view s view
      (serviceFaultBatch d fuel attempts 0 none s view) := by
  refine (serviceFaultBatch_rounds ..).handled hStep (fun asked hAsked a ha => ⟨asked, hAsked, ha⟩) hOrdered
    rfl ?_ ?_ hP hOk
  · exact hStart ▸ List.nodup_nil
  · rw [hStart]
    exact fun _ hNone => absurd hNone List.not_mem_nil

/-- A managed block of two pages, the first of which is on the GPU. -/
def pageBlock : ManagedBlock Nat 1 where
  space := 0
  start := 4096
  range := Uvm.plainRange
  permissions := ⟨false, false, fun _ => .readWriteAtomic, fun _ => true, true⟩
  aligned := ⟨1, rfl⟩

def pageDriver : Driver Nat Unit 1 2 where
  gpu := ⟨0, Nat.one_pos⟩
  gpuVaSpace := fun _ => true
  managed := fun _ => pageBlock
  find := fun space address =>
    if space = 0 ∧ 4096 ≤ address ∧ address < 12288 then .ok () else .error .invalidAddress
  find_holds := fun space address _ hFind => by
    split at hFind
    · rename_i hHolds
      exact ⟨hHolds.1.symm, hHolds.2⟩
    · cases hFind
  disjoint := fun _ _ _ _ _ _ _ _ => rfl
  replayPerVaBlock := false

/-- Nothing of a batch is serviced yet. -/
def unserviced : BatchState Nat Unit 1 2 where
  scan := ⟨⟨0, 0, false, none, ∅⟩, ⟨∅, fun _ => ∅, 0, ∅, 0, ∅, fun _ => .prefetch, 0, 0, 0⟩⟩
  blocks := fun _ => Uvm.splitBlock
  visited := []
  numReplays := 0

/-- Pages become resident on the GPU. -/
def localAttempt : Attempt 1 2 where
  hint := fun _ => .none
  select := fun _ _ _ => (.gpu ⟨0, Nat.one_pos⟩, false)
  prefetchHint := none
  base := Uvm.writeFault
  retry := false

/-- A write that the GPU repeats, and a read outside the managed blocks. -/
def pageReports : List Report :=
  [⟨1, 0, 0, 4100, .read, false⟩, ⟨1, 0, 0, 4104, .write, false⟩, ⟨1, 0, 1, 65536, .read, false⟩]

/-- The ordered view of these faults. -/
def pageView : List (Entry Nat) :=
  (preprocessFaultBatch (KernelSort.stable _) (fun _ => some 0) (fetched Nat [] true pageReports)).getD []

theorem pageView_eq : preprocessFaultBatch (KernelSort.stable _) (fun _ => some 0)
    (fetched Nat [] true pageReports) = some pageView := by
  have hSome : (preprocessFaultBatch (KernelSort.stable _) (fun _ => some 0)
      (fetched Nat [] true pageReports)).isSome = true := by decide +kernel
  rw [pageView, ← Option.get_eq_getD _ (h := hSome), Option.some_get]

theorem pageReports_apart : ∀ report ∈ pageReports, report.isFatal = true → ∀ blk,
    ¬Reported pageDriver (fun _ => some 0) blk report := by
  intro report hMem hFatal
  have hNone : ∀ report ∈ pageReports, report.isFatal = false := by decide
  rw [hNone report hMem] at hFatal
  cases hFatal

omit [LinearOrder V] [DecidableEq B] in
/-- The outcome of a write fault on a guarded block. -/
theorem Outcome.recorded {P : B → Uvm.Block g n → Prop} {Answers : Attempt g n → Prop}
    {blocks : B → Uvm.Block g n} {e e' : Entry V} {blk : B}
    (h : Outcome d P Answers view blocks e e') (hContains : (d.managed blk).Contains n e)
    (hNormal : e.isFatal = false) (hGpu : d.gpuVaSpace (d.managed blk).space = true)
    (hFind : d.find (d.managed blk).space e.faultAddress = .ok blk)
    (hGuarded : ∀ b, P blk b → Guarded b) (hWrite : .write ≤ e.accessType)
    (hPermits : (d.managed blk).permissions.check e.faultAddress e.accessType = none) :
    (blocks blk).dirty = true ∨ ∃ a, Answers a ∧ ThrottledAt a 0 view e.faultAddress := by
  cases h with
  | fatal hFatal =>
      rw [hNormal] at hFatal
      cases hFatal
  | ignored _ hSpace =>
      rw [hSpace _ hContains.space] at hGpu
      cases hGpu
  | unmapped space status hSpace hFailed =>
      rw [hContains.space, Option.some.injEq] at hSpace
      rw [← hSpace, hFind] at hFailed
      cases hFailed
  | serviced blk' a numRetries c b hAnswers hOther hBlock hJudged hSound hServiced =>
      have hSame : blk' = blk := d.disjoint blk' blk e.faultAddress
        (Option.some.inj (hOther.space.symm.trans hContains.space)) hOther.start hOther.bound
        hContains.start hContains.bound
      subst hSame
      have hGuard := hGuarded b hBlock
      have hProt : Prot.readWrite ≤ e.accessType.toProt := AccessType.toProt_mono hWrite
      have hWritable : e.accessType.toProt.writable = true := decide_eq_true hProt
      have hAfter : ∀ b, b.dirty = true → (serviceLocked (d.managed blk') d.gpu a c b).1.dirty = true :=
        fun b hDirty => serviceLocked_preserves (P := fun b => b.dirty = true)
          (fun _ _ _ h => serviceResidency_keeps_dirty h) hDirty
      rcases hJudged.permitted hPermits with hAuthorized | ⟨hThrottled, -⟩ | hServes
      · -- the GPU could write already, so the block was dirty
        refine .inl ?_
        have hDirty : b.dirty = true := by
          by_contra hClean
          change (if hPage : _ < n then decide (_ ≤ b.prot (.gpu d.gpu) ⟨_, hPage⟩) else false) = true
            at hAuthorized
          split at hAuthorized
          · rename_i hPage
            have hProtected := hGuard.writeProtected (Bool.eq_false_iff.mpr hClean) (.gpu d.gpu) ⟨_, hPage⟩
            have hGranted : (b.prot (.gpu d.gpu) ⟨_, hPage⟩).writable = true :=
              decide_eq_true (Nat.le_trans hProt (of_decide_eq_true hAuthorized))
            rw [hProtected] at hGranted
            cases hGranted
          · cases hAuthorized
        have hStays := hAfter b hDirty
        rwa [hServiced] at hStays
      · rw [hJudged.kept.faultAddress] at hThrottled
        exact .inr ⟨a, hAnswers, hThrottled⟩
      · refine .inl ?_
        have hPage : ((d.managed blk').view d.gpu b a).pageIndex e'.faultAddress < n := by
          rw [hJudged.kept.faultAddress]
          change (e.faultAddress - (d.managed blk').start) / pageSize < n
          have hBound := hContains.bound
          have hStart := hContains.start
          exact Nat.div_lt_of_lt_mul (by rw [Nat.mul_comm]; omega)
        have hDirty : (serviceLocked (d.managed blk') d.gpu a c b).1.dirty = true :=
          serviceLocked_dirty hGuard.tracked hPage hServes hWritable (by rw [hServiced])
        rwa [hServiced] at hDirty

end Views

end FlashCkpt.Faults
