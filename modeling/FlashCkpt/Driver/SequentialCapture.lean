import FlashCkpt.Driver.BufferBounds

/-! Ioctl 113, the capture with two DMA buffers and one thread, beside ioctl 115. Both hand over
each run of the same list as its own submission; so they agree in the sizes and the order of all
they return. -/
namespace FlashCkpt.Driver

open ByteImage Crypto Image PingPong Transition

/-- What the calls of ioctl 113 return, what lies in its two slots, and the turns of the copies
and the device. -/
structure SequentialEnv extends CaptureEnv where
  first : Status
  second : Status
  stale : Bool → Slot
  turns : List Turn

/-- The ping-pong loop at its head: the whole run list is one slice. -/
def Worker.whole (stale : Bool → Slot) (nr : Nat) : Worker :=
  Worker.iterate
    { sliceStart := 0
      sliceCount := nr
      cryptoMetaBase := 0
      stage := .start
      slots := fun c => { stale c with act := false }
      plainBuf := []
      status := .ok
      localNt := 0
      numTransfers := 0
      pushes := [] } 0

/-- The double-buffered transfer, as far as the turns lead. -/
def runSequential (job : Job) (env : SequentialEnv) (before : HandOver) : Option PoolResult :=
  if env.first ≠ .ok then some ⟨some env.first, 0, before, []⟩
  else if env.second ≠ .ok then some ⟨some env.second, 0, before, []⟩
  else if !env.runLists then some ⟨some .noMemory, 0, before, []⟩
  else
    (execute (Components.next (workerProgram job)) ⟨[Worker.whole env.stale job.transfers.length], before⟩
      (env.turns.map fun turn => (0, turn))).map (poolResult job)

/-- The entry that `read_gpu_physical_memory_encrypted` makes without confidential computing. -/
def clearEntry (size : Nat) : CryptoMeta :=
  ⟨size, List.replicate 12 0, 0, List.replicate 16 0, 0⟩

/-- The copies without confidential computing, one after the other. -/
def runClear (env : CaptureEnv) (gpuBuf : Bool) (transfers : List Transfer) : PoolResult where
  status := some (serialCopy env gpuBuf transfers).1
  numTransfers := transfers.length
  handOver :=
    { metas := fun k => match transfers[k]? with
        | some t => clearEntry t.bytes
        | none => env.metas k
      writes := (serialCopy env gpuBuf transfers).2 }
  submissions := []

section Ioctls

variable {Content : Type} (sys : DriverState Content) (p : CaptureParams) (env : SequentialEnv)

/-- Ioctl 113. -/
def readPagesResidentEncryptedV2 : Option (CaptureResult Content) :=
  match p.check sys with
  | some status => some (.stopped env.toCaptureEnv (some status) [] [])
  | none =>
      let s := pass1 (captureCall sys p false env.copyOut env.grows) sys.spaces
      if !env.pageBuf || !env.resmap || !env.gpuPages || !env.cryptoMeta then
        some (.stopped env.toCaptureEnv (some .noMemory) [] [])
      else if s.status ≠ .ok then some (.stopped env.toCaptureEnv (some s.status) s.copies [])
      else
        (if !sys.confComputing || !sys.hasGpu then
          some (runClear env.toCaptureEnv p.gpuBuf (serialRuns env.toCaptureEnv s))
        else runSequential (captureJob .readPagesResidentEncryptedMt p s) env ⟨env.metas, []⟩).map
          (finishCapture .readPagesResidentEncryptedMt p env.toCaptureEnv s)

end Ioctls

/-- The same calls without a failure. -/
def CaptureCall.calm (call : CaptureCall) : CaptureCall :=
  { call with copyOut := fun _ => pageSize, grows := fun _ => true }

namespace Pass1

variable {Content : Type} {call : CaptureCall} {s : Pass1 Content} {v : Nat × Place Content}

theorem copyCpu_calm {content : Content} (h : (s.copyCpu call content).status = .ok) :
    s.copyCpu call content = s.copyCpu call.calm content := by
  have hPage := (copyCpu_ok h).1
  by_cases hBuf : call.cpuBuf = true
  · simp [copyCpu, CaptureCall.calm, hPage hBuf]
  · simp [copyCpu, CaptureCall.calm, hBuf]

theorem record_calm {p : Nat} {f : Frame} (h : (s.record call p f).status = .ok) :
    s.record call p f = s.record call.calm p f := by
  rw [record] at h
  split at h
  · rename_i hRoom
    rw [record, record, if_pos hRoom, if_pos hRoom]
  · rename_i hFull
    split at h
    · rename_i hGrows
      rw [record, record, if_neg hFull, if_neg hFull, if_pos hGrows]
      rfl
    · cases h

/-- A step that succeeds is the step of a calm call. -/
theorem page_calm_eq (h : (s.page call v).status = .ok) : s.page call v = s.page call.calm v := by
  have hOk := (page_ok h).1
  have hSame : call.calm.found v.2 = call.found v.2 := rfl
  cases hFound : call.found v.2 with
  | cpu content =>
      rw [page_cpu hOk hFound] at h ⊢
      rw [page_cpu hOk (hSame.trans hFound)]
      exact copyCpu_calm h
  | gpu f =>
      rw [page_gpu hOk hFound] at h ⊢
      rw [page_gpu hOk (hSame.trans hFound)]
      exact record_calm h
  | nothing =>
      rw [page_nothing hFound, page_nothing (hSame.trans hFound)]

theorem foldl_calm_eq (visited : List (Nat × Place Content))
    (h : (visited.foldl (page call) s).status = .ok) :
    visited.foldl (page call) s = visited.foldl (page call.calm) s := by
  induction visited generalizing s with
  | nil => rfl
  | cons v rest ih =>
      have hNext : (s.page call v).status = .ok := (foldl_ok (s := s.page call v) h).1
      rw [List.foldl_cons, List.foldl_cons, ← page_calm_eq hNext]
      exact ih h

end Pass1

section Agree

variable {Content : Type} {which : MtIoctl} {sys : DriverState Content} {p : CaptureParams}
variable {copyOut : Nat → Nat} {grows : Nat → Bool}

/-- Two first passes that succeed have the same results. -/
theorem pass1_eq_calm
    (hOk : (pass1 (captureCall sys p which.dirtyOnly copyOut grows) sys.spaces).status = .ok) :
    pass1 (captureCall sys p which.dirtyOnly copyOut grows) sys.spaces =
      pass1 (calmCall which sys p) sys.spaces := by
  have hSpace : findSpace (captureCall sys p which.dirtyOnly copyOut grows) sys.spaces =
    findSpace (calmCall which sys p) sys.spaces := rfl
  rw [pass1, hSpace] at hOk ⊢
  rw [pass1]
  cases hFind : findSpace (calmCall which sys p) sys.spaces with
  | none =>
      rw [hFind] at hOk
      cases hOk
  | some space =>
      rw [hFind] at hOk
      exact Pass1.foldl_calm_eq _ hOk

/-- The results of a capture that came to its end. -/
structure Finished (p : CaptureParams) (s : Pass1 Content) (r : PoolResult)
    (out : CaptureResult Content) : Prop where
  workers : r.status = some .ok
  cpuCopies : out.cpuCopies = s.copies
  gpuWrites : out.gpuWrites = r.handOver.writes
  resmap : out.resmap = s.resmap
  metas : out.metas = r.handOver.metas
  cpuBytesOut : out.cpuBytesOut = s.cpuOff
  gpuBytesOut : out.gpuBytesOut = s.gpuPages.length * pageSize
  numPages : out.numPages = p.length / pageSize
  numTransfers : out.numTransfers = r.numTransfers
  submissions : out.submissions = r.submissions

theorem finished_of_ok {env : CaptureEnv} {s : Pass1 Content} {r : PoolResult}
    (hOk : (finishCapture which p env s r).status = some .ok) :
    Finished p s r (finishCapture which p env s r) := by
  rw [finishCapture] at hOk ⊢
  dsimp only at hOk ⊢
  split at hOk
  · rename_i hStatus
    exact absurd hOk hStatus
  · rename_i hStatus
    rw [if_neg hStatus]
    split at hOk
    · cases hOk
    · rename_i hMap
      rw [if_neg hMap]
      split at hOk
      · cases hOk
      · rename_i hRoom
        rw [if_neg hRoom]
        split at hOk
        · cases hOk
        · rename_i hMeta
          rw [if_neg hMeta]
          exact ⟨not_not.mp hStatus, rfl, rfl, rfl, rfl, rfl, rfl, rfl, rfl, rfl⟩

theorem captureJob_transfers (which : MtIoctl) (p : CaptureParams) (s : Pass1 Content) :
    (captureJob which p s).transfers = transfersFrom 0 (buildRuns s.gpuPages) := rfl

theorem pass2_complete {env : CaptureEnv} {s : Pass1 Content} {r : PoolResult}
    (h : pass2 which p env s = some r) (hOk : r.status = some .ok) :
    r.Complete (captureJob which p s) := by
  rw [pass2] at h
  split at h
  · rename_i hNone
    cases h
    have hEmpty : (captureJob which p s).transfers = [] := by
      rw [captureJob_transfers, List.isEmpty_iff.mp hNone]
      rfl
    constructor
    · exact (congrArg List.length hEmpty).symm
    · exact (congrArg List.length hEmpty).symm
    · intro i t ht
      rw [hEmpty] at ht
      cases ht
  · split at h
    · cases h
      cases hOk
    · exact runWorkers_complete (apart_transfersFrom _ _ _) h hOk

theorem inv_whole (job : Job) (stale : Bool → Slot) (before : HandOver) :
    Components.State.Holds ⟨[Worker.whole stale job.transfers.length], before⟩
      (Worker.Inv job 1) := by
  intro k w hw
  cases k with
  | zero =>
      cases hw
      have hOk : (Worker.whole stale job.transfers.length).status = .ok := Worker.iterate_status _ _
      have hSlice : (Worker.whole stale job.transfers.length).sliceStart = 0 ∧
          (Worker.whole stale job.transfers.length).sliceCount = job.transfers.length := by
        rw [Worker.whole, Worker.iterate]
        split <;> exact ⟨rfl, rfl⟩
      refine ⟨Nat.one_pos, ?_, ?_, fun _ => ?_, fun hNot => absurd hOk hNot⟩
      · exact hSlice.1
      · rw [hSlice.2, Shares.size_one]
      · exact Worker.good_iterate (core_nil job before (fun _ => rfl) rfl) rfl (Nat.zero_le _)
  | succ k => cases hw

theorem runSequential_complete {job : Job} (hApart : job.Apart) {env : SequentialEnv}
    {before : HandOver} {r : PoolResult} (h : runSequential job env before = some r)
    (hOk : r.status = some .ok) : r.Complete job := by
  rw [runSequential] at h
  split at h
  · rename_i hFirst
    cases h
    exact absurd (Option.some.inj hOk) hFirst
  · split at h
    · rename_i hSecond
      cases h
      exact absurd (Option.some.inj hOk) hSecond
    · split at h
      · cases h
        cases hOk
      · obtain ⟨last, hRun, rfl⟩ := Option.map_eq_some_iff.mp h
        apply complete_of_holds Nat.one_pos ?_ ?_ hOk
        · exact Components.parts_length _ hRun
        · exact (inv_keeps hApart 1).execute _ (inv_whole job env.stale before) hRun

/-- What ioctl 115 has behind a success. -/
theorem mtIoctl_ok {env : CaptureEnv} {out : CaptureResult Content}
    (h : mtIoctl .readPagesResidentEncryptedMt sys p env = some out) (hOk : out.status = some .ok) :
    sys.confComputing = true ∧ sys.hasGpu = true ∧
      let s := pass1 (calmCall .readPagesResidentEncryptedMt sys p) sys.spaces
      s.gpuPages = gpuRecords .readPagesResidentEncryptedMt sys p ∧ ∃ r : PoolResult,
        r.Complete (captureJob .readPagesResidentEncryptedMt p s) ∧ Finished p s r out := by
  rw [mtIoctl] at h
  cases hRejected : rejected .readPagesResidentEncryptedMt sys p with
  | some status =>
      rw [hRejected] at h
      cases h
      exact absurd (Option.some.inj hOk) (rejected_ne_ok hRejected)
  | none =>
      rw [hRejected] at h
      dsimp only at h
      split at h
      · rename_i hConf
        refine ⟨hConf, ?_⟩
        rw [mtCapture] at h
        split at h
        · cases h
          cases hOk
        · split at h
          · rename_i hNot
            cases h
            exact absurd (Option.some.inj hOk) hNot
          · rename_i hPass1
            have hRecords := (pass1_captured (not_not.mp hPass1)).2
            rw [pass1_eq_calm (not_not.mp hPass1)] at h hRecords
            split at h
            · cases h
              cases hOk
            · rename_i hGpu
              refine ⟨by simpa using hGpu, ?_⟩
              split at h
              · cases h
                cases hOk
              · obtain ⟨r, hr, rfl⟩ := Option.map_eq_some_iff.mp h
                have hFinished := finished_of_ok hOk
                exact ⟨hRecords, r, pass2_complete hr hFinished.workers, hFinished⟩
      · rename_i hConf
        have hPlain := plaintext_of_not_rejected hRejected (Bool.not_eq_true _ ▸ hConf)
        cases hPlain

/-- So has ioctl 113, with confidential computing and a GPU. -/
theorem readPagesResidentEncryptedV2_ok {env : SequentialEnv} {out : CaptureResult Content}
    (hConf : sys.confComputing = true) (hGpu : sys.hasGpu = true)
    (h : readPagesResidentEncryptedV2 sys p env = some out) (hOk : out.status = some .ok) :
    ∃ r : PoolResult,
      let s := pass1 (calmCall .readPagesResidentEncryptedMt sys p) sys.spaces
      r.Complete (captureJob .readPagesResidentEncryptedMt p s) ∧ Finished p s r out := by
  rw [readPagesResidentEncryptedV2] at h
  cases hCheck : p.check sys with
  | some status =>
      rw [hCheck] at h
      cases h
      exact absurd (Option.some.inj hOk) (check_ne_ok hCheck)
  | none =>
      rw [hCheck] at h
      dsimp only at h
      split at h
      · cases h
        cases hOk
      · split at h
        · rename_i hNot
          cases h
          exact absurd (Option.some.inj hOk) hNot
        · rename_i hPass1
          have hFirst : (pass1 (captureCall sys p MtIoctl.readPagesResidentEncryptedMt.dirtyOnly
            env.copyOut env.grows) sys.spaces).status = .ok := not_not.mp hPass1
          have hSame : pass1 (captureCall sys p false env.copyOut env.grows) sys.spaces =
            pass1 (calmCall .readPagesResidentEncryptedMt sys p) sys.spaces := pass1_eq_calm hFirst
          rw [hSame, hConf, hGpu] at h
          obtain ⟨r, hr, rfl⟩ := Option.map_eq_some_iff.mp h
          have hFinished := finished_of_ok hOk
          exact ⟨r, runSequential_complete (apart_transfersFrom _ _ _) hr hFinished.workers, hFinished⟩

end Agree

section Statements

variable {Content : Type} (sys : DriverState Content) (p : CaptureParams)

/-- The run list of a capture. -/
def capturedRuns : List Transfer :=
  transfersFrom 0 (buildRuns (gpuRecords .readPagesResidentEncryptedMt sys p))

/-- Run `r` is handed over as submission `r`: its entry, and its slice of the caller's buffer. -/
def RunHandedOver (out : CaptureResult Content) (r : Nat) (t : Transfer) : Prop :=
  ∃ sub cipher tag, out.submissions[r]? = some sub ∧ sub.source = t.source ∧
    sub.bytes = t.bytes ∧ sub.result = some (cipher, tag) ∧ cipher.length = t.bytes ∧
    out.metas r = ⟨t.bytes, sub.iv, sub.fresh, tag, sub.keyVersion⟩ ∧
    (p.gpuBuf = true → Landed out.gpuWrites ⟨t.offset, cipher⟩)

/-- Each run is handed over once, in the order of the list. -/
structure CarriesRuns (out : CaptureResult Content) : Prop where
  numTransfers : out.numTransfers = (capturedRuns sys p).length
  submitted : out.submissions.length = (capturedRuns sys p).length
  handedOver : ∀ r t, (capturedRuns sys p)[r]? = some t → RunHandedOver p out r t

/-- Two captures have the same sizes and order. -/
structure SameShape (out out' : CaptureResult Content) : Prop where
  numTransfers : out.numTransfers = out'.numTransfers
  sizes : ∀ r < out.numTransfers, (out.metas r).size = (out'.metas r).size
  order : out.submissions.map (fun sub => (sub.source, sub.bytes)) =
    out'.submissions.map fun sub => (sub.source, sub.bytes)
  resmap : out.resmap = out'.resmap
  cpuCopies : out.cpuCopies = out'.cpuCopies
  cpuBytesOut : out.cpuBytesOut = out'.cpuBytesOut
  gpuBytesOut : out.gpuBytesOut = out'.gpuBytesOut
  numPages : out.numPages = out'.numPages

end Statements

section Results

variable {Content : Type} {sys : DriverState Content} {p : CaptureParams}
variable {s : Pass1 Content} {r r' : PoolResult} {out out' : CaptureResult Content}

theorem carriesRuns_of_complete (hRecords : s.gpuPages = gpuRecords .readPagesResidentEncryptedMt sys p)
    (hComplete : r.Complete (captureJob .readPagesResidentEncryptedMt p s))
    (hFinished : Finished p s r out) : CarriesRuns sys p out := by
  have hRuns : (captureJob .readPagesResidentEncryptedMt p s).transfers = capturedRuns sys p := by
    rw [captureJob_transfers, hRecords]
    rfl
  obtain ⟨hNum, hSubmitted, hDelivered⟩ := hComplete
  rw [hRuns] at hNum hSubmitted hDelivered
  refine ⟨hFinished.numTransfers.trans hNum, ?_, fun i t ht => ?_⟩
  · rw [hFinished.submissions, hSubmitted]
  · obtain ⟨sub, hSub, hSource, hBytes, ⟨cipher, tag, hResult, hLength, hCipher⟩, -⟩ :=
      hDelivered i t ht
    obtain ⟨hEntry, hLanded⟩ := hCipher rfl
    refine ⟨sub, cipher, tag, ?_, hSource, hBytes, hResult, hLength, ?_, ?_⟩
    · rw [hFinished.submissions, hSub]
    · rw [hFinished.metas, hEntry, ← hBytes]
      rfl
    · rw [hFinished.gpuWrites]
      exact hLanded

/-- Submissions of the runs, in order. -/
theorem CarriesRuns.order (h : CarriesRuns sys p out) :
    out.submissions.map (fun sub => (sub.source, sub.bytes)) =
      (capturedRuns sys p).map fun t => (t.source, t.bytes) := by
  apply List.ext_getElem?
  intro i
  rw [List.getElem?_map, List.getElem?_map]
  cases hRun : (capturedRuns sys p)[i]? with
  | none =>
      rw [List.getElem?_eq_none_iff] at hRun
      rw [List.getElem?_eq_none (h.submitted ▸ hRun)]
      rfl
  | some t =>
      obtain ⟨sub, -, -, hSub, hSource, hBytes, -⟩ := h.handedOver i t hRun
      rw [hSub, Option.map_some, Option.map_some, hSource, hBytes]

theorem CarriesRuns.size (h : CarriesRuns sys p out) {i : Nat} {t : Transfer}
    (ht : (capturedRuns sys p)[i]? = some t) : (out.metas i).size = t.bytes := by
  obtain ⟨sub, cipher, tag, -, -, -, -, -, hEntry, -⟩ := h.handedOver i t ht
  rw [hEntry]

/-- Captures of the same runs have the same shape. -/
theorem sameShape (h : CarriesRuns sys p out) (h' : CarriesRuns sys p out')
    (hFinished : Finished p s r out) (hFinished' : Finished p s r' out') : SameShape out out' where
  numTransfers := h.numTransfers.trans h'.numTransfers.symm
  sizes := by
    intro i hi
    rw [h.numTransfers] at hi
    have ht := List.getElem?_eq_getElem hi
    rw [h.size ht, h'.size ht]
  order := h.order.trans h'.order.symm
  resmap := hFinished.resmap.trans hFinished'.resmap.symm
  cpuCopies := hFinished.cpuCopies.trans hFinished'.cpuCopies.symm
  cpuBytesOut := hFinished.cpuBytesOut.trans hFinished'.cpuBytesOut.symm
  gpuBytesOut := hFinished.gpuBytesOut.trans hFinished'.gpuBytesOut.symm
  numPages := hFinished.numPages.trans hFinished'.numPages.symm

/-- Ioctl 115 hands over each run of its list with its own submission, whatever the number of
threads and the turns; a capture of the same pages by ioctl 113 has the same shape. -/
theorem encryptedMt_carries_runs {env : CaptureEnv} {out : CaptureResult Content}
    (h : mtIoctl .readPagesResidentEncryptedMt sys p env = some out) (hOk : out.status = some .ok) :
    CarriesRuns sys p out ∧ ∀ (env' : SequentialEnv) (out' : CaptureResult Content),
      readPagesResidentEncryptedV2 sys p env' = some out' → out'.status = some .ok →
        SameShape out out' := by
  obtain ⟨hConf, hGpu, hRecords, r, hComplete, hFinished⟩ := mtIoctl_ok h hOk
  have hCarries := carriesRuns_of_complete hRecords hComplete hFinished
  refine ⟨hCarries, fun env' out' h' hOk' => ?_⟩
  obtain ⟨r', hComplete', hFinished'⟩ := readPagesResidentEncryptedV2_ok hConf hGpu h' hOk'
  have hCarries' := carriesRuns_of_complete hRecords hComplete' hFinished'
  exact sameShape hCarries hCarries' hFinished hFinished'

/-- Two pages on the GPU, in frames that do not follow each other. -/
def twoFrames : DriverState Nat where
  capable := true
  confComputing := true
  hasGpu := true
  spaces := [⟨[⟨true, 0, 2, [⟨0, 2, fun p => .gpu ⟨.vid, 2 * p * pageSize⟩, true, true⟩], by decide,
    by decide⟩], by decide⟩]

def twoThreads : CaptureParams where
  base := 0
  length := 2 * pageSize
  cpuBuf := false
  cpuBufSize := 0
  gpuBuf := true
  gpuBufSize := 2 * pageSize
  residencyMap := true
  cryptoMeta := true
  cryptoMetaSize := 2 * cryptoMetaSize
  numThreads := 2
  inside := by decide

def sealedPage : Bytes := List.replicate pageSize 9

/-- The workers take turns; the second one is ahead. -/
def crossedEnv : CaptureEnv :=
  { calmEnv twoThreads
      [(1, .alloc true .ok .ok), (0, .alloc true .ok .ok), (1, .submit .ok [1] 1 7),
        (0, .submit .ok [0] 1 7), (1, .device 0 sealedPage [5]), (0, .device 0 sealedPage [6]),
        (0, .wait .ok .other []), (1, .wait .ok .other []), (1, .copy pageSize),
        (0, .copy pageSize)] with metaCopied := 2 * cryptoMetaSize }

/-- Both runs are submitted before the first one is handed over. -/
def overlappedEnv : SequentialEnv :=
  { crossedEnv with
    first := .ok
    second := .ok
    stale := fun _ => ⟨false, 0, 0, 0, 0, [], 0, 0, [], []⟩
    turns := [.submit .ok [2] 1 7, .submit .ok [3] 1 7, .device 1 sealedPage [4],
      .device 0 sealedPage [7], .wait .ok .other [], .copy pageSize, .wait .ok .other [],
      .copy pageSize] }

theorem crossed_ends : ((mtIoctl .readPagesResidentEncryptedMt twoFrames twoThreads crossedEnv).map
    fun out => (out.status, out.numTransfers)) = some (some .ok, 2) := by
  decide +kernel

theorem overlapped_ends : ((readPagesResidentEncryptedV2 twoFrames twoThreads overlappedEnv).map
    fun out => out.status) = some (some .ok) := by
  decide +kernel

theorem encryptedMt_carries_runs_crossed : ∃ out out',
    mtIoctl .readPagesResidentEncryptedMt twoFrames twoThreads crossedEnv = some out ∧
      readPagesResidentEncryptedV2 twoFrames twoThreads overlappedEnv = some out' ∧
      out.numTransfers = 2 ∧ CarriesRuns twoFrames twoThreads out ∧ SameShape out out' := by
  obtain ⟨out, hRun, hEnds⟩ := Option.map_eq_some_iff.mp crossed_ends
  obtain ⟨out', hRun', hOk'⟩ := Option.map_eq_some_iff.mp overlapped_ends
  obtain ⟨hOk, hTwo⟩ := Prod.mk.injEq .. ▸ hEnds
  obtain ⟨hCarries, hShape⟩ := encryptedMt_carries_runs hRun hOk
  exact ⟨out, out', hRun, hRun', hTwo, hCarries, hShape overlappedEnv out' hRun' hOk'⟩

end Results

end FlashCkpt.Driver
