import FlashCkpt.Driver.MtCapture

/-! What ioctls 114, 115 and 116 write to the buffers of their caller. The capacity of the
metadata is compared with what is to be copied; the capacities of the CPU and the GPU buffer are
parameters that nothing reads. -/
namespace FlashCkpt.Driver

open ByteImage Crypto Image

/-- Every byte of a copy lies in a buffer of this size. -/
def InBuffer (size off n : Nat) : Prop := ∀ i < n, off + i < size

section Statements

variable {Content : Type} (which : MtIoctl) (sys : DriverState Content) (p : CaptureParams)

structure StaysInside (out : CaptureResult Content) : Prop where
  cpu : ∀ c ∈ out.cpuCopies, InBuffer p.cpuBufSize c.offset c.delivered
  gpu : ∀ w ∈ out.gpuWrites, InBuffer p.gpuBufSize w.off w.bytes.length
  cryptoMeta : out.metaWritten ≤ p.cryptoMetaSize

/-- Pass 1 with calls that succeed. -/
def calmCall : CaptureCall := captureCall sys p which.dirtyOnly (fun _ => pageSize) fun _ => true

/-- The pages that are captured, with their places. -/
def captured : List (Nat × Place Content) :=
  match findSpace (calmCall which sys p) sys.spaces with
  | none => []
  | some space => space.visited (calmCall which sys p)

def isCpu (v : Nat × Place Content) : Bool :=
  match v.2.found with
  | .cpu _ => true
  | _ => false

/-- The CPU pages among them. -/
def cpuPages : Nat := (captured which sys p).countP isCpu

/-- The GPU pages among them, with their frames. -/
def gpuRecords : List (Nat × Frame) := (captured which sys p).flatMap (calmCall which sys p).records

/-- The captured pages fit the buffers that the caller has given. -/
structure Fits : Prop where
  cpu : p.cpuBuf = true → cpuPages which sys p * pageSize ≤ p.cpuBufSize
  gpu : p.gpuBuf = true → (gpuRecords which sys p).length * pageSize ≤ p.gpuBufSize

/-- So do the entries of their runs. -/
structure AllFits : Prop extends Fits which sys p where
  cryptoMeta : which.isCiphertext = true → p.cryptoMeta = true →
    (buildRuns (gpuRecords which sys p)).length * cryptoMetaSize ≤ p.cryptoMetaSize

/-- Whatever the calls on the way return, and at any time, the driver has written to the buffers
only; it returns NV_OK only if all fits. -/
def KeepsToBuffers : Prop :=
  ∀ env out, mtIoctl which sys p env = some out →
    StaysInside p out ∧ (out.status = some .ok → AllFits which sys p)

end Statements

namespace Pass1

variable {Content : Type} {call : CaptureCall} {s : Pass1 Content} {v : Nat × Place Content}

theorem page_stopped (h : s.status ≠ .ok) : s.page call v = s := if_pos h

theorem page_cpu (hOk : s.status = .ok) {content : Content} (hFound : call.found v.2 = .cpu content) :
    s.page call v =
      { s with resmap := s.resmap.set (v.1 - call.base) .cpu }.copyCpu call content := by
  rw [page, if_neg (not_not_intro hOk), hFound]

theorem page_gpu (hOk : s.status = .ok) {f : Frame} (hFound : call.found v.2 = .gpu f) :
    s.page call v =
      { s with resmap := s.resmap.set (v.1 - call.base) .gpu }.record call v.1 f := by
  rw [page, if_neg (not_not_intro hOk), hFound]

theorem page_nothing (hFound : call.found v.2 = .nothing) : s.page call v = s := by
  rw [page, hFound]
  split <;> rfl

theorem isCpu_eq (call : CaptureCall) (v : Nat × Place Content) :
    isCpu v = match call.found v.2 with
      | .cpu _ => true
      | _ => false := by
  rw [isCpu, CaptureCall.found]
  cases v.2.found with
  | gpu f => cases call.hasGpu <;> rfl
  | cpu content => rfl
  | nothing => rfl

/-- A record leaves the CPU side as it is. -/
theorem record_cpu (p : Nat) (f : Frame) : (s.record call p f).copies = s.copies ∧
    (s.record call p f).cpuOff = s.cpuOff := by
  rw [record]
  split
  · exact ⟨rfl, rfl⟩
  · split <;> exact ⟨rfl, rfl⟩

/-- The copies so far are those of the first `n` CPU pages, if there is a buffer. -/
structure Below (call : CaptureCall) (n : Nat) (s : Pass1 Content) : Prop where
  null : call.cpuBuf = false → s.copies = []
  cpuOff : s.cpuOff ≤ n * pageSize
  copies : ∀ c ∈ s.copies, c.offset + pageSize ≤ n * pageSize ∧ c.delivered ≤ pageSize

theorem Below.mono {m n : Nat} (h : Below call n s) (hLe : n ≤ m) : Below call m s := by
  have hBytes := Nat.mul_le_mul_right pageSize hLe
  refine ⟨h.null, Nat.le_trans h.cpuOff hBytes, fun c hc => ?_⟩
  obtain ⟨hEnd, hDelivered⟩ := h.copies c hc
  exact ⟨Nat.le_trans hEnd hBytes, hDelivered⟩

theorem Below.copyCpu {n : Nat} (h : Below call n s) (content : Content) :
    Below call (n + 1) (s.copyCpu call content) := by
  have hOff := h.cpuOff
  have hNext : s.cpuOff + pageSize ≤ (n + 1) * pageSize := by
    rw [Nat.succ_mul]
    omega
  have hCopies : ∀ c ∈ s.copies ++ [⟨s.cpuOff, content, min (call.copyOut s.cpuOff) pageSize⟩],
      c.offset + pageSize ≤ (n + 1) * pageSize ∧ c.delivered ≤ pageSize := by
    intro c hc
    rcases List.mem_append.mp hc with hOld | hNew
    · exact (h.mono (Nat.le_succ n)).copies c hOld
    · rw [List.mem_singleton.mp hNew]
      exact ⟨hNext, Nat.min_le_right _ _⟩
  rw [Pass1.copyCpu]
  split
  · rename_i hBuf
    have hGiven : call.cpuBuf ≠ false := ne_false_of_eq_true hBuf
    dsimp only
    split
    · refine ⟨fun hNull => absurd hNull hGiven, ?_, hCopies⟩
      exact Nat.le_trans (Nat.le_add_right _ _) hNext
    · exact ⟨fun hNull => absurd hNull hGiven, hNext, hCopies⟩
  · exact ⟨h.null, hNext, (h.mono (Nat.le_succ n)).copies⟩

theorem Below.record {n : Nat} (h : Below call n s) (p : Nat) (f : Frame) :
    Below call n (s.record call p f) := by
  obtain ⟨hCopies, hOff⟩ : (s.record call p f).copies = s.copies ∧
    (s.record call p f).cpuOff = s.cpuOff := record_cpu p f
  refine ⟨?_, ?_, ?_⟩
  · rw [hCopies]
    exact h.null
  · rw [hOff]
    exact h.cpuOff
  · rw [hCopies]
    exact h.copies

theorem Below.page {n : Nat} (h : Below call n s) :
    Below call (n + if isCpu v then 1 else 0) (s.page call v) := by
  by_cases hOk : s.status = .ok
  · rw [isCpu_eq call]
    cases hFound : call.found v.2 with
    | cpu content =>
        rw [page_cpu hOk hFound]
        have hSame : Below call n { s with resmap := s.resmap.set (v.1 - call.base) .cpu } :=
          ⟨h.null, h.cpuOff, h.copies⟩
        exact hSame.copyCpu content
    | gpu f =>
        rw [page_gpu hOk hFound]
        have hSame : Below call n { s with resmap := s.resmap.set (v.1 - call.base) .gpu } :=
          ⟨h.null, h.cpuOff, h.copies⟩
        exact hSame.record v.1 f
    | nothing =>
        rw [page_nothing hFound]
        exact h
  · rw [page_stopped hOk]
    exact h.mono (Nat.le_add_right _ _)

theorem Below.foldl {n : Nat} (h : Below call n s) (visited : List (Nat × Place Content)) :
    Below call (n + visited.countP isCpu) (visited.foldl (Pass1.page call) s) := by
  induction visited generalizing n s with
  | nil => exact h
  | cons v rest ih =>
      rw [List.countP_cons, List.foldl_cons, Nat.add_comm _ (if isCpu v = true then 1 else 0),
        ← Nat.add_assoc]
      exact ih h.page

/-- Behind `n` CPU pages without an error the last of them has been copied as a whole. -/
structure Reaches (call : CaptureCall) (n : Nat) (s : Pass1 Content) : Prop where
  cpuOff : s.cpuOff = n * pageSize
  last : call.cpuBuf = true → n ≠ 0 →
    ∃ c ∈ s.copies, c.offset + pageSize = n * pageSize ∧ c.delivered = pageSize

theorem Reaches.copyCpu {n : Nat} (h : Reaches call n s) {content : Content}
    (hOk : (s.copyCpu call content).status = .ok) :
    Reaches call (n + 1) (s.copyCpu call content) := by
  have hNext : s.cpuOff + pageSize = (n + 1) * pageSize := by rw [h.cpuOff, Nat.succ_mul]
  rw [(copyCpu_ok hOk).2]
  refine ⟨hNext, fun hBuf _ => ?_⟩
  rw [if_pos hBuf]
  exact ⟨_, List.mem_append_right _ List.mem_cons_self, hNext, rfl⟩

theorem Reaches.record {n : Nat} (h : Reaches call n s) (p : Nat) (f : Frame) :
    Reaches call n (s.record call p f) := by
  obtain ⟨hCopies, hOff⟩ : (s.record call p f).copies = s.copies ∧
    (s.record call p f).cpuOff = s.cpuOff := record_cpu p f
  refine ⟨hOff.trans h.cpuOff, ?_⟩
  rw [hCopies]
  exact h.last

theorem Reaches.page {n : Nat} (h : Reaches call n s) (hOk : (s.page call v).status = .ok) :
    Reaches call (n + if isCpu v then 1 else 0) (s.page call v) := by
  have hBefore := (page_ok hOk).1
  rw [isCpu_eq call]
  cases hFound : call.found v.2 with
  | cpu content =>
      rw [page_cpu hBefore hFound] at hOk ⊢
      have hSame : Reaches call n { s with resmap := s.resmap.set (v.1 - call.base) .cpu } :=
        ⟨h.cpuOff, h.last⟩
      exact hSame.copyCpu hOk
  | gpu f =>
      rw [page_gpu hBefore hFound]
      have hSame : Reaches call n { s with resmap := s.resmap.set (v.1 - call.base) .gpu } :=
        ⟨h.cpuOff, h.last⟩
      exact hSame.record v.1 f
  | nothing =>
      rw [page_nothing hFound]
      exact h

theorem Reaches.foldl {n : Nat} (h : Reaches call n s) (visited : List (Nat × Place Content))
    (hOk : (visited.foldl (Pass1.page call) s).status = .ok) :
    Reaches call (n + visited.countP isCpu) (visited.foldl (Pass1.page call) s) := by
  induction visited generalizing n s with
  | nil => exact h
  | cons v rest ih =>
      rw [List.countP_cons, Nat.add_comm _ (if isCpu v = true then 1 else 0), ← Nat.add_assoc]
      exact ih (h.page (foldl_ok (s := s.page call v) hOk).1) hOk

/-- Where all calls succeed, pass 1 does. -/
theorem page_calm (hOut : ∀ off, call.copyOut off = pageSize) (hGrows : ∀ n, call.grows n = true)
    (hOk : s.status = .ok) : (s.page call v).status = .ok := by
  cases hFound : call.found v.2 with
  | cpu content =>
      rw [page_cpu hOk hFound, copyCpu]
      split
      · dsimp only
        rw [hOut, Nat.min_self, if_neg (Nat.lt_irrefl _)]
        exact hOk
      · exact hOk
  | gpu f =>
      rw [page_gpu hOk hFound, record]
      split
      · exact hOk
      · rw [if_pos (hGrows _)]
        exact hOk
  | nothing =>
      rw [page_nothing hFound]
      exact hOk

theorem foldl_calm (hOut : ∀ off, call.copyOut off = pageSize) (hGrows : ∀ n, call.grows n = true)
    (hOk : s.status = .ok) (visited : List (Nat × Place Content)) :
    (visited.foldl (page call) s).status = .ok := by
  induction visited generalizing s with
  | nil => exact hOk
  | cons v rest ih => exact ih (page_calm hOut hGrows hOk)

/-- The array of records has no more than twice the room it needs. -/
def Roomy (bound : Nat) (s : Pass1 Content) : Prop :=
  s.gpuCap ≤ bound ∨ s.gpuCap ≤ 2 * s.gpuPages.length

theorem Roomy.page {bound : Nat} (h : Roomy bound s) : Roomy bound (s.page call v) := by
  by_cases hOk : s.status = .ok
  · cases hFound : call.found v.2 with
    | cpu content =>
        rw [page_cpu hOk hFound, copyCpu]
        split
        · dsimp only
          split <;> exact h
        · exact h
    | gpu f =>
        rw [page_gpu hOk hFound, record]
        dsimp only
        rw [Roomy] at h ⊢
        split
        · simp only [List.length_append, List.length_singleton]
          omega
        · split
          · simp only [List.length_append, List.length_singleton]
            omega
          · exact h
    | nothing =>
        rw [page_nothing hFound]
        exact h
  · rw [page_stopped hOk]
    exact h

theorem Roomy.foldl {bound : Nat} (h : Roomy bound s) (visited : List (Nat × Place Content)) :
    Roomy bound (visited.foldl (Pass1.page call) s) := by
  induction visited generalizing s with
  | nil => exact h
  | cons v rest ih => exact ih h.page

end Pass1

section Pass1Results

variable {Content : Type} {which : MtIoctl} {sys : DriverState Content} {p : CaptureParams}
variable {copyOut : Nat → Nat} {grows : Nat → Bool}

/-- Pass 1 is a walk over the captured pages, if the span is found. -/
theorem pass1_eq (which : MtIoctl) (sys : DriverState Content) (p : CaptureParams)
    (copyOut : Nat → Nat) (grows : Nat → Bool) :
    let call := captureCall sys p which.dirtyOnly copyOut grows
    (captured which sys p = [] ∧
      pass1 call sys.spaces = { Pass1.start call with status := .invalidAddress }) ∨
    pass1 call sys.spaces = (captured which sys p).foldl (Pass1.page call) (Pass1.start call) := by
  intro call
  have hSpace : findSpace call sys.spaces = findSpace (calmCall which sys p) sys.spaces := rfl
  rw [pass1, captured, hSpace]
  cases findSpace (calmCall which sys p) sys.spaces with
  | none => exact .inl ⟨rfl, rfl⟩
  | some space => exact .inr rfl

theorem pass1_below : Pass1.Below (captureCall sys p which.dirtyOnly copyOut grows)
    (cpuPages which sys p)
    (pass1 (captureCall sys p which.dirtyOnly copyOut grows) sys.spaces) := by
  have hStart : ∀ status, Pass1.Below (captureCall sys p which.dirtyOnly copyOut grows) 0
      { (Pass1.start (captureCall sys p which.dirtyOnly copyOut grows) : Pass1 Content) with
        status := status } := fun _ => ⟨fun _ => rfl, Nat.le_refl _, nofun⟩
  rcases pass1_eq which sys p copyOut grows with ⟨-, hNone⟩ | hWalk
  · rw [hNone]
    exact (hStart _).mono (Nat.zero_le _)
  · have hFold := (hStart .ok).foldl (captured which sys p)
    rw [Nat.zero_add] at hFold
    rw [hWalk]
    exact hFold

/-- The results of a first pass that succeeds. -/
theorem pass1_captured
    (hOk : (pass1 (captureCall sys p which.dirtyOnly copyOut grows) sys.spaces).status = .ok) :
    Pass1.Reaches (captureCall sys p which.dirtyOnly copyOut grows) (cpuPages which sys p)
      (pass1 (captureCall sys p which.dirtyOnly copyOut grows) sys.spaces) ∧
    (pass1 (captureCall sys p which.dirtyOnly copyOut grows) sys.spaces).gpuPages =
      gpuRecords which sys p := by
  have hStart : Pass1.Reaches (captureCall sys p which.dirtyOnly copyOut grows) 0
      (Pass1.start (captureCall sys p which.dirtyOnly copyOut grows) : Pass1 Content) :=
    ⟨(Nat.zero_mul _).symm, fun _ hSome => absurd rfl hSome⟩
  rcases pass1_eq which sys p copyOut grows with ⟨-, hNone⟩ | hWalk
  · rw [hNone] at hOk
    cases hOk
  · rw [hWalk] at hOk ⊢
    have hFold := hStart.foldl (captured which sys p) hOk
    rw [Nat.zero_add] at hFold
    exact ⟨hFold, (Pass1.foldl_ok hOk).2⟩

theorem length_le_of_increasing {pages : List Nat} {base n : Nat}
    (hOrder : pages.Pairwise (· < ·)) (hInside : ∀ q ∈ pages, base ≤ q ∧ q < base + n) :
    pages.length ≤ n := by
  have hSubset : pages ⊆ List.range' base n := by
    intro q hq
    exact List.mem_range'_1.mpr (hInside q hq)
  have hNodup : pages.Nodup := hOrder.imp Nat.ne_of_lt
  have hLe := (List.subperm_of_subset hNodup hSubset).length_le
  rwa [List.length_range'] at hLe

theorem captured_length (which : MtIoctl) (sys : DriverState Content) (p : CaptureParams) :
    (captured which sys p).length ≤ p.length / pageSize := by
  rw [captured]
  cases findSpace (calmCall which sys p) sys.spaces with
  | none => exact Nat.zero_le _
  | some space =>
      dsimp only
      rw [← List.length_map Prod.fst]
      have hOrder : (space.visited (calmCall which sys p)).Pairwise fun v w => v.1 < w.1 :=
        space.visited_pairwise
      apply length_le_of_increasing (List.pairwise_map.mpr hOrder)
      intro q hq
      obtain ⟨v, hv, rfl⟩ := List.mem_map.mp hq
      exact space.mem_visited hv

theorem gpuRecords_length (which : MtIoctl) (sys : DriverState Content) (p : CaptureParams) :
    (gpuRecords which sys p).length ≤ p.length / pageSize := by
  refine Nat.le_trans ?_ (captured_length which sys p)
  rw [gpuRecords]
  induction captured which sys p with
  | nil => exact Nat.le_refl _
  | cons v rest ih =>
      have hOne : ((calmCall which sys p).records v).length ≤ 1 := by
        rw [CaptureCall.records]
        split
        · exact Nat.le_refl _
        · exact Nat.zero_le _
      rw [List.flatMap_cons, List.length_append, List.length_cons]
      omega

/-- The array of metadata can always be addressed. -/
theorem gpuCap_le
    (hOk : (pass1 (captureCall sys p which.dirtyOnly copyOut grows) sys.spaces).status = .ok) :
    (pass1 (captureCall sys p which.dirtyOnly copyOut grows) sys.spaces).gpuCap ≤
      (2 ^ 64 - 1) / cryptoMetaSize := by
  have hPages : p.length / pageSize ≤ 2 ^ 52 := by
    have hInside := p.inside
    rw [show pageSize = 2 ^ 12 from rfl]
    omega
  have hRoomy : Pass1.Roomy (2 ^ 52)
      (pass1 (captureCall sys p which.dirtyOnly copyOut grows) sys.spaces) := by
    have hStart : Pass1.Roomy (2 ^ 52)
        (Pass1.start (captureCall sys p which.dirtyOnly copyOut grows) : Pass1 Content) :=
      .inl (Nat.le_trans (Nat.min_le_left _ _) hPages)
    rcases pass1_eq which sys p copyOut grows with ⟨-, hNone⟩ | hWalk
    · rw [hNone]
      exact hStart
    · rw [hWalk]
      exact hStart.foldl _
  have hRecords := gpuRecords_length which sys p
  rw [Pass1.Roomy, (pass1_captured hOk).2] at hRoomy
  rw [show (2 ^ 64 - 1) / cryptoMetaSize = 449920587163647600 by decide]
  omega

end Pass1Results

section Runs

variable {Content : Type} {which : MtIoctl} {sys : DriverState Content} {p : CaptureParams}

/-- The pages of a run list. -/
def runPages (runs : List (Run Nat)) : Nat := (runs.map fun run => run.pages.length).sum

theorem runPages_buildRuns (records : List (Nat × Frame)) :
    runPages (buildRuns records) = records.length := by
  conv_rhs => rw [← buildRuns_copies records]
  rw [runPages, List.length_flatMap]
  congr 1
  apply List.map_congr_left
  intro run _
  rw [Run.copies, List.length_map, List.length_zipIdx]

theorem transfersFrom_end {runs : List (Run Nat)} {k : Nat} {t : Transfer}
    (h : t ∈ transfersFrom k runs) : t.offset + t.bytes ≤ (k + runPages runs) * pageSize := by
  induction runs generalizing k with
  | nil => cases h
  | cons run rest ih =>
      rw [runPages, List.map_cons, List.sum_cons, ← Nat.add_assoc, ← runPages]
      rcases List.mem_cons.mp h with rfl | hRest
      · rw [Transfer.offset, ← Nat.add_mul]
        exact Nat.mul_le_mul_right _ (Nat.le_add_right _ _)
      · exact ih hRest

/-- Some run reaches to the end. -/
theorem exists_last {runs : List (Run Nat)} {k : Nat} (h : runPages runs ≠ 0) :
    ∃ t ∈ transfersFrom k runs, t.offset + t.bytes = (k + runPages runs) * pageSize ∧ 0 < t.bytes := by
  induction runs generalizing k with
  | nil => exact absurd rfl h
  | cons run rest ih =>
      rw [runPages, List.map_cons, List.sum_cons, ← runPages] at h ⊢
      by_cases hRest : runPages rest = 0
      · refine ⟨_, List.mem_cons_self, ?_, ?_⟩
        · rw [Transfer.offset, ← Nat.add_mul, hRest, Nat.add_zero]
        · exact Nat.mul_pos (by omega) (show 0 < pageSize by decide)
      · obtain ⟨t, ht, hEnd, hPos⟩ := ih (k := k + run.pages.length) hRest
        refine ⟨t, List.mem_cons_of_mem _ ht, ?_, hPos⟩
        rw [hEnd, Nat.add_assoc]

end Runs

section Copies

variable {Content : Type} {which : MtIoctl} {sys : DriverState Content} {p : CaptureParams}
variable {env : CaptureEnv}

theorem runPages_singles (records : List (Nat × Frame)) :
    runPages (records.map fun record => ⟨record.2, [record.1]⟩) = records.length := by
  induction records with
  | nil => rfl
  | cons record rest ih =>
      rw [List.map_cons, runPages, List.map_cons, List.sum_cons, ← runPages, ih, List.length_cons]
      exact Nat.add_comm 1 _

theorem serialCopy_within {gpuBuf : Bool} {transfers : List Transfer} {w : Write}
    (hw : w ∈ (serialCopy env gpuBuf transfers).2) : gpuBuf = true ∧
      ∃ t ∈ transfers, w.off = t.offset ∧ w.bytes.length ≤ t.bytes := by
  induction transfers with
  | nil => cases hw
  | cons t rest ih =>
      have hPart : ((((env.read t).2.take t.bytes).take (env.copied t)).length) ≤ t.bytes := by
        rw [List.take_take, List.length_take]
        omega
      have hRest : w ∈ (serialCopy env gpuBuf rest).2 → gpuBuf = true ∧
          ∃ t' ∈ t :: rest, w.off = t'.offset ∧ w.bytes.length ≤ t'.bytes := by
        intro h
        obtain ⟨hBuf, t', ht', hBounds⟩ := ih h
        exact ⟨hBuf, t', List.mem_cons_of_mem t ht', hBounds⟩
      rw [serialCopy] at hw
      split at hw
      · cases hw
      · split at hw
        · rename_i hBuf
          dsimp only at hw
          split at hw
          · rw [List.mem_singleton.mp hw]
            exact ⟨hBuf, t, List.mem_cons_self, rfl, hPart⟩
          · rcases List.mem_cons.mp hw with rfl | hw
            · exact ⟨hBuf, t, List.mem_cons_self, rfl, hPart⟩
            · exact hRest hw
        · exact hRest hw

/-- Where nothing fails every run is copied as a whole. -/
theorem serialCopy_calm (hRead : ∀ t, env.read t = (.ok, List.replicate t.bytes 0))
    (hCopied : ∀ t, env.copied t = t.bytes) (transfers : List Transfer) :
    (serialCopy env true transfers).1 = .ok ∧ ∀ t ∈ transfers,
      ∃ w ∈ (serialCopy env true transfers).2, w.off = t.offset ∧ w.bytes.length = t.bytes := by
  induction transfers with
  | nil => exact ⟨rfl, nofun⟩
  | cons t rest ih =>
      obtain ⟨hOk, hAll⟩ := ih
      have hStep : serialCopy env true (t :: rest) = ((serialCopy env true rest).1,
          ⟨t.offset, List.replicate t.bytes 0⟩ :: (serialCopy env true rest).2) := by
        simp [serialCopy, hRead, hCopied]
      rw [hStep]
      refine ⟨hOk, fun t' ht' => ?_⟩
      rcases List.mem_cons.mp ht' with rfl | ht'
      · exact ⟨_, List.mem_cons_self, rfl, List.length_replicate⟩
      · obtain ⟨w, hw, hSame⟩ := hAll t' ht'
        exact ⟨w, List.mem_cons_of_mem _ hw, hSame⟩

theorem finishCapture_copies (which : MtIoctl) (p : CaptureParams) (env : CaptureEnv)
    (s : Pass1 Content) (r : PoolResult) :
    (finishCapture which p env s r).cpuCopies = s.copies ∧
      (finishCapture which p env s r).gpuWrites = r.handOver.writes := by
  rw [finishCapture]
  dsimp only
  split
  · exact ⟨rfl, rfl⟩
  · split
    · exact ⟨rfl, rfl⟩
    · split
      · exact ⟨rfl, rfl⟩
      · split <;> exact ⟨rfl, rfl⟩

/-- The metadata are the one buffer whose capacity is looked at. -/
theorem finishCapture_metas (which : MtIoctl) (p : CaptureParams) (env : CaptureEnv)
    (s : Pass1 Content) (r : PoolResult) :
    (finishCapture which p env s r).metaWritten ≤ p.cryptoMetaSize ∧
      ((finishCapture which p env s r).status = some .ok → r.status = some .ok ∧
        (which.isCiphertext = true → p.cryptoMeta = true →
          r.numTransfers * cryptoMetaSize ≤ p.cryptoMetaSize)) := by
  rw [finishCapture]
  dsimp only
  split
  · rename_i hStatus
    exact ⟨Nat.zero_le _, fun hOk => absurd hOk hStatus⟩
  · rename_i hStatus
    rw [not_not] at hStatus
    split
    · exact ⟨Nat.zero_le _, nofun⟩
    · split
      · exact ⟨Nat.zero_le _, nofun⟩
      · rename_i hNot
        have hFits : (which.isCiphertext && decide (0 < r.numTransfers) && p.cryptoMeta) = true →
            r.numTransfers * cryptoMetaSize ≤ p.cryptoMetaSize := by
          intro hHas
          rw [hHas, Bool.true_and, decide_eq_true_eq] at hNot
          exact Nat.le_of_not_lt hNot
        split
        · rename_i hPart
          rw [Bool.and_eq_true, decide_eq_true_eq] at hPart
          exact ⟨Nat.le_trans (Nat.le_of_lt hPart.2) (hFits hPart.1), nofun⟩
        · refine ⟨?_, fun _ => ⟨hStatus, fun hMode hMeta => ?_⟩⟩
          · dsimp only
            split
            · rename_i hHas
              exact hFits hHas
            · exact Nat.zero_le _
          · by_cases hSome : 0 < r.numTransfers
            · apply hFits
              rw [hMode, hMeta, decide_eq_true hSome]
              rfl
            · rw [Nat.eq_zero_of_not_pos hSome, Nat.zero_mul]
              exact Nat.zero_le _

end Copies

section Within

variable {Content : Type} {which : MtIoctl} {sys : DriverState Content} {p : CaptureParams}
variable {env : CaptureEnv} {copyOut : Nat → Nat} {grows : Nat → Bool}

theorem copies_within (hFits : Fits which sys p) :
    ∀ c ∈ (pass1 (captureCall sys p which.dirtyOnly copyOut grows) sys.spaces).copies,
      InBuffer p.cpuBufSize c.offset c.delivered := by
  intro c hc i hi
  have hBelow : Pass1.Below (captureCall sys p which.dirtyOnly copyOut grows)
    (cpuPages which sys p)
    (pass1 (captureCall sys p which.dirtyOnly copyOut grows) sys.spaces) := pass1_below
  obtain ⟨hNull, -, hCopies⟩ := hBelow
  cases hBuf : p.cpuBuf with
  | false =>
      rw [hNull hBuf] at hc
      cases hc
  | true =>
      obtain ⟨hEnd, hDelivered⟩ := hCopies c hc
      have hSize := hFits.cpu hBuf
      omega

theorem transfers_within (hFits : Fits which sys p) (hBuf : p.gpuBuf = true)
    {runs : List (Run Nat)} (hPages : runPages runs = (gpuRecords which sys p).length)
    {t : Transfer} (ht : t ∈ transfersFrom 0 runs) {off n : Nat} (hOff : off = t.offset)
    (hn : n ≤ t.bytes) : InBuffer p.gpuBufSize off n := by
  intro i hi
  have hEnd := transfersFrom_end ht
  have hSize := hFits.gpu hBuf
  rw [Nat.zero_add, hPages] at hEnd
  omega

/-- What the workers are given fits, and so does what they copy. -/
theorem pass2_within (hFits : Fits which sys p)
    (hOk : (pass1 (captureCall sys p which.dirtyOnly copyOut grows) sys.spaces).status = .ok)
    {r : PoolResult}
    (h : pass2 which p env
      (pass1 (captureCall sys p which.dirtyOnly copyOut grows) sys.spaces) = some r) :
    ∀ w ∈ r.handOver.writes, InBuffer p.gpuBufSize w.off w.bytes.length := by
  intro w hw
  rw [pass2] at h
  split at h
  · cases h
    cases hw
  · split at h
    · cases h
      cases hw
    · have hApart := apart_transfersFrom
        (buildRuns (pass1 (captureCall sys p which.dirtyOnly copyOut grows) sys.spaces).gpuPages)
        p.gpuBuf which.isCiphertext
      rcases runWorkers_within hApart h hw with hBefore | ⟨hBuf, t, ht, hOff, hLe⟩
      · cases hBefore
      · apply transfers_within hFits hBuf ?_ ht hOff hLe
        rw [runPages_buildRuns, (pass1_captured hOk).2]

/-- Behind a success there is one transfer for each run of the captured GPU pages. -/
theorem pass2_numTransfers
    (hOk : (pass1 (captureCall sys p which.dirtyOnly copyOut grows) sys.spaces).status = .ok)
    {r : PoolResult}
    (h : pass2 which p env
      (pass1 (captureCall sys p which.dirtyOnly copyOut grows) sys.spaces) = some r)
    (hStatus : r.status = some .ok) :
    r.numTransfers = (buildRuns (gpuRecords which sys p)).length := by
  rw [pass2, (pass1_captured hOk).2] at h
  split at h
  · rename_i hNone
    cases h
    rw [List.isEmpty_iff.mp hNone]
    rfl
  · split at h
    · cases h
      cases hStatus
    · have hJob := (runWorkers_complete (apart_transfersFrom _ _ _) h hStatus).numTransfers
      rw [hJob, transfersFrom_length, (pass1_captured hOk).2]

theorem mtCapture_within {out : CaptureResult Content} (hFits : Fits which sys p)
    (h : mtCapture which sys p env = some out) :
    StaysInside p out ∧ (out.status = some .ok → AllFits which sys p) := by
  have hStopped : ∀ (status : Status) (copies : List (CpuCopy Content)), status ≠ .ok →
      (∀ c ∈ copies, InBuffer p.cpuBufSize c.offset c.delivered) →
      some (CaptureResult.stopped env (some status) copies []) = some out →
      StaysInside p out ∧ (out.status = some .ok → AllFits which sys p) := by
    intro status copies hNot hCopies hOut
    cases hOut
    exact ⟨⟨hCopies, nofun, Nat.zero_le _⟩, fun hOk => absurd (Option.some.inj hOk) hNot⟩
  unfold mtCapture at h
  dsimp only at h
  split at h
  · exact hStopped .noMemory [] (by decide) nofun h
  · split at h
    · rename_i hNot
      exact hStopped _ _ hNot (copies_within hFits) h
    · rename_i hOk
      rw [not_not] at hOk
      split at h
      · exact hStopped _ _ (by decide) (copies_within hFits) h
      · split at h
        · exact hStopped _ _ (by decide) (copies_within hFits) h
        · obtain ⟨r, hr, rfl⟩ := Option.map_eq_some_iff.mp h
          obtain ⟨hCopies, hWrites⟩ := finishCapture_copies which p env
            (pass1 (captureCall sys p which.dirtyOnly env.copyOut env.grows) sys.spaces) r
          obtain ⟨hMeta, hDone⟩ := finishCapture_metas which p env
            (pass1 (captureCall sys p which.dirtyOnly env.copyOut env.grows) sys.spaces) r
          refine ⟨⟨?_, ?_, hMeta⟩, fun hFinished => ⟨hFits, fun hMode hGiven => ?_⟩⟩
          · rw [hCopies]
            exact copies_within hFits
          · rw [hWrites]
            exact pass2_within hFits hOk hr
          · obtain ⟨hStatus, hRoom⟩ := hDone hFinished
            rw [← pass2_numTransfers hOk hr hStatus]
            exact hRoom hMode hGiven

theorem serial_within (hFits : Fits which sys p) {s : Pass1 Content}
    (hRecords : s.gpuPages = gpuRecords which sys p) :
    ∀ w ∈ (serialCopy env p.gpuBuf (serialRuns env s)).2,
      InBuffer p.gpuBufSize w.off w.bytes.length := by
  intro w hw
  obtain ⟨hBuf, t, ht, hOff, hLe⟩ := serialCopy_within hw
  apply transfers_within hFits hBuf ?_ ht hOff hLe
  rw [hRecords]
  split
  · exact runPages_buildRuns _
  · exact runPages_singles _

theorem readPagesResident_within (hFits : Fits .readPagesResidentMt sys p) :
    StaysInside p (readPagesResident sys p env) := by
  have hCopies : ∀ c ∈ (pass1 (captureCall sys p false env.copyOut env.grows) sys.spaces).copies,
    InBuffer p.cpuBufSize c.offset c.delivered := copies_within hFits
  rw [readPagesResident]
  dsimp only
  split
  · exact ⟨nofun, nofun, Nat.zero_le _⟩
  · split
    · exact ⟨nofun, nofun, Nat.zero_le _⟩
    · split
      · exact ⟨hCopies, nofun, Nat.zero_le _⟩
      · rename_i hNot
        have hOk : (pass1 (captureCall sys p MtIoctl.readPagesResidentMt.dirtyOnly env.copyOut
          env.grows) sys.spaces).status = .ok := not_not.mp hNot
        have hWrites : ∀ w ∈ (serialCopy env p.gpuBuf (serialRuns env
            (pass1 (captureCall sys p false env.copyOut env.grows) sys.spaces))).2,
          InBuffer p.gpuBufSize w.off w.bytes.length := serial_within hFits (pass1_captured hOk).2
        split
        · exact ⟨hCopies, hWrites, Nat.zero_le _⟩
        · split
          · exact ⟨hCopies, hWrites, Nat.zero_le _⟩
          · exact ⟨hCopies, hWrites, Nat.zero_le _⟩

theorem check_ne_ok {status : Status} (h : p.check sys = some status) : status ≠ .ok := by
  rintro rfl
  rw [CaptureParams.check] at h
  split at h
  · cases h
  · split at h
    · cases h
    · split at h <;> cases h

theorem rejected_ne_ok {status : Status} (h : rejected which sys p = some status) :
    status ≠ .ok := by
  rw [rejected] at h
  cases hCheck : p.check sys with
  | some status' =>
      rw [hCheck] at h
      cases h
      exact check_ne_ok hCheck
  | none =>
      rw [hCheck] at h
      dsimp only at h
      split at h
      · cases h
        exact nofun
      · cases h

/-- Without confidential computing only the plaintext ioctl goes on. -/
theorem plaintext_of_not_rejected (h : rejected which sys p = none)
    (hPlain : sys.confComputing = false) : which = .readPagesResidentMt := by
  rw [rejected, hPlain] at h
  cases which with
  | readPagesResidentMt => rfl
  | readPagesResidentEncryptedMt =>
      split at h
      · cases h
      · cases h
  | readDirtyDeltaEncryptedMt =>
      split at h
      · cases h
      · cases h

end Within

/-- Nothing fails, and the workers take these turns. -/
def calmEnv (p : CaptureParams) (turns : List (Nat × Turn)) : CaptureEnv where
  pageBuf := true
  resmap := true
  gpuPages := true
  cryptoMeta := true
  grownMeta := true
  runLists := true
  copyOut := fun _ => pageSize
  grows := fun _ => true
  pool := calmPool turns
  metas := fun _ => ⟨0, [], 0, [], 0⟩
  resmapCopied := p.length / pageSize
  metaCopied := 0
  bounce := true
  read := fun t => (.ok, List.replicate t.bytes 0)
  copied := Transfer.bytes

section Reached

variable {Content : Type} {which : MtIoctl} {sys : DriverState Content} {p : CaptureParams}

/-- Every run of the captured GPU pages is copied as a whole. -/
def Copied (which : MtIoctl) (sys : DriverState Content) (p : CaptureParams) (writes : List Write) :
    Prop :=
  p.gpuBuf = true → ∀ t ∈ transfersFrom 0 (buildRuns (gpuRecords which sys p)),
    ∃ w ∈ writes, w.off = t.offset ∧ w.bytes.length = t.bytes

theorem pass1_calm (hSome : captured which sys p ≠ []) :
    (pass1 (calmCall which sys p) sys.spaces).status = .ok := by
  rcases pass1_eq which sys p (fun _ => pageSize) (fun _ => true) with ⟨hNone, -⟩ | hWalk
  · exact absurd hNone hSome
  · rw [calmCall, hWalk]
    exact Pass1.foldl_calm (fun _ => rfl) (fun _ => rfl) rfl _

theorem gpuRecords_without (hGpu : sys.hasGpu = false) : gpuRecords which sys p = [] := by
  rw [gpuRecords, List.flatMap_eq_nil_iff]
  intro v _
  have hNever : ∀ f, (calmCall which sys p).found v.2 ≠ .gpu f := by
    intro f
    rw [CaptureCall.found]
    split
    · rw [calmCall, captureCall, hGpu]
      exact nofun
    · rename_i hOther
      exact fun hFound => hOther f hFound
  rw [CaptureCall.records]
  split
  · rename_i f hFound
    exact absurd hFound (hNever f)
  · rfl

theorem pass2_calm {s : Pass1 Content} (hRecords : s.gpuPages = gpuRecords which sys p) :
    ∃ turns r, pass2 which p (calmEnv p turns) s = some r ∧
      Copied which sys p r.handOver.writes := by
  by_cases hNone : s.gpuPages = []
  · refine ⟨[], _, by rw [pass2, hNone]; rfl, fun _ t ht => ?_⟩
    rw [← hRecords, hNone] at ht
    cases ht
  · have hApart := apart_transfersFrom (buildRuns s.gpuPages) p.gpuBuf which.isCiphertext
    obtain ⟨turns, r, hRun, hOk⟩ :=
      exists_calmPool hApart p.numThreads ⟨(calmEnv p []).metas, []⟩
    refine ⟨turns, r, ?_, fun hBuf t ht => ?_⟩
    · rw [pass2, List.isEmpty_eq_false_iff.mpr hNone]
      exact hRun
    · rw [← hRecords] at ht
      obtain ⟨i, hi⟩ := List.getElem?_of_mem ht
      obtain ⟨sub, -, -, -, hDelivered⟩ := (runWorkers_complete hApart hRun hOk).delivered i t hi
      obtain ⟨data, hLength, hMem, -⟩ := hDelivered.copied hBuf
      exact ⟨_, hMem, rfl, hLength⟩

theorem serial_calm {s : Pass1 Content} (hRecords : s.gpuPages = gpuRecords which sys p) :
    (serialCopy (calmEnv p []) p.gpuBuf (serialRuns (calmEnv p []) s)).1 = .ok ∧
      Copied which sys p (serialCopy (calmEnv p []) p.gpuBuf (serialRuns (calmEnv p []) s)).2 := by
  have hRuns : serialRuns (calmEnv p []) s =
    transfersFrom 0 (buildRuns (gpuRecords which sys p)) := by rw [← hRecords]; rfl
  rw [hRuns, Copied]
  cases hBuf : p.gpuBuf with
  | true =>
      have hCalm := @serialCopy_calm (calmEnv p []) (fun _ => rfl) (fun _ => rfl)
        (transfersFrom 0 (buildRuns (gpuRecords which sys p)))
      exact ⟨hCalm.1, fun _ => hCalm.2⟩
  | false =>
      refine ⟨?_, nofun⟩
      induction transfersFrom 0 (buildRuns (gpuRecords which sys p)) with
      | nil => rfl
      | cons t rest ih => exact ih

theorem readPagesResident_calm {s : Pass1 Content} (hOk : s.status = .ok)
    (hPass1 : pass1 (captureCall sys p false (calmEnv p []).copyOut (calmEnv p []).grows) sys.spaces = s)
    (hRecords : s.gpuPages = gpuRecords which sys p) :
    (readPagesResident sys p (calmEnv p [])).cpuCopies = s.copies ∧
      Copied which sys p (readPagesResident sys p (calmEnv p [])).gpuWrites := by
  obtain ⟨hSerial, hCopied⟩ := serial_calm hRecords
  have hMap : ¬(calmEnv p []).resmapCopied < p.length / pageSize := Nat.lt_irrefl _
  rw [readPagesResident, hPass1]
  dsimp only
  rw [hOk, hSerial, if_neg hMap]
  exact ⟨rfl, hCopied⟩

/-- A request that is not turned down at once can get as far as its pages lead. -/
theorem exists_capture (hNot : rejected which sys p = none) (hSome : captured which sys p ≠ []) :
    ∃ env out, mtIoctl which sys p env = some out ∧
      out.cpuCopies = (pass1 (calmCall which sys p) sys.spaces).copies ∧
      Copied which sys p out.gpuWrites := by
  have hOk := pass1_calm hSome
  have hRecords : (pass1 (calmCall which sys p) sys.spaces).gpuPages = gpuRecords which sys p :=
    (pass1_captured hOk).2
  by_cases hConf : sys.confComputing = true
  · obtain ⟨turns, r, hPass2, hCopied⟩ := pass2_calm hRecords
    refine ⟨calmEnv p turns, ?_⟩
    have hCall : pass1 (captureCall sys p which.dirtyOnly (calmEnv p turns).copyOut
        (calmEnv p turns).grows) sys.spaces = pass1 (calmCall which sys p) sys.spaces := rfl
    rw [mtIoctl, hNot]
    dsimp only
    rw [if_pos hConf, mtCapture, hCall, hOk]
    cases hGpu : sys.hasGpu with
    | false =>
        refine ⟨_, by simp [calmEnv]; rfl, rfl, fun _ t ht => ?_⟩
        rw [gpuRecords_without hGpu] at ht
        cases ht
    | true =>
        have hCap : decide ((2 ^ 64 - 1) / cryptoMetaSize <
            (pass1 (calmCall which sys p) sys.spaces).gpuCap) = false :=
          decide_eq_false (Nat.not_lt.mpr (gpuCap_le hOk))
        obtain ⟨hCopies, hWrites⟩ := finishCapture_copies which p (calmEnv p turns)
          (pass1 (calmCall which sys p) sys.spaces) r
        rw [hCap, hPass2]
        refine ⟨finishCapture which p (calmEnv p turns) (pass1 (calmCall which sys p) sys.spaces) r,
          ?_, hCopies, ?_⟩
        · simp [calmEnv]
        · rwa [hWrites]
  · have hPlain : sys.confComputing = false := Bool.not_eq_true _ ▸ hConf
    obtain rfl := plaintext_of_not_rejected hNot hPlain
    refine ⟨calmEnv p [], readPagesResident sys p (calmEnv p []), ?_, ?_⟩
    · rw [mtIoctl, hNot, hPlain]
      rfl
    · exact readPagesResident_calm hOk rfl hRecords

end Reached

section Bounds

variable {Content : Type} {which : MtIoctl} {sys : DriverState Content} {p : CaptureParams}

theorem fits_of_empty (hNone : captured which sys p = []) : Fits which sys p := by
  constructor
  · intro _
    rw [cpuPages, hNone, List.countP_nil, Nat.zero_mul]
    exact Nat.zero_le _
  · intro _
    rw [gpuRecords, hNone, List.flatMap_nil, List.length_nil, Nat.zero_mul]
    exact Nat.zero_le _

/-- Pages that are delivered into the buffers have fitted. -/
theorem fits_of_stays {out : CaptureResult Content}
    (hOk : (pass1 (calmCall which sys p) sys.spaces).status = .ok) (hStays : StaysInside p out)
    (hCopies : out.cpuCopies = (pass1 (calmCall which sys p) sys.spaces).copies)
    (hCopied : Copied which sys p out.gpuWrites) : Fits which sys p := by
  constructor
  · intro hBuf
    have hReaches : Pass1.Reaches (calmCall which sys p) (cpuPages which sys p)
      (pass1 (calmCall which sys p) sys.spaces) := (pass1_captured hOk).1
    by_cases hZero : cpuPages which sys p = 0
    · rw [hZero, Nat.zero_mul]
      exact Nat.zero_le _
    · obtain ⟨c, hc, hEnd, hDelivered⟩ := hReaches.last hBuf hZero
      rw [← hCopies] at hc
      have hLast := hStays.cpu c hc (pageSize - 1) (by rw [hDelivered]; decide)
      have hPos : 0 < pageSize := by decide
      omega
  · intro hBuf
    by_cases hZero : (gpuRecords which sys p).length = 0
    · rw [hZero, Nat.zero_mul]
      exact Nat.zero_le _
    · rw [← runPages_buildRuns] at hZero ⊢
      obtain ⟨t, ht, hEnd, hPos⟩ := exists_last (k := 0) hZero
      rw [Nat.zero_add] at hEnd
      obtain ⟨w, hw, hOff, hLength⟩ := hCopied hBuf t ht
      have hLast := hStays.gpu w hw (t.bytes - 1) (by omega)
      omega

/-- The driver keeps to the buffers exactly where the captured pages fit them, or nothing is
captured. -/
theorem keepsToBuffers_iff (which : MtIoctl) (sys : DriverState Content) (p : CaptureParams) :
    KeepsToBuffers which sys p ↔ (rejected which sys p).isSome ∨ Fits which sys p := by
  constructor
  · intro hKeeps
    cases hNot : rejected which sys p with
    | some status => exact .inl rfl
    | none =>
        right
        by_cases hNone : captured which sys p = []
        · exact fits_of_empty hNone
        · obtain ⟨env, out, hRun, hCopies, hCopied⟩ := exists_capture hNot hNone
          exact fits_of_stays (pass1_calm hNone) (hKeeps env out hRun).1 hCopies hCopied
  · intro hCases env out hRun
    rw [mtIoctl] at hRun
    cases hNot : rejected which sys p with
    | some status =>
        rw [hNot] at hRun
        cases hRun
        exact ⟨⟨nofun, nofun, Nat.zero_le _⟩,
          fun hOk => absurd (Option.some.inj hOk) (rejected_ne_ok hNot)⟩
    | none =>
        rw [hNot] at hRun hCases
        have hFits := hCases.resolve_left nofun
        dsimp only at hRun
        split at hRun
        · exact mtCapture_within hFits hRun
        · rename_i hConf
          obtain rfl := plaintext_of_not_rejected hNot (Bool.not_eq_true _ ▸ hConf)
          cases hRun
          exact ⟨readPagesResident_within hFits, fun _ => ⟨hFits, nofun⟩⟩

/-- One page on the CPU. -/
def onePage : DriverState Nat where
  capable := true
  confComputing := true
  hasGpu := true
  spaces := [⟨[⟨true, 0, 1, [⟨0, 1, fun _ => .cpu 7, true, true⟩], by decide, by decide⟩],
    by decide⟩]

/-- Its buffer is said to have no room for it. -/
def noRoom : CaptureParams where
  base := 0
  length := pageSize
  cpuBuf := true
  cpuBufSize := 0
  gpuBuf := true
  gpuBufSize := 0
  residencyMap := true
  cryptoMeta := true
  cryptoMetaSize := 0
  numThreads := 1
  inside := firstPage_inside

/-- The driver fills the page into the buffer all the same, and returns NV_OK. -/
theorem mtIoctl_overruns : ∃ out,
    mtIoctl .readPagesResidentEncryptedMt onePage noRoom (calmEnv noRoom []) = some out ∧
      out.status = some .ok ∧ ¬StaysInside noRoom out := by
  refine ⟨_, rfl, rfl, fun hStays => ?_⟩
  exact absurd (hStays.cpu ⟨0, 7, pageSize⟩ List.mem_cons_self 0 (by decide)) (by decide)

end Bounds

end FlashCkpt.Driver
