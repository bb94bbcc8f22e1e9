import FlashCkpt.Restore.MixedDelta
import FlashCkpt.Restore.StaticImage

/-! Version 3 images that are written from captures in memory. The driver hands GPU pages over as
transfers with an entry each, `encrypt_cpu_pages_batch` appends the entries of the CPU pages, and
the reader finds the border between them again from the sizes of the transfers. -/
namespace FlashCkpt.Restore

open ByteImage SizeCut Intervals Crypto Image FlashCkpt.Core Blocks

/-- A range as `capture_range_encrypted` hands it over. -/
structure CapturedRange (memory : ByteImage.Image) where
  layout : RangeLayout
  transfers : SpanTransfers memory layout.base layout.residency

namespace CapturedRange

variable {memory : ByteImage.Image} (e : CapturedRange memory)

def cpuPages : Nat := (pagesOn e.layout.residency .cpu).length

/-- The CPU pages as they were captured. -/
def cpuBytes : Bytes := packed memory e.layout.base (pagesOn e.layout.residency .cpu)

/-- The entries that the driver made. -/
def kernelMetas (channel : Channel) : List CryptoMeta :=
  e.transfers.pieces.map (pieceMeta channel)

def capture (x : Ciphers) : RangeCapture where
  layout := e.layout
  cpuBuf := e.cpuBytes
  gpuBuf := e.transfers.pieces.flatMap (pieceCipher x.channel)
  metas := e.kernelMetas x.channel

end CapturedRange

/-- The groups that the ranges are merged into. -/
def layoutGroups (layouts : List RangeLayout) : List (Nat × Nat) :=
  merge ((layouts.map fun l => (l.base, l.length)).mergeSort fun a b => a.1 ≤ b.1)

/-- The reader has both keys: that of the batch, and through the driver that of the transfers. -/
structure BothKeys (keys : Keys) (x : Ciphers) (key : Bytes) : Prop where
  gcm : keys.gcm = x.gcm
  channel : keys.channel = x.channel
  k3 : keys.k3 = some key
  device : keys.device = .confidential

/-- The writers that get their captures in memory. -/
inductive BufferedWriter where
  | writeBaseline
  | writeDelta
  deriving DecidableEq, Repr

/-- The captured ranges of an image or of a delta, and how `encrypt_cpu_pages_batch` goes. -/
structure CpuPagesRun where
  memory : ByteImage.Image
  ranges : List (CapturedRange memory)
  apart : (ranges.map CapturedRange.layout).Pairwise LayoutsApart
  key : Bytes
  counter : Nat
  batch : BatchEnv
  succeeds : batch.outcome = .ok

namespace CpuPagesRun

variable (r : CpuPagesRun)

def captures (x : Ciphers) : List RangeCapture := r.ranges.map fun e => e.capture x

def encrypted (x : Ciphers) : Option (List RangeCapture) :=
  encryptCapturesFrom x .cpuPages r.key r.counter r.batch (r.captures x)

/-- `total_pages`. -/
def total : Nat := (r.ranges.map CapturedRange.cpuPages).sum % 2 ^ 32

/-- The CPU pages in front of a range. -/
def before (j : Nat) : Nat := ((r.ranges.take j).map CapturedRange.cpuPages).sum

/-- The entries that the batch appends to those of the driver. -/
def appended (x : Ciphers) (j : Nat) (e : CapturedRange r.memory) : List CryptoMeta :=
  if r.total = 0 ∨ r.batch.allocOk j = false then []
  else freshMetas x .cpuPages (BatchKind.cpuPages.handed r.key r.counter r.batch (r.captures x))
    (r.before j) e.cpuPages

/-- The CPU section of a range behind the batch. -/
def sealedCpu (x : Ciphers) (j : Nat) (e : CapturedRange r.memory) : Bytes :=
  (List.range e.cpuPages).flatMap fun k =>
    sealedChunk x r.key r.counter r.total (r.before j + k) (block pageSize e.cpuBytes k)

/-- The entries of each capture are those of the driver with the appended ones behind them, and
wherever the capture is stored, the reader gives the former to the GPU section and the latter to
the CPU section. -/
def Splits : Prop :=
  ∀ (x : Ciphers) (captures : List RangeCapture), r.encrypted x = some captures →
    ∀ (j : Nat) (e : CapturedRange r.memory) (c : RangeCapture), r.ranges[j]? = some e →
      captures[j]? = some c → c.metas = e.kernelMetas x.channel ++ r.appended x j e ∧
        ∀ data size d, StoredAt data size c.sections d →
          sectionMetas true data d = (e.kernelMetas x.channel, r.appended x j e)

/-- The base image of the captures is restored with every page. -/
def BaseRestored : Prop :=
  ∀ (x : Ciphers) (captures : List RangeCapture), r.encrypted x = some captures →
    ∀ keys : Keys, BothKeys keys x r.key → ∀ old : ByteImage.Image, ∃ restored : Restored,
      restoreFromFilesEncrypted keys
        (writeBaseline ckptV3Version (captures.map RangeCapture.sections) old)
        (bufferedDelta []) = some restored ∧
      ∀ e ∈ r.ranges, SamePages r.memory restored.image e.layout.base e.layout.residency

/-- So is every page of the delta of the captures that the result has room for, beside any
encrypted base image of version 3. -/
def DeltaRestored : Prop :=
  ∀ (x : Ciphers) (captures : List RangeCapture), r.encrypted x = some captures →
    ∀ keys : Keys, BothKeys keys x r.key → ∀ (base : BaseFile) (restored : Restored),
      isV3 base = true → (∃ d ∈ base.descs, d.cryptoMetaBytes ≠ 0) →
      restoreFromFilesEncrypted keys base (bufferedDelta captures) = some restored →
      ∀ e ∈ r.ranges,
        (∃ g ∈ restored.groups, g.1 ≤ e.layout.base ∧
          e.layout.base + e.layout.length ≤ g.1 + g.2) →
        SamePages r.memory restored.image e.layout.base e.layout.residency

/-- The property of one of the two writers. -/
structure RoundTrips (writer : BufferedWriter) : Prop where
  splits : r.Splits
  restored : match writer with
    | .writeBaseline => r.BaseRestored
    | .writeDelta => r.DeltaRestored

/-- Either the batch encrypts all CPU pages of the range and stores their entries, or it does
neither. -/
def KeepsCpu (j : Nat) (e : CapturedRange r.memory) : Prop :=
  e.cpuPages = 0 ∨ (r.before j + e.cpuPages ≤ r.total ∧ r.batch.allocOk j = true) ∨
    r.total = 0 ∨ (r.total ≤ r.before j ∧ (e.cpuPages % 2 ^ 32 = 0 ∨ r.batch.allocOk j = false))

/-- That, and the reader has room for the ranges and groups of a base image. -/
structure Kept (writer : BufferedWriter) : Prop where
  ranges : writer = .writeBaseline → r.ranges.length ≤ maxRanges
  groups : writer = .writeBaseline →
    (layoutGroups (r.ranges.map CapturedRange.layout)).length ≤ maxGroups
  cpu : ∀ (j : Nat) (e : CapturedRange r.memory), r.ranges[j]? = some e → r.KeepsCpu j e

end CpuPagesRun

/-- What the reader makes of a CPU section. -/
def openedCpu (keys : Keys) (key : Bytes) (entries : List CryptoMeta) (cpu : Bytes) :
    Bool × Bytes :=
  if entries = [] then (true, cpu)
  else ((decryptK3 keys key entries cpu).1, values (decryptK3 keys key entries cpu).2)

section Captured

variable {memory : ByteImage.Image} (x : Ciphers) (e : CapturedRange memory)

theorem cpuBytes_length : e.cpuBytes.length = e.cpuPages * pageSize := packed_length _ _ _

theorem capture_count : BatchKind.cpuPages.count (e.capture x) = e.cpuPages := by
  rw [BatchKind.count, part_cpuPages]
  show e.cpuBytes.length / pageSize = e.cpuPages
  rw [cpuBytes_length, Nat.mul_div_cancel _ (by decide)]

theorem capture_counts (ranges : List (CapturedRange memory)) :
    (ranges.map fun e => e.capture x).map BatchKind.cpuPages.count =
      ranges.map CapturedRange.cpuPages := by
  rw [List.map_map]
  exact List.map_congr_left fun e _ => capture_count x e

theorem capture_whole (ranges : List (CapturedRange memory)) :
    ∀ c ∈ ranges.map fun e => e.capture x,
      BatchKind.cpuPages.chunk ∣ (BatchKind.cpuPages.part c).length := by
  intro c hc
  obtain ⟨e, -, rfl⟩ := List.mem_map.mp hc
  rw [part_cpuPages]
  exact ⟨e.cpuPages, (cpuBytes_length e).trans (Nat.mul_comm _ _)⟩

theorem gpu_length : (e.capture x).gpuBuf.length = e.layout.residency.count .gpu * pageSize := by
  show (e.transfers.pieces.flatMap (pieceCipher x.channel)).length = _
  rw [flatMap_cipher_length, ← flatMap_snd_length, e.transfers.carried, packed_length,
    pagesOn_length]

end Captured

namespace CpuPagesRun

variable {r : CpuPagesRun} {x : Ciphers} {captures : List RangeCapture} {j : Nat}
  {e : CapturedRange r.memory}

theorem totalChunks_eq_total : BatchKind.cpuPages.totalChunks (r.captures x) = r.total := by
  rw [CpuPagesRun.captures, totalChunks_eq (capture_whole x r.ranges), capture_counts, total]

theorem before_eq (j : Nat) : BatchKind.cpuPages.before (r.captures x) j = r.before j := by
  rw [BatchKind.before, CpuPagesRun.captures, ← List.map_take, capture_counts, before]

/-- What is left of a range behind the batch. -/
theorem encrypted_range (h : r.encrypted x = some captures) (hj : r.ranges[j]? = some e) :
    ∃ c, captures[j]? = some c ∧ c.layout = e.layout ∧ FullSections c ∧
      c.gpuBuf = e.transfers.pieces.flatMap (pieceCipher x.channel) ∧
      c.cpuBuf = r.sealedCpu x j e ∧
      c.metas = e.kernelMetas x.channel ++ r.appended x j e := by
  have hCap : (r.captures x)[j]? = some (e.capture x) := by
    rw [CpuPagesRun.captures, List.getElem?_map, hj, Option.map_some]
  have hLength := cpuBytes_length e
  have hSealed := sealedChunks_length x r.key r.counter r.total (r.before j) pageSize hLength
  have hCount : e.cpuPages = e.layout.residency.count .cpu := pagesOn_length _ _
  by_cases hTotal : r.total = 0
  · rw [encrypted, encryptCapturesFrom, totalChunks_eq_total, if_pos hTotal,
      Option.some.injEq] at h
    subst h
    refine ⟨_, hCap, rfl, ⟨?_, gpu_length x e⟩, rfl, ?_, ?_⟩
    · exact hLength.trans (by rw [hCount]; rfl)
    · rw [sealedCpu, sealedChunks_plain hLength fun k _ => by omega]
      rfl
    · rw [appended, if_pos (.inl hTotal), List.append_nil]
      rfl
  · obtain ⟨gathered, hStored, hSlice⟩ := encryptCapturesFrom_getElem? x
      (capture_whole x r.ranges) r.key r.counter
      (by rw [← CpuPagesRun.captures, totalChunks_eq_total]; exact hTotal) h hCap
    have hChunk : BatchKind.cpuPages.chunk = pageSize := rfl
    have hPart : BatchKind.cpuPages.part (e.capture x) = e.cpuBytes := part_cpuPages _
    rw [← CpuPagesRun.captures, totalChunks_eq_total, before_eq, capture_count, hChunk,
      hPart] at hSlice
    rw [← CpuPagesRun.captures, before_eq, capture_count] at hStored
    refine ⟨_, hStored, rfl, ⟨?_, gpu_length x e⟩, rfl, hSlice, ?_⟩
    · refine (congrArg List.length hSlice).trans (hSealed.trans ?_)
      rw [hCount]
      rfl
    · rw [BatchKind.store, appended]
      cases r.batch.allocOk j
      · simp [CapturedRange.capture]
      · simp [CapturedRange.capture, hTotal]

/-- Pages that are not encrypted stay as they are. -/
theorem sealedCpu_plain (h : ∀ k < e.cpuPages, r.total ≤ r.before j + k) :
    r.sealedCpu x j e = e.cpuBytes := sealedChunks_plain (cpuBytes_length e) h

theorem sealedCpu_length : (r.sealedCpu x j e).length = e.cpuPages * pageSize :=
  sealedChunks_length x r.key r.counter r.total (r.before j) pageSize (cpuBytes_length e)

theorem cpuBytes_block {k : Nat} (hk : k < e.cpuPages) :
    (block pageSize e.cpuBytes k).length = pageSize := by
  apply block_length
  rw [cpuBytes_length]
  exact Nat.mul_le_mul_right _ hk

theorem sealedCpu_block {k : Nat} (hk : k < e.cpuPages) :
    block pageSize (r.sealedCpu x j e) k =
      sealedChunk x r.key r.counter r.total (r.before j + k) (block pageSize e.cpuBytes k) :=
  block_flatMap (fun _ hi => (sealedChunk_length _ _ _ _ _ _).trans (cpuBytes_block hi)) hk

theorem appended_none (h : r.total = 0 ∨ e.cpuPages % 2 ^ 32 = 0 ∨ r.batch.allocOk j = false) :
    r.appended x j e = [] := by
  rw [appended]
  split
  · rfl
  · rename_i hSome
    rw [freshMetas_eq_nil_iff]
    tauto

theorem appended_chunk :
    ∀ m ∈ r.appended x j e, m.size = pageSize ∧ m.WellFormed := by
  rw [appended]
  split
  · exact fun m hm => nomatch hm
  · exact freshMetas_chunk _ _ (handed_iv _ _ _ _ _) _ _

theorem appended_length (hTotal : r.total ≠ 0) (hAlloc : r.batch.allocOk j = true) :
    (r.appended x j e).length = e.cpuPages % 2 ^ 32 := by
  have hSome : ¬(r.total = 0 ∨ r.batch.allocOk j = false) := by simp [hTotal, hAlloc]
  rw [appended, if_neg hSome, freshMetas, List.length_map, List.length_range]

/-- Where the range is reached, its entries and its ciphertext are those of its pages. -/
theorem sealed_reached (hj : r.ranges[j]? = some e) (hReach : r.before j + e.cpuPages ≤ r.total)
    (hAlloc : r.batch.allocOk j = true) (hTotal : r.total ≠ 0) :
    ∃ chunks : List (Bytes × Bytes), (∀ p ∈ chunks, p.2.length = pageSize) ∧
      chunks.flatMap Prod.snd = e.cpuBytes ∧
      r.appended x j e = chunks.map (k3Meta x.gcm r.key) ∧
      r.sealedCpu x j e = chunks.flatMap (k3Cipher x.gcm r.key) := by
  have hCap : (r.captures x)[j]? = some (e.capture x) := by
    rw [CpuPagesRun.captures, List.getElem?_map, hj, Option.map_some]
  have hWhole : ∀ c ∈ r.captures x, BatchKind.cpuPages.chunk ∣ (BatchKind.cpuPages.part c).length :=
    capture_whole x r.ranges
  have hPart : BatchKind.cpuPages.part (e.capture x) = e.cpuBytes := part_cpuPages _
  have hBefore : BatchKind.cpuPages.before (r.captures x) j = r.before j := before_eq j
  refine ⟨chunksOf .cpuPages r.counter (r.before j) (e.capture x), chunksOf_length _ _, ?_, ?_, ?_⟩
  · rw [chunksOf_plain (hWhole _ (List.mem_of_getElem? hCap)), hPart]
  · have hNone : ¬(r.total = 0 ∨ r.batch.allocOk j = false) := by simp [hTotal, hAlloc]
    rw [appended, if_neg hNone, ← hBefore, ← capture_count x e]
    apply freshMetas_eq hWhole (by decide) hCap
    rw [hBefore, capture_count, totalChunks_eq_total]
    exact hReach
  · have hReached : r.before j + BatchKind.cpuPages.count (e.capture x) ≤ r.total := by
      rw [capture_count]
      exact hReach
    rw [chunksOf_cipher hReached, sealedCpu, capture_count, hPart]
    rfl

/-- A range whose CPU pages are kept is opened to them. -/
theorem opened_of_keeps (hj : r.ranges[j]? = some e) (h : r.KeepsCpu j e) {keys : Keys}
    (hGcm : keys.gcm = x.gcm) :
    openedCpu keys r.key (r.appended x j e) (r.sealedCpu x j e) = (true, e.cpuBytes) := by
  have hPlain : e.cpuPages = 0 ∨ r.total = 0 ∨
      (r.total ≤ r.before j ∧ (e.cpuPages % 2 ^ 32 = 0 ∨ r.batch.allocOk j = false)) →
        openedCpu keys r.key (r.appended x j e) (r.sealedCpu x j e) = (true, e.cpuBytes) := by
    intro hCase
    have hNone : r.appended x j e = [] := by
      apply appended_none
      rcases hCase with hZero | hZero | ⟨-, hNone⟩
      · right
        left
        rw [hZero, Nat.zero_mod]
      · exact .inl hZero
      · exact .inr hNone
    rw [openedCpu, if_pos hNone, sealedCpu_plain]
    intro k hk
    omega
  by_cases hTotal : r.total = 0
  · exact hPlain (.inr (.inl hTotal))
  rcases h with h | ⟨hReach, hAlloc⟩ | h | h
  · exact hPlain (.inl h)
  · obtain ⟨chunks, hSize, hChunks, hEntries, hCipher⟩ :=
      sealed_reached (x := x) hj hReach hAlloc hTotal
    by_cases hNil : chunks = []
    · apply hPlain
      left
      have hLength := cpuBytes_length e
      rw [← hChunks, hNil, List.flatMap_nil, List.length_nil] at hLength
      exact (Nat.mul_eq_zero.mp hLength.symm).resolve_right (by decide)
    · have hInt : ∀ p ∈ chunks, 0 < p.2.length ∧ p.2.length < 2 ^ 31 := by
        intro p hp
        rw [hSize p hp]
        decide
      have hOpen := decryptK3_eq keys r.key hInt
      rw [openedCpu, hEntries, hCipher, if_neg (by simpa using hNil), ← hGcm, hOpen.1, hOpen.2,
        hChunks]
  · exact hPlain (.inr (.inl h))
  · exact hPlain (.inr (.inr h))

/-- A reader with a cipher that changes every text, and a value for bytes nobody wrote. -/
def pageKeys (key : Bytes) (byte : UInt8) : Keys :=
  ⟨streamGcm, zeroIvChannel, some key, .confidential, fun n => List.replicate n byte⟩

/-- With that cipher, chunks that come back as they were captured were encrypted if they have
an entry, and not encrypted if they have none. -/
theorem opened_block (h : ∀ byte, (openedCpu (pageKeys r.key byte) r.key
    (r.appended testCiphers j e) (r.sealedCpu testCiphers j e)).2 = e.cpuBytes) {k : Nat}
    (hk : k < e.cpuPages) (hEntry : k < (r.appended testCiphers j e).length) :
    r.before j + k < r.total := by
  by_contra hBehind
  have hSome : r.appended testCiphers j e ≠ [] := List.ne_nil_of_length_pos (by omega)
  have hOpen : values (decryptK3 (pageKeys r.key 0) r.key (r.appended testCiphers j e)
      (r.sealedCpu testCiphers j e)).2 = e.cpuBytes := by
    have hOpened := h 0
    rwa [openedCpu, if_neg hSome] at hOpened
  have hLength : (k + 1) * pageSize ≤ (r.sealedCpu testCiphers j e).length := by
    rw [sealedCpu_length]
    exact Nat.mul_le_mul_right _ hk
  have hGcm : (pageKeys r.key 0).gcm = streamGcm := rfl
  have hBlock := decryptK3_block hGcm r.key (fun m hm => (appended_chunk m hm).1)
    (List.getElem?_eq_getElem hEntry) hLength
  rw [hOpen, sealedCpu_block hk, sealedChunk, if_neg hBehind] at hBlock
  refine streamGcm_decrypt_ne _ _ _ ?_ hBlock.symm
  rw [cpuBytes_block hk]
  decide

/-- A page without an entry is either taken as it stands, or never written. -/
theorem opened_count (h : ∀ byte, (openedCpu (pageKeys r.key byte) r.key
    (r.appended testCiphers j e) (r.sealedCpu testCiphers j e)).2 = e.cpuBytes)
    (hSome : r.appended testCiphers j e ≠ []) :
    e.cpuPages ≤ (r.appended testCiphers j e).length := by
  by_contra hFew
  have hMul := Nat.mul_le_mul_right pageSize (Nat.lt_of_not_le hFew)
  rw [Nat.succ_mul] at hMul
  have hPos : 0 < pageSize := by decide
  have hLength := cpuBytes_length e
  obtain ⟨b, rest, hRest⟩ : ∃ b rest,
      e.cpuBytes.drop ((r.appended testCiphers j e).length * pageSize) = b :: rest := by
    apply List.exists_cons_of_length_pos
    rw [List.length_drop]
    omega
  have hOpened := h (b + 1)
  rw [openedCpu, if_neg hSome] at hOpened
  have hGcm : (pageKeys r.key (b + 1)).gcm = streamGcm := rfl
  have hReach : (r.appended testCiphers j e).length * pageSize ≤
      (r.sealedCpu testCiphers j e).length := by
    rw [sealedCpu_length]
    omega
  have hBehind := decryptK3_behind hGcm r.key (fun m hm => (appended_chunk m hm).1) hReach
  have hOpened : values (decryptK3 (pageKeys r.key (b + 1)) r.key (r.appended testCiphers j e)
      (r.sealedCpu testCiphers j e)).2 = e.cpuBytes := hOpened
  rw [hOpened, hRest, sealedCpu_length] at hBehind
  obtain ⟨n, hn⟩ : ∃ n, e.cpuPages * pageSize -
      (r.appended testCiphers j e).length * pageSize = n + 1 :=
    Nat.exists_eq_succ_of_ne_zero (by omega)
  have hHead := congrArg List.head? hBehind
  rw [hn] at hHead
  simp [Keys.uninit, pageKeys, values, filled, List.range_succ_eq_map, List.replicate_succ] at hHead

theorem keeps_of_opened (h : ∀ byte, (openedCpu (pageKeys r.key byte) r.key
    (r.appended testCiphers j e) (r.sealedCpu testCiphers j e)).2 = e.cpuBytes) :
    r.KeepsCpu j e := by
  by_cases hPages : e.cpuPages = 0
  · exact .inl hPages
  by_cases hTotal : r.total = 0
  · exact .inr (.inr (.inl hTotal))
  by_cases hNone : e.cpuPages % 2 ^ 32 = 0 ∨ r.batch.allocOk j = false
  · refine .inr (.inr (.inr ⟨?_, hNone⟩))
    by_contra hFirst
    have hOpened := h 0
    rw [openedCpu, if_pos (appended_none (.inr hNone))] at hOpened
    have hBlock := congrArg (fun b => block pageSize b 0) (hOpened : r.sealedCpu _ j e = _)
    rw [sealedCpu_block (Nat.pos_of_ne_zero hPages), sealedChunk, if_pos (by omega)] at hBlock
    refine streamGcm_ne _ _ ?_ hBlock
    rw [cpuBytes_block (Nat.pos_of_ne_zero hPages)]
    decide
  · rw [not_or] at hNone
    have hAlloc : r.batch.allocOk j = true := by simpa using hNone.2
    refine .inr (.inl ⟨?_, hAlloc⟩)
    have hLength := appended_length (x := testCiphers) (e := e) hTotal hAlloc
    have hSome : r.appended testCiphers j e ≠ [] := List.ne_nil_of_length_pos (by omega)
    have hCount := opened_count h hSome
    -- the last page has an entry, so it was encrypted
    have hLast := opened_block h (k := e.cpuPages - 1) (by omega) (by omega)
    omega

theorem metas_wellFormed (hEncrypted : r.encrypted x = some captures)
    (hj : r.ranges[j]? = some e) {c : RangeCapture} (hc : captures[j]? = some c) :
    ∀ m ∈ c.metas, m.WellFormed := by
  obtain ⟨c', hc', -, -, -, -, hMetas⟩ := encrypted_range hEncrypted hj
  cases hc.symm.trans hc'
  rw [hMetas]
  intro m hm
  rcases List.mem_append.mp hm with hm | hm
  · exact pieceMeta_wellFormed (fun p hp => (e.transfers.size p hp).2) m hm
  · exact (appended_chunk m hm).2

/-- The border between the entries is where the transfers end. -/
theorem splits (r : CpuPagesRun) : r.Splits := by
  intro x captures hEncrypted j e c hj hc
  obtain ⟨c', hc', -, -, hGpu, -, hMetas⟩ := encrypted_range hEncrypted hj
  cases hc.symm.trans hc'
  refine ⟨hMetas, fun data size d hStored => ?_⟩
  apply sectionMetas_stored hStored
  · rw [← hMetas]
    exact metas_wellFormed hEncrypted hj hc
  · rw [← hMetas]
    rfl
  · intro m hm
    obtain ⟨p, hp, rfl⟩ := List.mem_map.mp hm
    rw [show (pieceMeta x.channel p).size = p.2.length from x.channel.meta_size p.1 p.2]
    exact (e.transfers.size p hp).1
  · have hLength : (e.transfers.pieces.flatMap (pieceCipher x.channel)).length =
        SizeCut.total pieceSize e.transfers.pieces := flatMap_cipher_length _
    rw [CapturedRange.kernelMetas, total_map, pieceMeta_size, ← hLength, ← hGpu]
    rfl

end CpuPagesRun

section Opened

variable {keys : Keys} {key : Bytes} {data : ByteImage.Image} {size : Nat} {s : Sections}
  {d : RangeDesc}

theorem openedCpu_length (entries : List CryptoMeta) (cpu : Bytes) :
    (openedCpu keys key entries cpu).2.length = cpu.length := by
  rw [openedCpu]
  split
  · rfl
  · rw [values, List.length_map, decryptK3_length]

theorem openCpu_v3 (h : StoredAt data size s d) (hKey : keys.k3 = some key) :
    ((openCpu keys true data size d).1, values (openCpu keys true data size d).2) =
      openedCpu keys key (sectionMetas true data d).2 s.cpu := by
  have hRead := values_readCpu_stored h true
  rw [openCpu, openedCpu, if_pos rfl]
  by_cases hNone : (sectionMetas true data d).2 = []
  · rw [if_pos hNone, if_neg fun hSome => hSome.2.2 hNone, hRead]
  · rw [if_neg hNone]
    by_cases hEmpty : readCpu true data size d = []
    · obtain ⟨m, rest, hCons⟩ := List.exists_cons_of_ne_nil hNone
      rw [if_neg fun hSome => hSome.1 hEmpty, ← hRead, hEmpty, hCons]
      rfl
    · rw [if_pos ⟨hEmpty, by rw [hKey]; rfl, hNone⟩, hKey, decryptSection_k3 hNone hEmpty, hRead]

end Opened

namespace CpuPagesRun

variable {r : CpuPagesRun} {x : Ciphers} {captures : List RangeCapture} {j : Nat}
  {e : CapturedRange r.memory}

theorem captures_apart (h : r.encrypted x = some captures) :
    (captures.map RangeCapture.layout).Pairwise LayoutsApart := by
  rw [encryptCapturesFrom_layouts h, CpuPagesRun.captures, List.map_map]
  exact r.apart

/-- The two sections of a range or block, as the reader opens them. -/
theorem opened_range (hEncrypted : r.encrypted x = some captures) (hj : r.ranges[j]? = some e)
    {c : RangeCapture} (hc : captures[j]? = some c) {keys : Keys} (hKeys : BothKeys keys x r.key)
    {data : ByteImage.Image} {size : Nat} {d : RangeDesc}
    (hStored : StoredAt data size c.sections d) :
    ((openCpu keys true data size d).1, values (openCpu keys true data size d).2) =
        openedCpu keys r.key (r.appended x j e) (r.sealedCpu x j e) ∧
      (openGpu keys true data size d).1 = true ∧
      values (openGpu keys true data size d).2 =
        packed r.memory e.layout.base (pagesOn e.layout.residency .gpu) := by
  obtain ⟨c', hc', -, -, hGpu, hCpu, -⟩ := encrypted_range hEncrypted hj
  cases hc.symm.trans hc'
  have hSplit := (r.splits x captures hEncrypted j e c hj hc).2 data size d hStored
  refine ⟨?_, ?_⟩
  · rw [openCpu_v3 hStored hKeys.k3, hSplit, ← hCpu]
    rfl
  · rw [← e.transfers.carried]
    apply openGpu_stored hStored hKeys.device e.transfers.size
    · rw [hKeys.channel]
      exact hGpu
    · rw [hSplit, hKeys.channel]
      rfl

/-- The test ciphers always give an image or a delta. -/
theorem exists_encrypted (r : CpuPagesRun) (x : Ciphers) : ∃ captures,
    r.encrypted x = some captures := by
  rw [encrypted, encryptCapturesFrom, r.succeeds]
  split
  · exact ⟨_, rfl⟩
  · exact ⟨_, rfl⟩

theorem deltaRestored (h : ∀ (j : Nat) (e : CapturedRange r.memory), r.ranges[j]? = some e →
    r.KeepsCpu j e) : r.DeltaRestored := by
  intro x captures hEncrypted keys hKeys base restored hVersion hBase hRestore e he hGroup
  obtain ⟨j, hj⟩ := List.getElem?_of_mem he
  obtain ⟨c, hc, hLayout, hFull, -⟩ := encrypted_range hEncrypted hj
  rw [← hLayout] at hGroup
  obtain ⟨data, size, d, hStored, hSame⟩ := restored_region (captures_apart hEncrypted) hBase
    hRestore (List.mem_of_getElem? hc) hFull hGroup
  obtain ⟨hCpu, -, hGpu⟩ := opened_range hEncrypted hj hc hKeys hStored
  rw [opened_of_keeps hj (h j e hj) hKeys.gcm] at hCpu
  rw [← hLayout, hSame, hVersion, hLayout]
  exact ⟨congrArg Prod.snd hCpu, hGpu⟩

end CpuPagesRun

section Base

/-- How a range of a base image is read: without any entries in the table it is left to the
plain reader. -/
def readerLog (keys : Keys) (base : BaseFile) : RangeDesc → Option Log :=
  if base.descs.all fun d => d.cryptoMetaBytes = 0 then dataLog (isV3 base) base.data base.size
  else rangeLog keys base

theorem readerLog_within (keys : Keys) (base : BaseFile) (d : RangeDesc) (log : Log)
    (h : readerLog keys base d = some log) : Within log d := by
  rw [readerLog] at h
  split at h
  · exact dataLog_within h
  · exact rangeLog_within keys base h

variable {keys : Keys} {base : BaseFile} {delta : IncDelta}

/-- Beside a delta without blocks the result is what the ranges were read as. -/
theorem restore_ranges (hMagic : delta.magic = incDeltaMagic) (hBlocks : delta.blocks = [])
    (hRanges : base.descs.length ≤ maxRanges) (hGroups : (groupDescs base.descs).length ≤ maxGroups) :
    restoreFromFilesEncrypted keys base delta =
      ((sortDescs base.descs).mapM (readerLog keys base)).map fun logs =>
        ⟨groupDescs base.descs, replay (fun _ => 0) logs.flatten⟩ := by
  rw [restoreFromFilesEncrypted_replay, restoreLog, if_neg (Nat.not_lt.mpr hRanges)]
  by_cases hPlain : base.descs.all fun d => d.cryptoMetaBytes = 0
  · have hRoom : ¬(maxRanges < base.descs.length ∨ maxGroups < (groupDescs base.descs).length) := by
      omega
    rw [if_pos hPlain, plainLog, if_neg hRoom, readerLog, if_pos hPlain]
    cases (sortDescs base.descs).mapM (dataLog (isV3 base) base.data base.size) with
    | none => rfl
    | some logs => simp [hMagic, hBlocks]
  · rw [if_neg hPlain, if_neg (Nat.not_lt.mpr hGroups), readerLog, if_neg hPlain]
    cases (sortDescs base.descs).mapM (rangeLog keys base) with
    | none => rfl
    | some logs => simp [hMagic, hBlocks]

theorem room_of_restore {restored : Restored}
    (h : restoreFromFilesEncrypted keys base delta = some restored) :
    base.descs.length ≤ maxRanges ∧ (groupDescs base.descs).length ≤ maxGroups := by
  rw [restoreFromFilesEncrypted] at h
  obtain ⟨hRanges, h⟩ := Option.ite_none_left_eq_some.mp h
  refine ⟨Nat.le_of_not_lt hRanges, ?_⟩
  split at h
  · rw [restoreFromFiles] at h
    obtain ⟨hRoom, -⟩ := Option.ite_none_left_eq_some.mp h
    omega
  · obtain ⟨hGroups, -⟩ := Option.ite_none_left_eq_some.mp h
    exact Nat.le_of_not_lt hGroups

theorem placed_map {β : Type} {g : RangeDesc → β} {g' : Sections → β}
    (h : ∀ s off, g (s.descAt off) = g' s) (ranges : List Sections) (off : Nat) :
    ((placed ranges off).map Prod.snd).map g = ranges.map g' := by
  conv_rhs => rw [← placed_fst ranges off]
  rw [List.map_map, List.map_map]
  apply List.map_congr_left
  intro p hp
  rw [Function.comp_apply, Function.comp_apply, (placed_desc hp).2, h]

theorem writeBaseline_stored {ranges : List Sections} (version : Nat) (old : ByteImage.Image)
    {p : Sections × RangeDesc} (hp : p ∈ placed ranges (dataStart ranges.length)) :
    StoredAt (writeBaseline version ranges old).data (writeBaseline version ranges old).size
      p.1 p.2 :=
  storedAt_writeAll sequential old (fun _ hq => placed_stop_imageSize hq) hp

/-- The groups of a base image are those of the ranges that were captured. -/
theorem groupDescs_captures (captures : List RangeCapture) (version : Nat)
    (old : ByteImage.Image) :
    groupDescs (writeBaseline version (captures.map RangeCapture.sections) old).descs =
      layoutGroups (captures.map RangeCapture.layout) := by
  have hSort : ∀ descs : List RangeDesc,
      (sortDescs descs).map (fun d => (d.baseVa, d.length)) =
        (descs.map fun d => (d.baseVa, d.length)).mergeSort fun a b => decide (a.1 ≤ b.1) :=
    fun _ => List.map_mergeSort fun _ _ _ _ => rfl
  have hTable : (writeBaseline version (captures.map RangeCapture.sections) old).descs.map
      (fun d => (d.baseVa, d.length)) =
        (captures.map RangeCapture.sections).map fun s => (s.baseVa, s.length) :=
    placed_map (fun _ _ => rfl) _ _
  rw [groupDescs, hSort, hTable, layoutGroups, List.map_map, List.map_map]
  rfl

end Base

namespace CpuPagesRun

variable {r : CpuPagesRun} {x : Ciphers} {captures : List RangeCapture}

/-- The base image of the captures. -/
def baseImage (captures : List RangeCapture) (old : ByteImage.Image) : BaseFile :=
  writeBaseline ckptV3Version (captures.map RangeCapture.sections) old

theorem base_ranges (h : r.encrypted x = some captures) (old : ByteImage.Image) :
    (baseImage captures old).descs.length = r.ranges.length := by
  show ((placed (captures.map RangeCapture.sections) _).map Prod.snd).length = _
  rw [List.length_map, placed_length, List.length_map, encryptCapturesFrom_length x h,
    CpuPagesRun.captures, List.length_map]

theorem base_groups (h : r.encrypted x = some captures) (old : ByteImage.Image) :
    groupDescs (baseImage captures old).descs = layoutGroups (r.ranges.map CapturedRange.layout) := by
  rw [baseImage, groupDescs_captures, encryptCapturesFrom_layouts h, CpuPagesRun.captures, List.map_map]
  rfl

/-- Each range is read exactly when its CPU section opens, and then as its two sections. -/
theorem readerLog_range (hEncrypted : r.encrypted x = some captures) {j : Nat}
    {e : CapturedRange r.memory} (hj : r.ranges[j]? = some e) {c : RangeCapture}
    (hc : captures[j]? = some c) {keys : Keys} (hKeys : BothKeys keys x r.key)
    (old : ByteImage.Image) {d : RangeDesc}
    (hd : (c.sections, d) ∈ placed (captures.map RangeCapture.sections)
      (dataStart (captures.map RangeCapture.sections).length)) :
    ∃ (checked : Bool) (cpu gpu : Buffer), readerLog keys (baseImage captures old) d =
        (if (openedCpu keys r.key (r.appended x j e) (r.sealedCpu x j e)).1 then
          some (placePages checked e.layout.base (e.layout.residency.map Residency.code) cpu gpu)
        else none) ∧
      values cpu = (openedCpu keys r.key (r.appended x j e) (r.sealedCpu x j e)).2 ∧
      values gpu = packed r.memory e.layout.base (pagesOn e.layout.residency .gpu) := by
  have hStored : StoredAt (baseImage captures old).data (baseImage captures old).size c.sections d :=
    writeBaseline_stored ckptV3Version old hd
  obtain ⟨hResmap, hCpuRead, hGpuRead⟩ := stored_readable hStored
  obtain ⟨c', hc', hLayout, -, hGpu, hCpu, hMetas⟩ := encrypted_range hEncrypted hj
  cases hc.symm.trans hc'
  have hBase : d.baseVa = e.layout.base := by rw [hStored.desc, ← hLayout]; rfl
  have hPlaces : readResmap (baseImage captures old).data d = e.layout.residency.map Residency.code := by
    rw [readResmap_stored hStored, ← hLayout]
    rfl
  rw [readerLog]
  split
  · rename_i hPlain
    have hBytes : d.cryptoMetaBytes = 0 := by
      simpa using List.all_eq_true.mp hPlain d (List.mem_map_of_mem (f := Prod.snd) hd)
    have hNone : c.metas = [] := by
      by_contra hSome
      obtain ⟨m, rest, hCons⟩ := List.exists_cons_of_ne_nil hSome
      have hFormed : m.WellFormed := metas_wellFormed hEncrypted hj hc m (by
        rw [hCons]
        exact List.mem_cons_self)
      rw [hStored.desc] at hBytes
      have hEncode : (c.metas.flatMap CryptoMeta.encode).length = 0 := hBytes
      rw [hCons, List.flatMap_cons, List.length_append, CryptoMeta.encode_length hFormed,
        cryptoMetaSize] at hEncode
      omega
    rw [hMetas, List.append_eq_nil_iff] at hNone
    have hPieces : e.transfers.pieces = [] := by simpa [CapturedRange.kernelMetas] using hNone.1
    refine ⟨false, readCpu true (baseImage captures old).data (baseImage captures old).size d,
      readGpu true (baseImage captures old).data (baseImage captures old).size d, ?_, ?_, ?_⟩
    · rw [openedCpu, if_pos hNone.2, if_pos rfl, dataLog, if_neg (by tauto), hPlaces, hBase]
      rfl
    · rw [openedCpu, if_pos hNone.2, values_readCpu_stored hStored, ← hCpu]
      rfl
    · rw [values_readGpu_stored hStored, ← e.transfers.carried, hPieces]
      show c.gpuBuf = _
      rw [hGpu, hPieces]
      rfl
  · obtain ⟨hOpen, hGpuOk, hGpuOpen⟩ := opened_range hEncrypted hj hc hKeys hStored
    refine ⟨true, _, _, ?_, congrArg Prod.snd hOpen, hGpuOpen⟩
    rw [rangeLog, if_neg hResmap, show isV3 (baseImage captures old) = true from rfl, openRange,
      if_pos rfl, hGpuOk, Bool.true_and, ← congrArg Prod.fst hOpen, hPlaces, hBase]
    dsimp only
    cases (openCpu keys true (baseImage captures old).data (baseImage captures old).size d).1 with
    | false => rfl
    | true => rfl

/-- A range of the table, its capture and its descriptor. -/
theorem range_of_desc (hEncrypted : r.encrypted x = some captures) {old : ByteImage.Image}
    {d : RangeDesc} (hd : d ∈ sortDescs (baseImage captures old).descs) :
    ∃ (j : Nat) (e : CapturedRange r.memory) (c : RangeCapture), r.ranges[j]? = some e ∧
      captures[j]? = some c ∧ (c.sections, d) ∈ placed (captures.map RangeCapture.sections)
        (dataStart (captures.map RangeCapture.sections).length) := by
  obtain ⟨⟨s, d'⟩, hp, rfl⟩ := List.mem_map.mp (List.mem_mergeSort.mp hd)
  obtain ⟨c, hMem, rfl⟩ := List.mem_map.mp (placed_desc hp).1
  obtain ⟨j, hc⟩ := List.getElem?_of_mem hMem
  have hLength := encryptCapturesFrom_length x hEncrypted
  rw [CpuPagesRun.captures, List.length_map] at hLength
  have hLess := (List.getElem?_eq_some_iff.mp hc).1
  exact ⟨j, _, c, List.getElem?_eq_getElem (hLength ▸ hLess), hc, hp⟩

/-- In a restored base image the pages of a range are the captured ones exactly when its CPU
section opens to them. -/
theorem restored_range (hEncrypted : r.encrypted x = some captures) {keys : Keys}
    (hKeys : BothKeys keys x r.key) {old : ByteImage.Image} {restored : Restored}
    (hRestore : restoreFromFilesEncrypted keys (baseImage captures old) (bufferedDelta []) =
      some restored) {j : Nat} {e : CapturedRange r.memory} (hj : r.ranges[j]? = some e) :
    SamePages r.memory restored.image e.layout.base e.layout.residency ↔
      (openedCpu keys r.key (r.appended x j e) (r.sealedCpu x j e)).2 = e.cpuBytes := by
  obtain ⟨hRanges, hGroups⟩ := room_of_restore hRestore
  rw [restore_ranges rfl rfl hRanges hGroups, Option.map_eq_some_iff] at hRestore
  obtain ⟨logs, hLogs, rfl⟩ := hRestore
  obtain ⟨c, hc, hLayout, hFull, -⟩ := encrypted_range hEncrypted hj
  obtain ⟨d, hd⟩ := exists_placed (List.mem_map_of_mem (f := RangeCapture.sections)
    (List.mem_of_getElem? hc)) (dataStart (captures.map RangeCapture.sections).length)
  have hStored : StoredAt (baseImage captures old).data (baseImage captures old).size c.sections d :=
    writeBaseline_stored ckptV3Version old hd
  have hBase : d.baseVa = e.layout.base := by rw [hStored.desc, ← hLayout]; rfl
  have hPages : d.numPages = e.layout.residency.length := by
    rw [hStored.desc, ← hLayout]
    exact List.length_map _
  have hApart : (sortDescs (baseImage captures old).descs).Pairwise Apart :=
    (placed_apart (captures_apart hEncrypted) _).perm (List.mergeSort_perm _ _).symm Apart.symm
  have hMem : d ∈ sortDescs (baseImage captures old).descs :=
    List.mem_mergeSort.mpr (List.mem_map_of_mem (f := Prod.snd) hd)
  obtain ⟨log, image', hLog, hSame⟩ := samePages_mapM (readerLog_within keys _) hApart hLogs hMem
    fun _ => 0
  obtain ⟨checked, cpu, gpu, hRead, hCpu, hGpu⟩ := readerLog_range hEncrypted hj hc hKeys old hd
  have hCpuLength : cpu.length = e.layout.residency.count .cpu * pageSize := by
    have hLength := congrArg List.length hCpu
    rwa [values, List.length_map, openedCpu_length, sealedCpu_length, CapturedRange.cpuPages,
      pagesOn_length] at hLength
  have hGpuLength : gpu.length = e.layout.residency.count .gpu * pageSize := by
    have hLength := congrArg List.length hGpu
    rwa [values, List.length_map, packed_length, pagesOn_length] at hLength
  rw [hRead] at hLog
  split at hLog
  · cases hLog
    rw [← hBase, hSame _ _ (Nat.le_of_eq hPages.symm), hBase,
      samePages_placed checked _ image' hCpuLength hGpuLength, hCpu]
    exact and_iff_left hGpu
  · cases hLog

theorem baseRestored (h : r.Kept .writeBaseline) : r.BaseRestored := by
  intro x captures hEncrypted keys hKeys old
  have hRanges : (baseImage captures old).descs.length ≤ maxRanges := by
    rw [base_ranges hEncrypted]
    exact h.ranges rfl
  have hGroups : (groupDescs (baseImage captures old).descs).length ≤ maxGroups := by
    rw [base_groups hEncrypted]
    exact h.groups rfl
  have hAll : ((sortDescs (baseImage captures old).descs).mapM
      (readerLog keys (baseImage captures old))).isSome := by
    rw [mapM_isSome]
    intro d hd
    obtain ⟨j, e, c, hj, hc, hPlaced⟩ := range_of_desc hEncrypted hd
    obtain ⟨checked, cpu, gpu, hRead, -⟩ := readerLog_range hEncrypted hj hc hKeys old hPlaced
    rw [hRead, opened_of_keeps hj (h.cpu j e hj) hKeys.gcm]
    rfl
  obtain ⟨logs, hLogs⟩ := Option.isSome_iff_exists.mp hAll
  obtain ⟨restored, hRestore⟩ : ∃ restored, restoreFromFilesEncrypted keys
      (baseImage captures old) (bufferedDelta []) = some restored :=
    ⟨_, by rw [restore_ranges rfl rfl hRanges hGroups, hLogs, Option.map_some]⟩
  refine ⟨_, hRestore, fun e he => ?_⟩
  obtain ⟨j, hj⟩ := List.getElem?_of_mem he
  rw [restored_range hEncrypted hKeys hRestore hj, opened_of_keeps hj (h.cpu j e hj) hKeys.gcm]

theorem kept_of_baseRestored (h : r.BaseRestored) : r.Kept .writeBaseline := by
  obtain ⟨captures, hEncrypted⟩ := r.exists_encrypted testCiphers
  have hKeys : ∀ byte, BothKeys (pageKeys r.key byte) testCiphers r.key :=
    fun _ => ⟨rfl, rfl, rfl, rfl⟩
  obtain ⟨restored, hRestore, -⟩ := h testCiphers captures hEncrypted _ (hKeys 0) fun _ => 0
  obtain ⟨hRanges, hGroups⟩ := room_of_restore hRestore
  refine ⟨fun _ => ?_, fun _ => ?_, fun j e hj => keeps_of_opened fun byte => ?_⟩
  · rw [← base_ranges hEncrypted]
    exact hRanges
  · rw [← base_groups hEncrypted]
    exact hGroups
  · obtain ⟨restored, hRestore, hPages⟩ := h testCiphers captures hEncrypted _ (hKeys byte) fun _ => 0
    rw [← restored_range hEncrypted (hKeys byte) hRestore hj]
    exact hPages e (List.mem_of_getElem? hj)

theorem keeps_of_deltaRestored (h : r.DeltaRestored) {j : Nat} {e : CapturedRange r.memory}
    (hj : r.ranges[j]? = some e) : r.KeepsCpu j e := by
  obtain ⟨captures, hEncrypted⟩ := r.exists_encrypted testCiphers
  obtain ⟨c, hc, hLayout, hFull, -⟩ := encrypted_range hEncrypted hj
  have hMagic : (bufferedDelta captures).magic = incDeltaMagic := rfl
  have hBase : ∃ d ∈ (emptyBase 3 e.layout).descs, d.cryptoMetaBytes ≠ 0 :=
    ⟨_, List.mem_cons_self, show cryptoMetaSize ≠ 0 by decide⟩
  refine keeps_of_opened fun byte => ?_
  have hKeys : BothKeys (pageKeys r.key byte) testCiphers r.key := ⟨rfl, rfl, rfl, rfl⟩
  obtain ⟨restored, hRestore, hGroups⟩ :=
    restore_emptyBase (pageKeys r.key byte) 3 e.layout hMagic
  have hGroup : ∃ g ∈ restored.groups, g.1 ≤ e.layout.base ∧
      e.layout.base + e.layout.length ≤ g.1 + g.2 := by
    rw [hGroups]
    exact ⟨_, List.mem_cons_self, Nat.le_refl _, Nat.le_refl _⟩
  have hShown := h testCiphers captures hEncrypted _ hKeys _ restored rfl hBase hRestore e
    (List.mem_of_getElem? hj) hGroup
  rw [← hLayout] at hGroup hShown
  obtain ⟨data, size, d, hStored, hSame⟩ := restored_region (captures_apart hEncrypted) hBase
    hRestore (List.mem_of_getElem? hc) hFull hGroup
  obtain ⟨hCpu, -⟩ := opened_range hEncrypted hj hc hKeys hStored
  rw [hSame, hLayout] at hShown
  exact (congrArg Prod.snd hCpu).symm.trans hShown.1

end CpuPagesRun

section CpuPage

/-- A page on the CPU, without transfers. -/
def cpuPage : CapturedRange fun _ => 7 where
  layout := ⟨pageSize, [.cpu], [], noTransfer_pages, noTransfer_sum⟩
  transfers := ⟨[], List.forall_mem_nil _, rfl⟩

/-- The entries of its one range cannot be allocated. -/
def unallocatedRun : CpuPagesRun where
  memory := fun _ => 7
  ranges := [cpuPage]
  apart := List.pairwise_singleton _ _
  key := []
  counter := 0
  batch := ⟨1, 1, .ok, fun _ => false⟩
  succeeds := rfl

end CpuPage

end FlashCkpt.Restore
