import FlashCkpt.Restore.K3RoundTrip
import FlashCkpt.Restore.RegionPages

/-! Deltas under `--encrypt-k3`. `encrypt_captures_batch` encrypts the CPU and the GPU pages of
a region as one sequence under one list of entries. The reader joins the two sections of a range
of the base image again, but takes the list of a block for that of its GPU pages alone. -/
namespace FlashCkpt.Restore

open ByteImage SizeCut Crypto Image FlashCkpt.Core Blocks

/-- `capture_range` of a region. -/
def captureRegion (memory : ByteImage.Image) (l : RangeLayout) : RangeCapture where
  layout := l
  cpuBuf := packed memory l.base (pagesOn l.residency .cpu)
  gpuBuf := packed memory l.base (pagesOn l.residency .gpu)
  metas := []

/-- The batch as the delta calls it. -/
def deltaKind : BatchKind := .captures cryptoPageSize

/-- The regions of a delta, and how the batch over them goes. -/
structure K3Delta where
  memory : ByteImage.Image
  regions : List RangeLayout
  apart : regions.Pairwise LayoutsApart
  key : Bytes
  counter : Nat
  batch : BatchEnv
  succeeds : batch.outcome = .ok

namespace K3Delta

variable (r : K3Delta)

def captures : List RangeCapture := r.regions.map (captureRegion r.memory)

def encrypted (x : Ciphers) : Option (List RangeCapture) :=
  encryptCapturesFrom x deltaKind r.key r.counter r.batch r.captures

/-- With the right key and an encrypted base image of version 2, every page of the region
that the result has room for is the captured one. -/
def Restores (l : RangeLayout) : Prop :=
  ∀ (x : Ciphers) (captures : List RangeCapture), r.encrypted x = some captures →
    ∀ (keys : Keys) (base : BaseFile) (restored : Restored),
      keys.gcm = x.gcm → keys.k3 = some r.key → isV3 base = false →
      (∃ d ∈ base.descs, d.cryptoMetaBytes ≠ 0) →
      restoreFromFilesEncrypted keys base (bufferedDelta captures) = some restored →
      (∃ g ∈ restored.groups, g.1 ≤ l.base ∧ l.base + l.length ≤ g.1 + g.2) →
        SamePages r.memory restored.image l.base l.residency

/-- The pages that the batch counts, in 32 bits. -/
def total : Nat := (r.regions.map deltaKind.pages).sum % 2 ^ 32

/-- The pages in front of a region. -/
def before (j : Nat) : Nat := ((r.regions.take j).map deltaKind.pages).sum

/-- The batch neither encrypts a page of the region nor stores entries with it. -/
def LeavesAlone (j : Nat) (l : RangeLayout) : Prop :=
  r.total = 0 ∨
    (r.total ≤ r.before j ∧ (deltaKind.pages l % 2 ^ 32 = 0 ∨ r.batch.allocOk j = false))

end K3Delta

section Batch

variable {x : Ciphers} {kind : BatchKind} {key : Bytes} {counter : Nat} {env : BatchEnv}
  {caps after : List RangeCapture}

theorem scatter_layouts (handed : List Handed) (allocOk : Nat → Bool) (i metaOff : Nat)
    (gathered : Bytes) (caps : List RangeCapture) :
    (scatter x kind handed allocOk i metaOff gathered caps).map RangeCapture.layout =
      caps.map RangeCapture.layout := by
  induction caps generalizing i metaOff gathered with
  | nil => rfl
  | cons c rest ih => rw [scatter, List.map_cons, List.map_cons, ih, (store_cpu _ _ _ _ _).1]

/-- A batch leaves the ranges of its captures. -/
theorem encryptCapturesFrom_layouts
    (h : encryptCapturesFrom x kind key counter env caps = some after) :
    after.map RangeCapture.layout = caps.map RangeCapture.layout := by
  rw [encryptCapturesFrom] at h
  split at h
  · cases h
    rfl
  · split at h
    · cases h
      exact scatter_layouts _ _ _ _ _ _
    · cases h

theorem sealedChunks_length (x : Ciphers) (key : Bytes) (counter pages before size : Nat) {plain : Bytes} {count : Nat}
    (h : plain.length = count * size) : ((List.range count).flatMap fun k =>
      sealedChunk x key counter pages (before + k) (block size plain k)).length =
        count * size := by
  apply flatMap_length
  intro k hk
  rw [sealedChunk_length, block_length]
  rw [h]
  exact Nat.mul_le_mul_right _ hk

/-- Chunks behind those that are counted stay as they are. -/
theorem sealedChunks_plain {pages before size : Nat} {plain : Bytes} {count : Nat}
    (h : plain.length = count * size) (hBehind : ∀ k < count, pages ≤ before + k) :
    ((List.range count).flatMap fun k =>
      sealedChunk x key counter pages (before + k) (block size plain k)) = plain := by
  conv_rhs => rw [← flatMap_block_self h]
  apply List.flatMap_congr
  intro k hk
  rw [sealedChunk, if_neg (Nat.not_lt.mpr (hBehind k (List.mem_range.mp hk)))]

theorem freshMetas_eq_nil_iff (x : Ciphers) (kind : BatchKind) (handed : List Handed) (before count : Nat) :
    freshMetas x kind handed before count = [] ↔ count % 2 ^ 32 = 0 := by
  rw [freshMetas, List.map_eq_nil_iff, List.range_eq_nil]

theorem copiedMeta_size (chunk : Nat) (handed : List Handed) (j : Nat) :
    (copiedMeta x chunk handed j).size = chunk % 2 ^ 32 := by
  rw [copiedMeta]
  split
  · rfl
  · rfl

/-- All entries are for whole chunks. -/
theorem freshMetas_chunk (x : Ciphers) (kind : BatchKind) {handed : List Handed} (hIv : ∀ h ∈ handed, h.iv.length = ivSize)
    (before count : Nat) : ∀ m ∈ freshMetas x kind handed before count,
      m.size = kind.chunk % 2 ^ 32 ∧ m.WellFormed := by
  intro m hm
  obtain ⟨e, -, rfl⟩ := List.mem_map.mp hm
  exact ⟨copiedMeta_size _ _ _, copiedMeta_wellFormed x _ _ hIv _⟩

end Batch

section Stream

theorem streamGcm_decrypt_ne (key iv tag : Bytes) {cipher : Bytes} (h : 0 < cipher.length) :
    streamGcm.decrypt key iv cipher tag ≠ some cipher := by
  cases cipher with
  | nil => cases h
  | cons b rest =>
      intro hSame
      have hHead := congrArg List.head? (Option.some.inj hSame)
      simp only [List.length_cons, keyStream, List.take_succ_cons, List.zipWith_cons_cons,
        List.head?_cons, Option.some.injEq] at hHead
      have hBack := UInt8.sub_add_cancel b 1
      rw [hHead] at hBack
      simp at hBack

/-- An entry opens the first chunk, and the others those behind it. -/
theorem values_decryptK3_cons {keys : Keys} (hGcm : keys.gcm = streamGcm) (key : Bytes)
    {entry : CryptoMeta} (hSize : entry.size = pageSize) (rest : List CryptoMeta) {cipher : Bytes}
    (hReach : pageSize ≤ cipher.length) : ∃ plain : Bytes, plain.length = pageSize ∧
      streamGcm.decrypt key entry.iv (cipher.take pageSize) entry.authTag = some plain ∧
      values (decryptK3 keys key (entry :: rest) cipher).2 =
        plain ++ values (decryptK3 keys key rest (cipher.drop pageSize)).2 := by
  have hSome : cipher ≠ [] := by
    rintro rfl
    simp [pageSize] at hReach
  have hChunk : k3Chunk entry cipher.length = pageSize := by
    rw [k3Chunk, hSize, if_neg (by decide)]
    omega
  have hFirst : (cipher.take pageSize).length = pageSize := by
    rw [List.length_take]
    omega
  obtain ⟨plain, hPlain⟩ : ∃ plain, streamGcm.decrypt key entry.iv (cipher.take pageSize)
      entry.authTag = some plain := ⟨_, rfl⟩
  have hLength : plain.length = pageSize := by
    cases hPlain
    simp [keyStream_length, hFirst]
  have hTransfer : decryptK3Transfer keys key entry (cipher.take pageSize) =
      some (filled .opened pageSize plain) := by
    rw [decryptK3Transfer, hFirst, if_neg (by decide), hGcm,
      show pageSize % 2 ^ 32 = pageSize from rfl, List.take_take, Nat.min_self, hPlain,
      Option.map_some, Nat.sub_self]
    exact congrArg some (List.append_nil _)
  have hValues : values (filled .opened pageSize plain) = plain := by
    rw [← hLength]
    exact values_filled _ _
  refine ⟨plain, hLength, hPlain, ?_⟩
  rw [decryptK3, if_neg hSome]
  dsimp only
  rw [hChunk, hTransfer]
  dsimp only
  rw [values_append, hValues]

/-- Every chunk that has an entry is decrypted with it. -/
theorem decryptK3_block {keys : Keys} (hGcm : keys.gcm = streamGcm) (key : Bytes)
    {entries : List CryptoMeta} {cipher : Bytes} (hSize : ∀ m ∈ entries, m.size = pageSize)
    {k : Nat} {m : CryptoMeta} (hk : entries[k]? = some m)
    (hLength : (k + 1) * pageSize ≤ cipher.length) :
    some (block pageSize (values (decryptK3 keys key entries cipher).2) k) =
      streamGcm.decrypt key m.iv (block pageSize cipher k) m.authTag := by
  induction entries generalizing cipher k with
  | nil => cases hk
  | cons entry rest ih =>
      rw [Nat.succ_mul] at hLength
      obtain ⟨plain, hPlainLength, hPlain, hValues⟩ := values_decryptK3_cons hGcm key
        (hSize entry List.mem_cons_self) rest (by omega : pageSize ≤ cipher.length)
      rw [hValues]
      cases k with
      | zero =>
          cases hk
          rw [block_append_zero (Nat.le_of_eq hPlainLength.symm), block, block, Nat.zero_mul,
            List.drop_zero, List.drop_zero, List.take_of_length_le (Nat.le_of_eq hPlainLength),
            hPlain]
      | succ k =>
          have hLeft : (k + 1) * pageSize ≤ (cipher.drop pageSize).length := by
            rw [List.length_drop]
            omega
          have hRest := ih (fun m hm => hSize m (List.mem_cons_of_mem entry hm)) hk hLeft
          have hDrop : block pageSize (cipher.drop (1 * pageSize)) k =
              block pageSize cipher (1 + k) := block_drop cipher 1 k
          rw [Nat.one_mul] at hDrop
          rw [block_append_succ hPlainLength, hRest, hDrop, Nat.add_comm]

/-- Behind the chunks that have entries the buffer is as it was. -/
theorem decryptK3_behind {keys : Keys} (hGcm : keys.gcm = streamGcm) (key : Bytes)
    {entries : List CryptoMeta} {cipher : Bytes} (hSize : ∀ m ∈ entries, m.size = pageSize)
    (hLength : entries.length * pageSize ≤ cipher.length) :
    (values (decryptK3 keys key entries cipher).2).drop (entries.length * pageSize) =
      values (keys.uninit (cipher.length - entries.length * pageSize)) := by
  induction entries generalizing cipher with
  | nil => rw [List.length_nil, Nat.zero_mul, List.drop_zero, Nat.sub_zero, decryptK3]
  | cons entry rest ih =>
      rw [List.length_cons, Nat.succ_mul] at hLength ⊢
      obtain ⟨plain, hPlainLength, -, hValues⟩ := values_decryptK3_cons hGcm key
        (hSize entry List.mem_cons_self) rest (by omega : pageSize ≤ cipher.length)
      have hLeft : rest.length * pageSize ≤ (cipher.drop pageSize).length := by
        rw [List.length_drop]
        omega
      rw [hValues, Nat.add_comm, ← List.drop_drop, List.drop_left' hPlainLength,
        ih (fun m hm => hSize m (List.mem_cons_of_mem entry hm)) hLeft, List.length_drop,
        Nat.sub_sub]

end Stream

section Captured

variable (memory : ByteImage.Image)

theorem captureRegion_part (l : RangeLayout) : deltaKind.part (captureRegion memory l) =
    packed memory l.base (pagesOn l.residency .cpu) ++
      packed memory l.base (pagesOn l.residency .gpu) := part_captures _ _

theorem captureRegion_length (l : RangeLayout) :
    (deltaKind.part (captureRegion memory l)).length = deltaKind.pages l * pageSize := by
  rw [captureRegion_part, List.length_append, packed_length, packed_length, ← Nat.add_mul]
  rfl

theorem captureRegion_count (l : RangeLayout) :
    deltaKind.count (captureRegion memory l) = deltaKind.pages l := by
  rw [BatchKind.count, captureRegion_length]
  exact Nat.mul_div_cancel _ (by decide)

theorem captureRegion_counts (regions : List RangeLayout) :
    (regions.map (captureRegion memory)).map deltaKind.count = regions.map deltaKind.pages := by
  rw [List.map_map]
  exact List.map_congr_left fun l _ => captureRegion_count memory l

theorem captureRegion_whole (regions : List RangeLayout) :
    ∀ c ∈ regions.map (captureRegion memory), deltaKind.chunk ∣ (deltaKind.part c).length := by
  intro c hc
  obtain ⟨l, -, rfl⟩ := List.mem_map.mp hc
  exact ⟨_, (captureRegion_length memory l).trans (Nat.mul_comm _ _)⟩

end Captured

section Block

variable {keys : Keys} {data : ByteImage.Image} {size : Nat} {s : Sections} {d : RangeDesc}
  (h : StoredAt data size s d)
include h

/-- Beside a version 2 image the CPU section of a block is never decrypted. -/
theorem values_openCpu_v2 (keys : Keys) : values (openCpu keys false data size d).2 = s.cpu := by
  rw [openCpu, if_neg Bool.false_ne_true, if_neg fun hSome => hSome.2.2 rfl]
  exact values_readCpu_stored h false

theorem values_openGpu_v2 (keys : Keys) (hNone : s.cryptoMeta = []) :
    values (openGpu keys false data size d).2 = s.gpu := by
  have hMetas : (sectionMetas false data d).1 = [] := h.entries (by simp) hNone
  rw [openGpu, hMetas, if_neg fun hSome => hSome.2 rfl]
  exact values_readGpu_stored h false

/-- The GPU section is decrypted with the entries from the first one on. -/
theorem openGpu_v2 {key : Bytes} (hKey : keys.k3 = some key) {metas : List CryptoMeta}
    (hFormed : ∀ m ∈ metas, m.WellFormed) (hMetas : s.cryptoMeta = metas.flatMap CryptoMeta.encode)
    (hSome : metas ≠ []) (hGpu : s.gpu ≠ []) :
    openGpu keys false data size d = decryptK3 keys key metas s.gpu := by
  have hEntries : (sectionMetas false data d).1 = metas := h.entries hFormed hMetas
  have hRead := values_readGpu_stored h false
  have hNotNil : readGpu false data size d ≠ [] := by
    intro hNil
    rw [hNil] at hRead
    exact hGpu hRead.symm
  rw [openGpu, hEntries, if_pos ⟨hNotNil, hSome⟩, hKey, decryptSection_k3 hSome hNotNil, hRead]

end Block

/-- An encrypted base image with one range and nothing in it. -/
def emptyBase (version : Nat) (l : RangeLayout) : BaseFile :=
  ⟨version, [⟨l.base, l.length, 0, dataStart 1, 0, 0, 0, cryptoMetaSize⟩], fun _ => 0,
    dataStart 1 + cryptoMetaSize⟩

theorem restore_emptyBase (keys : Keys) (version : Nat) (l : RangeLayout) {delta : IncDelta}
    (hMagic : delta.magic = incDeltaMagic) : ∃ restored,
      restoreFromFilesEncrypted keys (emptyBase version l) delta = some restored ∧
        restored.groups = [(l.base, l.length)] := by
  have hSort : sortDescs (emptyBase version l).descs = (emptyBase version l).descs := List.mergeSort_singleton _
  have hGroups : groupDescs (emptyBase version l).descs = [(l.base, l.length)] := by
    rw [groupDescs, hSort]
    rfl
  have hRange : ∀ d ∈ (emptyBase version l).descs, rangeLog keys (emptyBase version l) d = some [] := by
    intro d hd
    rw [emptyBase, List.mem_singleton] at hd
    subst hd
    have hOpen : openCombined keys (emptyBase version l).data (emptyBase version l).size
        ⟨l.base, l.length, 0, dataStart 1, 0, 0, 0, cryptoMetaSize⟩ = (true, []) := by
      rw [openCombined, decryptSection, if_pos (.inr rfl)]
      rfl
    have hSome : (sectionMetas false (emptyBase version l).data
        ⟨l.base, l.length, 0, dataStart 1, 0, 0, 0, cryptoMetaSize⟩).1 ≠ [] := by
      simp [sectionMetas, readMetas, cryptoMetaSize]
    have hSections : openRange keys (isV3 (emptyBase version l)) (emptyBase version l).data
        (emptyBase version l).size ⟨l.base, l.length, 0, dataStart 1, 0, 0, 0, cryptoMetaSize⟩ =
          some ([], []) := by
      cases isV3 (emptyBase version l) with
      | true => rfl
      | false =>
          rw [openRange, if_neg Bool.false_ne_true, if_neg hSome, hOpen]
          rfl
    rw [rangeLog, if_neg fun hBad => hBad.1 rfl, hSections]
    rfl
  have hRanges : (sortDescs (emptyBase version l).descs).mapM (rangeLog keys (emptyBase version l)) =
      some [[]] := by
    rw [hSort, show (emptyBase version l).descs = [_] from rfl, List.mapM_cons, hRange _ List.mem_cons_self]
    rfl
  have hLog : restoreLog keys (emptyBase version l) delta = some (([[]] : List Log).flatten ++
      (delta.blocks.map (blockLog keys (isV3 (emptyBase version l)) (groupDescs (emptyBase version l).descs)
        delta)).flatten) := by
    have hCount : ¬maxRanges < (emptyBase version l).descs.length := (by decide : ¬maxRanges < 1)
    have hEncrypted : ¬((emptyBase version l).descs.all fun d => d.cryptoMetaBytes = 0) = true :=
      (by decide : ¬(decide (cryptoMetaSize = 0) && true) = true)
    have hRoom : ¬maxGroups < [(l.base, l.length)].length := (by decide : ¬maxGroups < 1)
    rw [restoreLog, if_neg hCount, if_neg hEncrypted, hRanges, hGroups, if_neg hRoom]
    dsimp only [Option.bind_eq_bind, Option.bind_some]
    rw [if_neg (not_not.mpr hMagic)]
    rfl
  exact ⟨_, by rw [restoreFromFilesEncrypted_replay, hLog, Option.map_some], hGroups⟩

namespace K3Delta

variable {r : K3Delta} {x : Ciphers} {captures : List RangeCapture} {j : Nat} {l : RangeLayout}

theorem totalChunks_eq_total : deltaKind.totalChunks r.captures = r.total := by
  rw [captures, totalChunks_eq (captureRegion_whole r.memory r.regions), captureRegion_counts,
    total]

theorem before_eq (j : Nat) : deltaKind.before r.captures j = r.before j := by
  rw [BatchKind.before, captures, ← List.map_take, captureRegion_counts, before]

/-- What the delta has of a region. -/
theorem encrypted_region (h : r.encrypted x = some captures) (hj : r.regions[j]? = some l) :
    ∃ c ∈ captures, c.layout = l ∧ FullSections c ∧
      c.cpuBuf ++ c.gpuBuf = ((List.range (deltaKind.pages l)).flatMap fun k =>
        sealedChunk x r.key r.counter r.total (r.before j + k)
          (block pageSize (deltaKind.part (captureRegion r.memory l)) k)) ∧
      (c.metas = [] ↔
        r.total = 0 ∨ deltaKind.pages l % 2 ^ 32 = 0 ∨ r.batch.allocOk j = false) ∧
      ∀ m ∈ c.metas, m.size = pageSize ∧ m.WellFormed := by
  have hCap : r.captures[j]? = some (captureRegion r.memory l) := by
    rw [K3Delta.captures, List.getElem?_map, hj, Option.map_some]
  have hLength := captureRegion_length r.memory l
  have hSealed := sealedChunks_length x r.key r.counter r.total (r.before j) pageSize hLength
  have hCpuLength := packed_length r.memory l.base (pagesOn l.residency .cpu)
  have hGpuLength := packed_length r.memory l.base (pagesOn l.residency .gpu)
  rw [pagesOn_length] at hCpuLength hGpuLength
  by_cases hTotal : r.total = 0
  · rw [encrypted, encryptCapturesFrom, totalChunks_eq_total, if_pos hTotal,
      Option.some.injEq] at h
    subst h
    refine ⟨_, List.mem_of_getElem? hCap, rfl, ⟨hCpuLength, hGpuLength⟩, ?_, ?_, ?_⟩
    · rw [sealedChunks_plain hLength fun k _ => by omega, captureRegion_part]
      rfl
    · exact iff_of_true rfl (.inl hTotal)
    · intro m hm
      cases hm
  · obtain ⟨gathered, hStored, hSlice⟩ := encryptCapturesFrom_getElem? x
      (captureRegion_whole r.memory r.regions) r.key r.counter
      (by rw [← K3Delta.captures, totalChunks_eq_total]; exact hTotal) h hCap
    rw [← K3Delta.captures, totalChunks_eq_total, before_eq, captureRegion_count] at hSlice
    have hChunk : deltaKind.chunk = pageSize := rfl
    rw [hChunk] at hSlice
    have hNone := freshMetas_eq_nil_iff x deltaKind
      (deltaKind.handed r.key r.counter r.batch r.captures) (deltaKind.before r.captures j)
      (deltaKind.count (captureRegion r.memory l))
    have hSizes := freshMetas_chunk x deltaKind (handed_iv deltaKind r.key r.counter r.batch r.captures)
      (deltaKind.before r.captures j) (deltaKind.count (captureRegion r.memory l))
    rw [← K3Delta.captures] at hStored
    generalize freshMetas x deltaKind _ _ _ = fresh at hStored hNone hSizes
    rw [captureRegion_count] at hNone
    have hBuffers := part_store deltaKind (captureRegion r.memory l) gathered fresh
      (r.batch.allocOk j)
    have hEnough := congrArg List.length hSlice
    rw [hSealed, List.length_take, hLength] at hEnough
    have hBoth : deltaKind.pages l * pageSize = l.residency.count .cpu * pageSize +
        l.residency.count .gpu * pageSize := by
      rw [← Nat.add_mul, ← pagesOn_length, ← pagesOn_length]
      rfl
    rw [hSlice] at hBuffers
    refine ⟨_, List.mem_of_getElem? hStored, rfl, ⟨?_, ?_⟩,
      (part_captures _ _).symm.trans hBuffers, ?_, ?_⟩
    · show (gathered.take (packed r.memory l.base (pagesOn l.residency .cpu)).length).length =
        l.residency.count .cpu * pageSize
      rw [hCpuLength, List.length_take]
      omega
    · show ((gathered.drop (packed r.memory l.base (pagesOn l.residency .cpu)).length).take
        (packed r.memory l.base (pagesOn l.residency .gpu)).length).length =
          l.residency.count .gpu * pageSize
      rw [hCpuLength, hGpuLength, List.length_take, List.length_drop]
      omega
    · rw [← hNone, or_iff_right hTotal, deltaKind, BatchKind.store]
      dsimp only [captureRegion]
      by_cases hFresh : fresh = []
      · simp [hFresh]
      · cases r.batch.allocOk j
        · simp
        · simp [hFresh]
    · intro m hm
      rcases store_metas.2 m hm with hm | ⟨-, hm⟩
      · cases hm
      · exact hSizes m hm

theorem captures_apart (h : r.encrypted x = some captures) :
    (captures.map RangeCapture.layout).Pairwise LayoutsApart := by
  rw [encryptCapturesFrom_layouts h, K3Delta.captures, List.map_map]
  exact (List.map_id r.regions).symm ▸ r.apart

theorem restores_of_leavesAlone (hj : r.regions[j]? = some l) (h : r.LeavesAlone j l) :
    r.Restores l := by
  intro x captures hEncrypted keys base restored hGcm hKey hVersion hBase hRestore hGroup
  obtain ⟨c, hc, rfl, hFull, hBuffers, hMetas, -⟩ := encrypted_region hEncrypted hj
  obtain ⟨data, size, d, hStored, hSame⟩ := restored_region (captures_apart hEncrypted) hBase hRestore hc hFull hGroup
  have hNone : c.metas = [] := by
    rw [hMetas]
    exact h.imp_right And.right
  have hPlain : c.cpuBuf ++ c.gpuBuf =
      packed r.memory c.layout.base (pagesOn c.layout.residency .cpu) ++
        packed r.memory c.layout.base (pagesOn c.layout.residency .gpu) := by
    rw [hBuffers, sealedChunks_plain (captureRegion_length r.memory c.layout), captureRegion_part]
    intro k _
    rcases h with h | h <;> omega
  obtain ⟨hCpu, hGpu⟩ := List.append_inj hPlain (by
    rw [packed_length, pagesOn_length, hFull.cpu])
  rw [hSame, hVersion, values_openCpu_v2 hStored, values_openGpu_v2 hStored keys
    (by rw [RangeCapture.sections, hNone]; rfl)]
  exact ⟨hCpu, hGpu⟩

/-- A reader whose cipher changes every plaintext. -/
def testKeys (key : Bytes) : Keys :=
  ⟨streamGcm, zeroIvChannel, some key, .missing, fun n => List.replicate n 0⟩

/-- A CPU page that is sealed is not the page: the reader takes it as it stands. -/
theorem cpuBuf_ne_of_sealed {c : RangeCapture} (hCpuPages : pageSize ≤ c.cpuBuf.length)
    (hBuffers : c.cpuBuf ++ c.gpuBuf = (List.range (deltaKind.pages l)).flatMap fun k =>
      sealedChunk testCiphers r.key r.counter r.total (r.before j + k)
        (block pageSize (deltaKind.part (captureRegion r.memory l)) k))
    (hLess : r.before j < r.total) (hPages : 0 < deltaKind.pages l) :
    c.cpuBuf ≠ packed r.memory l.base (pagesOn l.residency .cpu) := by
  intro hSame
  have hBlock : ∀ k < deltaKind.pages l,
      (block pageSize (deltaKind.part (captureRegion r.memory l)) k).length = pageSize := by
    intro k hk
    apply block_length
    rw [captureRegion_length]
    exact Nat.mul_le_mul_right _ hk
  have hFirst := congrArg (fun b => block pageSize b 0) hBuffers
  rw [block_flatMap (fun k hk => (sealedChunk_length _ _ _ _ _ _).trans (hBlock k hk)) hPages,
    sealedChunk, if_pos (by omega), block_append_zero hCpuPages, hSame,
    captureRegion_part, block_append_zero (hSame ▸ hCpuPages)] at hFirst
  rw [captureRegion_part] at hBlock
  have hPos := hBlock 0 hPages
  rw [block_append_zero (hSame ▸ hCpuPages)] at hPos
  exact streamGcm_ne r.key _ (Nat.lt_of_lt_of_eq (by decide) hPos.symm) hFirst.symm

/-- With entries the reader decrypts the first GPU page, which does not leave it as it stands. -/
theorem openGpu_ne_of_metas {c : RangeCapture} (key : Bytes) {data : ByteImage.Image} {size : Nat}
    {d : RangeDesc} (hStored : StoredAt data size c.sections d)
    (hEntries : ∀ m ∈ c.metas, m.size = pageSize ∧ m.WellFormed) (hSome : c.metas ≠ [])
    (hGpuPages : pageSize ≤ c.gpuBuf.length) :
    values (openGpu (testKeys key) false data size d).2 ≠ c.gpuBuf := by
  intro hSame
  obtain ⟨m, rest, hCons⟩ := List.exists_cons_of_ne_nil hSome
  have hOpen : openGpu (testKeys key) false data size d =
      decryptK3 (testKeys key) key c.metas c.gpuBuf :=
    openGpu_v2 hStored rfl (fun m hm => (hEntries m hm).2) rfl hSome
      (List.ne_nil_of_length_pos (Nat.lt_of_lt_of_le (by decide) hGpuPages))
  have hHead : c.metas[0]? = some m := by rw [hCons]; rfl
  have hFirst : some (block pageSize (values (decryptK3 (testKeys key) key c.metas
      c.gpuBuf).2) 0) = streamGcm.decrypt key m.iv (block pageSize c.gpuBuf 0) m.authTag :=
    decryptK3_block rfl key (fun m hm => (hEntries m hm).1) hHead
      (by rw [Nat.zero_add, Nat.one_mul]; exact hGpuPages)
  rw [← hOpen, hSame] at hFirst
  refine streamGcm_decrypt_ne _ _ _ ?_ hFirst.symm
  rw [block_length (by rw [Nat.zero_add, Nat.one_mul]; exact hGpuPages)]
  decide

theorem leavesAlone_of_restores (hj : r.regions[j]? = some l) (hCpu : Residency.cpu ∈ l.residency)
    (hGpu : Residency.gpu ∈ l.residency) (h : r.Restores l) : r.LeavesAlone j l := by
  obtain ⟨captures, hEncrypted⟩ : ∃ captures, r.encrypted testCiphers = some captures := by
    rw [encrypted, encryptCapturesFrom, r.succeeds]
    split
    · exact ⟨_, rfl⟩
    · exact ⟨_, rfl⟩
  obtain ⟨c, hc, rfl, hFull, hBuffers, hMetas, hEntries⟩ := encrypted_region hEncrypted hj
  have hMagic : (bufferedDelta captures).magic = incDeltaMagic := rfl
  obtain ⟨restored, hRestore, hGroups⟩ := restore_emptyBase (testKeys r.key) 2 c.layout hMagic
  have hBase : ∃ d ∈ (emptyBase 2 c.layout).descs, d.cryptoMetaBytes ≠ 0 :=
    ⟨_, List.mem_cons_self, show cryptoMetaSize ≠ 0 by decide⟩
  have hGroup : ∃ g ∈ restored.groups, g.1 ≤ c.layout.base ∧
      c.layout.base + c.layout.length ≤ g.1 + g.2 := by
    rw [hGroups]
    exact ⟨_, List.mem_cons_self, Nat.le_refl _, Nat.le_refl _⟩
  have hShown := h testCiphers captures hEncrypted (testKeys r.key) (emptyBase 2 c.layout) restored
    rfl rfl rfl hBase hRestore hGroup
  obtain ⟨data, size, d, hStored, hSame⟩ :=
    restored_region (captures_apart hEncrypted) hBase hRestore hc hFull hGroup
  rw [hSame, show isV3 (emptyBase 2 c.layout) = false from rfl, values_openCpu_v2 hStored] at hShown
  obtain ⟨hCpuSame, hGpuSame⟩ := hShown
  have hCpuSame : c.cpuBuf = packed r.memory c.layout.base (pagesOn c.layout.residency .cpu) :=
    hCpuSame
  have hLength := captureRegion_length r.memory c.layout
  have hCpuPages : pageSize ≤ c.cpuBuf.length := by
    rw [hFull.cpu]
    exact Nat.le_mul_of_pos_left _ (List.count_pos_iff.mpr hCpu)
  have hGpuPages : pageSize ≤ c.gpuBuf.length := by
    rw [hFull.gpu]
    exact Nat.le_mul_of_pos_left _ (List.count_pos_iff.mpr hGpu)
  have hPages : 0 < deltaKind.pages c.layout := by
    apply Nat.add_pos_left
    rw [pagesOn_length]
    exact List.count_pos_iff.mpr hCpu
  by_cases hTotal : r.total = 0
  · exact .inl hTotal
  right
  have hBehind : r.total ≤ r.before j := by
    by_contra hLess
    exact cpuBuf_ne_of_sealed hCpuPages hBuffers (Nat.lt_of_not_le hLess) hPages hCpuSame
  refine ⟨hBehind, ?_⟩
  by_contra hStores
  have hSome : c.metas ≠ [] := fun hNone => by
    rcases hMetas.mp hNone with hZero | hOther
    · exact hTotal hZero
    · exact hStores hOther
  rw [sealedChunks_plain hLength fun k _ => Nat.le_trans hBehind (Nat.le_add_right _ _),
    captureRegion_part, hCpuSame, List.append_cancel_left_eq] at hBuffers
  exact openGpu_ne_of_metas r.key hStored hEntries hSome hGpuPages (hGpuSame.trans hBuffers.symm)

/-- The pages of a region that holds both kinds of pages are restored exactly when the batch
leaves the region alone. -/
theorem restores_iff (r : K3Delta) {j : Nat} {l : RangeLayout} (hj : r.regions[j]? = some l)
    (hCpu : Residency.cpu ∈ l.residency) (hGpu : Residency.gpu ∈ l.residency) :
    r.Restores l ↔ r.LeavesAlone j l :=
  ⟨leavesAlone_of_restores hj hCpu hGpu, restores_of_leavesAlone hj⟩

/-- Below 16 TB of captured pages it never does. -/
theorem not_restores_of_lt (hCount : (r.regions.map deltaKind.pages).sum < 2 ^ 32)
    (hj : r.regions[j]? = some l) (hCpu : Residency.cpu ∈ l.residency)
    (hGpu : Residency.gpu ∈ l.residency) : ¬r.Restores l := by
  have hPages : 0 < deltaKind.pages l := by
    apply Nat.add_pos_left
    rw [pagesOn_length]
    exact List.count_pos_iff.mpr hCpu
  have hInside : r.before j + deltaKind.pages l ≤ (r.regions.map deltaKind.pages).sum :=
    sum_take_add_le _ hj
  intro h
  have hAlone := leavesAlone_of_restores hj hCpu hGpu h
  rw [LeavesAlone, total, Nat.mod_eq_of_lt hCount] at hAlone
  omega

end K3Delta

section Mixed

/-- A page on the CPU and one on the GPU. -/
def mixedRegion : RangeLayout where
  base := pageSize
  residency := [.cpu, .gpu]
  transfers := [1]
  transfer_pages := oneTransfer_pages
  transfer_sum := oneTransfer_sum

def mixedDelta : K3Delta where
  memory := fun _ => 7
  regions := [mixedRegion]
  apart := List.pairwise_singleton _ _
  key := []
  counter := 0
  batch := ⟨1, 1, .ok, fun _ => true⟩
  succeeds := rfl

theorem restores_iff_mixedRegion :
    mixedDelta.Restores mixedRegion ↔ mixedDelta.LeavesAlone 0 mixedRegion :=
  K3Delta.restores_iff mixedDelta rfl List.mem_cons_self (List.mem_cons_of_mem _ List.mem_cons_self)

theorem not_restores_mixedRegion :
    mixedRegion ∈ mixedDelta.regions ∧ ¬mixedDelta.Restores mixedRegion :=
  ⟨List.mem_cons_self, K3Delta.not_restores_of_lt (j := 0) (by decide) rfl List.mem_cons_self
    (List.mem_cons_of_mem _ List.mem_cons_self)⟩

end Mixed

end FlashCkpt.Restore
