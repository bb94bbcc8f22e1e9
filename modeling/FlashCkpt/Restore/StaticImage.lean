import FlashCkpt.Core.Batch
import FlashCkpt.Image.Coalesced
import FlashCkpt.Restore.FusedDelta
import FlashCkpt.Restore.ResidencyMap

/-! The image of the static memory. `ckpt_core` emits it once, in one of two formats by
the mode of the run, and the restore hooks try it before the base image. -/
namespace FlashCkpt.Restore

open ByteImage SizeCut Crypto Image Baseline FlashCkpt.Core

/-- What `ckpt_core` finds when it emits `static.img`: the memory from the first H2D
range to the last one, with the H2D ranges in the order of their addresses. -/
structure StaticRun where
  encrypted : Bool
  key : Bytes
  encryptThreads : Int
  online : Int
  span : RangeLayout
  ranges : List SpanRange
  ordered : Ordered ranges
  inside : ∀ a ∈ ranges, a.first + a.count ≤ span.residency.length

/-- The content of the memory and the ciphers, and the file that is written over. -/
structure Emission where
  ciphers : Ciphers
  memory : ByteImage.Image
  firstTransfer : Nat
  pool : Schedule
  old : OldFile

/-- A range of the span as `capture_range` reads it, without transfers of its own. -/
def plainLayout (span : RangeLayout) (a : SpanRange) : RangeLayout where
  base := span.base + a.first * pageSize
  residency := (span.residency.drop a.first).take a.count
  transfers := List.replicate (pagesOn ((span.residency.drop a.first).take a.count) .gpu).length 1
  transfer_pages := fun t ht => by
    rw [List.eq_of_mem_replicate ht]
    decide
  transfer_sum := by simp

/-- `capture_range`. -/
def captureRange (memory : ByteImage.Image) (span : RangeLayout) (a : SpanRange) :
    RangeCapture where
  layout := plainLayout span a
  cpuBuf := packed memory (plainLayout span a).base (pagesOn (plainLayout span a).residency .cpu)
  gpuBuf := packed memory (plainLayout span a).base (pagesOn (plainLayout span a).residency .gpu)
  metas := []

/-- `write_baseline`: the file ends with the image. -/
def writeBaseline (version : Nat) (ranges : List Sections) (old : ByteImage.Image) : BaseFile :=
  let table := placed ranges (dataStart ranges.length)
  { version := version
    descs := table.map Prod.snd
    data := writeAll old (table.flatMap sectionWrites)
    size := Image.imageSize ranges (dataStart ranges.length) }

namespace StaticRun

variable (run : StaticRun)

/-- The batch of the legacy branch; it is the first one of the run. -/
def batch : BatchEnv := ⟨run.encryptThreads, run.online, .ok, fun _ => true⟩

/-- The emission of `static.img`, when no call fails. -/
def emit (x : Emission) : Option BaseFile :=
  if run.encrypted then
    (coalescedRanges run.span.base
      (readSpan x.ciphers.channel x.memory x.firstTransfer run.span) run.ranges).map
      fun written => writeBase .coalesced written x.pool x.old.data x.old.size
  else
    (encryptCaptures x.ciphers (.captures chunk2MB) run.key run.batch
      (run.ranges.map (captureRange x.memory run.span))).map
      fun caps => writeBaseline 2 (caps.map RangeCapture.sections) x.old.data

end StaticRun

/-- The files a restore may take its `k3` key from: the one `CKPT_K3_KEY_FILE` names, the
sidecar of the base image, and `ckpt_k3.key` in the directory of the delta. -/
structure KeyFiles where
  env : Option (Option Bytes)
  sidecar : Option Bytes
  deltaDir : Option Bytes

def KeyFiles.ofBase (k : KeyFiles) : Option Bytes := loadKey (k.env.getD k.sidecar)

def KeyFiles.ofStatic (k : KeyFiles) : Option Bytes := loadKey (k.env.getD k.deltaDir)

/-- A restore whose `restore_init` goes through, without failing copies. -/
structure RestoreSetup where
  allocs : List AllocEntry
  base : BaseFile
  delta : DeltaFile
  keys : KeyFiles
  chunkSize : Nat
  slotsOk : Bool
  env : Env
  table : allocs ≠ [] ∧ allocs.length ≤ gateAllocMax
  base_key : base.version = 4 → keys.ofBase ≠ none
  env_copies : ∀ k, env.h2dFault k = none

/-- `restore_init` with a static image: its key is read only when it is no v3 image and
the base image has not brought one, and without the key the image is left out. -/
def RestoreSetup.init (r : RestoreSetup) (img : BaseFile) : Option State :=
  let start := fun key staticImg =>
    restoreInit r.allocs r.base key r.delta staticImg true r.chunkSize r.slotsOk
  if r.base.version = 4 then start r.keys.ofBase (some img)
  else if img.version = 3 then start none (some img)
  else
    match r.keys.ofStatic with
    | none => start none none
    | some key => start (some key) (some img)

/-- What the static image makes of an allocation; none when it is not tried or does not
cover the allocation. -/
def RestoreSetup.applyStatic (r : RestoreSetup) (x : Ciphers) (img : BaseFile) (e : AllocEntry)
    (buffer : Bytes) : Option Applied :=
  (r.init img).bind fun s => s.staticImg.bind fun img =>
    tryApplyStatic x.gcm x.channel r.env s img e (min e.size buffer.length) buffer

/-- Whatever the memory and the ciphers are, an image that is emitted gives the captured
bytes of the allocation back. -/
def StaticRun.Decodes (run : StaticRun) (r : RestoreSetup) (e : AllocEntry) (newSize : Nat) :
    Prop :=
  ∀ (x : Emission) (img : BaseFile), run.emit x = some img →
    ∀ buffer : Bytes, buffer.length = newSize →
      r.applyStatic x.ciphers img e buffer =
        some ⟨.restored, captured run.span x.memory e.va (min e.size newSize) buffer⟩

/-- The coalesced branch accepts the ranges; the legacy branch accepts all. -/
def StaticRun.Emits (run : StaticRun) : Prop :=
  run.encrypted = true → ∀ a ∈ run.ranges, a.Accepted run.span

/-- The range that covers an allocation. -/
def StaticRun.find (run : StaticRun) (e : AllocEntry) : Option SpanRange :=
  run.ranges.find? fun a => run.span.base + a.first * pageSize ≤ e.va &&
    e.va + e.size ≤ run.span.base + a.first * pageSize + a.count * pageSize

/-- The offset of an allocation among the GPU bytes of the span. -/
def StaticRun.gpuStart (run : StaticRun) (a : SpanRange) (e : AllocEntry) : Nat :=
  run.span.gpuBefore a.first + (e.va - (run.span.base + a.first * pageSize))

/-- The image is of v3 and so is the base image, and transfers begin and end with the
copied bytes. -/
def StaticRun.Readable (run : StaticRun) (baseVersion : Nat) (e : AllocEntry) (newSize : Nat) :
    Prop :=
  run.encrypted = true ∧ baseVersion = 3 ∧ 0 < min e.size newSize ∧
    ∃ a, run.find e = some a ∧
      Boundary (· * pageSize) run.span.transfers (run.gpuStart a e) ∧
      Boundary (· * pageSize) run.span.transfers (run.gpuStart a e + min e.size newSize)

section Init

variable (r : RestoreSetup) (img : BaseFile)

/-- The state after `restore_init` reads the base image it was given. -/
theorem RestoreSetup.init_cases :
    (∃ s, r.init img = some s ∧ s.base = r.base ∧ s.staticImg = some img) ∨
      (img.version ≠ 3 ∧ ∃ s, r.init img = some s ∧ s.staticImg = none) := by
  have hTable : ¬(r.allocs = [] ∨ gateAllocMax < r.allocs.length) := by
    have := r.table
    simp only [not_or, Nat.not_lt]
    exact this
  have hKey := r.base_key
  unfold init
  by_cases hFour : r.base.version = 4
  · left
    simp [hFour, restoreInit, hTable, hKey hFour]
  · by_cases hThree : img.version = 3
    · left
      simp [hFour, hThree, restoreInit, hTable]
    · cases hStatic : r.keys.ofStatic with
      | none =>
          right
          refine ⟨hThree, ?_⟩
          simp [hFour, hThree, restoreInit, hTable]
      | some key =>
          left
          simp [hFour, hThree, restoreInit, hTable]

end Init

section Coalesced

variable {run : StaticRun}

/-- The descriptor of an allocation stands for the range that covers it. -/
theorem findDesc_cut {channel : Channel} {memory : ByteImage.Image} {written : List Sections}
    {ranges : List SpanRange} {span : RangeLayout}
    (hWritten : List.Forall₂ (fun a s => ∃ l m, CutOf span a l ∧
      s = l.sections channel memory m) ranges written) (va size off : Nat) :
    match ranges.find? fun a => span.base + a.first * pageSize ≤ va &&
        va + size ≤ span.base + a.first * pageSize + a.count * pageSize with
    | none => findDesc ((placed written off).map Prod.snd) va size = none
    | some a => ∃ l m d, CutOf span a l ∧
        findDesc ((placed written off).map Prod.snd) va size = some d ∧
        (l.sections channel memory m, d) ∈ placed written off := by
  induction hWritten generalizing off with
  | nil => rfl
  | @cons a s ranges written hHead hRest ih =>
      obtain ⟨l, m, hCut, rfl⟩ := hHead
      have hDesc : (decide (((l.sections channel memory m).descAt off).baseVa ≤ va) &&
          decide (va + size ≤ ((l.sections channel memory m).descAt off).baseVa +
            ((l.sections channel memory m).descAt off).length)) =
          (decide (span.base + a.first * pageSize ≤ va) &&
            decide (va + size ≤ span.base + a.first * pageSize + a.count * pageSize)) := by
        simp only [Sections.descAt, RangeLayout.sections, RangeLayout.length, hCut.base,
          hCut.residency, List.length_replicate]
      simp only [placed, List.map_cons, findDesc, List.find?_cons, hDesc]
      cases hCover : (decide (span.base + a.first * pageSize ≤ va) &&
          decide (va + size ≤ span.base + a.first * pageSize + a.count * pageSize)) with
      | true => exact ⟨l, m, _, hCut, rfl, List.mem_cons_self⟩
      | false =>
          have hNext := ih ((l.sections channel memory m).descAt off).stop
          dsimp only
          split
          · rename_i hFind
            rw [hFind] at hNext
            exact hNext
          · rename_i b hFind
            rw [hFind] at hNext
            obtain ⟨l', m', d, hCut', hFound, hMem⟩ := hNext
            exact ⟨l', m', d, hCut', hFound, List.mem_cons_of_mem _ hMem⟩

theorem writeBase_stores (written : List Sections) (pool : Schedule) (old : OldFile) :
    (writeBase .coalesced written pool old.data old.size).Stores written where
  descs := rfl
  stored := fun _ hp => storedAt_writeAll pool old.data
    (fun _ hq => Nat.le_trans (placed_stop_imageSize hq) (Nat.le_max_right _ _)) hp

/-- The boundaries of a range in the transfers of its span. -/
theorem onBoundary_cut {span l : RangeLayout} {a : SpanRange} (h : CutOf span a l)
    {off : Nat} (hOff : off ≤ a.count * pageSize) :
    OnBoundary l off ↔ Boundary (· * pageSize) span.transfers (span.gpuBefore a.first + off) := by
  obtain ⟨front, back, hTransfers, hFront⟩ := h.transfers
  have hPos : ∀ t ∈ span.transfers, 0 < t * pageSize := fun t ht =>
    Nat.mul_pos (span.transfer_pages t ht).1 (by decide)
  rw [hTransfers] at hPos
  have hTotal : total (· * pageSize) l.transfers = a.count * pageSize := by
    have hMul := total_mul (fun k : Nat => k) l.transfers pageSize
    have hSum := l.transfer_sum
    rw [h.residency, pagesOn_length, List.count_replicate_self] at hSum
    simpa [total, hSum] using hMul
  rw [hTransfers, ← hFront, boundary_drop]
  refine ⟨?_, ?_⟩
  · rintro ⟨before, after, hSplit, hBefore⟩
    exact ⟨before, after ++ back, by rw [hSplit, List.append_assoc], hBefore⟩
  · exact boundary_left _ (fun t ht => hPos t (List.mem_append_right _ ht)) (by omega)

variable {r : RestoreSetup} {x : Emission} {e : AllocEntry}

/-- The coalesced branch writes an image exactly when it accepts the ranges. -/
theorem StaticRun.emit_coalesced (hMode : run.encrypted = true) (x : Emission) :
    (run.Emits → ∃ written, run.emit x =
        some (writeBase .coalesced written x.pool x.old.data x.old.size) ∧
      List.Forall₂ (fun a s => ∃ l m, CutOf run.span a l ∧
        s = l.sections x.ciphers.channel x.memory m) run.ranges written) ∧
    ∀ img, run.emit x = some img → run.Emits := by
  obtain ⟨hWrites, hAccepts⟩ := coalescedRanges_eq x.ciphers.channel x.memory x.firstTransfer
    run.span run.ordered run.inside
  rw [emit, if_pos hMode]
  refine ⟨fun hEmits => ?_, fun img hImg _ => ?_⟩
  · obtain ⟨written, hSome, hWritten⟩ := hWrites (hEmits hMode)
    exact ⟨written, by rw [hSome, Option.map_some], hWritten⟩
  · obtain ⟨written, hSome, -⟩ := Option.map_eq_some_iff.mp hImg
    exact hAccepts written hSome

/-- What the reader makes of a coalesced image. -/
theorem applyStatic_coalesced {written : List Sections}
    (hWritten : List.Forall₂ (fun a s => ∃ l m, CutOf run.span a l ∧
      s = l.sections x.ciphers.channel x.memory m) run.ranges written) (buffer : Bytes) :
    match run.find e with
    | none => r.applyStatic x.ciphers
        (writeBase .coalesced written x.pool x.old.data x.old.size) e buffer = none
    | some a => ∃ l m d key, CutOf run.span a l ∧
        StoredRange x.ciphers.channel x.memory
          (writeBase .coalesced written x.pool x.old.data x.old.size) l m d ∧
        r.applyStatic x.ciphers
            (writeBase .coalesced written x.pool x.old.data x.old.size) e buffer =
          some (if (writeBase .coalesced written x.pool x.old.data x.old.size).size <
              d.gpuOffset + (e.va - l.base) + min e.size buffer.length then ⟨.failed, buffer⟩
            else finishH2D none buffer
              (if r.base.version = 3 then v3Slice x.ciphers.channel
                (writeBase .coalesced written x.pool x.old.data x.old.size) d (e.va - l.base)
                (min e.size buffer.length)
              else v4Chunks x.ciphers.gcm key
                (writeBase .coalesced written x.pool x.old.data x.old.size) d (e.va - l.base)
                (min e.size buffer.length))) := by
  have hStores := writeBase_stores written x.pool x.old
  have hVersion : (writeBase .coalesced written x.pool x.old.data x.old.size).version = 3 := rfl
  generalize writeBase .coalesced written x.pool x.old.data x.old.size = img at *
  have hDesc := findDesc_cut hWritten e.va e.size (dataStart written.length)
  rw [← hStores.descs] at hDesc
  obtain ⟨s, hInit, hBase, hImg⟩ := (r.init_cases img).resolve_right fun h => h.1 hVersion
  rw [StaticRun.find]
  split
  · rename_i hNone
    rw [hNone] at hDesc
    dsimp only at hDesc
    simp only [RestoreSetup.applyStatic, hInit, Option.bind_some, hImg, tryApplyStatic, hDesc,
      Option.map_none]
  · rename_i a hFind
    rw [hFind] at hDesc
    obtain ⟨l, m, d, hCut, hFound, hMem⟩ := hDesc
    have hRange : StoredRange x.ciphers.channel x.memory img l m d :=
      storedRange_of_storedAt x.ciphers.channel x.memory (hStores.stored _ hMem)
    refine ⟨l, m, d, s.key, hCut, hRange, ?_⟩
    simp only [RestoreSetup.applyStatic, hInit, Option.bind_some, hImg, tryApplyStatic, hFound,
      Option.map_some, hRange.base, hVersion, hBase, true_and, r.env_copies]

end Coalesced

section Tags

/-- A cipher that leaves the plaintext as it is, with a tag that depends on the IV only. -/
def tagGcm (tag : Bytes → UInt8) : Gcm where
  encrypt _ iv plain := (plain, List.replicate tagSize (tag iv))
  decrypt _ iv cipher t := if t = List.replicate tagSize (tag iv) then some cipher else none
  cipher_length _ _ _ := rfl
  tag_length _ _ _ := List.length_replicate
  decrypt_encrypt _ _ _ := if_pos rfl

def tagCiphers (tag : Bytes → UInt8) : Ciphers where
  gcm := tagGcm tag
  channel := Channel.clear
  strayIv _ := List.replicate ivSize 0
  strayTag _ := List.replicate tagSize 0
  strayIv_length := zeroIv_length
  strayTag_length := zeroTag_length

/-- The v2 path takes the tag of the first chunk behind its IV, in records of 28 bytes. -/
theorem tag_of_v4Chunks {tag : Bytes → UInt8} {key : Bytes} {f : BaseFile} {d : RangeDesc}
    {offset copySize : Nat} {plain : Bytes} (hSize : copySize ≤ 2 ^ 52)
    (h : v4Chunks (tagGcm tag) key f d offset copySize = some plain) :
    read f.data (d.metaOffset + offset / cryptoChunkBytes * pageMetaSize + ivSize) tagSize =
      List.replicate tagSize
        (tag (read f.data (d.metaOffset + offset / cryptoChunkBytes * pageMetaSize) ivSize)) := by
  rw [v4Chunks] at h
  split at h
  · cases h
  rename_i hAligned
  have hChunks : copySize / cryptoChunkBytes % 2 ^ 32 ≠ 0 := by
    rw [Nat.mod_eq_of_lt (chunks_lt hSize)]
    exact Nat.pos_iff_ne_zero.mp (Nat.div_pos (by omega) (by decide))
  obtain ⟨count, hCount⟩ := Nat.exists_eq_succ_of_ne_zero hChunks
  rw [hCount, decryptPages, Option.map_eq_some_iff] at h
  obtain ⟨pages, hPages, -⟩ := h
  obtain ⟨first, hFirst, -⟩ := mapM_getElem? hPages
    (by rw [List.getElem?_range (Nat.succ_pos count)] : (List.range (count + 1))[0]? = some 0)
  have hEntry : ∀ at_ : Nat, ((read f.data at_ (count.succ * pageMetaSize)).drop
      (0 * pageMetaSize)).take pageMetaSize = read f.data at_ ivSize ++
        read f.data (at_ + ivSize) tagSize := by
    intro at_
    rw [Nat.zero_mul, List.drop_zero, Nat.succ_mul, Nat.add_comm, read_append,
      List.take_left' (read_length _ _ _), pageMetaSize, read_append]
  rw [decryptPage, hEntry, List.take_left' (read_length _ _ _), List.drop_left' (read_length _ _ _)]
    at hFirst
  simp only [tagGcm] at hFirst
  split at hFirst
  · rename_i hTag
    exact hTag
  · cases hFirst

/-- An entry in two images whose ciphers differ in the tags they make. -/
structure Marked (m m' : CryptoMeta) : Prop where
  formed : m.WellFormed
  formed' : m'.WellFormed
  same : m = m' ∨ ∃ c, m.iv = buildIv c ∧ m' = { m with authTag := m'.authTag }

/-- Two such entries differ in the bytes of the tag only. -/
theorem Marked.differ {m m' : CryptoMeta} (h : Marked m m') {k : Nat}
    (hk : m.encode[k]? ≠ m'.encode[k]?) :
    21 ≤ k ∧ k < 37 ∧ m.encode[37]? = m'.encode[37]? ∧ m.encode[9]? = some 0x4B := by
  rcases h.same with rfl | ⟨c, hIv, hSame⟩
  · exact absurd rfl hk
  have hTag := h.formed.authTag
  have hTag' := h.formed'.authTag
  have hFront : (leBytes 8 m.size ++ (m.iv ++ [m.ivFresh])).length = 21 := by
    simp [hIv, ivSize]
  have hEncode : m.encode = (leBytes 8 m.size ++ (m.iv ++ [m.ivFresh])) ++
      (m.authTag ++ leBytes 4 m.keyVersion) := by
    simp [CryptoMeta.encode]
  have hEncode' : m'.encode = (leBytes 8 m.size ++ (m.iv ++ [m.ivFresh])) ++
      (m'.authTag ++ leBytes 4 m.keyVersion) := by
    rw [hSame]
    simp [CryptoMeta.encode]
  have hBehind : ∀ i, 37 ≤ i → m.encode[i]? = m'.encode[i]? := by
    intro i hi
    rw [hEncode, hEncode', List.getElem?_append_right (by omega),
      List.getElem?_append_right (by omega), List.getElem?_append_right (by omega),
      List.getElem?_append_right (by omega), hTag, hTag']
  refine ⟨?_, ?_, hBehind 37 (Nat.le_refl 37), ?_⟩
  · by_contra hLow
    rw [hEncode, hEncode'] at hk
    generalize leBytes 8 m.size ++ (m.iv ++ [m.ivFresh]) = front at hFront hk
    rw [List.getElem?_append_left (by omega), List.getElem?_append_left (by omega)] at hk
    exact hk rfl
  · by_contra hHigh
    exact hk (hBehind k (by omega))
  · rw [hEncode, List.getElem?_append_left (by omega), List.getElem?_append_right (by simp), hIv]
    simp [buildIv]

/-- A difference of two lists of entries lies in a tag, behind an IV of the counter. -/
theorem records_differ {metas metas' : List CryptoMeta} (h : List.Forall₂ Marked metas metas')
    {i : Nat} (hi : (metas.flatMap CryptoMeta.encode)[i]? ≠
      (metas'.flatMap CryptoMeta.encode)[i]?) :
    ∃ s, s + 21 ≤ i ∧ i < s + 37 ∧ s + 41 ≤ (metas.flatMap CryptoMeta.encode).length ∧
      (metas.flatMap CryptoMeta.encode)[s + 37]? = (metas'.flatMap CryptoMeta.encode)[s + 37]? ∧
      (metas.flatMap CryptoMeta.encode)[s + 9]? = some 0x4B := by
  induction h generalizing i with
  | nil => exact absurd rfl hi
  | @cons m m' rest rest' hHead hRest ih =>
      have hLength : m.encode.length = 41 := CryptoMeta.encode_length hHead.formed
      have hLength' : m'.encode.length = 41 := CryptoMeta.encode_length hHead.formed'
      rw [List.flatMap_cons, List.flatMap_cons] at hi ⊢
      by_cases hFirst : i < 41
      · rw [List.getElem?_append_left (by omega), List.getElem?_append_left (by omega)] at hi
        obtain ⟨hLow, hHigh, hBehind, hIv⟩ := hHead.differ hi
        refine ⟨0, by omega, by omega, ?_, ?_, ?_⟩
        · rw [List.length_append]
          omega
        · rw [List.getElem?_append_left (by omega), List.getElem?_append_left (by omega)]
          exact hBehind
        · rw [List.getElem?_append_left (by omega)]
          exact hIv
      · rw [List.getElem?_append_right (by omega), List.getElem?_append_right (by omega), hLength,
          hLength'] at hi
        obtain ⟨s, hLow, hHigh, hEnd, hBehind, hIv⟩ := ih hi
        refine ⟨s + 41, by omega, by omega, ?_, ?_, ?_⟩
        · rw [List.length_append]
          omega
        · rw [List.getElem?_append_right (by omega), List.getElem?_append_right (by omega), hLength,
            hLength', show s + 41 + 37 - 41 = s + 37 by omega]
          exact hBehind
        · rw [List.getElem?_append_right (by omega), hLength,
            show s + 41 + 9 - 41 = s + 9 by omega]
          exact hIv

/-- Two ranges that differ in the tags of their metadata only. -/
structure Alike (s s' : Sections) : Prop where
  baseVa : s.baseVa = s'.baseVa
  length : s.length = s'.length
  resmap : s.resmap = s'.resmap
  cpu : s.cpu = s'.cpu
  gpu : s.gpu = s'.gpu
  metas : ∃ metas metas', s.cryptoMeta = metas.flatMap CryptoMeta.encode ∧
    s'.cryptoMeta = metas'.flatMap CryptoMeta.encode ∧ List.Forall₂ Marked metas metas'

theorem records_length {metas metas' : List CryptoMeta} (h : List.Forall₂ Marked metas metas') :
    (metas.flatMap CryptoMeta.encode).length = (metas'.flatMap CryptoMeta.encode).length := by
  induction h with
  | nil => rfl
  | cons hHead hRest ih =>
      rw [List.flatMap_cons, List.flatMap_cons, List.length_append, List.length_append, ih,
        CryptoMeta.encode_length hHead.formed, CryptoMeta.encode_length hHead.formed']

theorem Alike.descAt {s s' : Sections} (h : Alike s s') (off : Nat) :
    s.descAt off = s'.descAt off := by
  obtain ⟨metas, metas', hMeta, hMeta', hMarked⟩ := h.metas
  simp only [Sections.descAt, h.baseVa, h.length, h.resmap, h.cpu, h.gpu, hMeta, hMeta',
    records_length hMarked]

/-- The same write, or two lists of entries in the same place. -/
structure WriteAlike (w w' : Write) : Prop where
  off : w.off = w'.off
  length : w.bytes.length = w'.bytes.length
  bytes : w = w' ∨ ∃ metas metas', w.bytes = metas.flatMap CryptoMeta.encode ∧
    w'.bytes = metas'.flatMap CryptoMeta.encode ∧ List.Forall₂ Marked metas metas'

theorem writes_alike {ranges ranges' : List Sections} (h : List.Forall₂ Alike ranges ranges')
    (off : Nat) :
    List.Forall₂ WriteAlike ((placed ranges off).flatMap sectionWrites)
      ((placed ranges' off).flatMap sectionWrites) := by
  induction h generalizing off with
  | nil => exact .nil
  | @cons s s' rest rest' hHead hRest ih =>
      obtain ⟨metas, metas', hMeta, hMeta', hMarked⟩ := hHead.metas
      rw [placed, placed, hHead.descAt, List.flatMap_cons, List.flatMap_cons]
      refine List.rel_append ?_ (ih _)
      simp only [sectionWrites, hHead.resmap, hHead.cpu, hHead.gpu]
      refine .cons ⟨rfl, rfl, .inl rfl⟩ (.cons ⟨rfl, rfl, .inl rfl⟩ (.cons ⟨rfl, rfl, .inl rfl⟩
        (.cons ⟨rfl, ?_, .inr ⟨metas, metas', hMeta, hMeta', hMarked⟩⟩ .nil)))
      simp only [hMeta, hMeta', records_length hMarked]

theorem exists_alike {ws ws' : List Write} (h : List.Forall₂ WriteAlike ws ws') {w : Write}
    (hw : w ∈ ws) : ∃ w' ∈ ws', WriteAlike w w' := by
  induction h with
  | nil => cases hw
  | cons hHead hRest ih =>
      rcases List.mem_cons.mp hw with rfl | hw
      · exact ⟨_, List.mem_cons_self, hHead⟩
      · obtain ⟨w', hw', hAlike⟩ := ih hw
        exact ⟨w', List.mem_cons_of_mem _ hw', hAlike⟩

theorem WriteAlike.symm_outside {ws ws' : List Write} (h : List.Forall₂ WriteAlike ws ws') {q : Nat}
    (hOut : ∀ w ∈ ws, q < w.off ∨ w.stop ≤ q) : ∀ w' ∈ ws', q < w'.off ∨ w'.stop ≤ q := by
  induction h with
  | nil => exact fun w' hw' => absurd hw' List.not_mem_nil
  | cons hHead hRest ih =>
      intro w' hw'
      rcases List.mem_cons.mp hw' with rfl | hw'
      · have hFirst := hOut _ List.mem_cons_self
        rw [Write.stop, hHead.off, hHead.length] at hFirst
        exact hFirst
      · exact ih (fun w hw => hOut w (List.mem_cons_of_mem _ hw)) w' hw'

/-- A difference of two such images lies in a tag, behind an IV of the counter. -/
theorem image_differs {ranges ranges' : List Sections} (h : List.Forall₂ Alike ranges ranges')
    (off : Nat) (old : ByteImage.Image) {q : Nat}
    (hq : writeAll old ((placed ranges off).flatMap sectionWrites) q ≠
      writeAll old ((placed ranges' off).flatMap sectionWrites) q) :
    ∃ s, s + 21 ≤ q ∧ q < s + 37 ∧
      writeAll old ((placed ranges off).flatMap sectionWrites) (s + 37) =
        writeAll old ((placed ranges' off).flatMap sectionWrites) (s + 37) ∧
      writeAll old ((placed ranges off).flatMap sectionWrites) (s + 9) = 0x4B := by
  obtain ⟨stop, hPacked⟩ := placed_packed ranges off
  obtain ⟨stop', hPacked'⟩ := placed_packed ranges' off
  have hAlike := writes_alike h off
  generalize (placed ranges off).flatMap sectionWrites = ws at *
  generalize (placed ranges' off).flatMap sectionWrites = ws' at *
  by_cases hIn : ∃ w ∈ ws, w.off ≤ q ∧ q < w.stop
  · obtain ⟨w, hw, hLow, hHigh⟩ := hIn
    obtain ⟨w', hw', hPair⟩ := exists_alike hAlike hw
    obtain ⟨i, rfl⟩ := Nat.exists_eq_add_of_le hLow
    rw [Write.stop] at hHigh
    have hLeft : ∀ i < w.bytes.length, some (writeAll old ws (w.off + i)) = w.bytes[i]? :=
      fun i hi => hPacked.byte_writeAll old hw hi
    have hRight : ∀ i < w'.bytes.length, some (writeAll old ws' (w'.off + i)) = w'.bytes[i]? :=
      fun i hi => hPacked'.byte_writeAll old hw' hi
    rw [← hPair.off, ← hPair.length] at hRight
    rcases hPair.bytes with rfl | ⟨metas, metas', hMetas, hMetas', hMarked⟩
    · have hSame := (hLeft i (by omega)).trans (hRight i (by omega)).symm
      exact absurd (Option.some.inj hSame) hq
    · have hDiffer : (metas.flatMap CryptoMeta.encode)[i]? ≠
          (metas'.flatMap CryptoMeta.encode)[i]? := by
        rw [← hMetas, ← hMetas', ← hLeft i (by omega), ← hRight i (by omega)]
        exact fun hSame => hq (Option.some.inj hSame)
      obtain ⟨s, hFrom, hTo, hEnd, hBehind, hIv⟩ := records_differ hMarked hDiffer
      rw [← hMetas] at hEnd
      refine ⟨w.off + s, by omega, by omega, ?_, ?_⟩
      · rw [← hMetas, ← hMetas', ← hLeft (s + 37) (by omega), ← hRight (s + 37) (by omega)]
          at hBehind
        exact Option.some.inj hBehind
      · rw [← hMetas, ← hLeft (s + 9) (by omega)] at hIv
        exact Option.some.inj hIv
  · have hOut : ∀ w ∈ ws, q < w.off ∨ w.stop ≤ q := by
      intro w hw
      by_contra hNot
      rw [not_or, Nat.not_lt, Nat.not_le] at hNot
      exact hIn ⟨w, hw, hNot⟩
    rw [writeAll_outside old hOut,
      writeAll_outside old (WriteAlike.symm_outside hAlike hOut)] at hq
    exact absurd rfl hq

theorem placed_descs {ranges ranges' : List Sections} (h : List.Forall₂ Alike ranges ranges')
    (off : Nat) : (placed ranges off).map Prod.snd = (placed ranges' off).map Prod.snd := by
  induction h generalizing off with
  | nil => rfl
  | cons hHead hRest ih => rw [placed, placed, List.map_cons, List.map_cons, hHead.descAt, ih]

section Batch

variable (tag tag' : Bytes → UInt8) {handed : List Handed}
  (hHanded : ∀ h ∈ handed, ∃ c, h.iv = buildIv c)

include hHanded

theorem copiedMeta_marked (chunk j : Nat) :
    Marked (copiedMeta (tagCiphers tag) chunk handed j)
      (copiedMeta (tagCiphers tag') chunk handed j) where
  formed := copiedMeta_wellFormed _ _ _ (fun h hh => by
    obtain ⟨c, hc⟩ := hHanded h hh
    rw [hc, buildIv_length]) j
  formed' := copiedMeta_wellFormed _ _ _ (fun h hh => by
    obtain ⟨c, hc⟩ := hHanded h hh
    rw [hc, buildIv_length]) j
  same := by
    rw [copiedMeta, copiedMeta]
    cases hj : handed[j]? with
    | none => exact .inl rfl
    | some h =>
        obtain ⟨c, hc⟩ := hHanded h (List.mem_of_getElem? hj)
        exact .inr ⟨c, hc, rfl⟩

theorem copiedMeta_congr (hTag : ∀ c, tag (buildIv c) = tag' (buildIv c)) (chunk j : Nat) :
    copiedMeta (tagCiphers tag) chunk handed j = copiedMeta (tagCiphers tag') chunk handed j := by
  rw [copiedMeta, copiedMeta]
  cases hj : handed[j]? with
  | none => rfl
  | some h =>
      obtain ⟨c, hc⟩ := hHanded h (List.mem_of_getElem? hj)
      simp only [tagCiphers, tagGcm, hc, hTag]

/-- The captures behind two batches with different tags. -/
theorem scatter_alike (allocOk : Nat → Bool) (i metaOff : Nat) (gathered : Bytes)
    {caps : List RangeCapture} (hCaps : ∀ c ∈ caps, c.metas = []) :
    List.Forall₂ Alike
      ((scatter (tagCiphers tag) (.captures chunk2MB) handed allocOk i metaOff gathered caps).map
        RangeCapture.sections)
      ((scatter (tagCiphers tag') (.captures chunk2MB) handed allocOk i metaOff gathered caps).map
        RangeCapture.sections) := by
  induction caps generalizing i metaOff gathered with
  | nil => exact .nil
  | cons c rest ih =>
      rw [scatter, scatter, List.map_cons, List.map_cons]
      refine .cons ?_ (ih _ _ _ fun c' hc' => hCaps c' (List.mem_cons_of_mem c hc'))
      refine ⟨rfl, rfl, rfl, rfl, rfl, _, _, rfl, rfl, ?_⟩
      simp only [BatchKind.store, hCaps c List.mem_cons_self, List.map_eq_nil_iff]
      split
      · exact .nil
      · split
        · rw [List.forall₂_map_left_iff, List.forall₂_map_right_iff, List.forall₂_same]
          exact fun p _ => copiedMeta_marked tag tag' hHanded _ _
        · exact .nil

theorem scatter_congr (hTag : ∀ c, tag (buildIv c) = tag' (buildIv c)) (kind : BatchKind)
    (allocOk : Nat → Bool) (i metaOff : Nat) (gathered : Bytes) (caps : List RangeCapture) :
    scatter (tagCiphers tag) kind handed allocOk i metaOff gathered caps =
      scatter (tagCiphers tag') kind handed allocOk i metaOff gathered caps := by
  induction caps generalizing i metaOff gathered with
  | nil => rfl
  | cons c rest ih =>
      rw [scatter, scatter, ih]
      simp only [copiedMeta_congr tag tag' hHanded hTag]

end Batch

/-- Two emissions of the legacy branch with different tags. -/
theorem encryptCaptures_alike (tag tag' : Bytes → UInt8) (key : Bytes) {env : BatchEnv}
    (hOk : env.outcome = .ok) {caps : List RangeCapture} (hCaps : ∀ c ∈ caps, c.metas = []) :
    ∃ after after',
      encryptCaptures (tagCiphers tag) (.captures chunk2MB) key env caps = some after ∧
      encryptCaptures (tagCiphers tag') (.captures chunk2MB) key env caps = some after' ∧
      List.Forall₂ Alike (after.map RangeCapture.sections) (after'.map RangeCapture.sections) ∧
      ((∀ c, tag (buildIv c) = tag' (buildIv c)) → after = after') := by
  simp only [encryptCaptures, hOk]
  split
  · refine ⟨caps, caps, rfl, rfl, ?_, fun _ => rfl⟩
    rw [List.forall₂_map_left_iff, List.forall₂_map_right_iff, List.forall₂_same]
    intro c hc
    have hNone : c.sections.cryptoMeta = List.flatMap CryptoMeta.encode [] := by
      rw [RangeCapture.sections, hCaps c hc]
    exact ⟨rfl, rfl, rfl, rfl, rfl, [], [], hNone, hNone, .nil⟩
  · rw [encryptPages_eq]
    refine ⟨_, _, rfl, rfl, ?_, fun hTag => ?_⟩
    · exact scatter_alike tag tag' (fun h hh => by
        obtain ⟨page, -, rfl⟩ := List.mem_map.mp hh
        exact ⟨_, rfl⟩) _ _ _ _ hCaps
    · exact scatter_congr tag tag' (fun h hh => by
        obtain ⟨page, -, rfl⟩ := List.mem_map.mp hh
        exact ⟨_, rfl⟩) hTag _ _ _ _ _ _

/-- Outside the v3 path an allocation is restored only when 16 bytes of the image are the
tag of the 12 bytes before them. -/
theorem tag_of_applyStatic {tag : Bytes → UInt8} {r : RestoreSetup} {img : BaseFile}
    {e : AllocEntry} {buffer after : Bytes}
    (hVersions : ¬(img.version = 3 ∧ r.base.version = 3))
    (h : r.applyStatic (tagCiphers tag) img e buffer = some ⟨.restored, after⟩) :
    ∃ d, findDesc img.descs e.va e.size = some d ∧
      read img.data (d.metaOffset + (e.va - d.baseVa) / cryptoChunkBytes * pageMetaSize + ivSize)
          tagSize =
        List.replicate tagSize (tag (read img.data
          (d.metaOffset + (e.va - d.baseVa) / cryptoChunkBytes * pageMetaSize) ivSize)) := by
  rw [RestoreSetup.applyStatic] at h
  rcases r.init_cases img with ⟨s, hInit, hBase, hImg⟩ | ⟨-, s, hInit, hImg⟩
  · rw [hInit, Option.bind_some, hImg, Option.bind_some, tryApplyStatic,
      Option.map_eq_some_iff] at h
    obtain ⟨d, hFound, hApplied⟩ := h
    refine ⟨d, hFound, ?_⟩
    simp only [hBase, if_neg hVersions] at hApplied
    split at hApplied
    · cases hApplied
    · cases hChunks : v4Chunks (tagCiphers tag).gcm s.key img d (e.va - d.baseVa)
          (min e.size buffer.length) with
      | none =>
          rw [hChunks, finishH2D] at hApplied
          cases hApplied
      | some plain =>
          have hSize : min e.size buffer.length ≤ 2 ^ 52 :=
            Nat.le_trans (Nat.min_le_left _ _) e.size_le
          exact tag_of_v4Chunks hSize hChunks
  · rw [hInit, Option.bind_some, hImg] at h
    cases h

theorem replicate_tag_injective {a b : UInt8}
    (h : List.replicate tagSize a = List.replicate tagSize b) : a = b := by
  have hHead := congrArg List.head? h
  simpa [tagSize, List.replicate_succ] using hHead

/-- An image that does not depend on the tags cannot satisfy the v2 path. -/
theorem not_decodes_of_untagged {run : StaticRun} {r : RestoreSetup} {e : AllocEntry}
    {newSize : Nat} {img : BaseFile} (hVersions : ¬(img.version = 3 ∧ r.base.version = 3))
    (x : (Bytes → UInt8) → Emission) (hCiphers : ∀ tag, (x tag).ciphers = tagCiphers tag)
    (hEmit : ∀ tag, run.emit (x tag) = some img) : ¬run.Decodes r e newSize := by
  intro h
  have hTag : ∀ tag : UInt8, ∃ d, findDesc img.descs e.va e.size = some d ∧
      read img.data (d.metaOffset + (e.va - d.baseVa) / cryptoChunkBytes * pageMetaSize + ivSize)
        tagSize = List.replicate tagSize tag := by
    intro tag
    have hApplied := h (x fun _ => tag) img (hEmit _) (List.replicate newSize 0)
      List.length_replicate
    rw [hCiphers] at hApplied
    exact tag_of_applyStatic hVersions hApplied
  obtain ⟨d, hFound, hOne⟩ := hTag 1
  obtain ⟨d', hFound', hTwo⟩ := hTag 2
  rw [hFound, Option.some.injEq] at hFound'
  subst hFound'
  exact absurd (replicate_tag_injective (hOne.symm.trans hTwo)) (by decide)

/-- Where two images that differ in tags only have 16 bytes of the one tag and of the
other, the bytes are a tag, and what stands 12 bytes before it is the second byte of an
IV. -/
theorem second_byte {data data' : ByteImage.Image} {p : Nat}
    (hDiffer : ∀ q, data q ≠ data' q → ∃ s, s + 21 ≤ q ∧ q < s + 37 ∧
      data (s + 37) = data' (s + 37) ∧ data (s + 9) = 0x4B)
    (hOne : read data (p + ivSize) tagSize = List.replicate tagSize 1)
    (hTwo : read data' (p + ivSize) tagSize = List.replicate tagSize 2) : data p = 0x4B := by
  have hByte : ∀ {image : ByteImage.Image} {v : UInt8},
      read image (p + ivSize) tagSize = List.replicate tagSize v →
        ∀ i < tagSize, image (p + ivSize + i) = v := by
    intro image v hRead i hi
    have hAt := congrArg (fun l => l[i]?) hRead
    simpa [ByteImage.read, hi] using hAt
  obtain ⟨s, hLow, hHigh, hBehind, hIv⟩ := hDiffer (p + ivSize) (by
    have hLeft := hByte hOne 0 (by decide)
    have hRight := hByte hTwo 0 (by decide)
    rw [Nat.add_zero] at hLeft hRight
    rw [hLeft, hRight]
    decide)
  have hStart : p = s + 9 := by
    by_contra hNot
    have hInside : s + 37 = p + ivSize + (s + 37 - (p + ivSize)) ∧
        s + 37 - (p + ivSize) < tagSize := by
      simp only [ivSize, tagSize] at hLow hHigh ⊢
      omega
    rw [hInside.1, hByte hOne _ hInside.2, hByte hTwo _ hInside.2] at hBehind
    exact absurd hBehind (by decide)
  rw [hStart, hIv]

end Tags

/-- The ranges of the legacy branch have records of 41 bytes, and no allocation is read
back from them. -/
theorem not_decodes_legacy {run : StaticRun} (hMode : run.encrypted = false) (r : RestoreSetup)
    (e : AllocEntry) (newSize : Nat) : ¬run.Decodes r e newSize := by
  intro h
  let x (tag : Bytes → UInt8) : Emission :=
    ⟨tagCiphers tag, fun _ => 0, 0, ⟨id, List.Perm.refl⟩, ⟨fun _ => 0, 0⟩⟩
  have hCaps : ∀ c ∈ run.ranges.map (captureRange (fun _ => 0) run.span), c.metas = [] := by
    intro c hc
    obtain ⟨a, -, rfl⟩ := List.mem_map.mp hc
    rfl
  have hEmit : ∀ tag after, encryptCaptures (tagCiphers tag) (.captures chunk2MB) run.key run.batch
      (run.ranges.map (captureRange (fun _ => 0) run.span)) = some after →
        run.emit (x tag) =
          some (writeBaseline 2 (after.map RangeCapture.sections) fun _ => 0) := by
    intro tag after hAfter
    simp only [StaticRun.emit, hMode, Bool.false_eq_true, if_false, x, hAfter, Option.map_some]
  have hTag : ∀ tag after, encryptCaptures (tagCiphers tag) (.captures chunk2MB) run.key run.batch
      (run.ranges.map (captureRange (fun _ => 0) run.span)) = some after →
        ∃ d, findDesc (writeBaseline 2 (after.map RangeCapture.sections) fun _ => 0).descs e.va
            e.size = some d ∧
          read (writeBaseline 2 (after.map RangeCapture.sections) fun _ => 0).data
              (d.metaOffset + (e.va - d.baseVa) / cryptoChunkBytes * pageMetaSize + ivSize)
              tagSize =
            List.replicate tagSize (tag (read
              (writeBaseline 2 (after.map RangeCapture.sections) fun _ => 0).data
              (d.metaOffset + (e.va - d.baseVa) / cryptoChunkBytes * pageMetaSize) ivSize)) := by
    intro tag after hAfter
    exact tag_of_applyStatic (by simp [writeBaseline])
      (h (x tag) _ (hEmit tag after hAfter) (List.replicate newSize 0) List.length_replicate)
  let byIv (iv : Bytes) : UInt8 := if iv.head? = some 0x43 then 1 else 2
  obtain ⟨one, two, hOne, hTwo, hAlike, -⟩ := encryptCaptures_alike (fun _ => 1) (fun _ => 2)
    run.key (rfl : run.batch.outcome = .ok) hCaps
  obtain ⟨one', three, hOne', hThree, -, hSame⟩ := encryptCaptures_alike (fun _ => 1) byIv
    run.key (rfl : run.batch.outcome = .ok) hCaps
  rw [hOne, Option.some.injEq] at hOne'
  subst hOne'
  obtain rfl := hSame fun c => by simp [byIv, buildIv]
  obtain ⟨d, hFound, hReadOne⟩ := hTag _ _ hOne
  obtain ⟨d', hFound', hReadTwo⟩ := hTag _ _ hTwo
  obtain ⟨d'', hFound'', hReadThree⟩ := hTag _ _ hThree
  rw [hFound, Option.some.injEq] at hFound''
  subst hFound''
  have hLength := hAlike.length_eq
  have hDescs := placed_descs hAlike (dataStart (one.map RangeCapture.sections).length)
  simp only [writeBaseline, ← hLength, ← hDescs] at hFound hFound' hReadOne hReadTwo hReadThree
  rw [hFound, Option.some.injEq] at hFound'
  subst hFound'
  generalize d.metaOffset + (e.va - d.baseVa) / cryptoChunkBytes * pageMetaSize = p
    at hReadOne hReadTwo hReadThree
  have hSecond := second_byte (fun q => image_differs hAlike
    (dataStart (one.map RangeCapture.sections).length) fun _ => 0) hReadOne hReadTwo
  generalize writeAll (fun _ => 0) ((placed (one.map RangeCapture.sections)
    (dataStart (one.map RangeCapture.sections).length)).flatMap sectionWrites) = data
    at hReadOne hReadThree hSecond
  have hHead : (read data p ivSize).head? = some 0x4B := by
    simp [ByteImage.read, ivSize, List.range_succ_eq_map, hSecond]
  have hThreeByte := hReadOne.symm.trans hReadThree
  simp only [byIv, hHead] at hThreeByte
  exact absurd (replicate_tag_injective hThreeByte) (by decide)

theorem StaticRun.find_covers {run : StaticRun} {e : AllocEntry} {a : SpanRange}
    (h : run.find e = some a) :
    a ∈ run.ranges ∧ run.span.base + a.first * pageSize ≤ e.va ∧
      e.va + e.size ≤ run.span.base + a.first * pageSize + a.count * pageSize := by
  have hCover := List.find?_some h
  simp only [Bool.and_eq_true, decide_eq_true_eq] at hCover
  exact ⟨List.mem_of_find?_eq_some h, hCover⟩

/-- The v3 path needs transfers that begin and end with the copied bytes. -/
theorem readable_of_decodes {run : StaticRun} {r : RestoreSetup} {e : AllocEntry} {newSize : Nat}
    (hMode : run.encrypted = true) (hVersion : r.base.version = 3) (hEmits : run.Emits)
    (h : run.Decodes r e newSize) : run.Readable r.base.version e newSize := by
  let x : Emission :=
    ⟨tagCiphers fun _ => 1, fun _ => 0, 0, ⟨id, List.Perm.refl⟩, ⟨fun _ => 0, 0⟩⟩
  obtain ⟨written, hImg, hWritten⟩ := (StaticRun.emit_coalesced hMode x).1 hEmits
  have hApplied := h x _ hImg (List.replicate newSize 0) List.length_replicate
  have hReads := applyStatic_coalesced (r := r) (e := e) hWritten (List.replicate newSize 0)
  cases hFind : run.find e with
  | none =>
      rw [hFind] at hReads
      exact absurd (hReads.symm.trans hApplied) (by simp)
  | some a =>
      rw [hFind] at hReads
      obtain ⟨l, m, d, key, hCut, hStored, hReads⟩ := hReads
      obtain ⟨-, hLow, hHigh⟩ := StaticRun.find_covers hFind
      rw [hReads, Option.some.injEq, if_pos hVersion] at hApplied
      rw [List.length_replicate] at hApplied
      have hCopy := Nat.min_le_left e.size newSize
      split at hApplied
      · cases hApplied
      · cases hSlice : v3Slice x.ciphers.channel
            (writeBase .coalesced written x.pool x.old.data x.old.size) d (e.va - l.base)
            (min e.size newSize) with
        | none =>
            rw [hSlice, finishH2D] at hApplied
            cases hApplied
        | some plain =>
            obtain ⟨hStart, hStop, hPos⟩ := hStored.boundaries_of_v3Slice hSlice
            rw [onBoundary_cut hCut (by rw [hCut.base]; omega), hCut.base] at hStart
            rw [onBoundary_cut hCut (by rw [hCut.base]; omega), hCut.base, ← Nat.add_assoc]
              at hStop
            exact ⟨hMode, hVersion, hPos, a, hFind, hStart, hStop⟩

/-- Between two boundaries the v3 path gives the captured bytes back. -/
theorem decodes_of_readable {run : StaticRun} {r : RestoreSetup} {e : AllocEntry} {newSize : Nat}
    (h : run.Emits → run.Readable r.base.version e newSize) : run.Decodes r e newSize := by
  intro x img hImg buffer hLength
  cases hMode : run.encrypted with
  | false =>
      have hReadable := h fun hOther => absurd (hMode.symm.trans hOther) (by decide)
      exact absurd (hMode.symm.trans hReadable.1) (by decide)
  | true =>
      have hEmits := (StaticRun.emit_coalesced hMode x).2 img hImg
      obtain ⟨-, hVersion, hPos, a, hFind, hStart, hStop⟩ := h hEmits
      obtain ⟨written, hWrites, hWritten⟩ := (StaticRun.emit_coalesced hMode x).1 hEmits
      rw [hWrites, Option.some.injEq] at hImg
      subst hImg
      have hReads := applyStatic_coalesced (r := r) (e := e) hWritten buffer
      rw [hFind] at hReads
      obtain ⟨l, m, d, key, hCut, hStored, hReads⟩ := hReads
      obtain ⟨hMem, hLow, hHigh⟩ := StaticRun.find_covers hFind
      have hCopy := Nat.min_le_left e.size newSize
      rw [StaticRun.gpuStart, ← hCut.base, ← onBoundary_cut hCut (by rw [hCut.base]; omega)]
        at hStart
      rw [StaticRun.gpuStart, ← hCut.base, Nat.add_assoc,
        ← onBoundary_cut hCut (by rw [hCut.base]; omega)] at hStop
      have hGpu : GpuUpTo l (e.va - l.base + min e.size newSize) := by
        intro p hp
        rw [hCut.residency, List.getElem?_replicate, if_pos]
        rw [hCut.base] at hp
        simp only [pageSize] at hp hLow hHigh
        omega
      have hInside := hStored.inside_of_le
        (boundary_le pieceSize ((boundary_pieces x.memory l m _).mpr hStop))
      have hPresent : ∀ i < min e.size newSize,
          run.span.residency[(e.va - run.span.base + i) / pageSize]? ≠ some .absent := by
        intro i hi
        have hPage := (hEmits hMode a hMem).resident ((e.va - run.span.base + i) / pageSize) (by
          simp only [pageSize] at hLow hHigh ⊢
          omega) (by
          simp only [pageSize] at hLow hHigh ⊢
          omega)
        rw [hPage]
        simp
      rw [hReads, hLength, Nat.add_assoc, if_neg hInside, if_pos hVersion,
        hStored.v3Slice_eq hStart hStop hPos, packed_slice hGpu, captured_of_present hPresent,
        show l.base + (e.va - l.base) = e.va by rw [hCut.base]; omega]
      simp [finishH2D, copyH2D, splice]

/-- A static image is read back exactly when the run and the base image are both of v3
and transfers begin and end with the allocation. -/
theorem StaticRun.decodes_iff (run : StaticRun) (r : RestoreSetup) (e : AllocEntry)
    (newSize : Nat) :
    run.Decodes r e newSize ↔ (run.Emits → run.Readable r.base.version e newSize) := by
  refine ⟨fun h hEmits => ?_, decodes_of_readable⟩
  cases hMode : run.encrypted with
  | false => exact absurd h (not_decodes_legacy hMode r e newSize)
  | true =>
      by_cases hVersion : r.base.version = 3
      · exact readable_of_decodes hMode hVersion hEmits h
      · let x (tag : Bytes → UInt8) : Emission :=
          ⟨tagCiphers tag, fun _ => 0, 0, ⟨id, List.Perm.refl⟩, ⟨fun _ => 0, 0⟩⟩
        obtain ⟨written, hImg, -⟩ := (StaticRun.emit_coalesced hMode (x fun _ => 1)).1 hEmits
        refine absurd h (not_decodes_of_untagged (fun hBoth => hVersion hBoth.2) x
          (fun tag => rfl) fun tag => Eq.trans ?_ hImg)
        simp only [StaticRun.emit, hMode, if_true]
        rfl

/-- One H2D range of 2 MB on the GPU, in a run without `--encrypted`. -/
def weightsRun : StaticRun where
  encrypted := false
  key := List.replicate keySize 7
  encryptThreads := 1
  online := 1
  span := ⟨0, List.replicate 512 .gpu, [512], by decide, by
    rw [pagesOn_length, List.count_replicate_self]; rfl⟩
  ranges := [⟨0, 512⟩]
  ordered := List.pairwise_singleton _ _
  inside := by
    intro a ha
    rw [List.mem_singleton.mp ha, List.length_replicate]
    exact Nat.le_refl 512

def weightsAlloc : AllocEntry := ⟨0, chunk2MB, false, zero_lt_vaLimit, by decide⟩

/-- A restore beside a v2 base image, with the key of the run in every key file. -/
def weightsSetup : RestoreSetup where
  allocs := [weightsAlloc]
  base := ⟨2, [], fun _ => 0, 0⟩
  delta := ⟨0xDE17A001, 1, [], fun _ => 0, 0⟩
  keys := ⟨none, some weightsRun.key, some weightsRun.key⟩
  chunkSize := chunk2MB
  slotsOk := true
  env := ⟨fun _ => none, fun _ => []⟩
  table := by decide
  base_key := fun h => absurd h (by decide)
  env_copies := clearEnv_copies

/-- The weights are not read back. -/
theorem not_decodes_weightsRun : ¬ ∀ (run : StaticRun) (r : RestoreSetup) (e : AllocEntry)
    (newSize : Nat), run.Emits → run.Decodes r e newSize := by
  intro h
  have hDecodes := h weightsRun weightsSetup weightsAlloc chunk2MB fun hMode =>
    absurd hMode (by decide)
  exact not_decodes_legacy rfl weightsSetup weightsAlloc chunk2MB hDecodes

end FlashCkpt.Restore
