import FlashCkpt.Restore.InApp

/-! From the writers of the v4 images to the allocations of the restarted
application. The abstract content of a checkpoint is the memory of the baseline
overlaid with the memory of the delta on the dirty ranges. -/
namespace FlashCkpt.Restore

open ByteImage Crypto Image Baseline

/-- The content a checkpoint stands for. -/
def overlaid (ranges : List (Nat × Nat)) (before after : ByteImage.Image) : ByteImage.Image :=
  fun a => if ranges.any fun r => r.1 ≤ a && a < r.1 + r.2 then after a else before a

theorem overlaid_cons (r : Nat × Nat) (ranges : List (Nat × Nat))
    (before after : ByteImage.Image) :
    overlaid (r :: ranges) before after =
      overlaid ranges (fun a => if r.1 ≤ a ∧ a < r.1 + r.2 then after a else before a) after := by
  funext a
  simp only [overlaid, List.any_cons, Bool.or_eq_true, Bool.and_eq_true, decide_eq_true_eq]
  by_cases hRest : (ranges.any fun r => decide (r.1 ≤ a) && decide (a < r.1 + r.2)) = true
  · rw [if_pos (.inr hRest), if_pos hRest]
  · rw [if_neg hRest]
    simp only [hRest, or_false, Bool.false_eq_true]

theorem chunks_lt {n : Nat} (h : n ≤ 2 ^ 52) : n / cryptoChunkBytes < 2 ^ 32 := by
  rw [show cryptoChunkBytes = 2097152 from rfl]
  omega

section Decrypt

variable {gcm : Gcm} {key : Bytes} {memory : ByteImage.Image}

/-- Whole chunks of a range that the file holds decrypt to the memory. -/
theorem decryptPages_region {data : ByteImage.Image} {r : Region} {iv : Nat}
    (h : Holds gcm key memory data r iv) {start count : Nat}
    (hBound : start + count ≤ r.length / cryptoChunkBytes) :
    decryptPages gcm key
        (read data (r.dataOff + start * cryptoChunkBytes) (count * cryptoChunkBytes))
        (read data (r.metaOff + start * pageMetaSize) (count * pageMetaSize)) count
        cryptoChunkBytes =
      some (read memory (r.va + start * cryptoChunkBytes) (count * cryptoChunkBytes)) := by
  have hPlain := read_chunks memory (r.va + start * cryptoChunkBytes) cryptoChunkBytes count
  rw [← hPlain]
  apply decryptPages_eq gcm key _ _ count cryptoChunkBytes
    (fun page => read memory (r.va + start * cryptoChunkBytes + page * cryptoChunkBytes)
      cryptoChunkBytes)
    (fun page => buildIv (iv + (start + page)))
  · intro page hPage
    exact buildIv_length _
  · intro page hPage
    have hFit : page * cryptoChunkBytes + cryptoChunkBytes ≤ count * cryptoChunkBytes := by
      rw [← Nat.succ_mul]
      exact Nat.mul_le_mul_right _ hPage
    rw [read_slice data hFit, Nat.add_assoc, ← Nat.add_mul,
      (h (start + page) (by omega)).1, chunkCipher, Nat.add_assoc, ← Nat.add_mul]
  · intro page hPage
    have hFit : page * pageMetaSize + pageMetaSize ≤ count * pageMetaSize := by
      rw [← Nat.succ_mul]
      exact Nat.mul_le_mul_right _ hPage
    rw [read_slice data hFit, Nat.add_assoc, ← Nat.add_mul,
      (h (start + page) (by omega)).2, chunkMeta, Nat.add_assoc, ← Nat.add_mul]

/-- The v4 path refuses a misaligned slice, and gives the memory otherwise. -/
theorem v4Chunks_eq {allocs : List AllocEntry} {f : BaseFile}
    (h : BaseImage gcm key memory allocs f) {d : RangeDesc} (hd : d ∈ f.descs)
    (offset copySize : Nat) (hInside : offset + copySize ≤ d.length)
    (hSize : copySize ≤ 2 ^ 52) :
    v4Chunks gcm key f d offset copySize =
      if offset % cryptoChunkBytes ≠ 0 ∨ copySize % cryptoChunkBytes ≠ 0 ∨
          copySize < cryptoChunkBytes then none
      else some (read memory (d.baseVa + offset) copySize) := by
  rw [v4Chunks]
  split
  · rfl
  · rename_i hAligned
    obtain ⟨hWhole, hGpu, hCpu, -⟩ := h.whole d hd
    obtain ⟨iv, hHolds⟩ := h.holds d hd
    have hOffset := chunks_mul (n := offset) (by omega)
    have hCopy := chunks_mul (n := copySize) (by omega)
    have hFit : offset / cryptoChunkBytes + copySize / cryptoChunkBytes ≤
        d.length / cryptoChunkBytes := by
      rw [← Nat.mul_le_mul_right_iff (by decide : 0 < cryptoChunkBytes), Nat.add_mul, hOffset,
        hCopy, chunks_mul hWhole]
      exact hInside
    have hDecrypt := decryptPages_region hHolds hFit
    rw [hOffset, hCopy] at hDecrypt
    simp only [Nat.mod_eq_of_lt (chunks_lt hSize), RangeDesc.gpuOffset, RangeDesc.metaOffset, hCpu,
      Nat.add_zero]
    exact hDecrypt

/-- One block of the delta either is refused or puts its memory over the part
of the staging buffer it covers. -/
theorem overlayBlock_cases {ranges : List DirtyRange} {f : DeltaFile}
    (h : DeltaImage gcm key memory ranges f) {blk : DeltaBlock} (hBlk : blk ∈ f.blocks)
    {va copySize : Nat} (hSize : copySize ≤ 2 ^ 52) (image : ByteImage.Image) :
    overlayBlock gcm key f va copySize (read image va copySize) blk = none ∨
      overlayBlock gcm key f va copySize (read image va copySize) blk =
        some (read (fun a => if blk.baseVa ≤ a ∧ a < blk.baseVa + blk.length then memory a
          else image a) va copySize) := by
  unfold overlayBlock
  dsimp only
  generalize hLo : max va blk.baseVa = lo
  generalize hHi : min (va + copySize) (blk.baseVa + blk.length) = hi
  split
  · refine .inr (congrArg some (read_congr ?_))
    intro a hFrom hTo
    rw [if_neg (by omega)]
  rename_i hOverlap
  split
  · exact .inl rfl
  rename_i hAligned
  split
  · exact .inl rfl
  right
  obtain ⟨hWhole, -⟩ := h.whole blk hBlk
  obtain ⟨iv, hHolds⟩ := h.holds blk hBlk
  have hStart := chunks_mul (n := lo - blk.baseVa) (by omega)
  have hCount := chunks_mul (n := hi - lo) (by omega)
  have hFit : (lo - blk.baseVa) / cryptoChunkBytes + (hi - lo) / cryptoChunkBytes ≤
      blk.length / cryptoChunkBytes := by
    rw [← Nat.mul_le_mul_right_iff (by decide : 0 < cryptoChunkBytes), Nat.add_mul, hStart,
      hCount, chunks_mul hWhole]
    omega
  have hDecrypt := decryptPages_region hHolds hFit
  have hVa : blk.baseVa + (lo - blk.baseVa) = lo := by omega
  simp only [blockRegion] at hDecrypt
  rw [hStart, hCount, hVa] at hDecrypt
  rw [Nat.mod_eq_of_lt (chunks_lt (by omega : hi - lo ≤ 2 ^ 52)), hDecrypt, Option.map_some,
    splice_read image memory (by omega) (by omega) (by omega)]
  refine congrArg some (read_congr ?_)
  intro a hFrom hTo
  have hSame : (lo ≤ a ∧ a < hi) ↔ (blk.baseVa ≤ a ∧ a < blk.baseVa + blk.length) := by omega
  simp only [hSame]

/-- The loop over the blocks fails or lays all of them over the staging buffer. -/
theorem foldlM_overlayBlock {ranges : List DirtyRange} {f : DeltaFile}
    (h : DeltaImage gcm key memory ranges f) {va copySize : Nat} (hSize : copySize ≤ 2 ^ 52)
    (blocks : List DeltaBlock) (hBlocks : ∀ b ∈ blocks, b ∈ f.blocks)
    (image : ByteImage.Image) :
    blocks.foldlM (overlayBlock gcm key f va copySize) (read image va copySize) = none ∨
      blocks.foldlM (overlayBlock gcm key f va copySize) (read image va copySize) =
        some (read (overlaid (blocks.map fun b => (b.baseVa, b.length)) image memory) va
          copySize) := by
  induction blocks generalizing image with
  | nil => exact .inr rfl
  | cons blk rest ih =>
      rw [List.foldlM_cons]
      rcases overlayBlock_cases h (hBlocks blk List.mem_cons_self) hSize image with hNone | hSome
      · rw [hNone]
        exact .inl rfl
      · rw [hSome, List.map_cons, overlaid_cons]
        exact ih (fun b hb => hBlocks b (List.mem_cons_of_mem blk hb)) _

end Decrypt

/-- Everything a checkpoint with v4 images and its restore depend on. -/
structure V4Session where
  gcm : Gcm
  channel : Channel
  key : Bytes
  allocs : List AllocEntry
  ranges : List DirtyRange
  before : ByteImage.Image
  after : ByteImage.Image
  baseIv : Nat
  deltaIv : Nat
  basePool : Schedule
  deltaPool : Schedule
  oldBase : OldFile
  oldDelta : OldFile
  baseCallsOk : Bool
  deltaCallsOk : Bool
  chunkSize : Nat
  env : Env

/-- Baseline, delta, start of the restarted application, and the hook on its
allocation `idx`; none when one of the first three reports an error. -/
def V4Session.restore (x : V4Session) (idx : Nat) (buffer : Bytes) : Option Applied := do
  let base ← baselineRun x.gcm x.key x.before x.allocs x.baseIv x.basePool x.oldBase x.baseCallsOk
  let delta ← baselineDelta x.gcm x.key x.after x.ranges x.deltaIv x.deltaPool x.oldDelta
    x.deltaCallsOk
  let s ← restoreInit x.allocs base (some x.key) delta none true x.chunkSize true
  return restoreApplyAlloc x.gcm x.channel x.env s idx buffer

/-- The content of the checkpoint. -/
def V4Session.content (x : V4Session) : ByteImage.Image :=
  overlaid (x.ranges.map fun r => (r.va, r.size)) x.before x.after

/-- The call fails, leaving the allocation as it is behind the bytes to copy, or
it fills these bytes with the content of the checkpoint; an allocation that is
not in the base image is left alone. -/
def V4Session.Reproduces (x : V4Session) (e : AllocEntry) (buffer : Bytes) (a : Applied) : Prop :=
  let copySize := min e.size buffer.length
  (a.status = .failed ∧ a.buffer.drop copySize = buffer.drop copySize) ∨
    a = ⟨.restored, read x.content e.va copySize ++ buffer.drop copySize⟩ ∨
    (e.freed = true ∧ a = ⟨.passthrough, buffer⟩)

/-- A copy to the front of the allocation succeeds, or leaves the bytes behind
it as they are. -/
theorem finishH2D_cases (fault : Option Bytes) (buffer staging : Bytes) :
    finishH2D fault buffer (some staging) =
        ⟨.restored, staging ++ buffer.drop staging.length⟩ ∨
      ((finishH2D fault buffer (some staging)).status = .failed ∧
        (finishH2D fault buffer (some staging)).buffer.drop staging.length =
          buffer.drop staging.length) := by
  cases fault with
  | none =>
      left
      simp [finishH2D, copyH2D, splice]
  | some junk =>
      right
      refine ⟨by simp [finishH2D, copyH2D], ?_⟩
      simp only [finishH2D, copyH2D, splice, List.take_zero, List.nil_append, Nat.zero_add,
        List.drop_append, List.drop_drop]
      have hShort : (junk.take staging.length).length ≤ staging.length := List.length_take_le _ _
      rw [List.drop_eq_nil_of_le hShort, List.nil_append, Nat.add_sub_cancel' hShort]

/-- Without ring and static image the staging buffer is filled from base and
delta, and copied. -/
theorem restoreApplyAlloc_serial (gcm : Gcm) (channel : Channel) (env : Env) {s : State}
    (hStatic : s.staticImg = none) (hRing : s.ring = none) {idx : Nat} {e : AllocEntry}
    (hEntry : s.allocs[idx]? = some e) {d : RangeDesc}
    (hDesc : findDesc s.base.descs e.va e.size = some d) {buffer : Bytes}
    (hInside : d.gpuOffset + (e.va - d.baseVa) + min e.size buffer.length ≤ s.base.size) :
    restoreApplyAlloc gcm channel env s idx buffer =
      finishH2D (env.h2dFault 0) buffer ((baseStaging gcm channel s.key s.base d
        (e.va - d.baseVa) (min e.size buffer.length)).bind
          (overlayDelta gcm s.key s.delta e.va (min e.size buffer.length))) := by
  simp only [restoreApplyAlloc, hEntry, hStatic, Option.bind_none, hDesc, hRing,
    if_neg (Nat.not_lt.mpr hInside)]

/-- The delta of the images laid over what the base image gave. -/
theorem overlayDelta_cases {gcm : Gcm} {key : Bytes} {after : ByteImage.Image}
    {ranges : List DirtyRange} {f : DeltaFile} (h : DeltaImage gcm key after ranges f)
    (va : Nat) {copySize : Nat} (hSize : copySize ≤ 2 ^ 52) (before : ByteImage.Image) :
    let used := if f.magic = deltaV4Magic ∧ f.version = 4 ∧ f.blocks ≠ [] then some f else none
    overlayDelta gcm key used va copySize (read before va copySize) = none ∨
      overlayDelta gcm key used va copySize (read before va copySize) =
        some (read (overlaid (ranges.map fun r => (r.va, r.size)) before after) va copySize) := by
  rw [← h.blocks]
  dsimp only
  split
  · exact foldlM_overlayBlock h hSize f.blocks (fun b hb => hb) before
  · rename_i hUnused
    have hNil : f.blocks = [] := by
      by_contra hBlocks
      exact hUnused ⟨h.magic, h.version, hBlocks⟩
    rw [hNil]
    exact .inr rfl

section Session

variable {x : V4Session} {idx : Nat} {buffer : Bytes} {a : Applied}

/-- The images and the state behind a restore. -/
theorem V4Session.restore_images (h : x.restore idx buffer = some a) :
    ∃ base delta, BaseImage x.gcm x.key x.before x.allocs base ∧
      DeltaImage x.gcm x.key x.after x.ranges delta ∧
      a = restoreApplyAlloc x.gcm x.channel x.env
        { allocs := x.allocs
          base := base
          key := x.key
          delta := if delta.magic = deltaV4Magic ∧ delta.version = 4 ∧ delta.blocks ≠ [] then
            some delta else none
          staticImg := none
          chunkSize := x.chunkSize
          ring := none } idx buffer := by
  simp only [V4Session.restore, Option.bind_eq_bind, Option.bind_eq_some_iff, Option.pure_def,
    Option.some.injEq] at h
  obtain ⟨base, hBase, delta, hDelta, s, hInit, rfl⟩ := h
  have hBaseImage := baselineRun_image _ _ _ hBase
  have hDeltaImage := baselineDelta_image _ _ _ hDelta
  simp only [restoreInit, hBaseImage.version] at hInit
  split at hInit
  · cases hInit
  simp only [Nat.reduceEqDiff, false_and, if_false, reduceCtorEq, and_false,
    Option.some.injEq] at hInit
  subst hInit
  exact ⟨base, delta, hBaseImage, hDeltaImage, rfl⟩

/-- An allocation beyond the table is left alone. -/
theorem V4Session.restore_beyond (h : x.restore idx buffer = some a)
    (hNone : x.allocs[idx]? = none) : a = ⟨.passthrough, buffer⟩ := by
  obtain ⟨base, delta, -, -, rfl⟩ := V4Session.restore_images h
  simp only [restoreApplyAlloc, hNone]

/-- An allocation of the table gets the content of the checkpoint. -/
theorem V4Session.restore_reproduces (h : x.restore idx buffer = some a) {e : AllocEntry}
    (hEntry : x.allocs[idx]? = some e) : x.Reproduces e buffer a := by
  obtain ⟨base, delta, hBaseImage, hDeltaImage, rfl⟩ := V4Session.restore_images h
  unfold V4Session.Reproduces
  dsimp only
  cases hDesc : findDesc base.descs e.va e.size with
  | none =>
      right
      right
      refine ⟨?_, by simp only [restoreApplyAlloc, hEntry, Option.bind_none, hDesc]⟩
      by_contra hLive
      obtain ⟨d, hd, hVa, hLength⟩ := hBaseImage.found e (List.mem_of_getElem? hEntry)
        (Bool.eq_false_iff.mpr hLive)
      obtain ⟨found, hFound⟩ := findDesc_isSome hd e.va e.size (by omega) (by omega)
      rw [hDesc] at hFound
      cases hFound
  | some d =>
      obtain ⟨hd, hLow, hHigh⟩ := findDesc_eq_some hDesc
      obtain ⟨hWhole, hGpu, hCpu, hFile⟩ := hBaseImage.whole d hd
      have hCopy : min e.size buffer.length ≤ e.size := Nat.min_le_left _ _
      have hSize : min e.size buffer.length ≤ 2 ^ 52 := Nat.le_trans hCopy e.size_le
      have hInside : d.gpuOffset + (e.va - d.baseVa) + min e.size buffer.length ≤ base.size := by
        simp only [RangeDesc.gpuOffset]
        omega
      rw [restoreApplyAlloc_serial x.gcm x.channel x.env rfl rfl hEntry hDesc hInside]
      have hChunks := v4Chunks_eq hBaseImage hd (e.va - d.baseVa) (min e.size buffer.length)
        (by omega) hSize
      have hVa : d.baseVa + (e.va - d.baseVa) = e.va := by omega
      simp only [baseStaging, hBaseImage.version, Nat.reduceEqDiff, if_false, if_true, hChunks,
        hVa]
      split
      · exact .inl ⟨rfl, rfl⟩
      · rw [Option.bind_some]
        rcases overlayDelta_cases hDeltaImage e.va hSize x.before with hNone | hSome
        · rw [hNone]
          exact .inl ⟨rfl, rfl⟩
        · rw [hSome]
          have hLength := read_length (overlaid (x.ranges.map fun r => (r.va, r.size)) x.before
            x.after) e.va (min e.size buffer.length)
          rcases finishH2D_cases (x.env.h2dFault 0) buffer (read (overlaid
            (x.ranges.map fun r => (r.va, r.size)) x.before x.after) e.va
              (min e.size buffer.length)) with hOk | hFault
          · rw [hLength] at hOk
            exact .inr (.inl hOk)
          · rw [hLength] at hFault
            exact .inl hFault

end Session

/-- One allocation of two chunks, of which the second is dirty. -/
def twoChunkSession : V4Session where
  gcm := Gcm.clear
  channel := Channel.clear
  key := List.replicate keySize 0
  allocs := [⟨0x7f0000000000, 2 * cryptoChunkBytes, false, heapBase_lt, by decide⟩]
  ranges := [⟨0x7f0000200000, cryptoChunkBytes, by decide, by decide⟩]
  before := fun _ => 1
  after := fun _ => 2
  baseIv := 0
  deltaIv := 2
  basePool := ⟨List.reverse, List.reverse_perm⟩
  deltaPool := ⟨id, List.Perm.refl⟩
  oldBase := ⟨fun _ => 0, 0⟩
  oldDelta := ⟨fun _ => 0, 0⟩
  baseCallsOk := true
  deltaCallsOk := true
  chunkSize := chunkBytes
  env := ⟨fun _ => none, fun _ => []⟩

end FlashCkpt.Restore
