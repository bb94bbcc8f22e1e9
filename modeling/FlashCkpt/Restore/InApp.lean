import FlashCkpt.Baseline.Run
import FlashCkpt.Crypto.Channel
import FlashCkpt.Library.SizeCut

/-! The restore hooks of `libckpt_vllm.c`. The images are mapped once; every
allocation the restarted application makes is then filled from the base image,
overlaid with the v4 delta, by the index of the allocation call. -/
namespace FlashCkpt.Restore

open ByteImage SizeCut Crypto Image Baseline

def gateAllocMax : Nat := 2715

/-- How a call of `restore_apply_alloc` ends. A `passthrough` returns 0 without
touching the allocation; `overrun` is a write past the end of a ring slot. -/
inductive Status where
  | passthrough
  | restored
  | failed
  | overrun
  deriving DecidableEq, Repr

/-- The outcome of a call and the allocation's bytes after it. -/
structure Applied where
  status : Status
  buffer : Bytes
  deriving DecidableEq, Repr

/-- `rst_chunk_job_t`. -/
structure ChunkJob where
  byteOff : Nat
  byteSize : Nat
  cipherFileOff : Nat
  metas : List CryptoMeta
  deriving DecidableEq, Repr

/-- What the calls the hook makes do beside its own code: a copy to the device
that fails leaves some bytes behind, and so does a failed decryption in a ring
slot. -/
structure Env where
  h2dFault : Nat → Option Bytes
  slotJunk : ChunkJob → Bytes

/-- Copies that do not fail, over slots that are empty. -/
theorem clearEnv_copies (k : Nat) : (⟨fun _ => none, fun _ => []⟩ : Env).h2dFault k = none := rfl

/-- A `cudaMemcpy` to the device. -/
def copyH2D (fault : Option Bytes) (buffer : Bytes) (off : Nat) (src : Bytes) : Bool × Bytes :=
  match fault with
  | none => (true, splice buffer off src)
  | some junk => (false, splice buffer off (junk.take src.length))

section Cut

variable {α : Type} (size : α → Nat)

/-- The slices of an allocation's jobs, from the bytes done so far on; none when
the entries run out. -/
def cutChunks (chunkSize ckptSize bytesDone : Nat) (entries : List α) : Option (List (List α)) :=
  if bytesDone < ckptSize then
    if total size (takeUpTo size (min chunkSize (ckptSize - bytesDone)) 0 entries).1 = 0 then
      none
    else
      (cutChunks chunkSize ckptSize
        (bytesDone +
          total size (takeUpTo size (min chunkSize (ckptSize - bytesDone)) 0 entries).1)
        (takeUpTo size (min chunkSize (ckptSize - bytesDone)) 0 entries).2).map
      ((takeUpTo size (min chunkSize (ckptSize - bytesDone)) 0 entries).1 :: ·)
  else some []
termination_by ckptSize - bytesDone

/-- The slices of an allocation at an offset of its range, which must lie
between two entries. -/
def cutAlloc (chunkSize offset ckptSize : Nat) (entries : List α) : Option (List (List α)) :=
  let (before, rest) := takeUpTo size offset 0 entries
  if total size before ≠ offset then none else cutChunks size chunkSize ckptSize 0 rest

end Cut

def rangeMetas (f : BaseFile) (d : RangeDesc) : List CryptoMeta :=
  readMetas f.data d.metaOffset (d.cryptoMetaBytes / cryptoMetaSize)

/-- The jobs of consecutive slices of the GPU section. -/
def toJobs (cipherStart : Nat) : Nat → List (List CryptoMeta) → List ChunkJob
  | _, [] => []
  | bytesDone, slice :: rest =>
      ⟨bytesDone, total CryptoMeta.size slice, cipherStart + bytesDone, slice⟩ ::
        toJobs cipherStart (bytesDone + total CryptoMeta.size slice) rest

/-- The jobs of one allocation in `rst_precompute_jobs`. -/
def allocJobs (f : BaseFile) (chunkSize : Nat) (e : AllocEntry) : Option (List ChunkJob) :=
  match findDesc f.descs e.va e.size with
  | none => some []
  | some d =>
      (cutAlloc CryptoMeta.size chunkSize (e.va - d.baseVa) e.size (rangeMetas f d)).map
        (toJobs (d.gpuOffset + (e.va - d.baseVa)) 0)

/-- `rst_pool_init_once`: the ring is used when every allocation's jobs could be
computed, there is one, and the slots could be allocated. -/
def poolInit (f : BaseFile) (allocs : List AllocEntry) (chunkSize : Nat) (slotsOk : Bool) :
    Option (List (List ChunkJob)) :=
  match allocs.mapM (allocJobs f chunkSize) with
  | none => none
  | some jobs => if jobs.flatten = [] ∨ !slotsOk then none else some jobs

/-- The state `restore_init` leaves, with the ring of the first call. -/
structure State where
  allocs : List AllocEntry
  base : BaseFile
  key : Bytes
  delta : Option DeltaFile
  staticImg : Option BaseFile
  chunkSize : Nat
  ring : Option (List (List ChunkJob))

/-- `restore_init`. The delta is used only when its header is that of a v4 delta
with blocks. -/
def restoreInit (allocs : List AllocEntry) (base : BaseFile) (key : Option Bytes)
    (delta : DeltaFile) (staticImg : Option BaseFile) (deviceOk : Bool) (chunkSize : Nat)
    (slotsOk : Bool) : Option State :=
  if allocs = [] ∨ gateAllocMax < allocs.length then none
  else if base.version = 3 ∧ !deviceOk then none
  else if base.version = 4 ∧ key = none then none
  else
    some { allocs := allocs
           base := base
           key := key.getD []
           delta := if delta.magic = deltaV4Magic ∧ delta.version = 4 ∧ delta.blocks ≠ [] then
             some delta else none
           staticImg := staticImg
           chunkSize := chunkSize
           ring := if base.version = 3 then poolInit base allocs chunkSize slotsOk else none }

/-- The v3 path: the slice of the metadata which covers the bytes, decrypted by
ioctl 112. -/
def v3Slice (channel : Channel) (f : BaseFile) (d : RangeDesc) (offset copySize : Nat) :
    Option Bytes :=
  let (before, rest) := takeUpTo CryptoMeta.size offset 0 (rangeMetas f d)
  if total CryptoMeta.size before ≠ offset then none
  else
    let (slice, _) := takeUpTo CryptoMeta.size copySize 0 rest
    if total CryptoMeta.size slice ≠ copySize then none
    else decryptEncryptedPages channel f.data (d.gpuOffset + offset) copySize slice

/-- The v4 path: whole chunks, decrypted with the key of the file. -/
def v4Chunks (gcm : Gcm) (key : Bytes) (f : BaseFile) (d : RangeDesc) (offset copySize : Nat) :
    Option Bytes :=
  if offset % cryptoChunkBytes ≠ 0 ∨ copySize % cryptoChunkBytes ≠ 0 ∨
      copySize < cryptoChunkBytes then none
  else
    let nChunks := copySize / cryptoChunkBytes % 2 ^ 32
    decryptPages gcm key (read f.data (d.gpuOffset + offset) copySize)
      (read f.data (d.metaOffset + offset / cryptoChunkBytes * pageMetaSize)
        (nChunks * pageMetaSize)) nChunks cryptoChunkBytes

/-- One block of the v4 delta laid over the staging buffer of an allocation. -/
def overlayBlock (gcm : Gcm) (key : Bytes) (delta : DeltaFile) (va copySize : Nat)
    (staging : Bytes) (blk : DeltaBlock) : Option Bytes :=
  let lo := max va blk.baseVa
  let hi := min (va + copySize) (blk.baseVa + blk.length)
  if hi ≤ lo then some staging
  else if (lo - blk.baseVa) % cryptoChunkBytes ≠ 0 ∨ (hi - lo) % cryptoChunkBytes ≠ 0 then none
  else if delta.size < blk.dataOffset + (lo - blk.baseVa) + (hi - lo) then none
  else
    let nChunks := (hi - lo) / cryptoChunkBytes % 2 ^ 32
    (decryptPages gcm key (read delta.data (blk.dataOffset + (lo - blk.baseVa)) (hi - lo))
      (read delta.data (blk.dataOffset + blk.length +
        (lo - blk.baseVa) / cryptoChunkBytes * pageMetaSize) (nChunks * pageMetaSize))
      nChunks cryptoChunkBytes).map (splice staging (lo - va))

/-- The loop over the blocks of the delta. -/
def overlayDelta (gcm : Gcm) (key : Bytes) (delta : Option DeltaFile) (va copySize : Nat)
    (staging : Bytes) : Option Bytes :=
  match delta with
  | none => some staging
  | some f => f.blocks.foldlM (overlayBlock gcm key f va copySize) staging

/-- The staging buffer filled from the base image. -/
def baseStaging (gcm : Gcm) (channel : Channel) (key : Bytes) (f : BaseFile) (d : RangeDesc)
    (offset copySize : Nat) : Option Bytes :=
  if f.version = 3 then v3Slice channel f d offset copySize
  else if f.version = 4 then v4Chunks gcm key f d offset copySize
  else some (read f.data (d.gpuOffset + offset) copySize)

/-- The end of the serial paths: an error, or the staging buffer copied to the
front of the allocation. -/
def finishH2D (fault : Option Bytes) (buffer : Bytes) : Option Bytes → Applied
  | none => ⟨.failed, buffer⟩
  | some staging =>
      let (ok, after) := copyH2D fault buffer 0 staging
      ⟨if ok then .restored else .failed, after⟩

/-- The chunked ring: the slot of every job is copied as far as the new
allocation reaches. -/
def ringApply (channel : Channel) (f : BaseFile) (env : Env) :
    List ChunkJob → (k logicalOff : Nat) → Bytes → Applied
  | [], _, _, buffer => ⟨.restored, buffer⟩
  | job :: rest, k, logicalOff, buffer =>
      let slot := (decryptEncryptedPages channel f.data job.cipherFileOff job.byteSize
        job.metas).getD (env.slotJunk job)
      let chunkCopy := if buffer.length < logicalOff + job.byteSize then
        buffer.length - logicalOff else job.byteSize
      if 0 < chunkCopy then
        match copyH2D (env.h2dFault k) buffer job.byteOff (slot.take chunkCopy) with
        | (true, after) => ringApply channel f env rest (k + 1) (logicalOff + job.byteSize) after
        | (false, after) => ⟨.failed, after⟩
      else ringApply channel f env rest (k + 1) (logicalOff + job.byteSize) buffer

/-- `restore_try_apply_static`: none when the image does not cover the
allocation. -/
def tryApplyStatic (gcm : Gcm) (channel : Channel) (env : Env) (s : State)
    (staticImg : BaseFile) (e : AllocEntry) (copySize : Nat) (buffer : Bytes) : Option Applied :=
  (findDesc staticImg.descs e.va e.size).map fun d =>
    let offset := e.va - d.baseVa
    if staticImg.size < d.gpuOffset + offset + copySize then ⟨.failed, buffer⟩
    else
      finishH2D (env.h2dFault 0) buffer
        (if staticImg.version = 3 ∧ s.base.version = 3 then
          v3Slice channel staticImg d offset copySize
        else v4Chunks gcm s.key staticImg d offset copySize)

/-- `restore_apply_alloc` for the allocation with this index, whose memory the
application sees as `buffer`. -/
def restoreApplyAlloc (gcm : Gcm) (channel : Channel) (env : Env) (s : State) (idx : Nat)
    (buffer : Bytes) : Applied :=
  match s.allocs[idx]? with
  | none => ⟨.passthrough, buffer⟩
  | some e =>
      let copySize := min e.size buffer.length
      match s.staticImg.bind fun img => tryApplyStatic gcm channel env s img e copySize buffer with
      | some applied => applied
      | none =>
          match findDesc s.base.descs e.va e.size with
          | none => ⟨.passthrough, buffer⟩
          | some d =>
              let offset := e.va - d.baseVa
              if s.base.size < d.gpuOffset + offset + copySize then ⟨.passthrough, buffer⟩
              else
                match s.ring, s.delta with
                | some jobs, none =>
                    -- a job larger than a slot has been decrypted past its end
                    if jobs.flatten.any fun job => s.chunkSize < job.byteSize then
                      ⟨.overrun, buffer⟩
                    else ringApply channel s.base env (jobs.getD idx []) 0 0 buffer
                | _, _ =>
                    finishH2D (env.h2dFault 0) buffer
                      ((baseStaging gcm channel s.key s.base d offset copySize).bind
                        (overlayDelta gcm s.key s.delta e.va copySize))

end FlashCkpt.Restore
