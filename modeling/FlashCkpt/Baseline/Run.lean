import FlashCkpt.Baseline.Dispatch
import FlashCkpt.Image.Format

/-! `ckpt_baseline_run` and `ckpt_baseline_delta`: the image of all live
allocations and the image of the dirty ranges, both encrypted under the key of
the process. Files are opened without truncation, so that what an earlier file
held stays where nothing is written. -/
namespace FlashCkpt.Baseline

open ByteImage Crypto Image

/-- `ckpt_alloc_entry_t`, recorded for an allocation that succeeded. -/
structure AllocEntry where
  va : Nat
  size : Nat
  freed : Bool
  va_lt : va < 2 ^ 57
  size_le : size ≤ 2 ^ 52
  deriving DecidableEq, Repr

/-- Addresses below the end of the address space. -/
theorem zero_lt_vaLimit : 0 < 2 ^ 57 := by decide

theorem heapBase_lt : 0x7f0000000000 < 2 ^ 57 := by decide

/-- `ckpt_dirty_range_t`. -/
structure DirtyRange where
  va : Nat
  size : Nat
  va_lt : va < 2 ^ 57
  size_le : size ≤ 2 ^ 57
  deriving DecidableEq, Repr

/-- An earlier file at the path of an image; a missing one has size zero. -/
structure OldFile where
  data : ByteImage.Image
  size : Nat

/-- `delta_v4_block_t`. -/
structure DeltaBlock where
  baseVa : Nat
  length : Nat
  dataOffset : Nat
  cryptoMetaBytes : Nat
  deriving DecidableEq, Repr

def deltaHeaderSize : Nat := 24
def deltaBlockSize : Nat := 32
def deltaV4Magic : Nat := 0xDE17A004

/-- A delta image as a reader maps it. -/
structure DeltaFile where
  magic : Nat
  version : Nat
  blocks : List DeltaBlock
  data : ByteImage.Image
  size : Nat

/-- The descriptors of the live allocations, from a file offset on. -/
def baseDescs : List AllocEntry → Nat → List RangeDesc
  | [], _ => []
  | e :: rest, curOff =>
      { baseVa := e.va
        length := e.size
        numPages := e.size / 4096
        dataOffset := curOff
        resmapSize := e.size / 4096
        cpuBytes := 0
        gpuBytes := e.size
        cryptoMetaBytes := e.size / cryptoChunkBytes * pageMetaSize } ::
      baseDescs rest
        (curOff + (e.size / 4096 + e.size + e.size / cryptoChunkBytes * pageMetaSize))

def descRegion (d : RangeDesc) : Region :=
  { va := d.baseVa, length := d.length, dataOff := d.dataOffset + d.resmapSize,
    metaOff := d.dataOffset + d.resmapSize + d.gpuBytes }

/-- Every page is marked as resident on the GPU. -/
def resmapWrite (d : RangeDesc) : Write := ⟨d.dataOffset, List.replicate d.resmapSize 1⟩

def imageSize (dataStart : Nat) (descs : List RangeDesc) : Nat :=
  (descs.map fun d => d.resmapSize + d.gpuBytes + d.cryptoMetaBytes).foldl (· + ·) dataStart

/-- `ckpt_baseline_run`, which fails when one of the library's calls does. -/
def baselineRun (gcm : Gcm) (key : Bytes) (memory : ByteImage.Image) (allocs : List AllocEntry)
    (baseIv : Nat) (pool : Schedule) (old : OldFile) (callsOk : Bool) : Option BaseFile :=
  let live := allocs.filter fun e => !e.freed
  if allocs = [] ∨ live = [] then none
  else if live.any fun e => e.size % cryptoChunkBytes ≠ 0 then none
  else if !callsOk then none
  else
    let descs := baseDescs live (dataStart live.length)
    ((dispatchAll chunkBytes (descs.map descRegion) baseIv).mapM
      (workWrites gcm key memory)).map fun writes =>
        { version := 4
          descs := descs
          data := writeAll old.data (descs.map resmapWrite ++ pool.order writes.flatten)
          size := max old.size (imageSize (dataStart live.length) descs) }

/-- The block table of the dirty ranges, from a file offset on. -/
def deltaBlocks : List DirtyRange → Nat → List DeltaBlock
  | [], _ => []
  | r :: rest, curOff =>
      { baseVa := r.va
        length := r.size
        dataOffset := curOff
        cryptoMetaBytes := r.size / cryptoChunkBytes * pageMetaSize } ::
      deltaBlocks rest (curOff + (r.size + r.size / cryptoChunkBytes * pageMetaSize))

def blockRegion (b : DeltaBlock) : Region :=
  { va := b.baseVa, length := b.length, dataOff := b.dataOffset,
    metaOff := b.dataOffset + b.length }

def deltaSize (dataStart : Nat) (blocks : List DeltaBlock) : Nat :=
  (blocks.map fun b => b.length + b.cryptoMetaBytes).foldl (· + ·) dataStart

def deltaStart (n : Nat) : Nat := deltaHeaderSize + n * deltaBlockSize

/-- `ckpt_baseline_delta`. Without dirty ranges only the header is rewritten. -/
def baselineDelta (gcm : Gcm) (key : Bytes) (memory : ByteImage.Image)
    (ranges : List DirtyRange) (baseIv : Nat) (pool : Schedule) (old : OldFile)
    (callsOk : Bool) : Option DeltaFile :=
  if ranges = [] then
    if callsOk then
      some { magic := deltaV4Magic, version := 4, blocks := [], data := old.data,
             size := max old.size deltaHeaderSize }
    else none
  else if ranges.any fun r =>
      r.va % cryptoChunkBytes ≠ 0 || r.size % cryptoChunkBytes ≠ 0 || r.size = 0 then none
  else if !callsOk then none
  else
    let blocks := deltaBlocks ranges (deltaStart ranges.length)
    ((dispatchAll deltaChunkBytes (blocks.map blockRegion) baseIv).mapM
      (workWrites gcm key memory)).map fun writes =>
        { magic := deltaV4Magic
          version := 4
          blocks := blocks
          data := writeAll old.data (pool.order writes.flatten)
          size := max old.size (deltaSize (deltaStart ranges.length) blocks) }

section Layout

variable (gcm : Gcm) (key : Bytes) (memory : ByteImage.Image)

theorem chunks_mul {n : Nat} (h : n % cryptoChunkBytes = 0) :
    n / cryptoChunkBytes * cryptoChunkBytes = n :=
  Nat.div_mul_cancel (Nat.dvd_of_mod_eq_zero h)

/-- All writes of the base image, in some order, fill the file after the table. -/
theorem baseDescs_packed (live : List AllocEntry) (off iv : Nat)
    (hWhole : ∀ e ∈ live, e.size % cryptoChunkBytes = 0) :
    ∃ layout, Packed off layout (imageSize off (baseDescs live off)) ∧
      ((baseDescs live off).map resmapWrite ++
        (assignIvs ((baseDescs live off).map descRegion) iv).flatMap
          (regionWrites gcm key memory)).Perm layout := by
  induction live generalizing off iv with
  | nil => exact ⟨[], rfl, .refl _⟩
  | cons e rest ih =>
      have hSize := chunks_mul (hWhole e List.mem_cons_self)
      rw [baseDescs]
      generalize hDesc : RangeDesc.mk e.va e.size (e.size / 4096) off (e.size / 4096) 0 e.size
        (e.size / cryptoChunkBytes * pageMetaSize) = d
      obtain ⟨layout, hPacked, hPerm⟩ := ih
        (off + (e.size / 4096 + e.size + e.size / cryptoChunkBytes * pageMetaSize))
        (iv + (descRegion d).length / cryptoChunkBytes)
        fun e' h => hWhole e' (List.mem_cons_of_mem e h)
      refine ⟨resmapWrite d :: regionLayout gcm key memory (descRegion d, iv) ++ layout, ?_, ?_⟩
      · have hRegion := regionLayout_packed gcm key memory (descRegion d) iv
          (by subst hDesc; simp only [descRegion, hSize])
        have hHead : Packed off (resmapWrite d :: regionLayout gcm key memory (descRegion d, iv))
            (off + (e.size / 4096 + e.size + e.size / cryptoChunkBytes * pageMetaSize)) := by
          subst hDesc
          simp only [Packed, resmapWrite, Write.stop, List.length_replicate, true_and]
          simpa only [descRegion, Nat.add_assoc] using hRegion
        have hSum : imageSize off (d :: baseDescs rest
            (off + (e.size / 4096 + e.size + e.size / cryptoChunkBytes * pageMetaSize))) =
            imageSize (off + (e.size / 4096 + e.size + e.size / cryptoChunkBytes * pageMetaSize))
              (baseDescs rest
                (off + (e.size / 4096 + e.size + e.size / cryptoChunkBytes * pageMetaSize))) := by
          subst hDesc
          rfl
        rw [hSum]
        exact hHead.append hPacked
      · rw [List.map_cons, List.map_cons, assignIvs, List.flatMap_cons, List.cons_append,
          List.cons_append]
        apply List.Perm.cons
        refine List.perm_append_comm_assoc _ _ _ |>.trans ?_
        exact (regionWrites_perm gcm key memory (descRegion d, iv)).append hPerm

theorem deltaBlocks_packed (ranges : List DirtyRange) (off iv : Nat)
    (hWhole : ∀ r ∈ ranges, r.size % cryptoChunkBytes = 0) :
    ∃ layout, Packed off layout (deltaSize off (deltaBlocks ranges off)) ∧
      ((assignIvs ((deltaBlocks ranges off).map blockRegion) iv).flatMap
        (regionWrites gcm key memory)).Perm layout := by
  induction ranges generalizing off iv with
  | nil => exact ⟨[], rfl, .refl _⟩
  | cons r rest ih =>
      have hSize := chunks_mul (hWhole r List.mem_cons_self)
      rw [deltaBlocks]
      generalize hBlock : DeltaBlock.mk r.va r.size off
        (r.size / cryptoChunkBytes * pageMetaSize) = b
      obtain ⟨layout, hPacked, hPerm⟩ := ih
        (off + (r.size + r.size / cryptoChunkBytes * pageMetaSize))
        (iv + (blockRegion b).length / cryptoChunkBytes)
        fun r' h => hWhole r' (List.mem_cons_of_mem r h)
      refine ⟨regionLayout gcm key memory (blockRegion b, iv) ++ layout, ?_, ?_⟩
      · have hRegion := regionLayout_packed gcm key memory (blockRegion b) iv
          (by subst hBlock; simp only [blockRegion, hSize])
        have hHead : Packed off (regionLayout gcm key memory (blockRegion b, iv))
            (off + (r.size + r.size / cryptoChunkBytes * pageMetaSize)) := by
          subst hBlock
          simpa only [blockRegion, Nat.add_assoc] using hRegion
        have hSum : deltaSize off (b :: deltaBlocks rest
            (off + (r.size + r.size / cryptoChunkBytes * pageMetaSize))) =
            deltaSize (off + (r.size + r.size / cryptoChunkBytes * pageMetaSize))
              (deltaBlocks rest (off + (r.size + r.size / cryptoChunkBytes * pageMetaSize))) := by
          subst hBlock
          rfl
        rw [hSum]
        exact hHead.append hPacked
      · rw [List.map_cons, assignIvs, List.flatMap_cons]
        exact (regionWrites_perm gcm key memory (blockRegion b, iv)).append hPerm

theorem baseDescs_mem {live : List AllocEntry} {off : Nat} {d : RangeDesc}
    (h : d ∈ baseDescs live off) :
    ∃ e ∈ live, d.baseVa = e.va ∧ d.length = e.size ∧ d.gpuBytes = e.size ∧ d.cpuBytes = 0 := by
  induction live generalizing off with
  | nil => cases h
  | cons e rest ih =>
      rcases List.mem_cons.mp h with rfl | h
      · exact ⟨e, List.mem_cons_self, rfl, rfl, rfl, rfl⟩
      · obtain ⟨e', hMem, hFields⟩ := ih h
        exact ⟨e', List.mem_cons_of_mem e hMem, hFields⟩

theorem exists_baseDesc {live : List AllocEntry} {e : AllocEntry} (h : e ∈ live) (off : Nat) :
    ∃ d ∈ baseDescs live off, d.baseVa = e.va ∧ d.length = e.size := by
  induction live generalizing off with
  | nil => cases h
  | cons head rest ih =>
      rcases List.mem_cons.mp h with rfl | h
      · exact ⟨_, List.mem_cons_self, rfl, rfl⟩
      · obtain ⟨d, hMem, hFields⟩ := ih h _
        exact ⟨d, List.mem_cons_of_mem _ hMem, hFields⟩

theorem deltaBlocks_map (ranges : List DirtyRange) (off : Nat) :
    (deltaBlocks ranges off).map (fun b => (b.baseVa, b.length)) =
      ranges.map fun r => (r.va, r.size) := by
  induction ranges generalizing off with
  | nil => rfl
  | cons r rest ih => rw [deltaBlocks, List.map_cons, List.map_cons, ih]

theorem deltaBlocks_mem {ranges : List DirtyRange} {off : Nat} {b : DeltaBlock}
    (h : b ∈ deltaBlocks ranges off) : ∃ r ∈ ranges, b.baseVa = r.va ∧ b.length = r.size := by
  have hMem := List.mem_map_of_mem (f := fun b : DeltaBlock => (b.baseVa, b.length)) h
  rw [deltaBlocks_map] at hMem
  obtain ⟨r, hRange, hEq⟩ := List.mem_map.mp hMem
  simp only [Prod.mk.injEq] at hEq
  exact ⟨r, hRange, hEq.1.symm, hEq.2.symm⟩

theorem le_foldl_add (sizes : List Nat) (start : Nat) : start ≤ sizes.foldl (· + ·) start := by
  induction sizes generalizing start with
  | nil => exact Nat.le_refl start
  | cons size rest ih =>
      rw [List.foldl_cons]
      exact Nat.le_trans (Nat.le_add_right start size) (ih (start + size))

/-- The GPU section of a range ends inside the file. -/
theorem baseDescs_bound {live : List AllocEntry} {off : Nat} {d : RangeDesc}
    (h : d ∈ baseDescs live off) :
    d.dataOffset + d.resmapSize + d.cpuBytes + d.length ≤
      imageSize off (baseDescs live off) := by
  induction live generalizing off with
  | nil => cases h
  | cons e rest ih =>
      rcases List.mem_cons.mp h with rfl | h
      · refine Nat.le_trans ?_ (le_foldl_add _ (off + _))
        dsimp only
        omega
      · exact ih h

theorem deltaBlocks_bound {ranges : List DirtyRange} {off : Nat} {b : DeltaBlock}
    (h : b ∈ deltaBlocks ranges off) :
    b.dataOffset + b.length ≤ deltaSize off (deltaBlocks ranges off) := by
  induction ranges generalizing off with
  | nil => cases h
  | cons r rest ih =>
      rcases List.mem_cons.mp h with rfl | h
      · refine Nat.le_trans ?_ (le_foldl_add _ (off + _))
        dsimp only
        omega
      · exact ih h

/-- What a base image is for: every live allocation can be found in it, and
the ranges it describes hold the memory of live allocations. -/
structure BaseImage (allocs : List AllocEntry) (f : BaseFile) : Prop where
  version : f.version = 4
  found : ∀ e ∈ allocs, e.freed = false → ∃ d ∈ f.descs, d.baseVa = e.va ∧ d.length = e.size
  holds : ∀ d ∈ f.descs, ∃ iv, Holds gcm key memory f.data (descRegion d) iv
  whole : ∀ d ∈ f.descs, d.length % cryptoChunkBytes = 0 ∧ d.gpuBytes = d.length ∧
    d.cpuBytes = 0 ∧ d.dataOffset + d.resmapSize + d.cpuBytes + d.length ≤ f.size

/-- What a delta image is for: its blocks are the dirty ranges, and hold their
memory. -/
structure DeltaImage (ranges : List DirtyRange) (f : DeltaFile) : Prop where
  magic : f.magic = deltaV4Magic
  version : f.version = 4
  blocks : f.blocks.map (fun b => (b.baseVa, b.length)) = ranges.map fun r => (r.va, r.size)
  holds : ∀ b ∈ f.blocks, ∃ iv, Holds gcm key memory f.data (blockRegion b) iv
  whole : ∀ b ∈ f.blocks, b.length % cryptoChunkBytes = 0 ∧ b.dataOffset + b.length ≤ f.size

theorem baselineRun_image {allocs : List AllocEntry} {baseIv : Nat} {pool : Schedule}
    {old : OldFile} {callsOk : Bool} {f : BaseFile}
    (h : baselineRun gcm key memory allocs baseIv pool old callsOk = some f) :
    BaseImage gcm key memory allocs f := by
  unfold baselineRun at h
  dsimp only at h
  generalize hLive : allocs.filter (fun e => !e.freed) = live at h
  split at h
  · cases h
  split at h
  · cases h
  rename_i hSizes
  split at h
  · cases h
  have hWhole : ∀ e ∈ live, e.size % cryptoChunkBytes = 0 := by
    simpa [List.any_eq_true] using hSizes
  generalize hDescs : baseDescs live (dataStart live.length) = descs at h
  have hRegions : ∀ r ∈ descs.map descRegion, r.length % cryptoChunkBytes = 0 := by
    intro r hr
    obtain ⟨d, hd, rfl⟩ := List.mem_map.mp hr
    rw [← hDescs] at hd
    obtain ⟨e, he, -, hLength, -⟩ := baseDescs_mem hd
    rw [descRegion, hLength, hWhole e he]
  obtain ⟨writes, hWrites, hFlat⟩ := dispatchAll_writes gcm key memory 128 (by omega) (by omega)
    (descs.map descRegion) baseIv hRegions
  rw [show chunkBytes = 128 * cryptoChunkBytes from rfl, hWrites] at h
  cases h
  obtain ⟨layout, hPacked, hPerm⟩ :=
    baseDescs_packed gcm key memory live (dataStart live.length) baseIv hWhole
  rw [hDescs, ← hFlat] at hPerm
  have hOrder : (descs.map resmapWrite ++ pool.order writes.flatten).Perm layout :=
    ((pool.perm writes.flatten).append_left _).trans hPerm
  have hBack : ∀ w ∈ writes.flatten, read (writeAll old.data
      (descs.map resmapWrite ++ pool.order writes.flatten)) w.off w.bytes.length = w.bytes :=
    fun w hMem => hPacked.read_writeAll hOrder old.data
      (hPerm.mem_iff.mp (List.mem_append_right _ hMem))
  refine ⟨rfl, ?_, ?_, ?_⟩
  · intro e hMem hFreed
    have hLiveMem : e ∈ live := by
      rw [← hLive]
      exact List.mem_filter.mpr ⟨hMem, by simp [hFreed]⟩
    rw [← hDescs]
    exact exists_baseDesc hLiveMem _
  · intro d hd
    obtain ⟨iv, hIv⟩ := assignIvs_mem (List.mem_map_of_mem (f := descRegion) hd) baseIv
    refine ⟨iv, holds_of_read gcm key memory (p := (descRegion d, iv)) ?_⟩
    intro w hw
    exact hBack w (by rw [hFlat]; exact List.mem_flatMap.mpr ⟨_, hIv, hw⟩)
  · intro d hd
    rw [← hDescs] at hd
    obtain ⟨e, he, -, hLength, hGpu, hCpu⟩ := baseDescs_mem hd
    refine ⟨by rw [hLength, hWhole e he], by rw [hGpu, hLength], hCpu, ?_⟩
    have hBound := baseDescs_bound hd
    rw [hDescs] at hBound
    exact Nat.le_trans hBound (Nat.le_max_right _ _)

theorem baselineDelta_image {ranges : List DirtyRange} {baseIv : Nat} {pool : Schedule}
    {old : OldFile} {callsOk : Bool} {f : DeltaFile}
    (h : baselineDelta gcm key memory ranges baseIv pool old callsOk = some f) :
    DeltaImage gcm key memory ranges f := by
  unfold baselineDelta at h
  split at h
  · rename_i hNil
    subst hNil
    split at h
    · cases h
      exact ⟨rfl, rfl, rfl, by simp, by simp⟩
    · cases h
  split at h
  · cases h
  rename_i hSizes
  split at h
  · cases h
  have hWhole : ∀ r ∈ ranges, r.size % cryptoChunkBytes = 0 := by
    intro r hr
    have hNone := hSizes
    simp only [List.any_eq_true, not_exists, not_and] at hNone
    have := hNone r hr
    simp only [Bool.or_eq_true, decide_eq_true_eq, not_or] at this
    omega
  dsimp only at h
  generalize hBlocks : deltaBlocks ranges (deltaStart ranges.length) = blocks at h
  have hRegions : ∀ r ∈ blocks.map blockRegion, r.length % cryptoChunkBytes = 0 := by
    intro r hr
    obtain ⟨b, hb, rfl⟩ := List.mem_map.mp hr
    rw [← hBlocks] at hb
    obtain ⟨range, hRange, -, hLength⟩ := deltaBlocks_mem hb
    rw [blockRegion, hLength, hWhole range hRange]
  obtain ⟨writes, hWrites, hFlat⟩ := dispatchAll_writes gcm key memory 4 (by omega) (by omega)
    (blocks.map blockRegion) baseIv hRegions
  rw [show deltaChunkBytes = 4 * cryptoChunkBytes from rfl, hWrites] at h
  cases h
  obtain ⟨layout, hPacked, hPerm⟩ :=
    deltaBlocks_packed gcm key memory ranges (deltaStart ranges.length) baseIv hWhole
  rw [hBlocks, ← hFlat] at hPerm
  have hOrder : (pool.order writes.flatten).Perm layout := (pool.perm writes.flatten).trans hPerm
  have hBack : ∀ w ∈ writes.flatten, read (writeAll old.data (pool.order writes.flatten))
      w.off w.bytes.length = w.bytes :=
    fun w hMem => hPacked.read_writeAll hOrder old.data (hPerm.mem_iff.mp hMem)
  refine ⟨rfl, rfl, ?_, ?_, ?_⟩
  · rw [← hBlocks, deltaBlocks_map]
  · intro b hb
    obtain ⟨iv, hIv⟩ := assignIvs_mem (List.mem_map_of_mem (f := blockRegion) hb) baseIv
    refine ⟨iv, holds_of_read gcm key memory (p := (blockRegion b, iv)) ?_⟩
    intro w hw
    exact hBack w (by rw [hFlat]; exact List.mem_flatMap.mpr ⟨_, hIv, hw⟩)
  · intro b hb
    rw [← hBlocks] at hb
    obtain ⟨range, hRange, -, hLength⟩ := deltaBlocks_mem hb
    refine ⟨by rw [hLength, hWhole range hRange], ?_⟩
    have hBound := deltaBlocks_bound hb
    rw [hBlocks] at hBound
    exact Nat.le_trans hBound (Nat.le_max_right _ _)

/-- Nothing but the sizes of the live allocations and the library's calls can
make the baseline fail. -/
theorem baselineRun_isSome (allocs : List AllocEntry) (baseIv : Nat) (pool : Schedule)
    (old : OldFile) (hLive : ∃ e ∈ allocs, e.freed = false)
    (hWhole : ∀ e ∈ allocs, e.freed = false → e.size % cryptoChunkBytes = 0) :
    ∃ f, baselineRun gcm key memory allocs baseIv pool old true = some f := by
  obtain ⟨e, hMem, hFreed⟩ := hLive
  have hFilter : e ∈ allocs.filter fun e => !e.freed :=
    List.mem_filter.mpr ⟨hMem, by simp [hFreed]⟩
  have hNotNil : ¬(allocs = [] ∨ allocs.filter (fun e => !e.freed) = []) := by
    rintro (hNil | hNil)
    · simp [hNil] at hMem
    · simp [hNil] at hFilter
  have hSizes : ∀ e ∈ allocs.filter (fun e => !e.freed), e.size % cryptoChunkBytes = 0 := by
    intro e he
    obtain ⟨hMem, hFreed⟩ := List.mem_filter.mp he
    exact hWhole e hMem (by simpa using hFreed)
  have hNone : ¬((allocs.filter fun e => !e.freed).any
      fun e => decide (e.size % cryptoChunkBytes ≠ 0)) = true := by
    simpa [List.any_eq_true] using hSizes
  obtain ⟨writes, hWrites, -⟩ := dispatchAll_writes gcm key memory 128 (by omega) (by omega)
    ((baseDescs (allocs.filter fun e => !e.freed)
      (dataStart (allocs.filter fun e => !e.freed).length)).map descRegion) baseIv (by
        intro r hr
        obtain ⟨d, hd, rfl⟩ := List.mem_map.mp hr
        obtain ⟨e, he, -, hLength, -⟩ := baseDescs_mem hd
        rw [descRegion, hLength, hSizes e he])
  rw [baselineRun, if_neg hNotNil, if_neg hNone, if_neg (by simp)]
  dsimp only
  rw [show chunkBytes = 128 * cryptoChunkBytes from rfl, hWrites]
  exact ⟨_, rfl⟩

theorem baselineDelta_isSome (ranges : List DirtyRange) (baseIv : Nat) (pool : Schedule)
    (old : OldFile) (hWhole : ∀ r ∈ ranges, r.va % cryptoChunkBytes = 0 ∧
      r.size % cryptoChunkBytes = 0 ∧ r.size ≠ 0) :
    ∃ f, baselineDelta gcm key memory ranges baseIv pool old true = some f := by
  rw [baselineDelta]
  split
  · exact ⟨_, rfl⟩
  · have hNone : ¬(ranges.any fun r => decide (r.va % cryptoChunkBytes ≠ 0) ||
        decide (r.size % cryptoChunkBytes ≠ 0) || decide (r.size = 0)) = true := by
      simp only [List.any_eq_true, not_exists, not_and, Bool.or_eq_true, decide_eq_true_eq]
      intro r hr
      have := hWhole r hr
      omega
    obtain ⟨writes, hWrites, -⟩ := dispatchAll_writes gcm key memory 4 (by omega) (by omega)
      ((deltaBlocks ranges (deltaStart ranges.length)).map blockRegion) baseIv (by
        intro r hr
        obtain ⟨b, hb, rfl⟩ := List.mem_map.mp hr
        obtain ⟨range, hRange, -, hLength⟩ := deltaBlocks_mem hb
        rw [blockRegion, hLength, (hWhole range hRange).2.1])
    rw [if_neg hNone, if_neg (by simp)]
    dsimp only
    rw [show deltaChunkBytes = 4 * cryptoChunkBytes from rfl, hWrites]
    exact ⟨_, rfl⟩

end Layout

end FlashCkpt.Baseline
