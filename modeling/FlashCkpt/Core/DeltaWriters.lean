import FlashCkpt.Core.ParallelWriters

/-! The three writers of an incremental delta, down to the bytes of its header and its table.
`write_delta` appends everything to a fresh file, `write_delta_parallel` fills a mapped file
by a layout made beforehand, and the streaming pipeline lays the sections out as the captures
arrive. -/
namespace FlashCkpt.Core

open ByteImage Crypto Image Transition WorkerPool

/-- The fields of the header that differ from delta to delta. -/
structure DeltaCounters where
  allocStartVa : Nat
  allocSize : Nat
  numDirtyPages64k : Nat

/-- `ckpt_inc_delta_hdr_t`. -/
def deltaHeader (counters : DeltaCounters) (numBlocks : Nat) : Bytes :=
  leBytes 4 incDeltaMagic ++ leBytes 4 incDeltaVersion ++ leBytes 4 numBlocks ++
    leBytes 4 pageSize ++ leBytes 8 counters.allocStartVa ++ leBytes 8 counters.allocSize ++
    leBytes 8 counters.numDirtyPages64k

/-- `ckpt_inc_delta_block_t`. -/
def blockBytes (d : RangeDesc) : Bytes :=
  leBytes 8 d.baseVa ++ leBytes 8 d.length ++ leBytes 8 d.numPages ++ leBytes 8 d.dataOffset ++
    leBytes 8 d.resmapSize ++ leBytes 8 d.cpuBytes ++ leBytes 8 d.gpuBytes ++
    leBytes 8 d.cryptoMetaBytes

def headerWrite (counters : DeltaCounters) (numBlocks : Nat) : Write :=
  ⟨0, deltaHeader counters numBlocks⟩

def tableWrite (blocks : List RangeDesc) : Write := ⟨deltaHeaderSize, blocks.flatMap blockBytes⟩

/-- `range_capture_t` as the writers get it: the pointer to the metadata may be null, and
otherwise there are as many entries as are counted. -/
structure DeltaCapture where
  base : Nat
  length : Nat
  resmap : Bytes
  cpuBuf : Bytes
  gpuBuf : Bytes
  cryptoMeta : Option Bytes
  encryptedPageCount : Nat
  counted : (cryptoMeta.getD []).length = encryptedPageCount * cryptoMetaSize

namespace DeltaCapture

def sections (c : DeltaCapture) : Sections where
  baseVa := c.base
  length := c.length
  resmap := c.resmap
  cpu := c.cpuBuf
  gpu := c.gpuBuf
  cryptoMeta := c.cryptoMeta.getD []

/-- The test of `write_delta` and of the streaming pipeline. -/
def HasMeta (c : DeltaCapture) : Prop := c.cryptoMeta.isSome ∧ 0 < c.encryptedPageCount

instance (c : DeltaCapture) : Decidable c.HasMeta := inferInstanceAs (Decidable (_ ∧ _))

/-- `meta_bytes` with the test. -/
def testedMetaBytes (c : DeltaCapture) : Nat :=
  if c.HasMeta then c.encryptedPageCount * cryptoMetaSize else 0

/-- `meta_bytes` of `write_delta_parallel`, which does not look at the pointer. -/
def countedMetaBytes (c : DeltaCapture) : Nat := c.encryptedPageCount * cryptoMetaSize

/-- What `write_delta` appends for a block. -/
def appended (c : DeltaCapture) : Bytes :=
  c.resmap ++ c.cpuBuf ++ c.gpuBuf ++
    if c.HasMeta then (c.cryptoMeta.getD []).take (c.encryptedPageCount * cryptoMetaSize) else []

end DeltaCapture

/-- The loop that fills `blocks`. -/
def layoutBlocks (metaBytes : DeltaCapture → Nat) : List DeltaCapture → Nat → List RangeDesc
  | [], _ => []
  | c :: rest, curOff =>
      ⟨c.base, c.length, c.resmap.length, curOff, c.resmap.length, c.cpuBuf.length,
        c.gpuBuf.length, metaBytes c⟩ ::
        layoutBlocks metaBytes rest
          (curOff + c.resmap.length + c.cpuBuf.length + c.gpuBuf.length + metaBytes c)

/-- The file of `write_delta`. -/
def writeDeltaBytes (counters : DeltaCounters) (caps : List DeltaCapture) : Bytes :=
  deltaHeader counters caps.length ++
    (layoutBlocks DeltaCapture.testedMetaBytes caps (deltaStart caps.length)).flatMap blockBytes ++
    caps.flatMap DeltaCapture.appended

/-- The captures and blocks that the writers of `write_delta_parallel` share. -/
def parallelTable (caps : List DeltaCapture) : List (Sections × RangeDesc) :=
  (caps.map DeltaCapture.sections).zip
    (layoutBlocks DeltaCapture.countedMetaBytes caps (deltaStart caps.length))

/-- A run of `write_delta_parallel` over an earlier file: header and table are copied before
the writers start. -/
abbrev ParallelDelta (counters : DeltaCounters) (threads : Option Int)
    (table : List (Sections × RangeDesc)) (old : ByteImage.Image) :=
  WritersRun threads table
    (writeAll old [headerWrite counters table.length, tableWrite (table.map Prod.snd)])

/-- The delta of `write_delta_parallel` as a reader takes it. -/
def ParallelDelta.delta {counters : DeltaCounters} {threads : Option Int}
    {regions : List Sections} {old : ByteImage.Image}
    (run : ParallelDelta counters threads (placed regions (deltaStart regions.length)) old)
    (oldSize : Nat) : IncDelta where
  magic := incDeltaMagic
  version := incDeltaVersion
  blocks := (placed regions (deltaStart regions.length)).map Prod.snd
  data := run.last.data
  size := max oldSize (imageSize regions (deltaStart regions.length))

/-- What the streaming pipeline is to capture. -/
def deltaPlan (caps : List DeltaCapture) (threads : Option Int) : StreamPlan :=
  ⟨.delta, caps.map fun c => (c.base, c.length), threads⟩

/-- Table and header of a streamed delta are copied when the writers have ended. -/
def StreamRun.finalWrites {plan : StreamPlan} {old : ImageFile} (counters : DeltaCounters)
    (run : StreamRun plan old) : List Write :=
  [tableWrite run.last.file.descs, headerWrite counters plan.ranges.length]

def StreamRun.deltaData {plan : StreamPlan} {old : ImageFile} (counters : DeltaCounters)
    (run : StreamRun plan old) : ByteImage.Image :=
  writeAll run.last.file.data (run.finalWrites counters)

/-- Whatever the pipeline writes, in any state it can come to and at its end, stops at this
offset. -/
def StreamPlan.WritesBelow (plan : StreamPlan) (bound : Nat) : Prop :=
  ∀ old : ImageFile,
    (∀ events s, execute plan.next (plan.start old) events = some s →
      ∀ writer copied pool, s.pool.work writer = some (copied, pool) → copied.stop ≤ bound) ∧
    ∀ (run : StreamRun plan old) (counters : DeltaCounters),
      ∀ w ∈ run.finalWrites counters, w.stop ≤ bound

@[simp] theorem deltaHeader_length (counters : DeltaCounters) (numBlocks : Nat) :
    (deltaHeader counters numBlocks).length = deltaHeaderSize := by
  simp [deltaHeader, deltaHeaderSize]

@[simp] theorem blockBytes_length (d : RangeDesc) : (blockBytes d).length = rangeDescSize := by
  simp [blockBytes, rangeDescSize]

theorem table_bytes_length (blocks : List RangeDesc) :
    (blocks.flatMap blockBytes).length = blocks.length * rangeDescSize :=
  flatMap_length_const fun d _ => blockBytes_length d

namespace DeltaCapture

theorem testedMetaBytes_eq (c : DeltaCapture) :
    c.testedMetaBytes = c.sections.cryptoMeta.length := by
  rw [testedMetaBytes, sections, c.counted]
  split
  · rfl
  · rename_i hNone
    have hCounted := c.counted
    cases hPointer : c.cryptoMeta with
    | none =>
        rw [hPointer, Option.getD_none, List.length_nil] at hCounted
        exact hCounted
    | some entries =>
        have hZero : c.encryptedPageCount = 0 := by
          by_contra hCount
          exact hNone ⟨by rw [hPointer]; rfl, Nat.pos_of_ne_zero hCount⟩
        rw [hZero, Nat.zero_mul]

theorem countedMetaBytes_eq (c : DeltaCapture) :
    c.countedMetaBytes = c.sections.cryptoMeta.length := c.counted.symm

/-- What is appended are the four sections, whichever of them are empty. -/
theorem appended_eq (c : DeltaCapture) : c.appended =
    c.sections.resmap ++ c.sections.cpu ++ c.sections.gpu ++ c.sections.cryptoMeta := by
  have hLength := c.testedMetaBytes_eq
  rw [testedMetaBytes, sections] at hLength
  rw [appended, sections]
  refine congrArg _ ?_
  dsimp only at hLength ⊢
  split
  · rw [← c.counted, List.take_length]
  · rename_i hNone
    rw [if_neg hNone] at hLength
    exact (List.eq_nil_of_length_eq_zero hLength.symm).symm

end DeltaCapture

/-- The layout depends on the sections only. -/
theorem layoutBlocks_eq {metaBytes : DeltaCapture → Nat}
    (hMeta : ∀ c, metaBytes c = c.sections.cryptoMeta.length) (caps : List DeltaCapture)
    (off : Nat) : layoutBlocks metaBytes caps off =
      (placed (caps.map DeltaCapture.sections) off).map Prod.snd := by
  induction caps generalizing off with
  | nil => rfl
  | cons c rest ih =>
      have hNext : off + c.resmap.length + c.cpuBuf.length + c.gpuBuf.length +
          c.sections.cryptoMeta.length = (c.sections.descAt off).stop := rfl
      rw [layoutBlocks, ih, hMeta, hNext, List.map_cons, placed, List.map_cons]
      rfl

theorem parallelTable_eq (caps : List DeltaCapture) :
    parallelTable caps = placed (caps.map DeltaCapture.sections) (deltaStart caps.length) := by
  rw [parallelTable, layoutBlocks_eq DeltaCapture.countedMetaBytes_eq]
  exact (List.zip_of_prod (placed_fst _ _) rfl).symm

/-- All that is written for a delta, in the order of the file. -/
def deltaLayout (counters : DeltaCounters) (regions : List Sections) : List Write :=
  let table := placed regions (deltaStart regions.length)
  headerWrite counters regions.length :: tableWrite (table.map Prod.snd) ::
    table.flatMap sectionWrites

theorem deltaLayout_packed (counters : DeltaCounters) (regions : List Sections) :
    Packed 0 (deltaLayout counters regions)
      (imageSize regions (deltaStart regions.length)) := by
  have hHeader : (headerWrite counters regions.length).stop = deltaHeaderSize := by
    rw [Write.stop, headerWrite, deltaHeader_length, Nat.zero_add]
  have hTable : (tableWrite ((placed regions (deltaStart regions.length)).map Prod.snd)).stop =
      deltaStart regions.length := by
    rw [Write.stop, tableWrite, table_bytes_length, List.length_map, placed_length, deltaStart]
  refine ⟨rfl, ?_, ?_⟩
  · exact hHeader.symm
  · rw [hTable]
    exact placed_packed_imageSize regions _

theorem placed_bytes (regions : List Sections) (off : Nat) :
    ((placed regions off).flatMap sectionWrites).flatMap Write.bytes =
      regions.flatMap fun r => r.resmap ++ r.cpu ++ r.gpu ++ r.cryptoMeta := by
  induction regions generalizing off with
  | nil => rfl
  | cons r rest ih =>
      rw [placed, List.flatMap_cons, List.flatMap_append, ih, List.flatMap_cons]
      simp [sectionWrites]

/-- `write_delta` appends the layout from its start to its end. -/
theorem writeDeltaBytes_eq (counters : DeltaCounters) (caps : List DeltaCapture) :
    writeDeltaBytes counters caps =
      (deltaLayout counters (caps.map DeltaCapture.sections)).flatMap Write.bytes := by
  have hAppended : caps.flatMap DeltaCapture.appended =
      (caps.map DeltaCapture.sections).flatMap fun r =>
        r.resmap ++ r.cpu ++ r.gpu ++ r.cryptoMeta := by
    rw [List.flatMap_map]
    exact congrArg (fun f => caps.flatMap f) (funext DeltaCapture.appended_eq)
  rw [writeDeltaBytes, layoutBlocks_eq DeltaCapture.testedMetaBytes_eq, hAppended, deltaLayout,
    List.flatMap_cons, List.flatMap_cons, placed_bytes, List.length_map, List.append_assoc]
  rfl

/-- A file on which all of the layout was written reads as the file of `write_delta`. -/
theorem read_deltaLayout (counters : DeltaCounters) (caps : List DeltaCapture)
    {order : List Write}
    (hOrder : order.Perm (deltaLayout counters (caps.map DeltaCapture.sections)))
    (old : ByteImage.Image) :
    read (writeAll old order) 0
      (imageSize (caps.map DeltaCapture.sections) (deltaStart caps.length)) =
        writeDeltaBytes counters caps := by
  have hAll := (deltaLayout_packed counters (caps.map DeltaCapture.sections)).read_all hOrder old
  rw [Nat.sub_zero, List.length_map] at hAll
  rw [hAll, writeDeltaBytes_eq]

/-- Whatever the turns of the writers were, they made the copies of the layout. -/
theorem ParallelDelta.exists_order {counters : DeltaCounters} {threads : Option Int}
    {caps : List DeltaCapture} {old : ByteImage.Image}
    (run : ParallelDelta counters threads (parallelTable caps) old) :
    ∃ order, order.Perm (deltaLayout counters (caps.map DeltaCapture.sections)) ∧
      run.last.data = writeAll old order := by
  obtain ⟨pool, hData⟩ := run.exists_schedule
  refine ⟨_, ?_, hData.trans List.foldl_append.symm⟩
  rw [deltaLayout, parallelTable_eq, placed_length, List.length_map]
  exact ((pool.perm _).cons _).cons _

/-- So did the streaming pipeline, table and header last. -/
theorem StreamRun.exists_order {plan : StreamPlan} {old : ImageFile} (counters : DeltaCounters)
    (run : StreamRun plan old) (hDelta : plan.format = .delta)
    (hAll : run.last.sections.length = plan.ranges.length) :
    ∃ order, order.Perm (deltaLayout counters run.last.sections) ∧
      run.deltaData counters = writeAll old.data order := by
  have hEvents : StreamEvent.captureFails ∉ run.events := by
    rw [← run.captured_length_iff, ← hAll, Stream.sections_length]
  obtain ⟨pool, hData⟩ := run.exists_schedule
  have hReserve : plan.reserve = deltaStart run.last.sections.length := by
    rw [run.reserve_eq hEvents, hDelta]
    rfl
  rw [Stream.table, hReserve] at hData
  have hBytes : run.deltaData counters = writeAll (writeAll old.data (pool.order
      ((placed run.last.sections (deltaStart run.last.sections.length)).flatMap sectionWrites)))
        [tableWrite ((placed run.last.sections (deltaStart run.last.sections.length)).map Prod.snd),
          headerWrite counters run.last.sections.length] := by
    rw [StreamRun.deltaData, StreamRun.finalWrites, hData, run.descs_eq hEvents, Stream.table,
      hReserve, hAll]
  refine ⟨_, ?_, hBytes.trans List.foldl_append.symm⟩
  apply List.perm_append_comm.trans
  apply (List.Perm.swap _ _ _).trans
  exact ((pool.perm _).cons _).cons _

/-- At every moment of a stream the next copy of a writer stays below the worst case. -/
theorem Stream.work_stop {plan : StreamPlan} {old : ImageFile} {s : Stream}
    (hInv : Stream.Inv plan old s) {writer : Nat} {copied : Write}
    {pool : Pool (Sections × RangeDesc) Write} (h : s.pool.work writer = some (copied, pool)) :
    copied.stop ≤ plan.worstSize := by
  obtain ⟨order, -, hPerm⟩ := hInv.copied
  have hPending : copied ∈ s.pool.pending sectionWrites :=
    (pending_work h).mem_iff.mpr List.mem_cons_self
  have hMem := hPerm.mem_iff.mp (List.mem_append_right order hPending)
  obtain ⟨p, hp, hCopied⟩ := List.mem_flatMap.mp hMem
  have hDesc := (placed_desc hp).2
  have hStop := (sectionWrites_packed p.1 p.2.dataOffset).bounds.2 copied (hDesc ▸ hCopied)
  rw [← hDesc] at hStop
  exact Nat.le_trans hStop.2 (Stream.table_stop_worst hInv hp)

theorem StreamPlan.writesBelow_worstSize {plan : StreamPlan} (hDelta : plan.format = .delta) :
    plan.WritesBelow plan.worstSize := by
  have hReserve : deltaStart plan.ranges.length ≤ plan.worstSize := by
    rw [StreamPlan.worstSize, StreamPlan.reserve, hDelta]
    exact Nat.le_add_right _ _
  intro old
  refine ⟨fun events s hReached writer copied pool hWork => ?_, fun run counters w hw => ?_⟩
  · have hInv := invariant_execute (fun _ _ _ hInv hNext => Stream.inv_next hInv hNext) events _ _
      (Stream.inv_start plan old) hReached
    exact Stream.work_stop hInv hWork
  · simp only [StreamRun.finalWrites, List.mem_cons, List.not_mem_nil, or_false] at hw
    rcases hw with rfl | rfl
    · rw [Write.stop, tableWrite, table_bytes_length, run.file_eq.2.2]
      exact hReserve
    · rw [Write.stop, headerWrite, deltaHeader_length, Nat.zero_add]
      exact Nat.le_trans (Nat.le_add_right _ _) hReserve

section MixedPages

/-- A page on the CPU and one on the GPU, with one metadata entry. -/
def mixedPages : DeltaCapture where
  base := 8192
  length := 8192
  resmap := [0, 1]
  cpuBuf := [7]
  gpuBuf := [1, 2]
  cryptoMeta := some (List.replicate 41 0)
  encryptedPageCount := 1
  counted := rfl

def mixedPagesCaptured : StreamCapture where
  sections := mixedPages.sections
  pages := rfl
  fits := ⟨by decide, by decide⟩

def mixedPagesParallel :
    ParallelDelta ⟨8192, 8192, 1⟩ none (parallelTable [mixedPages]) fun _ => 0 where
  turns := [0, 0, 0, 0]
  last := _
  reached := rfl
  ended := rfl

def mixedPagesStreamed : StreamRun (deltaPlan [mixedPages] none) ⟨0, 0, [], fun _ => 1, 9⟩ where
  events := [.capture mixedPagesCaptured, .close, .pop 2, .copy 2, .copy 2, .copy 2, .copy 2,
    .finish true true]
  last := _
  reached := rfl
  ended := (nomatch ·)

end MixedPages

end FlashCkpt.Core
