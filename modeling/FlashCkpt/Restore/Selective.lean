import FlashCkpt.Restore.RegionPages

/-! The selective reader of `librst_vllm.c`: one buffer of zeros for each window that is
asked for, into which the pages of base and delta are copied as far as they lie in it.
The buffer of a window is memory at the addresses of the window here. -/
namespace FlashCkpt.Restore

open ByteImage SizeCut Intervals Crypto Image

/-- An entry of `requested_vas` and `requested_sizes`. -/
structure Window where
  va : Nat
  size : Nat
  va_lt : va < 2 ^ 64
  size_lt : size < 2 ^ 64

/-- `req_end` and `target_end`. -/
def Window.stop (w : Window) : Nat := (w.va + w.size) % 2 ^ 64

/-- `range_end` and `blk_end`. -/
def rangeStop (d : RangeDesc) : Nat := (d.baseVa + d.length) % 2 ^ 64

/-- The sizes `calloc` has room for, none of them above `PTRDIFF_MAX`. -/
structure Heap where
  calloc : Nat → Bool
  limit : ∀ n, calloc n = true → n < 2 ^ 63

/-- `ckpt_mem_block_t`. -/
structure MemBlock where
  origVa : Nat
  size : Nat
  data : Bytes

/-- The part of a page that lies in the window. -/
def clipPage (w : Window) (pageVa : Nat) (page : Buffer) : Log :=
  if pageVa + pageSize ≤ w.va ∨ w.stop ≤ pageVa then []
  else
    let copyStart := if w.va ≤ pageVa then pageVa else w.va
    let copyEnd := if pageVa + pageSize ≤ w.stop then pageVa + pageSize else w.stop
    [(copyStart, (page.drop (copyStart - pageVa)).take (copyEnd - copyStart))]

/-- The loop of `assemble_data_selective`. -/
def placeSelective (w : Window) : (va : Nat) → (resmap : Bytes) → (cpu gpu : Buffer) → Log
  | _, [], _, _ => []
  | va, m :: rest, cpu, gpu =>
      if m = 0 then
        clipPage w va (pageCells cpu) ++
          placeSelective w (va + pageSize) rest (cpu.drop pageSize) gpu
      else if m = 1 then
        clipPage w va (pageCells gpu) ++
          placeSelective w (va + pageSize) rest cpu (gpu.drop pageSize)
      else placeSelective w (va + pageSize) rest cpu gpu

/-- `assemble_data_selective` for a range or block that the window meets. -/
def selectiveLog (w : Window) (v3 : Bool) (data : ByteImage.Image) (size : Nat) (d : RangeDesc) :
    Option Log :=
  if rangeStop d ≤ w.va ∨ w.stop ≤ d.baseVa then some []
  else if Unreadable size d.dataOffset d.resmapSize ∨
      Unreadable size (d.dataOffset + d.resmapSize) d.cpuBytes ∨
      Unreadable size d.gpuOffset d.gpuBytes then none
  else some (placeSelective w d.baseVa (readResmap data d) (readCpu v3 data size d)
    (readGpu v3 data size d))

/-- What is copied for one window. -/
def windowLog (base : BaseFile) (delta : IncDelta) (w : Window) : Option Log := do
  let ranges ← base.descs.mapM (selectiveLog w (isV3 base) base.data base.size)
  let blocks ← delta.blocks.mapM (selectiveLog w (isV3 base) delta.data delta.size)
  return ranges.flatten ++ blocks.flatten

def Window.block (w : Window) (log : Log) : MemBlock :=
  ⟨w.va, w.size, read (replay (fun _ => 0) log) w.va w.size⟩

/-- `ckpt_restore_selective`. -/
def restoreSelective (heap : Heap) (base : BaseFile) (delta : IncDelta) (windows : List Window) :
    Option (List MemBlock) :=
  if windows = [] then some []
  else if !windows.all fun w => heap.calloc w.size then none
  else if maxRanges < base.descs.length then none
  else if delta.magic ≠ incDeltaMagic then none
  else windows.mapM fun w => (windowLog base delta w).map w.block

/-- The pages of a range or block lie in it, and it lies in the lower half of the address
space. -/
structure PagesInside (d : RangeDesc) : Prop where
  pages : d.numPages * pageSize ≤ d.length
  user : d.baseVa + d.length ≤ 2 ^ 63

/-- The address lies in the pages of a range or block. -/
def HasByte (d : RangeDesc) (a : Nat) : Prop :=
  d.baseVa ≤ a ∧ a < d.baseVa + d.numPages * pageSize

section Bytes

/-- A byte of the result depends on what was there only at its own address. -/
theorem replay_congr {image image' : ByteImage.Image} {a : Nat} (h : image a = image' a)
    (log : Log) : replay image log a = replay image' log a := by
  induction log generalizing image image' with
  | nil => exact h
  | cons w rest ih =>
      rw [replay_cons, replay_cons]
      refine ih ?_
      rw [write, write, h]

variable {f : RangeDesc → Option Log} {descs : List RangeDesc} {logs : List Log}

/-- Where no range has pages nothing is copied. -/
theorem replay_within {log : Log} {d : RangeDesc} (h : Within log d) {a : Nat} (ha : ¬HasByte d a)
    (image : ByteImage.Image) : replay image log a = image a := by
  apply replay_outside
  intro w hw
  have hCopy := h w hw
  rw [HasByte] at ha
  omega

theorem replay_uncovered (hWithin : ∀ d log, f d = some log → Within log d)
    (h : descs.mapM f = some logs) {a : Nat} (ha : ∀ d ∈ descs, ¬HasByte d a)
    (image : ByteImage.Image) : replay image logs.flatten a = image a := by
  apply replay_outside
  intro w hw
  obtain ⟨log, hLog, hw⟩ := List.mem_flatten.mp hw
  obtain ⟨d, hd, hInside⟩ := mapM_within hWithin h log hLog
  have hCopy := hInside w hw
  have hOut := ha d hd
  rw [HasByte] at hOut
  omega

theorem Apart.not_hasByte {d e : RangeDesc} (h : Apart d e) {a : Nat} (ha : HasByte d a) :
    ¬HasByte e a := by
  rw [Apart] at h
  rw [HasByte] at ha ⊢
  omega

/-- An address in a range that lies apart from the others shows that range. -/
theorem replay_covered (hWithin : ∀ d log, f d = some log → Within log d)
    (hApart : descs.Pairwise Apart) (h : descs.mapM f = some logs) {d : RangeDesc} (hd : d ∈ descs)
    {a : Nat} (ha : HasByte d a) : ∃ log, f d = some log ∧ ∀ image,
      replay image logs.flatten a = replay image log a := by
  induction descs generalizing logs with
  | nil => cases hd
  | cons e rest ih =>
      simp only [List.mapM_cons, Option.bind_eq_bind, Option.bind_eq_some_iff, Option.pure_def,
        Option.some.injEq] at h
      obtain ⟨first, hFirst, others, hOthers, rfl⟩ := h
      obtain ⟨hHead, hTail⟩ := List.pairwise_cons.mp hApart
      rcases List.mem_cons.mp hd with rfl | hd
      · refine ⟨first, hFirst, fun image => ?_⟩
        rw [List.flatten_cons, replay_append]
        exact replay_uncovered hWithin hOthers (fun e he => (hHead e he).not_hasByte ha) _
      · obtain ⟨log, hLog, hSame⟩ := ih hTail hOthers hd
        refine ⟨log, hLog, fun image => ?_⟩
        rw [List.flatten_cons, replay_append, hSame]
        exact replay_congr (replay_within (hWithin e first hFirst)
          ((hHead d hd).symm.not_hasByte ha) image) log

/-- Ranges that lie apart can be copied in any order. -/
theorem replay_perm (hWithin : ∀ d log, f d = some log → Within log d)
    (hApart : descs.Pairwise Apart) {descs' : List RangeDesc} (hPerm : descs'.Perm descs)
    {logs' : List Log} (h : descs.mapM f = some logs) (h' : descs'.mapM f = some logs')
    (image : ByteImage.Image) : replay image logs'.flatten = replay image logs.flatten := by
  funext a
  by_cases hCovered : ∃ d ∈ descs, HasByte d a
  · obtain ⟨d, hd, ha⟩ := hCovered
    obtain ⟨log, hLog, hSame⟩ := replay_covered hWithin hApart h hd ha
    obtain ⟨log', hLog', hSame'⟩ := replay_covered hWithin
      (hPerm.symm.pairwise hApart fun h => h.symm) h' (hPerm.mem_iff.mpr hd) ha
    rw [hSame, hSame', Option.some.inj (hLog.symm.trans hLog')]
  · rw [not_exists] at hCovered
    rw [replay_uncovered hWithin h fun d hd ha => hCovered d ⟨hd, ha⟩,
      replay_uncovered hWithin h' fun d hd ha => hCovered d ⟨hPerm.mem_iff.mp hd, ha⟩]

end Bytes

section Clip

variable (w : Window)

theorem pageCells_length (b : Buffer) : (pageCells b).length = pageSize := by
  rw [pageCells, List.length_map, List.length_range]

/-- The loop copies what the loop of the full reader copies, clipped to the window. -/
theorem placeSelective_eq (va : Nat) (resmap : Bytes) (cpu gpu : Buffer) :
    placeSelective w va resmap cpu gpu =
      (placePages false va resmap cpu gpu).flatMap fun p => clipPage w p.1 p.2 := by
  induction resmap generalizing va cpu gpu with
  | nil => rfl
  | cons m rest ih =>
      rw [placeSelective, placePages]
      by_cases hCpu : m = 0
      · rw [if_pos hCpu, if_pos ⟨hCpu, .inl rfl⟩, ih, List.flatMap_cons]
      · have hSkip : ¬(m = 0 ∧ ((!false) = true ∨ pageSize ≤ cpu.length)) := fun h => hCpu h.1
        rw [if_neg hCpu, if_neg hSkip]
        by_cases hGpu : m = 1
        · rw [if_pos hGpu, if_pos ⟨hGpu, .inl rfl⟩, ih, List.flatMap_cons]
        · have hAbsent : ¬(m = 1 ∧ ((!false) = true ∨ pageSize ≤ gpu.length)) := fun h => hGpu h.1
          rw [if_neg hGpu, if_neg hAbsent, ih]

theorem placePages_length (checked : Bool) (va : Nat) (resmap : Bytes) (cpu gpu : Buffer) :
    ∀ p ∈ placePages checked va resmap cpu gpu, p.2.length = pageSize := by
  induction resmap generalizing va cpu gpu with
  | nil => exact fun _ => nofun
  | cons m rest ih =>
      rw [placePages]
      split
      · rw [List.forall_mem_cons, pageCells_length]
        exact ⟨rfl, ih _ _ _⟩
      · split
        · rw [List.forall_mem_cons, pageCells_length]
          exact ⟨rfl, ih _ _ _⟩
        · exact ih _ _ _

/-- A clipped copy lies in the page, and in a window that does not wrap around. -/
theorem clipPage_inside {va : Nat} {page : Buffer} (hPage : page.length = pageSize)
    {copy : Nat × Buffer} (h : copy ∈ clipPage w va page) :
    (va ≤ copy.1 ∧ copy.1 + copy.2.length ≤ va + pageSize) ∧
      (w.va ≤ w.stop → w.va ≤ copy.1 ∧ copy.1 + copy.2.length ≤ w.stop) := by
  rw [clipPage] at h
  split at h
  · cases h
  · rename_i hMeets
    rw [List.mem_singleton] at h
    subst h
    dsimp only
    rw [List.length_take, List.length_drop, hPage]
    constructor
    · split <;> split <;> omega
    · intro hOrder
      split <;> split <;> omega

/-- A part of the bytes, written where it belongs. -/
theorem write_part (image : ByteImage.Image) (va start stop a : Nat) (bytes : Bytes)
    (hStart : va ≤ start) (hStop : stop ≤ va + bytes.length) (ha : start ≤ a ∧ a < stop) :
    write image ⟨start, (bytes.drop (start - va)).take (stop - start)⟩ a = write image ⟨va, bytes⟩ a := by
  rw [write, write, Write.stop, Write.stop]
  dsimp only
  rw [List.length_take, List.length_drop, if_pos (by omega), if_pos (by omega),
    List.getD_eq_getElem?_getD, List.getD_eq_getElem?_getD, List.getElem?_take_of_lt (by omega),
    List.getElem?_drop]
  congr 2
  omega

/-- Inside the window the clipped copy of a page is the page. -/
theorem replay_clipPage {va a : Nat} {page : Buffer} (hPage : page.length = pageSize)
    (hLow : w.va ≤ a) (hHigh : a < w.stop) (image : ByteImage.Image) :
    replay image (clipPage w va page) a = write image ⟨va, values page⟩ a := by
  have hLength : (values page).length = pageSize := by rw [values, List.length_map, hPage]
  by_cases hPlace : va ≤ a ∧ a < va + pageSize
  · rw [clipPage, if_neg (by omega)]
    dsimp only
    rw [replay_cons, values, List.map_take, List.map_drop, ← values]
    exact write_part image va _ _ a _ (by split <;> omega) (by split <;> omega)
      (by split <;> split <;> omega)
  · rw [replay_outside, write_outside]
    · dsimp only [Write.stop]
      omega
    · intro copy hCopy
      have hInside := (clipPage_inside w hPage hCopy).1
      omega

theorem replay_clip {a : Nat} {log : Log} (hPages : ∀ p ∈ log, p.2.length = pageSize)
    (hLow : w.va ≤ a) (hHigh : a < w.stop) (image : ByteImage.Image) :
    replay image (log.flatMap fun p => clipPage w p.1 p.2) a = replay image log a := by
  induction log generalizing image with
  | nil => rfl
  | cons p rest ih =>
      rw [List.forall_mem_cons] at hPages
      rw [List.flatMap_cons, replay_append, ih hPages.2, replay_cons]
      exact replay_congr (replay_clipPage w hPages.1 hLow hHigh image) rest

end Clip

section Slice

variable {w : Window} {v3 : Bool} {data : ByteImage.Image} {size : Nat} {d : RangeDesc} {log : Log}

/-- What the selective reader copies of a range is what the full reader copies, as far as
it is in the window. -/
theorem selectiveLog_of_dataLog (h : dataLog v3 data size d = some log) (hPages : PagesInside d)
    (hSize : w.size < 2 ^ 63) : ∃ clipped, selectiveLog w v3 data size d = some clipped ∧
      (∀ copy ∈ clipped, w.va ≤ copy.1 ∧ copy.1 + copy.2.length ≤ w.va + w.size) ∧
        ∀ a image, w.va ≤ a → a < w.va + w.size → replay image clipped a = replay image log a := by
  have hWithin := dataLog_within h
  have hRange : rangeStop d = d.baseVa + d.length := by
    have hUser := hPages.user
    exact Nat.mod_eq_of_lt (by omega)
  have hLogs : ∀ a, w.va ≤ a → a < w.va + w.size → HasByte d a → w.va < 2 ^ 63 := by
    intro a hLow hHigh hHas
    have hInside := hPages.pages
    have hUser := hPages.user
    rw [HasByte] at hHas
    omega
  have hStop : w.va < 2 ^ 63 → w.stop = w.va + w.size := fun hUser => Nat.mod_eq_of_lt (by omega)
  rw [selectiveLog]
  by_cases hMisses : rangeStop d ≤ w.va ∨ w.stop ≤ d.baseVa
  · rw [if_pos hMisses]
    refine ⟨[], rfl, fun _ => nofun, fun a image hLow hHigh => ?_⟩
    refine (replay_within hWithin (fun hHas => ?_) image).symm
    have hEnd := hStop (hLogs a hLow hHigh hHas)
    have hInside := hPages.pages
    rw [HasByte] at hHas
    omega
  · rw [dataLog] at h
    split at h
    · cases h
    rename_i hReadable
    cases h
    have hEnd := hStop (by have hUser := hPages.user; omega)
    rw [if_neg hMisses, if_neg hReadable, placeSelective_eq]
    have hLengths := placePages_length false d.baseVa (readResmap data d) (readCpu v3 data size d)
      (readGpu v3 data size d)
    refine ⟨_, rfl, ?_, fun a image hLow hHigh => ?_⟩
    · intro copy hCopy
      obtain ⟨p, hp, hCopy⟩ := List.mem_flatMap.mp hCopy
      rw [← hEnd]
      exact (clipPage_inside w (hLengths p hp) hCopy).2 (by omega)
    · exact replay_clip w hLengths hLow (hEnd ▸ hHigh) image

/-- The same for ranges one after the other, over bytes that are the same. -/
theorem selectiveLogs_of_dataLogs {descs : List RangeDesc} {logs : List Log}
    (h : descs.mapM (dataLog v3 data size) = some logs) (hPages : ∀ d ∈ descs, PagesInside d)
    (hSize : w.size < 2 ^ 63) : ∃ clipped, descs.mapM (selectiveLog w v3 data size) = some clipped ∧
      (∀ copy ∈ clipped.flatten, w.va ≤ copy.1 ∧ copy.1 + copy.2.length ≤ w.va + w.size) ∧
        ∀ a image image', w.va ≤ a → a < w.va + w.size → image a = image' a →
          replay image clipped.flatten a = replay image' logs.flatten a := by
  induction descs generalizing logs with
  | nil =>
      cases h
      exact ⟨[], rfl, fun _ => nofun, fun _ _ _ _ _ hSame => hSame⟩
  | cons d rest ih =>
      simp only [List.mapM_cons, Option.bind_eq_bind, Option.bind_eq_some_iff, Option.pure_def,
        Option.some.injEq] at h
      obtain ⟨first, hFirst, others, hOthers, rfl⟩ := h
      rw [List.forall_mem_cons] at hPages
      obtain ⟨clip, hClip, hInside, hByte⟩ := selectiveLog_of_dataLog hFirst hPages.1 hSize
      obtain ⟨clips, hClips, hInsides, hBytes⟩ := ih hOthers hPages.2
      refine ⟨clip :: clips, ?_, ?_, fun a image image' hLow hHigh hSame => ?_⟩
      · rw [List.mapM_cons, hClip, hClips]
        rfl
      · rw [List.flatten_cons, List.forall_mem_append]
        exact ⟨hInside, hInsides⟩
      · rw [List.flatten_cons, List.flatten_cons, replay_append, replay_append]
        refine hBytes a _ _ hLow hHigh ?_
        rw [hByte a image hLow hHigh]
        exact replay_congr hSame first

end Slice

theorem mapM_imp {α β : Type} {f g : α → Option β} {l : List α} {results : List β}
    (h : l.mapM f = some results) (hImp : ∀ a b, f a = some b → g a = some b) :
    l.mapM g = some results := by
  induction l generalizing results with
  | nil => exact h
  | cons a rest ih =>
      simp only [List.mapM_cons, Option.bind_eq_bind, Option.bind_eq_some_iff, Option.pure_def,
        Option.some.injEq] at h ⊢
      obtain ⟨b, hFirst, others, hOthers, rfl⟩ := h
      exact ⟨b, hImp a b hFirst, others, ih hOthers, rfl⟩

theorem mapM_of_forall {α β : Type} {f : α → Option β} {g : α → β} {l : List α}
    (h : ∀ a ∈ l, f a = some (g a)) : l.mapM f = some (l.map g) := by
  induction l with
  | nil => rfl
  | cons a rest ih =>
      rw [List.forall_mem_cons] at h
      rw [List.mapM_cons, h.1, ih h.2]
      rfl

/-- A block in a group lies in the ranges the groups are made of. -/
theorem covered_of_findGroup {descs : List RangeDesc} {b : RangeDesc}
    (h : findGroup (groupDescs descs) b ≠ none) {a : Nat} (hLow : b.baseVa ≤ a)
    (hHigh : a < b.baseVa + b.length) : ∃ d ∈ descs, d.baseVa ≤ a ∧ a < d.baseVa + d.length := by
  obtain ⟨g, hFind⟩ := Option.ne_none_iff_exists'.mp h
  have hGroup := List.find?_some hFind
  simp only [Bool.and_eq_true, decide_eq_true_eq] at hGroup
  have hOrder : ((sortDescs descs).map fun d => (d.baseVa, d.length)).Pairwise
      fun a b => a.1 ≤ b.1 := List.pairwise_map.mpr (sortDescs_pairwise descs)
  obtain ⟨r, hr, hRange⟩ := (inside_merge_iff hOrder (Nat.lt_succ_self a)).mp
    ⟨g, List.mem_of_find?_eq_some hFind, by omega, by omega⟩ a (Nat.le_refl a) (Nat.lt_succ_self a)
  obtain ⟨d, hd, rfl⟩ := List.mem_map.mp hr
  exact ⟨d, List.mem_mergeSort.mp hd, hRange⟩

section Files

variable {base : BaseFile} {delta : IncDelta} {r : Restored}

/-- A window reads the slice of what the ranges and the blocks write, one after the other. -/
theorem windowLog_slice {w : Window} {ranges blocks : List Log}
    (hBase : ∀ d ∈ base.descs, PagesInside d) (hDelta : ∀ b ∈ delta.blocks, PagesInside b)
    (hRanges : base.descs.mapM (dataLog (isV3 base) base.data base.size) = some ranges)
    (hBlocks : delta.blocks.mapM (dataLog (isV3 base) delta.data delta.size) = some blocks)
    (hSize : w.size < 2 ^ 63) : ∃ log, windowLog base delta w = some log ∧
      (∀ copy ∈ log, w.va ≤ copy.1 ∧ copy.1 + copy.2.length ≤ w.va + w.size) ∧
        w.block log = ⟨w.va, w.size, read (replay (fun _ => 0) (ranges.flatten ++ blocks.flatten))
          w.va w.size⟩ := by
  obtain ⟨clips, hClips, hInside, hBytes⟩ := @selectiveLogs_of_dataLogs w _ _ _ _ _ hRanges hBase hSize
  obtain ⟨patches, hPatches, hInside', hBytes'⟩ :=
    @selectiveLogs_of_dataLogs w _ _ _ _ _ hBlocks hDelta hSize
  refine ⟨clips.flatten ++ patches.flatten, ?_, ?_, ?_⟩
  · rw [windowLog, hClips, hPatches]
    rfl
  · rw [List.forall_mem_append]
    exact ⟨hInside, hInside'⟩
  · rw [Window.block, MemBlock.mk.injEq]
    refine ⟨rfl, rfl, read_congr fun a hLow hHigh => ?_⟩
    rw [replay_append, replay_append]
    exact hBytes' a _ _ hLow hHigh (hBytes a _ _ hLow hHigh rfl)

/-- The selective reader gives the slices of what the full reader gives, which is zero
outside the ranges, and it copies nothing outside its buffers. -/
theorem restoreSelective_slice (heap : Heap) (windows : List Window)
    (hBase : ∀ d ∈ base.descs, PagesInside d) (hDelta : ∀ b ∈ delta.blocks, PagesInside b)
    (hApart : base.descs.Pairwise Apart) (h : restoreFromFiles base delta = some r) :
    restoreSelective heap base delta windows =
        (if windows.all fun w => heap.calloc w.size then
          some (windows.map fun w => ⟨w.va, w.size, read r.image w.va w.size⟩)
        else none) ∧
      (∀ w ∈ windows, heap.calloc w.size = true → ∃ log, windowLog base delta w = some log ∧
        ∀ copy ∈ log, w.va ≤ copy.1 ∧ copy.1 + copy.2.length ≤ w.va + w.size) ∧
      ∀ a, (∀ d ∈ base.descs, ¬(d.baseVa ≤ a ∧ a < d.baseVa + d.length)) → r.image a = 0 := by
  rw [restoreFromFiles_replay, Option.map_eq_some_iff] at h
  obtain ⟨log, hLog, rfl⟩ := h
  rw [plainLog, Option.ite_none_left_eq_some] at hLog
  obtain ⟨hLimits, hLog⟩ := hLog
  simp only [Option.bind_eq_bind, Option.bind_eq_some_iff] at hLog
  obtain ⟨sorted, hSorted, hLog⟩ := hLog
  rw [Option.ite_none_left_eq_some, not_not] at hLog
  obtain ⟨hMagic, hLog⟩ := hLog
  simp only [Option.bind_eq_some_iff, Option.pure_def, Option.some.injEq] at hLog
  obtain ⟨blocks, hBlocks, rfl⟩ := hLog
  have hPerm : (sortDescs base.descs).Perm base.descs := List.mergeSort_perm _ _
  -- the ranges in the order of the file
  have hRanges : (base.descs.mapM (dataLog (isV3 base) base.data base.size)).isSome := by
    rw [mapM_isSome]
    intro d hd
    exact mapM_isSome.mp (Option.isSome_of_mem hSorted) d (hPerm.mem_iff.mpr hd)
  obtain ⟨ranges, hRanges⟩ := Option.isSome_iff_exists.mp hRanges
  have hOrder : ∀ image, replay image sorted.flatten = replay image ranges.flatten := fun image =>
    replay_perm (fun _ _ => dataLog_within) hApart hPerm hRanges hSorted image
  have hPlain : delta.blocks.mapM (dataLog (isV3 base) delta.data delta.size) = some blocks := by
    refine mapM_imp hBlocks fun b log hPatch => ?_
    rw [patchLog] at hPatch
    split at hPatch
    · cases hPatch
    · exact hPatch
  have hWindow : ∀ w : Window, heap.calloc w.size = true → ∃ log, windowLog base delta w = some log ∧
      (∀ copy ∈ log, w.va ≤ copy.1 ∧ copy.1 + copy.2.length ≤ w.va + w.size) ∧
        w.block log = ⟨w.va, w.size, read (replay (fun _ => 0) (sorted.flatten ++ blocks.flatten))
          w.va w.size⟩ := by
    intro w hAlloc
    rw [replay_append, hOrder, ← replay_append]
    exact windowLog_slice hBase hDelta hRanges hPlain (heap.limit w.size hAlloc)
  refine ⟨?_, fun w _ hAlloc => ?_, fun a ha => ?_⟩
  · rw [restoreSelective]
    by_cases hNil : windows = []
    · subst hNil
      rfl
    · rw [if_neg hNil]
      by_cases hAll : (windows.all fun w => heap.calloc w.size) = true
      · have hBlocks : windows.mapM (fun w => (windowLog base delta w).map w.block) =
            some (windows.map fun w => ⟨w.va, w.size,
              read (replay (fun _ => 0) (sorted.flatten ++ blocks.flatten)) w.va w.size⟩) := by
          rw [List.all_eq_true] at hAll
          apply mapM_of_forall
          intro w hw
          obtain ⟨log, hLog, -, hBlock⟩ := hWindow w (hAll w hw)
          rw [hLog, Option.map_some, hBlock]
        have hRoom : ¬maxRanges < base.descs.length := fun hMany => hLimits (.inl hMany)
        rw [if_pos hAll, hAll, hBlocks, if_neg (by decide), if_neg hRoom, if_neg (not_not.mpr hMagic)]
      · have hSome : (!windows.all fun w => heap.calloc w.size) = true := by
          rw [Bool.eq_false_of_not_eq_true hAll]
          rfl
        rw [if_neg hAll, if_pos hSome]
  · obtain ⟨log, hLog, hInside, -⟩ := hWindow w hAlloc
    exact ⟨log, hLog, hInside⟩
  · have hNone : ∀ d, PagesInside d → ¬(d.baseVa ≤ a ∧ a < d.baseVa + d.length) → ¬HasByte d a := by
      intro d hPages hOut hHas
      have hInside := hPages.pages
      rw [HasByte] at hHas
      omega
    dsimp only
    rw [replay_append, replay_uncovered (fun _ _ => dataLog_within) hPlain,
      replay_uncovered (fun _ _ => dataLog_within) hSorted]
    · exact fun d hd => hNone d (hBase d (hPerm.mem_iff.mp hd)) (ha d (hPerm.mem_iff.mp hd))
    · refine fun b hb => hNone b (hDelta b hb) fun hIn => ?_
      have hPatch := mapM_isSome.mp (Option.isSome_of_mem hBlocks) b hb
      obtain ⟨d, hd, hRange⟩ := covered_of_findGroup
        (Option.isSome_iff_ne_none.mp ((patchLog_isSome delta _ _ b).mp hPatch).1) hIn.1 hIn.2
      exact ha d hd hRange

end Files

/-- One GPU page in the clear. -/
def clearDesc (off : Nat) : RangeDesc := ⟨0x1000, pageSize, 1, off, 1, 0, pageSize, 0⟩

def clearBase : BaseFile := ⟨2, [clearDesc 88], fun a => if a = 88 then 1 else 5, 88 + 4097⟩

def clearDelta : IncDelta :=
  ⟨incDeltaMagic, 2, [clearDesc 104], fun a => if a = 104 then 1 else 7, 104 + 4097⟩

theorem restoreFromFiles_clear : ∃ r, restoreFromFiles clearBase clearDelta = some r := by
  have hGroups : groupDescs clearBase.descs = [(0x1000, pageSize)] := by
    simp [groupDescs, sortDescs, clearBase, clearDesc, merge, extend]
  have hSorted : sortDescs clearBase.descs = [clearDesc 88] := by
    simp [sortDescs, clearBase]
  have hRange : (dataLog (isV3 clearBase) clearBase.data clearBase.size (clearDesc 88)).isSome := by
    rw [dataLog, if_neg (by decide)]
    rfl
  have hBlock : (patchLog (isV3 clearBase) [(0x1000, pageSize)] clearDelta (clearDesc 104)).isSome := by
    rw [patchLog_isSome, Readable]
    decide
  obtain ⟨range, hRange⟩ := Option.isSome_iff_exists.mp hRange
  obtain ⟨block, hBlock⟩ := Option.isSome_iff_exists.mp hBlock
  have hPlain : plainLog clearBase clearDelta = some ([range].flatten ++ [block].flatten) := by
    rw [plainLog, hGroups, hSorted, if_neg (by decide)]
    simp only [List.mapM_cons, List.mapM_nil, hRange, Option.bind_eq_bind, Option.bind_some,
      Option.pure_def]
    have hMagic : ¬clearDelta.magic ≠ incDeltaMagic := not_not.mpr rfl
    have hBlocks : clearDelta.blocks = [clearDesc 104] := rfl
    rw [if_neg hMagic, hBlocks]
    simp only [List.mapM_cons, List.mapM_nil, hBlock, Option.bind_eq_bind, Option.bind_some,
      Option.pure_def]
  exact ⟨_, by rw [restoreFromFiles_replay, hPlain, Option.map_some]⟩

def smallHeap : Heap := ⟨fun n => n < 2 ^ 20, fun n h => by simp at h; omega⟩

/-- A window that begins in front of the page and ends in it. -/
def halfWindow : Window := ⟨0x800, 0x1000, by decide, page_lt_wordLimit⟩

theorem restoreSelective_slice_half : ∃ r, restoreFromFiles clearBase clearDelta = some r ∧
    restoreSelective smallHeap clearBase clearDelta [halfWindow] =
      some [⟨0x800, 0x1000, read r.image 0x800 0x1000⟩] := by
  have hInside : ∀ d ∈ clearBase.descs, PagesInside d := by
    intro d hd
    rw [List.mem_singleton.mp hd]
    exact ⟨by decide, by decide⟩
  have hBlocks : ∀ b ∈ clearDelta.blocks, PagesInside b := by
    intro b hb
    rw [List.mem_singleton.mp hb]
    exact ⟨by decide, by decide⟩
  obtain ⟨r, h⟩ := restoreFromFiles_clear
  refine ⟨r, h, ?_⟩
  have hSlice := (restoreSelective_slice smallHeap [halfWindow] hInside hBlocks
    (List.pairwise_singleton _ _) h).1
  rw [hSlice, if_pos (by decide)]
  rfl

end FlashCkpt.Restore
