import FlashCkpt.Core.Batch
import FlashCkpt.Restore.FailClosed
import FlashCkpt.Restore.SparseRoundTrip

/-! The pages of a region in the image that a restore returns. Ranges and blocks are copied
page by page, so that a region which no other one meets reads as what its own sections
were opened to. -/
namespace FlashCkpt.Restore

open ByteImage SizeCut Crypto Image FlashCkpt.Core

/-- The pages of a region that are not absent read as they do in the memory. -/
def SamePages (memory image : ByteImage.Image) (base : Nat) (residency : List Residency) : Prop :=
  ∀ p ∈ presentPages residency,
    read image (base + p * pageSize) pageSize = read memory (base + p * pageSize) pageSize

/-- All copies of the log lie in the pages of a range or block. -/
def Within (log : Log) (d : RangeDesc) : Prop :=
  ∀ w ∈ log, d.baseVa ≤ w.1 ∧ w.1 + w.2.length ≤ d.baseVa + d.numPages * pageSize

/-- Two ranges or blocks have no address in common. -/
def Apart (d e : RangeDesc) : Prop :=
  d.baseVa + d.numPages * pageSize ≤ e.baseVa ∨ e.baseVa + e.numPages * pageSize ≤ d.baseVa

/-- Two captured ranges have none. -/
def LayoutsApart (l m : RangeLayout) : Prop :=
  l.base + l.length ≤ m.base ∨ m.base + m.length ≤ l.base

/-- A capture with a section byte for each byte of its pages. -/
structure FullSections (c : RangeCapture) : Prop where
  cpu : c.cpuBuf.length = c.layout.residency.count .cpu * pageSize
  gpu : c.gpuBuf.length = c.layout.residency.count .gpu * pageSize

/-- A writer that writes one section after the other. -/
def sequential : Schedule where
  order := fun writes => writes
  perm := List.Perm.refl

/-- `write_delta`. -/
def bufferedDelta (captures : List RangeCapture) : IncDelta :=
  writeDelta .buffered (captures.map RangeCapture.sections) sequential (fun _ => 0) 0

theorem Apart.symm {d e : RangeDesc} (h : Apart d e) : Apart e d := Or.symm h

section Logs

theorem replay_eq_writeAll (image : ByteImage.Image) (log : Log) :
    replay image log = writeAll image (log.map fun w => ⟨w.1, values w.2⟩) := by
  rw [replay, writeAll, List.foldl_map]

/-- Addresses that nothing is copied to. -/
theorem replay_outside {log : Log} {a : Nat} (h : ∀ w ∈ log, w.1 + w.2.length ≤ a ∨ a < w.1)
    (image : ByteImage.Image) : replay image log a = image a := by
  rw [replay_eq_writeAll]
  apply writeAll_outside
  intro w hw
  obtain ⟨v, hv, rfl⟩ := List.mem_map.mp hw
  have hOut := h v hv
  simp only [Write.stop, values, List.length_map]
  omega

theorem placePages_within (checked : Bool) (va : Nat) (resmap : Bytes) (cpu gpu : Buffer) :
    ∀ w ∈ placePages checked va resmap cpu gpu,
      va ≤ w.1 ∧ w.1 + w.2.length ≤ va + resmap.length * pageSize := by
  have hPage : ∀ b : Buffer, (pageCells b).length = pageSize := by
    intro b
    rw [pageCells, List.length_map, List.length_range]
  induction resmap generalizing va cpu gpu with
  | nil =>
      intro w hw
      cases hw
  | cons m rest ih =>
      intro w hw
      rw [List.length_cons, Nat.succ_mul]
      rw [placePages] at hw
      split at hw
      · rcases List.mem_cons.mp hw with rfl | hw
        · rw [hPage]
          omega
        · have hRest := ih _ _ _ w hw
          omega
      · split at hw
        · rcases List.mem_cons.mp hw with rfl | hw
          · rw [hPage]
            omega
          · have hRest := ih _ _ _ w hw
            omega
        · have hRest := ih _ _ _ w hw
          omega

end Logs

section Pages

variable {memory : ByteImage.Image}

theorem mem_presentPages {residency : List Residency} {p : Nat} (h : p ∈ presentPages residency) :
    p < residency.length := List.mem_range.mp (List.mem_filter.mp h).1

theorem samePages_congr {image image' : ByteImage.Image} {base : Nat} {residency : List Residency}
    (h : ∀ a, base ≤ a → a < base + residency.length * pageSize → image a = image' a) :
    SamePages memory image base residency ↔ SamePages memory image' base residency := by
  apply forall₂_congr
  intro p hp
  have hMul := Nat.mul_le_mul_right pageSize (mem_presentPages hp)
  rw [Nat.succ_mul] at hMul
  rw [read_congr fun a hLow hHigh => h a (by omega) (by omega)]

theorem samePages_cons (image : ByteImage.Image) (base : Nat) (r : Residency)
    (rest : List Residency) : SamePages memory image base (r :: rest) ↔
      (r ≠ .absent → read image base pageSize = read memory base pageSize) ∧
        SamePages memory image (base + pageSize) rest := by
  have hNext : ∀ p, base + pageSize + p * pageSize = base + (p + 1) * pageSize := by
    intro p
    rw [Nat.succ_mul]
    omega
  simp only [SamePages, presentPages_cons, List.mem_append, List.mem_map, or_imp, forall_and,
    forall_exists_index, and_imp, forall_apply_eq_imp_iff₂, hNext]
  apply and_congr_left'
  by_cases hAbsent : r = .absent
  · simp [hAbsent]
  · simp [hAbsent]

/-- A page of a section, and the section behind it. -/
theorem values_cut {b : Buffer} (hReach : pageSize ≤ b.length) :
    values b = values (pageCells b) ++ values (b.drop pageSize) ∧
      (values (pageCells b)).length = pageSize := by
  have hPage : (values (b.take pageSize)).length = pageSize := by
    rw [values, List.length_map, List.length_take]
    omega
  have hSplit : values b = values (b.take pageSize) ++ values (b.drop pageSize) := by
    rw [← values_append, List.take_append_drop]
  rw [(values_pageCells hPage hSplit).1]
  exact ⟨hSplit, hPage⟩

/-- One more page is copied, in front of pages that lie behind it. -/
theorem samePages_write (image : ByteImage.Image) (checked : Bool) (base : Nat)
    (rest : List Residency) {page : Bytes} (hPage : page.length = pageSize) (cpu gpu : Buffer)
    {r : Residency} (hPresent : r ≠ .absent) :
    SamePages memory (replay (write image ⟨base, page⟩)
        (placePages checked (base + pageSize) (rest.map Residency.code) cpu gpu)) base (r :: rest) ↔
      page = read memory base pageSize ∧
        SamePages memory (replay (write image ⟨base, page⟩)
          (placePages checked (base + pageSize) (rest.map Residency.code) cpu gpu))
            (base + pageSize) rest := by
  have hKept : read (replay (write image ⟨base, page⟩)
      (placePages checked (base + pageSize) (rest.map Residency.code) cpu gpu)) base pageSize =
        page := by
    have hSelf := read_write_self image ⟨base, page⟩
    dsimp only at hSelf
    rw [hPage] at hSelf
    refine Eq.trans (read_congr fun a _ hHigh => ?_) hSelf
    apply replay_outside
    intro w hw
    have hWithin := placePages_within _ _ _ _ _ w hw
    right
    omega
  rw [samePages_cons, hKept]
  simp [hPresent]

/-- The pages of a region read as in the memory exactly when its sections were opened to
the packed pages. -/
theorem samePages_placed (checked : Bool) (residency : List Residency) {base : Nat}
    (image : ByteImage.Image) {cpu gpu : Buffer}
    (hCpu : cpu.length = residency.count .cpu * pageSize)
    (hGpu : gpu.length = residency.count .gpu * pageSize) :
    SamePages memory (replay image
        (placePages checked base (residency.map Residency.code) cpu gpu)) base residency ↔
      values cpu = packed memory base (pagesOn residency .cpu) ∧
        values gpu = packed memory base (pagesOn residency .gpu) := by
  induction residency generalizing base image cpu gpu with
  | nil =>
      rw [List.count_nil, Nat.zero_mul, List.length_eq_zero_iff] at hCpu hGpu
      rw [hCpu, hGpu]
      exact iff_of_true (fun p hp => nomatch hp) ⟨rfl, rfl⟩
  | cons r rest ih =>
      rw [packed_cons, packed_cons, List.map_cons]
      have hHead := read_length memory base pageSize
      cases r with
      | cpu =>
          rw [List.count_cons_self, Nat.succ_mul] at hCpu
          rw [List.count_cons_of_ne (by decide)] at hGpu
          obtain ⟨hCut, hPage⟩ := values_cut (by omega : pageSize ≤ cpu.length)
          rw [placePages_cpu checked base _ (by omega), replay_cons,
            samePages_write image checked base rest hPage _ _ (by decide),
            ih _ (by rw [List.length_drop]; omega) hGpu, if_pos rfl, if_neg (by decide),
            List.nil_append, hCut,
            List.append_eq_append_iff_of_size_eq_left (hPage.trans hHead.symm)]
          exact and_assoc.symm
      | gpu =>
          rw [List.count_cons_self, Nat.succ_mul] at hGpu
          rw [List.count_cons_of_ne (by decide)] at hCpu
          obtain ⟨hCut, hPage⟩ := values_cut (by omega : pageSize ≤ gpu.length)
          rw [placePages_gpu checked base _ (by omega), replay_cons,
            samePages_write image checked base rest hPage _ _ (by decide),
            ih _ hCpu (by rw [List.length_drop]; omega), if_pos rfl, if_neg (by decide),
            List.nil_append, hCut,
            List.append_eq_append_iff_of_size_eq_left (hPage.trans hHead.symm)]
          exact and_left_comm
      | absent =>
          rw [List.count_cons_of_ne (by decide)] at hCpu hGpu
          rw [placePages_absent, samePages_cons, ih _ hCpu hGpu, if_neg (by decide),
            if_neg (by decide), List.nil_append, List.nil_append]
          simp

end Pages

section Copies

variable (keys : Keys) (base : BaseFile) (delta : IncDelta)

theorem readResmap_within (data : ByteImage.Image) {d : RangeDesc} {log : Log}
    (h : ∀ w ∈ log, d.baseVa ≤ w.1 ∧
      w.1 + w.2.length ≤ d.baseVa + (readResmap data d).length * pageSize) : Within log d := by
  have hPages : (readResmap data d).length ≤ d.numPages := List.length_take_le _ _
  have hMul := Nat.mul_le_mul_right pageSize hPages
  intro w hw
  have hCopy := h w hw
  omega

theorem blockLog_within (v3 : Bool) (groups : List (Nat × Nat)) (b : RangeDesc) :
    Within (blockLog keys v3 groups delta b) b := by
  rw [blockLog]
  split
  · exact fun w hw => absurd hw List.not_mem_nil
  · exact readResmap_within delta.data (placePages_within _ _ _ _ _)

theorem rangeLog_within {d : RangeDesc} {log : Log} (h : rangeLog keys base d = some log) :
    Within log d := by
  rw [rangeLog] at h
  split at h
  · cases h
  · obtain ⟨sections, -, rfl⟩ := Option.map_eq_some_iff.mp h
    exact readResmap_within base.data (placePages_within _ _ _ _ _)

theorem dataLog_within {v3 : Bool} {data : ByteImage.Image} {size : Nat} {d : RangeDesc}
    {log : Log} (h : dataLog v3 data size d = some log) : Within log d := by
  rw [dataLog] at h
  split at h
  · cases h
  · cases h
    exact readResmap_within data (placePages_within _ _ _ _ _)

end Copies

section Folds

variable {f : RangeDesc → Option Log} (hWithin : ∀ d log, f d = some log → Within log d)
include hWithin

theorem mapM_within {descs : List RangeDesc} {logs : List Log} (h : descs.mapM f = some logs) :
    ∀ log ∈ logs, ∃ d ∈ descs, Within log d := by
  induction descs generalizing logs with
  | nil =>
      cases h
      exact fun log hLog => nomatch hLog
  | cons d rest ih =>
      simp only [List.mapM_cons, Option.bind_eq_bind, Option.bind_eq_some_iff, Option.pure_def,
        Option.some.injEq] at h
      obtain ⟨first, hFirst, others, hOthers, rfl⟩ := h
      intro log hLog
      rcases List.mem_cons.mp hLog with rfl | hLog
      · exact ⟨d, List.mem_cons_self, hWithin d log hFirst⟩
      · obtain ⟨e, he, hInside⟩ := ih hOthers log hLog
        exact ⟨e, List.mem_cons_of_mem d he, hInside⟩

/-- Where ranges or blocks have no address in common, the pages of each are its own. -/
theorem samePages_mapM {descs : List RangeDesc} (hApart : descs.Pairwise Apart)
    {logs : List Log} (h : descs.mapM f = some logs) {d : RangeDesc} (hd : d ∈ descs)
    (image : ByteImage.Image) : ∃ log image', f d = some log ∧
      ∀ memory residency, residency.length ≤ d.numPages →
        (SamePages memory (replay image logs.flatten) d.baseVa residency ↔
          SamePages memory (replay image' log) d.baseVa residency) := by
  induction descs generalizing logs image with
  | nil => cases hd
  | cons e rest ih =>
      simp only [List.mapM_cons, Option.bind_eq_bind, Option.bind_eq_some_iff, Option.pure_def,
        Option.some.injEq] at h
      obtain ⟨first, hFirst, others, hOthers, rfl⟩ := h
      rw [List.flatten_cons, replay_append]
      obtain ⟨hHead, hTail⟩ := List.pairwise_cons.mp hApart
      rcases List.mem_cons.mp hd with rfl | hd
      · refine ⟨first, image, hFirst, fun memory residency hLength => samePages_congr ?_⟩
        intro a hLow hHigh
        have hMul := Nat.mul_le_mul_right pageSize hLength
        apply replay_outside
        intro w hw
        obtain ⟨log, hLog, hw⟩ := List.mem_flatten.mp hw
        obtain ⟨e, he, hInside⟩ := mapM_within hWithin hOthers log hLog
        have hCopy := hInside w hw
        rcases hHead e he with hBelow | hAbove
        · right
          omega
        · left
          omega
      · exact ih hTail hOthers hd _

end Folds

/-- An image with entries is read by the encrypted reader. -/
theorem restoreLog_encrypted {keys : Keys} {base : BaseFile} {delta : IncDelta} {log : Log}
    (hEncrypted : ∃ d ∈ base.descs, d.cryptoMetaBytes ≠ 0)
    (h : restoreLog keys base delta = some log) : ∃ ranges,
      (sortDescs base.descs).mapM (rangeLog keys base) = some ranges ∧
        log = ranges.flatten ++
          (delta.blocks.map (blockLog keys (isV3 base) (groupDescs base.descs) delta)).flatten := by
  have hNotPlain : ¬ (base.descs.all fun d => d.cryptoMetaBytes = 0) = true := by
    obtain ⟨e, he, hMeta⟩ := hEncrypted
    simp only [List.all_eq_true, decide_eq_true_eq, not_forall]
    exact ⟨e, he, hMeta⟩
  rw [restoreLog] at h
  obtain ⟨-, h⟩ := Option.ite_none_left_eq_some.mp h
  rw [if_neg hNotPlain] at h
  obtain ⟨-, h⟩ := Option.ite_none_left_eq_some.mp h
  obtain ⟨ranges, hRanges, h⟩ := Option.bind_eq_some_iff.mp h
  obtain ⟨-, h⟩ := Option.ite_none_left_eq_some.mp h
  cases h
  exact ⟨ranges, hRanges, rfl⟩

section Regions

variable {captures : List RangeCapture}

/-- The table of captured ranges that lie apart. -/
theorem placed_apart (h : (captures.map RangeCapture.layout).Pairwise LayoutsApart) (off : Nat) :
    ((placed (captures.map RangeCapture.sections) off).map Prod.snd).Pairwise Apart := by
  have hSections : (captures.map RangeCapture.sections).Pairwise fun r s =>
      r.baseVa + r.resmap.length * pageSize ≤ s.baseVa ∨
        s.baseVa + s.resmap.length * pageSize ≤ r.baseVa := by
    rw [List.pairwise_map] at h ⊢
    refine h.imp fun {c c'} hApart => ?_
    simpa only [RangeCapture.sections, List.length_map, LayoutsApart, RangeLayout.length] using hApart
  rw [← placed_fst (captures.map RangeCapture.sections) off, List.pairwise_map] at hSections
  rw [List.pairwise_map]
  refine hSections.imp_of_mem fun {p q} hp hq hApart => ?_
  rw [Apart, (placed_desc hp).2, (placed_desc hq).2]
  exact hApart

theorem bufferedDelta_stored {p : Sections × RangeDesc}
    (hp : p ∈ placed (captures.map RangeCapture.sections)
      (deltaStart (captures.map RangeCapture.sections).length)) :
    StoredAt (bufferedDelta captures).data (bufferedDelta captures).size p.1 p.2 :=
  storedAt_writeAll sequential _ (fun _ hq => placed_stop_imageSize hq) hp

/-- What the reader shows of a region of the delta depends on what its own two sections
were opened to. -/
theorem restored_region {keys : Keys} {base : BaseFile} {restored : Restored}
    (hApart : (captures.map RangeCapture.layout).Pairwise LayoutsApart)
    (hEncrypted : ∃ d ∈ base.descs, d.cryptoMetaBytes ≠ 0)
    (hRestore : restoreFromFilesEncrypted keys base (bufferedDelta captures) = some restored)
    {c : RangeCapture} (hc : c ∈ captures) (hFull : FullSections c)
    (hGroup : ∃ g ∈ restored.groups, g.1 ≤ c.layout.base ∧
      c.layout.base + c.layout.length ≤ g.1 + g.2) :
    ∃ data size d, StoredAt data size c.sections d ∧ ∀ memory,
      (SamePages memory restored.image c.layout.base c.layout.residency ↔
        values (openCpu keys (isV3 base) data size d).2 =
            packed memory c.layout.base (pagesOn c.layout.residency .cpu) ∧
          values (openGpu keys (isV3 base) data size d).2 =
            packed memory c.layout.base (pagesOn c.layout.residency .gpu)) := by
  obtain ⟨d, hd⟩ := exists_placed (List.mem_map_of_mem (f := RangeCapture.sections) hc)
    (deltaStart (captures.map RangeCapture.sections).length)
  have hStored : StoredAt (bufferedDelta captures).data (bufferedDelta captures).size c.sections d :=
    bufferedDelta_stored hd
  refine ⟨_, _, d, hStored, fun memory => ?_⟩
  have hBase : d.baseVa = c.layout.base := by rw [hStored.desc]; rfl
  have hLength : d.length = c.layout.length := by rw [hStored.desc]; rfl
  have hPages : d.numPages = c.layout.residency.length := by
    rw [hStored.desc]
    exact List.length_map _
  have hCpu : d.cpuBytes = c.layout.residency.count .cpu * pageSize := by
    rw [hStored.desc]
    exact hFull.cpu
  have hGpu : d.gpuBytes = c.layout.residency.count .gpu * pageSize := by
    rw [hStored.desc]
    exact hFull.gpu
  rw [restoreFromFilesEncrypted_replay, Option.map_eq_some_iff] at hRestore
  obtain ⟨log, hLog, rfl⟩ := hRestore
  dsimp only at hGroup ⊢
  have hFound : findGroup (groupDescs base.descs) d ≠ none := by
    obtain ⟨g, hg, hInside⟩ := hGroup
    rw [findGroup, ne_eq, List.find?_eq_none, not_forall]
    refine ⟨g, fun hNone => hNone hg ?_⟩
    simpa [hBase, hLength] using hInside
  obtain ⟨g, hFind⟩ := Option.ne_none_iff_exists'.mp hFound
  obtain ⟨ranges, -, rfl⟩ := restoreLog_encrypted hEncrypted hLog
  rw [replay_append]
  have hBlocks : (bufferedDelta captures).blocks.mapM (fun b => some (blockLog keys (isV3 base)
      (groupDescs base.descs) (bufferedDelta captures) b)) = some ((bufferedDelta captures).blocks.map
        (blockLog keys (isV3 base) (groupDescs base.descs) (bufferedDelta captures))) :=
    List.mapM_pure
  obtain ⟨log, image', hOwn, hSame⟩ := samePages_mapM
    (fun b log h => by cases h; exact blockLog_within _ _ _ _ _) (placed_apart hApart _) hBlocks
    (List.mem_map_of_mem (f := Prod.snd) hd) (replay (fun _ => 0) ranges.flatten)
  cases hOwn
  rw [← hBase, hSame memory _ (Nat.le_of_eq hPages.symm), blockLog, hFind]
  dsimp only
  rw [readResmap_stored hStored]
  exact samePages_placed true _ image' ((openCpu_length _ _ _ _ _).trans hCpu)
    ((openGpu_length _ _ _ _ _).trans hGpu)

end Regions

end FlashCkpt.Restore
