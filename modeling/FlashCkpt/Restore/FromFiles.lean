import FlashCkpt.Restore.Sections
import FlashCkpt.Library.Intervals
import Mathlib.Data.List.Sort

/-! The readers of `librst_vllm.c`. The ranges of the base image are grouped where
they touch, each group gets a buffer of zeros, and base and delta are assembled
into it page by page along their residency maps. The buffers do not overlap, and
are one memory by address here. -/
namespace FlashCkpt.Restore

open ByteImage SizeCut Intervals Crypto Image

def maxGroups : Nat := 64
def maxRanges : Nat := 256

def ckptV3Version : Nat := 3

def isV3 (base : BaseFile) : Bool := base.version == ckptV3Version

/-- A range of the base image, decrypted and copied page by page. -/
def rangeLog (keys : Keys) (base : BaseFile) (d : RangeDesc) : Option Log :=
  if Unreadable base.size d.dataOffset d.resmapSize then none
  else (openRange keys (isV3 base) base.data base.size d).map fun sections =>
    placePages true d.baseVa (readResmap base.data d) sections.1 sections.2

def restoreRange (keys : Keys) (base : BaseFile) (image : ByteImage.Image) (d : RangeDesc) :
    Option ByteImage.Image :=
  (rangeLog keys base d).map (replay image)

/-- The group a block lies in. -/
def findGroup (groups : List (Nat × Nat)) (b : RangeDesc) : Option (Nat × Nat) :=
  groups.find? fun g => g.1 ≤ b.baseVa && b.baseVa + b.length ≤ g.1 + g.2

/-- A block of the delta. One that lies in no group is skipped, and nobody asks
whether its reads and decryptions succeeded. -/
def blockLog (keys : Keys) (v3 : Bool) (groups : List (Nat × Nat)) (delta : IncDelta)
    (b : RangeDesc) : Log :=
  match findGroup groups b with
  | none => []
  | some _ =>
      placePages true b.baseVa (readResmap delta.data b)
        (openCpu keys v3 delta.data delta.size b).2 (openGpu keys v3 delta.data delta.size b).2

def applyBlock (keys : Keys) (v3 : Bool) (groups : List (Nat × Nat)) (delta : IncDelta)
    (image : ByteImage.Image) (b : RangeDesc) : ByteImage.Image :=
  replay image (blockLog keys v3 groups delta b)

/-- `assemble_data` of the plain reader. -/
def dataLog (v3 : Bool) (data : ByteImage.Image) (size : Nat) (d : RangeDesc) : Option Log :=
  if Unreadable size d.dataOffset d.resmapSize ∨
      Unreadable size (d.dataOffset + d.resmapSize) d.cpuBytes ∨
      Unreadable size d.gpuOffset d.gpuBytes then none
  else some (placePages false d.baseVa (readResmap data d) (readCpu v3 data size d)
    (readGpu v3 data size d))

def assembleData (v3 : Bool) (data : ByteImage.Image) (size : Nat) (image : ByteImage.Image)
    (d : RangeDesc) : Option ByteImage.Image :=
  (dataLog v3 data size d).map (replay image)

/-- `ckpt_restore_result_t`. -/
structure Restored where
  groups : List (Nat × Nat)
  image : ByteImage.Image

def sortDescs (descs : List RangeDesc) : List RangeDesc :=
  descs.mergeSort fun a b => a.baseVa ≤ b.baseVa

theorem sortDescs_pairwise (descs : List RangeDesc) :
    (sortDescs descs).Pairwise fun a b => a.baseVa ≤ b.baseVa :=
  List.pairwise_mergeSort' (Order.Preimage RangeDesc.baseVa (· ≤ ·)) descs

def groupDescs (descs : List RangeDesc) : List (Nat × Nat) :=
  merge ((sortDescs descs).map fun d => (d.baseVa, d.length))

/-- A block of the delta in the plain reader, for which one that lies in no group
is an error. -/
def patchLog (v3 : Bool) (groups : List (Nat × Nat)) (delta : IncDelta) (b : RangeDesc) :
    Option Log :=
  match findGroup groups b with
  | none => none
  | some _ => dataLog v3 delta.data delta.size b

def patchBlock (v3 : Bool) (groups : List (Nat × Nat)) (delta : IncDelta)
    (image : ByteImage.Image) (b : RangeDesc) : Option ByteImage.Image :=
  (patchLog v3 groups delta b).map (replay image)

/-- `ckpt_restore_from_files`. -/
def restoreFromFiles (base : BaseFile) (delta : IncDelta) : Option Restored :=
  let groups := groupDescs base.descs
  if maxRanges < base.descs.length ∨ maxGroups < groups.length then none
  else do
    let image ← (sortDescs base.descs).foldlM (assembleData (isV3 base) base.data base.size)
      fun _ => 0
    if delta.magic ≠ incDeltaMagic then none
    else
      let patched ← delta.blocks.foldlM (patchBlock (isV3 base) groups delta) image
      return ⟨groups, patched⟩

/-- `ckpt_restore_from_files_encrypted`. -/
def restoreFromFilesEncrypted (keys : Keys) (base : BaseFile) (delta : IncDelta) :
    Option Restored :=
  let groups := groupDescs base.descs
  if maxRanges < base.descs.length then none
  else if base.descs.all fun d => d.cryptoMetaBytes = 0 then restoreFromFiles base delta
  else if maxGroups < groups.length then none
  else do
    let image ← (sortDescs base.descs).foldlM (restoreRange keys base) fun _ => 0
    if delta.magic ≠ incDeltaMagic then none
    else return ⟨groups, delta.blocks.foldl (applyBlock keys (isV3 base) groups delta) image⟩

/-- Where a page of a range with this residency map was, for every address. -/
def placeAt (base : Nat) (residency : List Residency) (a : Nat) : Residency :=
  if base ≤ a then residency[(a - base) / pageSize]?.getD .absent else .absent

theorem placeAt_cons (base : Nat) (r : Residency) (rest : List Residency) (a : Nat) :
    placeAt base (r :: rest) a =
      if base ≤ a ∧ a < base + pageSize then r else placeAt (base + pageSize) rest a := by
  have hPos : 0 < pageSize := by decide
  simp only [placeAt]
  by_cases hFirst : base ≤ a ∧ a < base + pageSize
  · rw [if_pos hFirst.1, if_pos hFirst, Nat.div_eq_of_lt (by omega), List.getElem?_cons_zero,
      Option.getD_some]
  · rw [if_neg hFirst]
    by_cases hLow : base ≤ a
    · have hStep : (a - base) / pageSize = (a - (base + pageSize)) / pageSize + 1 := by
        rw [Nat.div_eq_sub_div hPos (by omega), Nat.sub_sub]
      rw [if_pos hLow, if_pos (by omega), hStep, List.getElem?_cons_succ]
    · rw [if_neg hLow, if_neg (by omega)]

theorem write_read (image memory : ByteImage.Image) (off n : Nat) :
    write image ⟨off, read memory off n⟩ =
      fun a => if off ≤ a ∧ a < off + n then memory a else image a := by
  funext a
  simp only [write, Write.stop, read_length]
  split
  · rename_i hInside
    simp only [ByteImage.read, List.getD_eq_getElem?_getD, List.getElem?_map,
      List.getElem?_range (by omega : a - off < n), Option.map_some, Option.getD_some]
    rw [show off + (a - off) = a by omega]
  · rfl

section Place

variable (checked : Bool) (image : ByteImage.Image) (va : Nat) (rest : Bytes) {page : Bytes}
  {cpu gpu : Buffer}

theorem replay_cons (w : Nat × Buffer) (log : Log) :
    replay image (w :: log) = replay (write image ⟨w.1, values w.2⟩) log := rfl

/-- The page at the start of a buffer that has one. -/
theorem values_pageCells {b : Buffer} {behind : Bytes} (hPage : page.length = pageSize)
    (h : values b = page ++ behind) :
    values (pageCells b) = page ∧ values (b.drop pageSize) = behind ∧ pageSize ≤ b.length := by
  have hLength := congrArg List.length h
  simp only [values, List.length_map, List.length_append] at hLength
  have hTake : values (b.take pageSize) = page := by
    rw [values, List.map_take, ← values, h, List.take_left' hPage]
  refine ⟨?_, by rw [values, List.map_drop, ← values, h, List.drop_left' hPage], by omega⟩
  refine Eq.trans ?_ hTake
  refine List.ext_getElem? fun i => ?_
  simp only [values, pageCells, List.getElem?_map, List.map_map]
  by_cases hi : i < pageSize
  · rw [List.getElem?_range hi, List.getElem?_take_of_lt hi, Option.map_some,
      Function.comp_apply, List.getD_eq_getElem?_getD,
      List.getElem?_eq_getElem (by omega : i < b.length), Option.map_some, Option.getD_some]
  · rw [List.getElem?_eq_none (by simpa using hi), List.getElem?_eq_none (by simp; omega),
      Option.map_none, Option.map_none]

theorem placePages_cpu (hReach : pageSize ≤ cpu.length) :
    placePages checked va (Residency.cpu.code :: rest) cpu gpu =
      (va, pageCells cpu) :: placePages checked (va + pageSize) rest (cpu.drop pageSize) gpu := by
  rw [placePages, if_pos ⟨rfl, .inr hReach⟩]

theorem placePages_gpu (hReach : pageSize ≤ gpu.length) :
    placePages checked va (Residency.gpu.code :: rest) cpu gpu =
      (va, pageCells gpu) :: placePages checked (va + pageSize) rest cpu (gpu.drop pageSize) := by
  rw [placePages, if_neg (by simp [Residency.code]), if_pos ⟨rfl, .inr hReach⟩]

theorem replay_cpu (hPage : page.length = pageSize) {behind : Bytes}
    (hCpu : values cpu = page ++ behind) :
    replay image (placePages checked va (Residency.cpu.code :: rest) cpu gpu) =
      replay (write image ⟨va, page⟩)
        (placePages checked (va + pageSize) rest (cpu.drop pageSize) gpu) := by
  obtain ⟨hFirst, -, hReach⟩ := values_pageCells hPage hCpu
  rw [placePages_cpu checked va rest hReach, replay_cons, hFirst]

theorem replay_gpu (hPage : page.length = pageSize) {behind : Bytes}
    (hGpu : values gpu = page ++ behind) :
    replay image (placePages checked va (Residency.gpu.code :: rest) cpu gpu) =
      replay (write image ⟨va, page⟩)
        (placePages checked (va + pageSize) rest cpu (gpu.drop pageSize)) := by
  obtain ⟨hFirst, -, hReach⟩ := values_pageCells hPage hGpu
  rw [placePages_gpu checked va rest hReach, replay_cons, hFirst]

theorem placePages_absent :
    placePages checked va (Residency.absent.code :: rest) cpu gpu =
      placePages checked (va + pageSize) rest cpu gpu := by
  rw [placePages, if_neg (by simp [Residency.code]), if_neg (by simp [Residency.code])]

end Place

/-- Sections packed from memory are assembled to where they were. -/
theorem replay_packed (checked : Bool) (cpu gpu : ByteImage.Image) (residency : List Residency)
    (base : Nat) (image : ByteImage.Image) {cpuBuf gpuBuf : Buffer}
    (hCpu : values cpuBuf = packed cpu base (pagesOn residency .cpu))
    (hGpu : values gpuBuf = packed gpu base (pagesOn residency .gpu)) :
    replay image (placePages checked base (residency.map Residency.code) cpuBuf gpuBuf) =
      fun a => match placeAt base residency a with
        | .cpu => cpu a
        | .gpu => gpu a
        | .absent => image a := by
  induction residency generalizing base image cpuBuf gpuBuf with
  | nil =>
      funext a
      simp only [List.map_nil, placePages, replay, List.foldl_nil, placeAt, List.getElem?_nil,
        Option.getD_none, ite_self]
  | cons r rest ih =>
      funext a
      rw [placeAt_cons]
      -- a page behind the first one is not touched by its copy
      have hLater : ∀ memory : ByteImage.Image, ¬(base ≤ a ∧ a < base + pageSize) →
          write image ⟨base, read memory base pageSize⟩ a = image a := by
        intro memory hOut
        rw [write_read]
        exact if_neg hOut
      have hFirst : ∀ memory : ByteImage.Image, base ≤ a ∧ a < base + pageSize →
          write image ⟨base, read memory base pageSize⟩ a = memory a := by
        intro memory hIn
        rw [write_read]
        exact if_pos hIn
      have hBehind : base ≤ a ∧ a < base + pageSize → placeAt (base + pageSize) rest a = .absent := by
        intro hIn
        rw [placeAt, if_neg (by omega)]
      rw [packed_cons] at hCpu hGpu
      cases r with
      | cpu =>
          simp only [if_true, reduceCtorEq, if_false, List.nil_append] at hCpu hGpu
          have hRest := (values_pageCells (read_length _ _ _) hCpu).2.1
          rw [List.map_cons, replay_cpu _ _ _ _ (read_length _ _ _) hCpu, ih _ _ hRest hGpu]
          by_cases hIn : base ≤ a ∧ a < base + pageSize
          · simp only [if_pos hIn, hBehind hIn, hFirst cpu hIn]
          · simp only [if_neg hIn, hLater cpu hIn]
      | gpu =>
          simp only [if_true, reduceCtorEq, if_false, List.nil_append] at hCpu hGpu
          have hRest := (values_pageCells (read_length _ _ _) hGpu).2.1
          rw [List.map_cons, replay_gpu _ _ _ _ (read_length _ _ _) hGpu, ih _ _ hCpu hRest]
          by_cases hIn : base ≤ a ∧ a < base + pageSize
          · simp only [if_pos hIn, hBehind hIn, hFirst gpu hIn]
          · simp only [if_neg hIn, hLater gpu hIn]
      | absent =>
          simp only [reduceCtorEq, if_false, List.nil_append] at hCpu hGpu
          rw [List.map_cons, placePages_absent, ih _ _ hCpu hGpu]
          by_cases hIn : base ≤ a ∧ a < base + pageSize
          · simp only [if_pos hIn, hBehind hIn]
          · simp only [if_neg hIn]

section Stored

variable {keys : Keys} {memory : ByteImage.Image} {data : ByteImage.Image} {size n : Nat}
  {l : RangeLayout} {d : RangeDesc}

theorem readResmap_eq (h : StoredAt data size (l.sections keys.channel memory n) d) :
    readResmap data d = l.residency.map Residency.code := readResmap_stored h

/-- All entries of a captured range belong to its GPU section. -/
theorem sectionMetas_eq (h : StoredAt data size (l.sections keys.channel memory n) d) :
    sectionMetas true data d = ((l.pieces memory n).map (pieceMeta keys.channel), []) := by
  apply sectionMetas_stored h
  · rw [List.append_nil]
    exact pieceMeta_wellFormed fun p hp => (RangeLayout.piece_size memory hp).2
  · rw [List.append_nil, List.flatMap_map]
    rfl
  · intro m hm
    obtain ⟨p, hp, rfl⟩ := List.mem_map.mp hm
    rw [show (pieceMeta keys.channel p).size = pieceSize p from keys.channel.meta_size p.1 p.2]
    exact piece_pos hp
  · rw [total_map, pieceMeta_size, total_pieces, l.gpu_length]

theorem values_readCpu (v3 : Bool) (h : StoredAt data size (l.sections keys.channel memory n) d) :
    values (readCpu v3 data size d) = packed memory l.base (pagesOn l.residency .cpu) :=
  values_readCpu_stored h v3

theorem openCpu_eq (h : StoredAt data size (l.sections keys.channel memory n) d) :
    openCpu keys true data size d = (true, readCpu true data size d) :=
  openCpu_stored (by rw [sectionMetas_eq h])

/-- With the driver at hand the GPU section is what was captured. -/
theorem openGpu_eq (hDevice : keys.device = .confidential)
    (h : StoredAt data size (l.sections keys.channel memory n) d) :
    (openGpu keys true data size d).1 = true ∧
      values (openGpu keys true data size d).2 = packed memory l.base (pagesOn l.residency .gpu) := by
  rw [← l.pieces_flatten memory n]
  apply openGpu_stored h hDevice (fun p hp => RangeLayout.piece_size memory hp) rfl
  rw [sectionMetas_eq h]

end Stored

/-- A managed range of the driver, in pages. -/
structure VaRange where
  first : Nat
  count : Nat
  pos : 0 < count

namespace VaRange

variable (r : VaRange)

def va : Nat := r.first * pageSize

def size : Nat := r.count * pageSize

def Has (p : Nat) : Prop := r.first ≤ p ∧ p < r.first + r.count

instance (p : Nat) : Decidable (r.Has p) := inferInstanceAs (Decidable (_ ∧ _))

def places (place : Nat → Residency) : List Residency :=
  (List.range r.count).map fun i => place (r.first + i)

theorem has_div (a : Nat) : r.Has (a / pageSize) ↔ r.va ≤ a ∧ a < r.va + r.size := by
  have hPos : 0 < pageSize := by decide
  rw [Has, va, size, ← Nat.add_mul, Nat.le_div_iff_mul_le hPos, Nat.div_lt_iff_lt_mul hPos]

theorem placeAt_places (place : Nat → Residency) (a : Nat) :
    placeAt r.va (r.places place) a =
      if r.Has (a / pageSize) then place (a / pageSize) else .absent := by
  have hPos : 0 < pageSize := by decide
  rw [placeAt, va, places]
  by_cases hLow : r.first * pageSize ≤ a
  · have hFirst : r.first ≤ a / pageSize := (Nat.le_div_iff_mul_le hPos).mpr hLow
    have hPage : (a - r.first * pageSize) / pageSize = a / pageSize - r.first := by
      rw [Nat.mul_comm, Nat.sub_mul_div]
    rw [if_pos hLow, hPage, List.getElem?_map]
    by_cases hHigh : a / pageSize < r.first + r.count
    · rw [if_pos ⟨hFirst, hHigh⟩, List.getElem?_range (by omega), Option.map_some,
        Option.getD_some, Nat.add_sub_cancel' hFirst]
    · rw [if_neg fun hHas => hHigh hHas.2, List.getElem?_eq_none (by simp; omega),
        Option.map_none, Option.getD_none]
  · rw [if_neg hLow, if_neg fun hHas => hLow ((Nat.le_div_iff_mul_le hPos).mp hHas.1)]

end VaRange

/-- The layout is that of a range whose pages lie where `place` says. -/
structure Follows (l : RangeLayout) (r : VaRange) (place : Nat → Residency) :
    Prop where
  base : l.base = r.va
  residency : l.residency = r.places place

/-- The pages of the range or block lie somewhere at this address. -/
def Shows (place : Nat → Residency) (d : RangeDesc) (a : Nat) : Prop :=
  d.baseVa ≤ a ∧ a < d.baseVa + d.length ∧ place (a / pageSize) ≠ .absent

instance (place : Nat → Residency) (d : RangeDesc) (a : Nat) : Decidable (Shows place d a) :=
  inferInstanceAs (Decidable (_ ∧ _))

/-- What the sections hold: one memory for the CPU pages, one for the GPU pages. -/
def source (place : Nat → Residency) (cpu gpu : ByteImage.Image) : ByteImage.Image := fun a =>
  if place (a / pageSize) = .gpu then gpu a else cpu a

theorem source_same (place : Nat → Residency) (memory : ByteImage.Image) :
    source place memory memory = memory := by
  funext a
  rw [source, ite_self]

/-- The file has the pages of a range of this memory under a descriptor. -/
structure Holds (channel : Channel) (memory : ByteImage.Image) (place : Nat → Residency)
    (data : ByteImage.Image) (size : Nat) (r : VaRange) (d : RangeDesc) where
  layout : RangeLayout
  transfer : Nat
  follows : Follows layout r place
  stored : StoredAt data size (layout.sections channel memory transfer) d

section Readers

variable {keys : Keys} {memory : ByteImage.Image} {size : Nat} {data : ByteImage.Image}
  {d : RangeDesc} {r : VaRange} {place : Nat → Residency}

theorem Holds.interval {channel : Channel} (h : Holds channel memory place data size r d) :
    d.baseVa = r.va ∧ d.length = r.size := by
  obtain ⟨hBase, hLength, -⟩ := h.stored.lengths
  refine ⟨hBase.trans h.follows.base, ?_⟩
  rw [hLength, RangeLayout.length, h.follows.residency, VaRange.places, List.length_map,
    List.length_range, VaRange.size]

theorem Holds.shows_iff {channel : Channel} (h : Holds channel memory place data size r d)
    (a : Nat) : Shows place d a ↔ r.Has (a / pageSize) ∧ place (a / pageSize) ≠ .absent := by
  rw [Shows, h.interval.1, h.interval.2, r.has_div, and_assoc]

/-- Assembling a range shows its pages at their addresses. -/
theorem Holds.assemble {channel : Channel} (h : Holds channel memory place data size r d)
    (checked : Bool) (image cpu gpu : ByteImage.Image) {cpuBuf gpuBuf : Buffer}
    (hCpu : values cpuBuf = packed cpu h.layout.base (pagesOn h.layout.residency .cpu))
    (hGpu : values gpuBuf = packed gpu h.layout.base (pagesOn h.layout.residency .gpu)) :
    replay image (placePages checked d.baseVa (h.layout.residency.map Residency.code)
        cpuBuf gpuBuf) =
      fun a => if Shows place d a then source place cpu gpu a else image a := by
  rw [h.stored.lengths.1, replay_packed checked cpu gpu _ _ _ hCpu hGpu, h.follows.base,
    h.follows.residency]
  funext a
  rw [r.placeAt_places]
  by_cases hHas : r.Has (a / pageSize)
  · cases hPlace : place (a / pageSize) <;> simp [h.shows_iff, hHas, hPlace, source]
  · simp [h.shows_iff, hHas]

/-- The file has the sections of a stored range. -/
theorem stored_readable {s : Sections} (h : StoredAt data size s d) :
    ¬Unreadable size d.dataOffset d.resmapSize ∧
      ¬Unreadable size (d.dataOffset + d.resmapSize) d.cpuBytes ∧
      ¬Unreadable size d.gpuOffset d.gpuBytes := by
  have hInside := h.inside
  rw [RangeDesc.stop, RangeDesc.metaOffset] at hInside
  rw [RangeDesc.gpuOffset] at hInside ⊢
  exact ⟨fun hBad => by have := hBad.2; omega, fun hBad => by have := hBad.2; omega,
    fun hBad => by have := hBad.2; omega⟩

theorem Holds.readable {channel : Channel} (h : Holds channel memory place data size r d) :
    ¬Unreadable size d.dataOffset d.resmapSize ∧
      ¬Unreadable size (d.dataOffset + d.resmapSize) d.cpuBytes ∧
      ¬Unreadable size d.gpuOffset d.gpuBytes := stored_readable h.stored

theorem restoreRange_shows {base : BaseFile} (hDevice : keys.device = .confidential)
    (hVersion : isV3 base = true)
    (h : Holds keys.channel memory place base.data base.size r d) (image : ByteImage.Image) :
    restoreRange keys base image d =
      some fun a => if Shows place d a then memory a else image a := by
  obtain ⟨hOk, hGpu⟩ := openGpu_eq hDevice h.stored
  rw [restoreRange, rangeLog, if_neg h.readable.1, hVersion, openRange, if_pos rfl, hOk,
    openCpu_eq h.stored, readResmap_eq h.stored]
  simp only [Bool.and_self, if_true, Option.map_some]
  rw [h.assemble true image memory memory (values_readCpu true h.stored) hGpu, source_same]

theorem applyBlock_shows {groups : List (Nat × Nat)} {delta : IncDelta}
    (hDevice : keys.device = .confidential)
    (h : Holds keys.channel memory place delta.data delta.size r d) (image : ByteImage.Image) :
    applyBlock keys true groups delta image d =
      fun a => if (findGroup groups d).isSome ∧ Shows place d a then memory a else image a := by
  rw [applyBlock, blockLog]
  cases findGroup groups d with
  | none => simp [replay]
  | some g =>
      dsimp only
      rw [openCpu_eq h.stored, readResmap_eq h.stored, h.assemble true image memory memory
        (values_readCpu true h.stored) (openGpu_eq hDevice h.stored).2, source_same]
      simp

/-- The plain reader takes the GPU section as it stands. -/
theorem assembleData_shows (v3 : Bool) (h : Holds keys.channel memory place data size r d)
    {cipher : ByteImage.Image}
    (hGpu : (h.layout.sections keys.channel memory h.transfer).gpu =
      packed cipher h.layout.base (pagesOn h.layout.residency .gpu)) (image : ByteImage.Image) :
    assembleData v3 data size image d =
      some fun a => if Shows place d a then source place memory cipher a else image a := by
  obtain ⟨hResmap, hCpu, hSection⟩ := h.readable
  obtain ⟨-, -, -, -, -, hGpuBytes, -⟩ := h.stored.lengths
  have hRead := h.stored.gpu
  rw [hGpu, packed_length] at hRead
  rw [assembleData, dataLog, if_neg (by tauto), readResmap_eq h.stored, Option.map_some,
    h.assemble false image memory cipher (values_readCpu v3 h.stored)
      (by rw [readGpu, values_readBytes, hGpuBytes, hRead])]

end Readers

section Folds

variable {memory : ByteImage.Image} {shown : RangeDesc → Nat → Prop}
  [∀ d a, Decidable (shown d a)] {descs : List RangeDesc}

theorem foldl_shows {step : ByteImage.Image → RangeDesc → ByteImage.Image}
    (hStep : ∀ d ∈ descs, ∀ image, step image d =
      fun a => if shown d a then memory a else image a) (image : ByteImage.Image) :
    descs.foldl step image =
      fun a => if ∃ d ∈ descs, shown d a then memory a else image a := by
  induction descs generalizing image with
  | nil => simp
  | cons d rest ih =>
      rw [List.foldl_cons, ih (fun d' hd' => hStep d' (List.mem_cons_of_mem d hd')),
        hStep d List.mem_cons_self]
      funext a
      simp only [List.exists_mem_cons_iff]
      by_cases hRest : ∃ d ∈ rest, shown d a
      · simp [hRest]
      · simp [hRest]

theorem foldlM_shows {step : ByteImage.Image → RangeDesc → Option ByteImage.Image}
    (hStep : ∀ d ∈ descs, ∀ image, step image d =
      some fun a => if shown d a then memory a else image a) (image : ByteImage.Image) :
    descs.foldlM step image =
      some fun a => if ∃ d ∈ descs, shown d a then memory a else image a := by
  have hFold : descs.foldlM step image =
      some (descs.foldl (fun image d a => if shown d a then memory a else image a) image) := by
    induction descs generalizing image with
    | nil => rfl
    | cons d rest ih =>
        rw [List.foldlM_cons, hStep d List.mem_cons_self, Option.bind_eq_bind, Option.bind_some,
          ih (fun d' hd' => hStep d' (List.mem_cons_of_mem d hd')), List.foldl_cons]
  rw [hFold, foldl_shows fun _ _ _ => rfl]

omit [∀ d a, Decidable (shown d a)] in
theorem foldlM_none {step : ByteImage.Image → RangeDesc → Option ByteImage.Image} {d : RangeDesc}
    (hd : d ∈ descs) (hStep : ∀ image, step image d = none) (image : ByteImage.Image) :
    descs.foldlM step image = none := by
  induction descs generalizing image with
  | nil => cases hd
  | cons d' rest ih =>
      rw [List.foldlM_cons, Option.bind_eq_bind, Option.bind_eq_none_iff]
      intro image' hFirst
      rcases List.mem_cons.mp hd with rfl | hd
      · rw [hStep] at hFirst
        cases hFirst
      · exact ih hd image'

end Folds

end FlashCkpt.Restore
