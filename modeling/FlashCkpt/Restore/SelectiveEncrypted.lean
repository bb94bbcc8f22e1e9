import FlashCkpt.Restore.Selective

/-! `ckpt_restore_selective_encrypted`: the ranges that a window meets are decrypted, and their
pages copied one after the other from the first address they share. The delta is not read. -/
namespace FlashCkpt.Restore

open ByteImage SizeCut Intervals Crypto Image

/-- The bytes of a section that belong to the pages in front of one. -/
def bytesBefore (place : Residency) (resmap : Bytes) (i : Nat) : Nat :=
  (resmap.take i).count place.code * pageSize

/-- The GPU section of the selective reader: any metadata at all sends it through
`decrypt_section`. -/
def sliceGpu (keys : Keys) (v3 : Bool) (data : ByteImage.Image) (size : Nat) (d : RangeDesc) :
    Buffer :=
  let gpu := readGpu v3 data size d
  if d.cryptoMetaBytes = 0 then gpu
  else (decryptSection keys gpu (sectionMetas v3 data d).1 keys.k3 keys.device v3).2

/-- The loop from `overlap_start` to `overlap_end`, with map and sections from the first page
on. -/
def slicePages (stop : Nat) : (va : Nat) → (resmap : Bytes) → (cpu gpu : Buffer) → Log
  | _, [], _, _ => []
  | va, m :: rest, cpu, gpu =>
      if stop ≤ va then []
      else if m = 0 ∧ pageSize ≤ cpu.length then
        (va, pageCells cpu) :: slicePages stop (va + pageSize) rest (cpu.drop pageSize) gpu
      else if m = 1 ∧ pageSize ≤ gpu.length then
        (va, pageCells gpu) :: slicePages stop (va + pageSize) rest cpu (gpu.drop pageSize)
      else slicePages stop (va + pageSize) rest cpu gpu

/-- What is copied of one range for a window. What a read or a decryption said is not asked. -/
def sliceLog (keys : Keys) (base : BaseFile) (w : Window) (d : RangeDesc) : Log :=
  if w.stop ≤ d.baseVa ∨ rangeStop d ≤ w.va then []
  else
    let overlapStart := if d.baseVa ≤ w.va then w.va else d.baseVa
    let overlapEnd := if w.stop ≤ rangeStop d then w.stop else rangeStop d
    let firstPage := (overlapStart - d.baseVa) / pageSize
    let resmap := read base.data d.dataOffset d.resmapSize
    slicePages overlapEnd overlapStart (resmap.drop firstPage)
      ((openCpu keys (isV3 base) base.data base.size d).2.drop (bytesBefore .cpu resmap firstPage))
      ((sliceGpu keys (isV3 base) base.data base.size d).drop (bytesBefore .gpu resmap firstPage))

def windowSlices (keys : Keys) (base : BaseFile) (w : Window) : Log :=
  base.descs.flatMap (sliceLog keys base w)

/-- `ckpt_restore_selective_encrypted`. -/
def restoreSelectiveEncrypted (heap : Heap) (keys : Keys) (base : BaseFile) (_delta : IncDelta)
    (windows : List Window) : Option (List MemBlock) :=
  if windows = [] then some []
  else if !windows.all fun w => heap.calloc w.size then none
  else if maxRanges < base.descs.length then none
  else some (windows.map fun w => w.block (windowSlices keys base w))

/-- The call gets as far as the ranges. -/
structure Starts (heap : Heap) (base : BaseFile) (windows : List Window) : Prop where
  room : ∀ w ∈ windows, heap.calloc w.size = true
  ranges : base.descs.length ≤ maxRanges

/-- The encrypted selective reader gives the slices of what the encrypted full reader gives,
fails where it does, and copies nothing outside its buffers. -/
structure SliceOfFull (heap : Heap) (keys : Keys) (base : BaseFile) (delta : IncDelta)
    (windows : List Window) : Prop where
  errors : windows ≠ [] → restoreFromFilesEncrypted keys base delta = none →
    restoreSelectiveEncrypted heap keys base delta windows = none
  bytes : ∀ r, restoreFromFilesEncrypted keys base delta = some r →
    restoreSelectiveEncrypted heap keys base delta windows =
      if windows.all fun w => heap.calloc w.size then
        some (windows.map fun w => ⟨w.va, w.size, read r.image w.va w.size⟩)
      else none
  inside : Starts heap base windows → ∀ w ∈ windows, ∀ copy ∈ windowSlices keys base w,
    w.va ≤ copy.1 ∧ copy.1 + copy.2.length ≤ w.va + w.size

/-- A map with an entry for each page of the range, which lies in the lower half of the address
space. -/
structure WellFormed (d : RangeDesc) : Prop where
  length : d.length = d.numPages * pageSize
  resmap : d.resmapSize = d.numPages
  user : d.baseVa + d.length ≤ 2 ^ 63

/-- The page is there, and its section reaches to its end. -/
def Filled (resmap : Bytes) (cpu gpu : Nat) (i : Nat) : Prop :=
  (resmap[i]? = some Residency.cpu.code ∧ bytesBefore .cpu resmap i + pageSize ≤ cpu) ∨
    resmap[i]? = some Residency.gpu.code ∧ bytesBefore .gpu resmap i + pageSize ≤ gpu

/-- A page that the full reader takes from a range or block. -/
def PageAt (data : ByteImage.Image) (d : RangeDesc) (i : Nat) : Prop :=
  Filled (readResmap data d) d.cpuBytes d.gpuBytes i

def pageVa (d : RangeDesc) (i : Nat) : Nat := d.baseVa + i * pageSize

/-- The page and the window have an address in common. -/
def Window.Meets (w : Window) (d : RangeDesc) (i : Nat) : Prop :=
  pageVa d i < w.va + w.size ∧ w.va < pageVa d (i + 1)

/-- The window begins in front of the range or at a page of it. -/
def Window.Aligned (w : Window) (d : RangeDesc) : Prop :=
  w.va ≤ d.baseVa ∨ pageSize ∣ w.va - d.baseVa

/-- Both readers open the sections alike: they are in the clear, or of version 3, or there is
no CPU section and the key is at hand. -/
def SameSections (keys : Keys) (v3 : Bool) (d : RangeDesc) : Prop :=
  d.cryptoMetaBytes = 0 ∨
    cryptoMetaSize ≤ d.cryptoMetaBytes ∧ (v3 = true ∨ d.cpuBytes = 0 ∧ keys.k3.isSome)

/-- Of the range the window takes whole pages, from sections that are opened alike. -/
def Served (keys : Keys) (base : BaseFile) (w : Window) (d : RangeDesc) : Prop :=
  ∀ i, PageAt base.data d i → w.Meets d i →
    w.Aligned d ∧ pageVa d (i + 1) ≤ w.va + w.size ∧ SameSections keys (isV3 base) d

/-- Ranges that overlap are in the order of their addresses, the windows take whole pages, and
nothing of the delta lies in them. -/
structure Sliceable (keys : Keys) (base : BaseFile) (delta : IncDelta) (windows : List Window) :
    Prop where
  order : base.descs.Pairwise fun d e => d.baseVa ≤ e.baseVa ∨ Apart d e
  served : ∀ w ∈ windows, ∀ d ∈ base.descs, Served keys base w d
  clean : ∀ w ∈ windows, ∀ b ∈ delta.blocks, (findGroup (groupDescs base.descs) b).isSome →
    ∀ i, PageAt delta.data b i → ¬w.Meets b i

/-- A window that begins at a page of a range does not end in one. -/
def Contained (base : BaseFile) (windows : List Window) : Prop :=
  ∀ w ∈ windows, ∀ d ∈ base.descs, w.Aligned d → ∀ i, PageAt base.data d i → w.Meets d i →
    pageVa d (i + 1) ≤ w.va + w.size

section Pages

@[simp] theorem bytesBefore_zero (place : Residency) (resmap : Bytes) :
    bytesBefore place resmap 0 = 0 := by
  rw [bytesBefore, List.take_zero, List.count_nil, Nat.zero_mul]

theorem bytesBefore_succ (place : Residency) (m : UInt8) (rest : Bytes) (i : Nat) :
    bytesBefore place (m :: rest) (i + 1) =
      (if m = place.code then pageSize else 0) + bytesBefore place rest i := by
  rw [bytesBefore, bytesBefore, List.take_succ_cons, List.count_cons]
  by_cases hCode : m = place.code
  · rw [if_pos (beq_iff_eq.mpr hCode), if_pos hCode, Nat.succ_mul, Nat.add_comm]
  · rw [if_neg fun h => hCode (beq_iff_eq.mp h), if_neg hCode, Nat.add_zero, Nat.zero_add]

theorem bytesBefore_add (place : Residency) (resmap : Bytes) (n i : Nat) :
    bytesBefore place resmap (n + i) =
      bytesBefore place resmap n + bytesBefore place (resmap.drop n) i := by
  rw [bytesBefore, bytesBefore, bytesBefore, List.take_add, List.count_append, Nat.add_mul]

/-- A page behind the first `n` ones is a page of the whole map. -/
theorem Filled.of_drop {resmap : Bytes} {cpu gpu n i : Nat}
    (h : Filled (resmap.drop n) (cpu - bytesBefore .cpu resmap n) (gpu - bytesBefore .gpu resmap n)
      i) : Filled resmap cpu gpu (n + i) := by
  have hPos : 0 < pageSize := by decide
  rw [Filled, List.getElem?_drop] at h
  rw [Filled, bytesBefore_add, bytesBefore_add]
  rcases h with ⟨hPlace, hReach⟩ | ⟨hPlace, hReach⟩
  · exact .inl ⟨hPlace, by omega⟩
  · exact .inr ⟨hPlace, by omega⟩

theorem placePages_checked (va : Nat) (m : UInt8) (rest : Bytes) (cpu gpu : Buffer) :
    placePages true va (m :: rest) cpu gpu =
      if m = Residency.cpu.code ∧ pageSize ≤ cpu.length then
        (va, pageCells cpu) ::
          placePages true (va + pageSize) rest (cpu.drop pageSize) gpu
      else if m = Residency.gpu.code ∧ pageSize ≤ gpu.length then
        (va, pageCells gpu) ::
          placePages true (va + pageSize) rest cpu (gpu.drop pageSize)
      else placePages true (va + pageSize) rest cpu gpu := by
  have hChecked : ∀ n, (!true) = true ∨ pageSize ≤ n ↔ pageSize ≤ n := by
    intro n
    exact or_iff_right (by decide)
  rw [placePages]
  refine if_congr ?_ rfl (if_congr ?_ rfl rfl)
  · rw [hChecked]
    rfl
  · rw [hChecked]
    rfl

theorem not_gpu_of_cpu {m : UInt8} (h : m = Residency.cpu.code) : m ≠ Residency.gpu.code := by
  rw [h]
  decide

theorem not_cpu_of_gpu {m : UInt8} (h : m = Residency.gpu.code) : m ≠ Residency.cpu.code := by
  rw [h]
  decide

/-- A section that has no whole page left is as good as any other such section. -/
theorem placePages_short {cpu cpu' gpu gpu' : Buffer}
    (hCpu : cpu = cpu' ∨ cpu.length < pageSize ∧ cpu'.length < pageSize)
    (hGpu : gpu = gpu' ∨ gpu.length < pageSize ∧ gpu'.length < pageSize) (va : Nat)
    (resmap : Bytes) : placePages true va resmap cpu gpu = placePages true va resmap cpu' gpu' := by
  induction resmap generalizing va cpu cpu' gpu gpu' with
  | nil => rfl
  | cons m rest ih =>
      rw [placePages_checked, placePages_checked]
      rcases hCpu with rfl | hCpu
      · rcases hGpu with rfl | hGpu
        · rfl
        · have hNone : ¬pageSize ≤ gpu.length := by omega
          have hNone' : ¬pageSize ≤ gpu'.length := by omega
          simp only [hNone, hNone', and_false, if_false]
          rw [ih (.inl rfl) (.inr hGpu), ih (.inl rfl) (.inr hGpu)]
      · have hNone : ¬pageSize ≤ cpu.length := by omega
        have hNone' : ¬pageSize ≤ cpu'.length := by omega
        simp only [hNone, hNone', and_false, if_false]
        rcases hGpu with rfl | hGpu
        · rw [ih (.inr hCpu) (.inl rfl), ih (.inr hCpu) (.inl rfl)]
        · have hNone : ¬pageSize ≤ gpu.length := by omega
          have hNone' : ¬pageSize ≤ gpu'.length := by omega
          simp only [hNone, hNone', and_false, if_false]
          exact ih (.inr hCpu) (.inr hGpu) _

/-- The pages in front of the `n`-th one, and those from it on with what is left of the
sections. -/
theorem placePages_split (n va : Nat) (resmap : Bytes) (cpu gpu : Buffer) :
    placePages true va resmap cpu gpu = placePages true va (resmap.take n) cpu gpu ++
      placePages true (va + n * pageSize) (resmap.drop n) (cpu.drop (bytesBefore .cpu resmap n))
        (gpu.drop (bytesBefore .gpu resmap n)) := by
  induction resmap generalizing n va cpu gpu with
  | nil =>
      rw [List.take_nil, List.drop_nil]
      rfl
  | cons m rest ih =>
      cases n with
      | zero =>
          rw [List.take_zero, List.drop_zero, bytesBefore_zero, bytesBefore_zero, List.drop_zero,
            List.drop_zero, Nat.zero_mul]
          rfl
      | succ n =>
          have hNext : va + (n + 1) * pageSize = va + pageSize + n * pageSize := by
            rw [Nat.succ_mul]
            omega
          rw [List.take_succ_cons, List.drop_succ_cons, bytesBefore_succ, bytesBefore_succ, hNext,
            placePages_checked, placePages_checked]
          by_cases hCpu : m = Residency.cpu.code ∧ pageSize ≤ cpu.length
          · rw [if_pos hCpu, if_pos hCpu, if_pos hCpu.1, if_neg (not_gpu_of_cpu hCpu.1),
              Nat.zero_add, ← List.drop_drop, List.cons_append, ih]
          · rw [if_neg hCpu, if_neg hCpu]
            by_cases hGpu : m = Residency.gpu.code ∧ pageSize ≤ gpu.length
            · rw [if_pos hGpu, if_pos hGpu, if_pos hGpu.1, if_neg (not_cpu_of_gpu hGpu.1),
                Nat.zero_add, ← List.drop_drop, List.cons_append, ih]
            · rw [if_neg hGpu, if_neg hGpu, ih]
              congr 1
              -- a page whose section is too short moves the cursor, but nothing can follow
              have hShort : ∀ (place : Residency) (b : Buffer),
                  ¬(m = place.code ∧ pageSize ≤ b.length) →
                    b.drop (bytesBefore place rest n) = b.drop ((if m = place.code then pageSize
                        else 0) + bytesBefore place rest n) ∨
                      (b.drop (bytesBefore place rest n)).length < pageSize ∧
                        (b.drop ((if m = place.code then pageSize else 0) +
                          bytesBefore place rest n)).length < pageSize := by
                intro place b hNot
                by_cases hCode : m = place.code
                · have hLength : b.length < pageSize :=
                    Nat.not_le.mp fun hReach => hNot ⟨hCode, hReach⟩
                  right
                  rw [List.length_drop, List.length_drop]
                  omega
                · left
                  rw [if_neg hCode, Nat.zero_add]
              exact placePages_short (hShort .cpu cpu hCpu) (hShort .gpu gpu hGpu) _ _

/-- Every copy is that of a page that is there. -/
theorem filled_of_mem {va : Nat} {resmap : Bytes} {cpu gpu : Buffer} {p : Nat × Buffer}
    (h : p ∈ placePages true va resmap cpu gpu) :
    ∃ i, p.1 = va + i * pageSize ∧ Filled resmap cpu.length gpu.length i := by
  induction resmap generalizing va cpu gpu with
  | nil => cases h
  | cons m rest ih =>
      have hNext : ∀ i, va + pageSize + i * pageSize = va + (i + 1) * pageSize := by
        intro i
        rw [Nat.succ_mul]
        omega
      have hShift : ∀ i, Filled (m :: rest) cpu.length gpu.length (i + 1) ↔
          (rest[i]? = some Residency.cpu.code ∧ (if m = Residency.cpu.code then pageSize else 0) +
            bytesBefore .cpu rest i + pageSize ≤ cpu.length) ∨
          rest[i]? = some Residency.gpu.code ∧ (if m = Residency.gpu.code then pageSize else 0) +
            bytesBefore .gpu rest i + pageSize ≤ gpu.length := by
        intro i
        rw [Filled, bytesBefore_succ, bytesBefore_succ, List.getElem?_cons_succ]
      rw [placePages_checked] at h
      split at h
      · rename_i hCpu
        rcases List.mem_cons.mp h with rfl | h
        · refine ⟨0, by rw [Nat.zero_mul]; rfl, .inl ⟨by rw [hCpu.1]; rfl, ?_⟩⟩
          rw [bytesBefore_zero, Nat.zero_add]
          exact hCpu.2
        · obtain ⟨i, hPlace, hFilled⟩ := ih h
          refine ⟨i + 1, by rw [hPlace, hNext], (hShift i).mpr ?_⟩
          rw [Filled, List.length_drop] at hFilled
          rw [if_pos hCpu.1, if_neg (not_gpu_of_cpu hCpu.1), Nat.zero_add]
          rcases hFilled with ⟨hAt, hEnd⟩ | hGpu
          · exact .inl ⟨hAt, by omega⟩
          · exact .inr hGpu
      · rename_i hCpu
        split at h
        · rename_i hGpu
          rcases List.mem_cons.mp h with rfl | h
          · refine ⟨0, by rw [Nat.zero_mul]; rfl, .inr ⟨by rw [hGpu.1]; rfl, ?_⟩⟩
            rw [bytesBefore_zero, Nat.zero_add]
            exact hGpu.2
          · obtain ⟨i, hPlace, hFilled⟩ := ih h
            refine ⟨i + 1, by rw [hPlace, hNext], (hShift i).mpr ?_⟩
            rw [Filled, List.length_drop] at hFilled
            rw [if_pos hGpu.1, if_neg (not_cpu_of_gpu hGpu.1), Nat.zero_add]
            rcases hFilled with hCpuAt | ⟨hAt, hEnd⟩
            · exact .inl hCpuAt
            · exact .inr ⟨hAt, by omega⟩
        · rename_i hGpu
          obtain ⟨i, hPlace, hFilled⟩ := ih h
          refine ⟨i + 1, by rw [hPlace, hNext], (hShift i).mpr ?_⟩
          rcases hFilled with ⟨hAt, hEnd⟩ | ⟨hAt, hEnd⟩
          · have hCode : m ≠ Residency.cpu.code := fun hCode => hCpu ⟨hCode, by omega⟩
            exact .inl ⟨hAt, by rw [if_neg hCode, Nat.zero_add]; exact hEnd⟩
          · have hCode : m ≠ Residency.gpu.code := fun hCode => hGpu ⟨hCode, by omega⟩
            exact .inr ⟨hAt, by rw [if_neg hCode, Nat.zero_add]; exact hEnd⟩

/-- A page that is there is copied. -/
theorem Filled.exists_mem {va : Nat} {resmap : Bytes} {cpu gpu : Buffer} {i : Nat}
    (h : Filled resmap cpu.length gpu.length i) :
    ∃ page, (va + i * pageSize, page) ∈ placePages true va resmap cpu gpu := by
  rw [placePages_split i]
  have hRest : ∀ {m : UInt8}, resmap[i]? = some m → resmap.drop i = m :: resmap.drop (i + 1) := by
    intro m hAt
    obtain ⟨hLt, hEq⟩ := List.getElem?_eq_some_iff.mp hAt
    rw [← hEq, List.drop_eq_getElem_cons hLt]
  rcases h with ⟨hAt, hEnd⟩ | ⟨hAt, hEnd⟩
  · refine ⟨pageCells (cpu.drop (bytesBefore .cpu resmap i)), List.mem_append_right _ ?_⟩
    rw [hRest hAt, placePages_cpu _ _ _ (by rw [List.length_drop]; omega)]
    exact List.mem_cons_self
  · refine ⟨pageCells (gpu.drop (bytesBefore .gpu resmap i)), List.mem_append_right _ ?_⟩
    rw [hRest hAt, placePages_gpu _ _ _ (by rw [List.length_drop]; omega)]
    exact List.mem_cons_self

end Pages

section Slices

variable (stop va : Nat) (resmap : Bytes) (cpu gpu : Buffer)

/-- The loop makes the copies of the full reader that begin in front of the end. -/
theorem mem_slicePages (p : Nat × Buffer) : p ∈ slicePages stop va resmap cpu gpu ↔
    p ∈ placePages true va resmap cpu gpu ∧ p.1 < stop := by
  induction resmap generalizing va cpu gpu with
  | nil => exact ⟨nofun, fun h => nomatch h.1⟩
  | cons m rest ih =>
      rw [slicePages]
      by_cases hStop : stop ≤ va
      · rw [if_pos hStop]
        refine ⟨nofun, fun h => ?_⟩
        have hPlace := placePages_within true va (m :: rest) cpu gpu p h.1
        omega
      · have hHead : ∀ page : Buffer, p = (va, page) → p.1 < stop := by
          rintro page rfl
          exact Nat.not_le.mp hStop
        rw [if_neg hStop, placePages_checked]
        by_cases hCpu : m = Residency.cpu.code ∧ pageSize ≤ cpu.length
        · rw [if_pos hCpu, if_pos (show m = 0 ∧ _ from hCpu), List.mem_cons, List.mem_cons, ih,
            or_and_right, and_iff_left_of_imp (hHead (pageCells cpu))]
        · rw [if_neg hCpu, if_neg (show ¬(m = 0 ∧ _) from hCpu)]
          by_cases hGpu : m = Residency.gpu.code ∧ pageSize ≤ gpu.length
          · rw [if_pos hGpu, if_pos (show m = 1 ∧ _ from hGpu), List.mem_cons, List.mem_cons, ih,
              or_and_right, and_iff_left_of_imp (hHead (pageCells gpu))]
          · rw [if_neg hGpu, if_neg (show ¬(m = 1 ∧ _) from hGpu)]
            exact ih _ _ _

/-- In front of the end it makes no difference that the loop stops there. -/
theorem replay_slicePages {a : Nat} (ha : a < stop) (image : ByteImage.Image) :
    replay image (slicePages stop va resmap cpu gpu) a =
      replay image (placePages true va resmap cpu gpu) a := by
  induction resmap generalizing va cpu gpu image with
  | nil => rfl
  | cons m rest ih =>
      by_cases hStop : stop ≤ va
      · rw [slicePages, if_pos hStop]
        refine (replay_outside (fun p hp => ?_) image).symm
        have hPlace := placePages_within true va (m :: rest) cpu gpu p hp
        omega
      · rw [slicePages, if_neg hStop, placePages_checked]
        by_cases hCpu : m = Residency.cpu.code ∧ pageSize ≤ cpu.length
        · rw [if_pos hCpu, if_pos (show m = 0 ∧ _ from hCpu), replay_cons, replay_cons, ih]
        · rw [if_neg hCpu, if_neg (show ¬(m = 0 ∧ _) from hCpu)]
          by_cases hGpu : m = Residency.gpu.code ∧ pageSize ≤ gpu.length
          · rw [if_pos hGpu, if_pos (show m = 1 ∧ _ from hGpu), replay_cons, replay_cons, ih]
          · rw [if_neg hGpu, if_neg (show ¬(m = 1 ∧ _) from hGpu)]
            exact ih _ _ _ _

end Slices

section Sections

variable {keys : Keys} {v3 : Bool} {data : ByteImage.Image} {size : Nat} {d : RangeDesc}

theorem sliceGpu_length : (sliceGpu keys v3 data size d).length = d.gpuBytes := by
  have hRead : (readGpu v3 data size d).length = d.gpuBytes := readBytes_length _ _ _ _ _
  rw [sliceGpu]
  split
  · exact hRead
  · rw [decryptSection_length, hRead]

theorem openRange_length {sections : Buffer × Buffer}
    (h : openRange keys v3 data size d = some sections) :
    sections.1.length = d.cpuBytes ∧ sections.2.length = d.gpuBytes := by
  rw [openRange] at h
  split at h
  · rw [Option.ite_none_right_eq_some, Option.some.injEq] at h
    rw [← h.2]
    exact ⟨openCpu_length keys v3 data size d, openGpu_length keys v3 data size d⟩
  · split at h
    · cases h
      exact ⟨readBytes_length _ _ _ _ _, readBytes_length _ _ _ _ _⟩
    · rw [Option.ite_none_right_eq_some, Option.some.injEq] at h
      rw [← h.2, List.length_take, List.length_drop, openCombined_length]
      exact ⟨Nat.min_eq_left (Nat.le_add_right _ _), Nat.add_sub_cancel_left _ _⟩

theorem metas_nil (h : d.cryptoMetaBytes = 0) : sectionMetas v3 data d = ([], []) := by
  rw [sectionMetas, h]
  cases v3 <;> rfl

/-- There is metadata for an entry, and the GPU section gets it. -/
theorem metas_cons (h : cryptoMetaSize ≤ d.cryptoMetaBytes) (hUsed : d.gpuBytes ≠ 0 ∨ v3 = false) :
    (sectionMetas v3 data d).1 ≠ [] := by
  have hCount : 0 < d.cryptoMetaBytes / cryptoMetaSize := Nat.div_pos h (by decide)
  have hSome : readMetas data d.metaOffset (d.cryptoMetaBytes / cryptoMetaSize) ≠ [] := by
    rw [← List.length_pos_iff, readMetas, List.length_map, List.length_range]
    exact hCount
  obtain ⟨entry, rest, hEntries⟩ := List.exists_cons_of_ne_nil hSome
  rw [sectionMetas, hEntries]
  cases v3 with
  | false => exact List.cons_ne_nil entry rest
  | true =>
      have hBytes : 0 < d.gpuBytes := Nat.pos_of_ne_zero (hUsed.resolve_right (by simp))
      rw [if_pos rfl, takeUpTo, if_pos hBytes]
      exact List.cons_ne_nil _ _

/-- Where the sections are opened alike, they hold the same. -/
theorem openRange_slice {sections : Buffer × Buffer} (hSame : SameSections keys v3 d)
    (h : openRange keys v3 data size d = some sections) :
    sections = ((openCpu keys v3 data size d).2, sliceGpu keys v3 data size d) := by
  have hCpuLength := openCpu_length keys v3 data size d
  rcases hSame with hClear | ⟨hMeta, hKind⟩
  · have hCpu : openCpu keys v3 data size d = (true, readCpu v3 data size d) := by
      rw [openCpu, metas_nil hClear, ite_self]
      exact if_neg fun hUsed => hUsed.2.2 rfl
    have hGpu : openGpu keys v3 data size d = (true, readGpu v3 data size d) := by
      rw [openGpu, metas_nil hClear]
      exact if_neg fun hUsed => hUsed.2 rfl
    have hSlice : sliceGpu keys v3 data size d = readGpu v3 data size d := by
      rw [sliceGpu, if_pos hClear]
    rw [openRange, hCpu, hGpu, metas_nil hClear, if_pos rfl] at h
    rw [hCpu, hSlice]
    split at h
    · exact (Option.some.inj h).symm
    · exact (Option.some.inj h).symm
  · have hSlice : sliceGpu keys v3 data size d = (decryptSection keys (readGpu v3 data size d)
        (sectionMetas v3 data d).1 keys.k3 keys.device v3).2 := by
      have hSome : d.cryptoMetaBytes ≠ 0 := by
        have hPos : 0 < cryptoMetaSize := by decide
        omega
      rw [sliceGpu, if_neg hSome]
    cases v3 with
    | true =>
        rw [openRange, if_pos rfl, Option.ite_none_right_eq_some, Option.some.injEq] at h
        rw [← h.2, Prod.mk.injEq]
        refine ⟨rfl, ?_⟩
        by_cases hBytes : d.gpuBytes = 0
        · have hOpen := openGpu_length keys true data size d
          have hLength := @sliceGpu_length keys true data size d
          rw [hBytes, List.length_eq_zero_iff] at hOpen hLength
          rw [hOpen, hLength]
        · rw [hSlice, openGpu, if_pos ⟨mt (readGpu_nil true data size d).mp hBytes,
            metas_cons hMeta (.inl hBytes)⟩]
    | false =>
        obtain ⟨hNoCpu, hKey⟩ := hKind.resolve_left Bool.false_ne_true
        obtain ⟨key, hKey⟩ := Option.isSome_iff_exists.mp hKey
        have hNil : readCpu false data size d = [] := (readCpu_nil false data size d).mpr hNoCpu
        rw [openRange, if_neg Bool.false_ne_true, if_neg (metas_cons hMeta (.inr rfl)),
          Option.ite_none_right_eq_some, Option.some.injEq] at h
        rw [hNoCpu, List.length_eq_zero_iff] at hCpuLength
        rw [← h.2, hNoCpu, hCpuLength, hSlice, openCombined, hNil, hKey]
        rfl

end Sections

section Ranges

variable {keys : Keys} {base : BaseFile} {w : Window} {d : RangeDesc}

theorem readResmap_wellFormed (h : WellFormed d) (data : ByteImage.Image) :
    readResmap data d = read data d.dataOffset d.resmapSize := by
  rw [readResmap, ← h.resmap]
  exact List.take_of_length_le (Nat.le_of_eq (read_length _ _ _))

theorem PageAt.lt {data : ByteImage.Image} {i : Nat} (h : PageAt data d i) : i < d.numPages := by
  have hAt : ∃ m, (readResmap data d)[i]? = some m := by
    rcases h with h | h
    · exact ⟨_, h.1⟩
    · exact ⟨_, h.1⟩
  obtain ⟨m, hAt⟩ := hAt
  obtain ⟨hLt, -⟩ := List.getElem?_eq_some_iff.mp hAt
  exact Nat.lt_of_lt_of_le hLt (List.length_take_le _ _)

theorem pageVa_succ (d : RangeDesc) (i : Nat) : pageVa d (i + 1) = pageVa d i + pageSize := by
  rw [pageVa, pageVa, Nat.succ_mul]
  omega

/-- What the full reader copies of a range, page by page. -/
theorem rangeLog_pages {log : Log} (h : rangeLog keys base d = some log) : ∃ sections,
    openRange keys (isV3 base) base.data base.size d = some sections ∧
      log = placePages true d.baseVa (readResmap base.data d) sections.1 sections.2 ∧
      ∀ p ∈ log, p.2.length = pageSize ∧ ∃ i, p.1 = pageVa d i ∧ PageAt base.data d i := by
  rw [rangeLog] at h
  split at h
  · cases h
  obtain ⟨sections, hOpen, rfl⟩ := Option.map_eq_some_iff.mp h
  refine ⟨sections, hOpen, rfl, fun p hp => ⟨placePages_length _ _ _ _ _ p hp, ?_⟩⟩
  obtain ⟨i, hPlace, hFilled⟩ := filled_of_mem hp
  obtain ⟨hCpu, hGpu⟩ := openRange_length hOpen
  rw [hCpu, hGpu] at hFilled
  exact ⟨i, hPlace, hFilled⟩

/-- A window that meets a page of a range meets the range, and its end does not wrap around. -/
theorem meets_range (hFormed : WellFormed d) (hSize : w.size < 2 ^ 63) {i : Nat}
    (hLt : i < d.numPages) (hMeets : w.Meets d i) :
    w.stop = w.va + w.size ∧ rangeStop d = d.baseVa + d.length ∧ d.baseVa < w.stop ∧
      w.va < rangeStop d := by
  have hLength := hFormed.length
  have hUser := hFormed.user
  have hPages : (i + 1) * pageSize ≤ d.numPages * pageSize := Nat.mul_le_mul_right pageSize hLt
  have hStart : d.baseVa ≤ pageVa d i := Nat.le_add_right _ _
  have hEnd : pageVa d (i + 1) ≤ d.baseVa + d.length := by
    rw [pageVa, hLength]
    omega
  obtain ⟨hLow, hHigh⟩ := hMeets
  have hStop : w.stop = w.va + w.size := Nat.mod_eq_of_lt (by omega)
  have hRange : rangeStop d = d.baseVa + d.length := Nat.mod_eq_of_lt (by omega)
  rw [hStop, hRange]
  exact ⟨rfl, rfl, by omega, by omega⟩

/-- The first page of an aligned window, and where it begins. -/
theorem Window.Aligned.start (h : w.Aligned d) : ∃ n,
    (if d.baseVa ≤ w.va then w.va else d.baseVa) = pageVa d n ∧
      ((if d.baseVa ≤ w.va then w.va else d.baseVa) - d.baseVa) / pageSize = n ∧
      (pageVa d n = w.va ∨ n = 0 ∧ w.va ≤ d.baseVa) := by
  have hPos : 0 < pageSize := by decide
  by_cases hLow : d.baseVa ≤ w.va
  · have hDvd : pageSize ∣ w.va - d.baseVa := by
      rcases h with hFront | hDvd
      · rw [Nat.sub_eq_zero_of_le hFront]
        exact Nat.dvd_zero _
      · exact hDvd
    obtain ⟨n, hn⟩ := hDvd
    have hStart : w.va = pageVa d n := by
      rw [pageVa, Nat.mul_comm]
      omega
    refine ⟨n, ?_, ?_, .inl hStart.symm⟩
    · rw [if_pos hLow, hStart]
    · rw [if_pos hLow, hn, Nat.mul_div_cancel_left _ hPos]
  · refine ⟨0, ?_, ?_, .inr ⟨rfl, by omega⟩⟩
    · rw [if_neg hLow, pageVa, Nat.zero_mul, Nat.add_zero]
    · rw [if_neg hLow, Nat.sub_self, Nat.zero_div]

/-- An aligned window starts at a page of the range. -/
theorem sliceLog_aligned (hFormed : WellFormed d) (hSize : w.size < 2 ^ 63) (hAligned : w.Aligned d)
    {i : Nat} (hLt : i < d.numPages) (hMeets : w.Meets d i) :
    ∃ n stop, (pageVa d n = w.va ∨ n = 0 ∧ w.va ≤ d.baseVa) ∧
      stop = min (w.va + w.size) (d.baseVa + d.length) ∧
      sliceLog keys base w d = slicePages stop (pageVa d n) ((readResmap base.data d).drop n)
        ((openCpu keys (isV3 base) base.data base.size d).2.drop
          (bytesBefore .cpu (readResmap base.data d) n))
        ((sliceGpu keys (isV3 base) base.data base.size d).drop
          (bytesBefore .gpu (readResmap base.data d) n)) := by
  obtain ⟨hStop, hRange, hLow, hHigh⟩ := meets_range hFormed hSize hLt hMeets
  obtain ⟨n, hStart, hFirst, hPlace⟩ := hAligned.start
  refine ⟨n, _, hPlace, rfl, ?_⟩
  rw [sliceLog, if_neg (by omega), ← readResmap_wellFormed hFormed]
  dsimp only
  rw [hFirst, hStart, hStop, hRange]
  rfl

/-- The pages in front of the `n`-th one end there. -/
theorem front_within (n va : Nat) (resmap : Bytes) (cpu gpu : Buffer) :
    ∀ p ∈ placePages true va (resmap.take n) cpu gpu, p.1 + p.2.length ≤ va + n * pageSize := by
  intro p hp
  have hPlace := (placePages_within true va (resmap.take n) cpu gpu p hp).2
  have hMul := Nat.mul_le_mul_right pageSize (List.length_take_le n resmap)
  omega

/-- A page that is there and meets an aligned window is copied to its place. -/
theorem exists_mem_sliceLog (hFormed : WellFormed d) (hSize : w.size < 2 ^ 63)
    (hAligned : w.Aligned d) {i : Nat} (hPage : PageAt base.data d i) (hMeets : w.Meets d i) :
    ∃ page : Buffer, page.length = pageSize ∧ (pageVa d i, page) ∈ sliceLog keys base w d := by
  obtain ⟨n, stop, hPlace, hStop, hLog⟩ :=
    @sliceLog_aligned keys base w d hFormed hSize hAligned i hPage.lt hMeets
  have hFront : n ≤ i := by
    rcases hPlace with hStart | ⟨rfl, -⟩
    · by_contra hBehind
      have hMul := Nat.mul_le_mul_right pageSize (Nat.not_le.mp hBehind)
      have hEnd := hMeets.2
      rw [← hStart, pageVa, pageVa] at hEnd
      rw [Nat.succ_eq_add_one] at hMul
      omega
    · exact Nat.zero_le i
  have hPos : 0 < pageSize := by decide
  have hPages : pageVa d n ≤ pageVa d i := Nat.add_le_add_left (Nat.mul_le_mul_right _ hFront) _
  have hLast : (i + 1) * pageSize ≤ d.numPages * pageSize := Nat.mul_le_mul_right pageSize hPage.lt
  have hLength := hFormed.length
  have hFilled : Filled (readResmap base.data d)
      (openCpu keys (isV3 base) base.data base.size d).2.length
      (sliceGpu keys (isV3 base) base.data base.size d).length i := by
    rw [openCpu_length, sliceGpu_length]
    exact hPage
  obtain ⟨page, hMem⟩ := @Filled.exists_mem d.baseVa _ _ _ _ hFilled
  have hWhole := placePages_length true _ _ _ _ _ hMem
  rw [placePages_split n, List.mem_append] at hMem
  refine ⟨page, hWhole, ?_⟩
  rcases hMem with hFrontMem | hMem
  · have hEnd := front_within n _ _ _ _ _ hFrontMem
    dsimp only at hEnd hWhole
    rw [pageVa, pageVa] at hPages
    omega
  · rw [hLog, mem_slicePages, hStop]
    refine ⟨hMem, ?_⟩
    have hStart := hMeets.1
    rw [pageVa] at hStart ⊢
    rw [Nat.succ_mul] at hLast
    dsimp only
    omega

/-- Whole pages of a range, from sections that are opened alike, are copied as the full reader
does. -/
theorem slice_of_aligned (hFormed : WellFormed d) (hSize : w.size < 2 ^ 63) {log : Log}
    (h : rangeLog keys base d = some log) (hServed : Served keys base w d) {i : Nat}
    (hPage : PageAt base.data d i) (hMeets : w.Meets d i) :
    (∀ copy ∈ sliceLog keys base w d, w.va ≤ copy.1 ∧ copy.1 + copy.2.length ≤ w.va + w.size) ∧
      ∀ a image, w.va ≤ a → a < w.va + w.size →
        replay image (sliceLog keys base w d) a = replay image log a := by
  obtain ⟨hAligned, -, hSame⟩ := hServed i hPage hMeets
  obtain ⟨sections, hOpen, hPlaces, hPages⟩ := rangeLog_pages h
  obtain ⟨n, stop, hPlace, hStop, hLog⟩ :=
    @sliceLog_aligned keys base w d hFormed hSize hAligned i hPage.lt hMeets
  rw [openRange_slice hSame hOpen] at hPlaces
  dsimp only at hPlaces
  have hSplit := placePages_split n d.baseVa (readResmap base.data d)
    (openCpu keys (isV3 base) base.data base.size d).2
    (sliceGpu keys (isV3 base) base.data base.size d)
  rw [← hPlaces] at hSplit
  have hMem : ∀ p ∈ sliceLog keys base w d, p ∈ log ∧ pageVa d n ≤ p.1 ∧ p.1 < stop := by
    intro p hp
    rw [hLog, mem_slicePages] at hp
    refine ⟨?_, (placePages_within _ _ _ _ _ p hp.1).1, hp.2⟩
    rw [hSplit]
    exact List.mem_append_right _ hp.1
  have hInside : ∀ p ∈ log, p.1 + p.2.length ≤ d.baseVa + d.length := by
    intro p hp
    rw [hFormed.length]
    exact (rangeLog_within keys base h p hp).2
  constructor
  · intro p hp
    obtain ⟨hpLog, hLow, hHigh⟩ := hMem p hp
    obtain ⟨hWhole, j, hAt, hFilled⟩ := hPages p hpLog
    have hPos : 0 < pageSize := by decide
    have hFirst : w.va ≤ pageVa d n := by
      rcases hPlace with hStart | ⟨rfl, hFront⟩
      · exact Nat.le_of_eq hStart.symm
      · rw [pageVa]
        omega
    have hOwn := hServed j hFilled ⟨by omega, by rw [pageVa_succ]; omega⟩
    rw [pageVa_succ] at hOwn
    omega
  · intro a image hLow hHigh
    by_cases ha : a < stop
    · rw [hLog, replay_slicePages _ _ _ _ _ ha, hSplit, replay_append]
      refine replay_congr (replay_outside (fun p hp => ?_) image).symm _
      rcases hPlace with hStart | ⟨rfl, -⟩
      · have hEnd := front_within n _ _ _ _ p hp
        rw [pageVa] at hStart
        omega
      · rw [List.take_zero] at hp
        cases hp
    · have hBehind : d.baseVa + d.length ≤ a := by omega
      rw [replay_outside, replay_outside]
      · intro p hp
        have hEnd := hInside p hp
        omega
      · intro p hp
        have hEnd := hInside p (hMem p hp).1
        omega

/-- Where the window meets no page that is there, neither reader copies one into it. -/
theorem slice_of_clear (hFormed : WellFormed d) {log : Log} (h : rangeLog keys base d = some log)
    (hClear : ∀ i, PageAt base.data d i → ¬w.Meets d i) :
    sliceLog keys base w d = [] ∧
      ∀ a image, w.va ≤ a → a < w.va + w.size → replay image log a = image a := by
  obtain ⟨sections, -, -, hPages⟩ := rangeLog_pages h
  have hPos : 0 < pageSize := by decide
  constructor
  · rw [List.eq_nil_iff_forall_not_mem]
    intro p hp
    rw [sliceLog] at hp
    split at hp
    · cases hp
    rename_i hOverlap
    dsimp only at hp
    rw [← readResmap_wellFormed hFormed, mem_slicePages] at hp
    obtain ⟨hp, hEnd⟩ := hp
    obtain ⟨k, hPlace, hFilled⟩ := filled_of_mem hp
    rw [List.length_drop, List.length_drop, openCpu_length, sliceGpu_length] at hFilled
    have hStop : w.stop ≤ w.va + w.size := Nat.mod_le _ _
    generalize hStart : (if d.baseVa ≤ w.va then w.va else d.baseVa) = start at *
    have hStarts : w.va ≤ start ∧ d.baseVa ≤ start := by
      rw [← hStart]
      split
      · exact ⟨Nat.le_refl _, by assumption⟩
      · exact ⟨by omega, Nat.le_refl _⟩
    have hFirst := Nat.div_add_mod (start - d.baseVa) pageSize
    have hRest := Nat.mod_lt (start - d.baseVa) hPos
    rw [Nat.mul_comm] at hFirst
    refine hClear _ hFilled.of_drop ⟨?_, ?_⟩
    · rw [pageVa, Nat.add_mul]
      have hBound : (if w.stop ≤ rangeStop d then w.stop else rangeStop d) ≤ w.stop := by
        split
        · exact Nat.le_refl _
        · omega
      omega
    · rw [pageVa, Nat.succ_mul, Nat.add_mul]
      omega
  · intro a image hLow hHigh
    apply replay_outside
    intro p hp
    obtain ⟨hWhole, i, hAt, hFilled⟩ := hPages p hp
    by_contra hIn
    refine hClear i hFilled ⟨by omega, ?_⟩
    rw [pageVa_succ]
    omega

theorem slice_of_served (hFormed : WellFormed d) (hSize : w.size < 2 ^ 63) {log : Log}
    (h : rangeLog keys base d = some log) (hServed : Served keys base w d) :
    (∀ copy ∈ sliceLog keys base w d, w.va ≤ copy.1 ∧ copy.1 + copy.2.length ≤ w.va + w.size) ∧
      ∀ a image, w.va ≤ a → a < w.va + w.size →
        replay image (sliceLog keys base w d) a = replay image log a := by
  by_cases hAny : ∃ i, PageAt base.data d i ∧ w.Meets d i
  · obtain ⟨i, hPage, hMeets⟩ := hAny
    exact slice_of_aligned hFormed hSize h hServed hPage hMeets
  · obtain ⟨hNone, hKept⟩ := @slice_of_clear keys base w d hFormed log h
      fun i hPage hMeets => hAny ⟨i, hPage, hMeets⟩
    rw [hNone]
    exact ⟨fun _ => nofun, fun a image hLow hHigh => (hKept a image hLow hHigh).symm⟩

/-- The same for ranges one after the other, over bytes that are the same. -/
theorem slices_of_served {descs : List RangeDesc} {logs : List Log} (hSize : w.size < 2 ^ 63)
    (h : descs.mapM (rangeLog keys base) = some logs) (hFormed : ∀ d ∈ descs, WellFormed d)
    (hServed : ∀ d ∈ descs, Served keys base w d) :
    (∀ copy ∈ descs.flatMap (sliceLog keys base w),
      w.va ≤ copy.1 ∧ copy.1 + copy.2.length ≤ w.va + w.size) ∧
      ∀ a image, w.va ≤ a → a < w.va + w.size →
        replay image (descs.flatMap (sliceLog keys base w)) a = replay image logs.flatten a := by
  induction descs generalizing logs with
  | nil =>
      cases h
      exact ⟨fun _ => nofun, fun _ _ _ _ => rfl⟩
  | cons d rest ih =>
      simp only [List.mapM_cons, Option.bind_eq_bind, Option.bind_eq_some_iff, Option.pure_def,
        Option.some.injEq] at h
      obtain ⟨first, hFirst, others, hOthers, rfl⟩ := h
      rw [List.forall_mem_cons] at hFormed hServed
      obtain ⟨hInside, hByte⟩ := slice_of_served hFormed.1 hSize hFirst hServed.1
      obtain ⟨hInsides, hBytes⟩ := ih hOthers hFormed.2 hServed.2
      rw [List.flatMap_cons, List.flatten_cons]
      refine ⟨List.forall_mem_append.mpr ⟨hInside, hInsides⟩, fun a image hLow hHigh => ?_⟩
      rw [replay_append, replay_append, hBytes a _ hLow hHigh]
      exact replay_congr (hByte a image hLow hHigh) _

end Ranges

section Order

variable {f : RangeDesc → Option Log} {descs : List RangeDesc}

instance (d : RangeDesc) (a : Nat) : Decidable (HasByte d a) := inferInstanceAs (Decidable (_ ∧ _))

/-- A byte comes from the ranges that cover it. -/
theorem replay_covering (hWithin : ∀ d log, f d = some log → Within log d) {logs : List Log}
    (h : descs.mapM f = some logs) (a : Nat) (image : ByteImage.Image) :
    replay image logs.flatten a =
      replay image ((descs.filter fun d => HasByte d a).flatMap fun d => (f d).getD []) a := by
  induction descs generalizing logs image with
  | nil =>
      cases h
      rfl
  | cons d rest ih =>
      simp only [List.mapM_cons, Option.bind_eq_bind, Option.bind_eq_some_iff, Option.pure_def,
        Option.some.injEq] at h
      obtain ⟨first, hFirst, others, hOthers, rfl⟩ := h
      rw [List.flatten_cons, replay_append, ih hOthers, List.filter_cons]
      by_cases hHas : HasByte d a
      · rw [if_pos (decide_eq_true hHas), List.flatMap_cons, replay_append, hFirst,
          Option.getD_some]
      · rw [if_neg fun h => hHas (of_decide_eq_true h)]
        exact replay_congr (replay_within (hWithin d first hFirst) hHas image) _

/-- A stable sort leaves elements that stand in order as they stand. -/
theorem filter_sortDescs {p : RangeDesc → Bool}
    (h : (descs.filter p).Pairwise fun d e => d.baseVa ≤ e.baseVa) :
    (sortDescs descs).filter p = descs.filter p := by
  have hSub : (descs.filter p).Sublist (sortDescs descs) := by
    refine List.sublist_mergeSort ?_ ?_ (h.imp decide_eq_true) List.filter_sublist
    · intro a b c hab hbc
      simp only [decide_eq_true_eq] at hab hbc ⊢
      omega
    · intro a b
      simp only [Bool.or_eq_true, decide_eq_true_eq]
      omega
  have hFilter := hSub.filter p
  simp only [List.filter_filter, Bool.and_self] at hFilter
  have hPerm : (sortDescs descs).Perm descs := List.mergeSort_perm _ _
  exact (hFilter.eq_of_length (hPerm.filter p).length_eq.symm).symm

/-- Ranges that overlap in the order of their addresses can be copied in the order of the
file. -/
theorem replay_sorted (hWithin : ∀ d log, f d = some log → Within log d)
    (hOrder : descs.Pairwise fun d e => d.baseVa ≤ e.baseVa ∨ Apart d e) {logs sorted : List Log}
    (h : descs.mapM f = some logs) (hSorted : (sortDescs descs).mapM f = some sorted)
    (image : ByteImage.Image) : replay image sorted.flatten = replay image logs.flatten := by
  funext a
  rw [replay_covering hWithin h, replay_covering hWithin hSorted, filter_sortDescs]
  apply (hOrder.filter _).imp_of_mem
  intro d e hd he hPair
  have hHas : HasByte d a := of_decide_eq_true (List.mem_filter.mp hd).2
  have hOther : HasByte e a := of_decide_eq_true (List.mem_filter.mp he).2
  exact hPair.resolve_right fun hApart => hApart.not_hasByte hHas hOther

end Order

section Files

variable {heap : Heap} {keys : Keys} {base : BaseFile} {delta : IncDelta} {windows : List Window}

/-- A call that does not get to the ranges returns an error, or no window was asked for. -/
theorem refused (h : ¬Starts heap base windows) :
    restoreSelectiveEncrypted heap keys base delta windows = none ∨ windows = [] := by
  by_cases hNil : windows = []
  · exact .inr hNil
  left
  rw [restoreSelectiveEncrypted, if_neg hNil]
  by_cases hRoom : (!windows.all fun w => heap.calloc w.size) = true
  · rw [if_pos hRoom]
  · rw [if_neg hRoom]
    have hAll : ∀ w ∈ windows, heap.calloc w.size = true := by
      rw [Bool.not_eq_true', Bool.not_eq_false, List.all_eq_true] at hRoom
      exact hRoom
    rw [if_pos]
    exact Nat.not_le.mp fun hFew => h ⟨hAll, hFew⟩

theorem started (h : Starts heap base windows) :
    restoreSelectiveEncrypted heap keys base delta windows =
      some (windows.map fun w => w.block (windowSlices keys base w)) := by
  by_cases hNil : windows = []
  · rw [hNil]
    rfl
  · have hRoom : ¬(!windows.all fun w => heap.calloc w.size) = true := by
      rw [Bool.not_eq_true', Bool.not_eq_false, List.all_eq_true]
      exact h.room
    rw [restoreSelectiveEncrypted, if_neg hNil, if_neg hRoom, if_neg (Nat.not_lt.mpr h.ranges)]

theorem accepts_of_restored {r : Restored} (h : restoreFromFilesEncrypted keys base delta = some r) :
    Accepts keys base delta := by
  rw [restoreFromFilesEncrypted_replay] at h
  obtain ⟨log, hLog, -⟩ := Option.map_eq_some_iff.mp h
  exact (accepts_of_log hLog).1

/-- A call that is refused is one that allocates too much, if the full reader succeeds. -/
theorem SliceOfFull.of_refused (h : ¬Starts heap base windows) :
    SliceOfFull heap keys base delta windows where
  errors := fun hSome _ => (refused h).resolve_right hSome
  bytes := by
    intro r hFull
    have hRanges := (accepts_of_restored hFull).ranges
    have hRoom : ¬(windows.all fun w => heap.calloc w.size) = true := by
      rw [List.all_eq_true]
      exact fun hRoom => h ⟨hRoom, hRanges⟩
    rw [if_neg hRoom]
    refine (refused h).resolve_right fun hNil => hRoom ?_
    rw [hNil]
    rfl
  inside := fun hStarts => absurd hStarts h

theorem SliceOfFull.of_none : SliceOfFull heap keys base delta [] where
  errors := fun hSome => absurd rfl hSome
  bytes := fun _ _ => rfl
  inside := fun _ _ => nofun

/-- What is copied for a window that takes whole pages is what the full reader has there. -/
theorem windowSlices_of_sliceable (hEncrypted : ¬BasePlain base)
    (hFormed : ∀ d ∈ base.descs, WellFormed d) (h : Sliceable keys base delta windows) {log : Log}
    (hLog : restoreLog keys base delta = some log) {w : Window} (hw : w ∈ windows)
    (hSize : w.size < 2 ^ 63) :
    (∀ copy ∈ windowSlices keys base w,
      w.va ≤ copy.1 ∧ copy.1 + copy.2.length ≤ w.va + w.size) ∧
      w.block (windowSlices keys base w) =
        ⟨w.va, w.size, read (replay (fun _ => 0) log) w.va w.size⟩ := by
  have hMeta : ∃ d ∈ base.descs, d.cryptoMetaBytes ≠ 0 := by
    rw [BasePlain, List.all_eq_true] at hEncrypted
    simpa using hEncrypted
  obtain ⟨sorted, hSorted, rfl⟩ := restoreLog_encrypted hMeta hLog
  have hPerm : (sortDescs base.descs).Perm base.descs := List.mergeSort_perm _ _
  -- the ranges in the order of the file
  have hRanges : (base.descs.mapM (rangeLog keys base)).isSome := by
    rw [mapM_isSome]
    intro d hd
    exact mapM_isSome.mp (Option.isSome_of_mem hSorted) d (hPerm.mem_iff.mpr hd)
  obtain ⟨ranges, hRanges⟩ := Option.isSome_iff_exists.mp hRanges
  obtain ⟨hInside, hBytes⟩ := slices_of_served hSize hRanges hFormed (h.served w hw)
  refine ⟨hInside, ?_⟩
  rw [Window.block, MemBlock.mk.injEq]
  refine ⟨rfl, rfl, read_congr fun a hLow hHigh => ?_⟩
  have hElsewhere : ∀ p ∈ (delta.blocks.map
      (blockLog keys (isV3 base) (groupDescs base.descs) delta)).flatten,
        p.1 + p.2.length ≤ a ∨ a < p.1 := by
    intro p hp
    obtain ⟨blockCopies, hBlock, hp⟩ := List.mem_flatten.mp hp
    obtain ⟨b, hb, rfl⟩ := List.mem_map.mp hBlock
    rw [blockLog] at hp
    split at hp
    · cases hp
    rename_i g hFind
    have hWhole := placePages_length _ _ _ _ _ p hp
    obtain ⟨i, hAt, hFilled⟩ := filled_of_mem hp
    rw [openCpu_length, openGpu_length] at hFilled
    by_contra hIn
    refine h.clean w hw b hb (by rw [hFind]; rfl) i hFilled ⟨by rw [pageVa]; omega, ?_⟩
    rw [pageVa_succ, pageVa]
    omega
  rw [replay_append, replay_outside hElsewhere,
    replay_sorted (fun _ _ => rangeLog_within keys base) h.order hRanges hSorted]
  exact hBytes a _ hLow hHigh

/-- The selective reader can be right for two deltas of a base image only if they have the same
bytes in the windows. -/
theorem SliceOfFull.same_delta {delta' : IncDelta} (h : SliceOfFull heap keys base delta windows)
    (h' : SliceOfFull heap keys base delta' windows) (hStarts : Starts heap base windows)
    {r r' : Restored} (hFull : restoreFromFilesEncrypted keys base delta = some r)
    (hFull' : restoreFromFilesEncrypted keys base delta' = some r') :
    ∀ w ∈ windows, read r.image w.va w.size = read r'.image w.va w.size := by
  have hBlocks := h.bytes r hFull
  have hBlocks' := h'.bytes r' hFull'
  have hRoom := List.all_eq_true.mpr hStarts.room
  rw [started hStarts, if_pos hRoom, Option.some.injEq] at hBlocks hBlocks'
  intro w hw
  have hSame := List.map_inj_left.mp (hBlocks.symm.trans hBlocks') w hw
  rw [MemBlock.mk.injEq] at hSame
  exact hSame.2.2

end Files

/-- Two pages: the first one under one transfer, the second one absent. -/
def sparseDesc : RangeDesc := ⟨0, 8192, 2, 88, 2, 0, 4096, 41⟩

def sparseBase : BaseFile where
  version := 3
  descs := [sparseDesc]
  data := fun a => if a = 88 then 1 else if a = 89 then 2 else if a = 4187 then 16 else 0
  size := 88 + 4139

/-- The second page has been written to since. -/
def dirtyDesc : RangeDesc := ⟨4096, 4096, 1, 104, 1, 0, 4096, 0⟩

def dirtyDelta : IncDelta :=
  ⟨incDeltaMagic, 2, [dirtyDesc], fun a => if a = 104 then 1 else 7, 104 + 4097⟩

theorem sparseBase_groups : groupDescs sparseBase.descs = [(0, 8192)] := by
  simp [groupDescs, sortDescs, sparseBase, sparseDesc, Intervals.merge, Intervals.extend]

theorem sparseBase_metas : (sectionMetas true sparseBase.data sparseDesc).1 =
    [⟨4096, List.replicate 12 0, 0, List.replicate 16 0, 0⟩] := by
  decide

theorem accepts_sparse : Accepts sessionKeys sparseBase dirtyDelta :=
  accepts_onePage rfl rfl rfl (by rw [sparseBase_groups]; decide) (by decide) (by decide) rfl rfl
    sparseBase_metas

def cleanWindow : Window := ⟨0, 4096, zero_lt_wordLimit, page_lt_wordLimit⟩

def dirtyWindow : Window := ⟨4096, 4096, page_lt_wordLimit, page_lt_wordLimit⟩

/-- The first byte of a page that is copied. -/
theorem replay_page (image : ByteImage.Image) (va : Nat) (b : Buffer) :
    replay image [(va, pageCells b)] va = (b.getD 0 ⟨.uninit, 0⟩).value := by
  have hPos : 0 < pageSize := by decide
  have hLength : (values (pageCells b)).length = pageSize := by
    rw [values, List.length_map, pageCells_length]
  rw [replay_cons]
  dsimp only [replay, List.foldl_nil]
  rw [write, Write.stop]
  dsimp only
  rw [if_pos (by omega), Nat.sub_self, List.getD_eq_getElem?_getD, values, pageCells, List.map_map,
    List.getElem?_map, List.getElem?_range hPos]
  rfl

theorem dirtyDelta_byte (image : ByteImage.Image) : replay image
    (blockLog sessionKeys true [(0, 8192)] dirtyDelta dirtyDesc) dirtyDesc.baseVa = 7 := by
  have hFind : findGroup [(0, 8192)] dirtyDesc = some (0, 8192) := by decide
  have hMap : readResmap dirtyDelta.data dirtyDesc = [Residency.gpu.code] := by decide
  have hGpu : openGpu sessionKeys true dirtyDelta.data dirtyDelta.size dirtyDesc =
      (true, readGpu true dirtyDelta.data dirtyDelta.size dirtyDesc) := by
    rw [openGpu, metas_nil (show dirtyDesc.cryptoMetaBytes = 0 from rfl)]
    exact if_neg fun hUsed => hUsed.2 rfl
  have hReach : pageSize ≤ (readGpu true dirtyDelta.data dirtyDelta.size dirtyDesc).length :=
    Nat.le_of_eq (readBytes_length _ _ _ _ _).symm
  rw [blockLog, hFind, hMap, hGpu]
  dsimp only
  rw [placePages_gpu true _ _ hReach, placePages, replay_page, readGpu, readBytes,
    List.getD_eq_getElem?_getD, List.getElem?_map, List.getElem?_range (by decide)]
  rfl

end FlashCkpt.Restore
