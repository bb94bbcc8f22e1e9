import FlashCkpt.Core.ParallelWriters
import FlashCkpt.Image.DenseSlicer

/-! The coalesced base image of ckpt_core, from what ioctl 115 hands over for the span to the
file. The slicer comes first: nothing of the file is touched before every allocation is cut
out of the buffers. -/
namespace FlashCkpt.Core

open ByteImage SizeCut Crypto Image

/-- The results of the calls between the slicer and the writers: the buffer of ones, `open`
with `fstat`, `ftruncate` and `mmap`. -/
structure OutputCalls where
  scratch : Bool
  opened : Bool
  grown : Bool
  mapped : Bool

/-- How the writing of the image ends. -/
structure CoalescedEnd where
  ok : Bool
  imageSize : Nat
  file : ImageFile

/-- `capture_and_write_coalesced` behind the ioctl, for the sorted allocations of a span,
with the run of the writers on the table they are given. -/
def writeCoalesced (base : Nat) (r : SpanRead) (ranges : List SpanRange) (calls : OutputCalls)
    {threads : Option Int} (old : ImageFile)
    (writers : ∀ table, WritersRun threads table old.data) : CoalescedEnd :=
  match coalescedRanges base r ranges with
  | none => ⟨false, 0, old⟩
  | some written =>
      let table := placed written (dataStart ranges.length)
      let stop := imageSize written (dataStart ranges.length)
      if calls.scratch && calls.opened && (calls.grown || stop ≤ old.size) then
        if calls.mapped then
          ⟨true, stop, StreamFormat.base.magic, StreamFormat.base.version, table.map Prod.snd,
            (writers table).last.data, max old.size stop⟩
        else ⟨false, stop, { old with size := max old.size stop }⟩
      else ⟨false, stop, old⟩

/-- The GPU buffer has the pages on the GPU in the order of their addresses, and the sizes
of the entries add up to it. -/
structure Filled (r : SpanRead) (cipher : Nat → Bytes) : Prop where
  page_length : ∀ p, (cipher p).length = pageSize
  gpu : r.gpuBuf = (pagesOn r.resmap .gpu).flatMap cipher
  metas : total CryptoMeta.size r.metas = r.gpuBuf.length

/-- What an image has for an allocation: its pages one after the other, and the entries of
the transfers that cover them. -/
structure CarriesRange (base : Nat) (r : SpanRead) (cipher : Nat → Bytes)
    (data : ByteImage.Image) (a : SpanRange) (d : RangeDesc) : Prop where
  baseVa : d.baseVa = base + a.first * pageSize
  length : d.length = a.count * pageSize
  numPages : d.numPages = a.count
  resmap : read data d.dataOffset d.resmapSize = List.replicate a.count 1
  cpuBytes : d.cpuBytes = 0
  gpu : read data d.gpuOffset d.gpuBytes = (List.range' a.first a.count).flatMap cipher
  cryptoMeta : ∃ front mine back, r.metas = front ++ (mine ++ back) ∧
    total CryptoMeta.size front = r.gpuBefore a.first ∧
    total CryptoMeta.size mine = a.count * pageSize ∧
    read data d.metaOffset d.cryptoMetaBytes = mine.flatMap CryptoMeta.encode

/-- A page of the allocation is not on the GPU. -/
def NotResident (r : SpanRead) (a : SpanRange) : Prop :=
  ∃ p, a.first ≤ p ∧ p < a.first + a.count ∧ r.resmap[p]? ≠ some .gpu

/-- A transfer crosses an edge of the allocation. -/
def CrossesEdge (r : SpanRead) (a : SpanRange) : Prop :=
  ∃ front entry back, r.metas = front ++ entry :: back ∧
    ∃ edge ∈ [r.gpuBefore a.first, r.gpuBefore a.first + a.count * pageSize],
      total CryptoMeta.size front < edge ∧ edge < total CryptoMeta.size front + entry.size

theorem placed_start {ranges : List Sections} {off : Nat} {p : Sections × RangeDesc}
    (h : p ∈ placed ranges off) : off ≤ p.2.dataOffset := by
  induction ranges generalizing off with
  | nil => cases h
  | cons r rest ih =>
      have hNext : off ≤ (r.descAt off).stop := by
        simp only [Sections.descAt, RangeDesc.stop, RangeDesc.metaOffset, RangeDesc.gpuOffset]
        omega
      rcases List.mem_cons.mp h with rfl | h
      · exact Nat.le_refl off
      · exact Nat.le_trans hNext (ih h)

/-- The descriptors stand one behind the other. -/
theorem placed_pairwise (ranges : List Sections) (off : Nat) :
    (placed ranges off).Pairwise fun p q => p.2.stop ≤ q.2.dataOffset := by
  induction ranges generalizing off with
  | nil => exact List.Pairwise.nil
  | cons r rest ih => exact .cons (fun p hp => placed_start hp) (ih _)

theorem placed_getElem? {ranges : List Sections} {i : Nat} {s : Sections} (off : Nat)
    (h : ranges[i]? = some s) : ∃ d, (placed ranges off)[i]? = some (s, d) := by
  have hFst := congrArg (fun l : List Sections => l[i]?) (placed_fst ranges off)
  rw [List.getElem?_map, h] at hFst
  obtain ⟨⟨s', d⟩, hEntry, rfl⟩ := Option.map_eq_some_iff.mp hFst
  exact ⟨d, hEntry⟩

theorem range_split {first count n : Nat} (h : first + count ≤ n) :
    List.range n = List.range first ++
      (List.range' first count ++ List.range' (first + count) (n - (first + count))) := by
  obtain ⟨rest, rfl⟩ := Nat.exists_eq_add_of_le h
  have hAll : List.range' 0 first ++ List.range' (0 + first) (count + rest) =
      List.range' 0 (first + (count + rest)) := List.range'_append_1
  rw [Nat.add_sub_cancel_left, List.range'_append_1, List.range_eq_range', List.range_eq_range',
    Nat.add_assoc, ← hAll, Nat.zero_add]

/-- The pages on the GPU, around those of an allocation that is wholly there. -/
theorem pagesOn_split {residency : List Residency} {first count : Nat} (hCount : 0 < count)
    (h : ∀ p, first ≤ p → p < first + count → residency[p]? = some .gpu) :
    ∃ behind, pagesOn residency .gpu =
      pagesOn (residency.take first) .gpu ++ (List.range' first count ++ behind) := by
  have hInside : first + count ≤ residency.length := by
    have hLast := (List.getElem?_eq_some_iff.mp (h (first + count - 1) (by omega) (by omega))).1
    omega
  have hFront : (List.range first).filter (fun p => residency[p]? = some .gpu) =
      pagesOn (residency.take first) .gpu := by
    rw [pagesOn, List.length_take, Nat.min_eq_left (by omega)]
    apply List.filter_congr
    intro p hp
    rw [List.getElem?_take_of_lt (List.mem_range.mp hp)]
  have hMine : (List.range' first count).filter (fun p => residency[p]? = some .gpu) =
      List.range' first count := by
    apply List.filter_eq_self.mpr
    intro p hp
    obtain ⟨hLow, hHigh⟩ := List.mem_range'_1.mp hp
    exact decide_eq_true (h p hLow hHigh)
  refine ⟨(List.range' (first + count) (residency.length - (first + count))).filter
    (fun p => residency[p]? = some .gpu), ?_⟩
  rw [pagesOn, range_split hInside, List.filter_append, List.filter_append, hFront, hMine]

section Slices

variable {base : Nat} {r : SpanRead} {cipher : Nat → Bytes} {a : SpanRange} {s : Sections}

/-- The bytes cut out for an allocation are its pages. -/
theorem cutOut_gpu (hFilled : Filled r cipher) (hCut : CutOut base r a s)
    (hResident : ∀ p, a.first ≤ p → p < a.first + a.count → r.resmap[p]? = some .gpu) :
    s.gpu = (List.range' a.first a.count).flatMap cipher := by
  have hLength : ∀ pages : List Nat, (pages.flatMap cipher).length = pages.length * pageSize :=
    fun pages => flatMap_length_const fun p _ => hFilled.page_length p
  rw [hCut.gpu, hFilled.gpu]
  rcases Nat.eq_zero_or_pos a.count with hZero | hPos
  · simp [hZero]
  · obtain ⟨behind, hPages⟩ := pagesOn_split hPos hResident
    have hFront : ((pagesOn (r.resmap.take a.first) .gpu).flatMap cipher).length =
        r.gpuBefore a.first := by
      rw [hLength, pagesOn_length, SpanRead.gpuBefore]
    have hMine : ((List.range' a.first a.count).flatMap cipher).length = a.count * pageSize := by
      rw [hLength, List.length_range']
    rw [hPages, List.flatMap_append, List.flatMap_append, List.drop_left' hFront,
      List.take_left' hMine]

/-- The sections of an allocation, once they are stored, carry it. -/
theorem carries_of_stored {data : ByteImage.Image} {size : Nat} {d : RangeDesc}
    (hFilled : Filled r cipher) (hCuttable : a.Cuttable r) (hCut : CutOut base r a s)
    (hStored : StoredAt data size s d) : CarriesRange base r cipher data a d := by
  have hDesc := hStored.desc
  obtain ⟨front, mine, back, hMetas, hFront, hMine, hEntries⟩ := hCut.cryptoMeta
  refine ⟨?_, ?_, ?_, ?_, ?_, ?_, front, mine, back, hMetas, hFront, hMine, ?_⟩
  · rw [hDesc]
    exact hCut.baseVa
  · rw [hDesc]
    exact hCut.length
  · rw [hDesc, Sections.descAt, hCut.resmap, List.length_replicate]
  · rw [show d.resmapSize = s.resmap.length by rw [hDesc]; rfl, hStored.resmap, hCut.resmap]
  · rw [hDesc, Sections.descAt, hCut.cpu, List.length_nil]
  · rw [show d.gpuBytes = s.gpu.length by rw [hDesc]; rfl, hStored.gpu,
      cutOut_gpu hFilled hCut hCuttable.resident]
  · rw [show d.cryptoMetaBytes = s.cryptoMeta.length by rw [hDesc]; rfl, hStored.cryptoMeta,
      hEntries]

/-- Where an entry reaches over an edge, the edge is no boundary. -/
theorem not_boundary {front back : List CryptoMeta} {entry : CryptoMeta} {edge : Nat}
    (hLow : total CryptoMeta.size front < edge)
    (hHigh : edge < total CryptoMeta.size front + entry.size) :
    ¬Boundary CryptoMeta.size (front ++ entry :: back) edge := by
  obtain ⟨off, rfl⟩ := Nat.exists_eq_add_of_lt hLow
  rw [Nat.add_assoc, boundary_drop]
  rintro ⟨before, after, hSplit, hTotal⟩
  cases before with
  | nil => cases hTotal
  | cons first others =>
      rw [List.cons_append, List.cons.injEq] at hSplit
      rw [total_cons, ← hSplit.1] at hTotal
      omega

theorem not_cuttable (h : NotResident r a ∨ CrossesEdge r a) : ¬a.Cuttable r := by
  intro hCuttable
  rcases h with ⟨p, hLow, hHigh, hNot⟩ | ⟨front, entry, back, hMetas, edge, hEdge, hLow, hHigh⟩
  · exact hNot (hCuttable.resident p hLow hHigh)
  · have hBoundary : Boundary CryptoMeta.size r.metas edge := by
      rcases List.mem_pair.mp hEdge with rfl | rfl
      · exact hCuttable.starts
      · exact hCuttable.stops
    rw [hMetas] at hBoundary
    exact not_boundary hLow hHigh hBoundary

end Slices

section Ends

variable {base : Nat} {r : SpanRead} {ranges : List SpanRange} {calls : OutputCalls}
variable {threads : Option Int} {old : ImageFile}
variable {writers : ∀ table, WritersRun threads table old.data}

/-- The file behind a run that succeeds. -/
theorem writeCoalesced_ok (h : (writeCoalesced base r ranges calls old writers).ok = true) :
    ∃ written, coalescedRanges base r ranges = some written ∧
      writeCoalesced base r ranges calls old writers =
        ⟨true, imageSize written (dataStart ranges.length), StreamFormat.base.magic,
          StreamFormat.base.version, (placed written (dataStart ranges.length)).map Prod.snd,
          (writers (placed written (dataStart ranges.length))).last.data,
          max old.size (imageSize written (dataStart ranges.length))⟩ := by
  rw [writeCoalesced] at h ⊢
  cases hWritten : coalescedRanges base r ranges with
  | none =>
      rw [hWritten] at h
      cases h
  | some written =>
      rw [hWritten] at h
      refine ⟨written, rfl, ?_⟩
      dsimp only at h ⊢
      split at h
      · rename_i hCalls
        split at h
        · rename_i hMapped
          rw [if_pos hCalls, if_pos hMapped]
        · cases h
      · cases h

end Ends

/-- Two pages on the GPU beside an absent one, each with its transfer. -/
def pageEntry : CryptoMeta := ⟨pageSize, [], 0, [], 0⟩

def pageOfByte (p : Nat) : Bytes := List.replicate pageSize p.toUInt8

def twoPages : SpanRead where
  resmap := [.gpu, .absent, .gpu]
  cpuBuf := []
  gpuBuf := (pagesOn [.gpu, .absent, .gpu] .gpu).flatMap pageOfByte
  metas := [pageEntry, pageEntry]

def emptyFile : ImageFile := ⟨0, 0, [], fun _ => 0, 0⟩

theorem twoPages_filled : Filled twoPages pageOfByte where
  page_length := fun p => List.length_replicate
  gpu := rfl
  metas := by
    have hLength : ((pagesOn [Residency.gpu, .absent, .gpu] .gpu).flatMap pageOfByte).length =
        2 * pageSize := flatMap_length_const fun p _ => List.length_replicate
    exact hLength.symm

theorem twoPages_cuttable : ∀ a ∈ [(⟨0, 1⟩ : SpanRange), ⟨2, 1⟩], a.Cuttable twoPages := by
  intro a ha
  rcases List.mem_pair.mp ha with rfl | rfl
  · refine ⟨fun p hLow hHigh => ?_, ⟨[], _, rfl, rfl⟩, ⟨[pageEntry], _, rfl, rfl⟩⟩
    cases Nat.le_antisymm hLow (Nat.le_of_lt_succ hHigh)
    rfl
  · refine ⟨fun p hLow hHigh => ?_, ⟨[pageEntry], _, rfl, rfl⟩,
      ⟨[pageEntry, pageEntry], [], rfl, rfl⟩⟩
    cases Nat.le_antisymm hLow (Nat.le_of_lt_succ hHigh)
    rfl

end FlashCkpt.Core
