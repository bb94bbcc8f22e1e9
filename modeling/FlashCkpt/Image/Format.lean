import FlashCkpt.Library.ByteImage

/-! The checkpoint image: a header and a table of range descriptors, then for
each range its residency map, its CPU pages, its GPU pages and the metadata of
their encryption, at the offset the descriptor names. Header and table are
packed structures copied as they are, and are records here; the sections are
bytes of the file. -/
namespace FlashCkpt.Image

open ByteImage

/-- `sizeof(ckpt_v2_file_hdr_t)` and `sizeof(ckpt_v2_range_desc_t)`. -/
def fileHeaderSize : Nat := 24
def rangeDescSize : Nat := 64

/-- `ckpt_v2_range_desc_t`. -/
structure RangeDesc where
  baseVa : Nat
  length : Nat
  numPages : Nat
  dataOffset : Nat
  resmapSize : Nat
  cpuBytes : Nat
  gpuBytes : Nat
  cryptoMetaBytes : Nat
  deriving DecidableEq, Repr

def RangeDesc.gpuOffset (d : RangeDesc) : Nat := d.dataOffset + d.resmapSize + d.cpuBytes

def RangeDesc.metaOffset (d : RangeDesc) : Nat := d.gpuOffset + d.gpuBytes

def RangeDesc.stop (d : RangeDesc) : Nat := d.metaOffset + d.cryptoMetaBytes

/-- What is stored of one range. -/
structure Sections where
  baseVa : Nat
  length : Nat
  resmap : Bytes
  cpu : Bytes
  gpu : Bytes
  cryptoMeta : Bytes
  deriving DecidableEq, Repr

def Sections.descAt (r : Sections) (off : Nat) : RangeDesc where
  baseVa := r.baseVa
  length := r.length
  numPages := r.resmap.length
  dataOffset := off
  resmapSize := r.resmap.length
  cpuBytes := r.cpu.length
  gpuBytes := r.gpu.length
  cryptoMetaBytes := r.cryptoMeta.length

/-- The ranges one after the other from the offset on, each with its descriptor. -/
def placed : List Sections → Nat → List (Sections × RangeDesc)
  | [], _ => []
  | r :: rest, off => (r, r.descAt off) :: placed rest (r.descAt off).stop

/-- The offset of the first range. -/
def dataStart (n : Nat) : Nat := fileHeaderSize + n * rangeDescSize

/-- A base image as a reader maps it. -/
structure BaseFile where
  version : Nat
  descs : List RangeDesc
  data : ByteImage.Image
  size : Nat

/-- The sections of a range stand in a file where its descriptor has them. -/
structure StoredAt (data : ByteImage.Image) (size : Nat) (r : Sections) (d : RangeDesc) : Prop where
  desc : d = r.descAt d.dataOffset
  resmap : read data d.dataOffset r.resmap.length = r.resmap
  cpu : read data (d.dataOffset + d.resmapSize) r.cpu.length = r.cpu
  gpu : read data d.gpuOffset r.gpu.length = r.gpu
  cryptoMeta : read data d.metaOffset r.cryptoMeta.length = r.cryptoMeta
  inside : d.stop ≤ size

/-- The file stores these ranges. -/
structure BaseFile.Stores (f : BaseFile) (ranges : List Sections) : Prop where
  descs : f.descs = (placed ranges (dataStart ranges.length)).map Prod.snd
  stored : ∀ p ∈ placed ranges (dataStart ranges.length), StoredAt f.data f.size p.1 p.2

theorem placed_desc {ranges : List Sections} {off : Nat} {p : Sections × RangeDesc}
    (h : p ∈ placed ranges off) : p.1 ∈ ranges ∧ p.2 = p.1.descAt p.2.dataOffset := by
  induction ranges generalizing off with
  | nil => cases h
  | cons r rest ih =>
      rcases List.mem_cons.mp h with rfl | h
      · exact ⟨List.mem_cons_self, rfl⟩
      · exact ⟨List.mem_cons_of_mem r (ih h).1, (ih h).2⟩

theorem exists_placed {ranges : List Sections} {r : Sections} (h : r ∈ ranges) (off : Nat) :
    ∃ d, (r, d) ∈ placed ranges off := by
  induction ranges generalizing off with
  | nil => cases h
  | cons s rest ih =>
      rcases List.mem_cons.mp h with rfl | h
      · exact ⟨_, List.mem_cons_self⟩
      · obtain ⟨d, hd⟩ := ih h (s.descAt off).stop
        exact ⟨d, List.mem_cons_of_mem _ hd⟩

/-- The first descriptor whose range covers the interval: `restore_find_desc`. -/
def findDesc (descs : List RangeDesc) (va size : Nat) : Option RangeDesc :=
  descs.find? fun d => d.baseVa ≤ va && va + size ≤ d.baseVa + d.length

theorem findDesc_eq_some {descs : List RangeDesc} {va size : Nat} {d : RangeDesc}
    (h : findDesc descs va size = some d) :
    d ∈ descs ∧ d.baseVa ≤ va ∧ va + size ≤ d.baseVa + d.length := by
  have hCover := List.find?_some h
  simp only [Bool.and_eq_true, decide_eq_true_eq] at hCover
  exact ⟨List.mem_of_find?_eq_some h, hCover⟩

theorem findDesc_isSome {descs : List RangeDesc} {d : RangeDesc} (h : d ∈ descs) (va size : Nat)
    (hLow : d.baseVa ≤ va) (hHigh : va + size ≤ d.baseVa + d.length) :
    ∃ found, findDesc descs va size = some found := by
  rw [← Option.isSome_iff_exists, findDesc, List.find?_isSome]
  exact ⟨d, h, by simp [hLow, hHigh]⟩

end FlashCkpt.Image
