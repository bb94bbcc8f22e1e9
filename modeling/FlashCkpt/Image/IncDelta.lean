import FlashCkpt.Image.Captured

/-! The incremental delta of ckpt_core's modes: its own header, then the table
and the sections of the base image, one block for each captured region. -/
namespace FlashCkpt.Image

open ByteImage Crypto

def incDeltaMagic : Nat := 0xDE17A001
def incDeltaVersion : Nat := 1

/-- `sizeof(ckpt_inc_delta_hdr_t)`; a block is as long as a range descriptor. -/
def deltaHeaderSize : Nat := 40

def deltaStart (n : Nat) : Nat := deltaHeaderSize + n * rangeDescSize

/-- An incremental delta. `ckpt_inc_delta_block_t` has the fields of
`ckpt_v2_range_desc_t`. -/
structure IncDelta where
  magic : Nat
  version : Nat
  blocks : List RangeDesc
  data : ByteImage.Image
  size : Nat

/-- The end of the last section. -/
def imageSize : List Sections → Nat → Nat
  | [], off => off
  | r :: rest, off => imageSize rest (r.descAt off).stop

/-- The three writers: `write_delta_parallel`, the streaming pipeline with
`is_delta`, and `write_delta`. -/
inductive DeltaWriter where
  | fused
  | streaming
  | buffered
  deriving DecidableEq, Repr

/-- The file over which a writer writes, and its size: `write_delta` truncates
the file, the others let it grow. -/
def DeltaWriter.target (w : DeltaWriter) (regions : List Sections) (old : ByteImage.Image)
    (oldSize : Nat) : ByteImage.Image × Nat :=
  let start := deltaStart regions.length
  match w with
  | .fused => (old, max oldSize (imageSize regions start))
  | .streaming => (old, max oldSize (worstCaseSize start regions))
  | .buffered => (fun _ => 0, imageSize regions start)

/-- The delta of some captured regions. -/
def writeDelta (w : DeltaWriter) (regions : List Sections) (pool : Schedule)
    (old : ByteImage.Image) (oldSize : Nat) : IncDelta :=
  let table := placed regions (deltaStart regions.length)
  { magic := incDeltaMagic
    version := incDeltaVersion
    blocks := table.map Prod.snd
    data := writeAll (w.target regions old oldSize).1 (pool.order (table.flatMap sectionWrites))
    size := (w.target regions old oldSize).2 }

/-- The sections follow each other without a gap up to the end of the last one. -/
theorem placed_packed_imageSize (ranges : List Sections) (off : Nat) :
    Packed off ((placed ranges off).flatMap sectionWrites) (imageSize ranges off) := by
  induction ranges generalizing off with
  | nil => rfl
  | cons r rest ih => exact (sectionWrites_packed r off).append (ih (r.descAt off).stop)

theorem placed_stop_imageSize {ranges : List Sections} {off : Nat} {p : Sections × RangeDesc}
    (h : p ∈ placed ranges off) : p.2.stop ≤ imageSize ranges off := by
  have hGrows : ∀ (ranges : List Sections) off, off ≤ imageSize ranges off := by
    intro ranges
    induction ranges with
    | nil => exact fun off => Nat.le_refl off
    | cons r rest ih =>
        intro off
        have := ih (r.descAt off).stop
        have hOff : off ≤ (r.descAt off).stop := by
          simp only [Sections.descAt, RangeDesc.stop, RangeDesc.metaOffset, RangeDesc.gpuOffset]
          omega
        rw [imageSize]
        omega
  induction ranges generalizing off with
  | nil => cases h
  | cons r rest ih =>
      rw [imageSize]
      rcases List.mem_cons.mp h with rfl | h
      · exact hGrows rest _
      · exact ih h

/-- The delta of these regions has this byte: its page lies in one of them and is
not absent there. -/
def Covers (regions : List RangeLayout) (a : Nat) : Prop :=
  ∃ l ∈ regions, l.base ≤ a ∧ a < l.base + l.length ∧
    l.residency[(a - l.base) / pageSize]? ≠ some .absent

end FlashCkpt.Image
