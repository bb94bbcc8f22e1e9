import FlashCkpt.Image.Format
import FlashCkpt.Crypto.Channel

/-! Captured ranges and the images of ckpt_core's pipeline. A capture packs the
pages of a range by where they lie: the CPU pages in one section, the GPU pages
in another, the latter as ciphertext of a number of transfers. -/
namespace FlashCkpt.Image

open ByteImage Crypto

def pageSize : Nat := 4096

theorem zero_lt_wordLimit : 0 < 2 ^ 64 := by decide

theorem page_lt_wordLimit : 4096 < 2 ^ 64 := by decide

/-- The value of a page in the residency map. -/
inductive Residency where
  | cpu
  | gpu
  | absent
  deriving DecidableEq, Repr

def Residency.code : Residency → UInt8
  | .cpu => 0
  | .gpu => 1
  | .absent => 2

/-- The pages of a residency map that lie somewhere, in order. -/
def pagesOn (residency : List Residency) (place : Residency) : List Nat :=
  (List.range residency.length).filter fun p => residency[p]? = some place

/-- One page goes in one transfer. -/
theorem oneTransfer_pages : ∀ t ∈ [1], 0 < t ∧ t ≤ 512 := by decide

theorem oneTransfer_sum : [1].sum = 1 := rfl

/-- Without a page on the GPU there is no transfer. -/
theorem noTransfer_pages : ∀ t ∈ ([] : List Nat), 0 < t ∧ t ≤ 512 := List.forall_mem_nil _

theorem noTransfer_sum : ([] : List Nat).sum = 0 := rfl

/-- A captured range without its content: where every page lies, and the number
of pages of each transfer, which goes through a 2 MB buffer. -/
structure RangeLayout where
  base : Nat
  residency : List Residency
  transfers : List Nat
  transfer_pages : ∀ t ∈ transfers, 0 < t ∧ t ≤ 512
  transfer_sum : transfers.sum = (pagesOn residency .gpu).length

def RangeLayout.length (l : RangeLayout) : Nat := l.residency.length * pageSize

/-- The content of some pages of a range, one after the other. -/
def packed (memory : ByteImage.Image) (base : Nat) (pages : List Nat) : Bytes :=
  pages.flatMap fun p => read memory (base + p * pageSize) pageSize

/-- A plaintext cut into transfers, each with its number in the session. -/
def cutPieces : Nat → List Nat → Bytes → List (Nat × Bytes)
  | _, [], _ => []
  | n, t :: rest, plain =>
      (n, plain.take (t * pageSize)) :: cutPieces (n + 1) rest (plain.drop (t * pageSize))

def RangeLayout.pieces (l : RangeLayout) (memory : ByteImage.Image) (n : Nat) :
    List (Nat × Bytes) :=
  cutPieces n l.transfers (packed memory l.base (pagesOn l.residency .gpu))

/-- The sections of a range captured by ioctl 115. -/
def RangeLayout.sections (channel : Channel) (memory : ByteImage.Image) (n : Nat)
    (l : RangeLayout) : Sections where
  baseVa := l.base
  length := l.length
  resmap := l.residency.map Residency.code
  cpu := packed memory l.base (pagesOn l.residency .cpu)
  gpu := (l.pieces memory n).flatMap fun p => (channel.encrypt p.1 p.2).2
  cryptoMeta := (l.pieces memory n).flatMap fun p => (channel.encrypt p.1 p.2).1.encode

/-- All ranges, captured one after the other. -/
def capture (channel : Channel) (memory : ByteImage.Image) : Nat → List RangeLayout →
    List Sections
  | _, [] => []
  | n, l :: rest =>
      l.sections channel memory n :: capture channel memory (n + l.transfers.length) rest

/-- What a writer copies for one range. -/
def sectionWrites (p : Sections × RangeDesc) : List Write :=
  [⟨p.2.dataOffset, p.1.resmap⟩, ⟨p.2.dataOffset + p.2.resmapSize, p.1.cpu⟩,
    ⟨p.2.gpuOffset, p.1.gpu⟩, ⟨p.2.metaOffset, p.1.cryptoMeta⟩]

/-- `baseline_worst_case_size` with a header of this size. -/
def worstCaseSize (header : Nat) (ranges : List Sections) : Nat :=
  header + (ranges.map fun r =>
    r.resmap.length + r.resmap.length * pageSize + r.resmap.length * cryptoMetaSize).sum

/-- The base image of the streaming pipeline, over an earlier file. -/
def streamBaseline (version : Nat) (ranges : List Sections) (pool : Schedule)
    (old : ByteImage.Image) (oldSize : Nat) : BaseFile :=
  let table := placed ranges (dataStart ranges.length)
  { version := version
    descs := table.map Prod.snd
    data := writeAll old (pool.order (table.flatMap sectionWrites))
    size := max oldSize (worstCaseSize (dataStart ranges.length) ranges) }

theorem sectionWrites_packed (r : Sections) (off : Nat) :
    Packed off (sectionWrites (r, r.descAt off)) (r.descAt off).stop := by
  simp only [sectionWrites, Packed, Write.stop, Sections.descAt, RangeDesc.gpuOffset,
    RangeDesc.metaOffset, RangeDesc.stop, and_self]

theorem placed_packed (ranges : List Sections) (off : Nat) :
    ∃ stop, Packed off ((placed ranges off).flatMap sectionWrites) stop := by
  induction ranges generalizing off with
  | nil => exact ⟨off, rfl⟩
  | cons r rest ih =>
      obtain ⟨stop, hRest⟩ := ih (r.descAt off).stop
      exact ⟨stop, (sectionWrites_packed r off).append hRest⟩

/-- A range fits in the space reserved for it. -/
def Sections.Fits (r : Sections) : Prop :=
  r.cpu.length + r.gpu.length ≤ r.resmap.length * pageSize ∧
    r.cryptoMeta.length ≤ r.resmap.length * cryptoMetaSize

theorem placed_stop {ranges : List Sections} (hFits : ∀ r ∈ ranges, r.Fits) {off : Nat}
    {p : Sections × RangeDesc} (h : p ∈ placed ranges off) :
    p.2.stop ≤ worstCaseSize off ranges := by
  induction ranges generalizing off with
  | nil => cases h
  | cons r rest ih =>
      have hHead := hFits r List.mem_cons_self
      have hStop : (r.descAt off).stop ≤ off + (r.resmap.length + r.resmap.length * pageSize +
          r.resmap.length * cryptoMetaSize) := by
        simp only [Sections.descAt, RangeDesc.stop, RangeDesc.metaOffset, RangeDesc.gpuOffset]
        have := hHead.1
        have := hHead.2
        omega
      rcases List.mem_cons.mp h with rfl | h
      · simp only [worstCaseSize, List.map_cons, List.sum_cons]
        omega
      · have hRest := ih (fun r' hr' => hFits r' (List.mem_cons_of_mem r hr')) h
        simp only [worstCaseSize, List.map_cons, List.sum_cons] at hRest ⊢
        omega

/-- Writers that copy the sections in any order store them. -/
theorem storedAt_writeAll {ranges : List Sections} {off size : Nat} (pool : Schedule)
    (old : ByteImage.Image) (hInside : ∀ p ∈ placed ranges off, p.2.stop ≤ size)
    {p : Sections × RangeDesc} (hp : p ∈ placed ranges off) :
    StoredAt (writeAll old (pool.order ((placed ranges off).flatMap sectionWrites))) size p.1
      p.2 := by
  obtain ⟨stop, hPacked⟩ := placed_packed ranges off
  have hBack : ∀ w ∈ sectionWrites p,
      read (writeAll old (pool.order ((placed ranges off).flatMap sectionWrites))) w.off
        w.bytes.length = w.bytes := fun w hw =>
    hPacked.read_writeAll (pool.perm _) old (List.mem_flatMap.mpr ⟨p, hp, hw⟩)
  simp only [sectionWrites, List.mem_cons, List.not_mem_nil, or_false, forall_eq_or_imp,
    forall_eq] at hBack
  obtain ⟨hResmap, hCpu, hGpu, hMeta⟩ := hBack
  exact ⟨(placed_desc hp).2, hResmap, hCpu, hGpu, hMeta, hInside p hp⟩

/-- The image stores the captured ranges. -/
theorem streamBaseline_stores (version : Nat) {ranges : List Sections}
    (hFits : ∀ r ∈ ranges, r.Fits) (pool : Schedule) (old : ByteImage.Image) (oldSize : Nat) :
    (streamBaseline version ranges pool old oldSize).Stores ranges where
  descs := rfl
  stored := fun _ hp => storedAt_writeAll pool old
    (fun _ hq => Nat.le_trans (placed_stop hFits hq) (Nat.le_max_right _ _)) hp

theorem packed_length (memory : ByteImage.Image) (base : Nat) (pages : List Nat) :
    (packed memory base pages).length = pages.length * pageSize := by
  induction pages with
  | nil => simp [packed]
  | cons p rest ih =>
      rw [packed, List.flatMap_cons, List.length_append, read_length, ← packed, ih,
        List.length_cons, Nat.succ_mul, Nat.add_comm]

theorem cutPieces_map_length (n : Nat) {transfers : List Nat} {plain : Bytes}
    (h : transfers.sum * pageSize ≤ plain.length) :
    (cutPieces n transfers plain).map (fun p => p.2.length) = transfers.map (· * pageSize) := by
  induction transfers generalizing n plain with
  | nil => rfl
  | cons t rest ih =>
      rw [List.sum_cons, Nat.add_mul] at h
      rw [cutPieces, List.map_cons, List.map_cons, ih, List.length_take, Nat.min_eq_left (by omega)]
      rw [List.length_drop]
      omega

/-- The transfers together carry the front of the plaintext. -/
theorem cutPieces_flatten (n : Nat) (transfers : List Nat) (plain : Bytes) :
    (cutPieces n transfers plain).flatMap Prod.snd = plain.take (transfers.sum * pageSize) := by
  induction transfers generalizing n plain with
  | nil => simp [cutPieces]
  | cons t rest ih =>
      rw [cutPieces, List.flatMap_cons, ih, List.sum_cons, Nat.add_mul, List.take_add]

variable (channel : Channel) (memory : ByteImage.Image)

theorem RangeLayout.pieces_map_length (l : RangeLayout) (n : Nat) :
    (l.pieces memory n).map (fun p => p.2.length) = l.transfers.map (· * pageSize) := by
  apply cutPieces_map_length
  exact Nat.le_of_eq (by rw [packed_length, l.transfer_sum])

theorem RangeLayout.pieces_flatten (l : RangeLayout) (n : Nat) :
    (l.pieces memory n).flatMap Prod.snd = packed memory l.base (pagesOn l.residency .gpu) := by
  rw [RangeLayout.pieces, cutPieces_flatten, l.transfer_sum, ← packed_length memory l.base,
    List.take_length]

/-- A piece goes through one DMA buffer. -/
theorem RangeLayout.piece_size {l : RangeLayout} {n : Nat} {p : Nat × Bytes}
    (h : p ∈ l.pieces memory n) : 0 < p.2.length ∧ p.2.length ≤ dmaBufferSize := by
  have hMem := List.mem_map_of_mem (f := fun p : Nat × Bytes => p.2.length) h
  rw [l.pieces_map_length] at hMem
  obtain ⟨t, ht, hEq⟩ := List.mem_map.mp hMem
  have := l.transfer_pages t ht
  simp only [pageSize, dmaBufferSize] at hEq ⊢
  omega

theorem flatMap_length_eq {α : Type} (f g : α → Bytes) {l : List α}
    (h : ∀ a ∈ l, (f a).length = (g a).length) : (l.flatMap f).length = (l.flatMap g).length := by
  induction l with
  | nil => rfl
  | cons a rest ih =>
      rw [List.flatMap_cons, List.flatMap_cons, List.length_append, List.length_append,
        h a List.mem_cons_self, ih fun b hb => h b (List.mem_cons_of_mem a hb)]

theorem RangeLayout.gpu_length (l : RangeLayout) (n : Nat) :
    (l.sections channel memory n).gpu.length = (pagesOn l.residency .gpu).length * pageSize := by
  rw [← packed_length memory l.base, ← l.pieces_flatten memory n]
  exact flatMap_length_eq _ _ fun p _ => channel.cipher_length p.1 p.2

theorem flatMap_length_const {α : Type} {f : α → Bytes} {size : Nat} {l : List α}
    (h : ∀ a ∈ l, (f a).length = size) : (l.flatMap f).length = l.length * size := by
  induction l with
  | nil => simp
  | cons a rest ih =>
      rw [List.flatMap_cons, List.length_append, h a List.mem_cons_self,
        ih fun b hb => h b (List.mem_cons_of_mem a hb), List.length_cons, Nat.succ_mul,
        Nat.add_comm]

theorem RangeLayout.meta_length (l : RangeLayout) (n : Nat) :
    (l.sections channel memory n).cryptoMeta.length = l.transfers.length * cryptoMetaSize := by
  have hCount : (l.pieces memory n).length = l.transfers.length := by
    have := congrArg List.length (l.pieces_map_length memory n)
    simpa using this
  rw [← hCount]
  apply flatMap_length_const
  intro p hp
  apply CryptoMeta.encode_length
  apply channel.wellFormed
  have := (RangeLayout.piece_size memory hp).2
  simp only [dmaBufferSize] at this
  omega

theorem length_le_sum {l : List Nat} (h : ∀ t ∈ l, 0 < t) : l.length ≤ l.sum := by
  induction l with
  | nil => simp
  | cons t rest ih =>
      have hRest := ih fun t' ht' => h t' (List.mem_cons_of_mem t ht')
      have := h t List.mem_cons_self
      rw [List.length_cons, List.sum_cons]
      omega

theorem pagesOn_length_add (residency : List Residency) :
    (pagesOn residency .cpu).length + (pagesOn residency .gpu).length ≤ residency.length := by
  have hDisjoint : ∀ p : Nat, residency[p]? = some Residency.gpu →
      ¬ residency[p]? = some Residency.cpu := by
    intro p hGpu hCpu
    rw [hGpu] at hCpu
    cases hCpu
  have hFilter := List.length_eq_length_filter_add (l := List.range residency.length)
    fun p => decide (residency[p]? = some Residency.cpu)
  have hGpu : (pagesOn residency .gpu).length ≤ ((List.range residency.length).filter
      fun p => !decide (residency[p]? = some Residency.cpu)).length := by
    apply List.Sublist.length_le
    apply List.monotone_filter_right
    intro p hp
    simpa using hDisjoint p (by simpa using hp)
  rw [List.length_range] at hFilter
  simp only [pagesOn] at hGpu ⊢
  omega

theorem RangeLayout.sections_fits (l : RangeLayout) (n : Nat) :
    (l.sections channel memory n).Fits := by
  have hPages := pagesOn_length_add l.residency
  have hTransfers := length_le_sum fun t ht => (l.transfer_pages t ht).1
  rw [l.transfer_sum] at hTransfers
  refine ⟨?_, ?_⟩
  · rw [l.gpu_length]
    simp only [RangeLayout.sections, packed_length, List.length_map]
    rw [← Nat.add_mul]
    exact Nat.mul_le_mul_right _ hPages
  · rw [l.meta_length]
    simp only [RangeLayout.sections, List.length_map]
    exact Nat.mul_le_mul_right _ (by omega)

theorem capture_fits (n : Nat) (layouts : List RangeLayout) :
    ∀ r ∈ capture channel memory n layouts, r.Fits := by
  induction layouts generalizing n with
  | nil => intro r hr; cases hr
  | cons l rest ih =>
      intro r hr
      rcases List.mem_cons.mp hr with rfl | hr
      · exact l.sections_fits channel memory n
      · exact ih _ r hr

/-- Every page that starts before the offset lies on the GPU. -/
def GpuUpTo (l : RangeLayout) (stop : Nat) : Prop :=
  ∀ p, p * pageSize < stop → l.residency[p]? = some .gpu

theorem packed_getElem? (base : Nat) (pages : List Nat) (j : Nat) :
    (packed memory base pages)[j]? = (pages[j / pageSize]?).map fun p =>
      memory (base + p * pageSize + j % pageSize) := by
  induction pages generalizing j with
  | nil => simp [packed]
  | cons p rest ih =>
      rw [packed, List.flatMap_cons, ← packed]
      by_cases hFirst : j < pageSize
      · rw [List.getElem?_append_left (by rw [read_length]; exact hFirst),
          Nat.div_eq_of_lt hFirst, Nat.mod_eq_of_lt hFirst, List.getElem?_cons_zero]
        simp [ByteImage.read, hFirst]
      · have hDiv : j / pageSize = (j - pageSize) / pageSize + 1 := by
          rw [Nat.div_eq_sub_div (by decide) (by omega)]
        have hMod : j % pageSize = (j - pageSize) % pageSize := Nat.mod_eq_sub_mod (by omega)
        rw [List.getElem?_append_right (by rw [read_length]; omega), read_length, ih, hDiv,
          List.getElem?_cons_succ, hMod]

/-- A block of equally long blocks. -/
theorem flatMap_block {α : Type} {f : α → Bytes} {size : Nat} {l : List α}
    (hSize : ∀ a ∈ l, (f a).length = size) {k : Nat} {a : α} (h : l[k]? = some a) (rest : Bytes) :
    ((l.flatMap f ++ rest).drop (k * size)).take size = f a := by
  induction l generalizing k with
  | nil => cases h
  | cons b more ih =>
      have hHead := hSize b List.mem_cons_self
      rw [List.flatMap_cons, List.append_assoc]
      cases k with
      | zero =>
          rw [List.getElem?_cons_zero, Option.some.injEq] at h
          rw [Nat.zero_mul, List.drop_zero, List.take_left' hHead, h]
      | succ k =>
          rw [List.getElem?_cons_succ] at h
          rw [Nat.succ_mul, Nat.add_comm, ← List.drop_drop, List.drop_left' hHead,
            ih (fun c hc => hSize c (List.mem_cons_of_mem b hc)) h]

theorem packed_page (base : Nat) {pages : List Nat} {k p : Nat}
    (h : pages[k]? = some p) :
    ((packed memory base pages).drop (k * pageSize)).take pageSize =
      read memory (base + p * pageSize) pageSize := by
  have hBlock := flatMap_block (f := fun p => read memory (base + p * pageSize) pageSize)
    (fun _ _ => read_length _ _ _) h []
  rwa [List.append_nil] at hBlock

/-- A range that is on the GPU up to an offset is packed up to there as it is. -/
theorem packed_take {l : RangeLayout} {stop : Nat} (h : GpuUpTo l stop) :
    (packed memory l.base (pagesOn l.residency .gpu)).take stop = read memory l.base stop := by
  obtain ⟨count, hCount, hAll⟩ : ∃ count, stop ≤ count * pageSize ∧
      ∀ p < count, l.residency[p]? = some Residency.gpu := by
    refine ⟨(stop + (pageSize - 1)) / pageSize, ?_, fun p hp => h p ?_⟩
    · simp only [pageSize]
      omega
    · simp only [pageSize] at hp ⊢
      omega
  have hLength : count ≤ l.residency.length := by
    rcases Nat.eq_zero_or_pos count with hZero | hPos
    · omega
    · have := hAll (count - 1) (by omega)
      have := (List.getElem?_eq_some_iff.mp this).1
      omega
  obtain ⟨rest, hPages⟩ : ∃ rest, pagesOn l.residency .gpu = List.range count ++ rest := by
    refine ⟨((List.range (l.residency.length - count)).map (count + ·)).filter
      fun p => l.residency[p]? = some Residency.gpu, ?_⟩
    rw [pagesOn, show l.residency.length = count + (l.residency.length - count) by omega,
      List.range_add, List.filter_append, List.filter_eq_self.mpr, Nat.add_sub_cancel_left]
    intro p hp
    simpa using hAll p (List.mem_range.mp hp)
  have hFlat : packed memory l.base (List.range count) = read memory l.base (count * pageSize) := by
    rw [← read_chunks, packed, List.flatMap_def]
  rw [hPages, packed, List.flatMap_append, ← packed, hFlat,
    List.take_append_of_le_length (by rw [read_length]; exact hCount)]
  simpa using read_slice memory (by omega : 0 + stop ≤ count * pageSize)

/-- The pages of a range stand in order, so that a page at its own index has all
earlier pages before it. -/
theorem pagesOn_fixed {residency : List Residency} {k : Nat}
    (h : (pagesOn residency .gpu)[k]? = some k) :
    ∀ p ≤ k, residency[p]? = some Residency.gpu := by
  have hSorted : (pagesOn residency .gpu).Pairwise (· < ·) :=
    (List.pairwise_lt_range).filter _
  obtain ⟨hLt, hValue⟩ := List.getElem?_eq_some_iff.mp h
  have hBelow : ∀ p ∈ (pagesOn residency .gpu).take k, p < k := by
    intro p hp
    obtain ⟨i, hi, rfl⟩ := List.mem_take_iff_getElem.mp hp
    have hStep := List.pairwise_iff_getElem.mp hSorted i k (by omega) hLt (by omega)
    omega
  have hNodup : ((pagesOn residency .gpu).take k).Nodup :=
    (hSorted.imp fun hStep => Nat.ne_of_lt hStep).sublist (List.take_sublist _ _)
  have hPerm : ((pagesOn residency .gpu).take k).Perm (List.range k) := by
    apply (List.subperm_of_subset hNodup fun p hp =>
      List.mem_range.mpr (hBelow p hp)).perm_of_length_le
    rw [List.length_range, List.length_take]
    omega
  intro p hp
  have hMem : p ∈ pagesOn residency .gpu := by
    rcases Nat.lt_or_eq_of_le hp with hLess | rfl
    · exact List.mem_of_mem_take (hPerm.mem_iff.mpr (List.mem_range.mpr hLess))
    · exact List.mem_of_getElem? h
  simpa using (List.mem_filter.mp hMem).2

end FlashCkpt.Image
