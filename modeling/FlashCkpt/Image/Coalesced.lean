import FlashCkpt.Image.Fused

/-! The coalesced image of ckpt_core. One ioctl 115 reads the whole span of the
ranges, and the consumer cuts the buffers at the ranges. It has no place for CPU
pages: a range that is not wholly on the GPU ends the run. -/
namespace FlashCkpt.Image

open ByteImage SizeCut Crypto

/-- A range of the span, in pages from its start. -/
structure SpanRange where
  first : Nat
  count : Nat
  deriving DecidableEq, Repr

/-- The entries which end at or before an offset are skipped; with their bytes. -/
def skipBefore (off : Nat) : Nat → List CryptoMeta → Nat × List CryptoMeta
  | acc, [] => (acc, [])
  | acc, entry :: rest =>
      if acc + entry.size ≤ off then skipBefore off (acc + entry.size) rest
      else (acc, entry :: rest)

/-- The walk over the ranges: the pages of the map and the GPU bytes passed so far, and
the bytes of the metadata entries passed with those that are left. -/
def sliceRanges (base : Nat) (r : SpanRead) : (cursor gpuBytes metaBytes : Nat) →
    List CryptoMeta → List SpanRange → Option (List Sections)
  | _, _, _, _, [] => some []
  | cursor, gpuBytes, metaBytes, metas, a :: rest =>
      let gpuOff := gpuBytes +
        ((r.resmap.drop cursor).take (a.first - cursor)).count .gpu * pageSize
      let size := a.count * pageSize
      if (List.range' a.first a.count).any fun p => r.resmap[p]? ≠ some .gpu then none
      else
        let (reached, left) := skipBefore gpuOff metaBytes metas
        let (mine, others) := takeUpTo CryptoMeta.size (gpuOff + size) reached left
        if reached ≠ gpuOff then none
        else if reached + total CryptoMeta.size mine ≠ gpuOff + size then none
        else
          (sliceRanges base r (a.first + a.count) (gpuOff + size) (gpuOff + size) others rest).map
            (⟨base + a.first * pageSize, size, List.replicate a.count 1, [],
              (r.gpuBuf.drop gpuOff).take size, mine.flatMap CryptoMeta.encode⟩ :: ·)

/-- The ranges of the coalesced image. -/
def coalescedRanges (base : Nat) (r : SpanRead) (ranges : List SpanRange) :
    Option (List Sections) :=
  sliceRanges base r 0 0 0 r.metas ranges

/-- No range of a coalesced image has a CPU page. -/
theorem sliceRanges_cpu {base : Nat} {r : SpanRead} {ranges : List SpanRange}
    {cursor gpuBytes metaBytes : Nat} {metas : List CryptoMeta} {written : List Sections}
    (h : sliceRanges base r cursor gpuBytes metaBytes metas ranges = some written) :
    ∀ s ∈ written, s.cpu = [] ∧ ∀ b ∈ s.resmap, b = 1 := by
  induction ranges generalizing cursor gpuBytes metaBytes metas written with
  | nil =>
      cases h
      exact fun s hs => absurd hs List.not_mem_nil
  | cons a rest ih =>
      simp only [sliceRanges] at h
      split at h
      · cases h
      · split at h
        · cases h
        · split at h
          · cases h
          · rw [Option.map_eq_some_iff] at h
            obtain ⟨others, hRest, rfl⟩ := h
            intro s hs
            rcases List.mem_cons.mp hs with rfl | hs
            · exact ⟨rfl, fun b hb => List.eq_of_mem_replicate hb⟩
            · exact ih hRest s hs

/-- The GPU bytes of a span before a page. -/
def RangeLayout.gpuBefore (span : RangeLayout) (page : Nat) : Nat :=
  (span.residency.take page).count .gpu * pageSize

/-- A range the consumer accepts: it lies on the GPU, and transfers begin and end with it. -/
structure SpanRange.Accepted (span : RangeLayout) (a : SpanRange) : Prop where
  resident : ∀ p, a.first ≤ p → p < a.first + a.count → span.residency[p]? = some .gpu
  starts : Boundary (· * pageSize) span.transfers (span.gpuBefore a.first)
  stops : Boundary (· * pageSize) span.transfers (span.gpuBefore a.first + a.count * pageSize)

/-- The ranges of a span in order. -/
def Ordered (ranges : List SpanRange) : Prop :=
  ranges.Pairwise fun a b => a.first + a.count ≤ b.first

/-- An accepted range by itself, with its part of the transfers of the span. -/
structure CutOf (span : RangeLayout) (a : SpanRange) (l : RangeLayout) : Prop where
  base : l.base = span.base + a.first * pageSize
  residency : l.residency = List.replicate a.count .gpu
  transfers : ∃ front back, span.transfers = front ++ (l.transfers ++ back) ∧
    total (· * pageSize) front = span.gpuBefore a.first

theorem skipBefore_split (off acc : Nat) (entries : List CryptoMeta) :
    ∃ front, entries = front ++ (skipBefore off acc entries).2 ∧
      (skipBefore off acc entries).1 = acc + total CryptoMeta.size front := by
  induction entries generalizing acc with
  | nil => exact ⟨[], rfl, rfl⟩
  | cons entry rest ih =>
      rw [skipBefore]
      split
      · obtain ⟨front, hSplit, hTotal⟩ := ih (acc + entry.size)
        refine ⟨entry :: front, ?_, ?_⟩
        · rw [List.cons_append, ← hSplit]
        · rw [hTotal, total_cons, Nat.add_assoc]
      · exact ⟨[], rfl, rfl⟩

/-- Entries of positive size are skipped up to a boundary. -/
theorem skipBefore_exact {back : List CryptoMeta} (hPos : ∀ m ∈ back, 0 < m.size) (acc : Nat)
    (front : List CryptoMeta) :
    skipBefore (acc + total CryptoMeta.size front) acc (front ++ back) =
      (acc + total CryptoMeta.size front, back) := by
  induction front generalizing acc with
  | nil =>
      cases back with
      | nil => rfl
      | cons entry rest =>
          have hHead := hPos entry List.mem_cons_self
          rw [List.nil_append, skipBefore, total_nil, if_neg (by omega)]
          rfl
  | cons entry rest ih =>
      rw [List.cons_append, skipBefore, total_cons, if_pos (by omega), ← Nat.add_assoc, ih]

section Walk

variable (channel : Channel) (memory : ByteImage.Image)

theorem packed_append (base : Nat) (front back : List Residency) (place : Residency) :
    packed memory base (pagesOn (front ++ back) place) =
      packed memory base (pagesOn front place) ++
        packed memory (base + front.length * pageSize) (pagesOn back place) := by
  induction front generalizing base with
  | nil => simp [pagesOn, packed]
  | cons r rest ih =>
      rw [List.cons_append, packed_cons, packed_cons, ih, List.append_assoc, List.length_cons,
        Nat.succ_mul, Nat.add_assoc, Nat.add_comm pageSize]

theorem cutPieces_length (n : Nat) (transfers : List Nat) (plain : Bytes) :
    (cutPieces n transfers plain).length = transfers.length := by
  induction transfers generalizing n plain with
  | nil => rfl
  | cons t rest ih => rw [cutPieces, List.length_cons, ih, List.length_cons]

theorem pagesOn_replicate_cpu (count : Nat) :
    pagesOn (List.replicate count Residency.gpu) .cpu = [] := by
  rw [← List.length_eq_zero_iff, pagesOn_length, List.count_eq_zero]
  intro h
  exact absurd (List.eq_of_mem_replicate h) (by decide)

theorem residency_split {residency : List Residency} {first count : Nat}
    (h : ∀ p, first ≤ p → p < first + count → residency[p]? = some .gpu) :
    (residency.drop first).take count = List.replicate count .gpu := by
  apply List.ext_getElem?
  intro i
  rw [List.getElem?_take, List.getElem?_replicate]
  split
  · rw [List.getElem?_drop, h (first + i) (by omega) (by omega)]
  · rfl

theorem gpuBefore_add {span : RangeLayout} {first count : Nat}
    (h : ∀ p, first ≤ p → p < first + count → span.residency[p]? = some .gpu) :
    span.gpuBefore (first + count) = span.gpuBefore first + count * pageSize := by
  rw [RangeLayout.gpuBefore, List.take_add, List.count_append, residency_split h,
    List.count_replicate_self, Nat.add_mul, RangeLayout.gpuBefore]

variable {channel memory} {span : RangeLayout} {n : Nat}

/-- The pieces of a range in the walk are those of the range by itself. -/
theorem exists_cut {a : SpanRange} (hInside : a.first + a.count ≤ span.residency.length)
    (hResident : ∀ p, a.first ≤ p → p < a.first + a.count → span.residency[p]? = some .gpu)
    {front mine others : List (Nat × Bytes)}
    (hSplit : span.pieces memory n = front ++ (mine ++ others))
    (hFront : total pieceSize front = span.gpuBefore a.first)
    (hMine : total pieceSize mine = a.count * pageSize) :
    ∃ l m, CutOf span a l ∧ l.pieces memory m = mine := by
  have hSizes := span.pieces_map_length memory n
  rw [hSplit, List.map_append, List.map_append] at hSizes
  obtain ⟨tFront, tRest, hTransfers, hTFront, hTRest⟩ := List.map_eq_append_iff.mp hSizes.symm
  obtain ⟨tMine, tOthers, rfl, hTMine, -⟩ := List.map_eq_append_iff.mp hTRest
  have hTotal : ∀ {t : List Nat} {pieces : List (Nat × Bytes)},
      t.map (· * pageSize) = pieces.map (fun p => p.2.length) →
        t.sum * pageSize = total (fun p => p.2.length) pieces := by
    intro t pieces h
    have hMul := total_mul (fun k : Nat => k) t pageSize
    rw [total, h] at hMul
    simpa [total] using hMul.symm
  have hFrontSum : tFront.sum * pageSize = span.gpuBefore a.first := by
    exact (hTotal hTFront).trans hFront
  have hMineSum : tMine.sum = a.count := by
    have hMul := (hTotal hTMine).trans hMine
    exact Nat.eq_of_mul_eq_mul_right (by decide) hMul
  have hPages : ∀ t ∈ tMine, 0 < t ∧ t ≤ 512 := fun t ht => span.transfer_pages t (by
    rw [hTransfers]
    exact List.mem_append_right _ (List.mem_append_left _ ht))
  let l : RangeLayout := ⟨span.base + a.first * pageSize, List.replicate a.count .gpu, tMine,
    hPages, by rw [hMineSum, pagesOn_length, List.count_replicate_self]⟩
  refine ⟨l, n + tFront.length, ⟨rfl, rfl, tFront, tOthers, hTransfers, ?_⟩, ?_⟩
  · rw [← hFrontSum]
    simpa [total] using total_mul (fun k : Nat => k) tFront pageSize
  have hResidency : span.residency = span.residency.take a.first ++
      (List.replicate a.count .gpu ++ (span.residency.drop a.first).drop a.count) := by
    rw [← residency_split hResident, List.take_append_drop, List.take_append_drop]
  have hTake : (span.residency.take a.first).length = a.first := by
    rw [List.length_take]
    omega
  have hPacked : packed memory span.base (pagesOn span.residency .gpu) =
      packed memory span.base (pagesOn (span.residency.take a.first) .gpu) ++
        (packed memory l.base (pagesOn l.residency .gpu) ++
          packed memory (l.base + l.residency.length * pageSize)
            (pagesOn ((span.residency.drop a.first).drop a.count) .gpu)) := by
    conv_lhs => rw [hResidency, packed_append, packed_append, hTake]
  have hCut := hSplit
  rw [RangeLayout.pieces, hTransfers, hPacked, cutPieces_append n _ _ _ _ (by
    rw [packed_length, pagesOn_length, hFrontSum, RangeLayout.gpuBefore]),
    cutPieces_append _ _ _ _ _ (by rw [packed_length, ← l.transfer_sum])] at hCut
  have hCount : tFront.length = front.length := by
    simpa using congrArg List.length hTFront
  have hCountMine : tMine.length = mine.length := by
    simpa using congrArg List.length hTMine
  obtain ⟨-, hBehind⟩ := List.append_inj hCut (by rw [cutPieces_length, hCount])
  exact (List.append_inj hBehind (by rw [cutPieces_length, hCountMine])).1

/-- How far the walk has come in the pieces of the span. -/
structure Walked (span : RangeLayout) (memory : ByteImage.Image) (n cursor gpuBytes metaBytes : Nat)
    (done left : List (Nat × Bytes)) : Prop where
  split : span.pieces memory n = done ++ left
  bytes : total pieceSize done = metaBytes
  gpu : gpuBytes = span.gpuBefore cursor
  behind : metaBytes ≤ gpuBytes

theorem walked_start (span : RangeLayout) (memory : ByteImage.Image) (n : Nat) :
    Walked span memory n 0 0 0 [] (span.pieces memory n) where
  split := rfl
  bytes := rfl
  gpu := by simp [RangeLayout.gpuBefore]
  behind := Nat.le_refl 0

variable {cursor gpuBytes metaBytes : Nat} {done left : List (Nat × Bytes)}

theorem Walked.gpuOff (h : Walked span memory n cursor gpuBytes metaBytes done left) {first : Nat}
    (hCursor : cursor ≤ first) :
    gpuBytes + ((span.residency.drop cursor).take (first - cursor)).count .gpu * pageSize =
      span.gpuBefore first := by
  obtain ⟨step, rfl⟩ := Nat.exists_eq_add_of_le hCursor
  rw [h.gpu, RangeLayout.gpuBefore, RangeLayout.gpuBefore, Nat.add_sub_cancel_left, List.take_add,
    List.count_append, Nat.add_mul]

theorem Walked.piece_pos (h : Walked span memory n cursor gpuBytes metaBytes done left) :
    (∀ p ∈ done, 0 < pieceSize p) ∧ ∀ p ∈ left, 0 < pieceSize p :=
  ⟨fun _ hp => Image.piece_pos (h.split ▸ List.mem_append_left left hp),
    fun _ hp => Image.piece_pos (h.split ▸ List.mem_append_right done hp)⟩

/-- The walk behind a range. -/
theorem Walked.next (h : Walked span memory n cursor gpuBytes metaBytes done left) {a : SpanRange}
    (hResident : ∀ p, a.first ≤ p → p < a.first + a.count → span.residency[p]? = some .gpu)
    {skipped mine others : List (Nat × Bytes)} (hLeft : left = skipped ++ (mine ++ others))
    (hSkipped : metaBytes + total pieceSize skipped = span.gpuBefore a.first)
    (hMine : total pieceSize mine = a.count * pageSize) :
    Walked span memory n (a.first + a.count) (span.gpuBefore a.first + a.count * pageSize)
      (span.gpuBefore a.first + a.count * pageSize) (done ++ skipped ++ mine) others where
  split := by rw [h.split, hLeft, List.append_assoc, List.append_assoc]
  bytes := by rw [total_append, total_append, h.bytes, hSkipped, hMine]
  gpu := (gpuBefore_add hResident).symm
  behind := Nat.le_refl _

/-- Where the pieces of an accepted range stand. -/
theorem Walked.cut (h : Walked span memory n cursor gpuBytes metaBytes done left) {a : SpanRange}
    (hCursor : cursor ≤ a.first) (hAccepted : a.Accepted span) :
    ∃ skipped mine others, left = skipped ++ (mine ++ others) ∧
      metaBytes + total pieceSize skipped = span.gpuBefore a.first ∧
      total pieceSize mine = a.count * pageSize := by
  have hBehind : metaBytes ≤ span.gpuBefore a.first := by
    have hOff := h.gpuOff hCursor
    have hLe := h.behind
    omega
  have hStarts := (boundary_pieces memory span n _).mpr hAccepted.starts
  have hStops := (boundary_pieces memory span n _).mpr hAccepted.stops
  rw [h.split, ← Nat.add_sub_cancel' hBehind, ← h.bytes, boundary_drop] at hStarts
  obtain ⟨skipped, rest, hLeft, hSkipped⟩ := hStarts
  have hFront : total pieceSize (done ++ skipped) = span.gpuBefore a.first := by
    rw [total_append, hSkipped, h.bytes]
    omega
  rw [h.split, hLeft, ← List.append_assoc, ← hFront, boundary_drop] at hStops
  obtain ⟨mine, others, rfl, hMine⟩ := hStops
  rw [total_append, h.bytes] at hFront
  exact ⟨skipped, mine, others, hLeft, hFront, hMine⟩

/-- The section the walk makes of a range. -/
theorem section_eq (channel : Channel)
    (h : Walked span memory n cursor gpuBytes metaBytes done left) {a : SpanRange}
    (hInside : a.first + a.count ≤ span.residency.length)
    (hResident : ∀ p, a.first ≤ p → p < a.first + a.count → span.residency[p]? = some .gpu)
    {skipped mine others : List (Nat × Bytes)} (hLeft : left = skipped ++ (mine ++ others))
    (hSkipped : metaBytes + total pieceSize skipped = span.gpuBefore a.first)
    (hMine : total pieceSize mine = a.count * pageSize) :
    ∃ l m, CutOf span a l ∧
      (⟨span.base + a.first * pageSize, a.count * pageSize, List.replicate a.count 1, [],
        (((span.pieces memory n).flatMap (pieceCipher channel)).drop
          (span.gpuBefore a.first)).take (a.count * pageSize),
        (mine.map (pieceMeta channel)).flatMap CryptoMeta.encode⟩ : Sections) =
          l.sections channel memory m := by
  have hSplit : span.pieces memory n = (done ++ skipped) ++ (mine ++ others) := by
    rw [h.split, hLeft, List.append_assoc]
  have hFront : total pieceSize (done ++ skipped) = span.gpuBefore a.first := by
    rw [total_append, h.bytes, hSkipped]
  obtain ⟨l, m, hCut, hPieces⟩ := exists_cut hInside hResident hSplit hFront hMine
  refine ⟨l, m, hCut, ?_⟩
  have hGpu : (((span.pieces memory n).flatMap (pieceCipher channel)).drop
      (span.gpuBefore a.first)).take (a.count * pageSize) = mine.flatMap (pieceCipher channel) := by
    generalize done ++ skipped = front at hSplit hFront
    rw [hSplit, List.flatMap_append, List.flatMap_append, ← hFront, ← hMine,
      List.drop_left' (flatMap_cipher_length _), List.take_left' (flatMap_cipher_length _)]
  rw [hGpu, RangeLayout.sections, hPieces, RangeLayout.length, hCut.base, hCut.residency,
    pagesOn_replicate_cpu, List.length_replicate, List.map_replicate, List.flatMap_map]
  rfl

/-- Accepted ranges are written, each as a range of its own. -/
theorem sliceRanges_accepted (channel : Channel) {ranges : List SpanRange}
    (hOrdered : Ordered ranges) (hInside : ∀ a ∈ ranges, a.first + a.count ≤ span.residency.length)
    (hAccepted : ∀ a ∈ ranges, a.Accepted span)
    (hCursor : ∀ a ∈ ranges, cursor ≤ a.first)
    (h : Walked span memory n cursor gpuBytes metaBytes done left) :
    ∃ written, sliceRanges span.base (readSpan channel memory n span) cursor gpuBytes metaBytes
        (left.map (pieceMeta channel)) ranges = some written ∧
      List.Forall₂ (fun a s => ∃ l m, CutOf span a l ∧ s = l.sections channel memory m)
        ranges written := by
  induction ranges generalizing cursor gpuBytes metaBytes done left with
  | nil => exact ⟨[], rfl, .nil⟩
  | cons a rest ih =>
      have hFirst := hAccepted a List.mem_cons_self
      have hStart := hCursor a List.mem_cons_self
      obtain ⟨hNext, hOrderedRest⟩ := List.pairwise_cons.mp hOrdered
      obtain ⟨skipped, mine, others, hLeft, hSkipped, hMine⟩ := h.cut hStart hFirst
      obtain ⟨l, m, hCut, hSection⟩ := section_eq channel h (hInside a List.mem_cons_self)
        hFirst.resident hLeft hSkipped hMine
      obtain ⟨written, hRest, hWritten⟩ := ih hOrderedRest
        (fun b hb => hInside b (List.mem_cons_of_mem a hb))
        (fun b hb => hAccepted b (List.mem_cons_of_mem a hb)) hNext
        (h.next hFirst.resident hLeft hSkipped hMine)
      refine ⟨l.sections channel memory m :: written, ?_, .cons ⟨l, m, hCut, rfl⟩ hWritten⟩
      have hPos := h.piece_pos.2
      have hSkip : skipBefore (span.gpuBefore a.first) metaBytes (left.map (pieceMeta channel)) =
          (span.gpuBefore a.first, (mine ++ others).map (pieceMeta channel)) := by
        have hBack : ∀ entry ∈ (mine ++ others).map (pieceMeta channel), 0 < entry.size := by
          intro entry hEntry
          obtain ⟨p, hp, rfl⟩ := List.mem_map.mp hEntry
          rw [pieceMeta, channel.meta_size]
          exact hPos p (hLeft ▸ List.mem_append_right skipped hp)
        have hExact := skipBefore_exact hBack metaBytes (skipped.map (pieceMeta channel))
        rwa [total_map, pieceMeta_size, hSkipped, ← List.map_append, ← hLeft] at hExact
      have hTake : takeUpTo CryptoMeta.size (span.gpuBefore a.first + a.count * pageSize)
          (span.gpuBefore a.first) ((mine ++ others).map (pieceMeta channel)) =
            (mine.map (pieceMeta channel), others.map (pieceMeta channel)) := by
        have hFront : ∀ p ∈ mine, 0 < pieceSize p := fun p hp =>
          hPos p (hLeft ▸ List.mem_append_right skipped (List.mem_append_left others hp))
        have hExact := takeUpTo_exact pieceSize hFront (span.gpuBefore a.first) others
        rw [takeUpTo_map, pieceMeta_size, ← hMine, hExact]
      rw [sliceRanges]
      simp only [readSpan, h.gpuOff hStart, hSkip, hTake, total_map, pieceMeta_size, hMine,
        ne_eq, not_true_eq_false, if_false] at hRest ⊢
      rw [hRest, Option.map_some, hSection, if_neg]
      rw [Bool.not_eq_true, List.any_eq_false]
      intro p hp
      obtain ⟨hLow, hHigh⟩ := List.mem_range'_1.mp hp
      simp [hFirst.resident p hLow hHigh]

/-- Only accepted ranges are written. -/
theorem accepted_of_sliceRanges (channel : Channel) {ranges : List SpanRange}
    {written : List Sections} (hOrdered : Ordered ranges) (hCursor : ∀ a ∈ ranges, cursor ≤ a.first)
    (h : Walked span memory n cursor gpuBytes metaBytes done left)
    (hWritten : sliceRanges span.base (readSpan channel memory n span) cursor gpuBytes metaBytes
      (left.map (pieceMeta channel)) ranges = some written) :
    ∀ a ∈ ranges, a.Accepted span := by
  induction ranges generalizing cursor gpuBytes metaBytes done left written with
  | nil => exact fun a ha => absurd ha List.not_mem_nil
  | cons a rest ih =>
      obtain ⟨hNext, hOrderedRest⟩ := List.pairwise_cons.mp hOrdered
      rw [sliceRanges] at hWritten
      simp only [readSpan, h.gpuOff (hCursor a List.mem_cons_self)] at hWritten
      split at hWritten
      · cases hWritten
      rename_i hGpu
      obtain ⟨front, hSkip, hReached⟩ := skipBefore_split (span.gpuBefore a.first) metaBytes
        (left.map (pieceMeta channel))
      have hTake := takeUpTo_append CryptoMeta.size
        (span.gpuBefore a.first + a.count * pageSize)
        (skipBefore (span.gpuBefore a.first) metaBytes (left.map (pieceMeta channel))).1
        (skipBefore (span.gpuBefore a.first) metaBytes (left.map (pieceMeta channel))).2
      generalize skipBefore (span.gpuBefore a.first) metaBytes (left.map (pieceMeta channel)) = skip
        at hWritten hSkip hReached hTake
      generalize takeUpTo CryptoMeta.size (span.gpuBefore a.first + a.count * pageSize) skip.1
        skip.2 = cut at hWritten hTake
      split at hWritten
      · cases hWritten
      rename_i hStart
      split at hWritten
      · cases hWritten
      rename_i hStop
      rw [not_not] at hStart hStop
      obtain ⟨others, hRest, -⟩ := Option.map_eq_some_iff.mp hWritten
      rw [← hTake] at hSkip
      obtain ⟨skipped, tail, hLeft, rfl, hTail⟩ := List.map_eq_append_iff.mp hSkip
      obtain ⟨mine, after, rfl, hMine, hAfter⟩ := List.map_eq_append_iff.mp hTail
      rw [total_map, pieceMeta_size] at hReached
      have hMineTotal : total pieceSize mine = a.count * pageSize := by
        rw [← hMine, total_map, pieceMeta_size, hStart] at hStop
        omega
      have hSkipped : metaBytes + total pieceSize skipped = span.gpuBefore a.first := by omega
      have hResident : ∀ p, a.first ≤ p → p < a.first + a.count →
          span.residency[p]? = some .gpu := by
        intro p hLow hHigh
        have hPage := List.any_eq_false.mp (Bool.not_eq_true _ ▸ hGpu) p
          (List.mem_range'_1.mpr ⟨hLow, hHigh⟩)
        by_contra hNot
        exact hPage (decide_eq_true hNot)
      have hWalked := h.next hResident hLeft hSkipped hMineTotal
      have hFirst : a.Accepted span := by
        refine ⟨hResident, ?_, ?_⟩
        · rw [← boundary_pieces memory span n]
          refine ⟨done ++ skipped, mine ++ after, ?_, ?_⟩
          · rw [h.split, hLeft, List.append_assoc]
          · rw [total_append, h.bytes, hSkipped]
        · rw [← boundary_pieces memory span n]
          exact ⟨_, _, hWalked.split, hWalked.bytes⟩
      rw [← hAfter] at hRest
      intro b hb
      rcases List.mem_cons.mp hb with rfl | hb
      · exact hFirst
      · exact ih hOrderedRest hNext hWalked hRest b hb

end Walk

/-- The coalesced image has the accepted ranges of a span, in order. -/
theorem coalescedRanges_eq (channel : Channel) (memory : ByteImage.Image) (n : Nat)
    (span : RangeLayout) {ranges : List SpanRange} (hOrdered : Ordered ranges)
    (hInside : ∀ a ∈ ranges, a.first + a.count ≤ span.residency.length) :
    ((∀ a ∈ ranges, a.Accepted span) → ∃ written,
      coalescedRanges span.base (readSpan channel memory n span) ranges = some written ∧
      List.Forall₂ (fun a s => ∃ l m, CutOf span a l ∧ s = l.sections channel memory m)
        ranges written) ∧
    ∀ written, coalescedRanges span.base (readSpan channel memory n span) ranges = some written →
      ∀ a ∈ ranges, a.Accepted span := by
  have hWalked := walked_start span memory n
  refine ⟨fun hAccepted => ?_, fun written hWritten => ?_⟩
  · exact sliceRanges_accepted channel hOrdered hInside hAccepted (fun a _ => Nat.zero_le a.first)
      hWalked
  · exact accepted_of_sliceRanges channel hOrdered (fun a _ => Nat.zero_le a.first) hWalked hWritten

end FlashCkpt.Image
