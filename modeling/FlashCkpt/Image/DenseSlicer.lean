import FlashCkpt.Image.Coalesced

/-! The consumer of the coalesced image on whatever the driver hands over: any residency map
and metadata entries of any sizes, empty ones included. -/
namespace FlashCkpt.Image

open ByteImage SizeCut Crypto

/-- The GPU bytes of a span before a page. -/
def SpanRead.gpuBefore (r : SpanRead) (page : Nat) : Nat :=
  (r.resmap.take page).count .gpu * pageSize

/-- A range that can be cut out of the buffers: all its pages lie on the GPU, and no entry
reaches over its edges. -/
structure SpanRange.Cuttable (r : SpanRead) (a : SpanRange) : Prop where
  resident : ∀ p, a.first ≤ p → p < a.first + a.count → r.resmap[p]? = some .gpu
  starts : Boundary CryptoMeta.size r.metas (r.gpuBefore a.first)
  stops : Boundary CryptoMeta.size r.metas (r.gpuBefore a.first + a.count * pageSize)

/-- The sections cut out for a range: its bytes of the GPU buffer, and the entries for them. -/
structure CutOut (base : Nat) (r : SpanRead) (a : SpanRange) (s : Sections) : Prop where
  baseVa : s.baseVa = base + a.first * pageSize
  length : s.length = a.count * pageSize
  resmap : s.resmap = List.replicate a.count 1
  cpu : s.cpu = []
  gpu : s.gpu = (r.gpuBuf.drop (r.gpuBefore a.first)).take (a.count * pageSize)
  cryptoMeta : ∃ front mine back, r.metas = front ++ (mine ++ back) ∧
    total CryptoMeta.size front = r.gpuBefore a.first ∧
    total CryptoMeta.size mine = a.count * pageSize ∧ s.cryptoMeta = mine.flatMap CryptoMeta.encode

/-- Entries are skipped up to an offset that lies between two of them. -/
theorem skipBefore_reaches_iff {off acc : Nat} (entries : List CryptoMeta) (hAcc : acc ≤ off) :
    (skipBefore off acc entries).1 = off ↔ Boundary CryptoMeta.size entries (off - acc) := by
  constructor
  · intro h
    obtain ⟨front, hSplit, hTotal⟩ := skipBefore_split off acc entries
    exact ⟨front, _, hSplit, by omega⟩
  · intro h
    induction entries generalizing acc with
    | nil =>
        have hNone := boundary_le _ h
        rw [total_nil] at hNone
        exact Nat.le_antisymm hAcc (Nat.le_of_sub_eq_zero (Nat.le_zero.mp hNone))
    | cons entry rest ih =>
        obtain ⟨front, back, hSplit, hTotal⟩ := h
        rw [skipBefore]
        cases front with
        | nil =>
            rw [total_nil] at hTotal
            split
            · exact ih (by omega) ⟨[], rest, rfl, by rw [total_nil]; omega⟩
            · exact Nat.le_antisymm hAcc (by omega)
        | cons first others =>
            rw [List.cons_append, List.cons.injEq] at hSplit
            obtain ⟨rfl, rfl⟩ := hSplit
            rw [total_cons] at hTotal
            rw [if_pos (by omega)]
            exact ih (by omega) ⟨others, back, rfl, by omega⟩

/-- How far the walk has come in the metadata of the span. -/
structure Reached (r : SpanRead) (cursor gpuBytes metaBytes : Nat)
    (done left : List CryptoMeta) : Prop where
  split : r.metas = done ++ left
  bytes : total CryptoMeta.size done = metaBytes
  gpu : gpuBytes = r.gpuBefore cursor
  behind : metaBytes ≤ gpuBytes

theorem reached_start (r : SpanRead) : Reached r 0 0 0 [] r.metas where
  split := rfl
  bytes := rfl
  gpu := by simp [SpanRead.gpuBefore]
  behind := Nat.le_refl 0

theorem SpanRead.gpuBefore_add {r : SpanRead} {first count : Nat}
    (h : ∀ p, first ≤ p → p < first + count → r.resmap[p]? = some .gpu) :
    r.gpuBefore (first + count) = r.gpuBefore first + count * pageSize := by
  rw [gpuBefore, List.take_add, List.count_append, residency_split h, List.count_replicate_self,
    Nat.add_mul, gpuBefore]

namespace Reached

variable {r : SpanRead} {cursor gpuBytes metaBytes : Nat} {done left : List CryptoMeta}
variable {a : SpanRange}

/-- The GPU bytes on the way to the next range. -/
theorem gpuOff (h : Reached r cursor gpuBytes metaBytes done left) (hCursor : cursor ≤ a.first) :
    gpuBytes + ((r.resmap.drop cursor).take (a.first - cursor)).count .gpu * pageSize =
      r.gpuBefore a.first := by
  obtain ⟨step, hStep⟩ := Nat.exists_eq_add_of_le hCursor
  rw [h.gpu, hStep, SpanRead.gpuBefore, SpanRead.gpuBefore, Nat.add_sub_cancel_left, List.take_add,
    List.count_append, Nat.add_mul]

theorem metaBytes_le (h : Reached r cursor gpuBytes metaBytes done left)
    (hCursor : cursor ≤ a.first) : metaBytes ≤ r.gpuBefore a.first := by
  have hOff := h.gpuOff hCursor
  have hBehind := h.behind
  omega

theorem boundary_iff (h : Reached r cursor gpuBytes metaBytes done left) {off : Nat}
    (hOff : metaBytes ≤ off) : Boundary CryptoMeta.size r.metas off ↔
      Boundary CryptoMeta.size left (off - metaBytes) := by
  have hDrop := boundary_drop CryptoMeta.size done left (off - metaBytes)
  rwa [h.bytes, Nat.add_sub_cancel' hOff, ← h.split] at hDrop

/-- The entries before the range, those of the range, and the rest. -/
theorem cut (h : Reached r cursor gpuBytes metaBytes done left) (hCursor : cursor ≤ a.first)
    (hStarts : Boundary CryptoMeta.size r.metas (r.gpuBefore a.first)) :
    ∃ skipped behind, left = skipped ++ behind ∧
      skipBefore (r.gpuBefore a.first) metaBytes left = (r.gpuBefore a.first, behind) ∧
      total CryptoMeta.size (done ++ skipped) = r.gpuBefore a.first ∧
      (Boundary CryptoMeta.size r.metas (r.gpuBefore a.first + a.count * pageSize) ↔
        Boundary CryptoMeta.size behind (a.count * pageSize)) := by
  have hLe := h.metaBytes_le hCursor
  have hReaches := (skipBefore_reaches_iff left hLe).mpr ((h.boundary_iff hLe).mp hStarts)
  obtain ⟨skipped, hSplit, hTotal⟩ := skipBefore_split (r.gpuBefore a.first) metaBytes left
  rw [hReaches] at hTotal
  have hFront : total CryptoMeta.size (done ++ skipped) = r.gpuBefore a.first := by
    rw [total_append, h.bytes, ← hTotal]
  refine ⟨skipped, _, hSplit, Prod.ext hReaches rfl, hFront, ?_⟩
  have hMetas : r.metas =
      (done ++ skipped) ++ (skipBefore (r.gpuBefore a.first) metaBytes left).2 := by
    rw [List.append_assoc, ← hSplit, h.split]
  rw [hMetas, ← hFront, boundary_drop]

/-- A range that can be cut out is. -/
theorem slice (h : Reached r cursor gpuBytes metaBytes done left) (hCursor : cursor ≤ a.first)
    (ha : a.Cuttable r) (base : Nat) : ∃ s done' left', CutOut base r a s ∧
      Reached r (a.first + a.count) (r.gpuBefore a.first + a.count * pageSize)
        (r.gpuBefore a.first + a.count * pageSize) done' left' ∧
      ∀ rest, sliceRanges base r cursor gpuBytes metaBytes left (a :: rest) =
        (sliceRanges base r (a.first + a.count) (r.gpuBefore a.first + a.count * pageSize)
          (r.gpuBefore a.first + a.count * pageSize) left' rest).map (s :: ·) := by
  obtain ⟨skipped, behind, hLeft, hSkip, hFront, hStops⟩ := h.cut hCursor ha.starts
  have hTarget := takeUpTo_append CryptoMeta.size (r.gpuBefore a.first + a.count * pageSize)
    (r.gpuBefore a.first) behind
  have hReach := (takeUpTo_total_iff CryptoMeta.size behind
    (Nat.le_add_right (r.gpuBefore a.first) (a.count * pageSize))).mpr (by
      rw [Nat.add_sub_cancel_left]
      exact hStops.mp ha.stops)
  generalize hTake : takeUpTo CryptoMeta.size (r.gpuBefore a.first + a.count * pageSize)
    (r.gpuBefore a.first) behind = cut at hTarget hReach
  obtain ⟨mine, others⟩ := cut
  dsimp only at hTarget hReach
  have hMine : total CryptoMeta.size mine = a.count * pageSize := Nat.add_left_cancel hReach
  refine ⟨⟨base + a.first * pageSize, a.count * pageSize, List.replicate a.count 1, [],
    (r.gpuBuf.drop (r.gpuBefore a.first)).take (a.count * pageSize),
    mine.flatMap CryptoMeta.encode⟩, done ++ skipped ++ mine, others, ?_, ?_, fun rest => ?_⟩
  · refine ⟨rfl, rfl, rfl, rfl, rfl, done ++ skipped, mine, others, ?_, hFront, hMine, rfl⟩
    rw [h.split, hLeft, ← hTarget, List.append_assoc]
  · refine ⟨?_, ?_, (SpanRead.gpuBefore_add ha.resident).symm, Nat.le_refl _⟩
    · rw [h.split, hLeft, ← hTarget, List.append_assoc, List.append_assoc]
    · rw [total_append, hFront, hMine]
  · have hGpu : ((List.range' a.first a.count).any fun p => r.resmap[p]? ≠ some .gpu) = false := by
      rw [List.any_eq_false]
      intro p hp
      obtain ⟨hLow, hHigh⟩ := List.mem_range'_1.mp hp
      simp [ha.resident p hLow hHigh]
    rw [sliceRanges]
    simp only [h.gpuOff hCursor, hSkip, hTake, hGpu, hMine, Bool.false_eq_true, ne_eq,
      not_true_eq_false, if_false]

/-- At a range that cannot be cut out the walk fails. -/
theorem slice_none (h : Reached r cursor gpuBytes metaBytes done left) (hCursor : cursor ≤ a.first)
    (ha : ¬a.Cuttable r) (base : Nat) (rest : List SpanRange) :
    sliceRanges base r cursor gpuBytes metaBytes left (a :: rest) = none := by
  rw [sliceRanges]
  simp only [h.gpuOff hCursor]
  split
  · rfl
  · rename_i hGpu
    split
    · rfl
    · rename_i hStart
      rw [not_not] at hStart
      split
      · rfl
      · rename_i hStop
        rw [not_not] at hStop
        exfalso
        apply ha
        have hLe := h.metaBytes_le hCursor
        have hStarts : Boundary CryptoMeta.size r.metas (r.gpuBefore a.first) :=
          (h.boundary_iff hLe).mpr ((skipBefore_reaches_iff left hLe).mp hStart)
        obtain ⟨skipped, behind, hLeft, hSkip, hFront, hStops⟩ := h.cut hCursor hStarts
        rw [hSkip] at hStop
        have hBoundary := (takeUpTo_total_iff CryptoMeta.size behind (Nat.le_add_right _ _)).mp hStop
        rw [Nat.add_sub_cancel_left] at hBoundary
        refine ⟨fun p hLow hHigh => ?_, hStarts, hStops.mpr hBoundary⟩
        by_contra hNot
        apply hGpu
        rw [List.any_eq_true]
        exact ⟨p, List.mem_range'_1.mpr ⟨hLow, hHigh⟩, decide_eq_true hNot⟩

end Reached

section Walk

variable {r : SpanRead} {cursor gpuBytes metaBytes : Nat} {done left : List CryptoMeta}

/-- Ranges that can be cut out are, one after the other. -/
theorem sliceRanges_of_cuttable (base : Nat) {ranges : List SpanRange} (hOrdered : Ordered ranges)
    (hCursor : ∀ a ∈ ranges, cursor ≤ a.first) (h : Reached r cursor gpuBytes metaBytes done left)
    (hCuttable : ∀ a ∈ ranges, a.Cuttable r) :
    ∃ written, sliceRanges base r cursor gpuBytes metaBytes left ranges = some written ∧
      List.Forall₂ (CutOut base r) ranges written := by
  induction ranges generalizing cursor gpuBytes metaBytes done left with
  | nil => exact ⟨[], rfl, .nil⟩
  | cons a rest ih =>
      obtain ⟨hNext, hOrderedRest⟩ := List.pairwise_cons.mp hOrdered
      obtain ⟨s, done', left', hCutOut, hReached, hStep⟩ :=
        h.slice (hCursor a List.mem_cons_self) (hCuttable a List.mem_cons_self) base
      obtain ⟨written, hRest, hAll⟩ := ih hOrderedRest hNext hReached
        fun b hb => hCuttable b (List.mem_cons_of_mem a hb)
      refine ⟨s :: written, ?_, .cons hCutOut hAll⟩
      rw [hStep, hRest, Option.map_some]

/-- One range that cannot be cut out is enough for the walk to fail. -/
theorem sliceRanges_of_not_cuttable (base : Nat) {ranges : List SpanRange}
    (hOrdered : Ordered ranges) (hCursor : ∀ a ∈ ranges, cursor ≤ a.first)
    (h : Reached r cursor gpuBytes metaBytes done left) {a : SpanRange} (ha : a ∈ ranges)
    (hNot : ¬a.Cuttable r) : sliceRanges base r cursor gpuBytes metaBytes left ranges = none := by
  induction ranges generalizing cursor gpuBytes metaBytes done left with
  | nil => cases ha
  | cons b rest ih =>
      obtain ⟨hNext, hOrderedRest⟩ := List.pairwise_cons.mp hOrdered
      have hFirst := hCursor b List.mem_cons_self
      by_cases hb : b.Cuttable r
      · obtain ⟨s, done', left', -, hReached, hStep⟩ := h.slice hFirst hb base
        rcases List.mem_cons.mp ha with rfl | ha
        · exact absurd hb hNot
        · rw [hStep, ih hOrderedRest hNext hReached ha, Option.map_none]
      · exact h.slice_none hFirst hb base rest

end Walk

variable {r : SpanRead} {ranges : List SpanRange}

theorem coalescedRanges_of_cuttable (base : Nat) (hOrdered : Ordered ranges)
    (hCuttable : ∀ a ∈ ranges, a.Cuttable r) : ∃ written,
      coalescedRanges base r ranges = some written ∧
        List.Forall₂ (CutOut base r) ranges written :=
  sliceRanges_of_cuttable base hOrdered (fun _ _ => Nat.zero_le _) (reached_start r) hCuttable

/-- The consumer writes exactly when every range can be cut out. -/
theorem coalescedRanges_eq_some {base : Nat} (hOrdered : Ordered ranges) {written : List Sections}
    (h : coalescedRanges base r ranges = some written) :
    (∀ a ∈ ranges, a.Cuttable r) ∧ List.Forall₂ (CutOut base r) ranges written := by
  have hCuttable : ∀ a ∈ ranges, a.Cuttable r := by
    intro a ha
    by_contra hNot
    have hNone := sliceRanges_of_not_cuttable base hOrdered (fun _ _ => Nat.zero_le _)
      (reached_start r) ha hNot
    rw [coalescedRanges, hNone] at h
    cases h
  obtain ⟨written', hWritten, hAll⟩ := coalescedRanges_of_cuttable base hOrdered hCuttable
  cases h.symm.trans hWritten
  exact ⟨hCuttable, hAll⟩

end FlashCkpt.Image
