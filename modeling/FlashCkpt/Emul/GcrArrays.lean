import FlashCkpt.Emul.GcrChunks

/-! The arrays of `build_chunks_gcr`. The room for the chunks is counted from the ranges
before they are clipped, that for the slots is one per range and one for the tail. -/
namespace FlashCkpt.Emul.Gcr

open RangeSet

/-- `cap`: a chunk for each range, and for one longer than a staging buffer as many again as
it splits into. The quotient is cut to `uint32_t`, in which the sum is taken. -/
def chunkCap (staging : Nat) (ranges : List (Range Nat)) : Nat :=
  ranges.foldl (fun cap r =>
    let size := r.stop - r.start
    if staging < size then (cap + wrap (size + staging - 1) / staging % 2 ^ 32) % 2 ^ 32 else cap)
    (ranges.length % 2 ^ 32)

/-- No write behind an array: the slots end in theirs, and so do the chunks. -/
def StaysInside (t : Table GcrFlags) (staging : Nat) (ranges : List (Range Nat)) : Prop :=
  ∃ b, buildChunksGcr t staging true ranges = some b ∧ b.chunks.length ≤ chunkCap staging ranges

/-- The allocation of the first byte of a range and its place in the image. -/
def owner (t : Table GcrFlags) (r : Range Nat) : Option (Alloc GcrFlags × Nat) :=
  (t.findAllocIdx r.start).bind fun i => t.allocs[i]?.bind fun e => e.imgOffset.map fun off => (e, off)

/-- The bytes of a range in an allocation. -/
def clippedTo (r : Range Nat) (e : Alloc GcrFlags) : Nat := min r.stop (e.va + e.size) - r.start

/-- The bytes of a range that are copied. -/
def clipped (t : Table GcrFlags) (r : Range Nat) : Nat :=
  match owner t r with
  | none => 0
  | some (e, _) => clippedTo r e

/-- The sizes into which a range of `size` bytes splits. -/
def cutSizes (staging size : Nat) : List Nat :=
  List.replicate (size / staging) staging ++ if size % staging = 0 then [] else [size % staging]

/-- The sub-chunks are not more than the sum for the chunk array. -/
def ChunksFit (t : Table GcrFlags) (staging : Nat) (ranges : List (Range Nat)) : Prop :=
  (ranges.map fun r => (clipped t r + staging - 1) / staging).sum ≤
    (ranges.length + (ranges.map fun r =>
      if staging < r.stop - r.start then wrap (r.stop - r.start + staging - 1) / staging % 2 ^ 32
      else 0).sum) % 2 ^ 32

/-- The sub-chunks can be divided in their order into groups that fit into a staging buffer,
one more than there are ranges. -/
def SlotsFit (t : Table GcrFlags) (staging : Nat) (ranges : List (Range Nat)) : Prop :=
  NextFit.Divides staging (ranges.length + 1)
    (ranges.flatMap fun r => cutSizes staging (clipped t r))

theorem clipped_le (t : Table GcrFlags) (r : Range Nat) : clipped t r ≤ r.stop - r.start := by
  rw [clipped]
  split
  · exact Nat.zero_le _
  · rw [clippedTo]
    omega

theorem owner_cases {t : Table GcrFlags} {r : Range Nat} {e : Alloc GcrFlags} {off : Nat}
    (h : owner t r = some (e, off)) :
    ∃ i, t.findAllocIdx r.start = some i ∧ t.allocs[i]? = some e ∧ e.imgOffset = some off ∧
      e.va ≤ r.start ∧ r.start < e.va + e.size := by
  obtain ⟨i, hFind, hRest⟩ := Option.bind_eq_some_iff.mp h
  obtain ⟨f, hf, hImage⟩ := Option.bind_eq_some_iff.mp hRest
  obtain ⟨off', hOff, hPair⟩ := Option.map_eq_some_iff.mp hImage
  cases hPair
  obtain ⟨g, hg, _, hLow, hHigh⟩ := findAllocIdx_some hFind
  cases hf.symm.trans hg
  exact ⟨i, hFind, hf, hOff, hLow, hHigh⟩

/-- A range resolves to what its allocation has of it. -/
theorem resolve_eq (t : Table GcrFlags) (r : Range Nat) :
    resolve t r = (owner t r).map fun own =>
      ⟨⟨r.start, clippedTo r own.1⟩, own.2 + (r.start - own.1.va)⟩ := by
  cases hOwner : owner t r with
  | none =>
      rw [owner] at hOwner
      rw [Option.map_none, resolve]
      cases hFind : t.findAllocIdx r.start with
      | none => rfl
      | some i =>
          rw [hFind, Option.bind_some] at hOwner
          rw [Option.bind_some]
          cases he : t.allocs[i]? with
          | none => rfl
          | some e =>
              rw [he, Option.bind_some, Option.map_eq_none_iff] at hOwner
              rw [Option.bind_some, hOwner, Option.map_none]
  | some own =>
      obtain ⟨e, off⟩ := own
      obtain ⟨i, hFind, he, hOff, hLow, hHigh⟩ := owner_cases hOwner
      rw [resolve, hFind, Option.bind_some, he, Option.bind_some, hOff, Option.map_some,
        Option.map_some]
      have hSize : (if e.size < r.start - e.va + (r.stop - r.start) then e.size - (r.start - e.va)
          else r.stop - r.start) = clippedTo r e := by
        rw [clippedTo]
        split <;> omega
      dsimp only
      rw [hSize]

/-- A range splits from the front, a staging buffer at a time. -/
theorem cutSizes_of_pos {staging size : Nat} (hStaging : 0 < staging) (hSize : 0 < size) :
    cutSizes staging size = min size staging :: cutSizes staging (size - min size staging) := by
  rcases Nat.lt_or_ge size staging with hLess | hMore
  · rw [Nat.min_eq_left hLess.le, Nat.sub_self, cutSizes, cutSizes, Nat.div_eq_of_lt hLess,
      Nat.mod_eq_of_lt hLess, if_neg hSize.ne']
    simp
  · obtain ⟨rest, rfl⟩ := Nat.exists_eq_add_of_le hMore
    rw [Nat.min_eq_right hMore, Nat.add_sub_cancel_left, cutSizes, cutSizes,
      Nat.add_div_left rest hStaging, Nat.add_mod_left, List.replicate_succ, List.cons_append]

theorem cutSizes_zero (staging : Nat) : cutSizes staging 0 = [] := by simp [cutSizes]

theorem length_cutSizes {staging : Nat} (hStaging : 0 < staging) (size : Nat) :
    (cutSizes staging size).length = (size + staging - 1) / staging := by
  have hSplit := Nat.div_add_mod size staging
  have hRest := Nat.mod_lt size hStaging
  rw [cutSizes, List.length_append, List.length_replicate]
  split
  · rename_i hWhole
    have hSum : size + staging - 1 = staging * (size / staging) + (staging - 1) := by omega
    rw [hSum, Nat.mul_add_div hStaging, Nat.div_eq_of_lt (Nat.sub_one_lt hStaging.ne')]
    rfl
  · have hSum : size + staging - 1 = staging * (size / staging + 1) + (size % staging - 1) := by
      rw [Nat.mul_add, Nat.mul_one]
      omega
    rw [hSum, Nat.mul_add_div hStaging, Nat.div_eq_of_lt (a := size % staging - 1) (by omega)]
    rfl

theorem Resolved.sizes_cuts {staging : Nat} (hStaging : 0 < staging) (x : Resolved)
    (fuel copied : Nat) (hFuel : x.size ≤ fuel + copied) :
    (x.cuts staging fuel copied).map (fun piece => piece.1.size) =
      cutSizes staging (x.size - copied) := by
  induction fuel generalizing copied with
  | zero => rw [Nat.sub_eq_zero_of_le (by omega), cutSizes_zero, Resolved.cuts, List.map_nil]
  | succ fuel ih =>
      rw [Resolved.cuts]
      split
      · rename_i hMore
        rw [cutSizes_of_pos hStaging (Nat.sub_pos_of_lt hMore), List.map_cons, ih _ (by omega),
          Nat.sub_add_eq]
      · rw [Nat.sub_eq_zero_of_le (by omega), cutSizes_zero, List.map_nil]

theorem sizes_pieces {t : Table GcrFlags} {staging : Nat} (hStaging : 0 < staging) (r : Range Nat) :
    (pieces t staging r).map (fun piece => piece.1.size) = cutSizes staging (clipped t r) := by
  rw [pieces, clipped, resolve_eq]
  cases owner t r with
  | none =>
      rw [Option.map_none, cutSizes_zero]
      split <;> rfl
  | some own =>
      rw [Option.map_some]
      dsimp only
      split
      · rename_i hEmpty
        have hClipped : clippedTo r own.1 = 0 := by
          rw [clippedTo]
          omega
        rw [hClipped, cutSizes_zero, List.map_nil]
      · rw [Resolved.sizes_cuts hStaging _ _ _ (Nat.le_refl _), Nat.sub_zero]

/-- One remainder at the end is enough. -/
theorem chunkCap_eq (staging : Nat) (ranges : List (Range Nat)) :
    chunkCap staging ranges = (ranges.length + (ranges.map fun r =>
      if staging < r.stop - r.start then wrap (r.stop - r.start + staging - 1) / staging % 2 ^ 32
      else 0).sum) % 2 ^ 32 := by
  have hFold : ∀ cap, ranges.foldl (fun cap r =>
      if staging < r.stop - r.start then
        (cap + wrap (r.stop - r.start + staging - 1) / staging % 2 ^ 32) % 2 ^ 32
      else cap) (cap % 2 ^ 32) = (cap + (ranges.map fun r =>
        if staging < r.stop - r.start then wrap (r.stop - r.start + staging - 1) / staging % 2 ^ 32
        else 0).sum) % 2 ^ 32 := by
    induction ranges with
    | nil => exact fun cap => rfl
    | cons r rest ih =>
        intro cap
        rw [List.foldl_cons, List.map_cons, List.sum_cons, ← Nat.add_assoc, ← ih]
        split
        · rw [Nat.mod_add_mod]
        · rw [Nat.add_zero]
  exact hFold ranges.length

/-- As long as no sum wraps, the room for the chunks is enough. -/
theorem chunksFit_of_small (t : Table GcrFlags) {staging : Nat} (hStaging : 0 < staging)
    {ranges : List (Range Nat)} (hSize : ∀ r ∈ ranges, r.stop - r.start + staging ≤ 2 ^ 64)
    (hSum : (ranges.map fun r => 1 + (r.stop - r.start + staging - 1) / staging).sum < 2 ^ 32) :
    ChunksFit t staging ranges := by
  suffices hBounds : (ranges.map fun r => (clipped t r + staging - 1) / staging).sum ≤
      ranges.length + (ranges.map fun r =>
        if staging < r.stop - r.start then wrap (r.stop - r.start + staging - 1) / staging % 2 ^ 32
        else 0).sum ∧
      ranges.length + (ranges.map fun r =>
        if staging < r.stop - r.start then wrap (r.stop - r.start + staging - 1) / staging % 2 ^ 32
        else 0).sum ≤
        (ranges.map fun r => 1 + (r.stop - r.start + staging - 1) / staging).sum by
    rw [ChunksFit, Nat.mod_eq_of_lt (lt_of_le_of_lt hBounds.2 hSum)]
    exact hBounds.1
  induction ranges with
  | nil => exact ⟨Nat.le_refl 0, Nat.le_refl 0⟩
  | cons r rest ih =>
      obtain ⟨hHead, hRest⟩ := List.forall_mem_cons.mp hSize
      rw [List.map_cons, List.sum_cons] at hSum
      obtain ⟨hLow, hHigh⟩ := ih hRest (lt_of_le_of_lt (Nat.le_add_left _ _) hSum)
      have hClip := clipped_le t r
      simp only [List.map_cons, List.sum_cons, List.length_cons]
      split
      · have hWrap : wrap (r.stop - r.start + staging - 1) / staging % 2 ^ 32 =
            (r.stop - r.start + staging - 1) / staging := by
          rw [wrap, Nat.mod_eq_of_lt (a := r.stop - r.start + staging - 1) (by omega)]
          apply Nat.mod_eq_of_lt
          calc
            _ ≤ 1 + (r.stop - r.start + staging - 1) / staging := Nat.le_add_left _ _
            _ ≤ _ := Nat.le_add_right _ _
            _ < 2 ^ 32 := hSum
        have hCuts : (clipped t r + staging - 1) / staging ≤ (r.stop - r.start + staging - 1) / staging :=
          Nat.div_le_div_right (by omega)
        rw [hWrap]
        constructor <;> omega
      · have hOne : (clipped t r + staging - 1) / staging ≤ 1 :=
          Nat.le_of_lt_succ (Nat.div_lt_of_lt_mul (by omega))
        have hQuotient := Nat.zero_le ((r.stop - r.start + staging - 1) / staging)
        constructor <;> omega

theorem staysInside_iff (cfg : Config) (t : Table GcrFlags) (ranges : List (Range Nat)) :
    StaysInside t cfg.staging ranges ↔
      ChunksFit t cfg.staging ranges ∧ SlotsFit t cfg.staging ranges := by
  have hSizes : ((ranges.flatMap (pieces t cfg.staging)).map fun piece => piece.1.size) =
      ranges.flatMap fun r => cutSizes cfg.staging (clipped t r) := by
    rw [List.map_flatMap]
    exact List.flatMap_congr fun r _ => sizes_pieces cfg.staging_pos r
  have hLength : (ranges.flatMap (pieces t cfg.staging)).length =
      (ranges.map fun r => (clipped t r + cfg.staging - 1) / cfg.staging).sum := by
    rw [← List.length_map (fun piece : Region × Nat => piece.1.size), hSizes, List.length_flatMap]
    exact congrArg List.sum (List.map_congr_left fun r _ => length_cutSizes cfg.staging_pos _)
  rw [ChunksFit, SlotsFit, ← hLength, ← hSizes, ← chunkCap_eq]
  by_cases hRanges : ranges = []
  · subst hRanges
    exact ⟨fun _ => ⟨Nat.le_refl 0, NextFit.divides_nil _ _⟩, fun _ => ⟨.init, rfl, Nat.le_refl 0⟩⟩
  · rw [← buildChunksGcr_ne_none cfg.staging_pos hRanges]
    constructor
    · rintro ⟨b, hBuild, hChunks⟩
      rw [← buildChunksGcr_eq_some cfg.staging_pos hBuild, List.length_map]
      exact ⟨hChunks, hBuild ▸ Option.some_ne_none b⟩
    · rintro ⟨hChunks, hSlots⟩
      obtain ⟨b, hBuild⟩ := Option.ne_none_iff_exists'.mp hSlots
      rw [← buildChunksGcr_eq_some cfg.staging_pos hBuild, List.length_map] at hChunks
      exact ⟨b, hBuild, hChunks⟩

/-- An image of 1 GB and the default staging size. -/
def oneGigabyte : Config := ⟨some 0x40000000, 256 * 1024 * 1024, defaultStaging_pos⟩

/-- The table behind an allocation of 768 MB. -/
def longAlloc : Table GcrFlags := ⟨[⟨⟨0x40000000, 0x30000000⟩, some 0, true, ⟨false⟩⟩], 0x30000000, false⟩

example : (next oneGigabyte .init (.call (.alloc true 0x40000000 0x30000000))).map (·.table) =
    some longAlloc := rfl

/-- All of it is dirty: three full slots, with room for two. -/
theorem not_staysInside_longAlloc :
    ¬ ∀ (cfg : Config) t ranges, StaysInside t cfg.staging ranges := by
  intro h
  obtain ⟨b, hBuild, _⟩ := h oneGigabyte longAlloc [⟨0x40000000, 0x70000000⟩]
  have hDivides := (buildChunksGcr_ne_none oneGigabyte.staging_pos (List.cons_ne_nil _ _)).mp
    (hBuild ▸ Option.some_ne_none b)
  rw [← NextFit.openings_zero_le_iff] at hDivides
  · rw [List.flatMap_singleton, sizes_pieces oneGigabyte.staging_pos] at hDivides
    exact absurd hDivides (by decide)
  · intro size hSize
    obtain ⟨piece, hPiece, rfl⟩ := List.mem_map.mp hSize
    rw [List.flatMap_singleton] at hPiece
    exact pieces_le oneGigabyte.staging_pos hPiece

end FlashCkpt.Emul.Gcr
