import FlashCkpt.Emul.GcrArrays
import FlashCkpt.Emul.GcrCopy

/-! How `build_chunks_gcr` packs, in arrays with room enough: which chunks a slot has and
where they lie in it, and which bytes of the device the chunks of a range take. -/
namespace FlashCkpt.Emul.Gcr

open RangeSet

/-- Stretches of device memory, none of them empty, each from the end of the one before. -/
def Follows : Nat → List Region → Nat → Prop
  | start, [], stop => start = stop
  | start, r :: rest, stop => r.va = start ∧ 0 < r.size ∧ Follows (start + r.size) rest stop

/-- The chunks of a range: none without an allocation or a slot, else they follow each other
from its start to its end or to that of the allocation, in the image as on the device. -/
def CopiesRange (t : Table GcrFlags) (r : Range Nat) (chunks : List Chunk) : Prop :=
  match owner t r with
  | none => chunks = []
  | some (e, off) =>
      Follows r.start (chunks.map Chunk.toRegion) (r.start + clippedTo r e) ∧
        ∀ c ∈ chunks, c.imgAbs = off + (c.va - e.va)

/-- The slots have the chunks in their order, each slot at least one. Those of a slot lie
behind each other in it, up to the end of its bytes, which fit into a staging buffer. -/
structure Build.Packs (t : Table GcrFlags) (staging : Nat) (ranges : List (Range Nat)) (b : Build) :
    Prop where
  slots : ∃ groups, b.chunks = groups.flatten ∧ Grouped 0 b.filled groups ∧ ∀ g ∈ groups, g ≠ []
  room : ∀ s ∈ b.filled, s.totalBytes ≤ staging
  ranges : ∃ parts, b.chunks = parts.flatten ∧ List.Forall₂ (CopiesRange t) ranges parts

/-- Only the current slot may be empty, and no slot has more than a staging buffer takes. -/
structure Build.Fits (staging : Nat) (b : Build) : Prop where
  closed : ∀ s ∈ b.slots, 0 < s.count ∧ s.totalBytes ≤ staging
  room : b.current.totalBytes ≤ staging
  empty : b.current.count = 0 → b.current.totalBytes = 0

theorem Build.fits_init (staging : Nat) : Build.init.Fits staging :=
  ⟨fun _ h => absurd h List.not_mem_nil, Nat.zero_le _, fun _ => rfl⟩

theorem Build.Fits.put {staging slotCap : Nat} {b b' : Build} (h : b.Fits staging)
    {piece : Region × Nat} (hSize : piece.1.size ≤ staging)
    (hPut : b.put staging slotCap piece = some b') : b'.Fits staging := by
  rcases Build.put_cases hPut with ⟨hFull, rfl⟩ | ⟨hStays, rfl⟩
  · refine ⟨?_, (Nat.zero_add _).trans_le hSize, fun hCount => absurd hCount (Nat.succ_ne_zero _)⟩
    intro s hs
    rcases List.mem_append.mp hs with hs | hs
    · exact h.closed s hs
    · rw [List.mem_singleton.mp hs]
      exact ⟨hFull.1, h.room⟩
  · refine ⟨h.closed, ?_, fun hCount => absurd hCount (Nat.succ_ne_zero _)⟩
    dsimp only
    rcases Nat.eq_zero_or_pos b.current.count with hEmpty | hCount
    · rw [h.empty hEmpty, Nat.zero_add]
      exact hSize
    · exact Nat.le_of_not_lt fun hOver => hStays ⟨hCount, hOver⟩

theorem Build.Fits.filled {staging : Nat} {b : Build} (h : b.Fits staging) :
    ∀ s ∈ b.filled, 0 < s.count ∧ s.totalBytes ≤ staging := by
  rw [Build.filled]
  split
  · rename_i hCount
    exact List.forall_mem_append.mpr ⟨h.closed, by simpa using ⟨hCount, h.room⟩⟩
  · exact h.closed

theorem Grouped.nonempty {n : Nat} {slots : List Slot} {groups : List (List Chunk)}
    (h : Grouped n slots groups) (hCount : ∀ s ∈ slots, 0 < s.count) : ∀ g ∈ groups, g ≠ [] := by
  induction slots generalizing n groups with
  | nil =>
      cases groups with
      | nil => exact fun _ hg => absurd hg List.not_mem_nil
      | cons first rest => exact h.elim
  | cons s slots ih =>
      cases groups with
      | nil => exact h.elim
      | cons g groups =>
          obtain ⟨_, hLength, _, hRest⟩ := h
          obtain ⟨hHead, hTail⟩ := List.forall_mem_cons.mp hCount
          exact List.forall_mem_cons.mpr ⟨List.ne_nil_of_length_pos (hLength ▸ hHead), ih hRest hTail⟩

/-- The sub-chunks from `copied` on go on to the end of the range. -/
theorem Resolved.follows_cuts {staging : Nat} (hStaging : 0 < staging) (x : Resolved)
    (fuel copied : Nat) (hCopied : copied ≤ x.size) (hFuel : x.size ≤ fuel + copied) :
    Follows (x.va + copied) ((x.cuts staging fuel copied).map Prod.fst) (x.va + x.size) := by
  induction fuel generalizing copied with
  | zero => exact congrArg (x.va + ·) (by omega)
  | succ fuel ih =>
      rw [Resolved.cuts]
      split
      · refine ⟨rfl, by dsimp only; omega, ?_⟩
        dsimp only
        rw [Nat.add_assoc]
        exact ih _ (by omega) (by omega)
      · exact congrArg (x.va + ·) (by omega)

/-- The sub-chunks of a range, as chunks. -/
theorem copiesRange_of_pieces {t : Table GcrFlags} {staging : Nat} (hStaging : 0 < staging)
    {r : Range Nat} {chunks : List Chunk}
    (h : (chunks.map fun c => (c.toRegion, c.imgAbs)) = pieces t staging r) :
    CopiesRange t r chunks := by
  have hRegions : chunks.map Chunk.toRegion = (pieces t staging r).map Prod.fst := by
    rw [← h, List.map_map]
    rfl
  have hPlaces : ∀ c ∈ chunks, (c.toRegion, c.imgAbs) ∈ pieces t staging r :=
    fun c hc => h ▸ List.mem_map_of_mem hc
  rw [CopiesRange]
  cases hOwner : owner t r with
  | none =>
      rw [pieces, resolve_eq, hOwner, Option.map_none, ite_self] at h
      exact List.map_eq_nil_iff.mp h
  | some own =>
      obtain ⟨e, off⟩ := own
      obtain ⟨i, hFind, he, hOff, _⟩ := owner_cases hOwner
      refine ⟨?_, fun c hc => ?_⟩
      · rw [hRegions, pieces, resolve_eq, hOwner, Option.map_some]
        split
        · have hClipped : clippedTo r e = 0 := by
            rw [clippedTo]
            omega
          rw [hClipped]
          rfl
        · exact Resolved.follows_cuts hStaging
            ⟨⟨r.start, clippedTo r e⟩, off + (r.start - e.va)⟩ _ 0 (Nat.zero_le _) (Nat.le_refl _)
      · obtain ⟨j, f, off', hFind', hf, hOff', _, _, _, hPlace, _⟩ := mem_pieces hStaging (hPlaces c hc)
        cases hFind.symm.trans hFind'
        cases he.symm.trans hf
        cases hOff.symm.trans hOff'
        exact hPlace

/-- The chunks, range by range. -/
theorem parts_of_pieces {t : Table GcrFlags} {staging : Nat} (hStaging : 0 < staging)
    {ranges : List (Range Nat)} {chunks : List Chunk}
    (h : (chunks.map fun c => (c.toRegion, c.imgAbs)) = ranges.flatMap (pieces t staging)) :
    ∃ parts, chunks = parts.flatten ∧ List.Forall₂ (CopiesRange t) ranges parts := by
  induction ranges generalizing chunks with
  | nil => exact ⟨[], List.map_eq_nil_iff.mp h, .nil⟩
  | cons r rest ih =>
      rw [List.flatMap_cons] at h
      obtain ⟨front, back, rfl, hFront, hBack⟩ := List.map_eq_append_iff.mp h
      obtain ⟨parts, rfl, hParts⟩ := ih hBack
      exact ⟨front :: parts, rfl, .cons (copiesRange_of_pieces hStaging hFront) hParts⟩

theorem packs_of_foldlM {t : Table GcrFlags} {staging slotCap : Nat} (hStaging : 0 < staging)
    {ranges : List (Range Nat)} {b : Build}
    (h : ranges.foldlM (Build.addRange t staging (slotCap + 1)) .init = some b) :
    b.Packs t staging ranges := by
  have hFits : b.Fits staging := by
    refine Build.keeps_ranges (fun b _ hFits => ⟨hFits.closed, hFits.room, hFits.empty⟩) ?_
      (Build.fits_init staging) h
    intro piece hPiece b b' hFits hPut
    obtain ⟨r, _, hMem⟩ := List.mem_flatMap.mp hPiece
    exact hFits.put (pieces_le hStaging hMem) hPut
  have hLaid : b.Laid := Build.keeps_ranges (fun _ _ hLaid => hLaid)
    (fun _ _ _ _ hLaid hPut => hLaid.put hPut) Build.laid_init h
  obtain ⟨groups, hChunks, hGrouped⟩ := hLaid.filled
  have hGrows := Build.grows_ranges t hStaging (slotCap + 1) ranges
    (b := .init) ⟨Nat.succ_pos _, by simp [Build.init]⟩
  rw [h] at hGrows
  exact
    { slots := ⟨groups, hChunks, hGrouped, hGrouped.nonempty fun s hs => (hFits.filled s hs).1⟩
      room := fun s hs => (hFits.filled s hs).2
      ranges := parts_of_pieces hStaging hGrows.2.1 }

/-- Some room for the slots is enough. -/
theorem exists_room (t : Table GcrFlags) {staging : Nat} (hStaging : 0 < staging)
    (ranges : List (Range Nat)) : ∃ enough, ∀ slotCap, enough ≤ slotCap →
      ranges.foldlM (Build.addRange t staging (slotCap + 1)) .init ≠ none := by
  refine ⟨NextFit.openings staging 0
    ((ranges.flatMap (pieces t staging)).map fun piece => piece.1.size), ?_⟩
  intro slotCap hEnough hNone
  have hGrows := Build.grows_ranges t hStaging (slotCap + 1) ranges
    (b := .init) ⟨Nat.succ_pos _, by simp [Build.init]⟩
  rw [hNone] at hGrows
  have hOver : slotCap + 1 ≤ 0 + NextFit.openings staging 0
    ((ranges.flatMap (pieces t staging)).map fun piece => piece.1.size) := hGrows
  omega

/-- The loop packs as long as its slots have room, and some room is enough. -/
theorem ranges_packed (cfg : Config) (t : Table GcrFlags) (ranges : List (Range Nat)) :
    (∀ slotCap b, ranges.foldlM (Build.addRange t cfg.staging (slotCap + 1)) .init = some b →
      b.Packs t cfg.staging ranges) ∧
    ∃ enough, ∀ slotCap, enough ≤ slotCap →
      ranges.foldlM (Build.addRange t cfg.staging (slotCap + 1)) .init ≠ none :=
  ⟨fun _ _ h => packs_of_foldlM cfg.staging_pos h, exists_room t cfg.staging_pos ranges⟩

end FlashCkpt.Emul.Gcr
