import FlashCkpt.Restore.InApp
import FlashCkpt.Image.Transfers

/-! In-app restore of v3 images. The reader takes the difference of addresses as
the offset into the GPU section, while the section holds only the pages that
were resident on the GPU. -/
namespace FlashCkpt.Restore

open ByteImage SizeCut Crypto Image Baseline

section Cut

variable {α β : Type} (size : α → Nat) (chunkSize ckptSize : Nat)

theorem cutChunks_map (g : β → α) (bytesDone : Nat) (entries : List β) :
    cutChunks size chunkSize ckptSize bytesDone (entries.map g) =
      (cutChunks (fun b => size (g b)) chunkSize ckptSize bytesDone entries).map
        (List.map (List.map g)) := by
  induction hRest : ckptSize - bytesDone using Nat.strongRecOn generalizing bytesDone entries with
  | ind rest ih =>
      conv_lhs => rw [cutChunks]
      conv_rhs => rw [cutChunks]
      simp only [takeUpTo_map, total_map]
      split
      · split
        · rfl
        · rw [ih _ (by omega) _ _ rfl, Option.map_map, Option.map_map]
          rfl
      · rfl

/-- There is nothing left to cut, or a slice with something in it and those behind it. -/
theorem cutChunks_cases {bytesDone : Nat} {entries : List α} {slices : List (List α)}
    (h : cutChunks size chunkSize ckptSize bytesDone entries = some slices) :
    ckptSize ≤ bytesDone ∧ slices = [] ∨
      bytesDone < ckptSize ∧ ∃ slice left others,
        takeUpTo size (min chunkSize (ckptSize - bytesDone)) 0 entries = (slice, left) ∧
          0 < total size slice ∧
          cutChunks size chunkSize ckptSize (bytesDone + total size slice) left = some others ∧
          slices = slice :: others := by
  rw [cutChunks] at h
  split at h
  · rename_i hMore
    split at h
    · cases h
    · rename_i hTaken
      obtain ⟨others, hOthers, rfl⟩ := Option.map_eq_some_iff.mp h
      exact .inr ⟨hMore, _, _, others, rfl, Nat.pos_of_ne_zero hTaken, hOthers, rfl⟩
  · rename_i hDone
    cases h
    exact .inl ⟨not_lt.mp hDone, rfl⟩

/-- The slices stand at the front of the entries, none is empty, and together
they reach the end of the allocation. -/
theorem cutChunks_spec {bytesDone : Nat} {entries : List α} {slices : List (List α)}
    (h : cutChunks size chunkSize ckptSize bytesDone entries = some slices) :
    (∃ rest, entries = slices.flatten ++ rest) ∧ (∀ s ∈ slices, 0 < total size s) ∧
      ckptSize ≤ bytesDone + total size slices.flatten := by
  induction hRest : ckptSize - bytesDone using Nat.strongRecOn
    generalizing bytesDone entries slices with
  | ind rest ih =>
      rcases cutChunks_cases size chunkSize ckptSize h with
        ⟨hDone, rfl⟩ | ⟨hMore, slice, left, others, hTake, hTaken, hOthers, rfl⟩
      · refine ⟨⟨entries, rfl⟩, by simp, ?_⟩
        rw [List.flatten_nil, total_nil]
        omega
      · obtain ⟨⟨after, hAfter⟩, hPos, hReach⟩ := ih _ (by omega) hOthers rfl
        refine ⟨⟨after, ?_⟩, List.forall_mem_cons.mpr ⟨hTaken, hPos⟩, ?_⟩
        · have hSplit := takeUpTo_append size (min chunkSize (ckptSize - bytesDone)) 0 entries
          rw [hTake] at hSplit
          rw [List.flatten_cons, List.append_assoc, ← hAfter, hSplit]
        · rw [List.flatten_cons, total_append]
          omega

/-- They end with the allocation when it ends between two entries. -/
theorem cutChunks_exact {bytesDone : Nat} {entries : List α} {slices : List (List α)}
    (hDone : bytesDone ≤ ckptSize) (hBoundary : Boundary size entries (ckptSize - bytesDone))
    (h : cutChunks size chunkSize ckptSize bytesDone entries = some slices) :
    bytesDone + total size slices.flatten = ckptSize := by
  induction hRest : ckptSize - bytesDone using Nat.strongRecOn
    generalizing bytesDone entries slices with
  | ind rest ih =>
      rcases cutChunks_cases size chunkSize ckptSize h with
        ⟨hEnded, rfl⟩ | ⟨hMore, slice, left, others, hTake, hTaken, hOthers, rfl⟩
      · rw [List.flatten_nil, total_nil]
        omega
      · obtain ⟨hLe, hNext⟩ := takeUpTo_boundary size hBoundary
          (by omega : min chunkSize (ckptSize - bytesDone) ≤ 0 + (ckptSize - bytesDone))
        rw [hTake] at hLe hNext
        dsimp only at hLe hNext
        have hEnd := ih _ (by omega) (by omega) (by rwa [← Nat.sub_sub]) hOthers rfl
        rw [List.flatten_cons, total_append]
        omega

end Cut

section Transfers

variable (channel : Channel)

variable (memory : ByteImage.Image)

/-- The range of an image that covers an allocation. -/
def findRange (layouts : List RangeLayout) (va size : Nat) : Option RangeLayout :=
  layouts.find? fun l => l.base ≤ va && va + size ≤ l.base + l.length

/-- The offset lies between two transfers. -/
def OnBoundary (l : RangeLayout) (off : Nat) : Prop := Boundary (· * pageSize) l.transfers off

/-- What the reader finds of a range in the file. -/
structure StoredRange (f : BaseFile) (l : RangeLayout) (n : Nat) (d : RangeDesc) : Prop where
  base : d.baseVa = l.base
  metas : rangeMetas f d = (l.pieces memory n).map (pieceMeta channel)
  gpu : read f.data d.gpuOffset (total pieceSize (l.pieces memory n)) =
    (l.pieces memory n).flatMap (pieceCipher channel)
  inside : d.gpuOffset + total pieceSize (l.pieces memory n) ≤ f.size

/-- A range that was captured and stored can be read. -/
theorem storedRange_of_storedAt {f : BaseFile} {l : RangeLayout} {m : Nat} {d : RangeDesc}
    (hStored : StoredAt f.data f.size (l.sections channel memory m) d) :
    StoredRange channel memory f l m d := by
  have hGpuLength : (l.sections channel memory m).gpu.length =
      total pieceSize (l.pieces memory m) := by
    rw [l.gpu_length, total_pieces]
  refine ⟨?_, hStored.metas, ?_, ?_⟩
  · rw [hStored.desc]
    rfl
  · rw [← hGpuLength]
    exact hStored.gpu
  · have hInside := hStored.inside
    have hGpuBytes : d.gpuBytes = total pieceSize (l.pieces memory m) := by
      rw [← hGpuLength, hStored.desc]
      rfl
    simp only [RangeDesc.stop, RangeDesc.metaOffset, hGpuBytes] at hInside
    omega

/-- Every captured range that the table of the file names can be read. -/
theorem stored_of_placed {f : BaseFile} {layouts : List RangeLayout} {n : Nat}
    (hStores : f.Stores (capture channel memory n layouts)) {l : RangeLayout} {m : Nat}
    {d : RangeDesc}
    (h : (l.sections channel memory m, d) ∈ placed (capture channel memory n layouts)
      (dataStart (capture channel memory n layouts).length)) :
    StoredRange channel memory f l m d :=
  storedRange_of_storedAt channel memory (hStores.stored _ h)

/-- The reader finds an allocation's descriptor where the layouts have its range. -/
theorem findDesc_placed (va size : Nat) (layouts : List RangeLayout) (n off : Nat) :
    (findRange layouts va size = none →
      findDesc ((placed (capture channel memory n layouts) off).map Prod.snd) va size = none) ∧
    ∀ l, findRange layouts va size = some l → ∃ m d,
      findDesc ((placed (capture channel memory n layouts) off).map Prod.snd) va size = some d ∧
      (l.sections channel memory m, d) ∈ placed (capture channel memory n layouts) off := by
  induction layouts generalizing n off with
  | nil => exact ⟨fun _ => rfl, fun l h => by cases h⟩
  | cons head rest ih =>
      obtain ⟨hNone, hSome⟩ := ih (n + head.transfers.length)
        ((head.sections channel memory n).descAt off).stop
      by_cases hCover : (decide (head.base ≤ va) &&
          decide (va + size ≤ head.base + head.length)) = true
      · have hFind : findRange (head :: rest) va size = some head := by
          simp only [findRange, List.find?_cons, hCover]
        refine ⟨fun h => absurd (hFind.symm.trans h) (by simp), ?_⟩
        intro l hl
        rw [hFind, Option.some.injEq] at hl
        subst hl
        exact ⟨n, (head.sections channel memory n).descAt off,
          List.find?_cons_of_pos (p := fun d : RangeDesc => d.baseVa ≤ va &&
            va + size ≤ d.baseVa + d.length) hCover, List.mem_cons_self⟩
      · have hFind : findRange (head :: rest) va size = findRange rest va size := by
          simp only [findRange, List.find?_cons, Bool.not_eq_true _ ▸ hCover]
        have hDesc : findDesc ((placed (capture channel memory n (head :: rest)) off).map
            Prod.snd) va size = findDesc ((placed (capture channel memory
              (n + head.transfers.length) rest)
              ((head.sections channel memory n).descAt off).stop).map Prod.snd) va size :=
          List.find?_cons_of_neg (p := fun d : RangeDesc => d.baseVa ≤ va &&
            va + size ≤ d.baseVa + d.length) hCover
        rw [hFind, hDesc]
        refine ⟨hNone, ?_⟩
        intro l hl
        obtain ⟨m, d, hFound, hMem⟩ := hSome l hl
        exact ⟨m, d, hFound, List.mem_cons_of_mem _ hMem⟩

variable {channel memory} {f : BaseFile} {l : RangeLayout} {n : Nat} {d : RangeDesc}

/-- Part of the transfers of a stored range decrypts to its part of the packed
GPU pages. -/
theorem StoredRange.decrypt (h : StoredRange channel memory f l n d)
    {before slice after : List (Nat × Bytes)}
    (hSplit : l.pieces memory n = before ++ (slice ++ after)) (hPos : 0 < total pieceSize slice) :
    decryptEncryptedPages channel f.data (d.gpuOffset + total pieceSize before)
        (total pieceSize slice) (slice.map (pieceMeta channel)) =
      some (((packed memory l.base (pagesOn l.residency .gpu)).drop
        (total pieceSize before)).take (total pieceSize slice)) := by
  have hGpu := h.gpu
  rw [hSplit, total_append, total_append, read_append, read_append, List.flatMap_append,
    List.flatMap_append] at hGpu
  obtain ⟨-, hRest⟩ := List.append_inj hGpu (by rw [read_length, flatMap_cipher_length])
  obtain ⟨hSlice, -⟩ := List.append_inj hRest (by rw [read_length, flatMap_cipher_length])
  have hNotNil : slice ≠ [] := by
    rintro rfl
    simp at hPos
  rw [decryptEncryptedPages, if_neg (by simp [hNotNil]; omega),
    decryptTransfers_eq channel (fun p hp => RangeLayout.piece_size memory
      (hSplit ▸ List.mem_append_right _ (List.mem_append_left _ hp))) (by omega)
      (by rw [Nat.add_zero]; exact hSlice), pieces_slice hSplit]

/-- Between two boundaries the serial path gives a slice of the packed pages. -/
theorem StoredRange.v3Slice_eq (h : StoredRange channel memory f l n d) {offset copySize : Nat}
    (hStart : OnBoundary l offset) (hStop : OnBoundary l (offset + copySize))
    (hPos : 0 < copySize) :
    v3Slice channel f d offset copySize =
      some (((packed memory l.base (pagesOn l.residency .gpu)).drop offset).take copySize) := by
  obtain ⟨before, rest, hSplit, rfl⟩ := (boundary_pieces memory l n offset).mpr hStart
  have hBefore : ∀ p ∈ before, 0 < pieceSize p := fun p hp =>
    piece_pos (hSplit ▸ List.mem_append_left rest hp)
  have hStop' := (boundary_pieces memory l n _).mpr hStop
  rw [hSplit, boundary_drop] at hStop'
  obtain ⟨slice, after, rfl, rfl⟩ := hStop'
  have hSlice : ∀ p ∈ slice, 0 < pieceSize p := fun p hp =>
    piece_pos (hSplit ▸ List.mem_append_right before (List.mem_append_left after hp))
  have hFirst := takeUpTo_exact pieceSize hBefore 0 (slice ++ after)
  have hSecond := takeUpTo_exact pieceSize hSlice 0 after
  rw [Nat.zero_add] at hFirst hSecond
  simp only [v3Slice, h.metas, hSplit, takeUpTo_map, pieceMeta_size, hFirst, hSecond, total_map,
    ne_eq, not_true_eq_false, if_false]
  exact h.decrypt hSplit hPos

/-- The serial path succeeds between two boundaries only. -/
theorem StoredRange.boundaries_of_v3Slice (h : StoredRange channel memory f l n d)
    {offset copySize : Nat} {plain : Bytes}
    (hSome : v3Slice channel f d offset copySize = some plain) :
    OnBoundary l offset ∧ OnBoundary l (offset + copySize) ∧ 0 < copySize := by
  simp only [v3Slice, h.metas, takeUpTo_map, pieceMeta_size, total_map] at hSome
  have hCut := takeUpTo_append pieceSize offset 0 (l.pieces memory n)
  generalize hTake : takeUpTo pieceSize offset 0 (l.pieces memory n) = cut at hSome hCut
  obtain ⟨before, rest⟩ := cut
  dsimp only at hSome hCut
  split at hSome
  · cases hSome
  rename_i hBefore
  rw [not_not] at hBefore
  split at hSome
  · cases hSome
  rename_i hSlice
  rw [not_not] at hSlice
  have hStart : Boundary pieceSize (l.pieces memory n) offset := ⟨before, rest, hCut.symm, hBefore⟩
  have hRest : Boundary pieceSize rest copySize :=
    ⟨_, _, (takeUpTo_append pieceSize copySize 0 rest).symm, hSlice⟩
  have hStop : Boundary pieceSize (l.pieces memory n) (offset + copySize) := by
    rw [← hCut, ← hBefore, boundary_drop]
    exact hRest
  refine ⟨(boundary_pieces memory l n _).mp hStart, (boundary_pieces memory l n _).mp hStop, ?_⟩
  rcases Nat.eq_zero_or_pos copySize with hZero | hPos
  · simp [decryptEncryptedPages, hZero] at hSome
  · exact hPos

/-- Without faults the ring copies the packed pages behind each other, as far as
the allocation reaches. -/
theorem StoredRange.ringApply_eq (h : StoredRange channel memory f l n d) {env : Env}
    (hCopies : ∀ k, env.h2dFault k = none) {slices : List (List (Nat × Bytes))}
    (hPos : ∀ s ∈ slices, 0 < total pieceSize s) {front after : List (Nat × Bytes)}
    (hSplit : l.pieces memory n = front ++ (slices.flatten ++ after)) {offset bytesDone : Nat}
    (hFront : total pieceSize front = offset + bytesDone) (k : Nat) (buffer : Bytes) :
    ringApply channel f env
        (toJobs (d.gpuOffset + offset) bytesDone (slices.map (List.map (pieceMeta channel)))) k
        bytesDone buffer =
      ⟨.restored, splice buffer bytesDone
        ((slices.flatten.flatMap Prod.snd).take (buffer.length - bytesDone))⟩ := by
  induction slices generalizing front bytesDone k buffer with
  | nil => simp [toJobs, ringApply]
  | cons slice rest ih =>
      have hSlice := hPos slice List.mem_cons_self
      rw [List.flatten_cons, List.append_assoc] at hSplit
      have hDecrypt := h.decrypt hSplit hSlice
      have hLength := flatMap_snd_length slice
      rw [← pieces_slice hSplit, hFront, ← Nat.add_assoc] at hDecrypt
      have hNext : ∀ buffer' k', ringApply channel f env (toJobs (d.gpuOffset + offset)
          (bytesDone + total pieceSize slice) (rest.map (List.map (pieceMeta channel)))) k'
          (bytesDone + total pieceSize slice) buffer' = _ := fun buffer' k' =>
        ih (fun s hs => hPos s (List.mem_cons_of_mem slice hs))
          (by rw [hSplit, List.append_assoc] : l.pieces memory n = (front ++ slice) ++ _)
          (by rw [total_append, hFront, Nat.add_assoc]) k' buffer'
      have hCopy : (slice.flatMap Prod.snd).take (if buffer.length <
          bytesDone + total pieceSize slice then buffer.length - bytesDone
          else total pieceSize slice) =
            (slice.flatMap Prod.snd).take (buffer.length - bytesDone) := by
        split
        · rfl
        · rw [List.take_of_length_le (by omega), List.take_of_length_le (by omega)]
      have hReach : (0 < if buffer.length < bytesDone + total pieceSize slice then
          buffer.length - bytesDone else total pieceSize slice) ↔
            0 < buffer.length - bytesDone := by
        split <;> omega
      simp only [List.map_cons, toJobs, ringApply, total_map, pieceMeta_size, hDecrypt, hCopy,
        hReach, Option.getD_some, hCopies, copyH2D, List.flatten_cons, List.flatMap_append, hNext]
      split
      · rw [splice_take_length, ← hLength, splice_take_append]
      · have hOut : buffer.length - bytesDone = 0 := by omega
        rw [hOut, ← Nat.sub_sub, hOut, Nat.zero_sub, List.take_zero, List.take_zero, splice_nil,
          splice_nil]

end Transfers

end FlashCkpt.Restore
