import FlashCkpt.Restore.V3

/-! When the chunks of an allocation fit their slots. A chunk ends with a transfer, so
it is longer than the chunk size unless a transfer ends where the chunk should. -/
namespace FlashCkpt.Restore

open ByteImage SizeCut Crypto Image Baseline

section Cut

variable {α : Type} (size : α → Nat) (chunkSize ckptSize : Nat)

/-- From the bytes done on, a transfer ends with every chunk but the last, and one ends
between the end of the allocation and that of the last chunk. -/
structure FitsFrom (done : Nat) (entries : List α) : Prop where
  inner : ∀ i, done + i * chunkSize < ckptSize → Boundary size entries (i * chunkSize)
  last : ∃ reach, ckptSize ≤ done + reach ∧ done + reach ≤ roundUp ckptSize chunkSize ∧
    Boundary size entries reach

variable {size chunkSize ckptSize}

theorem boundary_zero (entries : List α) : Boundary size entries 0 := ⟨[], entries, rfl, rfl⟩

/-- One chunk that is not the last. -/
theorem fitsFrom_next {done : Nat} {front back : List α} (hFront : total size front = chunkSize)
    (hMore : done + chunkSize ≤ ckptSize) :
    FitsFrom size chunkSize ckptSize done (front ++ back) ↔
      FitsFrom size chunkSize ckptSize (done + chunkSize) back := by
  have hShift : ∀ off, Boundary size (front ++ back) (chunkSize + off) ↔ Boundary size back off :=
    fun off => hFront ▸ boundary_drop size front back off
  constructor
  · rintro ⟨hInner, reach, hReach, hEnd, hLast⟩
    refine ⟨fun i hi => (hShift _).mp ?_, reach - chunkSize, by omega, by omega, (hShift _).mp ?_⟩
    · have hNext : chunkSize + i * chunkSize = (i + 1) * chunkSize := by rw [Nat.succ_mul, Nat.add_comm]
      rw [hNext]
      exact hInner (i + 1) (by omega)
    · rwa [Nat.add_sub_cancel' (by omega)]
  · rintro ⟨hInner, reach, hReach, hEnd, hLast⟩
    refine ⟨fun i hi => ?_, chunkSize + reach, by omega, by omega, (hShift _).mpr hLast⟩
    cases i with
    | zero =>
        rw [Nat.zero_mul]
        exact boundary_zero _
    | succ i =>
        have hNext : (i + 1) * chunkSize = chunkSize + i * chunkSize := by rw [Nat.succ_mul, Nat.add_comm]
        rw [hNext] at hi ⊢
        exact (hShift _).mpr (hInner i (by omega))

/-- The first of the chunks that are left to cut. -/
theorem cutChunks_step {done : Nat} {entries : List α} {slices : List (List α)}
    (h : cutChunks size chunkSize ckptSize done entries = some slices) (hMore : done < ckptSize) :
    ∃ slice left others, slices = slice :: others ∧ entries = slice ++ left ∧
      takeUpTo size (min chunkSize (ckptSize - done)) 0 entries = (slice, left) ∧
        min chunkSize (ckptSize - done) ≤ total size slice ∧ 0 < total size slice ∧
          cutChunks size chunkSize ckptSize (done + total size slice) left = some others := by
  have hEnough : ckptSize - done ≤ total size entries := by
    obtain ⟨⟨after, hAfter⟩, -, hReach⟩ := cutChunks_spec size chunkSize ckptSize h
    rw [hAfter, total_append]
    omega
  have hReaches : min chunkSize (ckptSize - done) ≤
      0 + total size (takeUpTo size (min chunkSize (ckptSize - done)) 0 entries).1 :=
    takeUpTo_reaches size (by omega)
  have hSplit := takeUpTo_append size (min chunkSize (ckptSize - done)) 0 entries
  rcases cutChunks_cases size chunkSize ckptSize h with
    ⟨hDone, -⟩ | ⟨-, slice, left, others, hTake, hTaken, hOthers, rfl⟩
  · exact absurd hMore (not_lt.mpr hDone)
  · rw [hTake, Nat.zero_add] at hReaches
    rw [hTake] at hSplit
    exact ⟨slice, left, others, rfl, hSplit.symm, hTake, hReaches, hTaken, hOthers⟩

/-- Chunks of size zero cannot be cut. -/
theorem cutChunks_grid {done : Nat} {entries : List α} {slices : List (List α)}
    (h : cutChunks size chunkSize ckptSize done entries = some slices) (hMore : done < ckptSize) :
    0 < chunkSize := by
  obtain ⟨slice, left, others, -, -, hCut, -, hPos, -⟩ := cutChunks_step h hMore
  by_contra hZero
  have hStop := (takeUpTo_boundary size (boundary_zero entries)
    (by omega : min chunkSize (ckptSize - done) ≤ 0 + 0)).1
  rw [hCut] at hStop
  exact absurd hPos (Nat.not_lt.mpr hStop)

/-- No chunk is left behind the end. -/
theorem cutChunks_done {done : Nat} {entries : List α} {slices : List (List α)}
    (h : cutChunks size chunkSize ckptSize done entries = some slices) (hDone : ckptSize ≤ done) :
    slices = [] := by
  rcases cutChunks_cases size chunkSize ckptSize h with ⟨-, hNil⟩ | ⟨hMore, -⟩
  · exact hNil
  · exact absurd hMore (not_lt.mpr hDone)

/-- Chunks that start on the grid fit if and only if the transfers end on it. -/
theorem cutChunks_fits (hChunk : 0 < chunkSize) {k : Nat} {entries : List α}
    {slices : List (List α)} (hStart : k * chunkSize ≤ roundUp ckptSize chunkSize)
    (h : cutChunks size chunkSize ckptSize (k * chunkSize) entries = some slices) :
    (∀ s ∈ slices, total size s ≤ chunkSize) ↔
      FitsFrom size chunkSize ckptSize (k * chunkSize) entries := by
  induction hRest : ckptSize - k * chunkSize using Nat.strongRecOn
    generalizing k entries slices with
  | ind rest ih =>
      by_cases hMore : k * chunkSize < ckptSize
      · obtain ⟨slice, left, others, rfl, rfl, hCut, hReaches, hPos, hOthers⟩ := cutChunks_step h hMore
        have hStops : ∀ off, Boundary size (slice ++ left) off →
            min chunkSize (ckptSize - k * chunkSize) ≤ off → total size slice ≤ off := by
          intro off hOff hTarget
          rw [← Nat.zero_add off] at hTarget
          have hStop := (takeUpTo_boundary size hOff hTarget).1
          rwa [hCut] at hStop
        have hNext : (k + 1) * chunkSize = k * chunkSize + chunkSize := Nat.succ_mul k chunkSize
        rw [List.forall_mem_cons]
        by_cases hFull : (k + 1) * chunkSize ≤ ckptSize
        · have hTarget : min chunkSize (ckptSize - k * chunkSize) = chunkSize := by omega
          rw [hTarget] at hReaches hStops
          by_cases hExact : total size slice = chunkSize
          · rw [fitsFrom_next hExact (hNext ▸ hFull), ← hNext]
            rw [hExact, ← hNext] at hOthers
            rw [ih _ (by omega) ((mul_lt_iff_roundUp hChunk).mp hMore) hOthers rfl]
            exact and_iff_right hExact.le
          · -- the chunk is longer, so no transfer ends where it should
            constructor
            · rintro ⟨hFits, -⟩
              omega
            · rintro ⟨hInner, reach, hReach, hEnd, hLast⟩
              have hBoundary : Boundary size (slice ++ left) chunkSize := by
                by_cases hLater : (k + 1) * chunkSize < ckptSize
                · have hOne := hInner 1 (by omega)
                  rwa [Nat.one_mul] at hOne
                · have hRound := roundUp_le hChunk (not_lt.mp hLater)
                  have hHere : reach = chunkSize := by omega
                  exact hHere ▸ hLast
              have hStop := hStops chunkSize hBoundary (le_refl _)
              omega
        · have hTarget : min chunkSize (ckptSize - k * chunkSize) = ckptSize - k * chunkSize := by omega
          rw [hTarget] at hReaches hStops
          rw [cutChunks_done hOthers (by omega)]
          constructor
          · rintro ⟨hFits, -⟩
            refine ⟨fun i hi => ?_, total size slice, by omega, ?_, ⟨slice, left, rfl, rfl⟩⟩
            · have hZero : i = 0 := by
                by_contra hPos
                have hOne := Nat.mul_le_mul_right chunkSize (Nat.one_le_iff_ne_zero.mpr hPos)
                omega
              rw [hZero, Nat.zero_mul]
              exact boundary_zero _
            · have hRound := (mul_lt_iff_roundUp hChunk).mp hMore
              omega
          · rintro ⟨-, reach, hReach, hEnd, hLast⟩
            have hStop := hStops reach hLast (by omega)
            have hRound := roundUp_le hChunk (Nat.le_of_not_le hFull)
            exact ⟨by omega, fun s hs => nomatch hs⟩
      · rw [cutChunks_done h (not_lt.mp hMore)]
        refine ⟨fun _ => ⟨fun i hi => ?_, 0, by omega, hStart, boundary_zero entries⟩, fun _ => nofun⟩
        omega

end Cut

end FlashCkpt.Restore
