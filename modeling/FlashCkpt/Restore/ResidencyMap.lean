import FlashCkpt.Restore.RoundTrip
import FlashCkpt.Restore.V3

/-! When an allocation restored from a v3 image holds what was captured at its
address. The chunked ring and the serial path are exact under different
conditions on the transfers; both need every page from the start of the range to
the end of the copied bytes to have been on the GPU. -/
namespace FlashCkpt.Restore

open ByteImage SizeCut Crypto Image Baseline

/-- The sizes of the ring's jobs, allocation by allocation; none when the jobs of
an allocation cannot be computed. -/
def ringSizes (layouts : List RangeLayout) (allocs : List AllocEntry) (chunkSize : Nat) :
    Option (List (List Nat)) :=
  allocs.mapM fun e =>
    match findRange layouts e.va e.size with
    | none => some []
    | some l => (cutAlloc (· * pageSize) chunkSize (e.va - l.base) e.size l.transfers).map
        (List.map (total (· * pageSize)))

/-- The ring is used when all jobs can be computed, there is one, and the slots
can be allocated. -/
def RingUsed (layouts : List RangeLayout) (allocs : List AllocEntry) (chunkSize : Nat)
    (slotsOk : Bool) : Prop :=
  ∃ sizes, ringSizes layouts allocs chunkSize = some sizes ∧ sizes.flatten ≠ [] ∧ slotsOk = true

/-- One restore from a v3 image: the memory that was captured, and everything
else but the layout of the ranges and the allocations. -/
structure V3Session where
  gcm : Gcm
  channel : Channel
  memory : ByteImage.Image
  firstTransfer : Nat
  pool : Schedule
  old : OldFile
  delta : DeltaFile
  env : Env
  delta_legacy : delta.magic ≠ deltaV4Magic
  env_copies : ∀ k, env.h2dFault k = none

def V3Session.image (x : V3Session) (layouts : List RangeLayout) : BaseFile :=
  streamBaseline 3 (capture x.channel x.memory x.firstTransfer layouts) x.pool x.old.data
    x.old.size

def V3Session.restore (x : V3Session) (layouts : List RangeLayout) (allocs : List AllocEntry)
    (chunkSize : Nat) (slotsOk : Bool) (idx : Nat) (buffer : Bytes) : Option Applied :=
  (restoreInit allocs (x.image layouts) none x.delta none true chunkSize slotsOk).map fun s =>
    restoreApplyAlloc x.gcm x.channel x.env s idx buffer

/-- The allocation after an exact restore: a page that was captured holds its
content, an absent page and the bytes behind the captured ones are left alone. -/
def captured (l : RangeLayout) (memory : ByteImage.Image) (va copySize : Nat) (buffer : Bytes) :
    Bytes :=
  ((List.range copySize).map fun i =>
    if l.residency[(va - l.base + i) / pageSize]? = some .absent then buffer.getD i 0
    else memory (va + i)) ++ buffer.drop copySize

/-- Whatever the memory was, the restored allocation holds what was captured. -/
def FillsExactly (layouts : List RangeLayout) (allocs : List AllocEntry) (chunkSize : Nat)
    (slotsOk : Bool) (idx : Nat) (l : RangeLayout) (e : AllocEntry) (newSize : Nat) : Prop :=
  ∀ (x : V3Session) (buffer : Bytes), buffer.length = newSize →
    x.restore layouts allocs chunkSize slotsOk idx buffer =
      some ⟨.restored, captured l x.memory e.va (min e.size newSize) buffer⟩

/-- The condition on layout, allocation and new size. -/
def Honoured (layouts : List RangeLayout) (allocs : List AllocEntry) (chunkSize : Nat)
    (slotsOk : Bool) (l : RangeLayout) (e : AllocEntry) (newSize : Nat) : Prop :=
  let offset := e.va - l.base
  let copySize := min e.size newSize
  (RingUsed layouts allocs chunkSize slotsOk →
    (∀ sizes, ringSizes layouts allocs chunkSize = some sizes →
      ∀ s ∈ sizes.flatten, s ≤ chunkSize) ∧
    (copySize = 0 ∨ GpuUpTo l (offset + copySize)) ∧
    (newSize ≤ e.size ∨ OnBoundary l (offset + e.size))) ∧
  (¬RingUsed layouts allocs chunkSize slotsOk →
    0 < copySize ∧ OnBoundary l offset ∧ OnBoundary l (offset + copySize) ∧
      GpuUpTo l (offset + copySize))

theorem mapM_map_eq {α β γ : Type} {F : α → Option β} {G : α → Option γ} {g : β → γ} {l : List α}
    (h : ∀ a ∈ l, (F a).map g = G a) : (l.mapM F).map (List.map g) = l.mapM G := by
  induction l with
  | nil => rfl
  | cons a rest ih =>
      rw [List.mapM_cons, List.mapM_cons, ← h a List.mem_cons_self,
        ← ih fun b hb => h b (List.mem_cons_of_mem a hb)]
      cases F a with
      | none => rfl
      | some b => cases rest.mapM F <;> rfl

theorem mapM_getElem? {α β : Type} {F : α → Option β} {l : List α} {results : List β}
    (h : l.mapM F = some results) {i : Nat} {a : α} (ha : l[i]? = some a) :
    ∃ b, F a = some b ∧ results[i]? = some b := by
  induction l generalizing results i with
  | nil => simp at ha
  | cons first rest ih =>
      rw [List.mapM_cons] at h
      simp only [Option.bind_eq_bind, Option.bind_eq_some_iff, Option.pure_def,
        Option.some.injEq] at h
      obtain ⟨b, hb, others, hOthers, rfl⟩ := h
      cases i with
      | zero =>
          rw [List.getElem?_cons_zero, Option.some.injEq] at ha
          subst ha
          exact ⟨b, hb, rfl⟩
      | succ i => exact ih hOthers ha

section Jobs

variable {channel : Channel} {memory : ByteImage.Image} {f : BaseFile}

theorem cutAlloc_map {α β : Type} (size : α → Nat) (chunkSize offset ckptSize : Nat) (g : β → α)
    (entries : List β) :
    cutAlloc size chunkSize offset ckptSize (entries.map g) =
      (cutAlloc (fun b => size (g b)) chunkSize offset ckptSize entries).map
        (List.map (List.map g)) := by
  simp only [cutAlloc, takeUpTo_map, total_map]
  split
  · rfl
  · exact cutChunks_map size chunkSize ckptSize g 0 _

theorem toJobs_byteSize (cipherStart bytesDone : Nat) (slices : List (List CryptoMeta)) :
    (toJobs cipherStart bytesDone slices).map ChunkJob.byteSize =
      slices.map (total CryptoMeta.size) := by
  induction slices generalizing bytesDone with
  | nil => rfl
  | cons slice rest ih => rw [toJobs, List.map_cons, List.map_cons, ih]

/-- The slices of pieces and of transfers have the same sizes. -/
theorem cutAlloc_sizes (memory : ByteImage.Image) (l : RangeLayout) (n chunkSize offset ckptSize : Nat) :
    (cutAlloc pieceSize chunkSize offset ckptSize (l.pieces memory n)).map
        (List.map (total pieceSize)) =
      (cutAlloc (· * pageSize) chunkSize offset ckptSize l.transfers).map
        (List.map (total (· * pageSize))) := by
  have hPieces := cutAlloc_map (fun k : Nat => k) chunkSize offset ckptSize pieceSize
    (l.pieces memory n)
  have hTransfers := cutAlloc_map (fun k : Nat => k) chunkSize offset ckptSize (· * pageSize)
    l.transfers
  have hSizes : (l.pieces memory n).map pieceSize = l.transfers.map (· * pageSize) :=
    l.pieces_map_length memory n
  rw [hSizes] at hPieces
  have hBoth := congrArg (Option.map (List.map List.sum)) (hPieces.symm.trans hTransfers)
  simp only [Option.map_map, Function.comp_def, List.map_map] at hBoth
  exact hBoth

theorem allocJobs_sizes {layouts : List RangeLayout} {n : Nat}
    (hStores : f.Stores (capture channel memory n layouts)) (chunkSize : Nat) (e : AllocEntry) :
    (allocJobs f chunkSize e).map (List.map ChunkJob.byteSize) =
      match findRange layouts e.va e.size with
      | none => some []
      | some l => (cutAlloc (· * pageSize) chunkSize (e.va - l.base) e.size l.transfers).map
          (List.map (total (· * pageSize))) := by
  obtain ⟨hNone, hSome⟩ := findDesc_placed channel memory e.va e.size layouts n
    (dataStart (capture channel memory n layouts).length)
  rw [← hStores.descs] at hNone hSome
  cases hFind : findRange layouts e.va e.size with
  | none =>
      rw [allocJobs, hNone hFind]
      rfl
  | some l =>
      obtain ⟨m, d, hDesc, hMem⟩ := hSome l hFind
      have hRange := stored_of_placed channel memory hStores hMem
      dsimp only
      rw [← cutAlloc_sizes memory l m, allocJobs, hDesc]
      simp only [hRange.base, hRange.metas, cutAlloc_map, pieceMeta_size, Option.map_map]
      congr 1
      funext slices
      simp only [Function.comp_apply, toJobs_byteSize, List.map_map]
      apply List.map_congr_left
      intro slice _
      rw [Function.comp_apply, total_map, pieceMeta_size]

theorem mapM_allocJobs {layouts : List RangeLayout} {n : Nat}
    (hStores : f.Stores (capture channel memory n layouts)) (chunkSize : Nat)
    (allocs : List AllocEntry) :
    (allocs.mapM (allocJobs f chunkSize)).map (List.map (List.map ChunkJob.byteSize)) =
      ringSizes layouts allocs chunkSize :=
  mapM_map_eq fun e _ => allocJobs_sizes hStores chunkSize e

/-- The ring of the reader is the one the layouts promise. -/
theorem poolInit_cases {layouts : List RangeLayout} {n : Nat}
    (hStores : f.Stores (capture channel memory n layouts)) (chunkSize : Nat)
    (allocs : List AllocEntry) (slotsOk : Bool) :
    (¬RingUsed layouts allocs chunkSize slotsOk ∧ poolInit f allocs chunkSize slotsOk = none) ∨
      (RingUsed layouts allocs chunkSize slotsOk ∧ ∃ jobs,
        poolInit f allocs chunkSize slotsOk = some jobs ∧
        allocs.mapM (allocJobs f chunkSize) = some jobs ∧
        ringSizes layouts allocs chunkSize = some (jobs.map (List.map ChunkJob.byteSize))) := by
  have hSizes := mapM_allocJobs hStores chunkSize allocs
  unfold poolInit RingUsed
  cases hJobs : allocs.mapM (allocJobs f chunkSize) with
  | none =>
      rw [hJobs, Option.map_none] at hSizes
      left
      simp [← hSizes]
  | some jobs =>
      rw [hJobs, Option.map_some] at hSizes
      have hFlat : (jobs.map (List.map ChunkJob.byteSize)).flatten = [] ↔ jobs.flatten = [] := by
        rw [← List.map_flatten, List.map_eq_nil_iff]
      simp only [← hSizes, Option.some.injEq, exists_eq_left', hFlat, ne_eq]
      by_cases hUsed : jobs.flatten = [] ∨ slotsOk = false
      · left
        refine ⟨?_, ?_⟩
        · rintro ⟨hNotNil, hOk⟩
          rcases hUsed with hNil | hBad
          · exact hNotNil hNil
          · rw [hOk] at hBad
            cases hBad
        · rw [if_pos (by simpa using hUsed)]
      · right
        rw [not_or, Bool.not_eq_false] at hUsed
        refine ⟨hUsed, jobs, ?_, rfl, rfl⟩
        rw [if_neg (by simp [hUsed.1, hUsed.2])]

/-- The jobs of an allocation start at its offset and reach its end, exactly so
when it ends between two transfers. -/
theorem cutAlloc_spec {l : RangeLayout} {n chunkSize offset ckptSize : Nat}
    {slices : List (List (Nat × Bytes))}
    (h : cutAlloc pieceSize chunkSize offset ckptSize (l.pieces memory n) = some slices) :
    ∃ front after, l.pieces memory n = front ++ (slices.flatten ++ after) ∧
      total pieceSize front = offset ∧ (∀ s ∈ slices, 0 < total pieceSize s) ∧
      ckptSize ≤ total pieceSize slices.flatten ∧
      (OnBoundary l (offset + ckptSize) ↔ total pieceSize slices.flatten = ckptSize) := by
  have hCut := takeUpTo_append pieceSize offset 0 (l.pieces memory n)
  unfold cutAlloc at h
  generalize takeUpTo pieceSize offset 0 (l.pieces memory n) = cut at h hCut
  obtain ⟨front, rest⟩ := cut
  dsimp only at h hCut
  split at h
  · cases h
  rename_i hFront
  rw [not_not] at hFront
  obtain ⟨⟨after, rfl⟩, hPos, hReach⟩ := cutChunks_spec pieceSize chunkSize ckptSize h
  rw [Nat.zero_add] at hReach
  refine ⟨front, after, hCut.symm, hFront, hPos, hReach, ?_⟩
  rw [OnBoundary, ← boundary_pieces memory l n, ← hCut, ← hFront, boundary_drop]
  refine ⟨fun hBoundary => ?_, fun hTotal => ⟨_, _, rfl, hTotal⟩⟩
  have hExact := cutChunks_exact pieceSize chunkSize ckptSize (Nat.zero_le _) hBoundary h
  rwa [Nat.zero_add] at hExact

end Jobs

theorem findRange_covers {layouts : List RangeLayout} {va size : Nat} {l : RangeLayout}
    (h : findRange layouts va size = some l) : l.base ≤ va ∧ va + size ≤ l.base + l.length := by
  have hCover := List.find?_some h
  simpa only [Bool.and_eq_true, decide_eq_true_eq] using hCover

section Content

variable {l : RangeLayout} {memory : ByteImage.Image}

/-- Where the range was on the GPU up to the end of the copied bytes, the packed
pages hold what was captured. -/
theorem packed_slice {offset copySize : Nat} (h : GpuUpTo l (offset + copySize)) :
    ((packed memory l.base (pagesOn l.residency .gpu)).drop offset).take copySize =
      read memory (l.base + offset) copySize := by
  rw [List.take_drop, packed_take memory h, read_append, List.drop_left' (read_length _ _ _)]

/-- Where no page is absent, an exact restore copies all bytes. -/
theorem captured_of_present {va copySize : Nat}
    (h : ∀ i < copySize, l.residency[(va - l.base + i) / pageSize]? ≠ some .absent)
    (buffer : Bytes) :
    captured l memory va copySize buffer = read memory va copySize ++ buffer.drop copySize := by
  unfold captured
  congr 1
  apply List.map_congr_left
  intro i hi
  rw [if_neg (h i (List.mem_range.mp hi))]

theorem captured_eq {va copySize : Nat}
    (h : GpuUpTo l (va - l.base + copySize)) (buffer : Bytes) :
    captured l memory va copySize buffer = read memory va copySize ++ buffer.drop copySize := by
  apply captured_of_present
  intro i hi
  have hGpu := h ((va - l.base + i) / pageSize) (by simp only [pageSize]; omega)
  rw [hGpu]
  simp

theorem captured_getElem? {va copySize i : Nat} (hi : i < copySize) (buffer : Bytes) :
    (captured l memory va copySize buffer)[i]? =
      some (if l.residency[(va - l.base + i) / pageSize]? = some .absent then buffer.getD i 0
        else memory (va + i)) := by
  rw [captured, List.getElem?_append_left (by simpa using hi), List.getElem?_map,
    List.getElem?_range hi, Option.map_some]

/-- If the last byte read is the one at its own address whatever the memory
holds, every earlier page was on the GPU. -/
theorem gpuUpTo_of_last {stop : Nat} (hPos : 0 < stop)
    (hInside : stop ≤ (pagesOn l.residency .gpu).length * pageSize)
    (h : ∀ memory : ByteImage.Image,
      (packed memory l.base (pagesOn l.residency .gpu))[stop - 1]? =
        some (if l.residency[(stop - 1) / pageSize]? = some .absent then 0
          else memory (l.base + (stop - 1)))) :
    GpuUpTo l stop := by
  have hIndex : (stop - 1) / pageSize < (pagesOn l.residency .gpu).length := by
    simp only [pageSize] at hInside ⊢
    omega
  obtain ⟨p, hp⟩ : ∃ p, (pagesOn l.residency .gpu)[(stop - 1) / pageSize]? = some p :=
    ⟨_, List.getElem?_eq_getElem hIndex⟩
  have hSame : p = (stop - 1) / pageSize := by
    by_contra hMoved
    have hByte := h fun a =>
      if a = l.base + p * pageSize + (stop - 1) % pageSize then 1 else 0
    rw [packed_getElem?, hp, Option.map_some, if_pos rfl, Option.some.injEq] at hByte
    have hOther : ¬l.base + (stop - 1) = l.base + p * pageSize + (stop - 1) % pageSize := by
      simp only [pageSize] at hMoved ⊢
      omega
    rw [if_neg hOther, ite_self] at hByte
    exact absurd hByte (by decide)
  intro q hq
  rw [hSame] at hp
  apply pagesOn_fixed hp
  simp only [pageSize] at hq ⊢
  omega

/-- The same from restored allocations: their last copied byte is a byte of the
packed pages. -/
theorem gpuUpTo_of_captured (newSize : Nat) {va copySize : Nat} (hLow : l.base ≤ va)
    (hPos : 0 < copySize)
    (hInside : va - l.base + copySize ≤ (pagesOn l.residency .gpu).length * pageSize)
    (h : ∀ memory : ByteImage.Image,
      (captured l memory va copySize (List.replicate newSize 0))[copySize - 1]? =
        (packed memory l.base (pagesOn l.residency .gpu))[va - l.base + (copySize - 1)]?) :
    GpuUpTo l (va - l.base + copySize) := by
  apply gpuUpTo_of_last (by omega) hInside
  intro memory
  have hIndex : va - l.base + copySize - 1 = va - l.base + (copySize - 1) := by omega
  have hAddress : l.base + (va - l.base + (copySize - 1)) = va + (copySize - 1) := by omega
  have hZero : (List.replicate newSize (0 : UInt8)).getD (copySize - 1) 0 = 0 := by
    rw [List.getD_eq_getElem?_getD, List.getElem?_replicate]
    split <;> rfl
  rw [hIndex, ← h memory, captured_getElem? (by omega), hZero, hAddress]

end Content

section Sessions

variable (x : V3Session) {layouts : List RangeLayout} {allocs : List AllocEntry}
  {chunkSize : Nat} {slotsOk : Bool} {idx : Nat} {l : RangeLayout} {e : AllocEntry}

theorem V3Session.image_stores (layouts : List RangeLayout) :
    (x.image layouts).Stores (capture x.channel x.memory x.firstTransfer layouts) :=
  streamBaseline_stores 3 (capture_fits x.channel x.memory x.firstTransfer layouts) x.pool
    x.old.data x.old.size

/-- The state of the restarted application. -/
def V3Session.state (layouts : List RangeLayout) (allocs : List AllocEntry) (chunkSize : Nat)
    (slotsOk : Bool) : State where
  allocs := allocs
  base := x.image layouts
  key := []
  delta := none
  staticImg := none
  chunkSize := chunkSize
  ring := poolInit (x.image layouts) allocs chunkSize slotsOk

theorem V3Session.restore_eq (hTable : allocs.length ≤ gateAllocMax)
    (hEntry : allocs[idx]? = some e) (buffer : Bytes) :
    x.restore layouts allocs chunkSize slotsOk idx buffer =
      some (restoreApplyAlloc x.gcm x.channel x.env
        (x.state layouts allocs chunkSize slotsOk) idx buffer) := by
  have hNotNil : ¬(allocs = [] ∨ gateAllocMax < allocs.length) := by
    rintro (rfl | hLong)
    · simp at hEntry
    · omega
  have hLegacy : ¬(x.delta.magic = deltaV4Magic ∧ x.delta.version = 4 ∧ x.delta.blocks ≠ []) :=
    fun h => x.delta_legacy h.1
  have hVersion : (x.image layouts).version = 3 := rfl
  simp only [V3Session.restore, restoreInit, if_neg hNotNil, hVersion, if_neg hLegacy,
    Bool.not_true, Bool.false_eq_true, and_false, if_false, Nat.reduceEqDiff, false_and, if_true,
    Option.map_some, Option.getD_none]
  rfl

/-- The descriptor of an allocation in the image. -/
theorem V3Session.exists_desc (hFind : findRange layouts e.va e.size = some l) :
    ∃ m d, findDesc (x.image layouts).descs e.va e.size = some d ∧
      StoredRange x.channel x.memory (x.image layouts) l m d := by
  obtain ⟨m, d, hDesc, hMem⟩ := (findDesc_placed x.channel x.memory e.va e.size layouts
    x.firstTransfer _).2 l hFind
  refine ⟨m, d, ?_, stored_of_placed x.channel x.memory (x.image_stores layouts) hMem⟩
  rw [(x.image_stores layouts).descs]
  exact hDesc

/-- The serial path of a session. -/
theorem V3Session.restore_serial (hTable : allocs.length ≤ gateAllocMax)
    (hEntry : allocs[idx]? = some e) (hFind : findRange layouts e.va e.size = some l)
    (hRing : ¬RingUsed layouts allocs chunkSize slotsOk) (buffer : Bytes) :
    ∃ m d, findDesc (x.image layouts).descs e.va e.size = some d ∧
      StoredRange x.channel x.memory (x.image layouts) l m d ∧
      x.restore layouts allocs chunkSize slotsOk idx buffer = some
        (if (x.image layouts).size < d.gpuOffset + (e.va - l.base) + min e.size buffer.length then
          ⟨.passthrough, buffer⟩
        else finishH2D none buffer
          (v3Slice x.channel (x.image layouts) d (e.va - l.base) (min e.size buffer.length))) := by
  obtain ⟨m, d, hDesc, hStored⟩ := x.exists_desc hFind
  refine ⟨m, d, hDesc, hStored, ?_⟩
  rcases poolInit_cases (x.image_stores layouts) chunkSize allocs slotsOk with
    ⟨-, hNone⟩ | ⟨hUsed, -⟩
  · rw [x.restore_eq hTable hEntry]
    have hOverlay : overlayDelta x.gcm [] none e.va (min e.size buffer.length) = some := rfl
    simp only [restoreApplyAlloc, V3Session.state, hEntry, Option.bind_none, hDesc, hStored.base,
      hNone, baseStaging, show (x.image layouts).version = 3 from rfl, if_true, x.env_copies,
      hOverlay, Option.bind_fun_some]
  · exact absurd hUsed hRing

/-- The ring of a session. -/
theorem V3Session.restore_ring (hTable : allocs.length ≤ gateAllocMax)
    (hEntry : allocs[idx]? = some e) (hFind : findRange layouts e.va e.size = some l)
    (hRing : RingUsed layouts allocs chunkSize slotsOk) (buffer : Bytes) :
    ∃ m d slices sizes, StoredRange x.channel x.memory (x.image layouts) l m d ∧
      cutAlloc pieceSize chunkSize (e.va - l.base) e.size (l.pieces x.memory m) = some slices ∧
      ringSizes layouts allocs chunkSize = some sizes ∧
      x.restore layouts allocs chunkSize slotsOk idx buffer = some
        (if (x.image layouts).size < d.gpuOffset + (e.va - l.base) + min e.size buffer.length then
          ⟨.passthrough, buffer⟩
        else if ∃ s ∈ sizes.flatten, chunkSize < s then ⟨.overrun, buffer⟩
        else ringApply x.channel (x.image layouts) x.env (toJobs (d.gpuOffset + (e.va - l.base)) 0
          (slices.map (List.map (pieceMeta x.channel)))) 0 0 buffer) := by
  obtain ⟨m, d, hDesc, hStored⟩ := x.exists_desc hFind
  rcases poolInit_cases (x.image_stores layouts) chunkSize allocs slotsOk with
    ⟨hNot, -⟩ | ⟨-, jobs, hPool, hJobs, hSizes⟩
  · exact absurd hRing hNot
  obtain ⟨mine, hMine, hGet⟩ := mapM_getElem? hJobs hEntry
  simp only [allocJobs, hDesc, hStored.base, hStored.metas, cutAlloc_map, pieceMeta_size,
    Option.map_map, Option.map_eq_some_iff] at hMine
  obtain ⟨slices, hSlices, rfl⟩ := hMine
  refine ⟨m, d, slices, _, hStored, hSlices, hSizes, ?_⟩
  rw [x.restore_eq hTable hEntry]
  have hOver : (jobs.flatten.any fun job => decide (chunkSize < job.byteSize)) = true ↔
      ∃ s ∈ (jobs.map (List.map ChunkJob.byteSize)).flatten, chunkSize < s := by
    rw [← List.map_flatten, List.any_eq_true]
    refine ⟨?_, ?_⟩
    · rintro ⟨job, hJob, hLarge⟩
      exact ⟨job.byteSize, List.mem_map_of_mem hJob, by simpa using hLarge⟩
    · rintro ⟨_, hSize, hLarge⟩
      obtain ⟨job, hJob, rfl⟩ := List.mem_map.mp hSize
      exact ⟨job, hJob, by simpa using hLarge⟩
  simp only [restoreApplyAlloc, V3Session.state, hEntry, Option.bind_none, hDesc, hStored.base,
    hPool, hOver, List.getD_eq_getElem?_getD, hGet, Option.getD_some, Function.comp_apply]

/-- A session over given memory, with nothing encrypted. -/
def clearSession (memory : ByteImage.Image) : V3Session where
  gcm := Gcm.clear
  channel := Channel.clear
  memory := memory
  firstTransfer := 0
  pool := ⟨id, List.Perm.refl⟩
  old := ⟨fun _ => 0, 0⟩
  delta := ⟨0xDE17A001, 1, [], fun _ => 0, 0⟩
  env := ⟨fun _ => none, fun _ => []⟩
  delta_legacy := by decide
  env_copies := clearEnv_copies

theorem finishH2D_restored {buffer out : Bytes} {staging : Option Bytes}
    (h : finishH2D none buffer staging = ⟨.restored, out⟩) :
    ∃ plain, staging = some plain ∧ out = plain ++ buffer.drop plain.length := by
  cases staging with
  | none => simp [finishH2D] at h
  | some plain =>
      refine ⟨plain, rfl, ?_⟩
      simp only [finishH2D, copyH2D, splice, List.take_zero, List.nil_append, Nat.zero_add,
        Applied.mk.injEq] at h
      exact h.2.symm

/-- The end of the copied bytes inside the GPU section. -/
theorem StoredRange.inside_of_le {channel : Channel} {memory : ByteImage.Image} {f : BaseFile}
    {m : Nat} {d : RangeDesc} (h : StoredRange channel memory f l m d) {stop : Nat}
    (hStop : stop ≤ total pieceSize (l.pieces memory m)) : ¬f.size < d.gpuOffset + stop := by
  have := h.inside
  omega

/-- The serial path restores exactly what was captured if the condition holds. -/
theorem fills_serial (hTable : allocs.length ≤ gateAllocMax) (hEntry : allocs[idx]? = some e)
    (hFind : findRange layouts e.va e.size = some l)
    (hRing : ¬RingUsed layouts allocs chunkSize slotsOk) {buffer : Bytes}
    (hPos : 0 < min e.size buffer.length) (hStart : OnBoundary l (e.va - l.base))
    (hStop : OnBoundary l (e.va - l.base + min e.size buffer.length))
    (hGpu : GpuUpTo l (e.va - l.base + min e.size buffer.length)) :
    x.restore layouts allocs chunkSize slotsOk idx buffer =
      some ⟨.restored, captured l x.memory e.va (min e.size buffer.length) buffer⟩ := by
  obtain ⟨m, d, -, hStored, hRestore⟩ := x.restore_serial hTable hEntry hFind hRing buffer
  have hLow := (findRange_covers hFind).1
  have hInside := hStored.inside_of_le
    (boundary_le pieceSize ((boundary_pieces x.memory l m _).mpr hStop))
  rw [hRestore, Nat.add_assoc, if_neg hInside, hStored.v3Slice_eq hStart hStop hPos,
    packed_slice hGpu, captured_eq hGpu, show l.base + (e.va - l.base) = e.va by omega]
  simp [finishH2D, copyH2D, splice]

/-- The ring restores exactly what was captured if the condition holds. -/
theorem fills_ring (hTable : allocs.length ≤ gateAllocMax) (hEntry : allocs[idx]? = some e)
    (hFind : findRange layouts e.va e.size = some l)
    (hRing : RingUsed layouts allocs chunkSize slotsOk) {buffer : Bytes}
    (hSmall : ∀ sizes, ringSizes layouts allocs chunkSize = some sizes →
      ∀ s ∈ sizes.flatten, s ≤ chunkSize)
    (hGpu : min e.size buffer.length = 0 ∨
      GpuUpTo l (e.va - l.base + min e.size buffer.length))
    (hStop : buffer.length ≤ e.size ∨ OnBoundary l (e.va - l.base + e.size)) :
    x.restore layouts allocs chunkSize slotsOk idx buffer =
      some ⟨.restored, captured l x.memory e.va (min e.size buffer.length) buffer⟩ := by
  obtain ⟨m, d, slices, sizes, hStored, hCut, hSizes, hRestore⟩ :=
    x.restore_ring hTable hEntry hFind hRing buffer
  obtain ⟨front, after, hSplit, hFront, hPos, hReach, hExact⟩ := cutAlloc_spec hCut
  have hLow := (findRange_covers hFind).1
  have hTotal : total pieceSize (l.pieces x.memory m) =
      e.va - l.base + (total pieceSize slices.flatten + total pieceSize after) := by
    rw [hSplit, total_append, total_append, hFront]
  have hInside := hStored.inside_of_le
    (by omega : e.va - l.base + min e.size buffer.length ≤ total pieceSize (l.pieces x.memory m))
  have hFits : ¬∃ s ∈ sizes.flatten, chunkSize < s := by
    rintro ⟨s, hMem, hLarge⟩
    have := hSmall sizes hSizes s hMem
    omega
  have hRun := hStored.ringApply_eq x.env_copies hPos hSplit
    (by rw [hFront, Nat.add_zero] : total pieceSize front = e.va - l.base + 0) 0 buffer
  have hCopied : min (buffer.length - 0) (total pieceSize slices.flatten) =
      min e.size buffer.length := by
    rcases hStop with hShort | hBoundary
    · omega
    · have := hExact.mp hBoundary
      omega
  rw [hRestore, Nat.add_assoc, if_neg hInside, if_neg hFits, hRun, pieces_slice hSplit, hFront,
    List.take_take, hCopied]
  rcases hGpu with hZero | hGpu
  · simp [hZero, captured]
  · rw [packed_slice hGpu, captured_eq hGpu, show l.base + (e.va - l.base) = e.va by omega, splice,
      List.take_zero, List.nil_append, read_length, Nat.zero_add]

/-- What an exact serial restore says of the layout. -/
theorem honoured_serial (hTable : allocs.length ≤ gateAllocMax) (hEntry : allocs[idx]? = some e)
    (hFind : findRange layouts e.va e.size = some l)
    (hRing : ¬RingUsed layouts allocs chunkSize slotsOk) {newSize : Nat}
    (hFills : FillsExactly layouts allocs chunkSize slotsOk idx l e newSize) :
    0 < min e.size newSize ∧ OnBoundary l (e.va - l.base) ∧
      OnBoundary l (e.va - l.base + min e.size newSize) ∧
      GpuUpTo l (e.va - l.base + min e.size newSize) := by
  have hLow := (findRange_covers hFind).1
  -- every memory gives the boundaries, and the bytes of one slice of the packed pages
  have hSlice : ∀ memory : ByteImage.Image, OnBoundary l (e.va - l.base) ∧
      OnBoundary l (e.va - l.base + min e.size newSize) ∧ 0 < min e.size newSize ∧
      captured l memory e.va (min e.size newSize) (List.replicate newSize 0) =
        ((packed memory l.base (pagesOn l.residency .gpu)).drop (e.va - l.base)).take
          (min e.size newSize) ++ (List.replicate newSize 0).drop (min e.size newSize) := by
    intro memory
    obtain ⟨m, d, -, hStored, hRestore⟩ := (clearSession memory).restore_serial hTable hEntry hFind
      hRing (List.replicate newSize 0)
    rw [hFills (clearSession memory) (List.replicate newSize 0) List.length_replicate,
      List.length_replicate, Option.some.injEq] at hRestore
    split at hRestore
    · cases hRestore
    obtain ⟨plain, hPlain, hOut⟩ := finishH2D_restored hRestore.symm
    obtain ⟨hStart, hStop, hPos⟩ := hStored.boundaries_of_v3Slice hPlain
    rw [hStored.v3Slice_eq hStart hStop hPos, Option.some.injEq] at hPlain
    have hBound := boundary_le pieceSize ((boundary_pieces memory l m _).mpr hStop)
    rw [total_pieces, ← packed_length memory l.base] at hBound
    have hLength : plain.length = min e.size newSize := by
      rw [← hPlain, List.length_take, List.length_drop]
      exact Nat.min_eq_left (by
        show _ ≤ (packed memory l.base (pagesOn l.residency .gpu)).length - _
        omega)
    refine ⟨hStart, hStop, hPos, ?_⟩
    rw [hLength, ← hPlain] at hOut
    exact hOut
  obtain ⟨hStart, hStop, hPos, -⟩ := hSlice fun _ => 0
  have hBound := boundary_le pieceSize ((boundary_pieces (fun _ => 0) l 0 _).mpr hStop)
  rw [total_pieces] at hBound
  refine ⟨hPos, hStart, hStop, gpuUpTo_of_captured newSize hLow hPos hBound ?_⟩
  intro memory
  rw [(hSlice memory).2.2.2, List.getElem?_append_left, List.getElem?_take_of_lt (by omega),
    List.getElem?_drop]
  rw [List.length_take, List.length_drop, packed_length]
  omega

/-- A ring that fills the allocation exactly leaves in it the packed pages of the layout, as far as
its slots reach, and no slot is larger than a chunk. -/
theorem ring_captured (hTable : allocs.length ≤ gateAllocMax) (hEntry : allocs[idx]? = some e)
    (hFind : findRange layouts e.va e.size = some l)
    (hRing : RingUsed layouts allocs chunkSize slotsOk) {newSize : Nat}
    (hFills : FillsExactly layouts allocs chunkSize slotsOk idx l e newSize)
    (memory : ByteImage.Image) :
    (∀ sizes, ringSizes layouts allocs chunkSize = some sizes →
      ∀ s ∈ sizes.flatten, s ≤ chunkSize) ∧
    ∃ reach, e.size ≤ reach ∧ (OnBoundary l (e.va - l.base + e.size) ↔ reach = e.size) ∧
      e.va - l.base + reach ≤ (pagesOn l.residency .gpu).length * pageSize ∧
      captured l memory e.va (min e.size newSize) (List.replicate newSize 0) =
        ((packed memory l.base (pagesOn l.residency .gpu)).drop (e.va - l.base)).take
          (min newSize reach) ++ (List.replicate newSize 0).drop (min newSize reach) := by
  obtain ⟨m, d, slices, sizes, hStored, hCut, hSizes, hRestore⟩ :=
    (clearSession memory).restore_ring hTable hEntry hFind hRing (List.replicate newSize 0)
  rw [hFills (clearSession memory) (List.replicate newSize 0) List.length_replicate,
    List.length_replicate, Option.some.injEq] at hRestore
  obtain ⟨front, after, hSplit, hFront, hPos, hReach, hExact⟩ := cutAlloc_spec hCut
  split at hRestore
  · cases hRestore
  split at hRestore
  · cases hRestore
  rename_i hSmall
  have hRun := hStored.ringApply_eq (clearSession memory).env_copies hPos hSplit
    (by rw [hFront, Nat.add_zero] : total pieceSize front = e.va - l.base + 0) 0
    (List.replicate newSize 0)
  rw [hRun, pieces_slice hSplit, hFront, List.take_take, List.length_replicate, Nat.sub_zero,
    Applied.mk.injEq] at hRestore
  have hTotal := total_pieces memory l m
  rw [show l.pieces memory m = _ from hSplit, total_append, total_append, hFront] at hTotal
  refine ⟨?_, total pieceSize slices.flatten, hReach, hExact, by omega, ?_⟩
  · intro sizes' hSizes' s hs
    rw [hSizes, Option.some.injEq] at hSizes'
    subst hSizes'
    by_contra hLarge
    exact hSmall ⟨s, hs, by omega⟩
  · have hLength : (((packed memory l.base (pagesOn l.residency .gpu)).drop
        (e.va - l.base)).take (min newSize (total pieceSize slices.flatten))).length =
          min newSize (total pieceSize slices.flatten) := by
      rw [List.length_take, List.length_drop, packed_length]
      omega
    have hOut := hRestore.2
    rw [splice, List.take_zero, List.nil_append, Nat.zero_add] at hOut
    exact hOut.trans (by
      show _ ++ List.drop (((packed memory l.base (pagesOn l.residency .gpu)).drop
        (e.va - l.base)).take (min newSize (total pieceSize slices.flatten))).length _ = _
      rw [hLength]
      rfl)

/-- What an exact restore through the ring says of the layout. -/
theorem honoured_ring (hTable : allocs.length ≤ gateAllocMax) (hEntry : allocs[idx]? = some e)
    (hFind : findRange layouts e.va e.size = some l)
    (hRing : RingUsed layouts allocs chunkSize slotsOk) {newSize : Nat}
    (hFills : FillsExactly layouts allocs chunkSize slotsOk idx l e newSize) :
    (∀ sizes, ringSizes layouts allocs chunkSize = some sizes →
      ∀ s ∈ sizes.flatten, s ≤ chunkSize) ∧
    (min e.size newSize = 0 ∨ GpuUpTo l (e.va - l.base + min e.size newSize)) ∧
    (newSize ≤ e.size ∨ OnBoundary l (e.va - l.base + e.size)) := by
  have hLow := (findRange_covers hFind).1
  have hSlice := ring_captured hTable hEntry hFind hRing hFills
  refine ⟨(hSlice fun _ => 0).1, ?_, ?_⟩
  · rcases Nat.eq_zero_or_pos (min e.size newSize) with hZero | hPos
    · exact .inl hZero
    · obtain ⟨-, reach, hReach, -, hInside, -⟩ := hSlice fun _ => 0
      refine .inr (gpuUpTo_of_captured newSize hLow hPos (by omega) ?_)
      intro memory
      obtain ⟨-, reach, hReach, -, hInside, hOut⟩ := hSlice memory
      rw [hOut, List.getElem?_append_left, List.getElem?_take_of_lt (by omega),
        List.getElem?_drop]
      rw [List.length_take, List.length_drop, packed_length]
      omega
  · by_contra hTail
    rw [not_or, Nat.not_le] at hTail
    obtain ⟨-, reach, hReach, hExact, hInside, hOut⟩ := hSlice fun _ => 1
    have hLonger : e.size < reach := by
      rcases Nat.lt_or_eq_of_le hReach with hLess | hSame
      · exact hLess
      · exact absurd (hExact.mpr hSame.symm) hTail.2
    have hByte := congrArg (fun bytes : Bytes => bytes[e.size]?) hOut
    have hLeft : (captured l (fun _ => 1) e.va (min e.size newSize)
        (List.replicate newSize 0))[e.size]? = some 0 := by
      rw [captured, List.getElem?_append_right (by simp), List.getElem?_drop, List.length_map,
        List.length_range, List.getElem?_replicate, if_pos (by omega)]
    have hRight : (((packed (fun _ => 1) l.base (pagesOn l.residency .gpu)).drop
        (e.va - l.base)).take (min newSize reach) ++
          (List.replicate newSize 0).drop (min newSize reach))[e.size]? = some 1 := by
      have hPage : (e.va - l.base + e.size) / pageSize < (pagesOn l.residency .gpu).length := by
        simp only [pageSize] at hInside ⊢
        omega
      rw [List.getElem?_append_left, List.getElem?_take_of_lt (by omega), List.getElem?_drop,
        packed_getElem?, List.getElem?_eq_getElem hPage, Option.map_some]
      rw [List.length_take, List.length_drop, packed_length]
      omega
    rw [hLeft, hRight] at hByte
    exact absurd hByte (by decide)

end Sessions

/-- A range of three pages of which the first is on the CPU. -/
def mixedRange : RangeLayout where
  base := 0x7f0000000000
  residency := [.cpu, .gpu, .gpu]
  transfers := [1, 1]
  transfer_pages := by decide
  transfer_sum := by decide

/-- The allocation of the second page of the range. -/
def secondPage : AllocEntry := ⟨0x7f0000001000, 4096, false, by decide, by decide⟩

/-- An allocation of one page alone on the GPU. -/
def gpuRange : RangeLayout where
  base := 0x7f0000000000
  residency := [.gpu]
  transfers := [1]
  transfer_pages := oneTransfer_pages
  transfer_sum := by decide

def onlyPage : AllocEntry := ⟨0x7f0000000000, 4096, false, heapBase_lt, by decide⟩

theorem cutChunks_single {α : Type} (size : α → Nat) (chunkSize : Nat) (a : α)
    (hPos : 0 < size a) (hFits : size a ≤ chunkSize) :
    cutChunks size chunkSize (size a) 0 [a] = some [[a]] := by
  have hTake : takeUpTo size (min chunkSize (size a - 0)) 0 [a] = ([a], []) := by
    rw [takeUpTo, if_pos (by omega)]
    rfl
  have hEnd : cutChunks size chunkSize (size a) (0 + total size [a]) [] = some [] := by
    rw [cutChunks, if_neg (by simp)]
  rw [cutChunks, if_pos hPos, hTake, if_neg (by simp; omega), hEnd]
  rfl

theorem ringSizes_mixedRange : ringSizes [mixedRange] [secondPage] chunkBytes = some [[4096]] := by
  have hCut := cutChunks_single (· * pageSize) chunkBytes 1 (by decide) (by decide)
  simp only [ringSizes, findRange, List.mapM_cons, List.mapM_nil]
  simp [mixedRange, secondPage, RangeLayout.length, pageSize, cutAlloc, takeUpTo] at hCut ⊢
  simp [hCut]

theorem ringSizes_gpuRange : ringSizes [gpuRange] [onlyPage] chunkBytes = some [[4096]] := by
  have hCut := cutChunks_single (· * pageSize) chunkBytes 1 (by decide) (by decide)
  simp only [ringSizes, findRange, List.mapM_cons, List.mapM_nil]
  simp [gpuRange, onlyPage, RangeLayout.length, pageSize, cutAlloc, takeUpTo] at hCut ⊢
  simp [hCut]

end FlashCkpt.Restore
