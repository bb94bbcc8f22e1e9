import FlashCkpt.Crypto.PageWorkers
import FlashCkpt.Emul.GcrPacking
import FlashCkpt.Emul.PhosCopy

/-! The buffers of the two pipelines. They are as large as the staging size, the encryption
goes through whole pages of 2 MB, and the place of an item in an image is the slot of its
allocation. -/
namespace FlashCkpt.Emul

open Transition
open Crypto (PageCall pageMetaSize)
open Phos (pageSize pages)

/-- What `acquire_staging_pair` and `staging_init` allocate for the two lanes: a staging and a
ciphertext buffer of the staging size, below the end of the user space, and an entry of
metadata for each page. -/
structure StagingPair (staging : Nat) where
  host : Bool → Nat
  enc : Bool → Nat
  metas : Bool → Nat
  user : ∀ lane, host lane + staging ≤ 2 ^ 47

namespace StagingPair

variable {staging : Nat} (pair : StagingPair staging)

/-- The call of a consumer for an item of `size` bytes. -/
def call (key : ByteImage.Bytes) (lane : Bool) (size iv : Nat) : PageCall :=
  ⟨key, pair.host lane, pair.enc lane, pair.metas lane, pages size, pageSize, iv⟩

/-- Each page of the call is read and written in the two buffers, with its entry in the third. -/
def Encrypts (size : Nat) : Prop :=
  ∀ key lane iv, ∀ page < (pair.call key lane size iv).numPages,
    (pair.call key lane size iv).srcPage page + pageSize ≤ pair.host lane + staging ∧
    (pair.call key lane size iv).dstPage page + pageSize ≤ pair.enc lane + staging ∧
    (pair.call key lane size iv).entry page + pageMetaSize ≤
      pair.metas lane + pages staging * pageMetaSize

end StagingPair

/-- The bytes of the whole pages in a staging buffer. -/
def wholePages (staging : Nat) : Nat := staging / pageSize * pageSize

/-- The copy of a chunk, its encryption and its writeback stay inside the staging buffers and
the image. -/
structure Phos.Chunk.Inside {staging : Nat} (pair : StagingPair staging) (target : Option Nat)
    (c : Phos.Chunk) : Prop where
  staged : c.size ≤ staging
  encrypted : pair.Encrypts c.size
  written : ∀ total, target = some total → c.imgOff + c.size ≤ total

/-- The two passes of a round, of which the first writes to the base image. -/
def Phos.RoundInside (images : Phos.Images) (s : State PhosFlags) (early late : List Phos.Touch)
    (pair : StagingPair images.staging.bytes) : Prop :=
  ∀ s₁ s₂, Phos.Passes images s early late s₁ s₂ →
    (∀ c ∈ Phos.passChunks images s.table s₁.table false, c.Inside pair images.base) ∧
    ∀ c ∈ Phos.passChunks images s.table s₂.table true, c.Inside pair images.delta

/-- The largest piece of each allocation with a slot is at most the whole pages of a staging
buffer, and those that are marked before Phase 4 have a slot inside the delta image. -/
def Phos.RoundFits (images : Phos.Images) (s : State PhosFlags) (early late : List Phos.Touch) : Prop :=
  ∀ s₁ s₂, Phos.Passes images s early late s₁ s₂ → ∀ i e off, s.table.allocs[i]? = some e →
    e.alive = true → e.imgOffset = some off →
      min e.size images.staging.bytes ≤ wholePages images.staging.bytes ∧
      (Phos.Flagged s₂.table i → ∀ total, images.delta = some total → off + e.size ≤ total)

/-- The copies into a slot, its encryption and the writebacks from it stay inside the staging
buffers and the image. -/
structure Gcr.Build.Inside {staging : Nat} (pair : StagingPair staging) (image : Option Nat)
    (b : Gcr.Build) (s : Gcr.Slot) : Prop where
  staged : ∀ c ∈ b.slotChunks s, c.1.packOff + c.1.size ≤ staging
  encrypted : pair.Encrypts s.totalBytes
  written : ∀ c ∈ b.slotChunks s, ∀ total, image = some total → c.1.imgAbs + c.1.size ≤ total

/-- All slots of a round, whatever the room for them in their array. -/
def Gcr.Process.RoundInside (cfg : Gcr.Config) (p : Gcr.Process) (pair : StagingPair cfg.staging) :
    Prop :=
  ∀ slotCap b, p.taken.foldlM (Gcr.Build.addRange p.table cfg.staging (slotCap + 1)) .init = some b →
    ∀ s ∈ b.filled, b.Inside pair cfg.image s

/-- The pieces of the ranges, each put behind the one before as long as it fits into a staging
buffer, fill at most its whole pages. -/
def Gcr.Process.RoundFits (cfg : Gcr.Config) (p : Gcr.Process) : Prop :=
  ∀ total ∈ NextFit.totals cfg.staging 0
      (p.taken.flatMap fun r => Gcr.cutSizes cfg.staging (Gcr.clipped p.table r)),
    total ≤ wholePages cfg.staging

/-- The runs of the two emulators, with the buffers that a round gets, if it gets them. -/
def Phos.nextStaged (images : Phos.Images) (s : State PhosFlags)
    (label : Phos.RoundOp × Option (StagingPair images.staging.bytes)) : Option (State PhosFlags) :=
  Phos.nextOp images s label.1

def Gcr.nextStaged (cfg : Gcr.Config) (p : Gcr.Process)
    (label : Gcr.Op × Option (StagingPair cfg.staging)) : Option Gcr.Process :=
  Gcr.next cfg p label.1

/-- An item is encrypted inside the buffers exactly if it is not longer than their whole pages. -/
theorem StagingPair.encrypts_iff {staging size : Nat} (pair : StagingPair staging)
    (hSize : size ≤ staging) : pair.Encrypts size ↔ size ≤ wholePages staging := by
  have hStaging : staging ≤ 2 ^ 47 := Nat.le_of_add_left_le (pair.user false)
  have hPages : ∀ n ≤ staging, pages n = (n + pageSize - 1) / pageSize := by
    intro n hn
    rw [pages]
    apply Nat.mod_eq_of_lt
    simp only [pageSize]
    omega
  have hMetas : pages size ≤ pages staging := by
    rw [hPages size hSize, hPages staging (Nat.le_refl _)]
    exact Nat.div_le_div_right (by omega)
  constructor
  · intro h
    by_contra hOver
    have hCount : pages size = staging / pageSize + 1 := by
      rw [hPages size hSize]
      rw [wholePages] at hOver
      simp only [pageSize] at hOver ⊢
      omega
    obtain ⟨hSrc, _⟩ := h [] false 0 (staging / pageSize) (by
      rw [call, hCount]
      exact Nat.lt_succ_self _)
    simp only [PageCall.srcPage, call, pageSize] at hSrc
    omega
  · intro hWhole key lane iv page hPage
    rw [call] at hPage
    dsimp only at hPage
    have hEnd : page * pageSize + pageSize ≤ staging := by
      rw [hPages size hSize] at hPage
      rw [wholePages] at hWhole
      simp only [pageSize] at hPage hWhole ⊢
      omega
    refine ⟨?_, ?_, ?_⟩
    · rw [PageCall.srcPage, call, Nat.add_assoc]
      exact Nat.add_le_add_left hEnd _
    · rw [PageCall.dstPage, call, Nat.add_assoc]
      exact Nat.add_le_add_left hEnd _
    · rw [PageCall.entry, call, Nat.add_assoc, ← Nat.succ_mul]
      exact Nat.add_le_add_left (Nat.mul_le_mul_right _ (by omega)) _

section Phos

variable {images : Phos.Images} {s : State PhosFlags} {early late : List Phos.Touch}

/-- No chunk of an entry is larger than the first. -/
theorem Phos.entryChunks_le {staging va size imgBase : Nat} (fuel off : Nat) {c : Phos.Chunk}
    (h : c ∈ Phos.entryChunks staging va size imgBase fuel off) : c.size ≤ min size staging := by
  induction fuel generalizing off with
  | zero => cases h
  | succ fuel ih =>
      rw [entryChunks] at h
      split at h
      · dsimp only at h
        rcases List.mem_cons.mp h with rfl | h
        · dsimp only
          split <;> omega
        · exact ih _ h
      · cases h

theorem Phos.exists_largest (staging va imgBase : Nat) {size fuel : Nat} (hSize : 0 < size)
    (hFuel : 0 < fuel) : ∃ c ∈ Phos.entryChunks staging va size imgBase fuel 0,
      c.size = min size staging := by
  obtain ⟨fuel, rfl⟩ := Nat.exists_eq_succ_of_ne_zero hFuel.ne'
  rw [entryChunks, if_pos hSize]
  refine ⟨_, List.mem_cons_self, ?_⟩
  dsimp only
  split <;> omega

/-- The last chunk of an entry ends where its slot ends. -/
theorem Phos.exists_last (va imgBase : Nat) {staging size : Nat} (hStaging : 0 < staging)
    (hSize : 0 < size) : ∃ c ∈ Phos.entryChunks staging va size imgBase size 0,
      c.imgOff + c.size = imgBase + size := by
  have hMove : (va + (size - 1), imgBase + (size - 1)) ∈
      (entryChunks staging va size imgBase size 0).flatMap Chunk.moves :=
    (mem_entryChunks_moves hStaging size 0 (Nat.le_add_right _ _)).mpr
      ⟨size - 1, Nat.zero_le _, Nat.sub_one_lt hSize.ne', rfl, rfl⟩
  obtain ⟨c, hc, hByte⟩ := List.mem_flatMap.mp hMove
  obtain ⟨l, hl, _, hPlace⟩ := Chunk.mem_moves.mp hByte
  obtain ⟨k, _, _, hStart, _, hEnd⟩ := mem_entryChunks hStaging _ _ hc
  exact ⟨c, hc, by omega⟩

theorem Phos.Slotted.roundInside_iff (h : Phos.Slotted images.base s.table)
    (pair : StagingPair images.staging.bytes) :
    Phos.RoundInside images s early late pair ↔ Phos.RoundFits images s early late := by
  refine forall_congr' fun s₁ => forall_congr' fun s₂ => forall_congr' fun hPasses => ?_
  obtain ⟨hFirst, hSecond⟩ := h.passes hPasses
  have hStaging := staging_pos images
  constructor
  · rintro ⟨hBase, hDelta⟩ i e off he hAlive hOff
    have hPos := h.pos e (List.mem_of_getElem? he)
    constructor
    · obtain ⟨c, hc, hSize⟩ := exists_largest images.staging.bytes e.va off hPos hPos
      have hInside := hBase c ((mem_passChunks hFirst).mpr ⟨i, e, off, he, hAlive, hOff, (nomatch ·), hc⟩)
      rw [← hSize]
      exact (pair.encrypts_iff hInside.staged).mp hInside.encrypted
    · intro hFlag total hTotal
      obtain ⟨c, hc, hEnd⟩ := exists_last e.va off hStaging hPos
      have hInside := hDelta c ((mem_passChunks hSecond).mpr
        ⟨i, e, off, he, hAlive, hOff, fun _ => hFlag, hc⟩)
      rw [← hEnd]
      exact hInside.written total hTotal
  · intro hFits
    -- a chunk of either pass, for an image that has the slot of its record
    have hChunk : ∀ (target : Option Nat) (i : Nat) (e : Alloc PhosFlags) (off : Nat),
        s.table.allocs[i]? = some e → e.alive = true → e.imgOffset = some off →
        (∀ total, target = some total → off + e.size ≤ total) →
        ∀ c ∈ entryChunks images.staging.bytes e.va e.size off e.size 0, c.Inside pair target := by
      intro target i e off he hAlive hOff hSlot c hc
      have hSize := entryChunks_le _ _ hc
      have hStaged : c.size ≤ images.staging.bytes := hSize.trans (Nat.min_le_right _ _)
      obtain ⟨k, _, _, hStart, _, hEnd⟩ := mem_entryChunks hStaging _ _ hc
      refine ⟨hStaged, (pair.encrypts_iff hStaged).mpr ?_, fun total hTotal => ?_⟩
      · exact hSize.trans (hFits i e off he hAlive hOff).1
      · have := hSlot total hTotal
        omega
    constructor
    · intro c hc
      obtain ⟨i, e, off, he, hAlive, hOff, _, hc⟩ := (mem_passChunks hFirst).mp hc
      exact hChunk images.base i e off he hAlive hOff (fun total => h.packed.slot_le he hOff) c hc
    · intro c hc
      obtain ⟨i, e, off, he, hAlive, hOff, hFlag, hc⟩ := (mem_passChunks hSecond).mp hc
      exact hChunk images.delta i e off he hAlive hOff ((hFits i e off he hAlive hOff).2 (hFlag rfl)) c hc

end Phos

section Gcr

open Gcr

/-- The slots hold what next fit puts into them. -/
structure Gcr.Build.Totals (staging : Nat) (b : Gcr.Build) : Prop where
  totals : b.slots.map Slot.totalBytes ++ [b.current.totalBytes] =
    NextFit.totals staging 0 (b.chunks.map fun c => c.size)
  filled : 0 < b.current.count ↔ 0 < b.current.totalBytes

theorem Gcr.Build.totals_init (staging : Nat) : Gcr.Build.init.Totals staging :=
  ⟨rfl, by simp [Build.init]⟩

theorem Gcr.Build.Totals.put {staging slotCap : Nat} {b b' : Gcr.Build} (h : b.Totals staging)
    {piece : Region × Nat} (hPos : 0 < piece.1.size) (hPut : b.put staging slotCap piece = some b') :
    b'.Totals staging := by
  have hConcat := NextFit.totals_concat piece.1.size h.totals.symm
  rcases Build.put_cases hPut with ⟨hFull, rfl⟩ | ⟨hStays, rfl⟩
  · rw [if_pos ⟨h.filled.mp hFull.1, hFull.2⟩] at hConcat
    refine ⟨?_, by simpa using hPos⟩
    simp [hConcat]
  · rw [if_neg fun hFull => hStays ⟨h.filled.mpr hFull.1, hFull.2⟩] at hConcat
    refine ⟨?_, fun _ => Nat.add_pos_right _ hPos, fun _ => Nat.succ_pos _⟩
    simp [hConcat]

/-- The filled slots are within a bound exactly if all are. -/
theorem Gcr.Build.Totals.filled_le_iff {staging bound : Nat} {b : Gcr.Build} (h : b.Totals staging) :
    (∀ s ∈ b.filled, s.totalBytes ≤ bound) ↔
      ∀ total ∈ NextFit.totals staging 0 (b.chunks.map fun c => c.size), total ≤ bound := by
  rw [← h.totals, List.forall_mem_append, List.forall_mem_map, Build.filled]
  split
  · rw [List.forall_mem_append]
    simp
  · have hEmpty : b.current.totalBytes = 0 := by
      have := h.filled
      omega
    simp [hEmpty]

theorem Gcr.Tiled.bounds {start stop : Nat} {chunks : List Gcr.Chunk} (h : Gcr.Tiled start chunks stop) :
    start ≤ stop ∧ ∀ c ∈ chunks, c.packOff + c.size ≤ stop := by
  induction chunks generalizing start with
  | nil => exact ⟨h.le, fun _ hc => absurd hc List.not_mem_nil⟩
  | cons first rest ih =>
      obtain ⟨hStart, hRest⟩ := h
      obtain ⟨hLe, hBounds⟩ := ih hRest
      refine ⟨by omega, List.forall_mem_cons.mpr ⟨by omega, hBounds⟩⟩

variable {cfg : Gcr.Config} {p : Gcr.Process}

/-- The image has room for every chunk. -/
theorem Gcr.Process.Inv.piece_le (h : p.Inv cfg) {r : RangeSet.Range Nat} {piece : Region × Nat}
    (hPiece : piece ∈ pieces p.table cfg.staging r) {total : Nat} (hTotal : cfg.image = some total) :
    piece.2 + piece.1.size ≤ total := by
  obtain ⟨i, e, off, _, he, hOff, hLow, hHigh, hBefore, hPlace, _⟩ := mem_pieces cfg.staging_pos hPiece
  have hSlot := h.packed.slot_le he hOff hTotal
  omega

theorem Gcr.Process.Inv.roundInside_iff (h : p.Inv cfg) (pair : StagingPair cfg.staging) :
    p.RoundInside cfg pair ↔ p.RoundFits cfg := by
  -- what the arrays hold, whatever the room for the slots
  have hBuild : ∀ slotCap b,
      p.taken.foldlM (Build.addRange p.table cfg.staging (slotCap + 1)) .init = some b →
      b.Laid ∧ (∀ s ∈ b.filled, s.totalBytes ≤ cfg.staging) ∧
        (∀ c ∈ b.chunks, ∃ r, (c.toRegion, c.imgAbs) ∈ pieces p.table cfg.staging r) ∧
        ((∀ s ∈ b.filled, s.totalBytes ≤ wholePages cfg.staging) ↔ p.RoundFits cfg) := by
    intro slotCap b hFold
    have hLaid : b.Laid := Build.keeps_ranges (fun _ _ hLaid => hLaid)
      (fun _ _ _ _ hLaid hPut => hLaid.put hPut) Build.laid_init hFold
    have hTotals : b.Totals cfg.staging := by
      refine Build.keeps_ranges (fun b _ hTotals => ⟨hTotals.totals, hTotals.filled⟩) ?_
        (Build.totals_init cfg.staging) hFold
      intro piece hPiece b b' hTotals hPut
      obtain ⟨r, _, hMem⟩ := List.mem_flatMap.mp hPiece
      exact hTotals.put (pieces_pos cfg.staging_pos hMem) hPut
    have hGrows := Build.grows_ranges p.table cfg.staging_pos (slotCap + 1) p.taken
      (b := .init) ⟨Nat.succ_pos _, by simp [Build.init]⟩
    rw [hFold] at hGrows
    have hChunks : (b.chunks.map fun c => (c.toRegion, c.imgAbs)) =
        p.taken.flatMap (pieces p.table cfg.staging) := hGrows.2.1
    have hSizes : (b.chunks.map fun c => c.size) =
        p.taken.flatMap fun r => cutSizes cfg.staging (clipped p.table r) := by
      have hMap := congrArg (List.map fun piece : Region × Nat => piece.1.size) hChunks
      rw [List.map_map, List.map_flatMap] at hMap
      rw [← List.flatMap_congr fun r _ => sizes_pieces cfg.staging_pos r]
      exact hMap
    refine ⟨hLaid, (packs_of_foldlM cfg.staging_pos hFold).room, fun c hc => ?_, ?_⟩
    · have hMem : (c.toRegion, c.imgAbs) ∈ p.taken.flatMap (pieces p.table cfg.staging) :=
        hChunks ▸ List.mem_map_of_mem hc
      obtain ⟨r, _, hPiece⟩ := List.mem_flatMap.mp hMem
      exact ⟨r, hPiece⟩
    · rw [Process.RoundFits, ← hSizes]
      exact hTotals.filled_le_iff
  constructor
  · intro hInside
    obtain ⟨enough, hRoom⟩ := exists_room p.table cfg.staging_pos p.taken
    obtain ⟨b, hFold⟩ := Option.ne_none_iff_exists'.mp (hRoom enough (Nat.le_refl _))
    obtain ⟨_, hStaged, _, hIff⟩ := hBuild enough b hFold
    refine hIff.mp fun s hs => ?_
    exact (pair.encrypts_iff (hStaged s hs)).mp (hInside enough b hFold s hs).encrypted
  · intro hFits slotCap b hFold s hs
    obtain ⟨hLaid, hStaged, hPieces, hIff⟩ := hBuild slotCap b hFold
    have hTiled := (hLaid.items.2 s hs).bounds.2
    refine ⟨fun c hc => ?_, (pair.encrypts_iff (hStaged s hs)).mpr (hIff.mpr hFits s hs), fun c hc => ?_⟩
    · exact (hTiled c.1 (List.mem_map_of_mem hc)).trans (hStaged s hs)
    · have hMem : c ∈ b.chunks.zipIdx := List.mem_of_mem_drop (List.mem_of_mem_take hc)
      obtain ⟨r, hPiece⟩ := hPieces c.1
        (List.mem_of_getElem? (List.mem_zipIdx_iff_getElem?.mp hMem))
      exact fun total => h.piece_le hPiece

end Gcr

/-- In every run of either emulator the buffers and images are not overrun exactly if each item
fits the whole pages of its staging buffer and each slot the image that is written. -/
theorem buffers_inside_along_iff (cfg : Gcr.Config)
    (calls : List (Gcr.Op × Option (StagingPair cfg.staging))) (images : Phos.Images)
    (ops : List (Phos.RoundOp × Option (StagingPair images.staging.bytes))) :
    (Along (Gcr.nextStaged cfg)
          (fun p label => ∀ pair, label.1 = .round true → label.2 = some pair → p.RoundInside cfg pair)
          Gcr.Process.init calls ↔
        Along (Gcr.nextStaged cfg)
          (fun p label => label.1 = .round true → label.2 ≠ none → p.RoundFits cfg)
          Gcr.Process.init calls) ∧
      (Along (Phos.nextStaged images)
          (fun s label => ∀ early late pair, label.1 = .round early late → label.2 = some pair →
            Phos.RoundInside images s early late pair)
          State.init ops ↔
        Along (Phos.nextStaged images)
          (fun s label => ∀ early late, label.1 = .round early late → label.2 ≠ none →
            Phos.RoundFits images s early late)
          State.init ops) := by
  constructor
  · refine along_congr_of_invariant (fun p label q (h : p.Inv cfg) hNext => h.next hNext) ?_
      (Gcr.Process.inv_init cfg) calls
    intro p label h
    constructor
    · intro hInside hRound hSome
      obtain ⟨pair, hPair⟩ := Option.ne_none_iff_exists'.mp hSome
      exact (h.roundInside_iff pair).mp (hInside pair hRound hPair)
    · intro hFits pair hRound hPair
      exact (h.roundInside_iff pair).mpr (hFits hRound (hPair ▸ Option.some_ne_none pair))
  · refine along_congr_of_invariant
      (fun s label t (h : Phos.Slotted images.base s.table) hNext => h.nextOp hNext) ?_
      ⟨packed_init images.base, fun e he => absurd he List.not_mem_nil⟩ ops
    intro s label h
    constructor
    · intro hInside early late hRound hSome
      obtain ⟨pair, hPair⟩ := Option.ne_none_iff_exists'.mp hSome
      exact (h.roundInside_iff pair).mp (hInside early late pair hRound hPair)
    · intro hFits early late pair hRound hPair
      exact (h.roundInside_iff pair).mpr (hFits early late hRound (hPair ▸ Option.some_ne_none pair))

/-- Images of 16 MB, and `PHOS_STAGING_MB=1`: half a page. -/
def oneMegabyte : Phos.Images := ⟨some 0x1000000, some 0x1000000, ⟨2 ^ 20, Phos.Staging.least⟩⟩

def onePair : StagingPair oneMegabyte.staging.bytes :=
  ⟨fun lane => if lane then 0x7f0000100000 else 0x7f0000000000,
    fun lane => if lane then 0x7f0000300000 else 0x7f0000200000,
    fun lane => if lane then 0x7f0000401000 else 0x7f0000400000, by decide⟩

/-- An allocation of 1 MB is encrypted as a page of 2 MB. -/
theorem not_buffers_inside_oneMegabyte :
    ¬((∀ (cfg : Gcr.Config) (ops : List (Gcr.Op × Option (StagingPair cfg.staging))),
        Along (Gcr.nextStaged cfg)
          (fun p label => ∀ pair, label.1 = .round true → label.2 = some pair → p.RoundInside cfg pair)
          Gcr.Process.init ops) ∧
      ∀ (images : Phos.Images) (ops : List (Phos.RoundOp × Option (StagingPair images.staging.bytes))),
        Along (Phos.nextStaged images)
          (fun s label => ∀ early late pair, label.1 = .round early late → label.2 = some pair →
            Phos.RoundInside images s early late pair)
          State.init ops) := by
  rintro ⟨_, hPhos⟩
  obtain ⟨s, hReached⟩ : ∃ s, execute (Phos.nextStaged oneMegabyte) State.init
      [(.call (.alloc false 0x200000 0x100000), none)] = some s := ⟨_, rfl⟩
  have hAlong : Along (Phos.nextStaged oneMegabyte)
      (fun s label => ∀ early late pair, label.1 = .round early late → label.2 = some pair →
        Phos.RoundInside oneMegabyte s early late pair) s [(.round [] [], some onePair)] :=
    (hPhos oneMegabyte [(.call (.alloc false 0x200000 0x100000), none),
      (.round [] [], some onePair)]).reached hReached
  have hStart : Phos.Slotted oneMegabyte.base (State.init : State PhosFlags).table :=
    ⟨packed_init _, fun e he => absurd he List.not_mem_nil⟩
  have hSlotted : Phos.Slotted oneMegabyte.base s.table :=
    @invariant_execute _ _ (Phos.nextStaged oneMegabyte) (fun s => Phos.Slotted oneMegabyte.base s.table)
      (fun s label t h hNext => h.nextOp hNext) _ _ s hStart hReached
  cases hReached
  obtain ⟨hInside, _⟩ := hAlong _ rfl
  have hFits := (hSlotted.roundInside_iff onePair).mp (hInside [] [] onePair rfl rfl)
  exact absurd (hFits _ _ ⟨rfl, rfl⟩ 0 _ 0 rfl rfl rfl).1 (by decide)

end FlashCkpt.Emul
