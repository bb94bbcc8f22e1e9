import FlashCkpt.Restore.FromFiles
import FlashCkpt.Core.DeltaWriters
import FlashCkpt.Image.SparseSlicer

/-! From the walk that slices the fused delta to the walk that reads it back. The slicer cuts
the shared buffers at running offsets and the reader has the sizes of the blocks only; both
come to the same pages. -/
namespace FlashCkpt.Restore

open ByteImage SizeCut Crypto Image FlashCkpt.Core

/-- The transfers of ioctl 116 over a span: each went through a DMA buffer, and one after
the other they carry the GPU pages. -/
structure SpanTransfers (memory : ByteImage.Image) (base : Nat) (residency : List Residency) where
  pieces : List (Nat × Bytes)
  size : ∀ p ∈ pieces, 0 < p.2.length ∧ p.2.length ≤ dmaBufferSize
  carried : pieces.flatMap Prod.snd = packed memory base (pagesOn residency .gpu)

def SpanTransfers.spanRead {memory : ByteImage.Image} {base : Nat} {residency : List Residency}
    (channel : Channel) (t : SpanTransfers memory base residency) : SpanRead where
  resmap := residency
  cpuBuf := packed memory base (pagesOn residency .cpu)
  gpuBuf := t.pieces.flatMap (pieceCipher channel)
  metas := t.pieces.map (pieceMeta channel)

/-- The transfers of a captured layout. -/
def SpanTransfers.ofLayout (memory : ByteImage.Image) (n : Nat) (l : RangeLayout) :
    SpanTransfers memory l.base l.residency where
  pieces := l.pieces memory n
  size := fun _ hp => RangeLayout.piece_size memory hp
  carried := l.pieces_flatten memory n

/-- The pages of a span that are not absent, in ascending order. -/
def presentPages (residency : List Residency) : List Nat :=
  (List.range residency.length).filter fun p => residency[p]? ≠ some .absent

/-- What the reader copies for a block of the delta, by address. -/
def blockPages (keys : Keys) (v3 : Bool) (delta : IncDelta) (b : RangeDesc) : List (Nat × Bytes) :=
  (placePages true b.baseVa (readResmap delta.data b) (openCpu keys v3 delta.data delta.size b).2
    (openGpu keys v3 delta.data delta.size b).2).map fun w => (w.1, values w.2)

/-- All pages that the reader takes from a delta beside a version 3 image. -/
def decodePages (keys : Keys) (delta : IncDelta) : List (Nat × Bytes) :=
  delta.blocks.flatMap (blockPages keys true delta)

/-- The encrypted reader copies the pages of each block that lies in a group. -/
theorem blockLog_pages (keys : Keys) (v3 : Bool) {groups : List (Nat × Nat)} (delta : IncDelta)
    {b : RangeDesc} (h : findGroup groups b ≠ none) :
    (blockLog keys v3 groups delta b).map (fun w => (w.1, values w.2)) =
      blockPages keys v3 delta b := by
  obtain ⟨g, hGroup⟩ := Option.ne_none_iff_exists'.mp h
  rw [blockLog, hGroup]
  rfl

theorem presentPages_cons (r : Residency) (rest : List Residency) :
    presentPages (r :: rest) =
      (if r = .absent then [] else [0]) ++ (presentPages rest).map (· + 1) := by
  rw [presentPages, List.length_cons, List.range_succ_eq_map, List.filter_cons, List.filter_map]
  have hRest : (List.range rest.length).filter
      ((fun p => decide ((r :: rest)[p]? ≠ some .absent)) ∘ Nat.succ) = presentPages rest := rfl
  rw [hRest]
  by_cases hAbsent : r = .absent
  · simp [hAbsent]
  · simp [hAbsent]

section Runs

variable {β : Type} (f : Nat → β)

theorem presentPages_shift (page : Nat) (r : Residency) (rest : List Residency) :
    (presentPages (r :: rest)).map (fun p => f (page + p)) =
      (if r = .absent then [] else [f page]) ++
        (presentPages rest).map fun p => f (page + 1 + p) := by
  have hStep : (fun p => f (page + p)) ∘ (· + 1) = fun p => f (page + 1 + p) := by
    funext p
    rw [Function.comp_apply, Nat.add_right_comm, Nat.add_assoc]
  rw [presentPages_cons, List.map_append, List.map_map, hStep]
  split
  · rfl
  · rfl

theorem addPage_pages (page : Nat) {r : Residency} (hPresent : r ≠ .absent)
    (runs : List (Nat × List Residency)) :
    (addPage page r runs).flatMap (fun run => (presentPages run.2).map fun p => f (run.1 + p)) =
      f page :: runs.flatMap fun run => (presentPages run.2).map fun p => f (run.1 + p) := by
  have hOne := presentPages_shift f page r []
  rw [if_neg hPresent] at hOne
  cases runs with
  | nil =>
      rw [addPage, List.flatMap_cons, hOne]
      rfl
  | cons head more =>
      obtain ⟨start, run⟩ := head
      rw [addPage]
      split
      · rename_i hNext
        rw [List.flatMap_cons, presentPages_shift, if_neg hPresent, List.flatMap_cons, hNext]
        rfl
      · rw [List.flatMap_cons, hOne]
        rfl

/-- The runs have the present pages of the span, each once and in order. -/
theorem presentRuns_pages (page : Nat) (residency : List Residency) :
    (presentRuns page residency).flatMap
        (fun run => (presentPages run.2).map fun p => f (run.1 + p)) =
      (presentPages residency).map fun p => f (page + p) := by
  induction residency generalizing page with
  | nil => rfl
  | cons r rest ih =>
      rw [presentRuns, presentPages_shift]
      split
      · exact ih (page + 1)
      · rename_i hPresent
        rw [addPage_pages f page hPresent, ih (page + 1)]
        rfl

end Runs

/-- Sections packed from memory are placed page by page. -/
theorem placePages_packed (checked : Bool) (memory : ByteImage.Image) (base : Nat)
    (residency : List Residency) {cpuBuf gpuBuf : Buffer}
    (hCpu : values cpuBuf = packed memory base (pagesOn residency .cpu))
    (hGpu : values gpuBuf = packed memory base (pagesOn residency .gpu)) :
    (placePages checked base (residency.map Residency.code) cpuBuf gpuBuf).map
        (fun w => (w.1, values w.2)) =
      (presentPages residency).map fun p =>
        (base + p * pageSize, read memory (base + p * pageSize) pageSize) := by
  induction residency generalizing base cpuBuf gpuBuf with
  | nil => rfl
  | cons r rest ih =>
      have hPages := presentPages_shift
        (fun p => (base + p * pageSize, read memory (base + p * pageSize) pageSize)) 0 r rest
      have hBehind : ∀ p, base + (0 + 1 + p) * pageSize = base + pageSize + p * pageSize := by
        intro p
        rw [Nat.zero_add, Nat.add_mul, Nat.one_mul, Nat.add_assoc]
      simp only [Nat.zero_add, Nat.zero_mul, Nat.add_zero] at hPages hBehind
      simp only [hBehind] at hPages
      rw [hPages, List.map_cons]
      rw [packed_cons] at hCpu hGpu
      cases r with
      | cpu =>
          simp only [if_true, reduceCtorEq, if_false, List.nil_append] at hCpu hGpu
          obtain ⟨hFirst, hRest, hReach⟩ := values_pageCells (read_length _ _ _) hCpu
          rw [placePages_cpu checked base _ hReach, List.map_cons, hFirst, ih _ hRest hGpu]
          rfl
      | gpu =>
          simp only [if_true, reduceCtorEq, if_false, List.nil_append] at hCpu hGpu
          obtain ⟨hFirst, hRest, hReach⟩ := values_pageCells (read_length _ _ _) hGpu
          rw [placePages_gpu checked base _ hReach, List.map_cons, hFirst, ih _ hCpu hRest]
          rfl
      | absent =>
          simp only [reduceCtorEq, if_false, List.nil_append] at hCpu hGpu
          rw [placePages_absent, ih _ hCpu hGpu]
          rfl

section Slices

variable (channel : Channel) (memory : ByteImage.Image) (base : Nat)

/-- The packed pages of a run of the span. -/
def runPacked (place : Residency) (run : Nat × List Residency) : Bytes :=
  packed memory (base + run.1 * pageSize) (pagesOn run.2 place)

/-- The block of a run: its slices of the shared buffers are its own pages and the transfers
of its own GPU pages. -/
def IsSlice (pieces : List (Nat × Bytes)) (run : Nat × List Residency) (r : Sections) : Prop :=
  ∃ mine : List (Nat × Bytes), (∀ p ∈ mine, p ∈ pieces) ∧
    mine.flatMap Prod.snd = runPacked memory base .gpu run ∧
    r = ⟨base + run.1 * pageSize, run.2.length * pageSize, run.2.map Residency.code,
      runPacked memory base .cpu run, mine.flatMap (pieceCipher channel),
      (mine.map (pieceMeta channel)).flatMap CryptoMeta.encode⟩

theorem IsSlice.mono {pieces more : List (Nat × Bytes)} {run : Nat × List Residency}
    {r : Sections} (h : IsSlice channel memory base pieces run r)
    (hSub : ∀ p ∈ pieces, p ∈ more) : IsSlice channel memory base more run r := by
  obtain ⟨mine, hMine, hRest⟩ := h
  exact ⟨mine, fun p hp => hSub p (hMine p hp), hRest⟩

theorem runPacked_length (place : Residency) (run : Nat × List Residency) :
    (runPacked memory base place run).length = run.2.count place * pageSize := by
  rw [runPacked, packed_length, pagesOn_length]

/-- Where the walk succeeds, every block has the slices of its own run. -/
theorem sliceRuns_isSlice {runs : List (Nat × List Residency)} {pieces : List (Nat × Bytes)}
    {regions : List Sections}
    (hCarried : pieces.flatMap Prod.snd = runs.flatMap (runPacked memory base .gpu))
    (h : sliceRuns base (runs.flatMap (runPacked memory base .cpu))
      (pieces.flatMap (pieceCipher channel)) (pieces.map (pieceMeta channel)) runs =
        some regions) :
    List.Forall₂ (IsSlice channel memory base pieces) runs regions := by
  induction runs generalizing pieces regions with
  | nil =>
      cases h
      exact .nil
  | cons run rest ih =>
      obtain ⟨start, places⟩ := run
      have hSplit := takeUpTo_append pieceSize (places.count .gpu * pageSize) 0 pieces
      rw [sliceRuns, takeUpTo_map, pieceMeta_size] at h
      generalize takeUpTo pieceSize (places.count .gpu * pageSize) 0 pieces = cut at hSplit h
      obtain ⟨mine, others⟩ := cut
      dsimp only at hSplit h
      rw [total_map, pieceMeta_size] at h
      obtain ⟨hTotal, h⟩ := Option.ite_none_left_eq_some.mp h
      rw [not_not] at hTotal
      obtain ⟨blocks, hRest, rfl⟩ := Option.map_eq_some_iff.mp h
      have hCpu := runPacked_length memory base .cpu (start, places)
      have hGpu := runPacked_length memory base .gpu (start, places)
      have hCipher : (mine.flatMap (pieceCipher channel)).length =
          places.count .gpu * pageSize := (flatMap_cipher_length mine).trans hTotal
      -- the transfers taken carry the pages of this run, the others those behind it
      rw [← hSplit, List.flatMap_append, List.flatMap_cons] at hCarried
      obtain ⟨hMine, hOthers⟩ := List.append_inj hCarried
        (by rw [flatMap_snd_length, hTotal, hGpu])
      rw [← hSplit, List.flatMap_append, List.drop_left' hCipher, List.flatMap_cons,
        List.drop_left' hCpu] at hRest
      refine .cons ⟨mine, fun p hp => ?_, hMine, ?_⟩ ?_
      · rw [← hSplit]
        exact List.mem_append_left others hp
      · rw [← hSplit, List.flatMap_append, List.take_left' hCipher, List.flatMap_cons,
          List.take_left' hCpu]
      · refine (ih hOthers hRest).imp fun run r hSlice => ?_
        apply hSlice.mono
        intro p hp
        rw [← hSplit]
        exact List.mem_append_right mine hp

end Slices

/-- A block that stands in the file reads as the present pages of its run. -/
theorem blockPages_slice {keys : Keys} (hDevice : keys.device = .confidential)
    {memory : ByteImage.Image} {base : Nat} {pieces : List (Nat × Bytes)}
    (hSize : ∀ p ∈ pieces, 0 < p.2.length ∧ p.2.length ≤ dmaBufferSize)
    {run : Nat × List Residency} {r : Sections} {delta : IncDelta} {d : RangeDesc}
    (hSlice : IsSlice keys.channel memory base pieces run r)
    (hStored : StoredAt delta.data delta.size r d) :
    blockPages keys true delta d = (presentPages run.2).map fun p =>
      (base + (run.1 + p) * pageSize, read memory (base + (run.1 + p) * pageSize) pageSize) := by
  obtain ⟨mine, hMine, hCarried, rfl⟩ := hSlice
  have hMineSize : ∀ p ∈ mine, 0 < p.2.length ∧ p.2.length ≤ dmaBufferSize :=
    fun p hp => hSize p (hMine p hp)
  have hMetas : sectionMetas true delta.data d = (mine.map (pieceMeta keys.channel), []) := by
    apply sectionMetas_stored hStored
    · rw [List.append_nil]
      exact pieceMeta_wellFormed fun p hp => (hMineSize p hp).2
    · rw [List.append_nil]
    · intro m hm
      obtain ⟨p, hp, rfl⟩ := List.mem_map.mp hm
      rw [show (pieceMeta keys.channel p).size = p.2.length from keys.channel.meta_size p.1 p.2]
      exact (hMineSize p hp).1
    · rw [total_map, pieceMeta_size, flatMap_cipher_length]
  have hGpu := (openGpu_stored hStored hDevice hMineSize rfl (by rw [hMetas])).2
  have hCpu : openCpu keys true delta.data delta.size d =
      (true, readCpu true delta.data delta.size d) := openCpu_stored (by rw [hMetas])
  have hBase : d.baseVa = base + run.1 * pageSize := by rw [hStored.desc]; rfl
  rw [blockPages, readResmap_stored hStored, hBase,
    placePages_packed true memory (base + run.1 * pageSize) run.2
      (by rw [hCpu]; exact values_readCpu_stored hStored true) (hGpu.trans hCarried)]
  simp only [Nat.add_mul, Nat.add_assoc]

/-- Blocks that are read one by one give what their runs give. -/
theorem placed_flatMap {α β : Type} {R : α → Sections → Prop} {runs : List α}
    {regions : List Sections} (h : List.Forall₂ R runs regions) {off : Nat}
    {g : RangeDesc → List β} (k : α → List β)
    (hg : ∀ p ∈ placed regions off, ∀ run, R run p.1 → g p.2 = k run) :
    ((placed regions off).map Prod.snd).flatMap g = runs.flatMap k := by
  induction h generalizing off with
  | nil => rfl
  | cons hHead hTail ih =>
      rw [placed, List.map_cons, List.flatMap_cons, List.flatMap_cons,
        ih fun p hp => hg p (List.mem_cons_of_mem _ hp), hg _ List.mem_cons_self _ hHead]

section ThreePages

/-- A page on the CPU, an absent one and one on the GPU. -/
def threePages : RangeLayout where
  base := 4096
  residency := [.cpu, .absent, .gpu]
  transfers := [1]
  transfer_pages := oneTransfer_pages
  transfer_sum := oneTransfer_sum

def clearKeys : Keys := ⟨.clear, .clear, none, .confidential, fun n => List.replicate n 0⟩

end ThreePages

end FlashCkpt.Restore
