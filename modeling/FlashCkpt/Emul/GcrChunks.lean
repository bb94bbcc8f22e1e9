import FlashCkpt.Emul.AllocTable
import FlashCkpt.Library.NextFit
import FlashCkpt.Library.RangeSet

/-! A round of GCR: the dirty set of `dirty_templates.cpp`, the hooks that fill it, and
`build_chunks_gcr`, which finds for each range its allocation and its place in the image. -/
namespace FlashCkpt.Emul.Gcr

open Transition RangeSet

/-- `GCR_MAX_RANGES`. -/
def maxRanges : Nat := 2 ^ 20

/-- The image, and the size of a staging buffer: `CKPT_STAGING_MB` is taken if it is
positive. -/
structure Config where
  image : Option Nat
  staging : Nat
  staging_pos : 0 < staging

/-- Sums in `uint64_t`. -/
def wrap (n : Nat) : Nat := n % 2 ^ 64

/-- `cudaMemcpyKind`. -/
inductive CopyKind where
  | hostToHost | hostToDevice | deviceToHost | deviceToDevice | default
  deriving DecidableEq, Repr

def CopyKind.marks : CopyKind → Bool
  | .hostToDevice | .deviceToDevice | .default => true
  | .hostToHost | .deviceToHost => false

/-- The element types that `cuda_dtype_bytes` knows. -/
inductive DataType where
  | r8i | r8u | r8fE4m3 | r8fE5m2
  | r16f | r16bf | r16i | r16u
  | r32f | r32i | r32u
  | r64f | r64i | r64u
  | c16f | c16bf | c32f | c64f
  | other
  deriving DecidableEq, Repr

/-- `cuda_dtype_bytes`. -/
def DataType.bytes : DataType → Nat
  | .r8i | .r8u | .r8fE4m3 | .r8fE5m2 => 1
  | .r16f | .r16bf | .r16i | .r16u => 2
  | .r32f | .r32i | .r32u => 4
  | .r64f | .r64i | .r64u => 8
  | .c16f | .c16bf => 4
  | .c32f => 8
  | .c64f => 16
  | .other => 0

/-- What `mark_alloc_dirty` inserts: the whole allocation of the address. -/
def markAllocDirty (t : Table GcrFlags) (addr : Nat) : Option (Range Nat) :=
  (t.findAllocIdx addr).bind fun i => t.allocs[i]?.map fun e => ⟨e.va, e.va + e.size⟩

/-- What `mark_range` inserts: the range clipped to the allocation of its first byte, or
all of it where no allocation has that byte. -/
def markRange (t : Table GcrFlags) (va size : Nat) : Option (Range Nat) :=
  if size = 0 then none
  else
    match (t.findAllocIdx va).bind fun i => t.allocs[i]? with
    | some e =>
        let lo := max va e.va
        let hi := min (wrap (va + size)) (e.va + e.size)
        if lo < hi then some ⟨lo, hi⟩ else none
    | none => some ⟨va, wrap (va + size)⟩

/-- The hooked calls, each after the real one succeeded, and a checkpoint round with
whether its buffers could be allocated. -/
inductive Op where
  | call (c : Call)
  | memcpy (kind : CopyKind) (dst count : Nat)
  | memset (dst count : Nat)
  | gemm (c n ldc : Nat) (ctype : DataType)
  | ltMatmul (d : Nat)
  | round (memory : Bool)

/-- The range that the hook inserts into the dirty set. -/
def Op.mark (t : Table GcrFlags) : Op → Option (Range Nat)
  | .call _ | .round _ => none
  | .memcpy kind dst count => if kind.marks then markRange t dst count else none
  | .memset dst count => markRange t dst count
  | .gemm c n ldc ctype =>
      if c = 0 then none
      else
        let tileBytes := wrap (n * ldc * ctype.bytes)
        if 0 < tileBytes then markRange t c tileBytes else markAllocDirty t c
  | .ltMatmul d => if d = 0 then none else markAllocDirty t d

/-- The process, with the ranges inserted since the last round beside the merged set. -/
structure Process extends State GcrFlags where
  dirty : Ranges Nat
  marked : List (Range Nat)

def Process.init : Process := ⟨State.init, .empty, []⟩

def Process.mark (p : Process) (r : Option (Range Nat)) : Process :=
  match r with
  | none => p
  | some r => { p with dirty := p.dirty.insert r.start r.stop, marked := p.marked ++ [r] }

/-- A round takes its ranges and clears the set, with the application stalled. -/
def next (cfg : Config) (p : Process) : Op → Option Process
  | .call c => (Emul.next gcr cfg.image p.toState c).map fun s => { p with toState := s }
  | .round _ => some { p with dirty := .empty, marked := [] }
  | op => some (p.mark (op.mark p.table))

/-- `gcr_chunk_t`: a range of device memory, its place in the image and in the slot. -/
structure Chunk extends Region where
  imgAbs : Nat
  packOff : Nat
  deriving DecidableEq, Repr

/-- `gcr_slot_t`. -/
structure Slot where
  first : Nat
  count : Nat
  totalBytes : Nat
  deriving DecidableEq, Repr

/-- The arrays that `build_chunks_gcr` fills: the slots behind it and the current one. -/
structure Build where
  chunks : List Chunk
  slots : List Slot
  current : Slot
  skipped : Nat
  deriving DecidableEq, Repr

def Build.init : Build := ⟨[], [], ⟨0, 0, 0⟩, 0⟩

/-- One sub-chunk, in a new slot if the current one is not empty and would overflow.
Nothing bounds the slot index by the size of the array: a write behind it is `none`. -/
def Build.put (staging slotCap : Nat) (b : Build) (piece : Region × Nat) : Option Build :=
  let opened :=
    if 0 < b.current.count ∧ staging < b.current.totalBytes + piece.1.size then
      if b.slots.length + 1 < slotCap then
        some { b with slots := b.slots ++ [b.current], current := ⟨b.chunks.length, 0, 0⟩ }
      else none
    else some b
  opened.map fun b =>
    { b with
      chunks := b.chunks ++ [⟨piece.1, piece.2, b.current.totalBytes⟩]
      current :=
        ⟨b.current.first, b.current.count + 1, b.current.totalBytes + piece.1.size⟩ }

/-- The piece opens a slot, or goes behind what the current one holds. -/
theorem Build.put_cases {staging slotCap : Nat} {b b' : Build} {piece : Region × Nat}
    (h : b.put staging slotCap piece = some b') :
    (0 < b.current.count ∧ staging < b.current.totalBytes + piece.1.size) ∧
        b' = { b with
          slots := b.slots ++ [b.current]
          chunks := b.chunks ++ [⟨piece.1, piece.2, 0⟩]
          current := ⟨b.chunks.length, 0 + 1, 0 + piece.1.size⟩ } ∨
      ¬(0 < b.current.count ∧ staging < b.current.totalBytes + piece.1.size) ∧
        b' = { b with
          chunks := b.chunks ++ [⟨piece.1, piece.2, b.current.totalBytes⟩]
          current :=
            ⟨b.current.first, b.current.count + 1, b.current.totalBytes + piece.1.size⟩ } := by
  rw [Build.put, Option.map_eq_some_iff] at h
  obtain ⟨opened, hOpened, rfl⟩ := h
  split at hOpened
  · rename_i hFull
    obtain ⟨-, hOpen⟩ := Option.ite_none_right_eq_some.mp hOpened
    cases hOpen
    exact .inl ⟨hFull, rfl⟩
  · rename_i hStays
    cases hOpened
    exact .inr ⟨hStays, rfl⟩

/-- A range in its allocation: the place in the image, and the bytes up to the end of the
allocation. -/
structure Resolved extends Region where
  imgAbs : Nat
  deriving DecidableEq, Repr

/-- The allocation of the first byte of the range decides. -/
def resolve (t : Table GcrFlags) (r : Range Nat) : Option Resolved :=
  (t.findAllocIdx r.start).bind fun i => t.allocs[i]?.bind fun e => e.imgOffset.map fun imgOff =>
    let offInAlloc := r.start - e.va
    let size := r.stop - r.start
    ⟨⟨r.start, if e.size < offInAlloc + size then e.size - offInAlloc else size⟩,
      imgOff + offInAlloc⟩

/-- The sub-chunks from `copied` on. Each takes at least one byte, so `size` is fuel enough. -/
def Resolved.cuts (staging : Nat) (x : Resolved) : (fuel copied : Nat) → List (Region × Nat)
  | 0, _ => []
  | fuel + 1, copied =>
      if copied < x.size then
        let chunk := min (x.size - copied) staging
        (⟨x.va + copied, chunk⟩, x.imgAbs + copied) :: x.cuts staging fuel (copied + chunk)
      else []

/-- The sub-chunks of a range: none without an allocation or a slot. -/
def pieces (t : Table GcrFlags) (staging : Nat) (r : Range Nat) : List (Region × Nat) :=
  if r.stop - r.start = 0 then []
  else
    match resolve t r with
    | none => []
    | some x => x.cuts staging x.size 0

/-- The body of the loop over the ranges, which counts those it skips. -/
def Build.addRange (t : Table GcrFlags) (staging slotCap : Nat) (b : Build) (r : Range Nat) :
    Option Build :=
  (pieces t staging r).foldlM (Build.put staging slotCap)
    { b with skipped := b.skipped + if r.stop - r.start ≠ 0 ∧ resolve t r = none then 1 else 0 }

/-- `build_chunks_gcr`; with no ranges, or when an allocation fails, it returns no chunk. -/
def buildChunksGcr (t : Table GcrFlags) (staging : Nat) (memory : Bool) (ranges : List (Range Nat)) :
    Option Build :=
  if ranges = [] ∨ memory = false then some .init
  else ranges.foldlM (Build.addRange t staging (ranges.length + 1)) .init

/-- The ranges of `gcr_snapshot_dirty_set`. -/
def Process.taken (p : Process) : List (Range Nat) := p.dirty.list.take maxRanges

/-- The chunks of a round; without an image it copies nothing. -/
def Process.roundChunks (cfg : Config) (p : Process) (memory : Bool) : Option Build :=
  buildChunksGcr p.table cfg.staging (memory && cfg.image.isSome) p.taken

/-- Memory that is mapped, recorded and has a slot in the image. -/
def Owns (m : Mapping) (record off : Nat) : Prop :=
  m.outcome.record = some record ∧ m.outcome.slot = some off

/-- Each byte marked since the last round in an allocation that owns a slot is in one
chunk, which takes it to the place of the byte in that slot. -/
def Process.Reaches (cfg : Config) (p : Process) (memory : Bool) : Prop :=
  ∀ addr, Covered p.marked addr → ∀ m ∈ p.mapped, m.Covers addr → ∀ record off, Owns m record off →
    ∃ b c, p.roundChunks cfg memory = some b ∧ b.chunks.filter (fun c => c.Covers addr) = [c] ∧
      c.imgAbs + (addr - c.va) = off + (addr - m.va)

/-- A range that meets memory which owns a slot is among those taken, its first byte is
found in that memory, and the sub-chunks of the round can be divided in their order into
slots of a staging buffer, one more than there are ranges. -/
def Process.Resolves (cfg : Config) (p : Process) (memory : Bool) : Prop :=
  ∀ r ∈ p.dirty.list, ∀ m ∈ p.mapped, ∀ record off, Owns m record off →
    r.start < m.va + m.size → m.va < r.stop →
      memory = true ∧ r ∈ p.taken ∧ p.table.findAllocIdx r.start = some record ∧
        NextFit.Divides cfg.staging (p.taken.length + 1)
          ((p.taken.flatMap (pieces p.table cfg.staging)).map fun piece => piece.1.size)

/-- The sub-chunks from `copied` on lie in the rest of the range, each of at least a byte
and at most a staging buffer. -/
theorem Resolved.mem_cuts {staging : Nat} (hStaging : 0 < staging) (x : Resolved)
    {fuel copied : Nat} {piece : Region × Nat} (h : piece ∈ x.cuts staging fuel copied) :
    ∃ offset, copied ≤ offset ∧ offset + piece.1.size ≤ x.size ∧ piece.1.va = x.va + offset ∧
      piece.2 = x.imgAbs + offset ∧ 0 < piece.1.size ∧ piece.1.size ≤ staging := by
  induction fuel generalizing copied with
  | zero => cases h
  | succ fuel ih =>
      rw [Resolved.cuts] at h
      split at h
      · rcases List.mem_cons.mp h with rfl | h
        · exact ⟨copied, Nat.le_refl _, by dsimp only; omega, rfl, rfl, by dsimp only; omega,
            Nat.min_le_right _ _⟩
        · obtain ⟨offset, hOffset, hRest⟩ := ih h
          exact ⟨offset, by omega, hRest⟩
      · cases h

/-- One sub-chunk has a byte of the range. -/
theorem Resolved.filter_cuts {staging : Nat} (hStaging : 0 < staging) (x : Resolved) (addr : Nat)
    (hHigh : addr < x.va + x.size) (fuel copied : Nat) (hLow : x.va + copied ≤ addr)
    (hFuel : x.size ≤ fuel + copied) :
    ∃ piece, (x.cuts staging fuel copied).filter (fun piece => piece.1.Covers addr) = [piece] ∧
      piece.1.Covers addr ∧ piece.2 + (addr - piece.1.va) = x.imgAbs + (addr - x.va) := by
  induction fuel generalizing copied with
  | zero => omega
  | succ fuel ih =>
      rw [Resolved.cuts, if_pos (by omega)]
      dsimp only
      by_cases hHere : addr < x.va + copied + min (x.size - copied) staging
      · refine ⟨(⟨x.va + copied, min (x.size - copied) staging⟩, x.imgAbs + copied), ?_,
          ⟨hLow, hHere⟩, by dsimp only; omega⟩
        have hRest : (x.cuts staging fuel (copied + min (x.size - copied) staging)).filter
            (fun piece => piece.1.Covers addr) = [] := by
          rw [List.filter_eq_nil_iff]
          intro piece hPiece
          obtain ⟨offset, hOffset, _, hVa, _⟩ := x.mem_cuts hStaging hPiece
          rw [decide_eq_true_eq]
          rintro ⟨hStart, _⟩
          omega
        rw [List.filter_cons_of_pos (by simpa using ⟨hLow, hHere⟩), hRest]
      · obtain ⟨piece, hFilter, hPiece⟩ := ih (copied + min (x.size - copied) staging) (by omega)
          (by omega)
        refine ⟨piece, ?_, hPiece⟩
        rw [List.filter_cons_of_neg, hFilter]
        rw [decide_eq_true_eq]
        rintro ⟨_, hStop⟩
        exact hHere hStop

/-- A chunk of a range lies in the range and has the place of its allocation. -/
theorem mem_pieces {t : Table GcrFlags} {staging : Nat} (hStaging : 0 < staging) {r : Range Nat}
    {piece : Region × Nat} (h : piece ∈ pieces t staging r) :
    ∃ i e off, t.findAllocIdx r.start = some i ∧ t.allocs[i]? = some e ∧ e.imgOffset = some off ∧
      r.start ≤ piece.1.va ∧ piece.1.va + piece.1.size ≤ min r.stop (e.va + e.size) ∧
      e.va ≤ r.start ∧ piece.2 = off + (piece.1.va - e.va) ∧ 0 < piece.1.size ∧
      piece.1.size ≤ staging := by
  rw [pieces] at h
  split at h
  · cases h
  · cases hResolve : resolve t r with
    | none =>
        rw [hResolve] at h
        cases h
    | some x =>
        rw [hResolve] at h
        obtain ⟨i, hFind, hRest⟩ := Option.bind_eq_some_iff.mp hResolve
        obtain ⟨e, he, hImage⟩ := Option.bind_eq_some_iff.mp hRest
        obtain ⟨off, hOff, rfl⟩ := Option.map_eq_some_iff.mp hImage
        obtain ⟨f, hf, _, hLow, hHigh⟩ := findAllocIdx_some hFind
        cases he.symm.trans hf
        obtain ⟨offset, _, hSize, hVa, hImg, hPos, hLe⟩ := Resolved.mem_cuts hStaging _ h
        dsimp only at hSize hVa hImg
        refine ⟨i, e, off, hFind, he, hOff, by omega, ?_, hLow, by omega, hPos, hLe⟩
        split at hSize <;> omega

theorem pieces_pos {t : Table GcrFlags} {staging : Nat} (hStaging : 0 < staging) {r : Range Nat}
    {piece : Region × Nat} (h : piece ∈ pieces t staging r) : 0 < piece.1.size := by
  obtain ⟨_, _, _, _, _, _, _, _, _, _, hPos, _⟩ := mem_pieces hStaging h
  exact hPos

/-- A byte of a range whose first byte is in the same allocation is in one chunk of the
range, at its place in the slot. -/
theorem filter_pieces {t : Table GcrFlags} {staging : Nat} (hStaging : 0 < staging) {r : Range Nat}
    {addr i off : Nat} {e : Alloc GcrFlags} (hFind : t.findAllocIdx r.start = some i)
    (he : t.allocs[i]? = some e) (hOff : e.imgOffset = some off) (hr : r.Covers addr)
    (hAddr : e.Covers addr) :
    ∃ piece, (pieces t staging r).filter (fun piece => piece.1.Covers addr) = [piece] ∧
      piece.1.Covers addr ∧ piece.2 + (addr - piece.1.va) = off + (addr - e.va) := by
  obtain ⟨hStart, hStop⟩ := hr
  obtain ⟨f, hf, _, hLow, hHigh⟩ := findAllocIdx_some hFind
  cases he.symm.trans hf
  have hResolve : resolve t r = some ⟨⟨r.start, if e.size < r.start - e.va + (r.stop - r.start) then
      e.size - (r.start - e.va) else r.stop - r.start⟩, off + (r.start - e.va)⟩ := by
    rw [resolve, hFind, Option.bind_some, he, Option.bind_some, hOff, Option.map_some]
  rw [pieces, if_neg (by omega), hResolve]
  have hEnd := hAddr.2
  obtain ⟨piece, hFilter, hCovers, hPlace⟩ := Resolved.filter_cuts hStaging
    ⟨⟨r.start, if e.size < r.start - e.va + (r.stop - r.start) then
      e.size - (r.start - e.va) else r.stop - r.start⟩, off + (r.start - e.va)⟩ addr
    (by dsimp only; split <;> omega)
    (if e.size < r.start - e.va + (r.stop - r.start) then
      e.size - (r.start - e.va) else r.stop - r.start) 0 hStart (Nat.le_refl _)
  exact ⟨piece, hFilter, hCovers, by dsimp only at hPlace; omega⟩

/-- The current slot has an entry of the array, and chunks exactly if it has bytes. -/
structure Build.Sound (slotCap : Nat) (b : Build) : Prop where
  index : b.slots.length < slotCap
  filled : 0 < b.current.count ↔ 0 < b.current.totalBytes

/-- What the sub-chunks make of the arrays: they are appended, and what more they open is
what next fit opens; or the slot index has reached the end of its array. -/
def Build.Grows (staging slotCap : Nat) (b : Build) (added : List (Region × Nat)) :
    Option Build → Prop
  | none => slotCap ≤ b.slots.length +
      NextFit.openings staging b.current.totalBytes (added.map fun piece => piece.1.size)
  | some b' => b'.Sound slotCap ∧
      (b'.chunks.map fun c => (c.toRegion, c.imgAbs)) =
        (b.chunks.map fun c => (c.toRegion, c.imgAbs)) ++ added ∧
      ∀ sizes, b.slots.length + NextFit.openings staging b.current.totalBytes
          ((added.map fun piece => piece.1.size) ++ sizes) =
        b'.slots.length + NextFit.openings staging b'.current.totalBytes sizes

theorem Build.grows_put {staging slotCap : Nat} {b : Build} (h : b.Sound slotCap)
    {piece : Region × Nat} (hPiece : 0 < piece.1.size) :
    b.Grows staging slotCap [piece] (b.put staging slotCap piece) := by
  rw [Build.put]
  by_cases hOpen : 0 < b.current.count ∧ staging < b.current.totalBytes + piece.1.size
  · have hOpens : 0 < b.current.totalBytes ∧ staging < b.current.totalBytes + piece.1.size :=
      ⟨h.filled.mp hOpen.1, hOpen.2⟩
    rw [if_pos hOpen]
    by_cases hRoom : b.slots.length + 1 < slotCap
    · rw [if_pos hRoom, Option.map_some]
      refine ⟨⟨by simpa using hRoom, by simpa using hPiece⟩, by simp, fun sizes => ?_⟩
      simp only [List.map_cons, List.map_nil, List.cons_append, List.nil_append, NextFit.openings,
        if_pos hOpens, List.length_append, List.length_singleton, Nat.zero_add]
      omega
    · rw [if_neg hRoom, Option.map_none, Grows]
      simp only [List.map_cons, List.map_nil, NextFit.openings, if_pos hOpens]
      omega
  · have hStays : ¬(0 < b.current.totalBytes ∧ staging < b.current.totalBytes + piece.1.size) :=
      fun hOpens => hOpen ⟨h.filled.mpr hOpens.1, hOpens.2⟩
    rw [if_neg hOpen, Option.map_some]
    refine ⟨⟨h.index, ?_⟩, by simp, fun sizes => ?_⟩
    · exact ⟨fun _ => Nat.add_pos_right _ hPiece, fun _ => Nat.succ_pos _⟩
    · simp only [List.map_cons, List.map_nil, List.cons_append, List.nil_append, NextFit.openings,
        if_neg hStays]

theorem Build.grows_nil {staging slotCap : Nat} {b : Build} (h : b.Sound slotCap) :
    b.Grows staging slotCap [] (some b) :=
  ⟨h, by simp, fun _ => rfl⟩

/-- One after the other. -/
theorem Build.Grows.trans {staging slotCap : Nat} {b : Build} {first second : List (Region × Nat)}
    {x : Option Build} (h : b.Grows staging slotCap first x) {more : Build → Option Build}
    (hMore : ∀ b' : Build, b'.Sound slotCap → b'.Grows staging slotCap second (more b')) :
    b.Grows staging slotCap (first ++ second) (x.bind more) := by
  cases x with
  | none =>
      rw [Option.bind_none, Grows, List.map_append]
      exact Nat.le_trans h (Nat.add_le_add_left (NextFit.openings_le_append _ _ _ _) _)
  | some b' =>
      obtain ⟨hSound, hChunks, hOpen⟩ := h
      have hSecond := hMore b' hSound
      rw [Option.bind_some]
      cases hEnd : more b' with
      | none =>
          rw [hEnd, Grows] at hSecond
          rw [Grows, List.map_append, hOpen]
          exact hSecond
      | some b'' =>
          rw [hEnd] at hSecond
          obtain ⟨hSound', hChunks', hOpen'⟩ := hSecond
          refine ⟨hSound', by rw [hChunks', hChunks, List.append_assoc], fun sizes => ?_⟩
          rw [List.map_append, List.append_assoc, hOpen, hOpen']

theorem Build.grows_foldlM {staging slotCap : Nat} {added : List (Region × Nat)}
    (hPos : ∀ piece ∈ added, 0 < piece.1.size) {b : Build} (h : b.Sound slotCap) :
    b.Grows staging slotCap added (added.foldlM (Build.put staging slotCap) b) := by
  induction added generalizing b with
  | nil => exact grows_nil h
  | cons piece rest ih =>
      rw [List.foldlM_cons]
      refine (grows_put h (hPos piece List.mem_cons_self)).trans fun b' hSound => ?_
      exact ih (fun piece' h' => hPos piece' (List.mem_cons_of_mem piece h')) hSound

theorem Build.grows_ranges (t : Table GcrFlags) {staging : Nat} (hStaging : 0 < staging)
    (slotCap : Nat) (ranges : List (Range Nat)) {b : Build} (h : b.Sound slotCap) :
    b.Grows staging slotCap (ranges.flatMap (pieces t staging))
      (ranges.foldlM (Build.addRange t staging slotCap) b) := by
  induction ranges generalizing b with
  | nil => exact grows_nil h
  | cons r rest ih =>
      rw [List.foldlM_cons, List.flatMap_cons]
      refine Grows.trans ?_ fun b' hSound => ih hSound
      -- the count of the skipped ranges is not read again
      exact grows_foldlM (b := { b with skipped := _ }) (fun piece hPiece => pieces_pos hStaging hPiece)
        ⟨h.index, h.filled⟩

/-- What each sub-chunk keeps, the loop over the ranges keeps. -/
theorem Build.keeps_ranges {P : Build → Prop} {t : Table GcrFlags} {staging slotCap : Nat}
    (hSkip : ∀ (b : Build) (skipped : Nat), P b → P { b with skipped := skipped })
    {ranges : List (Range Nat)} (hPut : ∀ piece ∈ ranges.flatMap (pieces t staging),
      ∀ b b' : Build, P b → b.put staging slotCap piece = some b' → P b')
    {b b' : Build} (h : P b)
    (hFold : ranges.foldlM (Build.addRange t staging slotCap) b = some b') : P b' := by
  have hPieces : ∀ added : List (Region × Nat),
      (∀ piece ∈ added, ∀ b b' : Build, P b → b.put staging slotCap piece = some b' → P b') →
      ∀ b b' : Build, P b → added.foldlM (Build.put staging slotCap) b = some b' → P b' := by
    intro added hAdded
    induction added with
    | nil =>
        intro b b' h hFold
        cases hFold
        exact h
    | cons piece rest ih =>
        intro b b' h hFold
        obtain ⟨hPiece, hRest⟩ := List.forall_mem_cons.mp hAdded
        rw [List.foldlM_cons] at hFold
        obtain ⟨middle, hMiddle, hFold⟩ := Option.bind_eq_some_iff.mp hFold
        exact ih hRest middle b' (hPiece b middle h hMiddle) hFold
  induction ranges generalizing b with
  | nil =>
      cases hFold
      exact h
  | cons r rest ih =>
      rw [List.flatMap_cons] at hPut
      obtain ⟨hHere, hRest⟩ := List.forall_mem_append.mp hPut
      rw [List.foldlM_cons] at hFold
      obtain ⟨middle, hMiddle, hFold⟩ := Option.bind_eq_some_iff.mp hFold
      exact ih hRest (hPieces _ hHere _ middle (hSkip b _ h) hMiddle) hFold

theorem pieces_le {t : Table GcrFlags} {staging : Nat} (hStaging : 0 < staging) {r : Range Nat}
    {piece : Region × Nat} (h : piece ∈ pieces t staging r) : piece.1.size ≤ staging := by
  obtain ⟨_, _, _, _, _, _, _, _, _, _, _, hLe⟩ := mem_pieces hStaging h
  exact hLe

/-- The chunks are those of the ranges, one range after the other, unless their slots do
not fit into the array. -/
theorem buildChunksGcr_eq_some {t : Table GcrFlags} {staging : Nat} (hStaging : 0 < staging)
    {ranges : List (Range Nat)} {b : Build} (h : buildChunksGcr t staging true ranges = some b) :
    (b.chunks.map fun c => (c.toRegion, c.imgAbs)) = ranges.flatMap (pieces t staging) := by
  cases hRanges : ranges with
  | nil =>
      rw [hRanges] at h
      cases h
      rfl
  | cons r rest =>
      rw [buildChunksGcr, if_neg (by simp [hRanges]), hRanges] at h
      have hGrows := Build.grows_ranges t hStaging ((r :: rest).length + 1) (r :: rest)
        (b := .init) ⟨Nat.succ_pos _, by simp [Build.init]⟩
      rw [h] at hGrows
      exact hGrows.2.1

theorem buildChunksGcr_ne_none {t : Table GcrFlags} {staging : Nat} (hStaging : 0 < staging)
    {ranges : List (Range Nat)} (hRanges : ranges ≠ []) :
    buildChunksGcr t staging true ranges ≠ none ↔
      NextFit.Divides staging (ranges.length + 1)
        ((ranges.flatMap (pieces t staging)).map fun piece => piece.1.size) := by
  have hSizes : ∀ size ∈ (ranges.flatMap (pieces t staging)).map fun piece => piece.1.size,
      size ≤ staging := by
    intro size hSize
    obtain ⟨piece, hPiece, rfl⟩ := List.mem_map.mp hSize
    obtain ⟨r, _, hr⟩ := List.mem_flatMap.mp hPiece
    exact pieces_le hStaging hr
  have hGrows := Build.grows_ranges t hStaging (ranges.length + 1) ranges
    (b := .init) ⟨Nat.succ_pos _, by simp [Build.init]⟩
  rw [← NextFit.openings_zero_le_iff hSizes, buildChunksGcr, if_neg (by simp [hRanges])]
  cases hBuild : ranges.foldlM (Build.addRange t staging (ranges.length + 1)) .init with
  | none =>
      rw [hBuild] at hGrows
      have hOver : ranges.length + 1 ≤ 0 + NextFit.openings staging 0
          ((ranges.flatMap (pieces t staging)).map fun piece => piece.1.size) := hGrows
      simp only [ne_eq, not_true_eq_false, false_iff]
      omega
  | some b =>
      rw [hBuild] at hGrows
      have hOpen := hGrows.2.2 []
      have hIndex := hGrows.1.index
      simp only [Build.init, List.length_nil, List.append_nil, NextFit.openings] at hOpen
      refine ⟨fun _ => ?_, fun _ => Option.some_ne_none b⟩
      omega

/-- The merged set has the bytes marked since the last round. -/
structure Process.Inv (cfg : Config) (p : Process) : Prop where
  marked : ∀ addr, p.dirty.Has addr ↔ Covered p.marked addr
  recorded : Recorded p.toState
  packed : Packed cfg.image p.table

theorem Process.inv_init (cfg : Config) : Process.init.Inv cfg where
  marked := fun _ => Iff.rfl
  recorded := recorded_init
  packed := packed_init cfg.image

theorem Process.Inv.mark {cfg : Config} {p : Process} (h : p.Inv cfg) (r : Option (Range Nat)) :
    (p.mark r).Inv cfg := by
  cases r with
  | none => exact h
  | some r =>
      refine ⟨fun addr => ?_, h.recorded, h.packed⟩
      change (p.dirty.insert r.start r.stop).Has addr ↔ Covered (p.marked ++ [r]) addr
      rw [Ranges.has_insert, h.marked, covered_append, or_comm]
      simp [Range.Covers]

theorem Process.Inv.next {cfg : Config} {p q : Process} (h : p.Inv cfg) {op : Op}
    (hNext : Gcr.next cfg p op = some q) : q.Inv cfg := by
  cases op with
  | call c =>
      obtain ⟨s, hCall, rfl⟩ := Option.map_eq_some_iff.mp hNext
      exact ⟨h.marked, h.recorded.next hCall, h.packed.next hCall⟩
  | round memory =>
      cases hNext
      exact ⟨fun _ => Iff.rfl, h.recorded, h.packed⟩
  | memcpy kind dst count =>
      cases hNext
      exact h.mark _
  | memset dst count =>
      cases hNext
      exact h.mark _
  | gemm c n ldc ctype =>
      cases hNext
      exact h.mark _
  | ltMatmul d =>
      cases hNext
      exact h.mark _

/-- The chunks of the round at an address are those of the one range taken that has it. -/
theorem filter_flatMap_pieces {t : Table GcrFlags} {staging : Nat} (hStaging : 0 < staging)
    {ranges : List (Range Nat)} (h : Separated ranges) {r : Range Nat} (hr : r ∈ ranges) {addr : Nat}
    (hAddr : r.Covers addr) :
    (ranges.flatMap (pieces t staging)).filter (fun piece => piece.1.Covers addr) =
      (pieces t staging r).filter fun piece => piece.1.Covers addr := by
  have hOther : ∀ s : Range Nat, ¬s.Covers addr →
      (pieces t staging s).filter (fun piece => piece.1.Covers addr) = [] := by
    intro s hs
    rw [List.filter_eq_nil_iff]
    intro piece hPiece
    obtain ⟨_, _, _, _, _, _, hLow, hHigh, _⟩ := mem_pieces hStaging hPiece
    rw [decide_eq_true_eq]
    rintro ⟨hStart, hStop⟩
    exact hs ⟨by omega, by omega⟩
  have hNone : ∀ part : List (Range Nat), (∀ s ∈ part, ¬s.Covers addr) →
      (part.flatMap (pieces t staging)).filter (fun piece => piece.1.Covers addr) = [] := by
    intro part hPart
    rw [List.filter_flatMap, List.flatMap_eq_nil_iff]
    exact fun s hs => hOther s (hPart s hs)
  obtain ⟨front, back, rfl⟩ := List.append_of_mem hr
  obtain ⟨_, hTail, hCross⟩ := List.pairwise_append.mp h.gaps
  have hFront : ∀ s ∈ front, ¬s.Covers addr := by
    intro s hs hsAddr
    have := hCross s hs r List.mem_cons_self
    have := hAddr.1
    have := hsAddr.2
    omega
  have hBack : ∀ s ∈ back, ¬s.Covers addr := by
    intro s hs hsAddr
    have := (List.pairwise_cons.mp hTail).1 s hs
    have := hAddr.2
    have := hsAddr.1
    omega
  rw [List.flatMap_append, List.flatMap_cons, List.filter_append, List.filter_append, hNone front hFront,
    hNone back hBack, List.nil_append, List.append_nil]

/-- Memory that owns a slot has its record, and there is an image. -/
theorem Process.Inv.owned {cfg : Config} {p : Process} (h : p.Inv cfg) {m : Mapping}
    (hm : m ∈ p.mapped) {record off : Nat} (hOwns : Owns m record off) :
    cfg.image.isSome = true ∧ ∃ e, p.table.allocs[record]? = some e ∧ e.toRegion = m.toRegion ∧
      e.imgOffset = some off := by
  obtain ⟨e, he, hRegion, hSlot⟩ := h.recorded.record m hm record hOwns.1
  rw [hOwns.2] at hSlot
  exact ⟨h.packed.image_isSome he hSlot, e, he, hRegion, hSlot⟩

theorem Process.Inv.resolves_of_reaches {cfg : Config} {p : Process} (h : p.Inv cfg) {memory : Bool}
    (hReaches : p.Reaches cfg memory) : p.Resolves cfg memory := by
  intro r hr m hm record off hOwns hStart hStop
  -- a byte of the range in the allocation
  have hNonempty := p.dirty.separated.nonempty r hr
  have hPos := (h.recorded.pos m hm).2
  have hrAddr : r.Covers (max r.start m.va) := ⟨Nat.le_max_left _ _, by omega⟩
  have hmAddr : m.Covers (max r.start m.va) := ⟨Nat.le_max_right _ _, by omega⟩
  have hDue := (h.marked _).mp ⟨r, hr, hrAddr⟩
  obtain ⟨b, c, hBuild, hFilter, hPlace⟩ := hReaches _ hDue m hm hmAddr record off hOwns
  obtain ⟨hImage, e, he, hRegion, hOff⟩ := h.owned hm hOwns
  have hChunk : c ∈ b.chunks ∧ c.Covers (max r.start m.va) := by
    have hMem : c ∈ b.chunks.filter fun c => c.Covers (max r.start m.va) := by
      rw [hFilter]
      exact List.mem_cons_self
    simpa using List.mem_filter.mp hMem
  rw [Process.roundChunks, hImage, Bool.and_true] at hBuild
  cases memory with
  | false =>
      rw [buildChunksGcr, if_pos (.inr rfl)] at hBuild
      cases hBuild
      cases hChunk.1
  | true =>
      have hTaken : p.taken ≠ [] := by
        intro hEmpty
        rw [buildChunksGcr, if_pos (.inl hEmpty)] at hBuild
        cases hBuild
        cases hChunk.1
      have hPieces := buildChunksGcr_eq_some cfg.staging_pos hBuild
      have hPiece : (c.toRegion, c.imgAbs) ∈ p.taken.flatMap (pieces p.table cfg.staging) := by
        rw [← hPieces]
        exact List.mem_map_of_mem hChunk.1
      obtain ⟨r', hr', hMem⟩ := List.mem_flatMap.mp hPiece
      obtain ⟨i, f, off', hFind, hf, hOff', hLow, hHigh, hBefore, hImg, _⟩ :=
        mem_pieces cfg.staging_pos hMem
      obtain ⟨hcStart, hcStop⟩ := hChunk.2
      dsimp only at hLow hHigh hImg
      have hSame : r' = r := p.dirty.separated.eq_of_covers (List.mem_of_mem_take hr') hr
        ⟨by omega, by omega⟩ hrAddr
      subst hSame
      have hIndex : record = i := by
        refine h.packed.eq_of_covers he hf hOff hOff' (off + (max r'.start m.va - m.va)) ?_ ?_
        · rw [hRegion]
          exact ⟨by dsimp only; omega, by have := hmAddr.2; dsimp only; omega⟩
        · rw [← hPlace]
          exact ⟨by dsimp only; omega, by dsimp only; omega⟩
      refine ⟨rfl, hr', hIndex ▸ hFind, ?_⟩
      apply (buildChunksGcr_ne_none cfg.staging_pos hTaken).mp
      rw [hBuild]
      exact Option.some_ne_none b

theorem Process.Inv.reaches_of_resolves {cfg : Config} {p : Process} (h : p.Inv cfg) {memory : Bool}
    (hResolves : p.Resolves cfg memory) : p.Reaches cfg memory := by
  intro addr hDue m hm hmAddr record off hOwns
  obtain ⟨r, hr, hrAddr⟩ := (h.marked addr).mpr hDue
  obtain ⟨rfl, hTaken, hFind, hDivides⟩ := hResolves r hr m hm record off hOwns
    (lt_of_le_of_lt hrAddr.1 hmAddr.2) (lt_of_le_of_lt hmAddr.1 hrAddr.2)
  obtain ⟨hImage, e, he, hRegion, hOff⟩ := h.owned hm hOwns
  have hNonempty : p.taken ≠ [] := List.ne_nil_of_mem hTaken
  obtain ⟨b, hBuild⟩ := Option.ne_none_iff_exists'.mp
    ((buildChunksGcr_ne_none cfg.staging_pos hNonempty).mpr hDivides)
  have hPieces := buildChunksGcr_eq_some cfg.staging_pos hBuild
  obtain ⟨piece, hFilter, hCovers, hPlace⟩ := filter_pieces cfg.staging_pos hFind he hOff hrAddr
    (hRegion ▸ hmAddr)
  have hAll := filter_flatMap_pieces (t := p.table) cfg.staging_pos
    (p.dirty.separated.sublist (List.take_sublist maxRanges _)) hTaken hrAddr
  change (p.taken.flatMap (pieces p.table cfg.staging)).filter _ = _ at hAll
  rw [hFilter, ← hPieces, List.filter_map] at hAll
  obtain ⟨c, hChunk, rfl⟩ := List.map_eq_singleton_iff.mp hAll
  refine ⟨b, c, ?_, hChunk, ?_⟩
  · rw [Process.roundChunks, hImage]
    exact hBuild
  · rw [hRegion] at hPlace
    exact hPlace

/-- In every run, each round takes the marked bytes to the image if and only if each range
that meets an allocation with a slot resolves to it. -/
theorem reaches_along_iff (cfg : Config) (ops : List Op) :
    Along (next cfg) (fun p op => ∀ memory, op = .round memory → p.Reaches cfg memory)
        Process.init ops ↔
      Along (next cfg) (fun p op => ∀ memory, op = .round memory → p.Resolves cfg memory)
        Process.init ops := by
  refine along_congr_of_invariant (fun p op q (h : p.Inv cfg) hNext => h.next hNext) ?_
    (Process.inv_init cfg) ops
  intro p op h
  exact forall_congr' fun memory => imp_congr_right fun _ =>
    ⟨h.resolves_of_reaches, h.reaches_of_resolves⟩

theorem defaultStaging_pos : 0 < 256 * 1024 * 1024 := by decide

/-- An image of 16 MB and the default staging size. -/
def smallImage : Config := ⟨some 0x1000000, 256 * 1024 * 1024, defaultStaging_pos⟩

/-- Two mappings of 2 MB side by side, both set. -/
def setBoth : List Op :=
  [.call (.alloc true 0x200000 0x200000), .call (.alloc true 0x400000 0x200000),
    .memset 0x200000 0x200000, .memset 0x400000 0x200000, .round true]

/-- The two marks merge into one range, which is clipped to the first mapping. -/
theorem not_reaches_setBoth :
    ¬ ∀ ops, Along (next smallImage)
      (fun p op => ∀ memory, op = .round memory → p.Reaches smallImage memory) Process.init ops := by
  intro h
  have hReaches := ((((((h setBoth) _ rfl).2 _ rfl).2 _ rfl).2 _ rfl).2 _ rfl).1 true rfl
  obtain ⟨b, c, hBuild, hFilter, _⟩ := hReaches 0x400000 ⟨⟨0x400000, 0x600000⟩, by decide, by decide⟩
    ⟨⟨0x400000, 0x200000⟩, true, ⟨some 1, some 0x200000, []⟩⟩ (by decide) (by decide) 1 0x200000
    ⟨rfl, rfl⟩
  cases hBuild
  exact List.cons_ne_nil c [] hFilter.symm

end FlashCkpt.Emul.Gcr
