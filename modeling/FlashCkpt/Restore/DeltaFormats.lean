import FlashCkpt.Restore.ResidencyMap
import FlashCkpt.Image.IncDelta

/-! The delta formats in front of the restore hooks. `restore_init` takes a delta
for one only if its header is that of a v4 delta; an incremental delta is mapped
and never looked at again. -/
namespace FlashCkpt.Restore

open ByteImage SizeCut Crypto Image Baseline

/-- An incremental delta as `restore_init` maps it: magic and version stand where
those of a v4 delta do, and the bytes behind the header read as some table. -/
def mapped (f : IncDelta) (table : List DeltaBlock) : DeltaFile where
  magic := f.magic
  version := f.version
  blocks := table
  data := f.data
  size := f.size

/-- A v3 image, an incremental delta over it but for the memory the delta
captured, and the application that is restored from them. -/
structure V3Pair where
  gcm : Gcm
  channel : Channel
  before : ByteImage.Image
  firstTransfer : Nat
  pool : Schedule
  old : OldFile
  layouts : List RangeLayout
  writer : DeltaWriter
  regions : List RangeLayout
  firstDeltaTransfer : Nat
  deltaPool : Schedule
  oldDelta : OldFile
  table : List DeltaBlock
  allocs : List AllocEntry
  chunkSize : Nat
  slotsOk : Bool
  env : Env
  env_copies : ∀ k, env.h2dFault k = none

def V3Pair.delta (p : V3Pair) (after : ByteImage.Image) : IncDelta :=
  writeDelta p.writer (capture p.channel after p.firstDeltaTransfer p.regions) p.deltaPool
    p.oldDelta.data p.oldDelta.size

theorem V3Pair.delta_legacy (p : V3Pair) (after : ByteImage.Image) :
    (mapped (p.delta after) p.table).magic ≠ deltaV4Magic := by
  show incDeltaMagic ≠ deltaV4Magic
  decide

def V3Pair.session (p : V3Pair) (after : ByteImage.Image) : V3Session where
  gcm := p.gcm
  channel := p.channel
  memory := p.before
  firstTransfer := p.firstTransfer
  pool := p.pool
  old := p.old
  delta := mapped (p.delta after) p.table
  env := p.env
  delta_legacy := p.delta_legacy after
  env_copies := p.env_copies

/-- The base image of a pair. -/
def V3Pair.base (p : V3Pair) : BaseFile :=
  streamBaseline 3 (capture p.channel p.before p.firstTransfer p.layouts) p.pool p.old.data
    p.old.size

/-- A base and a delta that the modes of ckpt_core and of the in-app baseline
write together. The memory of a v4 delta is that of the session. -/
inductive Pair where
  | v3 (p : V3Pair)
  | v4 (x : V4Session)

def Pair.allocs : Pair → List AllocEntry
  | .v3 p => p.allocs
  | .v4 x => x.allocs

/-- The byte lies in a page of the delta. -/
def Pair.Covered : Pair → Nat → Prop
  | .v3 p, a => Covers p.regions a
  | .v4 x, a => ∃ r ∈ x.ranges, r.va ≤ a ∧ a < r.va + r.size

/-- The restored application's allocation `idx`, for this memory at the delta. -/
def Pair.restore : Pair → ByteImage.Image → Nat → Bytes → Option Applied
  | .v3 p, after, idx, buffer =>
      (p.session after).restore p.layouts p.allocs p.chunkSize p.slotsOk idx buffer
  | .v4 x, after, idx, buffer => { x with after := after }.restore idx buffer

/-- Whatever the delta captured, an allocation that was live and whose hook
returns success holds it on every covered byte. -/
def Pair.AppliesDelta (p : Pair) (idx newSize : Nat) : Prop :=
  ∀ (after : ByteImage.Image) (buffer : Bytes) (a : Applied) (e : AllocEntry),
    buffer.length = newSize → p.allocs[idx]? = some e → e.freed = false →
    p.restore after idx buffer = some a → a.status = .restored ∨ a.status = .passthrough →
    ∀ i < min e.size newSize, p.Covered (e.va + i) → a.buffer[i]? = some (after (e.va + i))

/-- The hook reports an error for an allocation of a v3 image: the table is too
long, a job does not fit a slot of the ring, or on the serial path the bytes lie
in the file but do not start and end between transfers. -/
def V3Pair.Refuses (p : V3Pair) (e : AllocEntry) (newSize : Nat) : Prop :=
  gateAllocMax < p.allocs.length ∨ ∃ l, findRange p.layouts e.va e.size = some l ∧
    ((RingUsed p.layouts p.allocs p.chunkSize p.slotsOk ∧
      ∃ sizes, ringSizes p.layouts p.allocs p.chunkSize = some sizes ∧
        ∃ s ∈ sizes.flatten, p.chunkSize < s) ∨
    (¬RingUsed p.layouts p.allocs p.chunkSize p.slotsOk ∧
      (∀ d, findDesc p.base.descs e.va e.size = some d →
        d.gpuOffset + (e.va - l.base) + min e.size newSize ≤ p.base.size) ∧
      ¬(OnBoundary l (e.va - l.base) ∧ OnBoundary l (e.va - l.base + min e.size newSize))))

/-- The pair has a v4 delta, or no byte to copy is covered, or the hook reports an
error. -/
def Pair.NothingLost : Pair → Nat → Nat → Prop
  | .v4 _, _, _ => True
  | .v3 p, idx, newSize => ∀ e, p.allocs[idx]? = some e → e.freed = false →
      (∀ i < min e.size newSize, ¬Covers p.regions (e.va + i)) ∨ p.Refuses e newSize

section V3

variable {p : V3Pair} {idx : Nat} {e : AllocEntry}

/-- The hook does not depend on what the incremental delta captured. -/
theorem V3Pair.restore_congr (p : V3Pair) (after after' : ByteImage.Image) (idx : Nat)
    (buffer : Bytes) :
    (Pair.v3 p).restore after idx buffer = (Pair.v3 p).restore after' idx buffer := by
  have hIgnored : ∀ memory, ¬((mapped (p.delta memory) p.table).magic = deltaV4Magic ∧
      (mapped (p.delta memory) p.table).version = 4 ∧
      (mapped (p.delta memory) p.table).blocks ≠ []) :=
    fun memory h => p.delta_legacy memory h.1
  have hInit : ∀ memory, restoreInit p.allocs p.base none (mapped (p.delta memory) p.table) none
      true p.chunkSize p.slotsOk = restoreInit p.allocs p.base none
        ⟨0, 0, [], fun _ => 0, 0⟩ none true p.chunkSize p.slotsOk := by
    intro memory
    simp only [restoreInit]
    rw [if_neg (hIgnored memory)]
    rfl
  show (restoreInit p.allocs p.base none (mapped (p.delta after) p.table) none true p.chunkSize
      p.slotsOk).map _ = (restoreInit p.allocs p.base none (mapped (p.delta after') p.table) none
        true p.chunkSize p.slotsOk).map _
  rw [hInit after, hInit after']
  rfl

/-- The ring reads inside the file. -/
theorem ring_inside {channel : Channel} {memory : ByteImage.Image} {f : BaseFile} {l : RangeLayout}
    {m : Nat} {d : RangeDesc} (h : StoredRange channel memory f l m d) {chunkSize offset : Nat}
    {ckptSize copySize : Nat} {slices : List (List (Nat × Bytes))}
    (hCut : cutAlloc pieceSize chunkSize offset ckptSize (l.pieces memory m) = some slices)
    (hCopy : copySize ≤ ckptSize) : ¬f.size < d.gpuOffset + offset + copySize := by
  obtain ⟨front, after, hSplit, hFront, -, hReach, -⟩ := cutAlloc_spec hCut
  have hTotal : total pieceSize (l.pieces memory m) =
      offset + (total pieceSize slices.flatten + total pieceSize after) := by
    rw [hSplit, total_append, total_append, hFront]
  rw [Nat.add_assoc]
  exact h.inside_of_le (by omega)

/-- An allocation for which the condition holds gets an error. -/
theorem V3Pair.restore_refused {newSize : Nat} (hRefuses : p.Refuses e newSize)
    (hEntry : p.allocs[idx]? = some e) {after : ByteImage.Image} {buffer : Bytes}
    (hSize : buffer.length = newSize) {a : Applied}
    (h : (Pair.v3 p).restore after idx buffer = some a) :
    a.status = .failed ∨ a.status = .overrun := by
  subst hSize
  by_cases hLong : gateAllocMax < p.allocs.length
  · simp only [Pair.restore, V3Session.restore, restoreInit, hLong, or_true, if_true,
      Option.map_none, reduceCtorEq] at h
  have hTable : p.allocs.length ≤ gateAllocMax := by omega
  rcases hRefuses with hTooLong | ⟨l, hFind, ⟨hRing, sizes, hSizes, hLarge⟩ | ⟨hRing, hFile, hEnds⟩⟩
  · exact absurd hTooLong hLong
  · obtain ⟨m, d, slices, sizes', hStored, hCut, hSizes', hRestore⟩ :=
      (p.session after).restore_ring hTable hEntry hFind hRing buffer
    rw [hSizes, Option.some.injEq] at hSizes'
    subst hSizes'
    rw [if_neg (ring_inside hStored hCut (Nat.min_le_left _ _)), if_pos hLarge] at hRestore
    rw [show (p.session after).restore p.layouts p.allocs p.chunkSize p.slotsOk idx buffer =
      some a from h, Option.some.injEq] at hRestore
    rw [hRestore]
    exact .inr rfl
  · obtain ⟨m, d, hDesc, hStored, hRestore⟩ :=
      (p.session after).restore_serial hTable hEntry hFind hRing buffer
    have hInside : ¬((p.session after).image p.layouts).size <
        d.gpuOffset + (e.va - l.base) + min e.size buffer.length := Nat.not_lt.mpr (hFile d hDesc)
    have hSlice : v3Slice (p.session after).channel ((p.session after).image p.layouts) d
        (e.va - l.base) (min e.size buffer.length) = none := by
      rw [Option.eq_none_iff_forall_not_mem]
      intro plain hPlain
      obtain ⟨hStart, hStop, -⟩ := hStored.boundaries_of_v3Slice hPlain
      exact hEnds ⟨hStart, hStop⟩
    rw [if_neg hInside, hSlice,
      show (p.session after).restore p.layouts p.allocs p.chunkSize p.slotsOk idx buffer =
        some a from h, Option.some.injEq] at hRestore
    rw [hRestore]
    exact .inl rfl

/-- An allocation for which it does not hold gets none. -/
theorem V3Pair.restore_accepted {buffer : Bytes} (hAccepts : ¬p.Refuses e buffer.length)
    (hEntry : p.allocs[idx]? = some e) (hPos : 0 < min e.size buffer.length)
    (after : ByteImage.Image) :
    ∃ a, (Pair.v3 p).restore after idx buffer = some a ∧
      (a.status = .restored ∨ a.status = .passthrough) := by
  rw [V3Pair.Refuses, not_or, not_exists] at hAccepts
  obtain ⟨hTable, hAccepts⟩ := hAccepts
  rw [Nat.not_lt] at hTable
  cases hFind : findRange p.layouts e.va e.size with
  | none =>
      have hDesc : findDesc p.base.descs e.va e.size = none :=
        (findDesc_placed p.channel p.before e.va e.size p.layouts p.firstTransfer _).1 hFind
      refine ⟨⟨.passthrough, buffer⟩, ?_, .inr rfl⟩
      show (p.session after).restore _ _ _ _ idx buffer = _
      rw [V3Session.restore_eq _ hTable hEntry]
      simp only [restoreApplyAlloc, V3Session.state, hEntry, Option.bind_none,
        show ((p.session after).image p.layouts).descs = p.base.descs from rfl, hDesc]
  | some l =>
      have hBad := hAccepts l
      rw [not_and, not_or] at hBad
      obtain ⟨hNoLarge, hNoEnds⟩ := hBad hFind
      by_cases hRing : RingUsed p.layouts p.allocs p.chunkSize p.slotsOk
      · obtain ⟨m, d, slices, sizes, hStored, hCut, hSizes, hRestore⟩ :=
          (p.session after).restore_ring hTable hEntry hFind hRing buffer
        obtain ⟨front, rest, hSplit, hFront, hSlices, -, -⟩ := cutAlloc_spec hCut
        have hFits : ¬∃ s ∈ sizes.flatten, p.chunkSize < s :=
          fun hLarge => hNoLarge ⟨hRing, sizes, hSizes, hLarge⟩
        have hRun := hStored.ringApply_eq (p.session after).env_copies hSlices hSplit
          (by rw [hFront, Nat.add_zero] : total pieceSize front = e.va - l.base + 0) 0 buffer
        rw [if_neg (ring_inside hStored hCut (Nat.min_le_left _ _)), if_neg hFits, hRun] at hRestore
        exact ⟨_, hRestore, .inl rfl⟩
      · obtain ⟨m, d, hDesc, hStored, hRestore⟩ :=
          (p.session after).restore_serial hTable hEntry hFind hRing buffer
        refine ⟨_, hRestore, ?_⟩
        split
        · exact .inr rfl
        · rename_i hInside
          have hEnds : OnBoundary l (e.va - l.base) ∧
              OnBoundary l (e.va - l.base + min e.size buffer.length) := by
            by_contra hEnds
            refine hNoEnds ⟨hRing, ?_, hEnds⟩
            intro d' hDesc'
            rw [show p.base.descs = ((p.session after).image p.layouts).descs from rfl, hDesc,
              Option.some.injEq] at hDesc'
            subst hDesc'
            exact Nat.not_lt.mp hInside
          rw [hStored.v3Slice_eq hEnds.1 hEnds.2 hPos]
          exact .inl rfl

/-- A covered byte of an accepted allocation keeps what it held before the delta. -/
theorem V3Pair.nothingLost_of_applies {newSize : Nat}
    (h : (Pair.v3 p).AppliesDelta idx newSize) : (Pair.v3 p).NothingLost idx newSize := by
  intro e hEntry hLive
  by_contra hLost
  rw [not_or, not_forall] at hLost
  obtain ⟨⟨i, hCovered⟩, hAccepts⟩ := hLost
  rw [Classical.not_imp, not_not] at hCovered
  obtain ⟨hi, hCovered⟩ := hCovered
  have hLength : (List.replicate newSize (0 : UInt8)).length = newSize := List.length_replicate
  obtain ⟨a, hRestore, hStatus⟩ := V3Pair.restore_accepted
    (hLength.symm ▸ hAccepts) hEntry (by rw [hLength]; omega) fun _ => 0
  have hZero := h (fun _ => 0) _ a e hLength hEntry hLive hRestore hStatus i hi hCovered
  have hOne := h (fun _ => 1) _ a e hLength hEntry hLive
    ((p.restore_congr _ _ idx _).trans hRestore) hStatus i hi hCovered
  rw [hZero] at hOne
  exact absurd hOne (by simp)

theorem V3Pair.applies_of_nothingLost {newSize : Nat}
    (h : (Pair.v3 p).NothingLost idx newSize) : (Pair.v3 p).AppliesDelta idx newSize := by
  intro after buffer a e hSize hEntry hLive hRestore hStatus i hi hCovered
  rcases h e hEntry hLive with hFree | hRefuses
  · exact absurd hCovered (hFree i hi)
  · rcases V3Pair.restore_refused hRefuses hEntry hSize hRestore with hFailed | hOverrun
    · rw [hFailed] at hStatus
      simp at hStatus
    · rw [hOverrun] at hStatus
      simp at hStatus

end V3

/-- A v4 delta is laid over every allocation whose hook succeeds. -/
theorem V4Session.applies (x : V4Session) (idx newSize : Nat) :
    (Pair.v4 x).AppliesDelta idx newSize := by
  intro after buffer a e hSize hEntry hLive hRestore hStatus i hi hCovered
  subst hSize
  rcases V4Session.restore_reproduces hRestore hEntry with ⟨hFailed, -⟩ | rfl | ⟨hFreed, -⟩
  · rw [hFailed] at hStatus
    simp at hStatus
  · have hLength : i < (read ({ x with after := after } : V4Session).content e.va
        (min e.size buffer.length)).length := by
      rw [read_length]
      exact hi
    have hDirty : ((x.ranges.map fun r => (r.va, r.size)).any
        fun r => r.1 ≤ e.va + i && e.va + i < r.1 + r.2) = true := by
      obtain ⟨r, hr, hLow, hHigh⟩ := hCovered
      rw [List.any_eq_true]
      exact ⟨_, List.mem_map_of_mem hr, by simp [hLow, hHigh]⟩
    rw [List.getElem?_append_left hLength]
    simp only [ByteImage.read, List.getElem?_map, List.getElem?_range hi, Option.map_some,
      V4Session.content, overlaid, hDirty, if_true]
  · rw [hLive] at hFreed
    cases hFreed

/-- One page on the GPU, captured again by the fused delta. -/
def fusedPair : V3Pair where
  gcm := Gcm.clear
  channel := Channel.clear
  before := fun _ => 1
  firstTransfer := 0
  pool := ⟨id, List.Perm.refl⟩
  old := ⟨fun _ => 0, 0⟩
  layouts := [gpuRange]
  writer := .fused
  regions := [gpuRange]
  firstDeltaTransfer := 1
  deltaPool := ⟨id, List.Perm.refl⟩
  oldDelta := ⟨fun _ => 0, 0⟩
  table := []
  allocs := [onlyPage]
  chunkSize := chunkBytes
  slotsOk := true
  env := ⟨fun _ => none, fun _ => []⟩
  env_copies := clearEnv_copies

end FlashCkpt.Restore
