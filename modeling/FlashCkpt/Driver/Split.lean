import FlashCkpt.Library.Transition

/-! The tracking flags of va_blocks. A managed range has one block for each 2 MB
window it meets; ranges are split at any page, which splits the block of that page.
Pages and blocks are counted in units of 4 KB. -/
namespace FlashCkpt.Driver

open Transition

/-- Pages of a 2 MB window. -/
def blockPages : Nat := 512

theorem blockPages_pos : 0 < blockPages := by decide

/-- `live_migration` of a va_block. -/
structure Flags where
  tracked : Bool
  dirty : Bool
  dirty_tracked : dirty = true → tracked = true
  deriving DecidableEq

/-- A managed va_range and its array of blocks. Block `i` covers what the range has
of its `i`-th window. -/
structure BlockRange where
  first : Nat
  stop : Nat
  first_lt : first < stop
  blocks : Nat → Option Flags

namespace BlockRange

variable (r : BlockRange)

/-- `uvm_va_range_block_index`. -/
def blockIndex (p : Nat) : Nat := p / blockPages - r.first / blockPages

/-- `block_calc_start`. -/
def blockCalcStart (i : Nat) : Nat := max r.first ((r.first / blockPages + i) * blockPages)

/-- The page behind `block_calc_end`. -/
def blockCalcStop (i : Nat) : Nat :=
  min r.stop ((r.blockCalcStart i / blockPages + 1) * blockPages)

def numBlocks : Nat := r.blockIndex (r.stop - 1) + 1

def Has (p : Nat) : Prop := r.first ≤ p ∧ p < r.stop

instance (p : Nat) : Decidable (r.Has p) := inferInstanceAs (Decidable (_ ∧ _))

/-- The flags of the block which covers a page. -/
def flagsAt (p : Nat) : Option Flags := if r.Has p then r.blocks (r.blockIndex p) else none

end BlockRange

/-- A VA space with its managed ranges in the order of the range tree. -/
structure VaSpace where
  trackingActive : Bool
  ranges : List BlockRange
  apart : ranges.Pairwise fun r s => r.stop ≤ s.first

/-- Writes flags, and leaves the ranges as they are. -/
def VaSpace.update (s : VaSpace) (active : Bool)
    (f : BlockRange → Nat → Option Flags → Option Flags) : VaSpace where
  trackingActive := active
  ranges := s.ranges.map fun r => { r with blocks := fun i => f r i (r.blocks i) }
  apart := List.pairwise_map.mpr s.apart

/-- The flags `prepare_va_space_for_migration` writes, and those after FINALIZE. -/
def Flags.armed : Flags := ⟨true, false, by simp⟩
def Flags.zero : Flags := ⟨false, false, by simp⟩

theorem Flags.dirty_of_both : true = true → true = true := fun h => h

/-- `uvm_live_migration_record_write_fault`. -/
def Flags.recordWriteFault (f : Flags) : Flags :=
  if h : f.tracked = true then ⟨true, true, Flags.dirty_of_both⟩ else f

/-- The PREPARE_ALL of one VA space: when the work on a block fails, the flags of the
blocks up to it are written and the space does not become active. -/
def prepareVaSpace (s : VaSpace) (failedBefore : Option Nat) : VaSpace :=
  s.update (s.trackingActive || failedBefore.isNone) fun r i b =>
    if failedBefore.all fun page => r.blockCalcStart i < page then b.map fun _ => .armed else b

/-- `uvm_va_range_block_create` for the block of a page. -/
def blockCreate (s : VaSpace) (p : Nat) : VaSpace :=
  s.update s.trackingActive fun r i b =>
    if r.Has p ∧ i = r.blockIndex p ∧ b = none then
      some (if s.trackingActive then .armed else .zero)
    else b

def recordWriteFault (s : VaSpace) (p : Nat) : VaSpace :=
  s.update s.trackingActive fun r i b =>
    if r.Has p ∧ i = r.blockIndex p then b.map Flags.recordWriteFault else b

/-- FINALIZE skips a range for which no context could be allocated. -/
def finalize (s : VaSpace) (skipped : Nat → Bool) : VaSpace :=
  s.update false fun r _ b => if skipped r.first then b else b.map fun _ => .zero

/-- The lower part of a range that is split in front of a page. -/
def BlockRange.lower (r : BlockRange) (k : Nat) (h : r.first < k) : BlockRange where
  first := r.first
  stop := k
  first_lt := h
  blocks := fun i => if i < r.blockIndex k ∨ (i = r.blockIndex k ∧ r.blockCalcStart i ≠ k) then
    r.blocks i else none

/-- The new range of `uvm_va_range_split_blocks`. A populated block which spans the
split point is split: its upper half is a new block of `uvm_va_block_create`, into
which `uvm_va_block_split_locked` copies the state of the pages. -/
def BlockRange.upper (r : BlockRange) (k : Nat) (h : k < r.stop) : BlockRange where
  first := k
  stop := r.stop
  first_lt := h
  blocks := fun i =>
    if i = 0 ∧ r.blockCalcStart (r.blockIndex k) ≠ k then
      (r.blocks (r.blockIndex k)).map fun _ => .zero
    else r.blocks (r.blockIndex k + i)

def BlockRange.split (r : BlockRange) (k : Nat) : List BlockRange :=
  if h : r.first < k ∧ k < r.stop then [r.lower k h.1, r.upper k h.2] else [r]

theorem BlockRange.split_inside (r : BlockRange) (k : Nat) :
    ∀ q ∈ r.split k, r.first ≤ q.first ∧ q.stop ≤ r.stop := by
  intro q hq
  rw [BlockRange.split] at hq
  split at hq
  · rename_i h
    rcases List.mem_cons.mp hq with rfl | hq
    · exact ⟨Nat.le_refl _, Nat.le_of_lt h.2⟩
    · rw [List.mem_singleton] at hq
      subst hq
      exact ⟨Nat.le_of_lt h.1, Nat.le_refl _⟩
  · rw [List.mem_singleton] at hq
    subst hq
    exact ⟨Nat.le_refl _, Nat.le_refl _⟩

theorem BlockRange.split_apart (r : BlockRange) (k : Nat) :
    (r.split k).Pairwise fun q s => q.stop ≤ s.first := by
  rw [BlockRange.split]
  split
  · simp [BlockRange.lower, BlockRange.upper]
  · simp

/-- `uvm_va_range_split` in front of a page. -/
def splitRange (s : VaSpace) (k : Nat) : VaSpace where
  trackingActive := s.trackingActive
  ranges := s.ranges.flatMap fun r => r.split k
  apart := by
    refine List.pairwise_flatMap.mpr ⟨fun r _ => r.split_apart k, s.apart.imp ?_⟩
    intro r q hApart a ha b hb
    exact Nat.le_trans (r.split_inside k a ha).2
      (Nat.le_trans hApart (q.split_inside k b hb).1)

/-- A failed split leaves the space as it was. -/
inductive SplitLabel where
  | prepareAll (failedBefore : Option Nat)
  | blockCreate (p : Nat)
  | writeFault (p : Nat)
  | split (k : Nat) (ok : Bool)
  | finalize (skipped : Nat → Bool)

def trackingStep (s : VaSpace) : SplitLabel → Option VaSpace
  | .prepareAll failedBefore => some (prepareVaSpace s failedBefore)
  | .blockCreate p => some (blockCreate s p)
  | .writeFault p => some (recordWriteFault s p)
  | .split k ok => some (if ok then splitRange s k else s)
  | .finalize skipped => some (finalize s skipped)

/-- The flags of the block that covers a page. -/
def VaSpace.flagsAt (s : VaSpace) (p : Nat) : Option Flags := s.ranges.findSome? (·.flagsAt p)

/-- The page lies in a block that GET_DIRTY_PAGES and ioctl 116 take for dirty. -/
def VaSpace.Reported (s : VaSpace) (p : Nat) : Prop :=
  ∃ f, s.flagsAt p = some f ∧ f.tracked = true ∧ f.dirty = true

/-- The blocks GET_DIRTY_PAGES finds, with their extents. -/
def VaSpace.dirtyBlocks (s : VaSpace) : List (Nat × Nat) :=
  s.ranges.flatMap fun r => (List.range r.numBlocks).filterMap fun i =>
    (r.blocks i).bind fun f =>
      if f.tracked && f.dirty then some (r.blockCalcStart i, r.blockCalcStop i) else none

/-- GET_DIRTY_PAGES returns the first addresses of at most `max` blocks. -/
def getDirtyPages (s : VaSpace) (max : Nat) : List Nat := (s.dirtyBlocks.map Prod.fst).take max

/-- What a split must keep: the flags of every page, the reported pages, and in an
active space the tracking of the blocks it produces. -/
structure KeptBySplit (s : VaSpace) (k : Nat) (s' : VaSpace) : Prop where
  tracked : ∀ p f, s.flagsAt p = some f → f.tracked = true →
    ∃ g, s'.flagsAt p = some g ∧ g.tracked = true
  dirty : ∀ p f, s.flagsAt p = some f → f.dirty = true →
    ∃ g, s'.flagsAt p = some g ∧ g.dirty = true
  reported : ∀ p, s'.Reported p ↔ s.Reported p
  produced : s.trackingActive = true → ∀ r ∈ s.ranges, r.first < k → k < r.stop →
    k % blockPages ≠ 0 → ∀ p g, r.Has p → p / blockPages = k / blockPages →
      s'.flagsAt p = some g → g.tracked = true

/-- Every split of the step keeps what it must. -/
def KeepsFlags (s : VaSpace) : SplitLabel → Prop
  | .split k true => KeptBySplit s k (splitRange s k)
  | _ => True

/-- The split point is at a block boundary or meets no populated block, or that block
is not tracked and the space not active. -/
def SplitsOutside (s : VaSpace) : SplitLabel → Prop
  | .split k true => ∀ r ∈ s.ranges, r.first < k → k < r.stop → k % blockPages ≠ 0 →
      ∀ f, r.blocks (r.blockIndex k) = some f → f.tracked = false ∧ s.trackingActive = false
  | _ => True

section Flags

variable {s : VaSpace} {r : BlockRange} {k p : Nat}

theorem BlockRange.has_of_flagsAt {f : Flags} (h : r.flagsAt p = some f) : r.Has p := by
  rw [BlockRange.flagsAt] at h
  split at h
  · assumption
  · cases h

/-- Only one range has a page. -/
theorem findSome_flagsAt {ranges : List BlockRange}
    (hApart : ranges.Pairwise fun r s => r.stop ≤ s.first) (hr : r ∈ ranges) (hHas : r.Has p) :
    ranges.findSome? (·.flagsAt p) = r.flagsAt p := by
  induction ranges with
  | nil => cases hr
  | cons q rest ih =>
      obtain ⟨hHead, hRest⟩ := List.pairwise_cons.mp hApart
      rcases List.mem_cons.mp hr with rfl | hr
      · cases hFlags : r.flagsAt p with
        | some f => simp [hFlags]
        | none =>
            rw [List.findSome?_cons, hFlags]
            refine List.findSome?_eq_none_iff.mpr fun q hq => ?_
            have hOrder := hHead q hq
            rw [BlockRange.flagsAt, if_neg]
            simp only [BlockRange.Has] at hHas ⊢
            omega
      · have hOut : q.flagsAt p = none := by
          have hOrder := hHead r hr
          rw [BlockRange.flagsAt, if_neg]
          simp only [BlockRange.Has] at hHas ⊢
          omega
        rw [List.findSome?_cons, hOut]
        exact ih hRest hr

theorem VaSpace.flagsAt_of_has (hr : r ∈ s.ranges) (hHas : r.Has p) : s.flagsAt p = r.flagsAt p :=
  findSome_flagsAt s.apart hr hHas

theorem VaSpace.flagsAt_iff {f : Flags} :
    s.flagsAt p = some f ↔ ∃ r ∈ s.ranges, r.flagsAt p = some f := by
  constructor
  · intro h
    exact List.exists_of_findSome?_eq_some h
  · rintro ⟨r, hr, hf⟩
    rw [VaSpace.flagsAt_of_has hr (r.has_of_flagsAt hf), hf]

/-- The page lies in the upper half of the block that a split tears. -/
def Torn (r : BlockRange) (k p : Nat) : Prop :=
  r.first < k ∧ k < r.stop ∧ k ≤ p ∧ p / blockPages = k / blockPages ∧ k % blockPages ≠ 0

instance : Decidable (Torn r k p) := inferInstanceAs (Decidable (_ ∧ _))

theorem blockCalcStart_blockIndex (h : r.first < k) :
    r.blockCalcStart (r.blockIndex k) = max r.first (k / blockPages * blockPages) := by
  have hLe : r.first / blockPages ≤ k / blockPages := Nat.div_le_div_right (Nat.le_of_lt h)
  rw [BlockRange.blockCalcStart, BlockRange.blockIndex, Nat.add_sub_cancel' hLe]

/-- A block starts at the split point exactly if that is a multiple of 2 MB. -/
theorem blockCalcStart_eq_iff (h : r.first < k) :
    r.blockCalcStart (r.blockIndex k) = k ↔ k % blockPages = 0 := by
  rw [blockCalcStart_blockIndex h, blockPages]
  omega

theorem lower_flagsAt (hFirst : r.first < k) (hStop : k < r.stop) :
    (r.lower k hFirst).flagsAt p = if p < k then r.flagsAt p else none := by
  by_cases hp : r.first ≤ p ∧ p < k
  · have hIn : r.Has p := ⟨hp.1, by omega⟩
    have hHas : (r.lower k hFirst).Has p := hp
    have hBound := blockCalcStart_eq_iff hFirst
    have hDiv : p / blockPages ≤ k / blockPages := Nat.div_le_div_right (Nat.le_of_lt hp.2)
    have hBase : r.first / blockPages ≤ p / blockPages := Nat.div_le_div_right hp.1
    have hIndex : (r.lower k hFirst).blockIndex p = r.blockIndex p := rfl
    rw [BlockRange.flagsAt, if_pos hHas, if_pos hp.2, BlockRange.flagsAt, if_pos hIn, hIndex]
    refine if_pos ?_
    by_cases hSame : p / blockPages = k / blockPages
    · have hEq : r.blockIndex p = r.blockIndex k := by
        rw [BlockRange.blockIndex, BlockRange.blockIndex, hSame]
      refine Or.inr ⟨hEq, ?_⟩
      rw [hEq, ne_eq, hBound]
      simp only [blockPages] at hSame ⊢
      omega
    · refine Or.inl ?_
      rw [BlockRange.blockIndex, BlockRange.blockIndex]
      omega
  · have hNot : ¬ (r.lower k hFirst).Has p := hp
    rw [BlockRange.flagsAt, if_neg hNot]
    split
    · rw [BlockRange.flagsAt, if_neg]
      simp only [BlockRange.Has]
      omega
    · rfl

theorem upper_flagsAt (hFirst : r.first < k) (hStop : k < r.stop) :
    (r.upper k hStop).flagsAt p =
      if p < k then none
      else if Torn r k p then (r.flagsAt p).map fun _ => .zero else r.flagsAt p := by
  by_cases hp : k ≤ p ∧ p < r.stop
  · have hIn : r.Has p := ⟨by omega, hp.2⟩
    have hBound := blockCalcStart_eq_iff hFirst
    have hDiv : k / blockPages ≤ p / blockPages := Nat.div_le_div_right hp.1
    have hBase : r.first / blockPages ≤ k / blockPages :=
      Nat.div_le_div_right (Nat.le_of_lt hFirst)
    have hHas : (r.upper k hStop).Has p := hp
    rw [if_neg (by omega), BlockRange.flagsAt, if_pos hHas, BlockRange.flagsAt, if_pos hIn]
    have hIndex : (r.upper k hStop).blockIndex p = p / blockPages - k / blockPages := rfl
    by_cases hTorn : Torn r k p
    · obtain ⟨-, -, -, hSame, hInside⟩ := hTorn
      rw [if_pos ⟨hFirst, hStop, hp.1, hSame, hInside⟩, hIndex, hSame, Nat.sub_self]
      simp only [BlockRange.upper, ne_eq, hBound, hInside, not_false_eq_true, and_self, ↓reduceIte]
      rw [BlockRange.blockIndex, BlockRange.blockIndex, hSame]
    · have hNot : ¬ (p / blockPages - k / blockPages = 0 ∧
          r.blockCalcStart (r.blockIndex k) ≠ k) := by
        rintro ⟨hZero, hInside⟩
        exact hTorn ⟨hFirst, hStop, hp.1, by omega, fun hAt => hInside (hBound.mpr hAt)⟩
      have hSum : r.blockIndex k + (p / blockPages - k / blockPages) = r.blockIndex p := by
        rw [BlockRange.blockIndex, BlockRange.blockIndex]
        omega
      rw [if_neg hTorn, hIndex, ← hSum]
      exact if_neg hNot
  · have hNot : ¬ (r.upper k hStop).Has p := hp
    rw [BlockRange.flagsAt, if_neg hNot]
    split
    · rfl
    · have hOut : r.flagsAt p = none := by
        rw [BlockRange.flagsAt, if_neg]
        simp only [BlockRange.Has]
        omega
      simp [hOut]

/-- The flags of a page after a split: those of the upper half of a torn block are
zero. -/
theorem split_flagsAt {g : Flags} :
    (∃ q ∈ r.split k, q.flagsAt p = some g) ↔
      ∃ f, r.flagsAt p = some f ∧ g = if Torn r k p then .zero else f := by
  by_cases hIn : r.first < k ∧ k < r.stop
  · simp only [BlockRange.split, dif_pos hIn, List.exists_mem_cons_iff, List.not_mem_nil,
      false_and, exists_false, or_false, lower_flagsAt hIn.1 hIn.2, upper_flagsAt hIn.1 hIn.2]
    by_cases hp : p < k
    · have hNot : ¬ Torn r k p := fun h => by
        obtain ⟨-, -, hLe, -⟩ := h
        omega
      simp [hp, hNot, eq_comm]
    · by_cases hTorn : Torn r k p
      · cases hFlags : r.flagsAt p <;> simp [hp, hTorn, eq_comm]
      · simp [hp, hTorn]
  · have hNot : ¬ Torn r k p := fun h => hIn ⟨h.1, h.2.1⟩
    simp [BlockRange.split, dif_neg hIn, hNot]

theorem splitRange_flagsAt {g : Flags} :
    (splitRange s k).flagsAt p = some g ↔
      ∃ r ∈ s.ranges, ∃ f, r.flagsAt p = some f ∧ g = if Torn r k p then .zero else f := by
  rw [VaSpace.flagsAt_iff]
  simp only [splitRange, List.mem_flatMap]
  constructor
  · rintro ⟨q, ⟨r, hr, hq⟩, hg⟩
    exact ⟨r, hr, split_flagsAt.mp ⟨q, hq, hg⟩⟩
  · rintro ⟨r, hr, hf⟩
    obtain ⟨q, hq, hg⟩ := split_flagsAt.mpr hf
    exact ⟨q, ⟨r, hr, hq⟩, hg⟩

/-- A page of a range lies between the bounds of the block with its index and of no
other block. -/
theorem blockIndex_eq_iff (h : r.Has p) {i : Nat} :
    r.blockIndex p = i ↔ r.blockCalcStart i ≤ p ∧ p < r.blockCalcStop i := by
  obtain ⟨hFirst, hStop⟩ := h
  have hBase : r.first / blockPages ≤ p / blockPages := Nat.div_le_div_right hFirst
  have hDiv : max r.first ((r.first / blockPages + i) * blockPages) / blockPages =
      r.first / blockPages + i := by
    simp only [blockPages]
    omega
  rw [BlockRange.blockCalcStop, BlockRange.blockCalcStart, BlockRange.blockIndex, hDiv]
  simp only [blockPages] at hBase ⊢
  omega

/-- The reported pages are those of the blocks GET_DIRTY_PAGES finds. -/
theorem reported_iff : s.Reported p ↔ ∃ b ∈ s.dirtyBlocks, b.1 ≤ p ∧ p < b.2 := by
  simp only [VaSpace.Reported, VaSpace.flagsAt_iff, VaSpace.dirtyBlocks, List.mem_flatMap,
    List.mem_filterMap, List.mem_range, Option.bind_eq_some_iff]
  constructor
  · rintro ⟨f, ⟨r, hr, hf⟩, hTracked, hDirty⟩
    have hHas := r.has_of_flagsAt hf
    rw [BlockRange.flagsAt, if_pos hHas] at hf
    refine ⟨(r.blockCalcStart (r.blockIndex p), r.blockCalcStop (r.blockIndex p)),
      ⟨r, hr, r.blockIndex p, ?_, f, hf, ?_⟩, (blockIndex_eq_iff hHas).mp rfl⟩
    · have hLast : p / blockPages ≤ (r.stop - 1) / blockPages :=
        Nat.div_le_div_right (Nat.le_sub_one_of_lt hHas.2)
      rw [BlockRange.numBlocks, BlockRange.blockIndex, BlockRange.blockIndex]
      omega
    · rw [hTracked, hDirty]
      rfl
  · rintro ⟨b, ⟨r, hr, i, -, f, hf, hBlock⟩, hIn⟩
    split at hBlock
    · rename_i hBoth
      cases hBlock
      have hHas : r.Has p := by
        simp only [BlockRange.blockCalcStart, BlockRange.blockCalcStop] at hIn
        exact ⟨by omega, by omega⟩
      rw [Bool.and_eq_true] at hBoth
      refine ⟨f, ⟨r, hr, ?_⟩, hBoth.1, hBoth.2⟩
      rw [BlockRange.flagsAt, if_pos hHas, (blockIndex_eq_iff hHas).mpr hIn, hf]
    · cases hBlock

end Flags

/-- The first page of the upper half comes into a block with zero flags. -/
theorem splitRange_flagsAt_torn {s : VaSpace} {r : BlockRange} {k : Nat} (hr : r ∈ s.ranges)
    (hFirst : r.first < k) (hStop : k < r.stop) (hInside : k % blockPages ≠ 0) {f : Flags}
    (hf : r.blocks (r.blockIndex k) = some f) :
    s.flagsAt k = some f ∧ (splitRange s k).flagsAt k = some .zero := by
  have hHas : r.Has k := ⟨Nat.le_of_lt hFirst, hStop⟩
  have hFlags : r.flagsAt k = some f := by rw [BlockRange.flagsAt, if_pos hHas, hf]
  refine ⟨VaSpace.flagsAt_iff.mpr ⟨r, hr, hFlags⟩, ?_⟩
  refine splitRange_flagsAt.mpr ⟨r, hr, f, hFlags, ?_⟩
  rw [if_pos ⟨hFirst, hStop, Nat.le_refl k, rfl, hInside⟩]

theorem splitsOutside_of_kept {s : VaSpace} {k : Nat} (h : KeptBySplit s k (splitRange s k)) :
    SplitsOutside s (.split k true) := by
  intro r hr hFirst hStop hInside f hf
  obtain ⟨hBefore, hAfter⟩ := splitRange_flagsAt_torn hr hFirst hStop hInside hf
  constructor
  · by_contra hTracked
    obtain ⟨g, hg, hKept⟩ := h.tracked k f hBefore (by simpa using hTracked)
    rw [hAfter] at hg
    cases hg
    cases hKept
  · by_contra hActive
    have hNew := h.produced (by simpa using hActive) r hr hFirst hStop hInside k .zero
      ⟨Nat.le_of_lt hFirst, hStop⟩ rfl hAfter
    cases hNew

theorem Flags.eq_zero {f : Flags} (h : f.tracked = false) : f = .zero := by
  obtain ⟨tracked, dirty, hDirty⟩ := f
  cases dirty with
  | false =>
      cases h
      rfl
  | true =>
      have hTracked := hDirty rfl
      simp_all

theorem flagsAt_of_sameBlock {r : BlockRange} {k p : Nat} (hHas : r.Has p)
    (hSame : p / blockPages = k / blockPages) : r.flagsAt p = r.blocks (r.blockIndex k) := by
  rw [BlockRange.flagsAt, if_pos hHas, BlockRange.blockIndex, BlockRange.blockIndex, hSame]

/-- A split outside the tracked blocks changes no flags. -/
theorem SplitsOutside.flagsAt_eq {s : VaSpace} {k : Nat} (h : SplitsOutside s (.split k true))
    (p : Nat) : (splitRange s k).flagsAt p = s.flagsAt p := by
  ext g
  rw [splitRange_flagsAt, VaSpace.flagsAt_iff]
  refine exists_congr fun r => and_congr_right fun hr => ?_
  by_cases hTorn : Torn r k p
  · simp only [if_pos hTorn]
    obtain ⟨hFirst, hStop, hLe, hSame, hInside⟩ := hTorn
    have hZero : ∀ f, r.flagsAt p = some f → f = .zero := by
      intro f hf
      rw [flagsAt_of_sameBlock (r.has_of_flagsAt hf) hSame] at hf
      exact Flags.eq_zero (h r hr hFirst hStop hInside f hf).1
    constructor
    · rintro ⟨f, hf, rfl⟩
      rw [← hZero f hf]
      exact hf
    · intro hg
      exact ⟨g, hg, hZero g hg⟩
  · simp [if_neg hTorn]

theorem kept_of_splitsOutside {s : VaSpace} {k : Nat} (h : SplitsOutside s (.split k true)) :
    KeptBySplit s k (splitRange s k) where
  tracked := fun p f hf hTracked => ⟨f, by rw [h.flagsAt_eq, hf], hTracked⟩
  dirty := fun p f hf hDirty => ⟨f, by rw [h.flagsAt_eq, hf], hDirty⟩
  reported := fun p => by rw [VaSpace.Reported, VaSpace.Reported, h.flagsAt_eq]
  produced := by
    intro hActive r hr hFirst hStop hInside p g hHas hSame hg
    rw [h.flagsAt_eq, VaSpace.flagsAt_of_has hr hHas, flagsAt_of_sameBlock hHas hSame] at hg
    have hNot := (h r hr hFirst hStop hInside g hg).2
    rw [hActive] at hNot
    cases hNot

theorem keepsFlags_iff (s : VaSpace) (label : SplitLabel) :
    KeepsFlags s label ↔ SplitsOutside s label := by
  cases label with
  | split k ok =>
      cases ok with
      | true => exact ⟨splitsOutside_of_kept, kept_of_splitsOutside⟩
      | false => exact Iff.rfl
  | prepareAll failedBefore => exact Iff.rfl
  | blockCreate p => exact Iff.rfl
  | writeFault p => exact Iff.rfl
  | finalize skipped => exact Iff.rfl

/-- Over every run from every VA space: all splits keep the dirty information exactly
if each was made at a block boundary, in an unpopulated block, or in an untracked
block of a space that is not active. -/
theorem splits_keep_flags_iff (s : VaSpace) (labels : List SplitLabel) :
    Along trackingStep KeepsFlags s labels ↔ Along trackingStep SplitsOutside s labels :=
  along_congr keepsFlags_iff s labels

/-- One populated block of 512 pages. -/
def oneBlock : VaSpace where
  trackingActive := false
  ranges := [⟨0, 512, blockPages_pos, fun i => if i = 0 then some .zero else none⟩]
  apart := List.pairwise_singleton _ _

/-- Page 300 is written after PREPARE_ALL and lost by a split in front of page 256. -/
theorem not_keeps_dirtySplit :
    ¬ Along trackingStep KeepsFlags oneBlock [.prepareAll none, .writeFault 300, .split 256 true] := by
  intro h
  obtain ⟨_, h⟩ := h _ rfl
  obtain ⟨_, h⟩ := h _ rfl
  obtain ⟨hKept, _⟩ := h _ rfl
  obtain ⟨g, hg, hDirty⟩ := hKept.dirty 300 ⟨true, true, by simp⟩ (by decide) rfl
  have hZero : (splitRange (recordWriteFault (prepareVaSpace oneBlock none) 300) 256).flagsAt 300 =
      some .zero := by decide
  rw [hZero] at hg
  cases hg
  cases hDirty

end FlashCkpt.Driver
