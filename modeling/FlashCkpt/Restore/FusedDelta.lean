import FlashCkpt.Restore.FromFiles

/-! Base image and fused delta in front of the offline reader. The delta has one
block for each run of present pages of the whole span, whatever ranges the pages
belong to; the reader takes a block only if it lies inside one group of ranges of
the base image. -/
namespace FlashCkpt.Restore

open ByteImage SizeCut Intervals Crypto Image

/-- An entry of the allocation table in the gate. -/
structure GateAlloc where
  va : Nat
  size : Nat
  h2d : Bool

/-- The table and the options by which step [1] of `main` filters the ranges. -/
structure Filter where
  allocs : List GateAlloc
  userVa : Nat
  userSize : Nat
  staticImg : Bool

def Filter.keeps (f : Filter) (r : VaRange) : Bool :=
  if f.allocs.isEmpty then
    f.userVa = 0 || (f.userVa ≤ r.va && r.va + r.size ≤ f.userVa + f.userSize)
  else
    match f.allocs.find? fun a => a.va ≤ r.va && r.va + r.size ≤ a.va + a.size with
    | none => false
    | some a => !(f.staticImg && a.h2d)

/-- The managed memory: its ranges, where each page was when the base image was
captured and is at the quiesce point, and the pages whose block is dirty. -/
structure Managed where
  ranges : List VaRange
  filter : Filter
  baseResidency : Nat → Residency
  residency : Nat → Residency
  dirty : Nat → Bool
  ranges_le : ranges.length ≤ maxRanges
  apart : ranges.Pairwise fun r s => r.first + r.count ≤ s.first ∨ s.first + s.count ≤ r.first

namespace Managed

variable (m : Managed)

/-- The user ranges. -/
def filt : List VaRange := m.ranges.filter m.filter.keeps

def Filtered (p : Nat) : Prop := ∃ r ∈ m.filt, r.Has p

/-- The user ranges in the order of their addresses. -/
def sorted : List VaRange := m.filt.mergeSort fun a b => a.first ≤ b.first

def spanFirst : Nat := m.sorted.head?.elim 0 VaRange.first

def spanStop : Nat := m.sorted.getLast?.elim 0 fun r => r.first + r.count

/-- What ioctl 116 finds for a page: it looks at the dirty blocks of all managed
ranges. -/
def deltaPlace (p : Nat) : Residency :=
  if (∃ r ∈ m.ranges, r.Has p) ∧ m.dirty p = true then m.residency p else .absent

/-- The page is in the fused delta. -/
def InDelta (p : Nat) : Prop :=
  m.spanFirst ≤ p ∧ p < m.spanStop ∧ m.deltaPlace p ≠ .absent

/-- Some user page was on the GPU when the base image was captured. -/
def BaseEncrypted : Prop := ∃ p, m.Filtered p ∧ m.baseResidency p = .gpu

/-- The groups the reader makes of the user ranges. -/
def groups : List (Nat × Nat) := merge (m.sorted.map fun r => (r.va, r.size))

end Managed

/-- The two writers of a base image in encrypted mode. -/
inductive BaseWriter where
  | streaming
  | coalesced
  deriving DecidableEq, Repr

/-- The ranges in the order of the table. -/
def BaseWriter.order : BaseWriter → Managed → List VaRange
  | .streaming, m => m.filt
  | .coalesced, m => m.sorted

def BaseWriter.reach : BaseWriter → List Sections → Nat
  | .streaming, ranges => worstCaseSize (dataStart ranges.length) ranges
  | .coalesced, ranges => imageSize ranges (dataStart ranges.length)

def writeBase (w : BaseWriter) (ranges : List Sections) (pool : Schedule) (old : ByteImage.Image)
    (oldSize : Nat) : BaseFile :=
  let table := placed ranges (dataStart ranges.length)
  { version := 3
    descs := table.map Prod.snd
    data := writeAll old (pool.order (table.flatMap sectionWrites))
    size := max oldSize (w.reach ranges) }

/-- The buffer for the CPU pages of a span. -/
def cpuBufCap : Nat := 2 * 1024 * 1024 * 1024

/-- A run of the encrypted mode that succeeds, but for what the memory holds: each
user range of the base image with the number of its first transfer, and the span
as ioctl 116 hands it over. The coalesced writer takes GPU pages only. -/
structure FusedRun where
  memory : Managed
  kept : memory.filt ≠ []
  writer : BaseWriter
  ranges : List (Nat × RangeLayout)
  follow : ranges.map (fun p => (p.2.base, p.2.residency)) =
    (writer.order memory).map fun r => (r.va, r.places memory.baseResidency)
  resident : writer = .coalesced → ∀ p, memory.Filtered p → memory.baseResidency p = .gpu
  span : RangeLayout
  span_base : span.base = memory.spanFirst * pageSize
  span_residency : span.residency =
    (List.range (memory.spanStop - memory.spanFirst)).map fun i =>
      memory.deltaPlace (memory.spanFirst + i)
  cpu_fits : span.residency.count .cpu * pageSize ≤ cpuBufCap
  aligned : Aligned span.transfers (presentRuns 0 span.residency)

/-- What the memory held when the base image was captured and holds at the quiesce
point, with the keys of the session and the files that are written over. A page
that is absent reads as zero, and one that is absent or in a clean block at the
quiesce point is as it was captured. -/
structure Contents (x : FusedRun) where
  keys : Keys
  driver : keys.device = .confidential
  before : ByteImage.Image
  after : ByteImage.Image
  absent : ∀ a, x.memory.baseResidency (a / pageSize) = .absent → before a = 0
  unchanged : ∀ a, x.memory.dirty (a / pageSize) = false ∨
    x.memory.residency (a / pageSize) = .absent → after a = before a
  firstTransfer : Nat
  pool : Schedule
  old : ByteImage.Image
  oldSize : Nat
  deltaPool : Schedule
  oldDelta : ByteImage.Image
  oldDeltaSize : Nat

namespace Contents

variable {x : FusedRun} (c : Contents x)

def sections : List Sections :=
  x.ranges.map fun p => p.2.sections c.keys.channel c.before p.1

def base : BaseFile := writeBase x.writer c.sections c.pool c.old c.oldSize

def restore : Option Restored := do
  let regions ← fusedRegions x.span.base
    (readSpan c.keys.channel c.after c.firstTransfer x.span)
  restoreFromFilesEncrypted c.keys c.base
    (writeDelta .fused regions c.deltaPool c.oldDelta c.oldDeltaSize)

end Contents

/-- Whatever the memory holds, the restore succeeds and has every page of every
user range, with its content at the quiesce point. -/
def FusedRun.Reproduced (x : FusedRun) : Prop :=
  ∀ c : Contents x, ∃ result, c.restore = some result ∧ ∀ p, x.memory.Filtered p →
    (∃ g ∈ result.groups, g.1 ≤ p * pageSize ∧ (p + 1) * pageSize ≤ g.1 + g.2) ∧
    read result.image (p * pageSize) pageSize = read c.after (p * pageSize) pageSize

/-- The reader has room for the groups; with ciphertext in the base image no page
of the delta in a user range stands beside one that is in none; without, the delta
has CPU pages of user ranges only. -/
structure FusedRun.Fits (x : FusedRun) : Prop where
  groups : x.memory.groups.length ≤ maxGroups
  cut : x.memory.BaseEncrypted → ∀ p, x.memory.InDelta p → x.memory.InDelta (p + 1) →
    (x.memory.Filtered p ↔ x.memory.Filtered (p + 1))
  plain : ¬x.memory.BaseEncrypted → ∀ p, x.memory.InDelta p →
    x.memory.Filtered p ∧ x.memory.residency p ≠ .gpu

namespace VaRange

theorem mergeSort_pairwise (ranges : List VaRange) :
    (ranges.mergeSort fun a b => a.first ≤ b.first).Pairwise fun a b => a.first ≤ b.first :=
  List.pairwise_mergeSort' (Order.Preimage VaRange.first (· ≤ ·)) ranges

/-- Ranges that do not overlap lie between the start of the first one and the end of
the last one. -/
theorem mem_span {sorted : List VaRange} (hOrder : sorted.Pairwise fun a b => a.first ≤ b.first)
    (hApart : ∀ a ∈ sorted, ∀ b ∈ sorted, a ≠ b →
      a.first + a.count ≤ b.first ∨ b.first + b.count ≤ a.first)
    {r : VaRange} (hMem : r ∈ sorted) {p : Nat} (hHas : r.Has p) :
    sorted.head?.elim 0 VaRange.first ≤ p ∧
      p < sorted.getLast?.elim 0 fun r => r.first + r.count := by
  obtain ⟨hLow, hHigh⟩ := hHas
  refine ⟨?_, ?_⟩
  · cases sorted with
    | nil => exact Nat.zero_le p
    | cons head rest =>
        show head.first ≤ p
        rcases List.mem_cons.mp hMem with rfl | hRest
        · exact hLow
        · have := (List.pairwise_cons.mp hOrder).1 r hRest
          omega
  · obtain hNil | ⟨front, last, hList⟩ := List.eq_nil_or_concat sorted
    · rw [hNil] at hMem
      cases hMem
    rw [List.concat_eq_append] at hList
    have hLast : last ∈ sorted := by simp [hList]
    have hStop : (sorted.getLast?.elim 0 fun r => r.first + r.count) = last.first + last.count := by
      rw [hList, List.getLast?_concat]
      rfl
    rw [hStop]
    by_cases hSame : r = last
    · rw [← hSame]
      exact hHigh
    · have hBoth := hApart r hMem last hLast hSame
      rw [hList] at hMem hOrder
      have hFront : r ∈ front := by simpa [hSame] using hMem
      have hBefore := (List.pairwise_append.mp hOrder).2.2 r hFront last (by simp)
      have := last.pos
      omega

end VaRange

namespace Managed

variable {m : Managed}

theorem mem_sorted {r : VaRange} : r ∈ m.sorted ↔ r ∈ m.filt := List.mem_mergeSort

theorem sorted_pairwise : m.sorted.Pairwise fun a b => a.first ≤ b.first :=
  VaRange.mergeSort_pairwise m.filt

theorem filt_apart {r s : VaRange} (hr : r ∈ m.filt) (hs : s ∈ m.filt) (hNe : r ≠ s) :
    r.first + r.count ≤ s.first ∨ s.first + s.count ≤ r.first := by
  have hSymm : Std.Symm fun r s : VaRange =>
      r.first + r.count ≤ s.first ∨ s.first + s.count ≤ r.first := ⟨fun _ _ => Or.symm⟩
  exact (m.apart.sublist List.filter_sublist).forall hr hs hNe

/-- The user ranges lie in the span. -/
theorem filtered_span {p : Nat} (h : m.Filtered p) : m.spanFirst ≤ p ∧ p < m.spanStop := by
  obtain ⟨r, hr, hHas⟩ := h
  exact VaRange.mem_span m.sorted_pairwise
    (fun a ha b hb hNe => filt_apart (mem_sorted.mp ha) (mem_sorted.mp hb) hNe)
    (mem_sorted.mpr hr) hHas

theorem covered_iff (a : Nat) :
    Covered (m.sorted.map fun r => (r.va, r.size)) a ↔ m.Filtered (a / pageSize) := by
  simp only [Covered, Filtered, List.mem_map, exists_exists_and_eq_and, mem_sorted,
    VaRange.has_div]

/-- A block lies inside one group if and only if all its pages are user pages. -/
theorem inside_groups_iff (b : VaRange) :
    (∃ g ∈ m.groups, g.1 ≤ b.va ∧ b.va + b.size ≤ g.1 + g.2) ↔
      ∀ p, b.Has p → m.Filtered p := by
  have hOrder : (m.sorted.map fun r => (r.va, r.size)).Pairwise fun a b => a.1 ≤ b.1 :=
    List.pairwise_map.mpr (m.sorted_pairwise.imp fun hLe => Nat.mul_le_mul_right pageSize hLe)
  have hPos : b.va < b.va + b.size := by
    have := Nat.mul_pos b.pos (by decide : 0 < pageSize)
    rw [VaRange.size]
    omega
  rw [groups, inside_merge_iff hOrder hPos]
  simp only [covered_iff]
  refine ⟨?_, ?_⟩
  · intro h p hp
    have hPage : p * pageSize / pageSize = p := Nat.mul_div_cancel p (by decide)
    rw [← hPage, VaRange.has_div] at hp
    rw [← hPage]
    exact h _ hp.1 hp.2
  · intro h a hLow hHigh
    exact h _ ((b.has_div a).mpr ⟨hLow, hHigh⟩)

/-- A run of pages in the delta with none of the delta beside it. -/
structure IsBlock (m : Managed) (b : VaRange) : Prop where
  inDelta : ∀ p, b.Has p → m.InDelta p
  right : ¬m.InDelta (b.first + b.count)
  left : 0 < b.first → ¬m.InDelta (b.first - 1)

/-- A block that has a page has the pages of the delta beside it. -/
theorem IsBlock.has_succ {b : VaRange} (h : m.IsBlock b) {p : Nat} (hp : m.InDelta p)
    (hNext : m.InDelta (p + 1)) : b.Has p ↔ b.Has (p + 1) := by
  refine ⟨fun hHas => ⟨by have := hHas.1; omega, ?_⟩, fun hHas => ⟨?_, by have := hHas.2; omega⟩⟩
  · by_contra hEnd
    have hLast : p + 1 = b.first + b.count := by
      have := hHas.2
      omega
    exact h.right (hLast ▸ hNext)
  · by_contra hStart
    have hFirst : b.first = p + 1 := by
      have := hHas.1
      omega
    exact h.left (by omega) (by rw [hFirst]; exact hp)

/-- Two blocks with a page in common are the same. -/
theorem IsBlock.has_of_has {b b' : VaRange} (h : m.IsBlock b) (h' : m.IsBlock b') {p q : Nat}
    (hp : b.Has p) (hp' : b'.Has p) (hq : b'.Has q) : b.Has q := by
  obtain ⟨hLow, hHigh⟩ := hp
  obtain ⟨hLow', hHigh'⟩ := hp'
  refine ⟨?_, ?_⟩
  · by_contra hBefore
    have hFirst : b'.first ≤ q := hq.1
    exact h.left (by omega) (h'.inDelta _ ⟨by omega, by omega⟩)
  · by_contra hBehind
    have hLast : q < b'.first + b'.count := hq.2
    exact h.right (h'.inDelta _ ⟨by omega, by omega⟩)

/-- The page is in a block that has user pages only. -/
def Taken (m : Managed) (p : Nat) : Prop :=
  ∃ b, m.IsBlock b ∧ b.Has p ∧ ∀ q, b.Has q → m.Filtered q

/-- When user pages and others are never beside each other in the delta, a block
that has a user page has no other pages. -/
theorem IsBlock.filtered {b : VaRange} (h : m.IsBlock b)
    (hCut : ∀ p, m.InDelta p → m.InDelta (p + 1) → (m.Filtered p ↔ m.Filtered (p + 1)))
    {q : Nat} (hq : b.Has q) (hUser : m.Filtered q) (p : Nat) (hp : b.Has p) : m.Filtered p := by
  have hFirst : ∀ i, b.Has (b.first + i) → (m.Filtered (b.first + i) ↔ m.Filtered b.first) := by
    intro i
    induction i with
    | zero => exact fun _ => Iff.rfl
    | succ i ih =>
        intro hHas
        have hPrev : b.Has (b.first + i) := ⟨by omega, by have := hHas.2; omega⟩
        rw [← ih hPrev]
        exact (hCut _ (h.inDelta _ hPrev) (h.inDelta _ hHas)).symm
  have hTo : ∀ p, b.Has p → (m.Filtered p ↔ m.Filtered b.first) := by
    intro p hp
    have hAt := hFirst (p - b.first)
    rw [Nat.add_sub_cancel' hp.1] at hAt
    exact hAt hp
  exact (hTo p hp).mpr ((hTo q hq).mp hUser)

end Managed

namespace FusedRun

variable (x : FusedRun)

theorem span_place (i : Nat) : x.span.residency[i]? =
    if i < x.memory.spanStop - x.memory.spanFirst then
      some (x.memory.deltaPlace (x.memory.spanFirst + i))
    else none := by
  rw [x.span_residency, List.getElem?_map]
  split
  · rename_i hIn
    rw [List.getElem?_range hIn, Option.map_some]
  · rename_i hOut
    rw [List.getElem?_eq_none (by simpa using hOut), Option.map_none]

theorem inDelta_iff (i : Nat) : x.memory.InDelta (x.memory.spanFirst + i) ↔
    ∃ r, x.span.residency[i]? = some r ∧ r ≠ .absent := by
  rw [x.span_place, Managed.InDelta]
  split
  · rename_i hIn
    simp only [Option.some.injEq, exists_eq_left']
    exact ⟨fun h => h.2.2, fun h => ⟨by omega, by omega, h⟩⟩
  · rename_i hOut
    simp only [reduceCtorEq, false_and, exists_false, iff_false]
    rintro ⟨-, hStop, -⟩
    omega

/-- The runs of the consumer are the blocks. -/
theorem isBlock_of_isRun {start : Nat} {run : List Residency}
    (h : IsRun 0 x.span.residency start run) :
    ∃ b : VaRange, b.first = x.memory.spanFirst + start ∧ b.count = run.length ∧
      x.memory.IsBlock b ∧ run = b.places x.memory.deltaPlace := by
  have hIn : ∀ i < run.length, x.span.residency[start + i]? = run[i]? ∧
      x.memory.InDelta (x.memory.spanFirst + (start + i)) := by
    intro i hi
    have hSame := h.same i hi
    have hPresent := h.present i hi
    rw [Nat.sub_zero] at hSame hPresent
    refine ⟨hSame, (x.inDelta_iff _).mpr ⟨run[i], ?_, ?_⟩⟩
    · rw [hSame, List.getElem?_eq_getElem hi]
    · rintro hAbsent
      apply hPresent
      rw [hSame, List.getElem?_eq_getElem hi, hAbsent]
  refine ⟨⟨x.memory.spanFirst + start, run.length, h.pos⟩, rfl, rfl, ⟨?_, ?_, ?_⟩, ?_⟩
  · rintro p ⟨hLow, hHigh⟩
    dsimp only at hLow hHigh
    have hPage := (hIn (p - (x.memory.spanFirst + start)) (by omega)).2
    rwa [show x.memory.spanFirst + (start + (p - (x.memory.spanFirst + start))) = p by omega]
      at hPage
  · dsimp only
    rw [Nat.add_assoc, x.inDelta_iff]
    rintro ⟨r, hr, hNot⟩
    have hRight := h.right
    rw [Nat.sub_zero, hr] at hRight
    simp [hNot] at hRight
  · dsimp only
    intro _
    rcases Nat.eq_zero_or_pos start with hZero | hPos
    · rintro ⟨hLow, -⟩
      omega
    · rw [Nat.add_sub_assoc hPos, x.inDelta_iff]
      rintro ⟨r, hr, hNot⟩
      have hLeft := h.left hPos
      rw [Nat.sub_zero, hr, Option.some.injEq] at hLeft
      exact hNot hLeft
  · apply List.ext_getElem?
    intro i
    by_cases hi : i < run.length
    · have hSame := (hIn i hi).1
      rw [← hSame, x.span_place, VaRange.places, List.getElem?_map, List.getElem?_range hi,
        Option.map_some, Nat.add_assoc]
      apply if_pos
      have := (hIn i hi).2.2.1
      omega
    · rw [List.getElem?_eq_none (by omega), List.getElem?_eq_none (by simp [VaRange.places]; omega)]

/-- The regions of the delta: one for each block. -/
theorem exists_blocks : ∃ regions : List RangeLayout,
    (∀ channel memory n, fusedRegions x.span.base (readSpan channel memory n x.span) =
      some (capture channel memory n regions)) ∧
    (∀ l ∈ regions, ∃ b, x.memory.IsBlock b ∧ Follows l b x.memory.deltaPlace) ∧
    ∀ p, x.memory.InDelta p → ∃ l ∈ regions, ∃ b, x.memory.IsBlock b ∧
      Follows l b x.memory.deltaPlace ∧ b.Has p := by
  obtain ⟨regions, hRuns, hFused⟩ := fusedRegions_eq x.span x.aligned
  have hBlock : ∀ run ∈ presentRuns 0 x.span.residency, ∀ l : RangeLayout,
      (x.span.base + run.1 * pageSize, run.2) = (l.base, l.residency) →
      ∃ b : VaRange, b.first = x.memory.spanFirst + run.1 ∧ b.count = run.2.length ∧
        x.memory.IsBlock b ∧ Follows l b x.memory.deltaPlace := by
    intro run hRun l hEq
    obtain ⟨b, hFirst, hCount, hIs, hPlaces⟩ :=
      x.isBlock_of_isRun (presentRuns_isRun 0 x.span.residency run hRun)
    rw [Prod.mk.injEq] at hEq
    refine ⟨b, hFirst, hCount, hIs, ?_, ?_⟩
    · rw [← hEq.1, x.span_base, VaRange.va, hFirst, Nat.add_mul]
    · rw [← hEq.2, hPlaces]
  refine ⟨regions, hFused, ?_, ?_⟩
  · intro l hl
    have hMem := List.mem_map_of_mem (f := fun l : RangeLayout => (l.base, l.residency)) hl
    rw [← hRuns] at hMem
    obtain ⟨run, hRun, hEq⟩ := List.mem_map.mp hMem
    obtain ⟨b, -, -, hIs, hFollows⟩ := hBlock run hRun l hEq
    exact ⟨b, hIs, hFollows⟩
  · intro p hp
    have hLow := hp.1
    obtain ⟨r, hPlace, hPresent⟩ := (x.inDelta_iff (p - x.memory.spanFirst)).mp
      (by rwa [Nat.add_sub_cancel' hLow])
    obtain ⟨run, hRun, hFrom, hTo⟩ := exists_presentRun 0 hPlace hPresent
    have hMem := List.mem_map_of_mem
      (f := fun r : Nat × List Residency => (x.span.base + r.1 * pageSize, r.2)) hRun
    rw [hRuns] at hMem
    obtain ⟨l, hl, hEq⟩ := List.mem_map.mp hMem
    obtain ⟨b, hFirst, hCount, hIs, hFollows⟩ := hBlock run hRun l hEq.symm
    exact ⟨l, hl, b, hIs, hFollows, by rw [hFirst]; omega, by rw [hFirst, hCount]; omega⟩

end FusedRun

theorem Follows.pagesOn_gpu {l : RangeLayout} {r : VaRange} {place : Nat → Residency}
    (h : Follows l r place) :
    pagesOn l.residency .gpu = [] ↔ ∀ p, r.Has p → place p ≠ .gpu := by
  rw [← List.length_eq_zero_iff, pagesOn_length, List.count_eq_zero, h.residency, VaRange.places]
  simp only [List.mem_map, List.mem_range, not_exists, not_and]
  refine ⟨?_, ?_⟩
  · rintro hNone p ⟨hLow, hHigh⟩
    have hPage := hNone (p - r.first) (by omega)
    rwa [Nat.add_sub_cancel' hLow] at hPage
  · intro hNone i hi
    exact hNone _ ⟨by omega, by omega⟩

/-- A range has no ciphertext if and only if no page of it is on the GPU. -/
theorem Holds.cryptoMetaBytes_eq_zero {channel : Channel} {memory : ByteImage.Image}
    {place : Nat → Residency} {data : ByteImage.Image} {size : Nat} {r : VaRange} {d : RangeDesc}
    (h : Holds channel memory place data size r d) :
    d.cryptoMetaBytes = 0 ↔ ∀ p, r.Has p → place p ≠ .gpu := by
  obtain ⟨-, -, -, -, -, -, hMeta⟩ := h.stored.lengths
  have hTransfers := length_le_sum fun t ht => (h.layout.transfer_pages t ht).1
  have hSum := h.layout.transfer_sum
  rw [← h.follows.pagesOn_gpu, hMeta, Nat.mul_eq_zero, or_iff_left (by decide), ← List.length_eq_zero_iff]
  refine ⟨?_, fun hNone => by omega⟩
  intro hNone
  rw [List.length_eq_zero_iff] at hNone
  rw [← hSum, hNone, List.sum_nil]

namespace Contents

variable {x : FusedRun} (c : Contents x)

theorem mem_order {w : BaseWriter} {m : Managed} {r : VaRange} : r ∈ w.order m ↔ r ∈ m.filt := by
  cases w with
  | streaming => exact Iff.rfl
  | coalesced => exact Managed.mem_sorted

theorem base_stored {p : Sections × RangeDesc}
    (hp : p ∈ placed c.sections (dataStart c.sections.length)) :
    StoredAt c.base.data c.base.size p.1 p.2 := by
  apply storedAt_writeAll c.pool c.old _ hp
  intro q hq
  refine Nat.le_trans ?_ (Nat.le_max_right _ _)
  cases x.writer with
  | streaming =>
      refine placed_stop ?_ hq
      intro r hr
      obtain ⟨entry, -, rfl⟩ := List.mem_map.mp hr
      exact entry.2.sections_fits _ _ _
  | coalesced => exact placed_stop_imageSize hq

theorem base_holds {d : RangeDesc} (hd : d ∈ c.base.descs) : ∃ r ∈ x.memory.filt,
    Nonempty (Holds c.keys.channel c.before x.memory.baseResidency c.base.data c.base.size r d) := by
  obtain ⟨p, hp, rfl⟩ := List.mem_map.mp hd
  obtain ⟨entry, hEntry, hSections⟩ := List.mem_map.mp (placed_desc hp).1
  have hMem := List.mem_map_of_mem
    (f := fun p : Nat × RangeLayout => (p.2.base, p.2.residency)) hEntry
  rw [x.follow] at hMem
  obtain ⟨r, hr, hEq⟩ := List.mem_map.mp hMem
  rw [Prod.mk.injEq] at hEq
  exact ⟨r, mem_order.mp hr, ⟨entry.2, entry.1, ⟨hEq.1.symm, hEq.2.symm⟩,
    hSections ▸ c.base_stored hp⟩⟩

/-- The table of the base image names the user ranges. -/
theorem base_intervals : c.base.descs.map (fun d => (d.baseVa, d.length)) =
    (x.writer.order x.memory).map fun r => (r.va, r.size) := by
  have hPlaced : ∀ (ranges : List Sections) off,
      (placed ranges off).map (fun p => (p.2.baseVa, p.2.length)) =
        ranges.map fun s => (s.baseVa, s.length) := by
    intro ranges
    induction ranges with
    | nil => exact fun _ => rfl
    | cons s rest ih => exact fun off => by rw [placed, List.map_cons, ih, List.map_cons]; rfl
  have hLengths := congrArg (List.map fun p : Nat × List Residency => (p.1, p.2.length * pageSize))
    x.follow
  rw [List.map_map, List.map_map] at hLengths
  show ((placed c.sections _).map Prod.snd).map _ = _
  rw [List.map_map]
  refine (hPlaced c.sections _).trans ?_
  rw [sections, List.map_map]
  refine Eq.trans ?_ (hLengths.trans ?_)
  · rfl
  · apply List.map_congr_left
    intro r _
    simp [VaRange.places, VaRange.size]

theorem base_isV3 : isV3 c.base = true := rfl

theorem groupDescs_base : groupDescs c.base.descs = x.memory.groups := by
  have hSort : ∀ ranges : List VaRange,
      (ranges.map fun r => (r.va, r.size)).mergeSort (fun a b => decide (a.1 ≤ b.1)) =
        (ranges.mergeSort fun a b => a.first ≤ b.first).map fun r => (r.va, r.size) := by
    intro ranges
    refine (List.map_mergeSort ?_).symm
    intro a _ b _
    apply decide_eq_decide.mpr
    exact (Nat.mul_le_mul_right_iff (by decide : 0 < pageSize)).symm
  have hDescs : (sortDescs c.base.descs).map (fun d => (d.baseVa, d.length)) =
      (c.base.descs.map fun d => (d.baseVa, d.length)).mergeSort fun a b => decide (a.1 ≤ b.1) :=
    List.map_mergeSort fun _ _ _ _ => rfl
  rw [groupDescs, hDescs, c.base_intervals, hSort, Managed.groups]
  cases x.writer with
  | streaming => rfl
  | coalesced =>
      rw [BaseWriter.order, List.mergeSort_of_pairwise]
      exact x.memory.sorted_pairwise.imp decide_eq_true

theorem base_length : c.base.descs.length ≤ maxRanges := by
  have hLength := congrArg List.length c.base_intervals
  rw [List.length_map, List.length_map] at hLength
  have hFilt : x.memory.filt.length ≤ x.memory.ranges.length := List.length_filter_le _ _
  have hLe := x.memory.ranges_le
  have hOrder : (x.writer.order x.memory).length = x.memory.filt.length := by
    cases x.writer with
    | streaming => rfl
    | coalesced => exact List.length_mergeSort _
  omega

theorem base_shows (a : Nat) :
    (∃ d ∈ sortDescs c.base.descs, Shows x.memory.baseResidency d a) ↔
      x.memory.Filtered (a / pageSize) ∧ x.memory.baseResidency (a / pageSize) ≠ .absent := by
  simp only [sortDescs, List.mem_mergeSort]
  refine ⟨?_, ?_⟩
  · rintro ⟨d, hd, hShows⟩
    obtain ⟨r, hr, ⟨h⟩⟩ := c.base_holds hd
    rw [h.shows_iff] at hShows
    exact ⟨⟨r, hr, hShows.1⟩, hShows.2⟩
  · rintro ⟨⟨r, hr, hHas⟩, hPlace⟩
    have hMem := List.mem_map_of_mem (f := fun r : VaRange => (r.va, r.size))
      (mem_order (w := x.writer).mpr hr)
    rw [← c.base_intervals] at hMem
    obtain ⟨d, hd, hEq⟩ := List.mem_map.mp hMem
    rw [Prod.mk.injEq] at hEq
    rw [r.has_div, ← hEq.1, ← hEq.2] at hHas
    exact ⟨d, hd, hHas.1, hHas.2, hPlace⟩

/-- The base image alone has the captured content of every user page. -/
theorem base_content {a : Nat} (hUser : x.memory.Filtered (a / pageSize)) :
    (if ∃ d ∈ sortDescs c.base.descs, Shows x.memory.baseResidency d a then c.before a else 0) =
      c.before a := by
  split
  · rfl
  · rename_i hHidden
    rw [base_shows, not_and, not_not] at hHidden
    exact (c.absent a (hHidden hUser)).symm

/-- The reader looks for ciphertext in the base image only. -/
theorem base_encrypted_iff :
    (c.base.descs.all fun d => d.cryptoMetaBytes = 0) = true ↔ ¬x.memory.BaseEncrypted := by
  simp only [List.all_eq_true, decide_eq_true_eq]
  refine ⟨?_, ?_⟩
  · rintro hNone ⟨p, hUser, hGpu⟩
    have hShown : ∃ d ∈ sortDescs c.base.descs, Shows x.memory.baseResidency d (p * pageSize) := by
      rw [base_shows, Nat.mul_div_cancel p (by decide)]
      exact ⟨hUser, by rw [hGpu]; decide⟩
    obtain ⟨d, hd, hShows⟩ := hShown
    rw [sortDescs, List.mem_mergeSort] at hd
    obtain ⟨r, -, ⟨h⟩⟩ := c.base_holds hd
    rw [h.shows_iff, Nat.mul_div_cancel p (by decide)] at hShows
    exact h.cryptoMetaBytes_eq_zero.mp (hNone d hd) p hShows.1 hGpu
  · intro hNone d hd
    obtain ⟨r, hr, ⟨h⟩⟩ := c.base_holds hd
    rw [h.cryptoMetaBytes_eq_zero]
    exact fun p hp hGpu => hNone ⟨p, ⟨r, hr, hp⟩, hGpu⟩

/-- The blocks of the delta, and what the reader gets. -/
theorem exists_delta : ∃ delta : IncDelta,
    c.restore = restoreFromFilesEncrypted c.keys c.base delta ∧
    delta.magic = incDeltaMagic ∧
    (∀ d ∈ delta.blocks, ∃ b, x.memory.IsBlock b ∧ Nonempty (Holds c.keys.channel c.after
      x.memory.deltaPlace delta.data delta.size b d)) ∧
    ∀ p, x.memory.InDelta p → ∃ d ∈ delta.blocks, ∃ b, x.memory.IsBlock b ∧
      Nonempty (Holds c.keys.channel c.after x.memory.deltaPlace delta.data delta.size b d) ∧
      b.Has p := by
  obtain ⟨regions, hFused, hBlocks, hPages⟩ := x.exists_blocks
  obtain ⟨hDescs, hRegions⟩ := writeDelta_stored c.keys.channel c.after c.firstTransfer regions
    .fused c.deltaPool c.oldDelta c.oldDeltaSize
  refine ⟨writeDelta .fused (capture c.keys.channel c.after c.firstTransfer regions) c.deltaPool
    c.oldDelta c.oldDeltaSize, ?_, rfl, ?_, ?_⟩
  · rw [restore, hFused]
    rfl
  · intro d hd
    obtain ⟨l, hl, m, hStored⟩ := hDescs d hd
    obtain ⟨b, hIs, hFollows⟩ := hBlocks l hl
    exact ⟨b, hIs, ⟨l, m, hFollows, hStored⟩⟩
  · intro p hp
    obtain ⟨l, hl, b, hIs, hFollows, hHas⟩ := hPages p hp
    obtain ⟨d, hd, m, hStored⟩ := hRegions l hl
    exact ⟨d, hd, b, hIs, ⟨l, m, hFollows, hStored⟩, hHas⟩

/-- The reader takes a block if and only if all its pages are user pages. -/
theorem findGroup_isSome {b : VaRange} {d : RangeDesc} (hVa : d.baseVa = b.va)
    (hSize : d.length = b.size) :
    (findGroup x.memory.groups d).isSome ↔ ∀ p, b.Has p → x.memory.Filtered p := by
  rw [← Managed.inside_groups_iff, findGroup, List.find?_isSome]
  simp only [Bool.and_eq_true, decide_eq_true_eq, hVa, hSize]

/-- A base image with more groups than the reader has room for is refused. -/
theorem restore_none_of_groups (h : maxGroups < x.memory.groups.length) : c.restore = none := by
  obtain ⟨delta, hRestore, -⟩ := c.exists_delta
  rw [hRestore, restoreFromFilesEncrypted, c.groupDescs_base]
  have hPlain : restoreFromFiles c.base delta = none := by
    rw [restoreFromFiles, c.groupDescs_base]
    exact if_pos (.inr h)
  rw [if_neg (Nat.not_lt.mpr c.base_length), hPlain, if_pos h, ite_self]

/-- With ciphertext in the base image the reader has the pages of the blocks it
takes from the delta, and the others from the base image. -/
theorem restore_encrypted (hEncrypted : x.memory.BaseEncrypted)
    (hGroups : x.memory.groups.length ≤ maxGroups) :
    ∃ image, c.restore = some ⟨x.memory.groups, image⟩ ∧
      ∀ a, x.memory.Filtered (a / pageSize) →
        (x.memory.Taken (a / pageSize) → image a = c.after a) ∧
        (¬x.memory.Taken (a / pageSize) → image a = c.before a) := by
  obtain ⟨delta, hRestore, hMagic, hBlocks, hPages⟩ := c.exists_delta
  have hBase : (sortDescs c.base.descs).foldlM (restoreRange c.keys c.base) (fun _ => 0) =
      some fun a => if ∃ d ∈ sortDescs c.base.descs, Shows x.memory.baseResidency d a then
        c.before a else 0 := by
    apply foldlM_shows
    intro d hd image
    obtain ⟨r, -, ⟨h⟩⟩ := c.base_holds (List.mem_mergeSort.mp hd)
    exact restoreRange_shows c.driver c.base_isV3 h image
  have hDelta : ∀ image,
      delta.blocks.foldl (applyBlock c.keys (isV3 c.base) x.memory.groups delta) image =
      fun a => if ∃ d ∈ delta.blocks, (findGroup x.memory.groups d).isSome ∧
        Shows x.memory.deltaPlace d a then c.after a else image a := by
    apply foldl_shows
    intro d hd image
    obtain ⟨b, -, ⟨h⟩⟩ := hBlocks d hd
    rw [c.base_isV3]
    exact applyBlock_shows c.driver h image
  have hShown : ∀ a, (∃ d ∈ delta.blocks, (findGroup x.memory.groups d).isSome ∧
      Shows x.memory.deltaPlace d a) ↔ x.memory.Taken (a / pageSize) := by
    intro a
    refine ⟨?_, ?_⟩
    · rintro ⟨d, hd, hGroup, hShows⟩
      obtain ⟨b, hIs, ⟨h⟩⟩ := hBlocks d hd
      rw [findGroup_isSome h.interval.1 h.interval.2] at hGroup
      exact ⟨b, hIs, ((h.shows_iff a).mp hShows).1, hGroup⟩
    · rintro ⟨b, hIs, hHas, hAll⟩
      have hIn := hIs.inDelta _ hHas
      obtain ⟨d, hd, b', hIs', ⟨h⟩, hHas'⟩ := hPages _ hIn
      refine ⟨d, hd, ?_, (h.shows_iff a).mpr ⟨hHas', hIn.2.2⟩⟩
      rw [findGroup_isSome h.interval.1 h.interval.2]
      exact fun q hq => hAll q (hIs.has_of_has hIs' hHas hHas' hq)
  refine ⟨fun a => if ∃ d ∈ delta.blocks, (findGroup x.memory.groups d).isSome ∧
    Shows x.memory.deltaPlace d a then c.after a else if ∃ d ∈ sortDescs c.base.descs,
      Shows x.memory.baseResidency d a then c.before a else 0, ?_, ?_⟩
  · rw [hRestore, restoreFromFilesEncrypted, c.groupDescs_base]
    rw [if_neg (Nat.not_lt.mpr c.base_length),
      if_neg fun hPlain => c.base_encrypted_iff.mp hPlain hEncrypted,
      if_neg (Nat.not_lt.mpr hGroups), hBase, hMagic]
    dsimp only [Option.bind_eq_bind, Option.bind_some]
    rw [if_neg (fun hNe => hNe rfl), hDelta]
    rfl
  · intro a hUser
    refine ⟨fun hTaken => if_pos ((hShown a).mpr hTaken), fun hNot => ?_⟩
    exact (if_neg fun hShows => hNot ((hShown a).mp hShows)).trans (c.base_content hUser)

/-- Without ciphertext in the base image the plain reader is called. It refuses a
delta with a block that is not inside one group. -/
theorem restore_none_of_outside (hPlain : ¬x.memory.BaseEncrypted) {p : Nat}
    (hIn : x.memory.InDelta p) (hOther : ¬x.memory.Filtered p) : c.restore = none := by
  obtain ⟨delta, hRestore, hMagic, hBlocks, hPages⟩ := c.exists_delta
  obtain ⟨d, hd, b, hIs, ⟨h⟩, hHas⟩ := hPages p hIn
  have hNone : findGroup x.memory.groups d = none := by
    rw [← Option.not_isSome_iff_eq_none, findGroup_isSome h.interval.1 h.interval.2]
    exact fun hAll => hOther (hAll p hHas)
  have hFold : ∀ image,
      delta.blocks.foldlM (patchBlock (isV3 c.base) x.memory.groups delta) image = none := by
    apply foldlM_none hd
    intro image
    rw [patchBlock, patchLog, hNone, Option.map_none]
  rw [hRestore, restoreFromFilesEncrypted, if_neg (Nat.not_lt.mpr c.base_length),
    if_pos (c.base_encrypted_iff.mpr hPlain), restoreFromFiles, c.groupDescs_base]
  split
  · rfl
  · simp [hFold]

/-- Otherwise it takes the GPU pages of the delta as they stand in the file. -/
theorem restore_plain (hPlain : ¬x.memory.BaseEncrypted)
    (hGroups : x.memory.groups.length ≤ maxGroups)
    (hInside : ∀ p, x.memory.InDelta p → x.memory.Filtered p) {cipher : ByteImage.Image}
    (hCipher : ∀ b l n, x.memory.IsBlock b → Follows l b x.memory.deltaPlace →
      (l.sections c.keys.channel c.after n).gpu = packed cipher l.base (pagesOn l.residency .gpu)) :
    ∃ image, c.restore = some ⟨x.memory.groups, image⟩ ∧
      ∀ a, x.memory.Filtered (a / pageSize) →
        (x.memory.InDelta (a / pageSize) →
          image a = source x.memory.deltaPlace c.after cipher a) ∧
        (¬x.memory.InDelta (a / pageSize) → image a = c.before a) := by
  obtain ⟨delta, hRestore, hMagic, hBlocks, hPages⟩ := c.exists_delta
  have hBase : (sortDescs c.base.descs).foldlM (assembleData (isV3 c.base) c.base.data c.base.size)
      (fun _ => 0) = some fun a => if ∃ d ∈ sortDescs c.base.descs,
        Shows x.memory.baseResidency d a then c.before a else 0 := by
    apply foldlM_shows
    intro d hd image
    obtain ⟨r, hr, ⟨h⟩⟩ := c.base_holds (List.mem_mergeSort.mp hd)
    have hNone : pagesOn h.layout.residency .gpu = [] :=
      h.follows.pagesOn_gpu.mpr fun p hp hGpu => hPlain ⟨p, ⟨r, hr, hp⟩, hGpu⟩
    have hGpu := h.layout.gpu_length c.keys.channel c.before h.transfer
    rw [hNone, List.length_nil, Nat.zero_mul, List.length_eq_zero_iff] at hGpu
    rw [assembleData_shows _ h (hGpu.trans (by rw [hNone]; rfl) : _ = packed c.before _ _),
      source_same]
  have hDelta : ∀ image,
      delta.blocks.foldlM (patchBlock (isV3 c.base) x.memory.groups delta) image =
      some fun a => if ∃ d ∈ delta.blocks, Shows x.memory.deltaPlace d a then
        source x.memory.deltaPlace c.after cipher a else image a := by
    apply foldlM_shows
    intro d hd image
    obtain ⟨b, hIs, ⟨h⟩⟩ := hBlocks d hd
    have hGroup : (findGroup x.memory.groups d).isSome := by
      rw [findGroup_isSome h.interval.1 h.interval.2]
      exact fun p hp => hInside p (hIs.inDelta p hp)
    obtain ⟨g, hg⟩ := Option.isSome_iff_exists.mp hGroup
    rw [patchBlock, patchLog, hg]
    exact assembleData_shows _ h (hCipher b _ _ hIs h.follows) image
  have hShown : ∀ a, (∃ d ∈ delta.blocks, Shows x.memory.deltaPlace d a) ↔
      x.memory.InDelta (a / pageSize) := by
    intro a
    refine ⟨?_, ?_⟩
    · rintro ⟨d, hd, hShows⟩
      obtain ⟨b, hIs, ⟨h⟩⟩ := hBlocks d hd
      exact hIs.inDelta _ ((h.shows_iff a).mp hShows).1
    · intro hIn
      obtain ⟨d, hd, b, -, ⟨h⟩, hHas⟩ := hPages _ hIn
      exact ⟨d, hd, (h.shows_iff a).mpr ⟨hHas, hIn.2.2⟩⟩
  refine ⟨fun a => if ∃ d ∈ delta.blocks, Shows x.memory.deltaPlace d a then
    source x.memory.deltaPlace c.after cipher a else if ∃ d ∈ sortDescs c.base.descs,
      Shows x.memory.baseResidency d a then c.before a else 0, ?_, ?_⟩
  · rw [hRestore, restoreFromFilesEncrypted, if_neg (Nat.not_lt.mpr c.base_length),
      if_pos (c.base_encrypted_iff.mpr hPlain), restoreFromFiles, c.groupDescs_base,
      if_neg (by rw [not_or]; exact ⟨Nat.not_lt.mpr c.base_length, Nat.not_lt.mpr hGroups⟩), hBase,
      hMagic]
    dsimp only [Option.bind_eq_bind, Option.bind_some]
    rw [if_neg (fun hNe => hNe rfl), hDelta]
    rfl
  · intro a hUser
    refine ⟨fun hIn => if_pos ((hShown a).mpr hIn), fun hNot => ?_⟩
    exact (if_neg fun hShows => hNot ((hShown a).mp hShows)).trans (c.base_content hUser)

end Contents

/-- A channel whose ciphertext differs from the plaintext in every byte. -/
def shiftedChannel : Channel where
  encrypt n plain :=
    (⟨plain.length, leBytes 12 n, 1, List.replicate 16 0, 0⟩, plain.map (· + 1))
  decrypt _ cipher := some (cipher.map (· - 1))
  wellFormed _ _ h := ⟨h, leBytes_length _ _, List.length_replicate, Nat.pow_pos (by decide)⟩
  meta_size _ _ := rfl
  cipher_length _ _ := List.length_map _
  decrypt_encrypt _ _ := by simp [Function.comp_def]

theorem shiftedChannel_gpu (memory : ByteImage.Image) (l : RangeLayout) (n : Nat) :
    (l.sections shiftedChannel memory n).gpu =
      packed (fun a => memory a + 1) l.base (pagesOn l.residency .gpu) := by
  have hPieces := congrArg (List.map (· + (1 : UInt8))) (l.pieces_flatten memory n)
  rw [List.map_flatMap] at hPieces
  refine Eq.trans hPieces ?_
  rw [packed, packed, List.map_flatMap]
  refine congrArg (fun f => List.flatMap f _) (funext fun p => ?_)
  rw [ByteImage.read, ByteImage.read, List.map_map]
  rfl

namespace FusedRun

variable {x : FusedRun}

/-- Every page that is in the delta has been written since the base image. -/
def marked (x : FusedRun) : Contents x where
  keys := ⟨Gcm.clear, shiftedChannel, none, .confidential, fun n => List.replicate n 0⟩
  driver := rfl
  before := fun _ => 0
  after := fun a => if x.memory.dirty (a / pageSize) = false ∨
    x.memory.residency (a / pageSize) = .absent then 0 else 1
  absent := fun _ _ => rfl
  unchanged := fun _ h => if_pos h
  firstTransfer := 0
  pool := ⟨id, List.Perm.refl⟩
  old := fun _ => 0
  oldSize := 0
  deltaPool := ⟨id, List.Perm.refl⟩
  oldDelta := fun _ => 0
  oldDeltaSize := 0

theorem inDelta_written {p : Nat} (h : x.memory.InDelta p) :
    x.memory.dirty p = true ∧ x.memory.residency p ≠ .absent ∧
      x.memory.deltaPlace p = x.memory.residency p := by
  obtain ⟨-, -, hPlace⟩ := h
  rw [Managed.deltaPlace] at hPlace ⊢
  split at hPlace
  · rename_i hDirty
    exact ⟨hDirty.2, hPlace, if_pos hDirty⟩
  · exact absurd rfl hPlace

theorem marked_after {p : Nat} (h : x.memory.InDelta p) :
    x.marked.after (p * pageSize) = 1 := by
  obtain ⟨hDirty, hPlace, -⟩ := inDelta_written h
  show (if _ then _ else _) = _
  rw [Nat.mul_div_cancel p (by decide), if_neg]
  rw [hDirty]
  simp [hPlace]

/-- A user page that is not in the delta has the content it was captured with. -/
theorem after_eq_before (c : Contents x) {a : Nat} (hUser : x.memory.Filtered (a / pageSize))
    (hNot : ¬x.memory.InDelta (a / pageSize)) : c.after a = c.before a := by
  obtain ⟨hLow, hHigh⟩ := Managed.filtered_span hUser
  apply c.unchanged
  by_contra hWritten
  rw [not_or, Bool.not_eq_false] at hWritten
  apply hNot
  refine ⟨hLow, hHigh, ?_⟩
  obtain ⟨r, hr, hHas⟩ := hUser
  rw [Managed.deltaPlace, if_pos ⟨⟨r, (List.mem_filter.mp hr).1, hHas⟩, hWritten.1⟩]
  exact hWritten.2

theorem exists_block {p : Nat} (h : x.memory.InDelta p) : ∃ b, x.memory.IsBlock b ∧ b.Has p := by
  obtain ⟨regions, -, -, hPages⟩ := x.exists_blocks
  obtain ⟨-, -, b, hIs, -, hHas⟩ := hPages p h
  exact ⟨b, hIs, hHas⟩

theorem page_inside_groups {p : Nat} (h : x.memory.Filtered p) :
    ∃ g ∈ x.memory.groups, g.1 ≤ p * pageSize ∧ (p + 1) * pageSize ≤ g.1 + g.2 := by
  have hPage := (x.memory.inside_groups_iff ⟨p, 1, Nat.one_pos⟩).mpr fun q hq => by
    have hSame : q = p := by
      have hLow : p ≤ q := hq.1
      have hHigh : q < p + 1 := hq.2
      omega
    rwa [hSame]
  simpa only [VaRange.va, VaRange.size, ← Nat.add_mul] using hPage

/-- The pages are restored when the addresses in them are. -/
theorem read_page {p : Nat} {image after : ByteImage.Image}
    (h : ∀ a, a / pageSize = p → image a = after a) :
    read image (p * pageSize) pageSize = read after (p * pageSize) pageSize := by
  apply read_congr
  intro a hLow hHigh
  apply h
  rw [Nat.div_eq_iff (by decide)]
  simp only [pageSize] at hLow hHigh ⊢
  omega

theorem reproduced_of_fits (h : x.Fits) : x.Reproduced := by
  intro c
  by_cases hBase : x.memory.BaseEncrypted
  · obtain ⟨image, hRestore, hImage⟩ := c.restore_encrypted hBase h.groups
    refine ⟨_, hRestore, fun p hUser => ⟨page_inside_groups hUser, read_page ?_⟩⟩
    rintro a rfl
    show image a = c.after a
    by_cases hIn : x.memory.InDelta (a / pageSize)
    · obtain ⟨b, hIs, hHas⟩ := exists_block hIn
      exact (hImage a hUser).1 ⟨b, hIs, hHas, hIs.filtered (h.cut hBase) hHas hUser⟩
    · rw [(hImage a hUser).2 fun hTaken => hIn (hTaken.choose_spec.1.inDelta _
        hTaken.choose_spec.2.1), after_eq_before c hUser hIn]
  · have hNoGpu : ∀ b l n, x.memory.IsBlock b → Follows l b x.memory.deltaPlace →
        (l.sections c.keys.channel c.after n).gpu =
          packed c.after l.base (pagesOn l.residency .gpu) := by
      intro b l n hIs hFollows
      have hNone : pagesOn l.residency .gpu = [] := by
        apply hFollows.pagesOn_gpu.mpr
        intro p hp
        have hIn := hIs.inDelta p hp
        rw [(inDelta_written hIn).2.2]
        exact (h.plain hBase p hIn).2
      have hGpu := l.gpu_length c.keys.channel c.after n
      rw [hNone, List.length_nil, Nat.zero_mul, List.length_eq_zero_iff] at hGpu
      rw [hGpu, hNone]
      rfl
    obtain ⟨image, hRestore, hImage⟩ := c.restore_plain hBase h.groups
      (fun p hIn => (h.plain hBase p hIn).1) hNoGpu
    refine ⟨_, hRestore, fun p hUser => ⟨page_inside_groups hUser, read_page ?_⟩⟩
    rintro a rfl
    show image a = c.after a
    by_cases hIn : x.memory.InDelta (a / pageSize)
    · rw [(hImage a hUser).1 hIn, source_same]
    · rw [(hImage a hUser).2 hIn, after_eq_before c hUser hIn]

/-- The first byte of a restored page. -/
theorem head_of_read {p : Nat} {image after : ByteImage.Image}
    (h : read image (p * pageSize) pageSize = read after (p * pageSize) pageSize) :
    image (p * pageSize) = after (p * pageSize) := by
  have hHead := congrArg (fun bytes : Bytes => bytes[0]?) h
  simpa only [ByteImage.read, List.getElem?_map, List.getElem?_range (by decide : 0 < pageSize),
    Option.map_some, Option.some.injEq, Nat.add_zero] using hHead

theorem fits_of_reproduced (h : x.Reproduced) : x.Fits := by
  obtain ⟨result, hResult, hPages⟩ := h x.marked
  have hGroups : x.memory.groups.length ≤ maxGroups := by
    by_contra hMany
    rw [x.marked.restore_none_of_groups (by omega)] at hResult
    cases hResult
  refine ⟨hGroups, ?_, ?_⟩
  · intro hBase p hIn hNext
    obtain ⟨image, hRestore, hImage⟩ := x.marked.restore_encrypted hBase hGroups
    rw [hResult, Option.some.injEq] at hRestore
    subst hRestore
    -- a user page of the delta is restored only if its block is taken
    have hTaken : ∀ q, x.memory.InDelta q → x.memory.Filtered q → x.memory.Taken q := by
      intro q hq hUser
      by_contra hNot
      have hPage := (hImage (q * pageSize)
        (by rwa [Nat.mul_div_cancel q (by decide)])).2
        (by rwa [Nat.mul_div_cancel q (by decide)])
      have hRead := head_of_read (hPages q hUser).2
      rw [marked_after hq] at hRead
      have hZero : (0 : UInt8) = 1 := hPage.symm.trans hRead
      exact absurd hZero (by decide)
    refine ⟨fun hUser => ?_, fun hUser => ?_⟩
    · obtain ⟨b, hIs, hHas, hAll⟩ := hTaken p hIn hUser
      exact hAll _ ((hIs.has_succ hIn hNext).mp hHas)
    · obtain ⟨b, hIs, hHas, hAll⟩ := hTaken (p + 1) hNext hUser
      exact hAll _ ((hIs.has_succ hIn hNext).mpr hHas)
  · intro hBase
    have hInside : ∀ p, x.memory.InDelta p → x.memory.Filtered p := by
      intro p hIn
      by_contra hOther
      rw [x.marked.restore_none_of_outside hBase hIn hOther] at hResult
      cases hResult
    intro p hIn
    refine ⟨hInside p hIn, fun hGpu => ?_⟩
    obtain ⟨image, hRestore, hImage⟩ := x.marked.restore_plain hBase hGroups hInside
      fun b l n _ _ => shiftedChannel_gpu x.marked.after l n
    rw [hResult, Option.some.injEq] at hRestore
    subst hRestore
    have hPage : x.memory.Filtered (p * pageSize / pageSize) := by
      rw [Nat.mul_div_cancel p (by decide)]
      exact hInside p hIn
    have hImageAt := (hImage (p * pageSize) hPage).1
      (by rwa [Nat.mul_div_cancel p (by decide)])
    rw [source, Nat.mul_div_cancel p (by decide), (inDelta_written hIn).2.2, if_pos hGpu,
      marked_after hIn] at hImageAt
    have hRead := head_of_read (hPages p (hInside p hIn)).2
    rw [marked_after hIn] at hRead
    have hTwo : (1 + 1 : UInt8) = 1 := hImageAt.symm.trans hRead
    exact absurd hTwo (by decide)

end FusedRun

/-- Base image and fused delta give back the user ranges if and only if the blocks
of the delta fit the groups of the base image. -/
theorem reproduced_iff (x : FusedRun) : x.Reproduced ↔ x.Fits :=
  ⟨FusedRun.fits_of_reproduced, FusedRun.reproduced_of_fits⟩

/-- Three ranges of one page, one behind the other, all written and on the GPU; the
one in the middle belongs to no allocation. -/
def threeRanges : Managed where
  ranges := [⟨1, 1, Nat.one_pos⟩, ⟨2, 1, Nat.one_pos⟩, ⟨3, 1, Nat.one_pos⟩]
  filter := ⟨[⟨1 * 4096, 4096, false⟩, ⟨3 * 4096, 4096, false⟩], 0, 0, false⟩
  baseResidency := fun _ => .gpu
  residency := fun _ => .gpu
  dirty := fun _ => true
  ranges_le := by decide
  apart := by simp

theorem threeRanges_filt :
    threeRanges.filt = [⟨1, 1, Nat.one_pos⟩, ⟨3, 1, Nat.one_pos⟩] := rfl

theorem threeRanges_sorted : threeRanges.sorted = threeRanges.filt :=
  List.mergeSort_of_pairwise (by rw [threeRanges_filt]; simp)

theorem threeRanges_span : threeRanges.spanFirst = 1 ∧ threeRanges.spanStop = 4 := by
  rw [Managed.spanFirst, Managed.spanStop, threeRanges_sorted, threeRanges_filt]
  exact ⟨rfl, rfl⟩

def gpuPageAt (base : Nat) : RangeLayout :=
  ⟨base, [.gpu], [1], oneTransfer_pages, oneTransfer_sum⟩

def threeRangesRun : FusedRun where
  memory := threeRanges
  kept := by rw [threeRanges_filt]; simp
  writer := .streaming
  ranges := [(0, gpuPageAt 4096), (1, gpuPageAt 12288)]
  follow := rfl
  resident := fun h => by cases h
  span := ⟨4096, [.gpu, .gpu, .gpu], [1, 1, 1], by simp, rfl⟩
  span_base := by rw [threeRanges_span.1]; rfl
  span_residency := by rw [threeRanges_span.1, threeRanges_span.2]; rfl
  cpu_fits := by decide
  aligned := ⟨[1, 1, 1], [], rfl, rfl, trivial⟩

theorem not_reproduced_threeRanges : ¬threeRangesRun.Reproduced := by
  intro h
  have hFiltered : ∀ p, threeRanges.Filtered p ↔ p = 1 ∨ p = 3 := by
    intro p
    simp only [Managed.Filtered, threeRanges_filt, List.mem_cons, List.not_mem_nil, or_false,
      exists_eq_or_imp, exists_eq_left, VaRange.Has]
    omega
  have hIn : ∀ p, 1 ≤ p → p < 4 → threeRanges.InDelta p := by
    intro p hLow hHigh
    refine ⟨by rw [threeRanges_span.1]; exact hLow, by rw [threeRanges_span.2]; exact hHigh, ?_⟩
    obtain rfl | rfl | rfl : p = 1 ∨ p = 2 ∨ p = 3 := by omega
    all_goals decide
  have hCut := (FusedRun.fits_of_reproduced h).cut
    ⟨1, (hFiltered 1).mpr (.inl rfl), rfl⟩ 1 (hIn 1 (by omega) (by omega))
    (hIn 2 (by omega) (by omega))
  have hSecond := (hFiltered 2).mp (hCut.mp ((hFiltered 1).mpr (.inl rfl)))
  omega

end FlashCkpt.Restore
