import FlashCkpt.Driver.Split
import FlashCkpt.Restore.FusedDelta
import Mathlib.Data.List.Count

/-! The two delta paths of the encrypted mode over one quiesced VA space. The fused
path lets the driver select the pages of dirty blocks; the legacy path asks for the
starts of the dirty blocks, filters them by their first 64 KB, and captures 2 MB from
each. -/
namespace FlashCkpt.Restore

open ByteImage SizeCut Crypto Image Driver

/-- Pages of 64 KB. -/
def filterPages : Nat := 16

theorem filterPages_pos : 0 < filterPages := by decide

/-- The VA space at the quiesce point, with the user ranges found at the start of the
run and the table by which dirty addresses are filtered. -/
structure QuiescedSpace where
  space : VaSpace
  residency : Nat → Residency
  filt : List VaRange
  filt_ne : filt ≠ []
  apart : filt.Pairwise fun r s => r.first + r.count ≤ s.first ∨ s.first + s.count ≤ r.first
  filter : Filter

namespace QuiescedSpace

variable (q : QuiescedSpace)

def Filtered (p : Nat) : Prop := ∃ r ∈ q.filt, r.Has p

/-- What ioctl 115 finds for a page, and what ioctl 116 finds. -/
def place (p : Nat) : Residency :=
  match q.space.flagsAt p with
  | none => .absent
  | some _ => q.residency p

def dirtyPlace (p : Nat) : Residency :=
  match q.space.flagsAt p with
  | none => .absent
  | some f => if f.tracked && f.dirty then q.residency p else .absent

def sorted : List VaRange := q.filt.mergeSort fun a b => a.first ≤ b.first

def spanFirst : Nat := q.sorted.head?.elim 0 VaRange.first

def spanStop : Nat := q.sorted.getLast?.elim 0 fun r => r.first + r.count

/-- `max_dirty`: one address for each 64 KB of the user ranges, and one more. -/
def maxDirty : Nat :=
  let bytes := (q.filt.map VaRange.size).sum
  if 0 < bytes then bytes / (filterPages * pageSize) + 1 else 65536

/-- The dirty addresses the filter keeps. -/
def keptStarts : List Nat :=
  (getDirtyPages q.space q.maxDirty).filter fun s => q.filter.keeps ⟨s, filterPages, filterPages_pos⟩

end QuiescedSpace

/-- The merge loop from an open region on: a block that starts where the region ends
prolongs it. -/
def mergeBlocks : (start stop : Nat) → List Nat → List (Nat × Nat)
  | start, stop, [] => [(start, stop)]
  | start, stop, a :: rest =>
      if a = stop then mergeBlocks start (stop + blockPages) rest
      else (start, stop) :: mergeBlocks a (a + blockPages) rest

def mergeStarts : List Nat → List (Nat × Nat)
  | [] => []
  | a :: rest => mergeBlocks a (a + blockPages) rest

/-- The regions of the legacy delta, in pages. -/
def QuiescedSpace.regions (q : QuiescedSpace) : List (Nat × Nat) :=
  mergeStarts (q.keptStarts.mergeSort fun a b => a ≤ b)

/-- The plaintext of a section whose transfers all authenticate. -/
def plainBytes (found : Bool × Buffer) : Option Bytes :=
  if found.1 then some (values found.2) else none

/-- A page of a block of a delta: the residency map says in which section it is, and
the pages of that section before it where. -/
def decodeBlock (keys : Keys) (delta : IncDelta) (p : Nat) (b : RangeDesc) : Option Bytes :=
  if b.baseVa ≤ p * pageSize then
    let i := (p * pageSize - b.baseVa) / pageSize
    let resmap := readResmap delta.data b
    let pick (place : Residency) (plain : Bytes) : Bytes :=
      (plain.drop ((resmap.take i).count place.code * pageSize)).take pageSize
    if resmap[i]? = some Residency.cpu.code then
      (plainBytes (openCpu keys true delta.data delta.size b)).map (pick .cpu)
    else if resmap[i]? = some Residency.gpu.code then
      (plainBytes (openGpu keys true delta.data delta.size b)).map (pick .gpu)
    else none
  else none

/-- The map from pages to their plaintext: a later block overrides an earlier one. -/
def decodeDelta (keys : Keys) (delta : IncDelta) (p : Nat) : Option Bytes :=
  delta.blocks.reverse.findSome? (decodeBlock keys delta p)

/-- The two deltas of a space but for what the memory holds: the span as ioctl 116 hands
it over, and the regions as ioctl 115 does. -/
structure OracleRun where
  state : QuiescedSpace
  span : RangeLayout
  span_base : span.base = state.spanFirst * pageSize
  span_residency : span.residency =
    (List.range (state.spanStop - state.spanFirst)).map fun i =>
      state.dirtyPlace (state.spanFirst + i)
  aligned : Aligned span.transfers (presentRuns 0 span.residency)
  regions : List RangeLayout
  regions_follow : regions.map (fun l => (l.base, l.residency)) = state.regions.map fun r =>
    (r.1 * pageSize, (List.range (r.2 - r.1)).map fun i => state.place (r.1 + i))

/-- The memory with the keys of the session, and the files that are written over. -/
structure OracleContents where
  keys : Keys
  driver : keys.device = .confidential
  memory : ByteImage.Image
  fusedTransfer : Nat
  legacyTransfer : Nat
  fusedPool : Schedule
  legacyPool : Schedule
  old : ByteImage.Image
  oldSize : Nat

namespace OracleRun

variable (x : OracleRun) (c : OracleContents)

def fused : Option IncDelta :=
  (fusedRegions x.span.base (readSpan c.keys.channel c.memory c.fusedTransfer x.span)).map
    fun regions => writeDelta .fused regions c.fusedPool c.old c.oldSize

/-- With no region the buffered writer writes an empty delta. -/
def legacy : IncDelta :=
  writeDelta (if x.regions.isEmpty then .buffered else .streaming)
    (capture c.keys.channel c.memory c.legacyTransfer x.regions) c.legacyPool c.old c.oldSize

/-- Whatever the memory holds, the two deltas decode to the same map on the pages of
the user ranges. -/
def Agree : Prop :=
  ∀ c : OracleContents, ∃ delta, x.fused c = some delta ∧ ∀ p, x.state.Filtered p →
    decodeDelta c.keys delta p = decodeDelta c.keys (x.legacy c) p

end OracleRun

/-- Of the resident user pages, those in dirty blocks are those in the 2 MB behind a
kept address. -/
structure QuiescedSpace.BlocksMatch (q : QuiescedSpace) : Prop where
  reached : ∀ p, q.Filtered p → q.dirtyPlace p ≠ .absent →
    ∃ a ∈ q.keptStarts, a ≤ p ∧ p < a + blockPages
  dirtyOnly : ∀ a ∈ q.keptStarts, ∀ p, a ≤ p → p < a + blockPages → q.Filtered p →
    q.place p ≠ .absent → q.space.Reported p

theorem pagesOn_getElem? {residency : List Residency} {i : Nat} {place : Residency}
    (h : residency[i]? = some place) :
    (pagesOn residency place)[(residency.take i).count place]? = some i := by
  induction residency generalizing i with
  | nil => cases h
  | cons r rest ih =>
      rw [pagesOn_cons]
      cases i with
      | zero =>
          rw [List.getElem?_cons_zero, Option.some.injEq] at h
          rw [if_pos h]
          rfl
      | succ i =>
          rw [List.getElem?_cons_succ] at h
          have hRest : ((pagesOn rest place).map (· + 1))[(rest.take i).count place]? =
              some (i + 1) := by
            rw [List.getElem?_map, ih h, Option.map_some]
          rw [List.take_succ_cons, List.count_cons]
          by_cases hSame : r = place
          · simp only [hSame, if_true, beq_self_eq_true, List.singleton_append,
              List.getElem?_cons_succ]
            exact hRest
          · simp only [hSame, if_false, beq_iff_eq, Nat.add_zero, List.nil_append]
            exact hRest

theorem Residency.code_injective : Function.Injective Residency.code := by
  intro a b h
  cases a <;> cases b <;> first | rfl | cases h

section Decode

variable {keys : Keys} {memory : ByteImage.Image} {delta : IncDelta} {n : Nat} {l : RangeLayout}
  {d : RangeDesc}

theorem plainBytes_cpu (h : StoredAt delta.data delta.size (l.sections keys.channel memory n) d) :
    plainBytes (openCpu keys true delta.data delta.size d) =
      some (packed memory l.base (pagesOn l.residency .cpu)) := by
  rw [openCpu_eq h, plainBytes, if_pos rfl, values_readCpu true h]

theorem plainBytes_gpu (hDevice : keys.device = .confidential)
    (h : StoredAt delta.data delta.size (l.sections keys.channel memory n) d) :
    plainBytes (openGpu keys true delta.data delta.size d) =
      some (packed memory l.base (pagesOn l.residency .gpu)) := by
  obtain ⟨hOk, hValues⟩ := openGpu_eq hDevice h
  rw [plainBytes, if_pos hOk, hValues]

/-- A stored region gives back the pages which are present in it. -/
theorem decodeBlock_stored (hDevice : keys.device = .confidential)
    (h : StoredAt delta.data delta.size (l.sections keys.channel memory n) d)
    (hBase : pageSize ∣ l.base) (p : Nat) :
    decodeBlock keys delta p d = if placeAt l.base l.residency (p * pageSize) = .absent then none
      else some (read memory (p * pageSize) pageSize) := by
  rw [decodeBlock, h.lengths.1, placeAt]
  by_cases hLow : l.base ≤ p * pageSize
  · have hPage : l.base + (p * pageSize - l.base) / pageSize * pageSize = p * pageSize := by
      obtain ⟨b, hb⟩ := hBase
      rw [hb, Nat.mul_comm pageSize b, ← Nat.sub_mul, Nat.mul_div_cancel _ (by decide),
        ← Nat.add_mul]
      rw [hb, Nat.mul_comm] at hLow
      have hLe : b ≤ p := Nat.le_of_mul_le_mul_right hLow (by decide)
      rw [Nat.add_sub_cancel' hLe]
    rw [if_pos hLow, if_pos hLow]
    simp only [readResmap_eq h, plainBytes_cpu h, plainBytes_gpu hDevice h, List.getElem?_map]
    have hPick : ∀ place, l.residency[(p * pageSize - l.base) / pageSize]? = some place →
        ((packed memory l.base (pagesOn l.residency place)).drop
          (((l.residency.map Residency.code).take ((p * pageSize - l.base) / pageSize)).count
            place.code * pageSize)).take pageSize = read memory (p * pageSize) pageSize := by
      intro place hPlace
      rw [← List.map_take, List.count_map_of_injective _ _ Residency.code_injective,
        packed_page memory l.base (pagesOn_getElem? hPlace), hPage]
    cases hPlace : l.residency[(p * pageSize - l.base) / pageSize]? with
    | none => rfl
    | some place =>
        have hRead := hPick place hPlace
        cases place with
        | cpu => exact congrArg some hRead
        | gpu => exact congrArg some hRead
        | absent => rfl
  · rw [if_neg hLow, if_neg hLow, if_pos rfl]

/-- The delta of captured regions decodes to the pages which are present in one. -/
theorem decodeDelta_captured (hDevice : keys.device = .confidential) {regions : List RangeLayout}
    (hBases : ∀ l ∈ regions, pageSize ∣ l.base) (w : DeltaWriter) (pool : Schedule)
    (old : ByteImage.Image) (oldSize p : Nat) :
    decodeDelta keys (writeDelta w (capture keys.channel memory n regions) pool old oldSize) p =
      if ∃ l ∈ regions, placeAt l.base l.residency (p * pageSize) ≠ .absent then
        some (read memory (p * pageSize) pageSize) else none := by
  obtain ⟨hDescs, hRegions⟩ := writeDelta_stored keys.channel memory n regions w pool old oldSize
  generalize writeDelta w (capture keys.channel memory n regions) pool old oldSize = delta at *
  have hBlock : ∀ d ∈ delta.blocks, ∃ l ∈ regions, decodeBlock keys delta p d =
      if placeAt l.base l.residency (p * pageSize) = .absent then none
      else some (read memory (p * pageSize) pageSize) := by
    intro d hd
    obtain ⟨l, hl, m, hStored⟩ := hDescs d hd
    exact ⟨l, hl, decodeBlock_stored hDevice hStored (hBases l hl) p⟩
  rw [decodeDelta]
  split
  · rename_i hSome
    obtain ⟨l, hl, hPresent⟩ := hSome
    obtain ⟨d, hd, m, hStored⟩ := hRegions l hl
    have hFound : decodeBlock keys delta p d = some (read memory (p * pageSize) pageSize) := by
      rw [decodeBlock_stored hDevice hStored (hBases l hl), if_neg hPresent]
    cases hFind : delta.blocks.reverse.findSome? (decodeBlock keys delta p) with
    | none =>
        have hNone := List.findSome?_eq_none_iff.mp hFind d (List.mem_reverse.mpr hd)
        rw [hFound] at hNone
        cases hNone
    | some page =>
        obtain ⟨d', hd', hPage⟩ := List.exists_of_findSome?_eq_some hFind
        obtain ⟨l', -, hDecode⟩ := hBlock d' (List.mem_reverse.mp hd')
        rw [hDecode] at hPage
        split at hPage
        · cases hPage
        · exact hPage.symm
  · rename_i hNone
    refine List.findSome?_eq_none_iff.mpr fun d hd => ?_
    obtain ⟨l, hl, hDecode⟩ := hBlock d (List.mem_reverse.mp hd)
    rw [hDecode, if_pos]
    by_contra hPresent
    exact hNone ⟨l, hl, hPresent⟩

end Decode

section Selection

theorem placeAt_page (first p : Nat) (residency : List Residency) :
    placeAt (first * pageSize) residency (p * pageSize) =
      if first ≤ p then residency[p - first]?.getD .absent else .absent := by
  have hPos : 0 < pageSize := by decide
  rw [placeAt]
  by_cases hLow : first ≤ p
  · rw [if_pos (Nat.mul_le_mul_right _ hLow), if_pos hLow, ← Nat.sub_mul,
      Nat.mul_div_cancel _ hPos]
  · rw [if_neg fun hLe => hLow (Nat.le_of_mul_le_mul_right hLe hPos), if_neg hLow]

theorem getD_ne_absent {residency : List Residency} {i : Nat} :
    residency[i]?.getD .absent ≠ .absent ↔
      ∃ place, residency[i]? = some place ∧ place ≠ .absent := by
  cases residency[i]? with
  | none => simp
  | some place => simp

/-- The runs of a span show the pages which are present in it. -/
theorem runs_present_iff (first p : Nat) (residency : List Residency) :
    (∃ run ∈ presentRuns 0 residency,
        placeAt ((first + run.1) * pageSize) run.2 (p * pageSize) ≠ .absent) ↔
      placeAt (first * pageSize) residency (p * pageSize) ≠ .absent := by
  simp only [placeAt_page]
  constructor
  · rintro ⟨run, hRun, hPresent⟩
    split at hPresent
    · rename_i hLow
      obtain ⟨place, hPlace, hNe⟩ := getD_ne_absent.mp hPresent
      have hSame := (presentRuns_isRun 0 residency run hRun).same (p - (first + run.1))
        (List.getElem?_eq_some_iff.mp hPlace).1
      rw [if_pos (by omega), getD_ne_absent]
      refine ⟨place, ?_, hNe⟩
      rw [show p - first = run.1 - 0 + (p - (first + run.1)) by omega, hSame, hPlace]
    · exact absurd rfl hPresent
  · intro hPresent
    split at hPresent
    · rename_i hLow
      obtain ⟨place, hPlace, hNe⟩ := getD_ne_absent.mp hPresent
      obtain ⟨run, hRun, hFrom, hTo⟩ := exists_presentRun 0 hPlace hNe
      refine ⟨run, hRun, ?_⟩
      have hSame := (presentRuns_isRun 0 residency run hRun).same (p - first - run.1) (by omega)
      rw [show run.1 - 0 + (p - first - run.1) = p - first by omega, hPlace] at hSame
      rw [if_pos (by omega), getD_ne_absent]
      refine ⟨place, ?_, hNe⟩
      rw [show p - (first + run.1) = p - first - run.1 by omega, ← hSame]
    · exact absurd rfl hPresent

/-- The merged regions cover what the blocks cover. -/
theorem mergeBlocks_covers (start stop p : Nat) (hStart : start ≤ stop) (starts : List Nat) :
    (∃ r ∈ mergeBlocks start stop starts, r.1 ≤ p ∧ p < r.2) ↔
      (start ≤ p ∧ p < stop) ∨ ∃ a ∈ starts, a ≤ p ∧ p < a + blockPages := by
  induction starts generalizing start stop with
  | nil => simp [mergeBlocks]
  | cons a rest ih =>
      rw [mergeBlocks, List.exists_mem_cons_iff]
      split
      · rename_i hNext
        rw [ih start (stop + blockPages) (by omega), hNext]
        constructor
        · rintro (⟨hLow, hHigh⟩ | hRest)
          · by_cases hOld : p < stop
            · exact .inl ⟨hLow, hOld⟩
            · exact .inr (.inl ⟨by omega, hHigh⟩)
          · exact .inr (.inr hRest)
        · rintro (⟨hLow, hHigh⟩ | ⟨hLow, hHigh⟩ | hRest)
          · exact .inl ⟨hLow, by omega⟩
          · exact .inl ⟨by omega, hHigh⟩
          · exact .inr hRest
      · rw [List.exists_mem_cons_iff, ih a (a + blockPages) (Nat.le_add_right _ _)]

theorem mergeStarts_covers (starts : List Nat) (p : Nat) :
    (∃ r ∈ mergeStarts starts, r.1 ≤ p ∧ p < r.2) ↔
      ∃ a ∈ starts, a ≤ p ∧ p < a + blockPages := by
  cases starts with
  | nil => simp [mergeStarts]
  | cons a rest =>
      rw [mergeStarts, mergeBlocks_covers a (a + blockPages) p (Nat.le_add_right _ _),
        List.exists_mem_cons_iff]

namespace QuiescedSpace

variable (q : QuiescedSpace)

theorem regions_cover (p : Nat) : (∃ r ∈ q.regions, r.1 ≤ p ∧ p < r.2) ↔
    ∃ a ∈ q.keptStarts, a ≤ p ∧ p < a + blockPages := by
  rw [regions, mergeStarts_covers]
  simp only [List.mem_mergeSort]

theorem dirtyPlace_iff (p : Nat) :
    q.dirtyPlace p ≠ .absent ↔ q.place p ≠ .absent ∧ q.space.Reported p := by
  rw [dirtyPlace, place, VaSpace.Reported]
  cases hFlags : q.space.flagsAt p with
  | none => simp
  | some f => cases hTracked : f.tracked <;> cases hDirty : f.dirty <;> simp [hTracked, hDirty]

theorem filtered_span {p : Nat} (h : q.Filtered p) : q.spanFirst ≤ p ∧ p < q.spanStop := by
  obtain ⟨r, hr, hHas⟩ := h
  have hSymm : Std.Symm fun r s : VaRange =>
      r.first + r.count ≤ s.first ∨ s.first + s.count ≤ r.first := ⟨fun _ _ => Or.symm⟩
  exact VaRange.mem_span (VaRange.mergeSort_pairwise q.filt)
    (fun a ha b hb hNe => q.apart.forall (List.mem_mergeSort.mp ha) (List.mem_mergeSort.mp hb) hNe)
    (List.mem_mergeSort.mpr hr) hHas

end QuiescedSpace

end Selection

namespace OracleRun

variable (x : OracleRun) (c : OracleContents)

/-- The fused delta has the resident pages of dirty blocks. -/
theorem decode_fused : ∃ delta, x.fused c = some delta ∧ ∀ p, x.state.Filtered p →
    decodeDelta c.keys delta p = if x.state.dirtyPlace p ≠ .absent then
      some (read c.memory (p * pageSize) pageSize) else none := by
  obtain ⟨regions, hRuns, hFused⟩ := fusedRegions_eq x.span x.aligned
  refine ⟨_, by rw [fused, hFused, Option.map_some], fun p hFiltered => ?_⟩
  have hBases : ∀ l ∈ regions, pageSize ∣ l.base := by
    intro l hl
    have hMem := List.mem_map_of_mem (f := fun l : RangeLayout => (l.base, l.residency)) hl
    rw [← hRuns] at hMem
    obtain ⟨run, -, hEq⟩ := List.mem_map.mp hMem
    rw [← (Prod.mk.inj hEq).1, x.span_base, ← Nat.add_mul]
    exact Nat.dvd_mul_left _ _
  have hPresent : (∃ l ∈ regions, placeAt l.base l.residency (p * pageSize) ≠ .absent) ↔
      x.state.dirtyPlace p ≠ .absent := by
    have hMap : (∃ l ∈ regions, placeAt l.base l.residency (p * pageSize) ≠ .absent) ↔
        ∃ b ∈ regions.map (fun l => (l.base, l.residency)),
          placeAt b.1 b.2 (p * pageSize) ≠ .absent := by
      simp only [List.mem_map, exists_exists_and_eq_and]
    obtain ⟨hLow, hHigh⟩ := x.state.filtered_span hFiltered
    have hRun := runs_present_iff x.state.spanFirst p x.span.residency
    rw [hMap, ← hRuns, x.span_base]
    simp only [List.mem_map, exists_exists_and_eq_and, ← Nat.add_mul]
    rw [hRun, placeAt_page, if_pos hLow, x.span_residency, List.getElem?_map,
      List.getElem?_range (by omega), Option.map_some, Option.getD_some,
      Nat.add_sub_cancel' hLow]
  rw [decodeDelta_captured c.driver hBases]
  simp only [hPresent]

/-- The legacy delta has the resident pages in the 2 MB behind the kept addresses. -/
theorem decode_legacy (p : Nat) :
    decodeDelta c.keys (x.legacy c) p =
      if (∃ a ∈ x.state.keptStarts, a ≤ p ∧ p < a + blockPages) ∧ x.state.place p ≠ .absent then
        some (read c.memory (p * pageSize) pageSize) else none := by
  have hBases : ∀ l ∈ x.regions, pageSize ∣ l.base := by
    intro l hl
    have hMem := List.mem_map_of_mem (f := fun l : RangeLayout => (l.base, l.residency)) hl
    rw [x.regions_follow] at hMem
    obtain ⟨r, -, hEq⟩ := List.mem_map.mp hMem
    rw [← (Prod.mk.inj hEq).1]
    exact Nat.dvd_mul_left _ _
  have hPresent : (∃ l ∈ x.regions, placeAt l.base l.residency (p * pageSize) ≠ .absent) ↔
      (∃ a ∈ x.state.keptStarts, a ≤ p ∧ p < a + blockPages) ∧ x.state.place p ≠ .absent := by
    have hMap : (∃ l ∈ x.regions, placeAt l.base l.residency (p * pageSize) ≠ .absent) ↔
        ∃ b ∈ x.regions.map (fun l => (l.base, l.residency)),
          placeAt b.1 b.2 (p * pageSize) ≠ .absent := by
      simp only [List.mem_map, exists_exists_and_eq_and]
    have hRegion : ∀ r : Nat × Nat, placeAt (r.1 * pageSize)
        ((List.range (r.2 - r.1)).map fun i => x.state.place (r.1 + i)) (p * pageSize) ≠ .absent ↔
          (r.1 ≤ p ∧ p < r.2) ∧ x.state.place p ≠ .absent := by
      intro r
      rw [placeAt_page]
      by_cases hLow : r.1 ≤ p
      · rw [if_pos hLow, List.getElem?_map]
        by_cases hHigh : p < r.2
        · rw [List.getElem?_range (by omega), Option.map_some, Option.getD_some,
            Nat.add_sub_cancel' hLow]
          simp [hLow, hHigh]
        · rw [List.getElem?_eq_none (by simp; omega)]
          simp [hHigh]
      · simp [hLow]
    rw [hMap, x.regions_follow]
    simp only [List.mem_map, exists_exists_and_eq_and, hRegion]
    rw [← x.state.regions_cover p]
    simp only [← and_assoc, exists_and_right]
  rw [legacy, decodeDelta_captured c.driver hBases]
  simp only [hPresent]

end OracleRun

/-- A session whose ciphers do nothing. -/
def plainContents : OracleContents where
  keys := ⟨.clear, .clear, none, .confidential, fun n => List.replicate n 0⟩
  driver := rfl
  memory := fun _ => 0
  fusedTransfer := 0
  legacyTransfer := 0
  fusedPool := ⟨id, List.Perm.refl⟩
  legacyPool := ⟨id, List.Perm.refl⟩
  old := fun _ => 0
  oldSize := 0

/-- The fused and the legacy delta agree on the user ranges exactly when the 2 MB behind
the kept addresses have the same resident user pages as the dirty blocks. -/
theorem agree_iff (x : OracleRun) : x.Agree ↔ x.state.BlocksMatch := by
  have hSelect : ∀ p, x.state.dirtyPlace p ≠ .absent ↔
      x.state.place p ≠ .absent ∧ x.state.space.Reported p := x.state.dirtyPlace_iff
  constructor
  · intro h
    obtain ⟨delta, hDelta, hAgree⟩ := h plainContents
    obtain ⟨delta', hDelta', hFused⟩ := x.decode_fused plainContents
    rw [hDelta, Option.some.injEq] at hDelta'
    subst hDelta'
    have hSame : ∀ p, x.state.Filtered p → (x.state.dirtyPlace p ≠ .absent ↔
        (∃ a ∈ x.state.keptStarts, a ≤ p ∧ p < a + blockPages) ∧ x.state.place p ≠ .absent) := by
      intro p hFiltered
      have hPage := hAgree p hFiltered
      rw [hFused p hFiltered, x.decode_legacy] at hPage
      constructor
      · intro hDirty
        rw [if_pos hDirty] at hPage
        by_contra hNot
        rw [if_neg hNot] at hPage
        cases hPage
      · intro hKept
        rw [if_pos hKept] at hPage
        by_contra hNot
        rw [if_neg (not_not_intro hNot)] at hPage
        cases hPage
    refine ⟨fun p hFiltered hDirty => ((hSame p hFiltered).mp hDirty).1, ?_⟩
    intro a ha p hLow hHigh hFiltered hPlace
    have hDirty := (hSame p hFiltered).mpr ⟨⟨a, ha, hLow, hHigh⟩, hPlace⟩
    exact ((hSelect p).mp hDirty).2
  · intro h c
    obtain ⟨delta, hDelta, hFused⟩ := x.decode_fused c
    refine ⟨delta, hDelta, fun p hFiltered => ?_⟩
    have hSame : x.state.dirtyPlace p ≠ .absent ↔
        (∃ a ∈ x.state.keptStarts, a ≤ p ∧ p < a + blockPages) ∧ x.state.place p ≠ .absent := by
      constructor
      · intro hDirty
        exact ⟨h.reached p hFiltered hDirty, ((hSelect p).mp hDirty).1⟩
      · rintro ⟨⟨a, ha, hLow, hHigh⟩, hPlace⟩
        exact (hSelect p).mpr ⟨hPlace, h.dirtyOnly a ha p hLow hHigh hFiltered hPlace⟩
    rw [hFused p hFiltered, x.decode_legacy]
    simp only [hSame]

/-- One managed range of 32 KB, allocated as such and dirty. -/
def shortRange : QuiescedSpace where
  space :=
    { trackingActive := true
      ranges := [⟨512, 520, by decide, fun i =>
        if i = 0 then some ⟨true, true, Flags.dirty_of_both⟩ else none⟩]
      apart := List.pairwise_singleton _ _ }
  residency := fun _ => .gpu
  filt := [⟨512, 8, by decide⟩]
  filt_ne := by simp
  apart := List.pairwise_singleton _ _
  filter := ⟨[⟨512 * pageSize, 8 * pageSize, false⟩], 0, 0, false⟩

theorem shortRange_kept : shortRange.keptStarts = [] := by decide

theorem shortRange_span : shortRange.spanFirst = 512 ∧ shortRange.spanStop = 520 := by
  simp [QuiescedSpace.spanFirst, QuiescedSpace.spanStop, QuiescedSpace.sorted, shortRange]

def shortRangeRun : OracleRun where
  state := shortRange
  span := ⟨512 * pageSize, List.replicate 8 .gpu, [8], by decide, by decide⟩
  span_base := by rw [shortRange_span.1]
  span_residency := by
    rw [shortRange_span.1, shortRange_span.2]
    decide
  aligned := ⟨[8], [], rfl, rfl, trivial⟩
  regions := []
  regions_follow := by
    rw [QuiescedSpace.regions, shortRange_kept, List.mergeSort_nil]
    rfl

/-- The 64 KB test drops the block, so that the legacy delta misses its pages. -/
theorem not_agree_shortRange : ¬ ∀ x : OracleRun, x.Agree := by
  intro h
  obtain ⟨delta, hDelta, hAgree⟩ := h shortRangeRun plainContents
  obtain ⟨delta', hDelta', hFused⟩ := shortRangeRun.decode_fused plainContents
  rw [hDelta, Option.some.injEq] at hDelta'
  subst hDelta'
  have hFiltered : shortRangeRun.state.Filtered 512 := ⟨_, List.mem_cons_self, by decide⟩
  have hPage := hAgree 512 hFiltered
  rw [hFused 512 hFiltered, if_pos (by decide), shortRangeRun.decode_legacy, if_neg] at hPage
  · cases hPage
  · rintro ⟨⟨a, ha, -⟩, -⟩
    rw [show shortRangeRun.state.keptStarts = [] from shortRange_kept] at ha
    cases ha

end FlashCkpt.Restore
