import FlashCkpt.Driver.BufferBounds
import FlashCkpt.Driver.PassOne

/-! What pass 1 leaves behind: a residency map, the CPU pages one after the other in the caller's
buffer, and the records of the GPU pages, each with its place in the buffer. It is the view of
the managed blocks over the span, page by page. -/
namespace FlashCkpt.Driver

open ByteImage Image

section Pages

variable {Content : Type} {call : CaptureCall}

/-- What a page adds to the CPU buffer. -/
def CaptureCall.contents (call : CaptureCall) (v : Nat × Place Content) : List (Nat × Content) :=
  match call.found v.2 with
  | .cpu content => [(v.1, content)]
  | _ => []

theorem CaptureCall.mem_contents {v : Nat × Place Content} {p : Nat} {c : Content} :
    (p, c) ∈ call.contents v ↔ v.1 = p ∧ call.found v.2 = .cpu c := by
  rw [contents]
  constructor
  · intro h
    split at h
    · rename_i content hFound
      cases List.mem_singleton.mp h
      exact ⟨rfl, hFound⟩
    · cases h
  · rintro ⟨rfl, hFound⟩
    rw [hFound]
    exact List.mem_singleton_self _

theorem CaptureCall.mem_records {v : Nat × Place Content} {p : Nat} {f : Frame} :
    (p, f) ∈ call.records v ↔ v.1 = p ∧ call.found v.2 = .gpu f := by
  rw [records]
  constructor
  · intro h
    split at h
    · rename_i f' hFound
      cases List.mem_singleton.mp h
      exact ⟨rfl, hFound⟩
    · cases h
  · rintro ⟨rfl, hFound⟩
    rw [hFound]
    exact List.mem_singleton_self _

/-- The pages that are visited, from the blocks. -/
theorem CaptureSpace.mem_visited_iff {space : CaptureSpace Content} {v : Nat × Place Content} :
    v ∈ space.visited call ↔ ∃ r ∈ space.ranges, r.managed = true ∧ ∃ b ∈ r.blocks,
      b.taken call = true ∧ (b.first ≤ v.1 ∧ v.1 < b.stop) ∧
      (call.base ≤ v.1 ∧ v.1 < call.base + call.pages) ∧ v.2 = b.place v.1 := by
  rw [visited, List.mem_flatMap]
  apply exists_congr
  intro r
  apply and_congr_right
  intro _
  rw [CaptureRange.visited]
  cases r.managed with
  | false => simp
  | true =>
      simp only [if_true, List.mem_flatMap, List.mem_filter, true_and, and_assoc]
      apply exists_congr
      intro b
      apply and_congr_right
      intro _
      apply and_congr_right
      intro _
      rw [CaptureBlock.visited, List.mem_map]
      constructor
      · rintro ⟨p, hp, rfl⟩
        obtain ⟨hLow, hHigh⟩ := List.mem_range'_1.mp hp
        dsimp only
        refine ⟨?_, ?_, ?_, ?_, rfl⟩ <;> omega
      · rintro ⟨hFirst, hStop, hBase, hEnd, hPlace⟩
        refine ⟨v.1, List.mem_range'_1.mpr (by omega), ?_⟩
        rw [← hPlace]

end Pages

namespace Pass1

variable {Content : Type} {call : CaptureCall} {s : Pass1 Content} {v : Nat × Place Content}
variable {pages : List (Nat × Content)}

/-- The CPU side shows these pages. -/
structure Packs (call : CaptureCall) (s : Pass1 Content) (pages : List (Nat × Content)) : Prop where
  copies : s.copies =
    if call.cpuBuf then pages.zipIdx.map fun e => ⟨e.2 * pageSize, e.1.2, pageSize⟩ else []
  cpuOff : s.cpuOff = pages.length * pageSize
  onCpu : ∀ i < call.pages, (s.resmap[i]? = some .cpu ↔ ∃ c, (call.base + i, c) ∈ pages)

theorem packs_start (call : CaptureCall) : Packs call (start call : Pass1 Content) [] := by
  refine ⟨?_, (Nat.zero_mul _).symm, fun i hi => ?_⟩
  · split <;> rfl
  · have hAbsent : (start call : Pass1 Content).resmap[i]? = some .absent := by
      rw [start, List.getElem?_replicate, if_pos hi]
    rw [hAbsent]
    refine iff_of_false (by decide) ?_
    rintro ⟨c, hc⟩
    cases hc

theorem Packs.page (h : Packs call s pages) (hNew : ∀ c, (v.1, c) ∉ pages)
    (hLength : s.resmap.length = call.pages)
    (hInside : call.base ≤ v.1 ∧ v.1 < call.base + call.pages)
    (hOk : (s.page call v).status = .ok) : Packs call (s.page call v) (pages ++ call.contents v) := by
  have hBefore := (page_ok hOk).1
  rw [CaptureCall.contents]
  cases hFound : call.found v.2 with
  | nothing =>
      rw [page_nothing hFound, List.append_nil]
      exact h
  | gpu f =>
      rw [page_gpu hBefore hFound] at hOk ⊢
      obtain ⟨hCopies, hOff⟩ :
          ({ s with resmap := s.resmap.set (v.1 - call.base) .gpu }.record call v.1 f).copies =
              s.copies ∧
            ({ s with resmap := s.resmap.set (v.1 - call.base) .gpu }.record call v.1 f).cpuOff =
              s.cpuOff := record_cpu v.1 f
      rw [List.append_nil]
      refine ⟨hCopies.trans h.copies, hOff.trans h.cpuOff, fun i hi => ?_⟩
      rw [resmap_record, List.getElem?_set]
      split
      · rename_i hSame
        have hPage : call.base + i = v.1 := by omega
        rw [if_pos (by omega), hPage]
        exact iff_of_false (by decide) (not_exists.mpr hNew)
      · exact h.onCpu i hi
  | cpu content =>
      rw [page_cpu hBefore hFound] at hOk ⊢
      have hNext : s.cpuOff + pageSize = (pages ++ [(v.1, content)]).length * pageSize := by
        rw [h.cpuOff, List.length_append, List.length_singleton, Nat.succ_mul]
      rw [(copyCpu_ok hOk).2]
      refine ⟨?_, hNext, fun i hi => ?_⟩
      · dsimp only
        rw [h.copies, h.cpuOff]
        by_cases hBuf : call.cpuBuf = true
        · rw [if_pos hBuf, if_pos hBuf, if_pos hBuf, List.zipIdx_append, List.map_append]
          simp
        · rw [if_neg hBuf, if_neg hBuf, if_neg hBuf, List.append_nil]
      · rw [List.getElem?_set]
        split
        · rename_i hSame
          have hPage : call.base + i = v.1 := by omega
          rw [if_pos (by omega), hPage]
          exact iff_of_true rfl ⟨content, List.mem_append_right _ (List.mem_singleton_self _)⟩
        · rename_i hOther
          rw [h.onCpu i hi]
          apply exists_congr
          intro c
          rw [List.mem_append, List.mem_singleton, Prod.mk.injEq]
          exact (or_iff_left fun hSame => hOther (by omega)).symm

theorem resmap_length_page : (s.page call v).resmap.length = s.resmap.length := by
  by_cases hOk : s.status = .ok
  · cases hFound : call.found v.2 with
    | nothing => rw [page_nothing hFound]
    | gpu f =>
        rw [page_gpu hOk hFound, resmap_record]
        exact List.length_set
    | cpu content =>
        rw [page_cpu hOk hFound, resmap_copyCpu]
        exact List.length_set
  · rw [page_stopped hOk]

theorem Packs.foldl {visited : List (Nat × Place Content)} (h : Packs call s pages)
    (hLength : s.resmap.length = call.pages)
    (hNew : ∀ v ∈ visited, ∀ e ∈ pages, e.1 < v.1)
    (hOrder : visited.Pairwise fun v w => v.1 < w.1)
    (hInside : ∀ v ∈ visited, call.base ≤ v.1 ∧ v.1 < call.base + call.pages)
    (hOk : (visited.foldl (Pass1.page call) s).status = .ok) :
    Packs call (visited.foldl (Pass1.page call) s) (pages ++ visited.flatMap call.contents) := by
  induction visited generalizing s pages with
  | nil =>
      rw [List.flatMap_nil, List.append_nil]
      exact h
  | cons v rest ih =>
      obtain ⟨hFirst, hOrderRest⟩ := List.pairwise_cons.mp hOrder
      have hNext : (s.page call v).status = .ok := (foldl_ok (s := s.page call v) hOk).1
      have hPage : Packs call (s.page call v) (pages ++ call.contents v) :=
        h.page (fun c hc => Nat.lt_irrefl _ (hNew v List.mem_cons_self _ hc)) hLength
          (hInside v List.mem_cons_self) hNext
      rw [List.flatMap_cons, ← List.append_assoc]
      apply ih hPage (resmap_length_page.trans hLength) ?_ hOrderRest
        (fun w hw => hInside w (List.mem_cons_of_mem v hw)) hOk
      intro w hw e he
      rcases List.mem_append.mp he with he | he
      · exact hNew w (List.mem_cons_of_mem v hw) e he
      · have hSame : v.1 = e.1 := (CaptureCall.mem_contents.mp he).1
        rw [← hSame]
        exact hFirst w hw

end Pass1

namespace PassOne

section Statements

variable (args : Args) (space : VaSpace)

/-- The address of a page of the span. -/
def Span.HasPage (span : Span) (a : Nat) : Prop :=
  a % pageSize = 0 ∧ span.base ≤ a ∧ a < span.base + span.length

/-- A block of a managed range at an address; only tracked and dirty ones, if these are asked
for. -/
def Shows (a : Nat) (b : VaBlock) : Prop :=
  (∃ r ∈ space.ranges, r.managed = true ∧ b ∈ r.blocks) ∧ b.start ≤ a ∧ a ≤ b.last ∧
    (args.dirtyOnly = true → b.trackingEnabled = true ∧ b.dirty = true)

/-- The page at an address is resident on the CPU. -/
def OnCpu (a : Nat) (page : PageBytes) : Prop :=
  ∃ b, Shows args space a b ∧ b.cpuResident ((a - b.start) / pageSize) = true ∧
    b.cpuPage ((a - b.start) / pageSize) = page

/-- It is not, but resident on the selected GPU. -/
def OnGpu (a : Nat) (phys : Frame) : Prop :=
  ∃ b, Shows args space a b ∧ b.cpuResident ((a - b.start) / pageSize) = false ∧
    b.gpuPage (space.selectGpu args.reqUuid) ((a - b.start) / pageSize) = some phys

/-- All pages of the span with a property, in the order of their addresses. -/
structure Lists {Value : Type} (pages : List (Nat × Value)) (holds : Nat → Value → Prop) : Prop where
  ordered : pages.Pairwise fun v w => v.1 < w.1
  complete : ∀ a value, (a, value) ∈ pages ↔ args.span.HasPage a ∧ holds a value

/-- The residency map page by page, and the pages of both kinds packed in the order of their
addresses. -/
structure PackedView (out : Results) : Prop where
  length : out.resmap.length = args.span.length / pageSize
  zero : ∀ k < args.span.length / pageSize, (out.resmap[k]? = some 0 ↔
    ∃ page, OnCpu args space (args.span.base + k * pageSize) page)
  one : ∀ k < args.span.length / pageSize, (out.resmap[k]? = some 1 ↔
    ∃ phys, OnGpu args space (args.span.base + k * pageSize) phys)
  two : ∀ k < args.span.length / pageSize, (out.resmap[k]? = some 2 ↔
    (¬∃ page, OnCpu args space (args.span.base + k * pageSize) page) ∧
      ¬∃ phys, OnGpu args space (args.span.base + k * pageSize) phys)
  cpu : ∃ pages, Lists args pages (OnCpu args space) ∧ out.cpuOff = pages.length * pageSize ∧
    (args.userCpuBuf ≠ 0 → ∀ image, ByteImage.read (writeAll image out.userCpu) 0 out.cpuOff =
      pages.flatMap fun e => e.2.val)
  gpu : ∃ pages, Lists args pages (OnGpu args space) ∧
    out.gpuPages = (pages.zipIdx.map fun e => ⟨e.1.2, e.2 * pageSize⟩) ∧
    out.gpuOff = pages.length * pageSize

/-- No page is visited twice, and none beyond the map. -/
structure VisitsOnce : Prop where
  ordered : (walk args space).Pairwise fun v w => v.2 < w.2
  inside : ∀ v ∈ walk args space, args.span.base ≤ v.2 ∧
    (v.2 - args.span.base) / pageSize < args.span.length / pageSize

end Statements

section Addresses

variable {args : Args} {space : VaSpace}

theorem div_lt_of_lt {m n k : Nat} (h : m / k < n / k) : m < n := by
  by_contra hNot
  exact absurd (Nat.div_le_div_right (Nat.le_of_not_lt hNot)) (Nat.not_le.mpr h)

theorem visitsOnce (hBase : space.hasBase args.span.base = true) : VisitsOnce args space := by
  have hWalk : (walk args space).map (VaBlock.visit (space.selectGpu args.reqUuid)) =
      (space.toCapture args.reqUuid).visited args.call := walk_toCapture (last_of_hasBase hBase) space
  constructor
  · have hOrder : ((space.toCapture args.reqUuid).visited args.call).Pairwise
      fun v w => v.1 < w.1 := CaptureSpace.visited_pairwise _
    rw [← hWalk, List.pairwise_map] at hOrder
    exact hOrder.imp div_lt_of_lt
  · intro v hv
    have hMem := List.mem_map_of_mem (f := VaBlock.visit (space.selectGpu args.reqUuid)) hv
    rw [hWalk] at hMem
    obtain ⟨hLow, hHigh⟩ := CaptureSpace.mem_visited hMem
    have hLow' : args.span.base / pageSize ≤ v.2 / pageSize := hLow
    have hHigh' : v.2 / pageSize < args.span.base / pageSize + args.span.length / pageSize := hHigh
    have hAligned := args.span.baseAligned
    rw [sub_div_page hAligned]
    rw [show pageSize = 4096 from rfl] at *
    omega

/-- The pages that `pass1` visits, by their addresses. -/
theorem mem_visited_iff (p : Nat) (place : Place PageBytes) :
    (p, place) ∈ (space.toCapture args.reqUuid).visited args.call ↔
      args.span.HasPage (p * pageSize) ∧ ∃ b, Shows args space (p * pageSize) b ∧
        place = b.placeAt (space.selectGpu args.reqUuid) ((p * pageSize - b.start) / pageSize) := by
  have hPages : ∀ b : VaBlock, (b.start / pageSize ≤ p ∧ p < (b.last + 1) / pageSize) ↔
      b.start ≤ p * pageSize ∧ p * pageSize ≤ b.last := by
    intro b
    have hStart := b.startAligned
    have hLast := b.lastAligned
    rw [show pageSize = 4096 from rfl] at *
    omega
  have hSpan : (args.span.base / pageSize ≤ p ∧
      p < args.span.base / pageSize + args.span.length / pageSize) ↔ args.span.HasPage (p * pageSize) := by
    have hBase := args.span.baseAligned
    have hLength := args.span.lengthAligned
    rw [Span.HasPage, Nat.mul_mod_left]
    rw [show pageSize = 4096 from rfl] at *
    omega
  have hPlace : ∀ b : VaBlock, (b.toCapture (space.selectGpu args.reqUuid)).place p =
      b.placeAt (space.selectGpu args.reqUuid) ((p * pageSize - b.start) / pageSize) := by
    intro b
    rw [sub_div_page b.startAligned, Nat.mul_div_cancel p (by decide)]
    rfl
  have hTaken : ∀ b : VaBlock, (b.toCapture (space.selectGpu args.reqUuid)).taken args.call = true ↔
      (args.dirtyOnly = true → b.trackingEnabled = true ∧ b.dirty = true) := by
    intro b
    simp only [CaptureBlock.taken, VaBlock.toCapture, Args.call]
    cases args.dirtyOnly <;> simp
  rw [CaptureSpace.mem_visited_iff]
  constructor
  · rintro ⟨r', hr', hManaged, b', hb', hTake, hIn, hBounds, hAt⟩
    obtain ⟨r, hr, rfl⟩ := List.mem_map.mp hr'
    obtain ⟨b, hb, rfl⟩ := List.mem_map.mp hb'
    obtain ⟨hLow, hHigh⟩ := (hPages b).mp hIn
    refine ⟨hSpan.mp hBounds, b, ⟨⟨r, hr, hManaged, hb⟩, hLow, hHigh, (hTaken b).mp hTake⟩, ?_⟩
    exact hAt.trans (hPlace b)
  · rintro ⟨hBounds, b, ⟨⟨r, hr, hManaged, hb⟩, hLow, hHigh, hTake⟩, hAt⟩
    refine ⟨r.toCapture (space.selectGpu args.reqUuid), List.mem_map_of_mem hr, hManaged,
      b.toCapture (space.selectGpu args.reqUuid), List.mem_map_of_mem hb, (hTaken b).mpr hTake,
      (hPages b).mpr ⟨hLow, hHigh⟩, hSpan.mpr hBounds, ?_⟩
    exact hAt.trans (hPlace b).symm

theorem found_placeAt (b : VaBlock) (gpu : Option Nat) (pi : Nat) :
    args.call.found (b.placeAt gpu pi) =
      if b.cpuResident pi then .cpu (b.cpuPage pi)
      else match b.gpuPage gpu pi with
        | some phys => .gpu phys
        | none => .nothing := by
  rw [VaBlock.placeAt]
  split
  · rfl
  · cases b.gpuPage gpu pi <;> rfl

theorem mem_contents_iff (p : Nat) (page : PageBytes) :
    (p, page) ∈ ((space.toCapture args.reqUuid).visited args.call).flatMap args.call.contents ↔
      args.span.HasPage (p * pageSize) ∧ OnCpu args space (p * pageSize) page := by
  rw [List.mem_flatMap]
  constructor
  · rintro ⟨⟨p', place⟩, hv, hMem⟩
    obtain ⟨rfl, hFound⟩ := CaptureCall.mem_contents.mp hMem
    obtain ⟨hSpan, b, hShows, hPlace⟩ := (mem_visited_iff p' place).mp hv
    rw [hPlace, found_placeAt] at hFound
    refine ⟨hSpan, b, hShows, ?_⟩
    split at hFound
    · rename_i hResident
      exact ⟨hResident, Found.cpu.inj hFound⟩
    · split at hFound <;> cases hFound
  · rintro ⟨hSpan, b, hShows, hResident, rfl⟩
    refine ⟨(p, _), (mem_visited_iff p _).mpr ⟨hSpan, b, hShows, rfl⟩,
      CaptureCall.mem_contents.mpr ⟨rfl, ?_⟩⟩
    rw [found_placeAt, if_pos hResident]

theorem mem_records_iff (p : Nat) (phys : Frame) :
    (p, phys) ∈ ((space.toCapture args.reqUuid).visited args.call).flatMap args.call.records ↔
      args.span.HasPage (p * pageSize) ∧ OnGpu args space (p * pageSize) phys := by
  rw [List.mem_flatMap]
  constructor
  · rintro ⟨⟨p', place⟩, hv, hMem⟩
    obtain ⟨rfl, hFound⟩ := CaptureCall.mem_records.mp hMem
    obtain ⟨hSpan, b, hShows, hPlace⟩ := (mem_visited_iff p' place).mp hv
    rw [hPlace, found_placeAt] at hFound
    refine ⟨hSpan, b, hShows, ?_⟩
    split at hFound
    · cases hFound
    · rename_i hNot
      split at hFound
      · rename_i phys' hPage
        cases hFound
        exact ⟨Bool.not_eq_true _ ▸ hNot, hPage⟩
      · cases hFound
  · rintro ⟨hSpan, b, hShows, hNot, hPage⟩
    refine ⟨(p, _), (mem_visited_iff p _).mpr ⟨hSpan, b, hShows, rfl⟩,
      CaptureCall.mem_records.mpr ⟨rfl, ?_⟩⟩
    rw [found_placeAt, hNot, hPage]
    rfl

end Addresses

section View

variable {args : Args} {space : VaSpace} {Value : Type}

/-- Pages by their addresses. -/
def byAddress (pages : List (Nat × Value)) : List (Nat × Value) :=
  pages.map fun e => (e.1 * pageSize, e.2)

theorem lists_byAddress {pages : List (Nat × Value)} {holds : Nat → Value → Prop}
    (hOrder : pages.Pairwise fun v w => v.1 < w.1)
    (hMem : ∀ p value, (p, value) ∈ pages ↔
      args.span.HasPage (p * pageSize) ∧ holds (p * pageSize) value) :
    Lists args (byAddress pages) holds := by
  constructor
  · rw [byAddress, List.pairwise_map]
    exact hOrder.imp fun hLt => (Nat.mul_lt_mul_right (by decide)).mpr hLt
  · intro a value
    constructor
    · intro h
      obtain ⟨⟨p, value'⟩, hPage, hSame⟩ := List.mem_map.mp h
      cases hSame
      exact (hMem p value').mp hPage
    · rintro ⟨hSpan, hHolds⟩
      have hScale : a / pageSize * pageSize = a := Nat.div_mul_cancel (Nat.dvd_of_mod_eq_zero hSpan.1)
      refine List.mem_map.mpr ⟨(a / pageSize, value), (hMem _ _).mpr ?_, ?_⟩
      · rw [hScale]
        exact ⟨hSpan, hHolds⟩
      · rw [hScale]

/-- What each visited page adds keeps the order of the visits. -/
theorem pairwise_flatMap {visited : List (Nat × Place PageBytes)}
    {add : Nat × Place PageBytes → List (Nat × Value)}
    (hOrder : visited.Pairwise fun v w => v.1 < w.1) (hKey : ∀ v, ∀ e ∈ add v, v.1 = e.1)
    (hOne : ∀ v, (add v).length ≤ 1) :
    (visited.flatMap add).Pairwise fun v w => v.1 < w.1 := by
  rw [List.pairwise_flatMap]
  constructor
  · intro v _
    have hLength := hOne v
    match add v, hLength with
    | [], _ => exact List.Pairwise.nil
    | [e], _ => exact List.pairwise_singleton _ e
  · apply hOrder.imp
    intro v w hLt e he e' he'
    rw [← hKey v e he, ← hKey w e' he']
    exact hLt

theorem contents_length (call : CaptureCall) (v : Nat × Place PageBytes) :
    (call.contents v).length ≤ 1 := by
  rw [CaptureCall.contents]
  split
  · exact Nat.le_refl _
  · exact Nat.zero_le _

theorem records_length (call : CaptureCall) (v : Nat × Place PageBytes) :
    (call.records v).length ≤ 1 := by
  rw [CaptureCall.records]
  split
  · exact Nat.le_refl _
  · exact Nat.zero_le _

theorem packed_pages (pages : List (Nat × PageBytes)) (k : Nat) :
    Packed (k * pageSize) ((pages.zipIdx k).map fun e => ⟨e.2 * pageSize, e.1.2.val⟩)
      ((k + pages.length) * pageSize) := by
  induction pages generalizing k with
  | nil => exact rfl
  | cons e rest ih =>
      refine ⟨rfl, ?_⟩
      have hStop : Write.stop ⟨k * pageSize, e.2.val⟩ = (k + 1) * pageSize := by
        rw [Write.stop, e.2.property, Nat.succ_mul]
      have hEnd : k + (e :: rest).length = k + 1 + rest.length := by
        rw [List.length_cons]
        omega
      rw [hEnd]
      show Packed (Write.stop ⟨k * pageSize, e.2.val⟩) _ _
      rw [hStop]
      exact ih (k + 1)

/-- The caller's buffer holds the pages one after the other. -/
theorem read_pages (image : ByteImage.Image) (pages : List (Nat × PageBytes)) :
    ByteImage.read (writeAll image (pages.zipIdx.map fun e => ⟨e.2 * pageSize, e.1.2.val⟩)) 0
      (pages.length * pageSize) = pages.flatMap fun e => e.2.val := by
  have hPacked := packed_pages pages 0
  rw [Nat.zero_add, Nat.zero_mul] at hPacked
  have hAll := hPacked.read_all (List.Perm.refl _) image
  rw [Nat.sub_zero] at hAll
  rw [hAll, List.flatMap_map]
  conv_rhs => rw [← List.zipIdx_map_fst 0 pages, List.flatMap_map]

theorem some_code_iff (r : Option Residency) :
    (r.map Residency.code = some 0 ↔ r = some .cpu) ∧
    (r.map Residency.code = some 1 ↔ r = some .gpu) ∧
    (r.map Residency.code = some 2 ↔ r = some .absent) := by
  rcases r with _ | (_ | _ | _) <;> decide

theorem absent_iff (r : Residency) : some r = some .absent ↔
    ¬some r = some Residency.cpu ∧ ¬some r = some Residency.gpu := by
  cases r <;> decide

/-- A page of the map by its address. -/
theorem hasPage_at {k : Nat} (hk : k < args.span.length / pageSize) :
    (args.call.base + k) * pageSize = args.span.base + k * pageSize ∧
      args.span.HasPage (args.span.base + k * pageSize) := by
  have hBase := args.span.baseAligned
  have hLength := args.span.lengthAligned
  have hCall : args.call.base = args.span.base / pageSize := rfl
  rw [hCall, Span.HasPage]
  rw [show pageSize = 4096 from rfl] at *
  omega

theorem packedView_ofPass1 {t : Pass1 PageBytes}
    (hPacks : t.Packs args.call
      (((space.toCapture args.reqUuid).visited args.call).flatMap args.call.contents))
    (hMapped : t.Mapped args.call)
    (hRecords : t.gpuPages =
      ((space.toCapture args.reqUuid).visited args.call).flatMap args.call.records) :
    PackedView args space (.ofPass1 t) := by
  have hOrder : ((space.toCapture args.reqUuid).visited args.call).Pairwise
    fun v w => v.1 < w.1 := CaptureSpace.visited_pairwise _
  have hMap : ∀ k, (Results.ofPass1 t).resmap[k]? = (t.resmap[k]?).map Residency.code :=
    fun k => List.getElem?_map
  have hCpu : ∀ k < args.span.length / pageSize, (t.resmap[k]? = some .cpu ↔
      ∃ page, OnCpu args space (args.span.base + k * pageSize) page) := by
    intro k hk
    obtain ⟨hAt, hHas⟩ := hasPage_at hk
    rw [hPacks.onCpu k hk]
    apply exists_congr
    intro page
    rw [mem_contents_iff, hAt]
    exact and_iff_right hHas
  have hGpu : ∀ k < args.span.length / pageSize, (t.resmap[k]? = some .gpu ↔
      ∃ phys, OnGpu args space (args.span.base + k * pageSize) phys) := by
    intro k hk
    obtain ⟨hAt, hHas⟩ := hasPage_at hk
    rw [hMapped.2 k hk, hRecords]
    apply exists_congr
    intro phys
    rw [mem_records_iff, hAt]
    exact and_iff_right hHas
  refine ⟨(List.length_map _).trans hMapped.1, fun k hk => ?_, fun k hk => ?_, fun k hk => ?_,
    ⟨_, lists_byAddress ?_ mem_contents_iff, ?_, fun hBuf image => ?_⟩,
    ⟨_, lists_byAddress ?_ mem_records_iff, ?_, ?_⟩⟩
  · rw [hMap, (some_code_iff _).1]
    exact hCpu k hk
  · rw [hMap, (some_code_iff _).2.1]
    exact hGpu k hk
  · obtain ⟨r, hr⟩ : ∃ r, t.resmap[k]? = some r :=
      ⟨_, List.getElem?_eq_getElem (hMapped.1 ▸ hk)⟩
    rw [hMap, (some_code_iff _).2.2, ← hCpu k hk, ← hGpu k hk, hr]
    exact absent_iff r
  · exact pairwise_flatMap hOrder (fun v e he => (CaptureCall.mem_contents.mp he).1)
      (contents_length args.call)
  · rw [byAddress, List.length_map]
    exact hPacks.cpuOff
  · have hGiven : args.call.cpuBuf = true := by simp [Args.call, hBuf]
    have hWrites : (Results.ofPass1 t).userCpu =
        ((((space.toCapture args.reqUuid).visited args.call).flatMap
          args.call.contents).zipIdx.map fun e => ⟨e.2 * pageSize, e.1.2.val⟩) := by
      have hWhole : ∀ page : PageBytes, page.val.take pageSize = page.val := fun page =>
        List.take_of_length_le (Nat.le_of_eq page.property)
      simp only [Results.ofPass1, hPacks.copies, hGiven, if_true, List.map_map, Function.comp_def,
        hWhole]
    have hOff : (Results.ofPass1 t).cpuOff = t.cpuOff := rfl
    rw [hWrites, hOff, hPacks.cpuOff, read_pages, byAddress, List.flatMap_map]
  · exact pairwise_flatMap hOrder (fun v e he => (CaptureCall.mem_records.mp he).1)
      (records_length args.call)
  · rw [← hRecords, byAddress, List.zipIdx_map, List.map_map]
    rfl
  · rw [byAddress, List.length_map, ← hRecords]
    rfl

/-- Pass 1 is a faithful packed view of the first VA space that has the base in a managed
range. -/
theorem lmMtPass1_packs (args : Args) (spaces : List VaSpace)
    (hOk : (lmMtPass1 args spaces).status = .ok) :
    ∃ space ∈ spaces, space.hasBase args.span.base = true ∧ VisitsOnce args space ∧
      lmMtPass1 args spaces = (walk args space).foldl
        (fun s v => visitPage args (space.selectGpu args.reqUuid) v.1 s v.2) (Results.start args) ∧
      PackedView args space (lmMtPass1 args spaces) := by
  have hSame := lmMtPass1_ofPass1 args spaces
  rw [lmMtPass1] at hOk hSame ⊢
  cases hFind : spaces.find? fun space => space.hasBase args.span.base with
  | none =>
      rw [hFind] at hOk
      cases hOk
  | some space =>
      rw [hFind] at hOk
      have hBase : space.hasBase args.span.base = true :=
        List.find?_some (p := fun space : VaSpace => space.hasBase args.span.base) hFind
      refine ⟨space, List.mem_of_find?_eq_some hFind, hBase, visitsOnce hBase, loops_walk _ _, ?_⟩
      dsimp only at hOk ⊢
      rw [loops_walk, start_ofPass1, foldl_ofPass1, walk_toCapture (last_of_hasBase hBase)] at hOk ⊢
      have hOrder : ((space.toCapture args.reqUuid).visited args.call).Pairwise
        fun v w => v.1 < w.1 := CaptureSpace.visited_pairwise _
      have hInside : ∀ v ∈ (space.toCapture args.reqUuid).visited args.call,
        args.call.base ≤ v.1 ∧ v.1 < args.call.base + args.call.pages := fun v hv =>
          CaptureSpace.mem_visited hv
      have hRecords := (Pass1.foldl_ok hOk).2
      have hMapped := Pass1.mapped_start.foldl (fun v hv e he => absurd he List.not_mem_nil) hOrder
        hInside hOk
      have hPacks := (Pass1.packs_start args.call).foldl List.length_replicate
        (fun v hv e he => absurd he List.not_mem_nil) hOrder hInside hOk
      exact packedView_ofPass1 hPacks hMapped hRecords

/-- A block of three pages: on the CPU, on GPU 1, and nowhere. -/
def threePages : VaBlock where
  start := 0
  last := 3 * pageSize - 1
  cpuResident := fun pi => pi = 0
  cpuPage := fun _ => ⟨List.replicate pageSize 7, List.length_replicate⟩
  gpus := fun id => if id = 1 then some ⟨fun pi => pi = 1, fun pi => ⟨.vid, pi * pageSize⟩⟩ else none
  trackingEnabled := true
  dirty := true
  nonempty := by decide
  startAligned := by decide
  lastAligned := by decide

def threeSpace : VaSpace where
  ranges := [⟨true, 0, 3 * pageSize - 1, [threePages], by decide, by decide, by decide, by decide,
    by decide⟩]
  registeredGpus := [(8, 1)]
  ordered := by decide
  user := by decide

/-- A span that begins and ends with the block. -/
def threeArgs : Args where
  span := ⟨0, 3 * pageSize, by decide, by decide, by decide, by decide, by decide⟩
  dirtyOnly := true
  userCpuBuf := 1
  reqUuid := 0
  copyToUser := fun _ => pageSize
  kvmallocArray := fun _ => true

theorem lmMtPass1_packs_threePages : ∃ space ∈ [threeSpace],
    space.hasBase threeArgs.span.base = true ∧ VisitsOnce threeArgs space ∧
      lmMtPass1 threeArgs [threeSpace] = (walk threeArgs space).foldl
        (fun s v => visitPage threeArgs (space.selectGpu threeArgs.reqUuid) v.1 s v.2)
        (Results.start threeArgs) ∧
      PackedView threeArgs space (lmMtPass1 threeArgs [threeSpace]) :=
  lmMtPass1_packs threeArgs [threeSpace] rfl

example : (lmMtPass1 threeArgs [threeSpace]).resmap = [0, 1, 2] := by decide

end View

end PassOne

end FlashCkpt.Driver
