import FlashCkpt.Driver.Precopy

/-! Pass 1 of the captures: the blocks of a VA space are walked in the order of their
addresses, CPU pages are copied to the caller at once, and of GPU pages it is recorded where
they lie. Ioctl 109 has the code of `lm_mt_pass1` in place. Addresses are in pages. -/
namespace FlashCkpt.Driver

open Image

/-- How an ioctl ends. -/
inductive Status where
  | ok
  | insufficientPermissions
  | invalidArgument
  | invalidAddress
  | invalidDevice
  | notSupported
  | noMemory
  | other
  deriving DecidableEq, Repr

/-- A va_block with the flags of the tracking. -/
structure CaptureBlock (Content : Type) where
  first : Nat
  stop : Nat
  place : Nat → Place Content
  tracked : Bool
  dirty : Bool

/-- A va_range with the blocks it has. -/
structure CaptureRange (Content : Type) where
  managed : Bool
  first : Nat
  stop : Nat
  blocks : List (CaptureBlock Content)
  inside : ∀ b ∈ blocks, first ≤ b.first ∧ b.stop ≤ stop
  ordered : blocks.Pairwise fun b c => b.stop ≤ c.first

structure CaptureSpace (Content : Type) where
  ranges : List (CaptureRange Content)
  ordered : ranges.Pairwise fun r s => r.stop ≤ s.first

/-- The arguments of pass 1 and the results of the calls it makes: whether the GPU is found,
how much of a CPU page the copy to the caller's offset delivers, and whether the list of
records can be made this long. -/
structure CaptureCall where
  base : Nat
  pages : Nat
  dirtyOnly : Bool
  cpuBuf : Bool
  hasGpu : Bool
  copyOut : Nat → Nat
  grows : Nat → Bool

/-- A copy of a CPU page to the caller's buffer. -/
structure CpuCopy (Content : Type) where
  offset : Nat
  content : Content
  delivered : Nat

/-- The results of pass 1 so far. A record of `gpu_pages` is a page with its frame; the
offset in the GPU buffer is the place of the record in the list. -/
structure Pass1 (Content : Type) where
  status : Status
  resmap : List Residency
  copies : List (CpuCopy Content)
  cpuOff : Nat
  gpuPages : List (Nat × Frame)
  gpuCap : Nat

section Walk

variable {Content : Type} (call : CaptureCall)

/-- The pages of a block in the span. -/
def CaptureBlock.visited (b : CaptureBlock Content) : List (Nat × Place Content) :=
  let first := max b.first call.base
  (List.range' first (min b.stop (call.base + call.pages) - first)).map fun p => (p, b.place p)

/-- The predicate of GET_DIRTY_PAGES, if only dirty blocks are asked for. -/
def CaptureBlock.taken (b : CaptureBlock Content) : Bool :=
  !call.dirtyOnly || (b.tracked && b.dirty)

def CaptureRange.visited (r : CaptureRange Content) : List (Nat × Place Content) :=
  if r.managed then
    (r.blocks.filter (CaptureBlock.taken call)).flatMap (CaptureBlock.visited call)
  else []

def CaptureSpace.visited (space : CaptureSpace Content) : List (Nat × Place Content) :=
  space.ranges.flatMap (CaptureRange.visited call)

/-- Where a page is found, if there is a GPU to look at. -/
def CaptureCall.found (place : Place Content) : Found Content :=
  match place.found with
  | .gpu f => if call.hasGpu then .gpu f else .nothing
  | other => other

/-- `gpu_pages[gpu_page_cnt++]`. -/
def Pass1.record (s : Pass1 Content) (p : Nat) (f : Frame) : Pass1 Content :=
  if s.gpuPages.length < s.gpuCap then { s with gpuPages := s.gpuPages ++ [(p, f)] }
  else if call.grows (2 * s.gpuCap) then
    { s with gpuPages := s.gpuPages ++ [(p, f)], gpuCap := 2 * s.gpuCap }
  else { s with status := .noMemory }

/-- The copy of a CPU page to the caller. -/
def Pass1.copyCpu (s : Pass1 Content) (content : Content) : Pass1 Content :=
  if call.cpuBuf then
    let delivered := min (call.copyOut s.cpuOff) pageSize
    let tried : Pass1 Content := { s with copies := s.copies ++ [⟨s.cpuOff, content, delivered⟩] }
    if delivered < pageSize then { tried with status := .invalidArgument }
    else { tried with cpuOff := s.cpuOff + pageSize }
  else { s with cpuOff := s.cpuOff + pageSize }

/-- One page of the walk; nothing happens behind an error. -/
def Pass1.page (s : Pass1 Content) (v : Nat × Place Content) : Pass1 Content :=
  if s.status ≠ .ok then s
  else
    match call.found v.2 with
    | .cpu content =>
        { s with resmap := s.resmap.set (v.1 - call.base) .cpu }.copyCpu call content
    | .gpu f => { s with resmap := s.resmap.set (v.1 - call.base) .gpu }.record call v.1 f
    | .nothing => s

def Pass1.start : Pass1 Content where
  status := .ok
  resmap := List.replicate call.pages .absent
  copies := []
  cpuOff := 0
  gpuPages := []
  gpuCap := min call.pages 512

/-- The first VA space that has the base in a managed range. -/
def findSpace (spaces : List (CaptureSpace Content)) : Option (CaptureSpace Content) :=
  spaces.find? fun s => s.ranges.any fun r => r.managed && r.first ≤ call.base && call.base < r.stop

/-- `lm_mt_pass1`. -/
def pass1 (spaces : List (CaptureSpace Content)) : Pass1 Content :=
  match findSpace call spaces with
  | none => { Pass1.start call with status := .invalidAddress }
  | some space => (space.visited call).foldl (Pass1.page call) (Pass1.start call)

/-- What a page adds to the records. -/
def CaptureCall.records (v : Nat × Place Content) : List (Nat × Frame) :=
  match call.found v.2 with
  | .gpu f => [(v.1, f)]
  | _ => []

end Walk

section Order

variable {Content : Type} {call : CaptureCall}

theorem CaptureBlock.mem_visited {b : CaptureBlock Content} {v : Nat × Place Content}
    (h : v ∈ b.visited call) :
    (b.first ≤ v.1 ∧ v.1 < b.stop) ∧ call.base ≤ v.1 ∧ v.1 < call.base + call.pages := by
  obtain ⟨p, hp, rfl⟩ := List.mem_map.mp h
  obtain ⟨hLow, hHigh⟩ := List.mem_range'_1.mp hp
  dsimp only
  omega

theorem CaptureRange.mem_visited {r : CaptureRange Content} {v : Nat × Place Content}
    (h : v ∈ r.visited call) :
    (r.first ≤ v.1 ∧ v.1 < r.stop) ∧ call.base ≤ v.1 ∧ v.1 < call.base + call.pages := by
  rw [visited] at h
  split at h
  · obtain ⟨b, hb, hv⟩ := List.mem_flatMap.mp h
    obtain ⟨hBlock, hSpan⟩ := b.mem_visited hv
    have hInside := r.inside b (List.mem_of_mem_filter hb)
    exact ⟨by omega, hSpan⟩
  · cases h

theorem CaptureSpace.mem_visited {space : CaptureSpace Content} {v : Nat × Place Content}
    (h : v ∈ space.visited call) : call.base ≤ v.1 ∧ v.1 < call.base + call.pages := by
  obtain ⟨r, hr, hv⟩ := List.mem_flatMap.mp h
  exact (r.mem_visited hv).2

theorem CaptureBlock.visited_pairwise (b : CaptureBlock Content) :
    (b.visited call).Pairwise fun v w => v.1 < w.1 := by
  rw [visited, List.pairwise_map]
  exact List.pairwise_lt_range'

theorem CaptureRange.visited_pairwise (r : CaptureRange Content) :
    (r.visited call).Pairwise fun v w => v.1 < w.1 := by
  rw [visited]
  split
  · rw [List.pairwise_flatMap]
    refine ⟨fun b _ => b.visited_pairwise, ?_⟩
    apply (r.ordered.filter _).imp
    intro b c hApart v hv w hw
    have hv' := (b.mem_visited hv).1
    have hw' := (c.mem_visited hw).1
    omega
  · exact List.Pairwise.nil

/-- The pages are visited in the order of their addresses. -/
theorem CaptureSpace.visited_pairwise (space : CaptureSpace Content) :
    (space.visited call).Pairwise fun v w => v.1 < w.1 := by
  rw [visited, List.pairwise_flatMap]
  refine ⟨fun r _ => r.visited_pairwise, ?_⟩
  apply space.ordered.imp
  intro r s hApart v hv w hw
  have hv' := (r.mem_visited hv).1
  have hw' := (s.mem_visited hw).1
  omega

end Order

namespace Pass1

variable {Content : Type} {call : CaptureCall} {s : Pass1 Content}

/-- A copy that goes through has delivered the page as a whole. -/
theorem copyCpu_ok {content : Content} (h : (s.copyCpu call content).status = .ok) :
    (call.cpuBuf = true → min (call.copyOut s.cpuOff) pageSize = pageSize) ∧
      s.copyCpu call content =
        { s with
          copies := s.copies ++ if call.cpuBuf then [⟨s.cpuOff, content, pageSize⟩] else []
          cpuOff := s.cpuOff + pageSize } := by
  rw [copyCpu] at h ⊢
  by_cases hBuf : call.cpuBuf = true
  · rw [if_pos hBuf] at h ⊢
    rw [if_pos hBuf]
    dsimp only at h ⊢
    split at h
    · cases h
    · rename_i hAll
      have hPage : min (call.copyOut s.cpuOff) pageSize = pageSize :=
        Nat.le_antisymm (Nat.min_le_right _ _) (Nat.le_of_not_lt hAll)
      rw [if_neg hAll, hPage]
      exact ⟨fun _ => rfl, rfl⟩
  · rw [if_neg hBuf, if_neg hBuf, List.append_nil]
    exact ⟨fun hSome => absurd hSome hBuf, rfl⟩

/-- A record that goes through is the last one. -/
theorem record_ok {p : Nat} {f : Frame} (h : (s.record call p f).status = .ok) :
    (s.record call p f).gpuPages = s.gpuPages ++ [(p, f)] := by
  rw [record] at h ⊢
  split at h
  · rename_i hRoom
    rw [if_pos hRoom]
  · rename_i hFull
    rw [if_neg hFull]
    split at h
    · rename_i hGrows
      rw [if_pos hGrows]
    · cases h

@[simp] theorem resmap_copyCpu (content : Content) : (s.copyCpu call content).resmap = s.resmap := by
  rw [copyCpu]
  split
  · dsimp only
    split <;> rfl
  · rfl

@[simp] theorem resmap_record (p : Nat) (f : Frame) : (s.record call p f).resmap = s.resmap := by
  rw [record]
  split
  · rfl
  · split <;> rfl

/-- What a page does that is not the last one: it leaves its residency, and its record. -/
theorem page_ok {v : Nat × Place Content} (h : (s.page call v).status = .ok) :
    s.status = .ok ∧ (s.page call v).gpuPages = s.gpuPages ++ call.records v ∧
      (s.page call v).resmap = match call.found v.2 with
        | .cpu _ => s.resmap.set (v.1 - call.base) .cpu
        | .gpu _ => s.resmap.set (v.1 - call.base) .gpu
        | .nothing => s.resmap := by
  rw [page] at h ⊢
  by_cases hOk : s.status = .ok
  · rw [if_neg (not_not_intro hOk)] at h ⊢
    rw [CaptureCall.records]
    cases hFound : call.found v.2 with
    | cpu content =>
        rw [hFound] at h
        dsimp only at h ⊢
        rw [(copyCpu_ok h).2, List.append_nil]
        exact ⟨hOk, rfl, rfl⟩
    | gpu f =>
        rw [hFound] at h
        exact ⟨hOk, record_ok h, resmap_record v.1 f⟩
    | nothing => exact ⟨hOk, (List.append_nil _).symm, rfl⟩
  · rw [if_pos hOk] at h
    exact absurd h hOk

theorem foldl_ok {visited : List (Nat × Place Content)}
    (h : (visited.foldl (page call) s).status = .ok) :
    s.status = .ok ∧
      (visited.foldl (page call) s).gpuPages = s.gpuPages ++ visited.flatMap call.records := by
  induction visited generalizing s with
  | nil => exact ⟨h, (List.append_nil _).symm⟩
  | cons v rest ih =>
      obtain ⟨hNext, hRest⟩ := ih h
      obtain ⟨hOk, hRecords, -⟩ := page_ok hNext
      refine ⟨hOk, ?_⟩
      rw [List.foldl_cons, hRest, hRecords, List.flatMap_cons, List.append_assoc]

/-- The residency map says of a page that it lies on the GPU when there is a record of it. -/
def Mapped (call : CaptureCall) (s : Pass1 Content) : Prop :=
  s.resmap.length = call.pages ∧ ∀ i < call.pages,
    (s.resmap[i]? = some .gpu ↔ ∃ f, (call.base + i, f) ∈ s.gpuPages)

theorem mapped_start : Mapped call (start call : Pass1 Content) := by
  refine ⟨List.length_replicate, fun i hi => ?_⟩
  have hAbsent : (start call : Pass1 Content).resmap[i]? = some .absent := by
    rw [start, List.getElem?_replicate, if_pos hi]
  rw [hAbsent]
  exact iff_of_false (by decide) fun ⟨f, hf⟩ => nomatch hf

theorem Mapped.page {v : Nat × Place Content} (h : Mapped call s)
    (hNew : ∀ f, (v.1, f) ∉ s.gpuPages)
    (hInside : call.base ≤ v.1 ∧ v.1 < call.base + call.pages)
    (hOk : (s.page call v).status = .ok) : Mapped call (s.page call v) := by
  obtain ⟨-, hRecords, hResmap⟩ := page_ok hOk
  obtain ⟨hLength, hIff⟩ := h
  rw [CaptureCall.records] at hRecords
  rw [Mapped, hRecords, hResmap]
  cases call.found v.2 with
  | nothing => exact ⟨hLength, by simpa using hIff⟩
  | cpu content =>
      refine ⟨by rwa [List.length_set], fun i hi => ?_⟩
      dsimp only
      rw [List.append_nil, List.getElem?_set]
      split
      · rename_i hSame
        have hPage : call.base + i = v.1 := by omega
        rw [if_pos (by omega), hPage]
        exact iff_of_false (by decide) fun ⟨f, hf⟩ => hNew f hf
      · exact hIff i hi
  | gpu f =>
      refine ⟨by rwa [List.length_set], fun i hi => ?_⟩
      dsimp only
      rw [List.getElem?_set]
      split
      · rename_i hSame
        have hPage : call.base + i = v.1 := by omega
        rw [if_pos (by omega), hPage]
        exact iff_of_true rfl ⟨f, List.mem_append_right _ List.mem_cons_self⟩
      · rename_i hOther
        rw [hIff i hi]
        apply exists_congr
        intro f'
        rw [List.mem_append, List.mem_singleton, Prod.mk.injEq]
        exact (or_iff_left fun hSame => hOther (by omega)).symm

theorem mem_records {v : Nat × Place Content} {e : Nat × Frame} (h : e ∈ call.records v) :
    e.1 = v.1 := by
  rw [CaptureCall.records] at h
  split at h
  · rw [List.mem_singleton.mp h]
  · cases h

theorem Mapped.foldl {visited : List (Nat × Place Content)} (h : Mapped call s)
    (hNew : ∀ v ∈ visited, ∀ e ∈ s.gpuPages, e.1 < v.1)
    (hOrder : visited.Pairwise fun v w => v.1 < w.1)
    (hInside : ∀ v ∈ visited, call.base ≤ v.1 ∧ v.1 < call.base + call.pages)
    (hOk : (visited.foldl (Pass1.page call) s).status = .ok) :
    Mapped call (visited.foldl (Pass1.page call) s) := by
  induction visited generalizing s with
  | nil => exact h
  | cons v rest ih =>
      obtain ⟨hFirst, hOrderRest⟩ := List.pairwise_cons.mp hOrder
      have hNext : (s.page call v).status = .ok := (foldl_ok (s := s.page call v) hOk).1
      have hRecords := (page_ok hNext).2.1
      have hPage : Mapped call (s.page call v) :=
        h.page (fun f hf => Nat.lt_irrefl _ (hNew v List.mem_cons_self _ hf))
          (hInside v List.mem_cons_self) hNext
      apply ih hPage ?_ hOrderRest (fun w hw => hInside w (List.mem_cons_of_mem v hw)) hOk
      intro w hw e he
      rw [hRecords] at he
      rcases List.mem_append.mp he with he | he
      · exact hNew w (List.mem_cons_of_mem v hw) e he
      · rw [mem_records he]
        exact hFirst w hw

end Pass1

/-- What a capture has after a first pass that succeeds. -/
theorem pass1_ok {Content : Type} {call : CaptureCall} {spaces : List (CaptureSpace Content)}
    (h : (pass1 call spaces).status = .ok) : ∃ space, findSpace call spaces = some space ∧
      (pass1 call spaces).gpuPages = (space.visited call).flatMap call.records ∧
      (pass1 call spaces).Mapped call := by
  rw [pass1] at h ⊢
  cases hFind : findSpace call spaces with
  | none =>
      rw [hFind] at h
      cases h
  | some space =>
      rw [hFind] at h
      dsimp only at h ⊢
      refine ⟨space, rfl, (Pass1.foldl_ok h).2, ?_⟩
      exact Pass1.mapped_start.foldl (fun v hv e he => nomatch he) space.visited_pairwise
        (fun v hv => space.mem_visited hv) h

end FlashCkpt.Driver
