import FlashCkpt.Driver.Capture

/-! `lm_mt_pass1` with the addresses and the inclusive ends of the source: three nested loops
over ranges, blocks and pages, the blocks cut at both ends of the span. It computes what
`pass1` says in pages. -/
namespace FlashCkpt.Driver.PassOne

open ByteImage Image

abbrev PageBytes := { bytes : Bytes // bytes.length = pageSize }

/-- `uvm_va_block_gpu_state_t`: the resident mask, and where the pages of the chunks lie. -/
structure GpuState where
  resident : Nat → Bool
  physPage : Nat → Frame

/-- A va_block; `last` is its inclusive end. `gpus` is by GPU id. -/
structure VaBlock where
  start : Nat
  last : Nat
  cpuResident : Nat → Bool
  cpuPage : Nat → PageBytes
  gpus : Nat → Option GpuState
  trackingEnabled : Bool
  dirty : Bool
  nonempty : start ≤ last
  startAligned : start % pageSize = 0
  lastAligned : (last + 1) % pageSize = 0

/-- A va_range with the blocks that exist, in the order of their indices. -/
structure VaRange where
  managed : Bool
  start : Nat
  last : Nat
  blocks : List VaBlock
  nonempty : start ≤ last
  startAligned : start % pageSize = 0
  lastAligned : (last + 1) % pageSize = 0
  inside : ∀ b ∈ blocks, start ≤ b.start ∧ b.last ≤ last
  ordered : blocks.Pairwise fun b c => b.last < c.start

/-- A VA space: its ranges lie in the half of the addresses that user space has. A registered
GPU is a UUID with an id. -/
structure VaSpace where
  ranges : List VaRange
  registeredGpus : List (Nat × Nat)
  ordered : ranges.Pairwise fun r s => r.last < s.start
  user : ∀ r ∈ ranges, r.last < 2 ^ 63

/-- A base and a length that the ioctls accept, with a residency map: `kvmalloc` gives no more
than `INT_MAX` bytes. -/
structure Span where
  base : Nat
  length : Nat
  word : base < 2 ^ 64
  lengthPos : length ≠ 0
  lengthAligned : length % pageSize = 0
  baseAligned : base % pageSize = 0
  resmap : length / pageSize ≤ 2 ^ 31 - 1

/-- `base + length - 1` in 64 bits. -/
def Span.last (span : Span) : Nat := (span.base + span.length - 1) % 2 ^ 64

/-- The other arguments, and the results of the calls on the way. A UUID or a buffer of 0 is
none. -/
structure Args where
  span : Span
  dirtyOnly : Bool
  userCpuBuf : Nat
  reqUuid : Nat
  copyToUser : Nat → Nat
  kvmallocArray : Nat → Bool

/-- `struct live_migration_gpu_page`. -/
structure GpuPage where
  phys : Frame
  gpuBufOffset : Nat
  deriving DecidableEq, Repr

/-- What pass 1 has filled so far; copies to the caller are by their offset in the buffer. -/
structure Results where
  status : Status
  resmap : List UInt8
  userCpu : List Write
  cpuOff : Nat
  gpuPages : List GpuPage
  gpuPageCap : Nat
  gpuOff : Nat

/-- `uvm_va_space_get_gpu_by_uuid`, or the first registered GPU. -/
def VaSpace.selectGpu (space : VaSpace) (reqUuid : Nat) : Option Nat :=
  (if reqUuid = 0 then space.registeredGpus.head?
    else space.registeredGpus.find? fun gpu => gpu.1 = reqUuid).map Prod.snd

/-- Whether a page is resident on the GPU, with its frame. -/
def VaBlock.gpuPage (b : VaBlock) (gpu : Option Nat) (pi : Nat) : Option Frame :=
  match gpu.bind b.gpus with
  | some gs => if gs.resident pi then some (gs.physPage pi) else none
  | none => none

section Loops

variable (args : Args) (gpu : Option Nat)

/-- The copy of a CPU page. -/
def Results.copyCpu (s : Results) (page : PageBytes) : Results :=
  if args.userCpuBuf = 0 then { s with cpuOff := s.cpuOff + pageSize }
  else
    let copied := min (args.copyToUser s.cpuOff) pageSize
    let tried : Results := { s with userCpu := s.userCpu ++ [⟨s.cpuOff, page.val.take copied⟩] }
    if copied < pageSize then { tried with status := .invalidArgument }
    else { tried with cpuOff := s.cpuOff + pageSize }

/-- The record of a GPU page; the array is doubled when it is full. -/
def Results.record (s : Results) (phys : Frame) : Results :=
  let stored : Nat → Results := fun cap =>
    { s with gpuPages := s.gpuPages ++ [⟨phys, s.gpuOff⟩], gpuPageCap := cap, gpuOff := s.gpuOff + pageSize }
  if s.gpuPageCap ≤ s.gpuPages.length then
    if args.kvmallocArray (s.gpuPageCap * 2) then stored (s.gpuPageCap * 2)
    else { s with status := .noMemory }
  else stored s.gpuPageCap

/-- The body of the innermost loop. Behind an error the loops are left. -/
def visitPage (b : VaBlock) (s : Results) (pv : Nat) : Results :=
  let pi := (pv - b.start) / pageSize
  let px := (pv - args.span.base) / pageSize
  if s.status ≠ .ok then s
  else if b.cpuResident pi then
    { s with resmap := s.resmap.set px 0 }.copyCpu args (b.cpuPage pi)
  else
    match b.gpuPage gpu pi with
    | some phys => { s with resmap := s.resmap.set px 1 }.record args phys
    | none => s

/-- `for (pv = bs; pv <= be; pv += PAGE_SIZE)`. -/
def pageAddresses (bs be : Nat) : List Nat :=
  (List.range ((be - bs) / pageSize + 1)).map fun i => bs + i * pageSize

/-- The addresses at which a block is visited. -/
def blockAddresses (b : VaBlock) : List Nat :=
  let bs := max b.start args.span.base
  let be := min b.last args.span.last
  if be < bs then []
  else if args.dirtyOnly && !(b.trackingEnabled && b.dirty) then []
  else pageAddresses bs be

def visitBlock (s : Results) (b : VaBlock) : Results :=
  (blockAddresses args b).foldl (visitPage args gpu b) s

def visitRange (s : Results) (r : VaRange) : Results :=
  if r.managed then r.blocks.foldl (visitBlock args gpu) s else s

/-- `uvm_for_each_va_range_in`. -/
def rangesIn (space : VaSpace) : List VaRange :=
  space.ranges.filter fun r => r.start ≤ args.span.last && args.span.base ≤ r.last

def Results.start : Results where
  status := .ok
  resmap := List.replicate (args.span.length / pageSize) 2
  userCpu := []
  cpuOff := 0
  gpuPages := []
  gpuPageCap := min (args.span.length / pageSize) 512
  gpuOff := 0

/-- Whether `uvm_va_range_find` finds a managed range at the base. -/
def VaSpace.hasBase (space : VaSpace) (base : Nat) : Bool :=
  match space.ranges.find? fun r => r.start ≤ base && base ≤ r.last with
  | some r => r.managed
  | none => false

/-- `lm_mt_pass1`, with the caller's `memset` of the residency map. -/
def lmMtPass1 (spaces : List VaSpace) : Results :=
  match spaces.find? fun space => space.hasBase args.span.base with
  | none => { Results.start args with status := .invalidAddress }
  | some space =>
      (rangesIn args space).foldl (visitRange args (space.selectGpu args.reqUuid)) (Results.start args)

end Loops

section Abstract

/-- Where a page of the block is found first. -/
def VaBlock.placeAt (b : VaBlock) (gpu : Option Nat) (pi : Nat) : Place PageBytes :=
  if b.cpuResident pi then .cpu (b.cpuPage pi)
  else
    match b.gpuPage gpu pi with
    | some phys => .gpu phys
    | none => .absent

def VaBlock.toCapture (gpu : Option Nat) (b : VaBlock) : CaptureBlock PageBytes where
  first := b.start / pageSize
  stop := (b.last + 1) / pageSize
  place := fun p => b.placeAt gpu (p - b.start / pageSize)
  tracked := b.trackingEnabled
  dirty := b.dirty

theorem VaRange.toCapture_inside (gpu : Option Nat) (r : VaRange) :
    ∀ b ∈ r.blocks.map (VaBlock.toCapture gpu),
      r.start / pageSize ≤ b.first ∧ b.stop ≤ (r.last + 1) / pageSize := by
  intro b hb
  obtain ⟨b', hb', rfl⟩ := List.mem_map.mp hb
  obtain ⟨hStart, hLast⟩ := r.inside b' hb'
  exact ⟨Nat.div_le_div_right hStart, Nat.div_le_div_right (Nat.succ_le_succ hLast)⟩

theorem VaRange.toCapture_ordered (gpu : Option Nat) (r : VaRange) :
    (r.blocks.map (VaBlock.toCapture gpu)).Pairwise fun b c => b.stop ≤ c.first := by
  rw [List.pairwise_map]
  exact r.ordered.imp fun hApart => Nat.div_le_div_right hApart

def VaRange.toCapture (gpu : Option Nat) (r : VaRange) : CaptureRange PageBytes where
  managed := r.managed
  first := r.start / pageSize
  stop := (r.last + 1) / pageSize
  blocks := r.blocks.map (VaBlock.toCapture gpu)
  inside := r.toCapture_inside gpu
  ordered := r.toCapture_ordered gpu

theorem VaSpace.toCapture_ordered (gpu : Option Nat) (space : VaSpace) :
    (space.ranges.map (VaRange.toCapture gpu)).Pairwise fun r s => r.stop ≤ s.first := by
  rw [List.pairwise_map]
  exact space.ordered.imp fun hApart => Nat.div_le_div_right hApart

/-- A VA space in pages, as the GPU that is asked for is seen. -/
def VaSpace.toCapture (reqUuid : Nat) (space : VaSpace) : CaptureSpace PageBytes where
  ranges := space.ranges.map (VaRange.toCapture (space.selectGpu reqUuid))
  ordered := space.toCapture_ordered (space.selectGpu reqUuid)

def Args.call (args : Args) : CaptureCall where
  base := args.span.base / pageSize
  pages := args.span.length / pageSize
  dirtyOnly := args.dirtyOnly
  cpuBuf := args.userCpuBuf ≠ 0
  hasGpu := true
  copyOut := args.copyToUser
  grows := args.kvmallocArray

/-- The results that `pass1` stands for: each record has its place in the GPU buffer. -/
def Results.ofPass1 (t : Pass1 PageBytes) : Results where
  status := t.status
  resmap := t.resmap.map Residency.code
  userCpu := t.copies.map fun c => ⟨c.offset, c.content.val.take c.delivered⟩
  cpuOff := t.cpuOff
  gpuPages := t.gpuPages.zipIdx.map fun e => ⟨e.1.2, e.2 * pageSize⟩
  gpuPageCap := t.gpuCap
  gpuOff := t.gpuPages.length * pageSize

end Abstract

section Simulation

variable {args : Args} {gpu : Option Nat}

theorem ofPass1_copyCpu (t : Pass1 PageBytes) (page : PageBytes) :
    (Results.ofPass1 t).copyCpu args page = .ofPass1 (t.copyCpu args.call page) := by
  by_cases hNull : args.userCpuBuf = 0
  · have hBuf : args.call.cpuBuf = false := by simp [Args.call, hNull]
    rw [Results.copyCpu, if_pos hNull, Pass1.copyCpu, hBuf]
    rfl
  · have hBuf : args.call.cpuBuf = true := by simp [Args.call, hNull]
    rw [Results.copyCpu, if_neg hNull, Pass1.copyCpu, if_pos hBuf]
    have hCopied : args.call.copyOut t.cpuOff = args.copyToUser t.cpuOff := rfl
    have hOff : (Results.ofPass1 t).cpuOff = t.cpuOff := rfl
    dsimp only
    rw [hCopied, hOff]
    split <;> simp [Results.ofPass1]

theorem ofPass1_record (t : Pass1 PageBytes) (p : Nat) (phys : Frame) :
    (Results.ofPass1 t).record args phys = .ofPass1 (t.record args.call p phys) := by
  have hCap : (Results.ofPass1 t).gpuPageCap = t.gpuCap := rfl
  have hCount : (Results.ofPass1 t).gpuPages.length = t.gpuPages.length := by
    simp [Results.ofPass1]
  have hGrows : args.call.grows (2 * t.gpuCap) = args.kvmallocArray (t.gpuCap * 2) := by
    rw [Nat.mul_comm]
    rfl
  have hMore : (t.gpuPages ++ [(p, phys)]).zipIdx.map (fun e => GpuPage.mk e.1.2 (e.2 * pageSize)) =
      t.gpuPages.zipIdx.map (fun e => GpuPage.mk e.1.2 (e.2 * pageSize)) ++
        [⟨phys, t.gpuPages.length * pageSize⟩] := by
    rw [List.zipIdx_append, List.map_append, Nat.zero_add]
    rfl
  have hStored : ∀ cap, ({ Results.ofPass1 t with
      gpuPages := (Results.ofPass1 t).gpuPages ++ [⟨phys, (Results.ofPass1 t).gpuOff⟩]
      gpuPageCap := cap
      gpuOff := (Results.ofPass1 t).gpuOff + pageSize } : Results) =
      .ofPass1 { t with gpuPages := t.gpuPages ++ [(p, phys)], gpuCap := cap } := by
    intro cap
    simp only [Results.ofPass1, hMore, List.length_append, List.length_singleton, Nat.succ_mul]
  rw [Results.record, Pass1.record, hGrows, hCap, hCount]
  dsimp only
  rw [hStored, hStored]
  by_cases hFull : t.gpuCap ≤ t.gpuPages.length
  · rw [if_pos hFull, if_neg (Nat.not_lt.mpr hFull), Nat.mul_comm t.gpuCap 2]
    split <;> rfl
  · rw [if_neg hFull, if_pos (Nat.lt_of_not_le hFull)]

theorem sub_div_page {m : Nat} (h : m % pageSize = 0) (n : Nat) :
    (n - m) / pageSize = n / pageSize - m / pageSize := by
  obtain ⟨k, rfl⟩ := Nat.dvd_of_mod_eq_zero h
  rw [Nat.sub_mul_div, Nat.mul_div_cancel_left k (by decide)]

/-- A visit computes what `pass1` does with the page. -/
theorem visitPage_ofPass1 (b : VaBlock) (t : Pass1 PageBytes) (pv : Nat) :
    visitPage args gpu b (.ofPass1 t) pv =
      .ofPass1 (t.page args.call (pv / pageSize, (b.toCapture gpu).place (pv / pageSize))) := by
  have hPx : (pv - args.span.base) / pageSize = pv / pageSize - args.call.base :=
    sub_div_page args.span.baseAligned pv
  have hFound : args.call.found ((b.toCapture gpu).place (pv / pageSize)) =
      ((b.toCapture gpu).place (pv / pageSize)).found := by
    rw [CaptureCall.found]
    split <;> simp_all [Args.call]
  have hPlace : (b.toCapture gpu).place (pv / pageSize) =
      b.placeAt gpu ((pv - b.start) / pageSize) := by
    rw [sub_div_page b.startAligned]
    rfl
  rw [visitPage, Pass1.page, hFound, hPx, hPlace, VaBlock.placeAt]
  have hStatus : (Results.ofPass1 t).status = t.status := rfl
  have hMap : ∀ r, { Results.ofPass1 t with
      resmap := (Results.ofPass1 t).resmap.set (pv / pageSize - args.call.base) (Residency.code r) } =
      Results.ofPass1 { t with resmap := t.resmap.set (pv / pageSize - args.call.base) r } := by
    intro r
    simp only [Results.ofPass1, List.map_set]
  rw [hStatus]
  dsimp only
  split
  · rfl
  · split
    · exact (congrArg (Results.copyCpu args · _) (hMap .cpu)).trans (ofPass1_copyCpu _ _)
    · cases b.gpuPage gpu ((pv - b.start) / pageSize) with
      | some phys => exact (congrArg (Results.record args · _) (hMap .gpu)).trans (ofPass1_record _ _ _)
      | none => rfl

end Simulation

section Walk

variable {args : Args} {gpu : Option Nat}

/-- The pages of a block in the order they are visited. -/
theorem blockAddresses_toCapture (hWord : args.span.last = args.span.base + args.span.length - 1)
    (b : VaBlock) :
    (blockAddresses args b).map (fun pv => (pv / pageSize, (b.toCapture gpu).place (pv / pageSize))) =
      if (b.toCapture gpu).taken args.call then (b.toCapture gpu).visited args.call else [] := by
  have hTaken : (b.toCapture gpu).taken args.call =
      !(args.dirtyOnly && !(b.trackingEnabled && b.dirty)) := by
    simp [CaptureBlock.taken, VaBlock.toCapture, Args.call]
  have hStart : b.start % 4096 = 0 := b.startAligned
  have hLast : (b.last + 1) % 4096 = 0 := b.lastAligned
  have hBase : args.span.base % 4096 = 0 := args.span.baseAligned
  have hLength : args.span.length % 4096 = 0 := args.span.lengthAligned
  have hPos := args.span.lengthPos
  have hNonempty := b.nonempty
  have hPage : pageSize = 4096 := rfl
  have hVisited : (b.toCapture gpu).visited args.call =
      (List.range' (max (b.start / pageSize) (args.span.base / pageSize))
        (min ((b.last + 1) / pageSize) (args.span.base / pageSize + args.span.length / pageSize) -
          max (b.start / pageSize) (args.span.base / pageSize))).map
        fun p => (p, (b.toCapture gpu).place p) := rfl
  rw [hTaken, hVisited, blockAddresses, hWord, hPage]
  split
  · rename_i hEmpty
    rw [show min ((b.last + 1) / 4096) (args.span.base / 4096 + args.span.length / 4096) -
      max (b.start / 4096) (args.span.base / 4096) = 0 by omega]
    simp
  · rename_i hSome
    split
    · rename_i hClean
      rw [hClean]
      rfl
    · rename_i hTaken
      rw [Bool.not_eq_true] at hTaken
      rw [hTaken, Bool.not_false, if_pos rfl, pageAddresses, List.map_map, List.range'_eq_map_range,
        List.map_map, hPage]
      have hCount : (min b.last (args.span.base + args.span.length - 1) - max b.start args.span.base) /
          4096 + 1 = min ((b.last + 1) / 4096) (args.span.base / 4096 + args.span.length / 4096) -
            max (b.start / 4096) (args.span.base / 4096) := by omega
      rw [hCount]
      apply List.map_congr_left
      intro i _
      have hIndex : (max b.start args.span.base + i * 4096) / 4096 =
          max (b.start / 4096) (args.span.base / 4096) + i := by omega
      simp only [Function.comp_apply, hIndex]

/-- The visits of a block, of a range and of a VA space. -/
def blockWalk (args : Args) (b : VaBlock) : List (VaBlock × Nat) :=
  (blockAddresses args b).map fun pv => (b, pv)

def rangeWalk (args : Args) (r : VaRange) : List (VaBlock × Nat) :=
  if r.managed then r.blocks.flatMap (blockWalk args) else []

def walk (args : Args) (space : VaSpace) : List (VaBlock × Nat) :=
  (rangesIn args space).flatMap (rangeWalk args)

theorem visitBlock_walk (s : Results) (b : VaBlock) :
    visitBlock args gpu s b =
      (blockWalk args b).foldl (fun s v => visitPage args gpu v.1 s v.2) s := by
  rw [visitBlock, blockWalk, List.foldl_map]

theorem visitRange_walk (s : Results) (r : VaRange) :
    visitRange args gpu s r =
      (rangeWalk args r).foldl (fun s v => visitPage args gpu v.1 s v.2) s := by
  rw [visitRange, rangeWalk]
  split
  · rw [List.foldl_flatMap]
    congr 1
    funext s b
    exact visitBlock_walk s b
  · rfl

/-- The three loops visit these pages, one after the other. -/
theorem loops_walk (space : VaSpace) (s : Results) :
    (rangesIn args space).foldl (visitRange args gpu) s =
      (walk args space).foldl (fun s v => visitPage args gpu v.1 s v.2) s := by
  rw [walk, List.foldl_flatMap]
  congr 1
  funext s r
  exact visitRange_walk s r

/-- A visit as `pass1` has it. -/
def VaBlock.visit (gpu : Option Nat) (v : VaBlock × Nat) : Nat × Place PageBytes :=
  (v.2 / pageSize, (v.1.toCapture gpu).place (v.2 / pageSize))

theorem foldl_ofPass1 (visits : List (VaBlock × Nat)) (t : Pass1 PageBytes) :
    visits.foldl (fun s v => visitPage args gpu v.1 s v.2) (.ofPass1 t) =
      .ofPass1 ((visits.map (VaBlock.visit gpu)).foldl (Pass1.page args.call) t) := by
  induction visits generalizing t with
  | nil => rfl
  | cons v rest ih =>
      rw [List.foldl_cons, visitPage_ofPass1, ih, List.map_cons, List.foldl_cons]
      rfl

theorem blockWalk_toCapture (hWord : args.span.last = args.span.base + args.span.length - 1)
    (b : VaBlock) : (blockWalk args b).map (VaBlock.visit gpu) =
      if (b.toCapture gpu).taken args.call then (b.toCapture gpu).visited args.call else [] := by
  rw [blockWalk, List.map_map, ← blockAddresses_toCapture hWord]
  rfl

theorem rangeWalk_toCapture (hWord : args.span.last = args.span.base + args.span.length - 1)
    (r : VaRange) :
    (rangeWalk args r).map (VaBlock.visit gpu) = (r.toCapture gpu).visited args.call := by
  have hManaged : (r.toCapture gpu).managed = r.managed := rfl
  have hBlocks : (r.toCapture gpu).blocks = r.blocks.map (VaBlock.toCapture gpu) := rfl
  rw [rangeWalk, CaptureRange.visited, hManaged, hBlocks]
  split
  · induction r.blocks with
    | nil => rfl
    | cons b rest ih =>
        rw [List.flatMap_cons, List.map_append, ih, blockWalk_toCapture hWord, List.map_cons,
          List.filter_cons]
        split <;> rfl
  · rfl

/-- A range beside the span has no pages to visit. -/
theorem visited_beside (hWord : args.span.last = args.span.base + args.span.length - 1) {r : VaRange}
    (h : (r.start ≤ args.span.last && args.span.base ≤ r.last) = false) :
    (r.toCapture gpu).visited args.call = [] := by
  rw [List.eq_nil_iff_forall_not_mem]
  intro v hv
  obtain ⟨⟨hLow, hHigh⟩, hBase, hSpan⟩ := (r.toCapture gpu).mem_visited hv
  have hFirst : r.start / pageSize ≤ v.1 := hLow
  have hStop : v.1 < (r.last + 1) / pageSize := hHigh
  have hBase' : args.span.base / pageSize ≤ v.1 := hBase
  have hEnd : v.1 < args.span.base / pageSize + args.span.length / pageSize := hSpan
  have hRange := r.lastAligned
  have hAligned := args.span.baseAligned
  have hLength := args.span.lengthAligned
  rw [show pageSize = 4096 from rfl] at *
  rw [hWord, Bool.and_eq_false_iff, decide_eq_false_iff_not, decide_eq_false_iff_not] at h
  have hStart := r.startAligned
  omega

theorem walk_toCapture (hWord : args.span.last = args.span.base + args.span.length - 1)
    (space : VaSpace) : (walk args space).map (VaBlock.visit (space.selectGpu args.reqUuid)) =
      (space.toCapture args.reqUuid).visited args.call := by
  have hRanges : (space.toCapture args.reqUuid).ranges =
    space.ranges.map (VaRange.toCapture (space.selectGpu args.reqUuid)) := rfl
  rw [walk, rangesIn, CaptureSpace.visited, hRanges]
  induction space.ranges with
  | nil => rfl
  | cons r rest ih =>
      rw [List.filter_cons, List.map_cons, List.flatMap_cons]
      split
      · rw [List.flatMap_cons, List.map_append, ih, rangeWalk_toCapture hWord]
      · rename_i hBeside
        rw [visited_beside hWord (Bool.not_eq_true _ ▸ hBeside), List.nil_append, ih]

/-- The range at an address is the only one. -/
theorem find?_at {ranges : List VaRange} (hOrder : ranges.Pairwise fun r s => r.last < s.start)
    {r : VaRange} (hr : r ∈ ranges) {a : Nat} (hLow : r.start ≤ a) (hHigh : a ≤ r.last) :
    ranges.find? (fun r => r.start ≤ a && a ≤ r.last) = some r := by
  induction ranges with
  | nil => cases hr
  | cons r' rest ih =>
      obtain ⟨hBefore, hRest⟩ := List.pairwise_cons.mp hOrder
      rw [List.find?_cons]
      rcases List.mem_cons.mp hr with rfl | hMem
      · rw [decide_eq_true hLow, decide_eq_true hHigh]
        rfl
      · have hApart := hBefore r hMem
        rw [decide_eq_false (show ¬a ≤ r'.last by omega), Bool.and_false]
        exact ih hRest hMem

theorem hasBase_iff (space : VaSpace) (base : Nat) : space.hasBase base = true ↔
    ∃ r ∈ space.ranges, r.managed = true ∧ r.start ≤ base ∧ base ≤ r.last := by
  rw [VaSpace.hasBase]
  constructor
  · intro h
    split at h
    · rename_i r hFind
      have hAt := List.find?_some hFind
      rw [Bool.and_eq_true, decide_eq_true_eq, decide_eq_true_eq] at hAt
      exact ⟨r, List.mem_of_find?_eq_some hFind, h, hAt⟩
    · cases h
  · rintro ⟨r, hr, hManaged, hLow, hHigh⟩
    rw [find?_at space.ordered hr hLow hHigh]
    exact hManaged

theorem hasBase_toCapture (space : VaSpace) (reqUuid : Nat) (span : Span) :
    space.hasBase span.base = (space.toCapture reqUuid).ranges.any fun r =>
      r.managed && r.first ≤ span.base / pageSize && span.base / pageSize < r.stop := by
  rw [Bool.eq_iff_iff, hasBase_iff, List.any_eq_true]
  have hPages : ∀ r ∈ space.ranges, (r.start ≤ span.base ∧ span.base ≤ r.last ↔
      r.start / pageSize ≤ span.base / pageSize ∧ span.base / pageSize < (r.last + 1) / pageSize) := by
    intro r _
    have hStart := r.startAligned
    have hLast := r.lastAligned
    have hBase := span.baseAligned
    rw [show pageSize = 4096 from rfl] at *
    omega
  constructor
  · rintro ⟨r, hr, hManaged, hAt⟩
    obtain ⟨hLow, hHigh⟩ := (hPages r hr).mp hAt
    refine ⟨_, List.mem_map_of_mem hr, ?_⟩
    simp only [VaRange.toCapture, hManaged, hLow, hHigh, decide_true, Bool.and_self]
  · rintro ⟨r', hr', hAt⟩
    obtain ⟨r, hr, rfl⟩ := List.mem_map.mp hr'
    simp only [VaRange.toCapture, Bool.and_eq_true] at hAt
    exact ⟨r, hr, hAt.1.1, (hPages r hr).mpr ⟨of_decide_eq_true hAt.1.2, of_decide_eq_true hAt.2⟩⟩

/-- A span that begins in a managed range does not wrap around. -/
theorem last_of_hasBase {space : VaSpace} {span : Span} (h : space.hasBase span.base = true) :
    span.last = span.base + span.length - 1 := by
  obtain ⟨r, hr, -, -, hHigh⟩ := (hasBase_iff space span.base).mp h
  have hUser := space.user r hr
  have hMap := span.resmap
  rw [show pageSize = 4096 from rfl] at hMap
  rw [Span.last, Nat.mod_eq_of_lt]
  omega

theorem start_ofPass1 (args : Args) : Results.start args = .ofPass1 (Pass1.start args.call) := by
  rw [Results.start, Results.ofPass1, Pass1.start]
  simp [Residency.code, Args.call]

/-- `lm_mt_pass1` computes what `pass1` says. -/
theorem lmMtPass1_ofPass1 (args : Args) (spaces : List VaSpace) :
    lmMtPass1 args spaces =
      .ofPass1 (pass1 args.call (spaces.map (VaSpace.toCapture args.reqUuid))) := by
  have hFind : findSpace args.call (spaces.map (VaSpace.toCapture args.reqUuid)) =
      (spaces.find? fun space => space.hasBase args.span.base).map (VaSpace.toCapture args.reqUuid) := by
    rw [findSpace, List.find?_map]
    congr 2
    funext space
    exact (hasBase_toCapture space args.reqUuid args.span).symm
  rw [lmMtPass1, pass1, hFind]
  cases hSpace : spaces.find? fun space => space.hasBase args.span.base with
  | none =>
      rw [start_ofPass1]
      rfl
  | some space =>
      dsimp only [Option.map_some]
      have hBase : space.hasBase args.span.base = true :=
        List.find?_some (p := fun space : VaSpace => space.hasBase args.span.base) hSpace
      rw [loops_walk, start_ofPass1, foldl_ofPass1, walk_toCapture (last_of_hasBase hBase)]

end Walk

end FlashCkpt.Driver.PassOne
