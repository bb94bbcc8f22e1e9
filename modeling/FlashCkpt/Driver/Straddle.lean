import FlashCkpt.Driver.Capture
import FlashCkpt.Image.SparseSlicer
import Mathlib.Data.List.Chain

/-! The runs of `lm_mt_build_runs` beside the gaps of the address space. Pages are joined to a
run by their frames and by their places in the GPU buffer, and the latter leave no gaps. The
slicers of ckpt_core rely on every run ending at a gap. -/
namespace FlashCkpt.Driver

open Image SizeCut Crypto

section Statements

variable {Content : Type} (space : CaptureSpace Content)

/-- A va_range begins or ends before this page. -/
def CaptureSpace.Edge (p : Nat) : Prop := ∃ r ∈ space.ranges, p = r.first ∨ p = r.stop

/-- No run has pages on both sides of a page that is not on the GPU, or of a boundary of a
va_range. -/
def NoStraddle (base : Nat) (resmap : List Residency) (runs : List (Run Nat)) : Prop :=
  ∀ run ∈ runs, ∀ p ∈ run.pages, ∀ q ∈ run.pages, p < q →
    (∀ k, p < k → k < q → resmap[k - base]? = some .gpu) ∧ ∀ e, p < e → e ≤ q → ¬space.Edge e

/-- The residency map, and an entry of metadata for each run. -/
structure HandedOver (resmap : List Residency) (runs : List (Run Nat)) (r : SpanRead) : Prop where
  resmap : r.resmap = resmap
  sizes : r.metas.map CryptoMeta.size = runs.map fun run => run.pages.length * pageSize

/-- The sparse slicer takes the span, and the dense one takes any allocations on the GPU
that begin and end with va_ranges. -/
def SlicersAccept (base : Nat) (resmap : List Residency) (runs : List (Run Nat)) : Prop :=
  ∀ r, HandedOver resmap runs r → fusedRegions (base * pageSize) r ≠ none ∧
    ∀ ranges, Ordered ranges →
      (∀ a ∈ ranges, space.Edge (base + a.first) ∧ space.Edge (base + a.first + a.count) ∧
        ∀ p, a.first ≤ p → p < a.first + a.count → resmap[p]? = some .gpu) →
      coalescedRanges (base * pageSize) r ranges ≠ none

/-- The second page follows the first one in the same va_range. -/
def CaptureSpace.Joined (p q : Nat) : Prop := q = p + 1 ∧ ¬space.Edge q

end Statements

/-- Behind `k` pages whose frames follow each other, the last of which is `a`: wherever the
next frame follows too but the page is not joined, the frames so far fill whole buffers. -/
def CutFrom (joined : Nat → Nat → Prop) : Nat → Nat × Frame → List (Nat × Frame) → Prop
  | _, _, [] => True
  | k, a, b :: rest =>
      if b.2 = a.2.behind 1 then
        (joined a.1 b.1 ∨ 512 ∣ k) ∧ CutFrom joined (k + 1) b rest
      else CutFrom joined 1 b rest

/-- The frames of two pages beside a gap follow each other only where a buffer is full. -/
def CutAtGaps (joined : Nat → Nat → Prop) : List (Nat × Frame) → Prop
  | [] => True
  | a :: rest => CutFrom joined 1 a rest

section Runs

variable {joined : Nat → Nat → Prop}

theorem Frame.behind_one {f g : Frame} :
    g = f.behind 1 ↔ g.address = f.address + pageSize ∧ g.aperture = f.aperture := by
  obtain ⟨aperture, address⟩ := g
  rw [behind, Frame.mk.injEq, Nat.one_mul, and_comm]

theorem isChain_concat {pages : List Nat} {p q : Nat} (hLast : pages.getLast? = some p) :
    (pages ++ [q]).IsChain joined ↔ pages.IsChain joined ∧ joined p q := by
  rw [List.isChain_append]
  constructor
  · rintro ⟨hChain, -, hJoin⟩
    exact ⟨hChain, hJoin p hLast q rfl⟩
  · rintro ⟨hChain, hJoin⟩
    refine ⟨hChain, .singleton q, fun x hx y hy => ?_⟩
    cases hLast.symm.trans hx
    cases hy
    exact hJoin

/-- The pages of the runs that are still to come are joined when the frames are cut at the
gaps. The length of the run so far is that of the frames modulo the size of a buffer. -/
theorem growRun_chain {run : Run Nat} {p : Nat} {f : Frame} {k : Nat}
    (hLast : run.pages.getLast? = some p) (hAperture : f.aperture = run.first.aperture)
    (hLength : run.pages.length = (k - 1) % 512 + 1) (hPos : 0 < k) (rest : List (Nat × Frame)) :
    (∀ run' ∈ growRun run f rest, run'.pages.IsChain joined) ↔
      run.pages.IsChain joined ∧ CutFrom joined k (p, f) rest := by
  induction rest generalizing run p f k with
  | nil => simp [growRun, CutFrom]
  | cons b rest ih =>
      obtain ⟨q, g⟩ := b
      have hNew : (⟨g, [q]⟩ : Run Nat).pages.getLast? = some q := rfl
      have hSingle : (⟨g, [q]⟩ : Run Nat).pages.IsChain joined := .singleton q
      rw [growRun, CutFrom]
      dsimp only
      by_cases hNext : g = f.behind 1
      · obtain ⟨hAddress, hSame⟩ := Frame.behind_one.mp hNext
        rw [if_pos hNext]
        by_cases hFull : 512 ∣ k
        · -- the run fills the buffer, and the next one begins here
          have hStop : ¬(g.address = f.address + pageSize ∧ g.aperture = run.first.aperture ∧
              run.pages.length * pageSize + pageSize ≤ dmaBufferSize) := by
            simp only [pageSize, dmaBufferSize]
            omega
          rw [if_neg hStop, List.forall_mem_cons, ih (k := k + 1) hNew rfl
            (by rw [List.length_singleton]; omega) (Nat.succ_pos k)]
          exact and_congr_right fun _ =>
            ⟨fun h => ⟨.inr hFull, h.2⟩, fun h => ⟨hSingle, h.2⟩⟩
        · have hGrows : g.address = f.address + pageSize ∧ g.aperture = run.first.aperture ∧
              run.pages.length * pageSize + pageSize ≤ dmaBufferSize := by
            refine ⟨hAddress, hSame.trans hAperture, ?_⟩
            simp only [pageSize, dmaBufferSize]
            omega
          have hGrown : (⟨run.first, run.pages ++ [q]⟩ : Run Nat).pages.getLast? = some q :=
            List.getLast?_concat
          have hLength' : (⟨run.first, run.pages ++ [q]⟩ : Run Nat).pages.length =
              (k + 1 - 1) % 512 + 1 := by
            rw [List.length_append, List.length_singleton]
            omega
          rw [if_pos hGrows, ih hGrown (hSame.trans hAperture) hLength' (Nat.succ_pos k),
            isChain_concat hLast]
          constructor
          · rintro ⟨⟨hChain, hJoin⟩, hRest⟩
            exact ⟨hChain, .inl hJoin, hRest⟩
          · rintro ⟨hChain, hJoin, hRest⟩
            exact ⟨⟨hChain, hJoin.resolve_right hFull⟩, hRest⟩
      · have hStop : ¬(g.address = f.address + pageSize ∧ g.aperture = run.first.aperture ∧
            run.pages.length * pageSize + pageSize ≤ dmaBufferSize) := fun h =>
          hNext (Frame.behind_one.mpr ⟨h.1, h.2.1.trans hAperture.symm⟩)
        rw [if_neg hNext, if_neg hStop, List.forall_mem_cons,
          ih (k := 1) hNew rfl rfl Nat.one_pos]
        exact and_congr_right fun _ => and_iff_right hSingle

theorem buildRuns_chain (records : List (Nat × Frame)) :
    (∀ run ∈ buildRuns records, run.pages.IsChain joined) ↔ CutAtGaps joined records := by
  cases records with
  | nil => simp [buildRuns, CutAtGaps]
  | cons a rest =>
      obtain ⟨p, f⟩ := a
      rw [buildRuns, CutAtGaps, growRun_chain rfl rfl rfl Nat.one_pos]
      exact and_iff_right (.singleton p)

/-- The runs have the pages of the records, in their order. -/
theorem buildRuns_pages (records : List (Nat × Frame)) :
    ((buildRuns records).map Run.pages).flatten = records.map Prod.fst := by
  have hCopies := congrArg (List.map Prod.fst) (buildRuns_copies records)
  rw [List.map_flatMap] at hCopies
  rw [← hCopies, List.flatMap_def]
  congr 2
  funext run
  rw [Run.copies, List.map_map]
  exact (List.zipIdx_map_fst 0 run.pages).symm

end Runs

/-- Pages joined to each other leave nothing out and pass no edge. -/
theorem mem_of_isChain {edge : Nat → Prop} {pages : List Nat}
    (h : pages.IsChain fun p q => q = p + 1 ∧ ¬edge q) {p q e : Nat} (hp : p ∈ pages)
    (hq : q ∈ pages) (hLow : p < e) (hHigh : e ≤ q) : e ∈ pages ∧ ¬edge e := by
  induction pages generalizing p with
  | nil => cases hp
  | cons a rest ih =>
      have hAscending : (a :: rest).Pairwise (· < ·) :=
        List.isChain_iff_pairwise.mp (h.imp fun p q hJoin => by omega)
      obtain ⟨hFirst, -⟩ := List.pairwise_cons.mp hAscending
      have hMem : q ∈ rest := by
        rcases List.mem_cons.mp hq with rfl | hq
        · rcases List.mem_cons.mp hp with rfl | hp
          · omega
          · have := hFirst p hp
            omega
        · exact hq
      cases rest with
      | nil => cases hMem
      | cons b rest =>
          obtain ⟨⟨hNext, hEdge⟩, hRest⟩ := List.isChain_cons_cons.mp h
          rcases List.mem_cons.mp hp with rfl | hp
          · rcases Nat.lt_or_eq_of_le (show b ≤ e by omega) with hBehind | rfl
            · obtain ⟨he, hNot⟩ := ih hRest List.mem_cons_self hMem hBehind
              exact ⟨List.mem_cons_of_mem p he, hNot⟩
            · exact ⟨List.mem_cons_of_mem p List.mem_cons_self, hEdge⟩
          · obtain ⟨he, hNot⟩ := ih hRest hp hMem hLow
            exact ⟨List.mem_cons_of_mem a he, hNot⟩

/-- Lists of ascending numbers, one behind the other, none of which has numbers on both
sides of `e`. -/
theorem boundary_of_apart {runs : List (List Nat)} (hOrder : runs.flatten.Pairwise (· < ·))
    {e : Nat} (h : ∀ run ∈ runs, ∀ p ∈ run, ∀ q ∈ run, p < e → q < e) :
    Boundary List.length runs (runs.flatten.countP (· < e)) := by
  induction runs with
  | nil => exact ⟨[], [], rfl, rfl⟩
  | cons run rest ih =>
      rw [List.flatten_cons] at hOrder ⊢
      obtain ⟨-, hRest, hBehind⟩ := List.pairwise_append.mp hOrder
      by_cases hAll : ∀ p ∈ run, p < e
      · obtain ⟨front, back, hSplit, hTotal⟩ :=
          ih hRest fun run' hRun => h run' (List.mem_cons_of_mem run hRun)
        refine ⟨run :: front, back, by rw [hSplit, List.cons_append], ?_⟩
        have hCount : run.countP (· < e) = run.length :=
          List.countP_eq_length.mpr fun p hp => decide_eq_true (hAll p hp)
        rw [total_cons, hTotal, List.countP_append, hCount]
      · obtain ⟨q, hq, hLate⟩ : ∃ q ∈ run, e ≤ q := by
          by_contra hNone
          exact hAll fun p hp => Nat.lt_of_not_le fun hLe => hNone ⟨p, hp, hLe⟩
        have hZero : (run ++ rest.flatten).countP (· < e) = 0 := by
          rw [List.countP_eq_zero]
          intro p hp hEarly
          have hLess := of_decide_eq_true hEarly
          rcases List.mem_append.mp hp with hp | hp
          · have := h run List.mem_cons_self p hp q hq hLess
            omega
          · have := hBehind q hq p hp
            omega
        rw [hZero]
        exact ⟨[], run :: rest, rfl, rfl⟩

theorem pagesOn_countP (residency : List Residency) (place : Residency) (e : Nat) :
    (pagesOn residency place).countP (· < e) = (residency.take e).count place := by
  induction residency generalizing e with
  | nil => simp [pagesOn]
  | cons r rest ih =>
      rw [pagesOn_cons, List.countP_append, List.countP_map]
      cases e with
      | zero =>
          rw [List.take_zero, List.count_nil, List.countP_eq_zero.mpr (by simp),
            List.countP_eq_zero.mpr (by simp)]
      | succ e =>
          have hShift : (fun p => decide (p < e + 1)) ∘ (· + 1) = fun p => decide (p < e) := by
            funext p
            simp
          rw [hShift, ih, List.take_succ_cons, List.count_cons]
          by_cases hPlace : r = place
          · simp [hPlace, Nat.add_comm]
          · simp [hPlace]

section Captured

variable {Content : Type} {call : CaptureCall} {spaces : List (CaptureSpace Content)}
variable {space : CaptureSpace Content}

/-- The pages of the records are those which the residency map has on the GPU. -/
theorem records_pages (hSpace : findSpace call spaces = some space)
    (hOk : (pass1 call spaces).status = .ok) :
    (pass1 call spaces).gpuPages.map Prod.fst =
      (pagesOn (pass1 call spaces).resmap .gpu).map (call.base + ·) := by
  obtain ⟨space', hSame, hRecords, hLength, hMapped⟩ := pass1_ok hOk
  cases hSpace.symm.trans hSame
  have hAscending : ((pass1 call spaces).gpuPages.map Prod.fst).Pairwise (· < ·) := by
    rw [hRecords, List.pairwise_map, List.pairwise_flatMap]
    constructor
    · intro v _
      rw [CaptureCall.records]
      split
      · exact List.pairwise_singleton _ _
      · exact List.Pairwise.nil
    · apply space.visited_pairwise.imp
      intro v w hLess e he e' he'
      rwa [Pass1.mem_records he, Pass1.mem_records he']
  have hPages : ((pagesOn (pass1 call spaces).resmap .gpu).map (call.base + ·)).Pairwise (· < ·) := by
    rw [List.pairwise_map]
    apply (List.pairwise_lt_range.filter _).imp
    intro i j hLess
    omega
  have hNodup : ∀ {l : List Nat}, l.Pairwise (· < ·) → l.Nodup :=
    fun h => h.imp fun hLess => Nat.ne_of_lt hLess
  have hPerm := (List.perm_ext_iff_of_nodup (hNodup hAscending) (hNodup hPages)).mpr (by
    intro p
    rw [List.mem_map, List.mem_map]
    constructor
    · rintro ⟨e, he, rfl⟩
      obtain ⟨v, hv, hRecord⟩ := List.mem_flatMap.mp (hRecords ▸ he)
      have hInside := space.mem_visited hv
      rw [← Pass1.mem_records hRecord] at hInside
      have hOffset : e.1 - call.base < call.pages := by omega
      have hBack : call.base + (e.1 - call.base) = e.1 := by omega
      refine ⟨e.1 - call.base, ?_, hBack⟩
      rw [pagesOn, List.mem_filter, List.mem_range, hLength]
      refine ⟨hOffset, decide_eq_true ((hMapped _ hOffset).mpr ⟨e.2, ?_⟩)⟩
      rwa [hBack]
    · rintro ⟨i, hi, rfl⟩
      obtain ⟨hLt, hGpu⟩ := List.mem_filter.mp hi
      rw [List.mem_range, hLength] at hLt
      obtain ⟨f, hf⟩ := (hMapped i hLt).mp (of_decide_eq_true hGpu)
      exact ⟨_, hf, rfl⟩)
  exact hPerm.eq_of_pairwise (fun p q _ _ hLess hLess' => absurd hLess (Nat.lt_asymm hLess'))
    hAscending hPages

/-- A run is an infix of the pages of the records. -/
theorem infix_of_run {records : List (Nat × Frame)} {run : Run Nat}
    (h : run ∈ buildRuns records) : run.pages <:+: records.map Prod.fst := by
  rw [← buildRuns_pages]
  obtain ⟨front, back, hSplit⟩ := List.append_of_mem h
  refine ⟨(front.map Run.pages).flatten, (back.map Run.pages).flatten, ?_⟩
  rw [hSplit, List.map_append, List.flatten_append, List.map_cons, List.flatten_cons,
    List.append_assoc]

/-- No run reaches over a gap exactly when each has its pages joined. -/
theorem noStraddle_iff (hSpace : findSpace call spaces = some space)
    (hOk : (pass1 call spaces).status = .ok) :
    NoStraddle space call.base (pass1 call spaces).resmap
        (buildRuns (pass1 call spaces).gpuPages) ↔
      ∀ run ∈ buildRuns (pass1 call spaces).gpuPages, run.pages.IsChain space.Joined := by
  have hPages := records_pages hSpace hOk
  have hOnGpu : ∀ p ∈ (pass1 call spaces).gpuPages.map Prod.fst,
      (pass1 call spaces).resmap[p - call.base]? = some .gpu := by
    intro p hp
    rw [hPages] at hp
    obtain ⟨i, hi, rfl⟩ := List.mem_map.mp hp
    rw [Nat.add_sub_cancel_left]
    exact of_decide_eq_true (List.mem_filter.mp hi).2
  have hAscending : ((pass1 call spaces).gpuPages.map Prod.fst).Pairwise (· < ·) := by
    rw [hPages, List.pairwise_map]
    apply (List.pairwise_lt_range.filter _).imp
    intro i j hLess
    omega
  constructor
  · intro h run hRun
    rw [List.isChain_iff_forall_rel_of_append_cons_cons]
    intro p q before after hSplit
    obtain ⟨front, back, hInfix⟩ := infix_of_run hRun
    rw [hSplit] at hInfix
    have hOrder := hAscending
    rw [← hInfix] at hOrder
    have hRunOrder := (List.pairwise_append.mp (List.pairwise_append.mp hOrder).1).2.1
    have hTail := (List.pairwise_append.mp hRunOrder).2.1
    have hLess : p < q := (List.pairwise_cons.mp hTail).1 q List.mem_cons_self
    have hp : p ∈ run.pages := by simp [hSplit]
    have hq : q ∈ run.pages := by simp [hSplit]
    obtain ⟨hBetween, hEdges⟩ := h run hRun p hp q hq hLess
    refine ⟨?_, hEdges q hLess (Nat.le_refl q)⟩
    by_contra hGap
    -- the page behind p has a record, and there is no room for it in the list
    have hNext := hBetween (p + 1) (Nat.lt_succ_self p) (by omega)
    have hBase : call.base ≤ p := by
      have hMem : p ∈ (pass1 call spaces).gpuPages.map Prod.fst := by
        rw [← hInfix]
        simp
      rw [hPages] at hMem
      obtain ⟨i, -, rfl⟩ := List.mem_map.mp hMem
      exact Nat.le_add_right _ _
    have hMem : p + 1 ∈ front ++ (before ++ p :: q :: after) ++ back := by
      rw [hInfix, hPages]
      refine List.mem_map.mpr ⟨p + 1 - call.base, ?_, by omega⟩
      rw [pagesOn, List.mem_filter, List.mem_range]
      exact ⟨(List.getElem?_eq_some_iff.mp hNext).1, decide_eq_true hNext⟩
    simp only [List.append_assoc, List.cons_append, List.pairwise_append, List.pairwise_cons,
      List.mem_append, List.mem_cons] at hOrder hMem
    grind
  · intro h run hRun p hp q hq hLess
    have hMem := fun e hLow hHigh => mem_of_isChain (h run hRun) hp hq (e := e) hLow hHigh
    refine ⟨fun k hLow hHigh => ?_, fun e hLow hHigh => (hMem e hLow hHigh).2⟩
    exact hOnGpu k ((infix_of_run hRun).subset (hMem k hLow (Nat.le_of_lt hHigh)).1)

/-- The entries end wherever runs of present pages and va_ranges end. -/
theorem boundary_of_noStraddle (hSpace : findSpace call spaces = some space)
    (hOk : (pass1 call spaces).status = .ok)
    (h : NoStraddle space call.base (pass1 call spaces).resmap
      (buildRuns (pass1 call spaces).gpuPages)) {r : SpanRead}
    (hRead : HandedOver (pass1 call spaces).resmap (buildRuns (pass1 call spaces).gpuPages) r)
    {e : Nat} (hEnd : RunEnd r.resmap e ∨ space.Edge (call.base + e)) :
    Boundary CryptoMeta.size r.metas (r.gpuBefore e) := by
  have hPages := records_pages hSpace hOk
  have hFlatten := (buildRuns_pages (pass1 call spaces).gpuPages).trans hPages
  have hInRun : ∀ run ∈ (buildRuns (pass1 call spaces).gpuPages).map Run.pages, ∀ p ∈ run,
      call.base ≤ p ∧ (pass1 call spaces).resmap[p - call.base]? = some .gpu := by
    intro run hRun p hp
    have hMem : p ∈ ((buildRuns (pass1 call spaces).gpuPages).map Run.pages).flatten :=
      List.mem_flatten.mpr ⟨run, hRun, hp⟩
    rw [hFlatten] at hMem
    obtain ⟨i, hi, rfl⟩ := List.mem_map.mp hMem
    rw [Nat.add_sub_cancel_left]
    exact ⟨Nat.le_add_right _ _, of_decide_eq_true (List.mem_filter.mp hi).2⟩
  have hApart : ∀ run ∈ (buildRuns (pass1 call spaces).gpuPages).map Run.pages, ∀ p ∈ run,
      ∀ q ∈ run, p < call.base + e → q < call.base + e := by
    intro run hRun p hp q hq hLess
    obtain ⟨run, hRun', rfl⟩ := List.mem_map.mp hRun
    by_contra hLate
    obtain ⟨hBetween, hEdges⟩ := h run hRun' p hp q hq (by omega)
    obtain ⟨hBase, hGpu⟩ := hInRun _ hRun q hq
    rcases hEnd with hEnd | hEdge
    · have hInside := (List.getElem?_eq_some_iff.mp hGpu).1
      rw [RunEnd, hRead.resmap] at hEnd
      rcases hEnd with hAbsent | hLast
      · have hGpu' : (pass1 call spaces).resmap[e]? = some .gpu := by
          rcases Nat.lt_or_eq_of_le (Nat.le_of_not_lt hLate) with hBehind | hHere
          · have hPage := hBetween (call.base + e) hLess hBehind
            rwa [Nat.add_sub_cancel_left] at hPage
          · rwa [← hHere, Nat.add_sub_cancel_left] at hGpu
        rw [hAbsent] at hGpu'
        cases hGpu'
      · omega
    · exact hEdges _ hLess (by omega) hEdge
  have hOrder : (((buildRuns (pass1 call spaces).gpuPages).map Run.pages).flatten).Pairwise
      (· < ·) := by
    rw [hFlatten, List.pairwise_map]
    apply (List.pairwise_lt_range.filter _).imp
    intro i j hLess
    omega
  have hBoundary := boundary_of_apart hOrder hApart
  have hCount : (((buildRuns (pass1 call spaces).gpuPages).map Run.pages).flatten).countP
      (· < call.base + e) = (r.resmap.take e).count .gpu := by
    rw [hFlatten, List.countP_map, hRead.resmap, ← pagesOn_countP]
    apply List.countP_congr
    intro i _
    simp
  rw [hCount] at hBoundary
  have hSizes := congrArg (fun sizes => Boundary (fun k : Nat => k) sizes (r.gpuBefore e))
    hRead.sizes
  rw [boundary_map, boundary_map] at hSizes
  rw [hSizes]
  obtain ⟨front, back, hSplit, hTotal⟩ := (boundary_map List.length Run.pages _ _).mp hBoundary
  refine ⟨front, back, hSplit, ?_⟩
  rw [total_mul, hTotal, SpanRead.gpuBefore]

theorem slicersAccept_of_noStraddle (hSpace : findSpace call spaces = some space)
    (hOk : (pass1 call spaces).status = .ok)
    (h : NoStraddle space call.base (pass1 call spaces).resmap
      (buildRuns (pass1 call spaces).gpuPages)) :
    SlicersAccept space call.base (pass1 call spaces).resmap
      (buildRuns (pass1 call spaces).gpuPages) := by
  intro r hRead
  constructor
  · exact fusedRegions_ne_none _ fun e hEnd => boundary_of_noStraddle hSpace hOk h hRead (.inl hEnd)
  · intro ranges hOrdered hRanges
    have hCuttable : ∀ a ∈ ranges, a.Cuttable r := by
      intro a ha
      obtain ⟨hFirst, hStop, hResident⟩ := hRanges a ha
      rw [← hRead.resmap] at hResident
      rw [Nat.add_assoc] at hStop
      refine ⟨hResident, boundary_of_noStraddle hSpace hOk h hRead (.inr hFirst), ?_⟩
      rw [← SpanRead.gpuBefore_add hResident]
      exact boundary_of_noStraddle hSpace hOk h hRead (.inr hStop)
    obtain ⟨written, hWritten, -⟩ :=
      coalescedRanges_of_cuttable (call.base * pageSize) hOrdered hCuttable
    rw [hWritten]
    exact Option.some_ne_none written

end Captured

/-- The runs of a capture keep to the gaps, and the slicers take it, exactly when the frames
of the pages beside a gap follow each other only where a buffer is full. -/
theorem runs_keep_to_gaps_iff {Content : Type} {call : CaptureCall}
    {spaces : List (CaptureSpace Content)} {space : CaptureSpace Content}
    (hSpace : findSpace call spaces = some space) (hOk : (pass1 call spaces).status = .ok) :
    (NoStraddle space call.base (pass1 call spaces).resmap
        (buildRuns (pass1 call spaces).gpuPages) ∧
      SlicersAccept space call.base (pass1 call spaces).resmap
        (buildRuns (pass1 call spaces).gpuPages)) ↔
      CutAtGaps space.Joined (pass1 call spaces).gpuPages := by
  rw [← buildRuns_chain, ← noStraddle_iff hSpace hOk]
  exact and_iff_left_of_imp (slicersAccept_of_noStraddle hSpace hOk)

/-- One range of three pages, the outer two on the GPU in these frames. -/
def gapSpace (address : Nat) : CaptureSpace Unit where
  ranges :=
    [{ managed := true
       first := 0
       stop := 3
       blocks := [⟨0, 3, fun p => if p = 0 then .gpu (frameAt 0) else
         if p = 2 then .gpu (frameAt address) else .absent, true, true⟩]
       inside := by simp
       ordered := by simp }]
  ordered := by simp

/-- The ioctl for the three pages, no call of which fails. -/
def gapCall : CaptureCall where
  base := 0
  pages := 3
  dirtyOnly := true
  cpuBuf := true
  hasGpu := true
  copyOut := fun _ => pageSize
  grows := fun _ => true

/-- Frames that are apart keep the runs apart. -/
theorem runs_keep_to_gaps_apart :
    NoStraddle (gapSpace 0x9000) gapCall.base (pass1 gapCall [gapSpace 0x9000]).resmap
        (buildRuns (pass1 gapCall [gapSpace 0x9000]).gpuPages) ∧
      SlicersAccept (gapSpace 0x9000) gapCall.base (pass1 gapCall [gapSpace 0x9000]).resmap
        (buildRuns (pass1 gapCall [gapSpace 0x9000]).gpuPages) := by
  refine (runs_keep_to_gaps_iff rfl rfl).mpr ?_
  have hRecords : (pass1 gapCall [gapSpace 0x9000]).gpuPages =
      [(0, frameAt 0), (2, frameAt 0x9000)] := rfl
  rw [hRecords, CutAtGaps, CutFrom, if_neg (by decide)]
  trivial

/-- The frames of the outer pages follow each other: one transfer takes both. -/
theorem not_runs_keep_to_gaps :
    ¬∀ (call : CaptureCall) (spaces : List (CaptureSpace Unit)) (space : CaptureSpace Unit),
      findSpace call spaces = some space → (pass1 call spaces).status = .ok →
      NoStraddle space call.base (pass1 call spaces).resmap
          (buildRuns (pass1 call spaces).gpuPages) ∧
        SlicersAccept space call.base (pass1 call spaces).resmap
          (buildRuns (pass1 call spaces).gpuPages) := by
  intro h
  obtain ⟨hNoStraddle, -⟩ := h gapCall [gapSpace 0x1000] (gapSpace 0x1000) rfl rfl
  have hRuns : buildRuns (pass1 gapCall [gapSpace 0x1000]).gpuPages = [⟨frameAt 0, [0, 2]⟩] := rfl
  rw [hRuns] at hNoStraddle
  obtain ⟨hBetween, -⟩ := hNoStraddle _ List.mem_cons_self 0 List.mem_cons_self 2
    (List.mem_cons_of_mem 0 List.mem_cons_self) (by decide)
  exact absurd (hBetween 1 (by decide) (by decide)) (by decide)

end FlashCkpt.Driver
