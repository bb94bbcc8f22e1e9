import FlashCkpt.Image.IncDelta
import FlashCkpt.Image.Transfers

/-! The fused delta of ckpt_core. One ioctl 116 reads the whole span of the user
ranges into three buffers; the consumer cuts them at the pages that are absent,
and makes one block of the delta from each run of present pages. -/
namespace FlashCkpt.Image

open ByteImage SizeCut Crypto

/-- What the driver hands over for a span. -/
structure SpanRead where
  resmap : List Residency
  cpuBuf : Bytes
  gpuBuf : Bytes
  metas : List CryptoMeta

/-- Ioctl 115 or 116 over a span, the first transfer of which has number `n`. -/
def readSpan (channel : Channel) (memory : ByteImage.Image) (n : Nat) (span : RangeLayout) :
    SpanRead where
  resmap := span.residency
  cpuBuf := packed memory span.base (pagesOn span.residency .cpu)
  gpuBuf := (span.pieces memory n).flatMap (pieceCipher channel)
  metas := (span.pieces memory n).map (pieceMeta channel)

/-- A present page put before the runs that follow it. -/
def addPage (page : Nat) (place : Residency) :
    List (Nat × List Residency) → List (Nat × List Residency)
  | [] => [(page, [place])]
  | (start, run) :: more =>
      if start = page + 1 then (page, place :: run) :: more
      else (page, [place]) :: (start, run) :: more

/-- The maximal runs of present pages, each with the number of its first page. -/
def presentRuns : Nat → List Residency → List (Nat × List Residency)
  | _, [] => []
  | page, place :: rest =>
      if place = .absent then presentRuns (page + 1) rest
      else addPage page place (presentRuns (page + 1) rest)

/-- The second pass: the slices of the buffers that belong to each run; none when
the transfers do not end with the run. -/
def sliceRuns (base : Nat) : (cpuBuf gpuBuf : Bytes) → List CryptoMeta →
    List (Nat × List Residency) → Option (List Sections)
  | _, _, _, [] => some []
  | cpuBuf, gpuBuf, metas, (start, run) :: rest =>
      let cpuIn := run.count .cpu * pageSize
      let gpuIn := run.count .gpu * pageSize
      let (mine, others) := takeUpTo CryptoMeta.size gpuIn 0 metas
      if total CryptoMeta.size mine ≠ gpuIn then none
      else
        (sliceRuns base (cpuBuf.drop cpuIn) (gpuBuf.drop gpuIn) others rest).map
          (⟨base + start * pageSize, run.length * pageSize, run.map Residency.code,
            cpuBuf.take cpuIn, gpuBuf.take gpuIn, mine.flatMap CryptoMeta.encode⟩ :: ·)

/-- The regions of the fused delta. -/
def fusedRegions (base : Nat) (r : SpanRead) : Option (List Sections) :=
  sliceRuns base r.cpuBuf r.gpuBuf r.metas (presentRuns 0 r.resmap)

/-- The transfers of the span end with every run, so that the consumer accepts
them. -/
def Aligned : List Nat → List (Nat × List Residency) → Prop
  | _, [] => True
  | transfers, (_, run) :: rest => ∃ mine others, transfers = mine ++ others ∧
      mine.sum = run.count .gpu ∧ Aligned others rest

theorem pagesOn_cons (r : Residency) (rest : List Residency) (place : Residency) :
    pagesOn (r :: rest) place =
      (if r = place then [0] else []) ++ (pagesOn rest place).map (· + 1) := by
  rw [pagesOn, List.length_cons, List.range_succ_eq_map, List.filter_cons, List.filter_map]
  have hRest : ((List.range rest.length).filter
      ((fun p => decide ((r :: rest)[p]? = some place)) ∘ Nat.succ)) = pagesOn rest place := rfl
  rw [hRest]
  by_cases hSame : r = place
  · simp [hSame]
  · simp [hSame]

/-- The packed pages of a range from its first page on. -/
theorem packed_cons (memory : ByteImage.Image) (base : Nat) (r : Residency)
    (rest : List Residency) (place : Residency) :
    packed memory base (pagesOn (r :: rest) place) =
      (if r = place then read memory base pageSize else []) ++
        packed memory (base + pageSize) (pagesOn rest place) := by
  have hShift : packed memory base ((pagesOn rest place).map (· + 1)) =
      packed memory (base + pageSize) (pagesOn rest place) := by
    simp only [packed, List.flatMap_map]
    refine congrArg (fun f => List.flatMap f _) (funext fun p => ?_)
    rw [Nat.add_mul, Nat.one_mul, Nat.add_comm (p * pageSize), Nat.add_assoc]
  rw [pagesOn_cons, packed, List.flatMap_append, ← packed, ← packed, hShift]
  split
  · simp [packed]
  · simp [packed]

theorem pagesOn_length (residency : List Residency) (place : Residency) :
    (pagesOn residency place).length = residency.count place := by
  induction residency with
  | nil => rfl
  | cons r rest ih =>
      rw [pagesOn_cons, List.length_append, List.length_map, ih, List.count_cons]
      by_cases hSame : r = place
      · simp [hSame, Nat.add_comm]
      · simp [hSame]

section Runs

variable (memory : ByteImage.Image) (base : Nat) {place : Residency}

theorem addPage_packed (page : Nat) (r : Residency)
    (runs : List (Nat × List Residency)) :
    (addPage page r runs).flatMap
        (fun run => packed memory (base + run.1 * pageSize) (pagesOn run.2 place)) =
      (if r = place then read memory (base + page * pageSize) pageSize else []) ++
        runs.flatMap fun run => packed memory (base + run.1 * pageSize) (pagesOn run.2 place) := by
  have hNil : packed memory (base + page * pageSize + pageSize) (pagesOn [] place) = [] := rfl
  cases runs with
  | nil => simp [addPage, packed_cons, hNil]
  | cons head more =>
      obtain ⟨start, run⟩ := head
      rw [addPage]
      split
      · rename_i hNext
        simp only [List.flatMap_cons, packed_cons, hNext, Nat.add_mul, Nat.one_mul, Nat.add_assoc,
          List.append_assoc]
      · simp only [List.flatMap_cons, packed_cons, hNil, List.append_nil]

/-- The runs carry the pages of the span in their order. -/
theorem presentRuns_packed (hPlace : place ≠ .absent) (page : Nat)
    (residency : List Residency) :
    (presentRuns page residency).flatMap
        (fun run => packed memory (base + run.1 * pageSize) (pagesOn run.2 place)) =
      packed memory (base + page * pageSize) (pagesOn residency place) := by
  induction residency generalizing page with
  | nil => rfl
  | cons r rest ih =>
      have hTail := ih (page + 1)
      rw [Nat.add_mul, Nat.one_mul, ← Nat.add_assoc] at hTail
      rw [presentRuns, packed_cons]
      split
      · rename_i hAbsent
        rw [hTail, if_neg fun hSame => hPlace (hSame.symm.trans hAbsent), List.nil_append]
      · rw [addPage_packed, hTail]

/-- A run of a span which starts with page `page`: its pages are present there, and
the pages beside it are not. -/
structure IsRun (page : Nat) (residency : List Residency) (start : Nat) (run : List Residency) :
    Prop where
  le : page ≤ start
  pos : 0 < run.length
  same : ∀ i < run.length, residency[start - page + i]? = run[i]?
  present : ∀ i < run.length, residency[start - page + i]? ≠ some .absent
  right : residency[start - page + run.length]? = none ∨
    residency[start - page + run.length]? = some .absent
  left : page < start → residency[start - page - 1]? = some .absent

/-- A run stays one when a page is put before the span that it does not touch. -/
theorem IsRun.cons {page start : Nat} {rest run : List Residency}
    (h : IsRun (page + 1) rest start run) (r : Residency)
    (hApart : start = page + 1 → r = .absent) : IsRun page (r :: rest) start run := by
  have hLe := h.le
  have hShift : ∀ i, (r :: rest)[start - page + i]? = rest[start - (page + 1) + i]? := by
    intro i
    rw [show start - page + i = start - (page + 1) + i + 1 by omega, List.getElem?_cons_succ]
  refine ⟨by omega, h.pos, ?_, ?_, ?_, ?_⟩
  · intro i hi
    rw [hShift]
    exact h.same i hi
  · intro i hi
    rw [hShift]
    exact h.present i hi
  · rw [hShift]
    exact h.right
  · intro _
    by_cases hFirst : start = page + 1
    · rw [hFirst, show page + 1 - page - 1 = 0 by omega, List.getElem?_cons_zero,
        hApart hFirst]
    · rw [show start - page - 1 = start - (page + 1) - 1 + 1 by omega, List.getElem?_cons_succ]
      exact h.left (by omega)

/-- A run that starts behind a present page grows by it. -/
theorem IsRun.grow {page : Nat} {rest run : List Residency}
    (h : IsRun (page + 1) rest (page + 1) run) {r : Residency} (hPresent : r ≠ .absent) :
    IsRun page (r :: rest) page (r :: run) := by
  have hSame := h.same
  have hPlaces := h.present
  have hRight := h.right
  simp only [Nat.sub_self, Nat.zero_add] at hSame hPlaces hRight
  refine ⟨Nat.le_refl _, by simp, ?_, ?_, ?_, fun hLess => absurd hLess (Nat.lt_irrefl _)⟩
  · intro i hi
    cases i with
    | zero => simp
    | succ i =>
        rw [Nat.sub_self, Nat.zero_add, List.getElem?_cons_succ, List.getElem?_cons_succ]
        exact hSame i (by simpa using hi)
  · intro i hi
    cases i with
    | zero => simpa using hPresent
    | succ i =>
        rw [Nat.sub_self, Nat.zero_add, List.getElem?_cons_succ]
        exact hPlaces i (by simpa using hi)
  · rw [Nat.sub_self, Nat.zero_add, List.length_cons, List.getElem?_cons_succ]
    exact hRight

theorem IsRun.single {page : Nat} {rest : List Residency} {r : Residency} (hPresent : r ≠ .absent)
    (hNext : rest[0]? = none ∨ rest[0]? = some .absent) : IsRun page (r :: rest) page [r] := by
  refine ⟨Nat.le_refl _, by simp, ?_, ?_, by simpa using hNext,
    fun hLess => absurd hLess (Nat.lt_irrefl _)⟩
  · intro i hi
    rw [Nat.sub_self, Nat.zero_add]
    simp only [List.length_singleton, Nat.lt_one_iff] at hi
    simp [hi]
  · intro i hi
    rw [Nat.sub_self, Nat.zero_add]
    simp only [List.length_singleton, Nat.lt_one_iff] at hi
    simpa [hi] using hPresent

theorem presentRuns_ordered (page : Nat) (residency : List Residency) :
    (∀ run ∈ presentRuns page residency, page ≤ run.1) ∧
      (presentRuns page residency).Pairwise fun a b => a.1 < b.1 := by
  induction residency generalizing page with
  | nil => exact ⟨fun run hRun => absurd hRun List.not_mem_nil, List.Pairwise.nil⟩
  | cons r rest ih =>
      obtain ⟨hLow, hOrder⟩ := ih (page + 1)
      rw [presentRuns]
      split
      · exact ⟨fun run hRun => Nat.le_of_succ_le (hLow run hRun), hOrder⟩
      · generalize presentRuns (page + 1) rest = runs at hLow hOrder
        cases runs with
        | nil => simp [addPage]
        | cons head more =>
            obtain ⟨start, run⟩ := head
            obtain ⟨hHead, hMore⟩ := List.pairwise_cons.mp hOrder
            have hStart := hLow (start, run) List.mem_cons_self
            dsimp only at hHead hStart
            rw [addPage]
            split
            · refine ⟨?_, List.pairwise_cons.mpr ⟨fun b hb => ?_, hMore⟩⟩
              · intro b hb
                rcases List.mem_cons.mp hb with rfl | hb
                · exact Nat.le_refl _
                · have := hHead b hb
                  omega
              · have := hHead b hb
                dsimp only
                omega
            · refine ⟨?_, List.pairwise_cons.mpr ⟨fun b hb => ?_, hOrder⟩⟩
              · intro b hb
                rcases List.mem_cons.mp hb with rfl | hb
                · exact Nat.le_refl _
                · have := hLow b hb
                  omega
              · have := hLow b hb
                dsimp only
                omega

/-- A span that starts with a present page starts with a run. -/
theorem presentRuns_head (page : Nat) {residency : List Residency} {r : Residency}
    (hFirst : residency[0]? = some r) (hPresent : r ≠ .absent) :
    ∃ run more, presentRuns page residency = (page, run) :: more := by
  cases residency with
  | nil => cases hFirst
  | cons r' rest =>
      rw [List.getElem?_cons_zero, Option.some.injEq] at hFirst
      subst hFirst
      rw [presentRuns, if_neg hPresent]
      generalize presentRuns (page + 1) rest = runs
      cases runs with
      | nil => exact ⟨_, _, rfl⟩
      | cons head more =>
          obtain ⟨start, run⟩ := head
          rw [addPage]
          split <;> exact ⟨_, _, rfl⟩

theorem presentRuns_isRun (page : Nat) (residency : List Residency) :
    ∀ run ∈ presentRuns page residency, IsRun page residency run.1 run.2 := by
  induction residency generalizing page with
  | nil => exact fun run hRun => absurd hRun List.not_mem_nil
  | cons r rest ih =>
      intro run hRun
      obtain ⟨hLow, hOrder⟩ := presentRuns_ordered (page + 1) rest
      rw [presentRuns] at hRun
      split at hRun
      · rename_i hAbsent
        exact (ih (page + 1) run hRun).cons r fun _ => hAbsent
      · rename_i hPresent
        have hHead : ∀ r', rest[0]? = some r' → r' ≠ .absent →
            ∃ run more, presentRuns (page + 1) rest = (page + 1, run) :: more :=
          fun _ hFirst hNot => presentRuns_head (page + 1) hFirst hNot
        have hRuns := ih (page + 1)
        generalize presentRuns (page + 1) rest = runs at hRun hLow hOrder hHead hRuns
        -- a page behind which no run starts is a run of its own
        have hSingle : (∀ run more, runs ≠ (page + 1, run) :: more) →
            rest[0]? = none ∨ rest[0]? = some .absent := by
          intro hNone
          cases hFirst : rest[0]? with
          | none => exact .inl rfl
          | some r' =>
              right
              by_contra hNot
              obtain ⟨run, more, hEq⟩ := hHead r' hFirst fun hSame =>
                hNot (congrArg some hSame)
              exact hNone run more hEq
        cases runs with
        | nil =>
            rw [addPage, List.mem_singleton] at hRun
            subst hRun
            exact .single hPresent (hSingle fun run more h => by cases h)
        | cons head more =>
            obtain ⟨start, first⟩ := head
            rw [addPage] at hRun
            split at hRun
            · rename_i hNext
              rcases List.mem_cons.mp hRun with rfl | hMem
              · exact (hNext ▸ hRuns (start, first) List.mem_cons_self).grow hPresent
              · refine (hRuns run (List.mem_cons_of_mem _ hMem)).cons r fun hStart => ?_
                have := (List.pairwise_cons.mp hOrder).1 run hMem
                dsimp only at this
                omega
            · rename_i hApart
              rcases List.mem_cons.mp hRun with rfl | hMem
              · refine .single hPresent (hSingle fun run more h => ?_)
                rw [List.cons.injEq, Prod.mk.injEq] at h
                exact hApart h.1.1
              · refine (hRuns run hMem).cons r fun hStart => ?_
                rcases List.mem_cons.mp hMem with rfl | hMem
                · exact absurd hStart hApart
                · have := (List.pairwise_cons.mp hOrder).1 run hMem
                  have := hLow (start, first) List.mem_cons_self
                  dsimp only at *
                  omega

/-- Every present page lies in a run. -/
theorem exists_presentRun (page : Nat) {residency : List Residency} {i : Nat} {r : Residency}
    (hPage : residency[i]? = some r) (hPresent : r ≠ .absent) :
    ∃ run ∈ presentRuns page residency, run.1 ≤ page + i ∧ page + i < run.1 + run.2.length := by
  induction residency generalizing page i with
  | nil => cases hPage
  | cons r' rest ih =>
      rw [presentRuns]
      cases i with
      | zero =>
          rw [List.getElem?_cons_zero, Option.some.injEq] at hPage
          subst hPage
          rw [if_neg hPresent]
          generalize presentRuns (page + 1) rest = runs
          cases runs with
          | nil => exact ⟨_, List.mem_cons_self, Nat.le_refl _, by simp⟩
          | cons head more =>
              obtain ⟨start, run⟩ := head
              rw [addPage]
              split <;> exact ⟨_, List.mem_cons_self, Nat.le_refl _, by simp⟩
      | succ i =>
          rw [List.getElem?_cons_succ] at hPage
          obtain ⟨run, hRun, hLow, hHigh⟩ := ih (page + 1) hPage
          rw [show page + (i + 1) = page + 1 + i by omega]
          split
          · exact ⟨run, hRun, hLow, hHigh⟩
          · generalize presentRuns (page + 1) rest = runs at hRun
            cases runs with
            | nil => cases hRun
            | cons head more =>
                obtain ⟨start, first⟩ := head
                rw [addPage]
                split
                · rename_i hNext
                  rcases List.mem_cons.mp hRun with rfl | hMem
                  · refine ⟨_, List.mem_cons_self, by dsimp only; omega, ?_⟩
                    dsimp only [List.length_cons] at hHigh ⊢
                    omega
                  · exact ⟨run, List.mem_cons_of_mem _ hMem, hLow, hHigh⟩
                · exact ⟨run, List.mem_cons_of_mem _ hRun, hLow, hHigh⟩

end Runs

/-- Ranges with the number of the first transfer of each, when they are captured
one after the other. -/
def numbered : Nat → List RangeLayout → List (Nat × RangeLayout)
  | _, [] => []
  | n, l :: rest => (n, l) :: numbered (n + l.transfers.length) rest

theorem capture_eq_map (channel : Channel) (memory : ByteImage.Image) (n : Nat)
    (layouts : List RangeLayout) :
    capture channel memory n layouts =
      (numbered n layouts).map fun p => p.2.sections channel memory p.1 := by
  induction layouts generalizing n with
  | nil => rfl
  | cons l rest ih => rw [capture, numbered, List.map_cons, ih]

theorem map_snd_numbered (n : Nat) (layouts : List RangeLayout) :
    (numbered n layouts).map Prod.snd = layouts := by
  induction layouts generalizing n with
  | nil => rfl
  | cons l rest ih => rw [numbered, List.map_cons, ih]

/-- Every writer stores the captured regions, one under each block of its table. -/
theorem writeDelta_stored (channel : Channel) (memory : ByteImage.Image) (n : Nat)
    (regions : List RangeLayout) (w : DeltaWriter) (pool : Schedule) (old : ByteImage.Image)
    (oldSize : Nat) :
    let delta := writeDelta w (capture channel memory n regions) pool old oldSize
    (∀ d ∈ delta.blocks, ∃ l ∈ regions, ∃ m,
      StoredAt delta.data delta.size (l.sections channel memory m) d) ∧
    ∀ l ∈ regions, ∃ d ∈ delta.blocks, ∃ m,
      StoredAt delta.data delta.size (l.sections channel memory m) d := by
  intro delta
  have hInside : ∀ q ∈ placed (capture channel memory n regions)
      (deltaStart (capture channel memory n regions).length), q.2.stop ≤ delta.size := by
    intro q hq
    cases w with
    | fused => exact Nat.le_trans (placed_stop_imageSize hq) (Nat.le_max_right _ _)
    | streaming =>
        exact Nat.le_trans (placed_stop (capture_fits channel memory n regions) hq)
          (Nat.le_max_right _ _)
    | buffered => exact placed_stop_imageSize hq
  have hStored : ∀ q ∈ placed (capture channel memory n regions)
      (deltaStart (capture channel memory n regions).length),
      StoredAt delta.data delta.size q.1 q.2 :=
    fun q hq => storedAt_writeAll pool _ hInside hq
  have hSections := capture_eq_map channel memory n regions
  refine ⟨?_, ?_⟩
  · intro d hd
    obtain ⟨q, hq, rfl⟩ := List.mem_map.mp hd
    have hMem := (placed_desc hq).1
    rw [hSections] at hMem
    obtain ⟨entry, hEntry, hEq⟩ := List.mem_map.mp hMem
    refine ⟨entry.2, ?_, entry.1, hEq ▸ hStored q hq⟩
    rw [← map_snd_numbered n regions]
    exact List.mem_map_of_mem hEntry
  · intro l hl
    rw [← map_snd_numbered n regions] at hl
    obtain ⟨entry, hEntry, rfl⟩ := List.mem_map.mp hl
    have hMem : entry.2.sections channel memory entry.1 ∈ capture channel memory n regions := by
      rw [hSections]
      exact List.mem_map_of_mem hEntry
    obtain ⟨d, hd⟩ := exists_placed hMem (deltaStart (capture channel memory n regions).length)
    exact ⟨d, List.mem_map_of_mem hd, entry.1, hStored _ hd⟩

theorem cutPieces_append (n : Nat) (front back : List Nat) (plain rest : Bytes)
    (hPlain : plain.length = front.sum * pageSize) :
    cutPieces n (front ++ back) (plain ++ rest) =
      cutPieces n front plain ++ cutPieces (n + front.length) back rest := by
  induction front generalizing n plain with
  | nil =>
      have hNil : plain = [] := by simpa using hPlain
      simp [hNil, cutPieces]
  | cons t more ih =>
      rw [List.sum_cons, Nat.add_mul] at hPlain
      have hDrop : (plain.drop (t * pageSize)).length = more.sum * pageSize := by
        rw [List.length_drop]
        omega
      rw [List.cons_append, cutPieces, cutPieces, List.take_append_of_le_length (by omega),
        List.drop_append_of_le_length (by omega), ih (n + 1) _ hDrop, List.length_cons,
        List.cons_append, Nat.add_assoc, Nat.add_comm 1]

section Slices

variable (channel : Channel) (memory : ByteImage.Image)

/-- The transfers of ranges that are captured one after the other. -/
def allPieces (n : Nat) (layouts : List RangeLayout) : List (Nat × Bytes) :=
  (numbered n layouts).flatMap fun p => p.2.pieces memory p.1

theorem allPieces_cons (n : Nat) (l : RangeLayout) (rest : List RangeLayout) :
    allPieces memory n (l :: rest) =
      l.pieces memory n ++ allPieces memory (n + l.transfers.length) rest := rfl

theorem cutPieces_regions (n : Nat) (regions : List RangeLayout) (others : List Nat) :
    ∃ extra, cutPieces n (regions.flatMap RangeLayout.transfers ++ others)
        (regions.flatMap fun l => packed memory l.base (pagesOn l.residency .gpu)) =
      allPieces memory n regions ++ extra := by
  induction regions generalizing n with
  | nil => exact ⟨_, rfl⟩
  | cons l rest ih =>
      obtain ⟨extra, hRest⟩ := ih (n + l.transfers.length)
      refine ⟨extra, ?_⟩
      rw [List.flatMap_cons, List.flatMap_cons, List.append_assoc,
        cutPieces_append n _ _ _ _ (by rw [packed_length, l.transfer_sum]), hRest,
        allPieces_cons, List.append_assoc, RangeLayout.pieces]

/-- The slices of each region are its sections. -/
theorem sliceRuns_eq (base n : Nat) {regions : List RangeLayout} {runs : List (Nat × List Residency)}
    (hRuns : runs.map (fun r => (base + r.1 * pageSize, r.2)) =
      regions.map fun l => (l.base, l.residency)) (extra : List (Nat × Bytes)) :
    sliceRuns base (regions.flatMap fun l => packed memory l.base (pagesOn l.residency .cpu))
        ((allPieces memory n regions ++ extra).flatMap (pieceCipher channel))
        ((allPieces memory n regions ++ extra).map (pieceMeta channel)) runs =
      some (capture channel memory n regions) := by
  induction regions generalizing n runs with
  | nil =>
      rw [List.map_nil, List.map_eq_nil_iff] at hRuns
      subst hRuns
      rfl
  | cons l rest ih =>
      cases runs with
      | nil => cases hRuns
      | cons head more =>
          obtain ⟨start, run⟩ := head
          rw [List.map_cons, List.map_cons, List.cons.injEq, Prod.mk.injEq] at hRuns
          obtain ⟨⟨hBase, hRun⟩, hMore⟩ := hRuns
          dsimp only at hBase hRun
          subst hRun
          have hCpu : (packed memory l.base (pagesOn l.residency .cpu)).length =
              l.residency.count .cpu * pageSize := by
            rw [packed_length, pagesOn_length]
          have hTotal : total pieceSize (l.pieces memory n) =
              l.residency.count .gpu * pageSize := by
            rw [total_pieces, pagesOn_length]
          have hPieces : allPieces memory n (l :: rest) ++ extra = l.pieces memory n ++
              (allPieces memory (n + l.transfers.length) rest ++ extra) := by
            rw [allPieces_cons, List.append_assoc]
          have hPos : ∀ p ∈ l.pieces memory n, 0 < pieceSize p := fun p hp => piece_pos hp
          have hCut := takeUpTo_exact pieceSize hPos 0
            (allPieces memory (n + l.transfers.length) rest ++ extra)
          rw [Nat.zero_add, hTotal] at hCut
          have hGpu : ((l.pieces memory n).flatMap (pieceCipher channel)).length =
              l.residency.count .gpu * pageSize := by
            rw [flatMap_cipher_length, hTotal]
          rw [hPieces, sliceRuns, List.flatMap_cons, List.flatMap_append, takeUpTo_map,
            pieceMeta_size, hCut]
          dsimp only
          rw [total_map, pieceMeta_size, hTotal, if_neg (by simp), List.drop_left' hCpu,
            List.drop_left' hGpu, List.take_left' hCpu, List.take_left' hGpu, ih _ hMore,
            Option.map_some, capture, hBase, List.flatMap_map]
          rfl

end Slices

/-- The runs of a span with the transfers that end with them. -/
theorem exists_regions (base : Nat) {transfers : List Nat} {runs : List (Nat × List Residency)}
    (hPages : ∀ t ∈ transfers, 0 < t ∧ t ≤ 512) (h : Aligned transfers runs) :
    ∃ (regions : List RangeLayout) (others : List Nat),
      (runs.map fun r => (base + r.1 * pageSize, r.2)) =
        regions.map (fun l => (l.base, l.residency)) ∧
      transfers = regions.flatMap RangeLayout.transfers ++ others := by
  induction runs generalizing transfers with
  | nil => exact ⟨[], transfers, rfl, rfl⟩
  | cons head more ih =>
      obtain ⟨start, run⟩ := head
      obtain ⟨mine, others, rfl, hSum, hRest⟩ := h
      obtain ⟨regions, left, hMap, hLeft⟩ := ih
        (fun t ht => hPages t (List.mem_append_right mine ht)) hRest
      refine ⟨⟨base + start * pageSize, run, mine,
        fun t ht => hPages t (List.mem_append_left others ht), by rw [hSum, pagesOn_length]⟩ ::
          regions, left, ?_, ?_⟩
      · rw [List.map_cons, List.map_cons, hMap]
      · rw [List.flatMap_cons, List.append_assoc, ← hLeft]

/-- The consumer makes the sections of the runs of the span. -/
theorem fusedRegions_eq (span : RangeLayout)
    (h : Aligned span.transfers (presentRuns 0 span.residency)) :
    ∃ regions : List RangeLayout,
      (presentRuns 0 span.residency).map (fun r => (span.base + r.1 * pageSize, r.2)) =
        regions.map (fun l => (l.base, l.residency)) ∧
      ∀ channel memory n, fusedRegions span.base (readSpan channel memory n span) =
        some (capture channel memory n regions) := by
  obtain ⟨regions, others, hRuns, hTransfers⟩ :=
    exists_regions span.base span.transfer_pages h
  refine ⟨regions, hRuns, fun channel memory n => ?_⟩
  have hPacked : ∀ place, place ≠ Residency.absent →
      packed memory span.base (pagesOn span.residency place) =
        regions.flatMap fun l => packed memory l.base (pagesOn l.residency place) := by
    intro place hPlace
    have hPages := presentRuns_packed memory span.base hPlace 0 span.residency
    have hRegions := congrArg (List.flatMap fun r : Nat × List Residency =>
      packed memory r.1 (pagesOn r.2 place)) hRuns
    rw [List.flatMap_map, List.flatMap_map] at hRegions
    rw [← hRegions, hPages, Nat.zero_mul, Nat.add_zero]
  obtain ⟨extra, hPieces⟩ := cutPieces_regions memory n regions others
  have hAll : span.pieces memory n = allPieces memory n regions ++ extra := by
    rw [RangeLayout.pieces, hTransfers, hPacked .gpu (by decide), hPieces]
  rw [fusedRegions, readSpan]
  dsimp only
  rw [hPacked .cpu (by decide), hAll]
  exact sliceRuns_eq channel memory span.base n hRuns extra

end FlashCkpt.Image
