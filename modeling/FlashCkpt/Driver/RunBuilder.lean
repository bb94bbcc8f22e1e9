import FlashCkpt.Driver.Workers
import FlashCkpt.Library.Greedy

/-! `lm_mt_build_runs` on its arrays: one index runs through the descriptors, moved by the loop
that grows a run and by the loop that begins one. -/
namespace FlashCkpt.Driver

open Greedy
open Crypto (dmaBufferSize)

/-- Sums in `NvU64`. -/
def nvU64 (n : Nat) : Nat := n % 2 ^ 64

/-- `struct live_migration_gpu_page`. -/
structure GpuPage where
  phys : Frame
  gpuBufOffset : Nat
  deriving DecidableEq, Repr

/-- `rl_s`, `rl_b` and the room `rc` in both of them. -/
structure RunLists where
  rlS : List Nat
  rlB : List Nat
  rc : Nat
  deriving DecidableEq, Repr

/-- The descriptor behind another one, in the memory and in the buffer of the caller. -/
def GpuPage.Behind (a b : GpuPage) : Prop :=
  b.phys.address = nvU64 (a.phys.address + Image.pageSize) ∧
    b.gpuBufOffset = nvU64 (a.gpuBufOffset + Image.pageSize)

instance (a b : GpuPage) : Decidable (a.Behind b) := inferInstanceAs (Decidable (_ ∧ _))

/-- Whether the inner loop takes the next descriptor into the run from `rs` on. -/
def takesNext (pages : List GpuPage) (maxXfer rs i rb : Nat) : Bool :=
  match pages[i + 1]?, pages[i]?, pages[rs]? with
  | some next, some last, some first =>
      decide (last.Behind next ∧ next.phys.aperture = first.phys.aperture ∧
        nvU64 (rb + Image.pageSize) ≤ maxXfer)
  | _, _, _ => false

/-- The inner loop, with the index and the bytes behind it. -/
def extendRun (pages : List GpuPage) (maxXfer rs : Nat) : (fuel i rb : Nat) → Nat × Nat
  | 0, i, rb => (i, rb)
  | fuel + 1, i, rb =>
      if takesNext pages maxXfer rs i rb then
        extendRun pages maxXfer rs fuel (i + 1) (nvU64 (rb + Image.pageSize))
      else (i, rb)

/-- One more run. Where the room is used up, two arrays of twice as much are asked for. -/
def RunLists.push (grows : Nat → Bool) (s : RunLists) (rs rb : Nat) : Option RunLists :=
  let room := if s.rc ≤ s.rlS.length then
      let nc := if s.rc ≠ 0 then s.rc * 2 else 256
      if grows nc then some nc else none
    else some s.rc
  room.map fun rc => ⟨s.rlS ++ [rs], s.rlB ++ [rb], rc⟩

/-- The outer loop. A run takes at least one descriptor, so their number is fuel enough. -/
def buildFrom (pages : List GpuPage) (maxXfer : Nat) (grows : Nat → Bool) :
    (fuel i : Nat) → RunLists → Option RunLists
  | 0, _, s => some s
  | fuel + 1, i, s =>
      if i < pages.length then
        let (last, rb) := extendRun pages maxXfer i pages.length i Image.pageSize
        (s.push grows i rb).bind fun s' => buildFrom pages maxXfer grows fuel (last + 1) s'
      else some s

/-- `lm_mt_build_runs`, with the sizes for which both arrays can be had; `none` is
`NV_ERR_NO_MEMORY`. -/
def lmMtBuildRuns (pages : List GpuPage) (maxXfer : Nat) (grows : Nat → Bool) : Option RunLists :=
  buildFrom pages maxXfer grows pages.length 0 ⟨[], [], 0⟩

/-- The descriptors of a range: at most one for each page of a length in `NvU64`. -/
structure GpuPages where
  list : List GpuPage
  count : list.length < 2 ^ 52

/-- A positive multiple of the page size. -/
structure MaxXfer where
  bytes : Nat
  pos : 0 < bytes
  whole : Image.pageSize ∣ bytes

/-- Descriptors that one transfer can take: each behind the one before, of one aperture, and of
no more bytes than allowed. -/
structure OneTransfer (maxXfer : Nat) (run : List GpuPage) : Prop where
  behind : run.IsChain GpuPage.Behind
  aperture : ∀ a ∈ run, ∀ b ∈ run, a.phys.aperture = b.phys.aperture
  room : run.length * Image.pageSize ≤ maxXfer

/-- The runs cut the descriptors in their order, each with its start and its bytes, and none can
be longer. -/
structure RunLists.Partitions (maxXfer : Nat) (pages : List GpuPage) (r : RunLists) : Prop where
  runs : ∃ runs, runs.flatten = pages ∧ Cuts (OneTransfer maxXfer) runs ∧ r.rlS = starts 0 runs ∧
    r.rlB = runs.map fun run => run.length * Image.pageSize
  total : r.rlB.sum = pages.length * Image.pageSize
  room : r.rlS.length = r.rlB.length ∧ r.rlS.length ≤ r.rc

theorem OneTransfer.of_append {maxXfer : Nat} (front back : List GpuPage)
    (h : OneTransfer maxXfer (front ++ back)) : OneTransfer maxXfer front where
  behind := h.behind.left_of_append
  aperture := fun a ha b hb =>
    h.aperture a (List.mem_append_left _ ha) b (List.mem_append_left _ hb)
  room := by
    refine Nat.le_trans (Nat.mul_le_mul_right _ ?_) h.room
    rw [List.length_append]
    exact Nat.le_add_right _ _

/-- One more descriptor, with what the inner loop looks at. -/
theorem oneTransfer_concat_iff {maxXfer : Nat} {run : List GpuPage} {first last next : GpuPage}
    (h : OneTransfer maxXfer run) (hFirst : run.head? = some first) (hLast : run.getLast? = some last) :
    OneTransfer maxXfer (run ++ [next]) ↔ last.Behind next ∧
      next.phys.aperture = first.phys.aperture ∧
      run.length * Image.pageSize + Image.pageSize ≤ maxXfer := by
  have hMem := List.mem_of_head? hFirst
  constructor
  · intro hMore
    obtain ⟨_, _, hBehind⟩ := List.isChain_append.mp hMore.behind
    refine ⟨hBehind last (by simpa using hLast) next (by simp), ?_, ?_⟩
    · exact hMore.aperture next (by simp) first (List.mem_append_left _ hMem)
    · have hRoom := hMore.room
      rw [List.length_append, List.length_singleton, Nat.succ_mul] at hRoom
      exact hRoom
  · rintro ⟨hBehind, hAperture, hRoom⟩
    have hOf : ∀ a ∈ run ++ [next], a.phys.aperture = first.phys.aperture := by
      rw [List.forall_mem_append, List.forall_mem_singleton]
      exact ⟨fun a ha => h.aperture a ha first hMem, hAperture⟩
    refine ⟨List.isChain_append.mpr ⟨h.behind, List.isChain_singleton _, ?_⟩, ?_, ?_⟩
    · intro a ha b hb
      rw [hLast, Option.mem_some_iff] at ha
      rw [List.head?_cons, Option.mem_some_iff] at hb
      rw [← ha, ← hb]
      exact hBehind
    · exact fun a ha b hb => (hOf a ha).trans (hOf b hb).symm
    · rw [List.length_append, List.length_singleton, Nat.succ_mul]
      exact hRoom

/-- The inner loop ends with the longest run from its start. -/
theorem extendRun_longest {pages front : List GpuPage} {maxXfer : Nat}
    (hCount : pages.length < 2 ^ 52) {run back : List GpuPage} (fuel : Nat) (hFuel : back.length ≤ fuel)
    (hPages : pages = front ++ run ++ back) (hRun : run ≠ []) (h : OneTransfer maxXfer run) :
    ∃ more back', back = more ++ back' ∧ OneTransfer maxXfer (run ++ more) ∧
      (∀ next rest, back' = next :: rest → ¬OneTransfer maxXfer (run ++ more ++ [next])) ∧
      extendRun pages maxXfer front.length fuel (front.length + run.length - 1)
          (run.length * Image.pageSize) =
        (front.length + (run ++ more).length - 1, (run ++ more).length * Image.pageSize) := by
  induction fuel generalizing run back with
  | zero =>
      have hBack : back = [] := List.length_eq_zero_iff.mp (Nat.le_zero.mp hFuel)
      refine ⟨[], [], hBack, by rwa [List.append_nil], fun _ _ hNext => (nomatch hNext), ?_⟩
      rw [List.append_nil]
      rfl
  | succ fuel ih =>
      have hPos : 0 < run.length := List.length_pos_of_ne_nil hRun
      obtain ⟨first, hFirst⟩ : ∃ first, run.head? = some first := ⟨_, List.head?_eq_some_head hRun⟩
      obtain ⟨last, hLast⟩ : ∃ last, run.getLast? = some last := ⟨_, List.getLast?_eq_some_getLast hRun⟩
      have hAtFirst : pages[front.length]? = some first := by
        rw [hPages, List.append_assoc, List.getElem?_append_right (Nat.le_refl _), Nat.sub_self,
          List.getElem?_append_left hPos, ← List.head?_eq_getElem?, hFirst]
      have hAtLast : pages[front.length + run.length - 1]? = some last := by
        rw [hPages, List.append_assoc, List.getElem?_append_right (by omega),
          List.getElem?_append_left (by omega), ← hLast, List.getLast?_eq_getElem?]
        congr 1
        omega
      have hAtNext : pages[front.length + run.length - 1 + 1]? = back.head? := by
        rw [Nat.sub_add_cancel (by omega), hPages, List.getElem?_append_right (by simp),
          List.length_append, Nat.sub_self, List.head?_eq_getElem?]
      rw [extendRun]
      cases back with
      | nil =>
          refine ⟨[], [], rfl, by rwa [List.append_nil], fun _ _ hNext => (nomatch hNext), ?_⟩
          rw [List.append_nil, if_neg]
          rw [takesNext, hAtNext, List.head?_nil]
          exact Bool.false_ne_true
      | cons next rest =>
          have hWord : nvU64 (run.length * Image.pageSize + Image.pageSize) =
              run.length * Image.pageSize + Image.pageSize := by
            rw [hPages, List.length_append, List.length_append, List.length_cons] at hCount
            apply Nat.mod_eq_of_lt
            simp only [Image.pageSize]
            omega
          have hTakes : takesNext pages maxXfer front.length (front.length + run.length - 1)
              (run.length * Image.pageSize) = true ↔ OneTransfer maxXfer (run ++ [next]) := by
            rw [oneTransfer_concat_iff h hFirst hLast, takesNext, hAtNext, hAtLast, hAtFirst,
              List.head?_cons, decide_eq_true_eq, hWord]
          by_cases hNext : OneTransfer maxXfer (run ++ [next])
          · obtain ⟨more, back', hRest, hMore, hLongest, hEnd⟩ := @ih (run ++ [next]) rest
              (by simpa using hFuel) (by simpa using hPages) (by simp) hNext
            refine ⟨next :: more, back', by rw [hRest, List.cons_append], ?_⟩
            rw [if_pos (hTakes.mpr hNext), hWord]
            rw [List.append_cons run next more]
            refine ⟨hMore, hLongest, ?_⟩
            have hIndex : front.length + run.length - 1 + 1 =
                front.length + (run ++ [next]).length - 1 := by
              rw [List.length_append, List.length_singleton]
              omega
            have hBytes : run.length * Image.pageSize + Image.pageSize =
                (run ++ [next]).length * Image.pageSize := by
              rw [List.length_append, List.length_singleton, Nat.succ_mul]
            rw [hIndex, hBytes, hEnd]
          · refine ⟨[], next :: rest, rfl, by rwa [List.append_nil], ?_, ?_⟩
            · rintro _ _ hSame
              obtain ⟨rfl, _⟩ := List.cons.inj hSame
              rwa [List.append_nil]
            · rw [if_neg fun hTaken => hNext (hTakes.mp hTaken), List.append_nil]

/-- Both arrays have the same number of runs, and room for them. -/
def RunLists.Fits (s : RunLists) : Prop := s.rlS.length = s.rlB.length ∧ s.rlS.length ≤ s.rc

theorem RunLists.push_cases {grows : Nat → Bool} {s s' : RunLists} {rs rb : Nat}
    (h : s.push grows rs rb = some s') :
    s'.rlS = s.rlS ++ [rs] ∧ s'.rlB = s.rlB ++ [rb] ∧ (s.Fits → s'.Fits) := by
  obtain ⟨rc, hRoom, rfl⟩ := Option.map_eq_some_iff.mp h
  refine ⟨rfl, rfl, fun ⟨hSame, hLe⟩ => ?_⟩
  have hMore : s.rlS.length < rc := by
    split at hRoom
    · obtain ⟨_, hSize⟩ := Option.ite_none_right_eq_some.mp hRoom
      split at hSize <;> cases hSize <;> omega
    · cases hRoom
      omega
  refine ⟨?_, ?_⟩
  · rw [List.length_append, List.length_append, hSame]
    rfl
  · rw [List.length_append]
    exact hMore

theorem oneTransfer_singleton {maxXfer : Nat} (hPage : Image.pageSize ≤ maxXfer) (page : GpuPage) :
    OneTransfer maxXfer [page] where
  behind := List.isChain_singleton page
  aperture := by simp
  room := by simpa using hPage

/-- The outer loop appends the cut of the descriptors from its index on. -/
theorem buildFrom_cuts {pages : List GpuPage} {maxXfer : Nat} {grows : Nat → Bool}
    (hCount : pages.length < 2 ^ 52) (hPage : Image.pageSize ≤ maxXfer) (fuel : Nat)
    {front back : List GpuPage} (hFuel : back.length ≤ fuel) (hPages : pages = front ++ back)
    {s s' : RunLists} (h : buildFrom pages maxXfer grows fuel front.length s = some s') :
    ∃ runs, runs.flatten = back ∧ Cuts (OneTransfer maxXfer) runs ∧
      s'.rlS = s.rlS ++ starts front.length runs ∧
      s'.rlB = s.rlB ++ (runs.map fun run => run.length * Image.pageSize) ∧ (s.Fits → s'.Fits) := by
  induction fuel generalizing front back s with
  | zero =>
      cases h
      have hBack : back = [] := List.length_eq_zero_iff.mp (Nat.le_zero.mp hFuel)
      exact ⟨[], hBack.symm, trivial, (List.append_nil _).symm, (List.append_nil _).symm, id⟩
  | succ fuel ih =>
      rw [buildFrom] at h
      cases back with
      | nil =>
          rw [List.append_nil] at hPages
          rw [if_neg (by rw [hPages]; exact Nat.lt_irrefl _)] at h
          cases h
          exact ⟨[], rfl, trivial, (List.append_nil _).symm, (List.append_nil _).symm, id⟩
      | cons page rest =>
          rw [if_pos (by rw [hPages, List.length_append, List.length_cons]; omega)] at h
          have hSplit : pages = front ++ [page] ++ rest := by rw [hPages, List.append_cons]
          obtain ⟨more, back', hRest, hRun, hLongest, hEnd⟩ := extendRun_longest hCount pages.length
            (by rw [hPages, List.length_append, List.length_cons]; omega) hSplit
            (List.cons_ne_nil _ _) (oneTransfer_singleton hPage page)
          rw [List.length_singleton, Nat.add_sub_cancel, Nat.one_mul] at hEnd
          rw [hEnd] at h
          obtain ⟨middle, hPush, hBuild⟩ := Option.bind_eq_some_iff.mp h
          obtain ⟨hStarts, hBytes, hFits⟩ := RunLists.push_cases hPush
          have hIndex : front.length + ([page] ++ more).length - 1 + 1 =
              (front ++ ([page] ++ more)).length := by
            simp only [List.length_append, List.length_singleton]
            omega
          rw [hIndex] at hBuild
          have hFuel' : back'.length ≤ fuel := by
            rw [hRest, List.length_cons, List.length_append] at hFuel
            omega
          have hPages' : pages = front ++ ([page] ++ more) ++ back' := by
            rw [hSplit, hRest]
            simp only [List.append_assoc]
          obtain ⟨runs, hFlat, hCuts, hStarts', hBytes', hFits'⟩ := ih hFuel' hPages' hBuild
          refine ⟨([page] ++ more) :: runs, ?_, ⟨by simp, hRun, ?_, hCuts⟩, ?_, ?_, fun hs => hFits' (hFits hs)⟩
          · rw [List.flatten_cons, hFlat, hRest, List.append_assoc]
            rfl
          · rw [hFlat]
            exact longest_of_next OneTransfer.of_append hLongest
          · have hLength : (front ++ ([page] ++ more)).length = front.length + ([page] ++ more).length :=
              List.length_append
            rw [hStarts', hStarts, starts, List.append_assoc, hLength]
            rfl
          · rw [hBytes', hBytes, List.map_cons, List.append_assoc]
            rfl

/-- The bytes of the runs are those of all descriptors. -/
theorem sum_bytes (runs : List (List GpuPage)) :
    (runs.map fun run => run.length * Image.pageSize).sum = runs.flatten.length * Image.pageSize := by
  induction runs with
  | nil => rw [List.flatten_nil, List.length_nil, Nat.zero_mul, List.map_nil, List.sum_nil]
  | cons run rest ih =>
      rw [List.map_cons, List.sum_cons, ih, List.flatten_cons, List.length_append, Nat.add_mul]

/-- Where the arrays can be had, their content is the cut of the descriptors into transfers. -/
theorem lmMtBuildRuns_partitions (pages : GpuPages) (maxXfer : MaxXfer) (grows : Nat → Bool)
    {r : RunLists} (h : lmMtBuildRuns pages.list maxXfer.bytes grows = some r) :
    r.Partitions maxXfer.bytes pages.list := by
  have hPage : Image.pageSize ≤ maxXfer.bytes := Nat.le_of_dvd maxXfer.pos maxXfer.whole
  obtain ⟨runs, hFlat, hCuts, hStarts, hBytes, hFits⟩ := buildFrom_cuts pages.count hPage
    pages.list.length (Nat.le_refl _) (List.nil_append _).symm h
  rw [List.nil_append, List.length_nil] at hStarts
  rw [List.nil_append] at hBytes
  exact
    { runs := ⟨runs, hFlat, hCuts, hStarts, hBytes⟩
      total := by rw [hBytes, sum_bytes, hFlat]
      room := hFits ⟨rfl, Nat.le_refl 0⟩ }

/-- Two pages that follow each other, and one of the system memory. -/
def threePages : GpuPages := ⟨[⟨⟨.vid, 0x10000⟩, 0⟩, ⟨⟨.vid, 0x11000⟩, 0x1000⟩, ⟨⟨.sys, 0x12000⟩, 0x2000⟩], by decide⟩

theorem lmMtBuildRuns_partitions_threePages :
    lmMtBuildRuns threePages.list 0x200000 (fun _ => true) = some ⟨[0, 2], [0x2000, 0x1000], 256⟩ ∧
      RunLists.Partitions 0x200000 threePages.list ⟨[0, 2], [0x2000, 0x1000], 256⟩ :=
  ⟨rfl, lmMtBuildRuns_partitions threePages ⟨0x200000, by decide, by decide⟩ (fun _ => true) rfl⟩

/-- Only an allocation that fails ends the builder without its lists. -/
theorem lmMtBuildRuns_ne_none (pages : List GpuPage) (maxXfer : Nat) {grows : Nat → Bool}
    (h : ∀ nc, grows nc = true) : lmMtBuildRuns pages maxXfer grows ≠ none := by
  have hFrom : ∀ (fuel i : Nat) (s : RunLists), buildFrom pages maxXfer grows fuel i s ≠ none := by
    intro fuel
    induction fuel with
    | zero => exact fun i s => Option.some_ne_none s
    | succ fuel ih =>
        intro i s
        rw [buildFrom]
        split
        · have hPush : ∀ rb, s.push grows i rb ≠ none := by
            intro rb
            rw [RunLists.push]
            dsimp only
            rw [if_pos (h _)]
            split <;> exact Option.some_ne_none _
          obtain ⟨s', hSome⟩ := Option.ne_none_iff_exists'.mp
            (hPush (extendRun pages maxXfer i pages.length i Image.pageSize).2)
          dsimp only
          rw [hSome]
          exact ih _ s'
        · exact Option.some_ne_none s
  exact hFrom _ _ _

/-- The descriptors of recorded pages: each has the next page of the buffer. -/
def descriptors : Nat → List (Nat × Frame) → List GpuPage
  | _, [] => []
  | k, (_, f) :: rest => ⟨f, k * Image.pageSize⟩ :: descriptors (k + 1) rest

theorem length_descriptors (k : Nat) (records : List (Nat × Frame)) :
    (descriptors k records).length = records.length := by
  induction records generalizing k with
  | nil => rfl
  | cons record rest ih => rw [descriptors, List.length_cons, List.length_cons, ih]

/-- The descriptors of a run: as many as it has pages, and the frame of the first. -/
def Matches (run : Run Nat) (part : List GpuPage) : Prop :=
  run.pages.length = part.length ∧ part.head?.map GpuPage.phys = some run.first

/-- A run of the list of transfers grows as long as one transfer can take its descriptors. -/
theorem growRun_matches {records : List (Nat × Frame)}
    (hFrames : ∀ record ∈ records, record.2.address + Image.pageSize < 2 ^ 64) {k : Nat}
    (hWord : (k + records.length) * Image.pageSize < 2 ^ 64) {run : Run Nat} {part : List GpuPage}
    (hMatches : Matches run part) (h : OneTransfer dmaBufferSize part) {last : Frame}
    (hLast : part.getLast? = some ⟨last, (k - 1) * Image.pageSize⟩) (hk : 0 < k)
    (hAddress : last.address + Image.pageSize < 2 ^ 64) :
    ∃ parts, parts.flatten = part ++ descriptors k records ∧
      Cuts (OneTransfer dmaBufferSize) parts ∧ List.Forall₂ Matches (growRun run last records) parts := by
  induction records generalizing k run part last with
  | nil =>
      refine ⟨[part], by simp [descriptors], ⟨?_, h, ?_, trivial⟩, .cons hMatches .nil⟩
      · rintro rfl
        cases hLast
      · intro more hMore hNil
        exact absurd (List.prefix_nil.mp hNil) hMore
  | cons record rest ih =>
      obtain ⟨p, f⟩ := record
      obtain ⟨hFrame, hRest⟩ := List.forall_mem_cons.mp hFrames
      obtain ⟨hLength, hFirst⟩ := hMatches
      obtain ⟨first, hHead, hPhys⟩ := Option.map_eq_some_iff.mp hFirst
      rw [List.length_cons] at hWord
      have hNext : OneTransfer dmaBufferSize (part ++ [⟨f, k * Image.pageSize⟩]) ↔
          f.address = last.address + Image.pageSize ∧ f.aperture = run.first.aperture ∧
            run.pages.length * Image.pageSize + Image.pageSize ≤ dmaBufferSize := by
        have hOffset : k * Image.pageSize = nvU64 ((k - 1) * Image.pageSize + Image.pageSize) := by
          rw [← Nat.succ_mul, Nat.succ_eq_add_one, Nat.sub_add_cancel hk]
          refine (Nat.mod_eq_of_lt (lt_of_le_of_lt ?_ hWord)).symm
          exact Nat.mul_le_mul_right _ (Nat.le_add_right _ _)
        rw [oneTransfer_concat_iff h hHead hLast, hLength, ← hPhys]
        simp only [GpuPage.Behind, ← hOffset, and_true]
        rw [nvU64, Nat.mod_eq_of_lt hAddress]
      have hWord' : (k + 1 + rest.length) * Image.pageSize < 2 ^ 64 := by
        rw [Nat.add_right_comm]
        exact hWord
      rw [growRun, descriptors]
      split
      · rename_i hTakes
        have hGrown : Matches ⟨run.first, run.pages ++ [p]⟩ (part ++ [⟨f, k * Image.pageSize⟩]) :=
          ⟨by simp [hLength], by rw [List.head?_append, hHead]; exact congrArg some hPhys⟩
        obtain ⟨parts, hFlat, hCuts, hParts⟩ := ih hRest hWord' hGrown (hNext.mpr hTakes) (by simp)
          (Nat.succ_pos k) hFrame
        exact ⟨parts, by rw [hFlat, List.append_assoc]; rfl, hCuts, hParts⟩
      · rename_i hStays
        have hBegun : Matches ⟨f, [p]⟩ [⟨f, k * Image.pageSize⟩] := ⟨rfl, rfl⟩
        obtain ⟨parts, hFlat, hCuts, hParts⟩ := ih hRest hWord' hBegun
          (oneTransfer_singleton (by decide) _) rfl (Nat.succ_pos k) hFrame
        refine ⟨part :: parts, by rw [List.flatten_cons, hFlat]; rfl, ⟨?_, h, ?_, hCuts⟩,
          .cons ⟨hLength, hFirst⟩ hParts⟩
        · rintro rfl
          cases hHead
        · rw [hFlat]
          refine longest_of_next OneTransfer.of_append fun next more hSame hMore => hStays ?_
          obtain ⟨rfl, _⟩ := List.cons.inj hSame
          exact hNext.mp hMore

theorem transfersFrom_matches {runs : List (Run Nat)} {parts : List (List GpuPage)}
    (h : List.Forall₂ Matches runs parts) (k : Nat) :
    (transfersFrom k runs).map Transfer.start = starts k parts ∧
      (transfersFrom k runs).map Transfer.bytes = parts.map fun part => part.length * Image.pageSize := by
  induction h generalizing k with
  | nil => exact ⟨rfl, rfl⟩
  | cons hHead _ ih =>
      obtain ⟨hStarts, hBytes⟩ := ih (k + _)
      rw [transfersFrom, List.map_cons, List.map_cons, hStarts, hBytes, hHead.1]
      exact ⟨rfl, rfl⟩

/-- The arrays hold the transfers that the captures make of the recorded pages. -/
theorem lmMtBuildRuns_transfers {records : List (Nat × Frame)}
    (hFrames : ∀ record ∈ records, record.2.address + Image.pageSize < 2 ^ 64)
    (hCount : records.length < 2 ^ 52) {grows : Nat → Bool} {r : RunLists}
    (h : lmMtBuildRuns (descriptors 0 records) dmaBufferSize grows = some r) :
    r.rlS = (transfersFrom 0 (buildRuns records)).map Transfer.start ∧
      r.rlB = (transfersFrom 0 (buildRuns records)).map Transfer.bytes := by
  obtain ⟨runs, hFlat, hCuts, hStarts, hBytes, _⟩ := buildFrom_cuts
    (by rwa [length_descriptors]) (show Image.pageSize ≤ dmaBufferSize by decide)
    (descriptors 0 records).length (Nat.le_refl _) (List.nil_append _).symm h
  obtain ⟨parts, hParts, hCuts', hMatches⟩ : ∃ parts, parts.flatten = descriptors 0 records ∧
      Cuts (OneTransfer dmaBufferSize) parts ∧ List.Forall₂ Matches (buildRuns records) parts := by
    cases records with
    | nil => exact ⟨[], rfl, trivial, .nil⟩
    | cons record rest =>
        obtain ⟨p, f⟩ := record
        obtain ⟨hFrame, hRest⟩ := List.forall_mem_cons.mp hFrames
        refine growRun_matches hRest ?_ ⟨rfl, rfl⟩ (oneTransfer_singleton (by decide) _) rfl
          Nat.one_pos hFrame
        rw [List.length_cons] at hCount
        simp only [Image.pageSize]
        omega
  obtain ⟨hStarts', hBytes'⟩ := transfersFrom_matches hMatches 0
  obtain rfl := hCuts.unique hCuts' (hFlat.trans hParts.symm)
  rw [hStarts', hBytes', hStarts, hBytes]
  exact ⟨rfl, rfl⟩

end FlashCkpt.Driver
