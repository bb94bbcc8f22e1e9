import FlashCkpt.Image.DenseSlicer

/-! The consumer of the fused delta on whatever the driver hands over. It goes from one end
of a run of present pages to the next, and the metadata entries have to end there too. -/
namespace FlashCkpt.Image

open ByteImage SizeCut Crypto

/-- Pages of the runs that lie on the GPU. -/
def gpuPagesOf (runs : List (Nat × List Residency)) : Nat :=
  (runs.map fun run => run.2.count .gpu).sum

@[simp] theorem gpuPagesOf_cons (run : Nat × List Residency) (rest : List (Nat × List Residency)) :
    gpuPagesOf (run :: rest) = run.2.count .gpu + gpuPagesOf rest := by
  simp [gpuPagesOf]

/-- The second pass succeeds when the entries end with every run. -/
theorem sliceRuns_isSome (base : Nat) {runs : List (Nat × List Residency)}
    {metas : List CryptoMeta} (h : ∀ front back, runs = front ++ back →
      Boundary CryptoMeta.size metas (gpuPagesOf front * pageSize)) (cpuBuf gpuBuf : Bytes) :
    (sliceRuns base cpuBuf gpuBuf metas runs).isSome = true := by
  induction runs generalizing metas cpuBuf gpuBuf with
  | nil => rfl
  | cons run rest ih =>
      obtain ⟨start, places⟩ := run
      have hSplit := takeUpTo_append CryptoMeta.size (places.count .gpu * pageSize) 0 metas
      have hFirst : Boundary CryptoMeta.size metas (places.count .gpu * pageSize - 0) := by
        simpa [gpuPagesOf] using h [(start, places)] rest rfl
      have hMine := (takeUpTo_total_iff CryptoMeta.size metas (Nat.zero_le _)).mpr hFirst
      rw [sliceRuns]
      generalize takeUpTo CryptoMeta.size (places.count .gpu * pageSize) 0 metas = cut at hSplit hMine
      obtain ⟨mine, others⟩ := cut
      dsimp only at hSplit hMine ⊢
      rw [Nat.zero_add] at hMine
      have hRest : ∀ front back, rest = front ++ back →
          Boundary CryptoMeta.size others (gpuPagesOf front * pageSize) := by
        intro front back hRuns
        have hBoundary := h ((start, places) :: front) back (by rw [hRuns, List.cons_append])
        rwa [gpuPagesOf_cons, Nat.add_mul, ← hSplit, ← hMine, boundary_drop] at hBoundary
      rw [if_neg (not_not_intro hMine), Option.isSome_map]
      exact ih hRest _ _

/-- A run ends at an absent page or with the span. -/
def RunEnd (residency : List Residency) (e : Nat) : Prop :=
  residency[e]? = some .absent ∨ e = residency.length

theorem RunEnd.succ {residency : List Residency} {e : Nat} (h : RunEnd residency e)
    (r : Residency) : RunEnd (r :: residency) (e + 1) :=
  h.imp (fun hAbsent => by rwa [List.getElem?_cons_succ]) fun hLast => by rw [hLast, List.length_cons]

/-- The pages before the end of a run are those of the runs up to it. -/
theorem exists_runEnd {page : Nat} {residency : List Residency}
    {front back : List (Nat × List Residency)} (hFront : front ≠ [])
    (h : presentRuns page residency = front ++ back) :
    ∃ e, RunEnd residency e ∧ gpuPagesOf front = (residency.take e).count .gpu := by
  induction residency generalizing page front with
  | nil => exact absurd (List.append_eq_nil_iff.mp h.symm).1 hFront
  | cons r rest ih =>
      rw [presentRuns] at h
      split at h
      · rename_i hAbsent
        obtain ⟨e, hEnd, hCount⟩ := ih hFront h
        refine ⟨e + 1, hEnd.succ r, ?_⟩
        rw [List.take_succ_cons, List.count_cons, hCount, hAbsent]
        rfl
      · rename_i hPresent
        obtain ⟨first, front, rfl⟩ := List.exists_cons_of_ne_nil hFront
        have hNext : ∀ r', rest[0]? = some r' → r' ≠ .absent →
            ∃ run more, presentRuns (page + 1) rest = (page + 1, run) :: more :=
          fun _ hFirst hNot => presentRuns_head (page + 1) hFirst hNot
        -- a run of one page, behind which no run starts
        have hSingle : (∀ run more, presentRuns (page + 1) rest ≠ (page + 1, run) :: more) →
            RunEnd (r :: rest) 1 := by
          intro hNone
          cases hRest : rest[0]? with
          | none =>
              right
              rw [List.getElem?_eq_none_iff, Nat.le_zero] at hRest
              rw [List.length_cons, hRest]
          | some r' =>
              left
              by_cases hr' : r' = .absent
              · rw [List.getElem?_cons_succ, hRest, hr']
              · obtain ⟨run, more, hHead⟩ := hNext r' hRest hr'
                exact absurd hHead (hNone run more)
        cases hRuns : presentRuns (page + 1) rest with
        | nil =>
            rw [hRuns, addPage, List.cons_append, List.cons.injEq] at h
            obtain ⟨rfl, hNil⟩ := h
            rw [(List.append_eq_nil_iff.mp hNil.symm).1]
            refine ⟨1, hSingle (fun run more hHead => ?_), by simp [gpuPagesOf]⟩
            rw [hRuns] at hHead
            cases hHead
        | cons head more =>
            obtain ⟨start, run⟩ := head
            rw [hRuns, addPage] at h
            split at h
            · rw [List.cons_append, List.cons.injEq] at h
              obtain ⟨rfl, rfl⟩ := h
              obtain ⟨e, hEnd, hCount⟩ := ih (List.cons_ne_nil (start, run) front) hRuns
              refine ⟨e + 1, hEnd.succ r, ?_⟩
              simp only [gpuPagesOf_cons, List.take_succ_cons, List.count_cons] at hCount ⊢
              omega
            · rename_i hApart
              rw [List.cons_append, List.cons.injEq] at h
              obtain ⟨rfl, hMore⟩ := h
              by_cases hNil : front = []
              · refine ⟨1, hSingle (fun run' more' hHead => ?_), by simp [hNil, gpuPagesOf]⟩
                rw [hRuns, List.cons.injEq, Prod.mk.injEq] at hHead
                exact hApart hHead.1.1
              · obtain ⟨e, hEnd, hCount⟩ := ih hNil (hRuns.trans hMore)
                refine ⟨e + 1, hEnd.succ r, ?_⟩
                simp only [gpuPagesOf_cons, List.take_succ_cons, List.count_cons, List.count_nil,
                  hCount]
                omega

/-- The walk succeeds when the entries end where runs end. -/
theorem fusedRegions_ne_none (base : Nat) {r : SpanRead}
    (h : ∀ e, RunEnd r.resmap e → Boundary CryptoMeta.size r.metas (r.gpuBefore e)) :
    fusedRegions base r ≠ none := by
  rw [fusedRegions, ← Option.isSome_iff_ne_none]
  apply sliceRuns_isSome
  intro front back hRuns
  by_cases hFront : front = []
  · rw [hFront]
    exact ⟨[], r.metas, rfl, by simp [gpuPagesOf]⟩
  · obtain ⟨e, hEnd, hCount⟩ := exists_runEnd hFront hRuns
    rw [hCount]
    exact h e hEnd

end FlashCkpt.Image
