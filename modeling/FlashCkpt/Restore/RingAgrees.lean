import FlashCkpt.Restore.RingSerial
import FlashCkpt.Restore.Starvation

/-! When the ring gives what the serial path gives: the chunks fit their slots, the bytes
to copy end with a transfer, and every transfer of the chunks that are copied opens. -/
namespace FlashCkpt.Restore

open ByteImage SizeCut Crypto Image Baseline

/-- The transfers of a range from the first byte of an allocation on. -/
def allocMetas (f : BaseFile) (d : RangeDesc) (e : AllocEntry) : List CryptoMeta :=
  (takeUpTo CryptoMeta.size (e.va - d.baseVa) 0 (rangeMetas f d)).2

section Allocation

variable {channel : Channel} {f : BaseFile} {d : RangeDesc} {e : AllocEntry}

theorem allocJobs_eq {chunkSize : Nat} {jobs : List ChunkJob}
    (hDesc : findDesc f.descs e.va e.size = some d) (h : allocJobs f chunkSize e = some jobs) :
    total CryptoMeta.size (takeUpTo CryptoMeta.size (e.va - d.baseVa) 0 (rangeMetas f d)).1 =
        e.va - d.baseVa ∧
      ∃ slices, cutChunks CryptoMeta.size chunkSize e.size 0 (allocMetas f d e) = some slices ∧
        jobs = toJobs (d.gpuOffset + (e.va - d.baseVa)) 0 slices := by
  rw [allocJobs, hDesc] at h
  obtain ⟨slices, hCut, rfl⟩ := Option.map_eq_some_iff.mp h
  rw [cutAlloc, Option.ite_none_left_eq_some, not_not] at hCut
  exact ⟨hCut.1, slices, hCut.2, rfl⟩

/-- The serial path succeeds if some bytes are asked for, they end with a transfer and the
transfers before that open. -/
theorem v3Slice_eq_some_iff {copySize : Nat} {plain : Bytes}
    (hStart : total CryptoMeta.size
      (takeUpTo CryptoMeta.size (e.va - d.baseVa) 0 (rangeMetas f d)).1 = e.va - d.baseVa) :
    v3Slice channel f d (e.va - d.baseVa) copySize = some plain ↔
      0 < copySize ∧ Boundary CryptoMeta.size (allocMetas f d e) copySize ∧
        (∀ t ∈ starts CryptoMeta.size 0 (takeUpTo CryptoMeta.size copySize 0 (allocMetas f d e)).1,
          Opens channel f.data (d.gpuOffset + (e.va - d.baseVa)) t) ∧
        plain = (starts CryptoMeta.size 0
          (takeUpTo CryptoMeta.size copySize 0 (allocMetas f d e)).1).flatMap
            (plainAt channel f.data (d.gpuOffset + (e.va - d.baseVa))) := by
  have hTotal := takeUpTo_total_iff CryptoMeta.size (allocMetas f d e) (Nat.zero_le copySize)
  rw [Nat.zero_add, Nat.sub_zero] at hTotal
  rw [v3Slice, ← hTotal]
  dsimp only
  rw [if_neg (not_not.mpr hStart), Option.ite_none_left_eq_some, not_not, ← allocMetas]
  generalize (takeUpTo CryptoMeta.size copySize 0 (allocMetas f d e)).1 = slice
  have hOpen := @decryptEncryptedPages_eq_some_iff channel f.data
    (d.gpuOffset + (e.va - d.baseVa)) 0 slice plain
  rw [Nat.add_zero] at hOpen
  constructor
  · rintro ⟨rfl, h⟩
    obtain ⟨hPos, hRest⟩ := hOpen.mp h
    exact ⟨hPos, rfl, hRest⟩
  · rintro ⟨hPos, rfl, hRest⟩
    exact ⟨rfl, hOpen.mpr ⟨hPos, hRest⟩⟩

/-- The chunks of the ring and the one call of the serial path open the same bytes. -/
theorem plainAt_take (hLength : KeepsLength channel) {data : ByteImage.Image} {base : Nat}
    {entries more : List CryptoMeta} {slices : List (List CryptoMeta)} {ckptSize newSize : Nat}
    (hEntries : entries = slices.flatten ++ more)
    (hReach : ckptSize ≤ total CryptoMeta.size slices.flatten)
    (hExact : ckptSize < newSize → total CryptoMeta.size slices.flatten = ckptSize)
    (hBoundary : Boundary CryptoMeta.size entries (min ckptSize newSize))
    (hOpens : ∀ t ∈ starts CryptoMeta.size 0
      (takeUpTo CryptoMeta.size (min ckptSize newSize) 0 entries).1, Opens channel data base t) :
    ((starts CryptoMeta.size 0 slices.flatten).flatMap (plainAt channel data base)).take newSize =
      (starts CryptoMeta.size 0 (takeUpTo CryptoMeta.size (min ckptSize newSize) 0 entries).1).flatMap
        (plainAt channel data base) := by
  have hTotal : 0 + total CryptoMeta.size
      (takeUpTo CryptoMeta.size (min ckptSize newSize) 0 entries).1 = min ckptSize newSize :=
    (takeUpTo_total_iff CryptoMeta.size entries (Nat.zero_le _)).mpr hBoundary
  have hEnough : min ckptSize newSize ≤ 0 + total CryptoMeta.size slices.flatten := by omega
  obtain ⟨left, hLeft⟩ := takeUpTo_prefix CryptoMeta.size more hEnough
  rw [← hEntries] at hLeft
  generalize (takeUpTo CryptoMeta.size (min ckptSize newSize) 0 entries).1 = slice
    at hOpens hTotal hLeft ⊢
  have hSize := flatMap_plainAt_length hLength hOpens
  have hLate := @flatMap_plainAt_le channel data base hLength (0 + total CryptoMeta.size slice) left
  rw [← hLeft, total_append] at hReach hExact
  rw [← hLeft, starts_append, List.flatMap_append]
  by_cases hLess : ckptSize < newSize
  · have hNone := hExact hLess
    rw [List.eq_nil_of_length_eq_zero (by omega : ((starts CryptoMeta.size
      (0 + total CryptoMeta.size slice) left).flatMap (plainAt channel data base)).length = 0),
      List.append_nil, List.take_of_length_le (by omega)]
  · rw [List.take_append_of_le_length (by omega), List.take_of_length_le (by omega)]

/-- The ring and the serial path agree on an allocation whose chunks fit. -/
theorem ringApply_agrees_iff (hLength : KeepsLength channel) {chunkSize newSize : Nat}
    {slices : List (List CryptoMeta)}
    (hStart : total CryptoMeta.size
      (takeUpTo CryptoMeta.size (e.va - d.baseVa) 0 (rangeMetas f d)).1 = e.va - d.baseVa)
    (hCut : cutChunks CryptoMeta.size chunkSize e.size 0 (allocMetas f d e) = some slices)
    (hFits : ∀ s ∈ slices, total CryptoMeta.size s ≤ chunkSize) :
    (∀ env : Env, (∀ k, env.h2dFault k = none) → ∀ buffer : Bytes, buffer.length = newSize →
      ringApply channel f env (toJobs (d.gpuOffset + (e.va - d.baseVa)) 0 slices) 0 0 buffer =
        finishH2D none buffer (v3Slice channel f d (e.va - d.baseVa) (min e.size newSize))) ↔
      0 < min e.size newSize ∧ Boundary CryptoMeta.size (allocMetas f d e) (min e.size newSize) ∧
        ∀ t ∈ starts CryptoMeta.size 0 (allocMetas f d e),
          t.1 < min e.size (roundUp newSize chunkSize) →
            Opens channel f.data (d.gpuOffset + (e.va - d.baseVa)) t := by
  obtain ⟨⟨more, hMore⟩, hPos, hReach⟩ := cutChunks_spec CryptoMeta.size chunkSize e.size hCut
  have hOpens : 0 < chunkSize → (OpensBefore channel f.data (d.gpuOffset + (e.va - d.baseVa)) newSize
      0 slices ↔ ∀ t ∈ starts CryptoMeta.size 0 (allocMetas f d e),
        t.1 < min e.size (roundUp newSize chunkSize) →
          Opens channel f.data (d.gpuOffset + (e.va - d.baseVa)) t) := fun hChunk => by
    have h := @opensBefore_iff channel f.data (d.gpuOffset + (e.va - d.baseVa)) newSize chunkSize e.size
      hChunk 0 (allocMetas f d e) slices (by rwa [Nat.zero_mul]) hFits
    rwa [Nat.zero_mul] at h
  constructor
  · intro hSame
    -- the serial path has succeeded, because the ring says so
    have hDone : (finishH2D none (List.replicate newSize 0)
        (v3Slice channel f d (e.va - d.baseVa) (min e.size newSize))).status = .restored := by
      rw [← hSame (junkAt 0 0) (fun _ => rfl) _ List.length_replicate]
      exact ringApply_restored (fun _ => rfl) _ _ _ _
    cases hPlain : v3Slice channel f d (e.va - d.baseVa) (min e.size newSize) with
    | none =>
        rw [hPlain] at hDone
        cases hDone
    | some plain =>
        obtain ⟨hSome, hBoundary, -⟩ := (v3Slice_eq_some_iff hStart).mp hPlain
        refine ⟨hSome, hBoundary, (hOpens (cutChunks_grid hCut (by omega))).mp ?_⟩
        by_contra hFails
        obtain ⟨place, hPlace, hJunk⟩ := ringApply_junk hPos hFails
        have hByte : ∀ x : UInt8, (finishH2D none (List.replicate newSize 0)
            (v3Slice channel f d (e.va - d.baseVa) (min e.size newSize))).buffer[place]? = some x := by
          intro x
          rw [← hSame (junkAt place x) (fun _ => rfl) _ List.length_replicate]
          exact hJunk x 0 _ List.length_replicate
        exact absurd ((hByte 0).symm.trans (hByte 1)) (by decide)
  · rintro ⟨hSome, hBoundary, hAll⟩ env hCopies buffer rfl
    have hChunk := cutChunks_grid hCut (by omega : 0 < e.size)
    have hFirst : ∀ t ∈ starts CryptoMeta.size 0
        (takeUpTo CryptoMeta.size (min e.size buffer.length) 0 (allocMetas f d e)).1,
          Opens channel f.data (d.gpuOffset + (e.va - d.baseVa)) t := by
      intro t ht
      have hPlace := @starts_takeUpTo_lt _ CryptoMeta.size (min e.size buffer.length) 0 (allocMetas f d e)
        _ rfl t 0 ht
      have hRound := @le_roundUp buffer.length chunkSize hChunk
      refine hAll t ?_ (by omega)
      rw [← takeUpTo_append CryptoMeta.size (min e.size buffer.length) 0 (allocMetas f d e),
        starts_append]
      exact List.mem_append_left _ ht
    rw [Nat.zero_add] at hReach
    have hTake := plainAt_take hLength hMore hReach (fun hLess => ?_) hBoundary hFirst
    · rw [ringApply_of_opens hCopies hLength hPos ((hOpens hChunk).mpr hAll), Nat.sub_zero, hTake,
        (v3Slice_eq_some_iff hStart).mpr ⟨hSome, hBoundary, hFirst, rfl⟩]
      rfl
    · rw [Nat.min_eq_left hLess.le] at hBoundary
      have hExact := cutChunks_exact CryptoMeta.size chunkSize e.size (Nat.zero_le _) hBoundary hCut
      rwa [Nat.zero_add] at hExact

end Allocation

section Agree

variable (gcm : Gcm) (channel : Channel) (s : State) (idx newSize : Nat)

/-- The ring does for the allocation of an index what the serial path would do, it reports
no allocation restored of which a transfer does not open, and its chunks fit their slots. -/
structure RingAgrees : Prop where
  fits : ∀ jobs, s.ring = some jobs → ∀ job ∈ jobs.flatten, job.byteSize ≤ s.chunkSize
  same : ∀ env : Env, (∀ k, env.h2dFault k = none) → ∀ buffer : Bytes, buffer.length = newSize →
    restoreApplyAlloc gcm channel env s idx buffer =
      restoreApplyAlloc gcm channel env { s with ring := none } idx buffer
  closed : route s idx newSize = .ring → ∀ (env : Env) (buffer : Bytes), buffer.length = newSize →
    (restoreApplyAlloc gcm channel env s idx buffer).status = .restored → ∀ e d,
      s.allocs[idx]? = some e → findDesc s.base.descs e.va e.size = some d →
        ∀ t ∈ starts CryptoMeta.size 0 (allocMetas s.base d e), t.1 < min e.size newSize →
          Opens channel s.base.data (d.gpuOffset + (e.va - d.baseVa)) t

/-- The transfers of the base image end with the chunks, those of the allocation also with
the bytes that are copied, and the transfers of the chunks that are copied open. -/
structure RingSafe : Prop where
  fits : s.ring ≠ none → ∀ e ∈ s.allocs, ∀ d, findDesc s.base.descs e.va e.size = some d →
    FitsFrom CryptoMeta.size s.chunkSize e.size 0 (allocMetas s.base d e)
  copied : route s idx newSize = .ring → ∀ e d, s.allocs[idx]? = some e →
    findDesc s.base.descs e.va e.size = some d →
      0 < min e.size newSize ∧
        Boundary CryptoMeta.size (allocMetas s.base d e) (min e.size newSize) ∧
          ∀ t ∈ starts CryptoMeta.size 0 (allocMetas s.base d e),
            t.1 < min e.size (roundUp newSize s.chunkSize) →
              Opens channel s.base.data (d.gpuOffset + (e.va - d.baseVa)) t

variable {gcm channel s idx newSize}

theorem toJobs_fits {base done : Nat} {slices : List (List CryptoMeta)} {bound : Nat} :
    (∀ job ∈ toJobs base done slices, job.byteSize ≤ bound) ↔
      ∀ s ∈ slices, total CryptoMeta.size s ≤ bound := by
  induction slices generalizing done with
  | nil => simp [toJobs]
  | cons slice rest ih => rw [toJobs, List.forall_mem_cons, List.forall_mem_cons, ih]

/-- The jobs of one allocation fit the slots. -/
theorem allocJobs_fits {f : BaseFile} {chunkSize : Nat} {e : AllocEntry} {jobs : List ChunkJob}
    (h : allocJobs f chunkSize e = some jobs) :
    (∀ job ∈ jobs, job.byteSize ≤ chunkSize) ↔
      ∀ d, findDesc f.descs e.va e.size = some d →
        FitsFrom CryptoMeta.size chunkSize e.size 0 (allocMetas f d e) := by
  cases hDesc : findDesc f.descs e.va e.size with
  | none =>
      rw [allocJobs, hDesc] at h
      cases h
      refine ⟨fun _ d hSome => ?_, fun _ job hJob => absurd hJob List.not_mem_nil⟩
      cases hSome
  | some d =>
      obtain ⟨-, slices, hCut, rfl⟩ := allocJobs_eq hDesc h
      have hThe : (∀ d', some d = some d' → FitsFrom CryptoMeta.size chunkSize e.size 0
          (allocMetas f d' e)) ↔ FitsFrom CryptoMeta.size chunkSize e.size 0 (allocMetas f d e) :=
        ⟨fun hAll => hAll d rfl, fun hHere d' hSame => Option.some.inj hSame ▸ hHere⟩
      rw [toJobs_fits, hThe]
      rcases Nat.eq_zero_or_pos e.size with hZero | hSome
      · rw [cutChunks_done hCut hZero.le]
        refine ⟨fun _ => ⟨fun i hi => ?_, 0, hZero.le, Nat.zero_le _, boundary_zero _⟩,
          fun _ job hJob => absurd hJob List.not_mem_nil⟩
        omega
      · have hIff := @cutChunks_fits _ CryptoMeta.size chunkSize e.size (cutChunks_grid hCut hSome) 0
          (allocMetas f d e) slices
        rw [Nat.zero_mul] at hIff
        exact hIff (Nat.zero_le _) hCut

theorem forall_mem_mapM {α β : Type} {F : α → Option β} {P : α → Prop} {Q : β → Prop} {l : List α}
    {results : List β} (h : l.mapM F = some results) (hSame : ∀ a b, F a = some b → (Q b ↔ P a)) :
    (∀ b ∈ results, Q b) ↔ ∀ a ∈ l, P a := by
  induction l generalizing results with
  | nil =>
      cases h
      exact ⟨fun _ => nofun, fun _ => nofun⟩
  | cons first rest ih =>
      rw [List.mapM_cons] at h
      simp only [Option.bind_eq_bind, Option.bind_eq_some_iff, Option.pure_def,
        Option.some.injEq] at h
      obtain ⟨b, hFirst, others, hOthers, rfl⟩ := h
      rw [List.forall_mem_cons, List.forall_mem_cons, hSame first b hFirst, ih hOthers]

theorem tryApplyStatic_ring (env : Env) (img : BaseFile) (e : AllocEntry) (copySize : Nat)
    (buffer : Bytes) (ring : Option (List (List ChunkJob))) :
    tryApplyStatic gcm channel env { s with ring := ring } img e copySize buffer =
      tryApplyStatic gcm channel env s img e copySize buffer := rfl

/-- What the two ways do with an allocation for which the ring is used. -/
theorem restoreApplyAlloc_ring (h : route s idx newSize = .ring) :
    ∃ e d jobs, s.allocs[idx]? = some e ∧ findDesc s.base.descs e.va e.size = some d ∧
      s.ring = some jobs ∧ ∀ (env : Env) (buffer : Bytes), buffer.length = newSize →
        restoreApplyAlloc gcm channel env s idx buffer =
            (if jobs.flatten.any fun job => s.chunkSize < job.byteSize then ⟨.overrun, buffer⟩
            else ringApply channel s.base env (jobs.getD idx []) 0 0 buffer) ∧
          restoreApplyAlloc gcm channel env { s with ring := none } idx buffer =
            finishH2D (env.h2dFault 0) buffer
              (baseStaging gcm channel s.key s.base d (e.va - d.baseVa) (min e.size newSize)) := by
  unfold route at h
  cases hEntry : s.allocs[idx]? with
  | none =>
      rw [hEntry] at h
      cases h
  | some e =>
      rw [hEntry] at h
      dsimp only at h
      split at h
      · cases h
      rename_i hStatic
      cases hDesc : findDesc s.base.descs e.va e.size with
      | none =>
          rw [hDesc] at h
          cases h
      | some d =>
          rw [hDesc] at h
          dsimp only at h
          split at h
          · cases h
          rename_i hInside
          split at h
          · rename_i hBoth
            rw [Bool.and_eq_true, Option.isSome_iff_exists, Option.isNone_iff_eq_none] at hBoth
            obtain ⟨⟨jobs, hRing⟩, hDelta⟩ := hBoth
            refine ⟨e, d, jobs, rfl, hDesc, hRing, fun env buffer hLength => ?_⟩
            have hNone : (s.staticImg.bind fun img => tryApplyStatic gcm channel env s img e
                (min e.size buffer.length) buffer) = none := by
              rw [← Option.isNone_iff_eq_none, ← Option.not_isSome, Bool.not_eq_true', ← Bool.not_eq_true,
                applyStatic_isSome]
              exact hStatic
            subst hLength
            constructor
            · rw [restoreApplyAlloc, hEntry]
              dsimp only
              rw [hNone, hDesc]
              dsimp only
              rw [if_neg hInside, hRing, hDelta]
            · rw [restoreApplyAlloc]
              dsimp only
              rw [hEntry]
              dsimp only
              simp only [tryApplyStatic_ring]
              rw [hNone, hDesc]
              dsimp only
              rw [if_neg hInside, hDelta]
              exact congrArg (finishH2D _ buffer) (Option.bind_fun_some _)
          · cases h

theorem restoreApplyAlloc_notRing (h : route s idx newSize ≠ .ring) (env : Env) {buffer : Bytes}
    (hLength : buffer.length = newSize) :
    restoreApplyAlloc gcm channel env s idx buffer =
      restoreApplyAlloc gcm channel env { s with ring := none } idx buffer := by
  subst hLength
  unfold route at h
  unfold restoreApplyAlloc
  simp only [tryApplyStatic_ring]
  cases hEntry : s.allocs[idx]? with
  | none => rfl
  | some e =>
      rw [hEntry] at h
      dsimp only at h ⊢
      rw [← applyStatic_isSome gcm channel env s e (min e.size buffer.length) buffer] at h
      cases hStatic : s.staticImg.bind fun img =>
          tryApplyStatic gcm channel env s img e (min e.size buffer.length) buffer with
      | some applied => rfl
      | none =>
          rw [hStatic, Option.isSome_none, if_neg Bool.false_ne_true] at h
          cases hDesc : findDesc s.base.descs e.va e.size with
          | none => rfl
          | some d =>
              rw [hDesc] at h
              dsimp only at h ⊢
              by_cases hOut : s.base.size < d.gpuOffset + (e.va - d.baseVa) + min e.size buffer.length
              · rw [if_pos hOut, if_pos hOut]
              · rw [if_neg hOut] at h
                rw [if_neg hOut, if_neg hOut]
                cases hRing : s.ring with
                | none => rfl
                | some jobs =>
                    cases hDelta : s.delta with
                    | some delta => rfl
                    | none =>
                        rw [hRing, hDelta] at h
                        exact absurd rfl h

variable {allocs : List AllocEntry} {base : BaseFile} {key : Option Bytes} {delta : DeltaFile}
  {staticImg : Option BaseFile} {deviceOk slotsOk : Bool} {chunkSize : Nat}

theorem ring_fits_iff
    (hInit : restoreInit allocs base key delta staticImg deviceOk chunkSize slotsOk = some s) :
    (∀ jobs, s.ring = some jobs → ∀ job ∈ jobs.flatten, job.byteSize ≤ s.chunkSize) ↔
      (s.ring ≠ none → ∀ e ∈ s.allocs, ∀ d, findDesc s.base.descs e.va e.size = some d →
        FitsFrom CryptoMeta.size s.chunkSize e.size 0 (allocMetas s.base d e)) := by
  cases hRing : s.ring with
  | none => exact ⟨fun _ hSome => absurd rfl hSome, fun _ _ => nofun⟩
  | some jobs =>
      have hFits : (∀ job ∈ jobs.flatten, job.byteSize ≤ s.chunkSize) ↔
          ∀ e ∈ s.allocs, ∀ d, findDesc s.base.descs e.va e.size = some d →
            FitsFrom CryptoMeta.size s.chunkSize e.size 0 (allocMetas s.base d e) := by
        rw [List.forall_mem_flatten]
        exact forall_mem_mapM (restoreInit_ring hInit hRing).2 fun e jobs hJobs => allocJobs_fits hJobs
      constructor
      · exact fun hAll _ => hFits.mp (hAll jobs rfl)
      · rintro hAll _ ⟨⟩
        exact hFits.mpr (hAll (Option.some_ne_none jobs))

theorem ring_same_iff
    (hInit : restoreInit allocs base key delta staticImg deviceOk chunkSize slotsOk = some s)
    (hLength : KeepsLength channel) (hRoute : route s idx newSize = .ring)
    (hSlots : ∀ jobs, s.ring = some jobs → ∀ job ∈ jobs.flatten, job.byteSize ≤ s.chunkSize) :
    (∀ env : Env, (∀ k, env.h2dFault k = none) → ∀ buffer : Bytes, buffer.length = newSize →
      restoreApplyAlloc gcm channel env s idx buffer =
        restoreApplyAlloc gcm channel env { s with ring := none } idx buffer) ↔
      ∀ e d, s.allocs[idx]? = some e → findDesc s.base.descs e.va e.size = some d →
        0 < min e.size newSize ∧
          Boundary CryptoMeta.size (allocMetas s.base d e) (min e.size newSize) ∧
            ∀ t ∈ starts CryptoMeta.size 0 (allocMetas s.base d e),
              t.1 < min e.size (roundUp newSize s.chunkSize) →
                Opens channel s.base.data (d.gpuOffset + (e.va - d.baseVa)) t := by
  obtain ⟨e, d, jobs, hEntry, hDesc, hRing, hWays⟩ :=
    @restoreApplyAlloc_ring gcm channel s idx newSize hRoute
  obtain ⟨hVersion, hPlan⟩ := restoreInit_ring hInit hRing
  obtain ⟨mine, hMine, hGet⟩ := mapM_getElem? hPlan hEntry
  obtain ⟨hStart, slices, hCut, rfl⟩ := allocJobs_eq hDesc hMine
  have hSlices : ∀ slice ∈ slices, total CryptoMeta.size slice ≤ s.chunkSize :=
    toJobs_fits.mp fun job hJob => hSlots jobs hRing job
      (List.mem_flatten_of_mem (List.mem_of_getElem? hGet) hJob)
  have hSame : ∀ (env : Env), (∀ k, env.h2dFault k = none) → ∀ buffer : Bytes,
      buffer.length = newSize →
        (restoreApplyAlloc gcm channel env s idx buffer =
            restoreApplyAlloc gcm channel env { s with ring := none } idx buffer ↔
          ringApply channel s.base env (toJobs (d.gpuOffset + (e.va - d.baseVa)) 0 slices) 0 0 buffer =
            finishH2D none buffer
              (v3Slice channel s.base d (e.va - d.baseVa) (min e.size newSize))) := by
    intro env hCopies buffer hBuffer
    have hNone : (jobs.flatten.any fun job => s.chunkSize < job.byteSize) = false := by
      rw [List.any_eq_false]
      intro job hJob
      rw [decide_eq_true_eq]
      exact Nat.not_lt.mpr (hSlots jobs hRing job hJob)
    rw [(hWays env buffer hBuffer).1, (hWays env buffer hBuffer).2, hNone, if_neg Bool.false_ne_true,
      List.getD_eq_getElem?_getD, hGet, Option.getD_some, hCopies, baseStaging, if_pos hVersion]
  have hIff := @ringApply_agrees_iff channel s.base d e hLength s.chunkSize newSize slices hStart hCut
    hSlices
  constructor
  · intro hAll e' d' hEntry' hDesc'
    cases hEntry.symm.trans hEntry'
    cases hDesc.symm.trans hDesc'
    exact hIff.mp fun env hCopies buffer hBuffer =>
      (hSame env hCopies buffer hBuffer).mp (hAll env hCopies buffer hBuffer)
  · intro hAll env hCopies buffer hBuffer
    exact (hSame env hCopies buffer hBuffer).mpr
      (hIff.mpr (hAll e d hEntry hDesc) env hCopies buffer hBuffer)

/-- An entry with jobs has them cut on a grid of some size. -/
theorem chunk_pos_of_route
    (hInit : restoreInit allocs base key delta staticImg deviceOk chunkSize slotsOk = some s)
    (hRoute : route s idx newSize = .ring) {e : AllocEntry} {d : RangeDesc}
    (hEntry : s.allocs[idx]? = some e) (hDesc : findDesc s.base.descs e.va e.size = some d)
    (hSome : 0 < e.size) : 0 < s.chunkSize := by
  obtain ⟨-, -, jobs, -, -, hRing, -⟩ := @restoreApplyAlloc_ring Gcm.clear Channel.clear s idx newSize hRoute
  obtain ⟨mine, hMine, -⟩ := mapM_getElem? (restoreInit_ring hInit hRing).2 hEntry
  obtain ⟨-, slices, hCut, -⟩ := allocJobs_eq hDesc hMine
  exact cutChunks_grid hCut hSome

/-- The ring and the serial path agree and fail closed exactly when the transfers end where
the chunks and the copy do, and open. -/
theorem ringAgrees_iff
    (hInit : restoreInit allocs base key delta staticImg deviceOk chunkSize slotsOk = some s)
    (hLength : KeepsLength channel) :
    RingAgrees gcm channel s idx newSize ↔ RingSafe channel s idx newSize := by
  constructor
  · rintro ⟨hSlots, hSame, -⟩
    exact ⟨(ring_fits_iff hInit).mp hSlots,
      fun hRoute => (ring_same_iff hInit hLength hRoute hSlots).mp hSame⟩
  · rintro ⟨hEnds, hOpens⟩
    have hSlots := (ring_fits_iff hInit).mpr hEnds
    refine ⟨hSlots, ?_, fun hRoute env buffer _ _ e d hEntry hDesc t ht hLess => ?_⟩
    · intro env hCopies buffer hBuffer
      by_cases hRoute : route s idx newSize = .ring
      · exact (ring_same_iff hInit hLength hRoute hSlots).mpr (hOpens hRoute) env hCopies buffer hBuffer
      · exact restoreApplyAlloc_notRing hRoute env hBuffer
    · have hRound := @le_roundUp newSize s.chunkSize
        (chunk_pos_of_route hInit hRoute hEntry hDesc (by omega))
      exact (hOpens hRoute e d hEntry hDesc).2.2 t ht (by omega)

theorem keepsLength_clear : KeepsLength Channel.clear := by
  intro entry cipher plain h
  rw [Channel.clear, Option.ite_none_right_eq_some] at h
  rw [← Option.some.inj h.2]

end Agree

theorem opens_bigMeta {off : Nat} {n : Nat} {base : Nat} :
    ∀ t ∈ starts CryptoMeta.size off (List.replicate n bigMeta),
      Opens Channel.clear (bigFile 4).data base t := by
  induction n generalizing off with
  | zero => exact fun _ => nofun
  | succ n ih =>
      rw [List.replicate_succ, starts, List.forall_mem_cons]
      have hPos : 0 < bigMeta.size := by decide
      have hFits : bigMeta.size ≤ dmaBufferSize := by decide
      have hTag : bigMeta.authTag = List.replicate 16 0 := rfl
      refine ⟨⟨hPos, hFits, ?_⟩, ih⟩
      dsimp only [Channel.clear]
      rw [if_pos hTag]
      rfl

theorem ringAgrees_bigState : RingAgrees Gcm.clear Channel.clear (bigState none) 0 mib := by
  have hInit := restoreInit_big none
  refine (ringAgrees_iff hInit keepsLength_clear).mpr ⟨(ring_fits_iff hInit).mp ?_, ?_⟩
  · rintro _ ⟨⟩
    decide
  · intro _ e d hEntry hDesc
    cases hEntry
    cases (show findDesc (bigFile 4).descs firstAlloc.va firstAlloc.size = some (bigRange 4) by
      decide).symm.trans hDesc
    have hMetas : allocMetas (bigState none).base (bigRange 4) firstAlloc = List.replicate 4 bigMeta := by
      change (takeUpTo CryptoMeta.size 0 0 (rangeMetas (bigFile 4) (bigRange 4))).2 = _
      rw [rangeMetas_bigFile]
      rfl
    rw [hMetas]
    exact ⟨by decide, ⟨[bigMeta], List.replicate 3 bigMeta, rfl, rfl⟩, fun t ht _ => opens_bigMeta t ht⟩

/-- One page, whose tag is not that of its transfer. -/
def tamperedRange : RangeDesc where
  baseVa := 0x7f0000000000
  length := pageSize
  numPages := 1
  dataOffset := dataStart 1
  resmapSize := 1
  cpuBytes := 0
  gpuBytes := pageSize
  cryptoMetaBytes := cryptoMetaSize

def tamperedFile : BaseFile where
  version := 3
  descs := [tamperedRange]
  data := fun i =>
    if i < tamperedRange.gpuOffset then 1
    else if i < tamperedRange.metaOffset then 0
    else if i - tamperedRange.metaOffset = 1 then 0x10
    else if i - tamperedRange.metaOffset = 21 then 1
    else 0
  size := tamperedRange.stop

def tamperedMeta : CryptoMeta := ⟨pageSize, List.replicate 12 0, 0, 1 :: List.replicate 15 0, 0⟩

def pageAlloc : AllocEntry := ⟨0x7f0000000000, pageSize, false, heapBase_lt, by decide⟩

def tamperedState : State where
  allocs := [pageAlloc]
  base := tamperedFile
  key := []
  delta := none
  staticImg := none
  chunkSize := mib
  ring := some [[⟨0, pageSize, tamperedRange.gpuOffset, [tamperedMeta]⟩]]

theorem rangeMetas_tampered : rangeMetas tamperedFile tamperedRange = [tamperedMeta] := by
  decide +kernel

theorem restoreInit_tampered :
    restoreInit [pageAlloc] tamperedFile none ⟨0, 0, [], fun _ => 0, 0⟩ none true mib true =
      some tamperedState := by
  have hDesc : findDesc tamperedFile.descs pageAlloc.va pageAlloc.size = some tamperedRange := by
    decide
  have hJobs : [pageAlloc].mapM (allocJobs tamperedFile mib) =
      some [[⟨0, pageSize, tamperedRange.gpuOffset, [tamperedMeta]⟩]] := by
    simp only [List.mapM_cons, List.mapM_nil, allocJobs, hDesc, rangeMetas_tampered]
    simp [cutAlloc, cutChunks, takeUpTo, tamperedMeta, total, toJobs, mib, tamperedRange, pageAlloc,
      pageSize]
  have hPool : poolInit tamperedFile [pageAlloc] mib true =
      some [[⟨0, pageSize, tamperedRange.gpuOffset, [tamperedMeta]⟩]] := by
    rw [poolInit, hJobs]
    rfl
  rw [restoreInit, hPool]
  rfl

/-- The ring reports a page restored whose authentication fails, with what its slot held
before, while the serial path stops. -/
theorem not_ringAgrees_tampered :
    restoreInit [pageAlloc] tamperedFile none ⟨0, 0, [], fun _ => 0, 0⟩ none true mib true =
        some tamperedState ∧
      (restoreApplyAlloc Gcm.clear Channel.clear (junkAt 0 7) tamperedState 0
        (List.replicate pageSize 0)).status = .restored ∧
      (restoreApplyAlloc Gcm.clear Channel.clear (junkAt 0 7) { tamperedState with ring := none } 0
        (List.replicate pageSize 0)).status = .failed ∧
      ¬RingAgrees Gcm.clear Channel.clear tamperedState 0 pageSize := by
  have hRoute : route tamperedState 0 pageSize = .ring := by decide
  obtain ⟨e, d, jobs, hEntry, hDesc, hRing, hWays⟩ :=
    @restoreApplyAlloc_ring Gcm.clear Channel.clear tamperedState 0 pageSize hRoute
  obtain ⟨hChunks, hSerial⟩ := hWays (junkAt 0 7) (List.replicate pageSize 0) List.length_replicate
  cases hEntry
  cases hRing
  cases (show findDesc tamperedFile.descs pageAlloc.va pageAlloc.size = some tamperedRange by
    decide).symm.trans hDesc
  have hFails : baseStaging Gcm.clear Channel.clear [] tamperedFile tamperedRange 0 pageSize = none := by
    have hVersion : tamperedFile.version = 3 := rfl
    rw [baseStaging, if_pos hVersion, v3Slice, rangeMetas_tampered]
    rfl
  have hOk : (restoreApplyAlloc Gcm.clear Channel.clear (junkAt 0 7) tamperedState 0
      (List.replicate pageSize 0)).status = .restored := by
    rw [hChunks, if_neg (by decide)]
    exact ringApply_restored (fun _ => rfl) _ _ _ _
  have hStop : (restoreApplyAlloc Gcm.clear Channel.clear (junkAt 0 7)
      { tamperedState with ring := none } 0 (List.replicate pageSize 0)).status = .failed := by
    rw [hSerial]
    exact congrArg (fun plain => (finishH2D none (List.replicate pageSize 0) plain).status) hFails
  refine ⟨restoreInit_tampered, hOk, hStop, fun h => ?_⟩
  rw [h.same (junkAt 0 7) (fun _ => rfl) _ List.length_replicate, hStop] at hOk
  cases hOk

end FlashCkpt.Restore
