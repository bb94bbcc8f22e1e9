import FlashCkpt.Restore.ResidencyMap
import FlashCkpt.Restore.RingProgress

/-! The allocation calls of a restored application, with the decryption pool beside
them. The jobs are planned once for the whole table of the snapshot, from the
descriptors of the base image; which of them a call consumes is decided in
`restore_apply_alloc`. -/
namespace FlashCkpt.Restore

open ByteImage SizeCut Crypto Image Baseline TicketRing Transition

/-- Where `restore_apply_alloc` goes with the allocation of an index. -/
inductive Route where
  | pastSnapshot
  | staticImage
  | noDescriptor
  | outOfBounds
  | ring
  | serial
  deriving DecidableEq, Repr

def route (s : State) (idx newSize : Nat) : Route :=
  match s.allocs[idx]? with
  | none => .pastSnapshot
  | some e =>
      if (s.staticImg.bind fun img => findDesc img.descs e.va e.size).isSome then .staticImage
      else
        match findDesc s.base.descs e.va e.size with
        | none => .noDescriptor
        | some d =>
            if s.base.size < d.gpuOffset + (e.va - d.baseVa) + min e.size newSize then .outOfBounds
            else if s.ring.isSome && s.delta.isNone then .ring else .serial

theorem applyStatic_isSome (gcm : Gcm) (channel : Channel) (env : Env) (s : State) (e : AllocEntry)
    (copySize : Nat) (buffer : Bytes) :
    (s.staticImg.bind fun img => tryApplyStatic gcm channel env s img e copySize buffer).isSome =
      (s.staticImg.bind fun img => findDesc img.descs e.va e.size).isSome := by
  cases s.staticImg with
  | none => rfl
  | some img => rw [Option.bind_some, Option.bind_some, tryApplyStatic, Option.isSome_map]

/-- The calls that leave early return 0 and touch nothing, and the ring is reached by its
own route only. -/
theorem restoreApplyAlloc_route (gcm : Gcm) (channel : Channel) (env : Env) (s : State) (idx : Nat)
    (buffer : Bytes) :
    match route s idx buffer.length with
    | .pastSnapshot | .noDescriptor | .outOfBounds =>
        restoreApplyAlloc gcm channel env s idx buffer = ⟨.passthrough, buffer⟩
    | .staticImage => ∃ e, s.allocs[idx]? = some e ∧
        (s.staticImg.bind fun img => tryApplyStatic gcm channel env s img e
          (min e.size buffer.length) buffer) =
            some (restoreApplyAlloc gcm channel env s idx buffer)
    | .ring => ∃ jobs, s.ring = some jobs ∧ restoreApplyAlloc gcm channel env s idx buffer =
        if jobs.flatten.any fun job => s.chunkSize < job.byteSize then ⟨.overrun, buffer⟩
        else ringApply channel s.base env (jobs.getD idx []) 0 0 buffer
    | .serial => s.ring = none ∨ s.delta ≠ none := by
  unfold route restoreApplyAlloc
  cases hEntry : s.allocs[idx]? with
  | none => rfl
  | some e =>
      dsimp only
      rw [← applyStatic_isSome gcm channel env s e (min e.size buffer.length) buffer]
      cases hStatic : s.staticImg.bind fun img =>
          tryApplyStatic gcm channel env s img e (min e.size buffer.length) buffer with
      | some applied => exact ⟨e, rfl, hStatic⟩
      | none =>
          rw [Option.isSome_none, if_neg Bool.false_ne_true]
          cases hDesc : findDesc s.base.descs e.va e.size with
          | none => rfl
          | some d =>
              dsimp only
              by_cases hOut : s.base.size < d.gpuOffset + (e.va - d.baseVa) + min e.size buffer.length
              · rw [if_pos hOut, if_pos hOut]
              · rw [if_neg hOut, if_neg hOut]
                cases hRing : s.ring with
                | none => exact .inl rfl
                | some jobs =>
                    cases hDelta : s.delta with
                    | none => exact ⟨jobs, rfl, rfl⟩
                    | some delta => exact .inr (Option.some_ne_none delta)

/-- What is fixed when the application makes its first call: the state `restore_init`
has left, and the pool over its jobs. -/
structure Replay where
  state : State
  plan : RingPlan
  started : ∃ allocs base key delta staticImg deviceOk chunkSize slotsOk,
    restoreInit allocs base key delta staticImg deviceOk chunkSize slotsOk = some state
  ring : state.ring = some plan.allocs
  chunk : plan.chunkSize = state.chunkSize

/-- The pool, the number of calls of `restore_apply_alloc` so far, and whether one of
them has failed, upon which the hook aborts the process. -/
structure Replaying where
  pool : Pool
  calls : Nat
  aborted : Bool

/-- A call of `restore_apply_alloc`, with the success of the parts of it which are not the
ring, or a turn of a thread. -/
inductive ReplayLabel where
  | call (ok : Bool)
  | thread (label : RingLabel)

/-- The turns of the workers, and of the calls that are in the loop over the ring. -/
def RingLabel.running : RingLabel → Bool
  | .consumer _ .enter | .stop | .broadcast _ => false
  | _ => true

/-- The call with an index reaches the loop over its jobs. -/
def Pool.enter (pool : Pool) (idx : Nat) : Pool :=
  { pool with consumers := pool.consumers.set idx ⟨0, 0, .wait false⟩ }

namespace Replay

variable (r : Replay)

/-- The route of the call with an index. -/
def routeOf (idx : Nat) : Route := route r.state idx (r.plan.newSize idx)

/-- `g_restore_alloc_idx` has 32 bits. -/
def step (s : Replaying) : ReplayLabel → Option Replaying
  | .call ok =>
      if s.aborted then none
      else
        let idx := s.calls % 2 ^ 32
        match r.routeOf idx with
        | .ring => some { s with pool := s.pool.enter idx, calls := s.calls + 1 }
        | .staticImage | .serial => some { s with calls := s.calls + 1, aborted := !ok }
        | .pastSnapshot | .noDescriptor | .outOfBounds => some { s with calls := s.calls + 1 }
  | .thread label =>
      if s.aborted || !label.running then none
      else (s.pool.step r.plan label).map fun pool =>
        { s with pool := pool, aborted := pool.consumers.any fun x => x.stage = .failed }

def start : Replaying := ⟨Pool.start r.plan, 0, false⟩

/-- The call with the index has returned. -/
def Returned (s : Replaying) (idx : Nat) : Prop :=
  idx < s.calls ∧ (r.routeOf idx = .ring → ∃ x, s.pool.consumers[idx]? = some x ∧
    (x.stage = .done ∨ x.stage = .failed))

end Replay

/-- Turns that do not fail, and no further call. -/
def ReplayLabel.Smooth : ReplayLabel → Prop
  | .call _ => False
  | .thread label => label.Smooth

/-- A call that has returned has consumed the jobs of its allocation, and every call made
can return, as long as the process lives. -/
structure Unstarved (r : Replay) (s : Replaying) : Prop where
  consumed : ∀ idx, r.Returned s idx → ∀ k < r.plan.nJobs idx,
    r.plan.firstJob idx + k ∈ s.pool.shared.consumed
  unblocked : s.aborted = false → ∀ idx < s.calls,
    CanReach r.step ReplayLabel.Smooth s (r.Returned · idx)

/-- What the base image covers of the allocation is fetched from there: the static image
does not cover it as well, its bytes lie within the file, and there is no v4 delta. -/
def FromBase (s : State) (idx newSize : Nat) : Prop :=
  ∀ e d, s.allocs[idx]? = some e → 0 < e.size → findDesc s.base.descs e.va e.size = some d →
    (∀ img, s.staticImg = some img → findDesc img.descs e.va e.size = none) ∧
      d.gpuOffset + (e.va - d.baseVa) + min e.size newSize ≤ s.base.size ∧ s.delta = none

/-- The counter has not come back to zero, the allocation is fetched from the base image if
that covers it, and copies to the device do not fail. -/
def Replay.Ok (r : Replay) (s : Replaying) : ReplayLabel → Prop
  | .call _ => s.calls < 2 ^ 32 ∧ FromBase r.state s.calls (r.plan.newSize s.calls)
  | .thread label => label.Copies

section Plan

theorem mapM_length {α β : Type} {F : α → Option β} {l : List α} {results : List β}
    (h : l.mapM F = some results) : results.length = l.length := by
  induction l generalizing results with
  | nil =>
      cases h
      rfl
  | cons first rest ih =>
      rw [List.mapM_cons] at h
      simp only [Option.bind_eq_bind, Option.bind_eq_some_iff, Option.pure_def,
        Option.some.injEq] at h
      obtain ⟨b, -, others, hOthers, rfl⟩ := h
      rw [List.length_cons, List.length_cons, ih hOthers]

variable {r : Replay}

/-- The ring is used for a v3 image, with the jobs of the table and the base image. -/
theorem restoreInit_ring {allocs : List AllocEntry} {base : BaseFile} {key : Option Bytes}
    {delta : DeltaFile} {staticImg : Option BaseFile} {deviceOk slotsOk : Bool} {chunkSize : Nat}
    {s : State} {jobs : List (List ChunkJob)}
    (h : restoreInit allocs base key delta staticImg deviceOk chunkSize slotsOk = some s)
    (hRing : s.ring = some jobs) :
    s.base.version = 3 ∧ s.allocs.mapM (allocJobs s.base s.chunkSize) = some jobs := by
  unfold restoreInit at h
  split at h
  · cases h
  split at h
  · cases h
  split at h
  · cases h
  rw [Option.some.injEq] at h
  rw [← h] at hRing ⊢
  dsimp only at hRing ⊢
  split at hRing
  · rename_i hVersion
    refine ⟨hVersion, ?_⟩
    rw [poolInit] at hRing
    cases hJobs : allocs.mapM (allocJobs base chunkSize) with
    | none =>
        rw [hJobs] at hRing
        cases hRing
    | some found =>
        rw [hJobs] at hRing
        dsimp only at hRing
        split at hRing
        · cases hRing
        · exact hRing
  · cases hRing

theorem Replay.jobs_eq (r : Replay) :
    r.state.allocs.mapM (allocJobs r.state.base r.state.chunkSize) = some r.plan.allocs := by
  obtain ⟨allocs, base, key, delta, staticImg, deviceOk, chunkSize, slotsOk, hInit⟩ := r.started
  exact (restoreInit_ring hInit r.ring).2

/-- An allocation has jobs only if the base image covers a part of it. -/
theorem allocJobs_of_ne_nil {f : BaseFile} {chunkSize : Nat} {e : AllocEntry} {jobs : List ChunkJob}
    (h : allocJobs f chunkSize e = some jobs) (hJobs : jobs ≠ []) :
    0 < e.size ∧ ∃ d, findDesc f.descs e.va e.size = some d := by
  rw [allocJobs] at h
  cases hDesc : findDesc f.descs e.va e.size with
  | none =>
      rw [hDesc] at h
      exact absurd (Option.some.inj h).symm hJobs
  | some d =>
      rw [hDesc] at h
      refine ⟨Nat.pos_of_ne_zero fun hZero => hJobs ?_, d, rfl⟩
      obtain ⟨slices, hCut, rfl⟩ := Option.map_eq_some_iff.mp h
      rw [cutAlloc, hZero] at hCut
      dsimp only at hCut
      split at hCut
      · cases hCut
      · rw [cutChunks, if_neg (Nat.lt_irrefl 0)] at hCut
        cases hCut
        rfl

theorem Replay.entry_of_jobs {idx : Nat} (h : r.plan.nJobs idx ≠ 0) :
    ∃ e d, r.state.allocs[idx]? = some e ∧ 0 < e.size ∧
      findDesc r.state.base.descs e.va e.size = some d := by
  have hLess : idx < r.state.allocs.length := by
    rw [← mapM_length r.jobs_eq]
    by_contra hOut
    rw [RingPlan.nJobs, List.getD_eq_default _ _ (not_lt.mp hOut)] at h
    exact h rfl
  have hEntry := List.getElem?_eq_getElem hLess
  obtain ⟨jobs, hJobs, hGet⟩ := mapM_getElem? r.jobs_eq hEntry
  rw [RingPlan.nJobs, List.getD_eq_getElem?_getD, hGet, Option.getD_some] at h
  obtain ⟨hPos, d, hDesc⟩ := allocJobs_of_ne_nil hJobs fun hNil => h (by rw [hNil]; rfl)
  exact ⟨_, d, hEntry, hPos, hDesc⟩

/-- A call with jobs takes the ring exactly if the allocation is fetched from the base
image. -/
theorem Replay.route_ring_iff {idx : Nat} (h : r.plan.nJobs idx ≠ 0) :
    r.routeOf idx = .ring ↔ FromBase r.state idx (r.plan.newSize idx) := by
  obtain ⟨e, d, hEntry, hPos, hDesc⟩ := r.entry_of_jobs h
  have hRing : r.state.ring.isSome = true := by
    rw [r.ring]
    rfl
  have hOnly : FromBase r.state idx (r.plan.newSize idx) ↔
      (r.state.staticImg.bind fun img => findDesc img.descs e.va e.size).isSome = false ∧
        ¬r.state.base.size < d.gpuOffset + (e.va - d.baseVa) + min e.size (r.plan.newSize idx) ∧
          r.state.delta.isNone = true := by
    constructor
    · intro hFrom
      obtain ⟨hStatic, hInside, hDelta⟩ := hFrom e d hEntry hPos hDesc
      refine ⟨?_, not_lt.mpr hInside, Option.isNone_iff_eq_none.mpr hDelta⟩
      cases hImg : r.state.staticImg with
      | none => rfl
      | some img => rw [Option.bind_some, hStatic img hImg, Option.isSome_none]
    · rintro ⟨hStatic, hInside, hDelta⟩ e' d' hEntry' - hDesc'
      cases hEntry.symm.trans hEntry'
      cases hDesc.symm.trans hDesc'
      refine ⟨fun img hImg => ?_, not_lt.mp hInside, Option.isNone_iff_eq_none.mp hDelta⟩
      rw [hImg, Option.bind_some] at hStatic
      exact Option.isSome_eq_false_iff.mp hStatic |> Option.isNone_iff_eq_none.mp
  rw [hOnly, Replay.routeOf, route, hEntry]
  dsimp only
  cases (r.state.staticImg.bind fun img => findDesc img.descs e.va e.size).isSome with
  | true => simp
  | false =>
      rw [if_neg Bool.false_ne_true, hDesc]
      dsimp only
      by_cases hOut : r.state.base.size < d.gpuOffset + (e.va - d.baseVa) +
          min e.size (r.plan.newSize idx)
      · simp [hOut]
      · rw [if_neg hOut, hRing, Bool.true_and]
        cases r.state.delta.isNone <;> simp [hOut]

end Plan

end FlashCkpt.Restore
