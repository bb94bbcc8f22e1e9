import FlashCkpt.Engine.PrefixCache

/-! The invariant of vLLM's block pool through `restore_patch`: a block is free
when no request holds it, its reference count is the number of its holders, and
the prefix cache has it under the hash that it carries. -/
namespace FlashCkpt.Engine

open OrderedDict

variable {Status Params : Type}

/-- The number of requests that hold a block. -/
def holders (held : Dict String (List Nat)) (id : Nat) : Nat :=
  held.entries.countP fun e => decide (id ∈ e.2)

structure BlockPool.Consistent (p : BlockPool) (held : Dict String (List Nat)) : Prop where
  free_iff : ∀ id < p.numBlocks, id ∈ p.freeBlockQueue ↔ (p.block id).refCnt = 0
  refCnt_eq : ∀ id < p.numBlocks, (p.block id).refCnt = holders held id
  cached_iff : ∀ h id, id ∈ p.cachedIds h ↔ id < p.numBlocks ∧ (p.block id).blockHash = some h
  held_inside : ∀ e ∈ held.entries, ∀ id ∈ e.2, id < p.numBlocks

/-- The scheduler that is dumped: its pool is consistent, a request is queued
once, and the blocks of a request, like those under a hash, are distinct. -/
structure Scheduler.WellFormed (s : Scheduler Status Params) : Prop where
  consistent : s.blockPool.Consistent s.reqToBlocks
  queued_once : ((s.running ++ s.waiting).map Request.requestId).Nodup
  held_nodup : ∀ e ∈ s.reqToBlocks.entries, e.2.Nodup
  cached_nodup : ∀ e ∈ s.blockPool.cachedBlockHashToBlock.entries, e.2.Nodup

/-- What a dumped entry has to find at its block: a hash that is its own, and a
reference count that it does not change. -/
structure Fits (p : BlockPool) (e : CacheEntry) : Prop where
  hashable : e.key.hashable = true
  hash : ∀ h, (p.block e.blockId).blockHash = some h → h = e.key
  free_iff : e.refCnt = 0 ↔ (p.block e.blockId).refCnt = 0
  le : e.refCnt ≤ (p.block e.blockId).refCnt

/-- The requests of part B up to the first one that raises. -/
def reachedRequests (v : Vllm Status Params) (entries : List RequestEntry) : List RequestEntry :=
  entries.takeWhile fun e => (buildRequest v e).isSome

/-- A request that gets blocks holds none under its id yet. -/
def Unclaimed (s : Scheduler Status Params) (e : RequestEntry) : Prop :=
  e.attached s.blockPool ≠ [] → (s.reqToBlocks.get? e.requestId).getD [] = []

theorem holders_pos {held : Dict String (List Nat)} {name : String} {id : Nat}
    (h : id ∈ (held.get? name).getD []) : 0 < holders held id := by
  cases hGet : held.get? name with
  | none => simp [hGet] at h
  | some ids =>
      rw [holders, List.countP_pos_iff]
      exact ⟨(name, ids), (Dict.mem_entries_iff _ _ _).mpr hGet, by simpa [hGet] using h⟩

section Cache

variable {p : BlockPool} {e : CacheEntry}

/-- An entry that fits writes the hash and nothing else. -/
theorem restoreRef_of_fits (h : Fits p e) :
    restoreRef p e = p.setBlock e.blockId { p.block e.blockId with blockHash := some e.key } := by
  rw [restoreRef]
  dsimp only
  rw [if_neg fun hBoth => Nat.ne_of_gt hBoth.1 (h.free_iff.mpr hBoth.2)]
  split
  · rename_i hZero
    rw [h.free_iff.mp hZero]
  · rw [Nat.max_eq_left h.le]

theorem BlockPool.Consistent.fit {held : Dict String (List Nat)} (hPool : p.Consistent held)
    (hFits : Fits p e) (hIn : e.blockId < p.numBlocks) :
    ((restoreRef p e).cache e.key e.blockId hFits.hashable).Consistent held := by
  have hBlock : ∀ id, ((restoreRef p e).block id).refCnt = (p.block id).refCnt := by
    intro id
    rw [restoreRef_of_fits hFits]
    simp only [BlockPool.setBlock]
    split
    · rename_i hSame
      rw [hSame]
    · rfl
  have hQueue : (restoreRef p e).freeBlockQueue = p.freeBlockQueue := by
    rw [restoreRef_of_fits hFits]
    rfl
  refine ⟨?_, ?_, ?_, ?_⟩
  · intro id hId
    change id ∈ (restoreRef p e).freeBlockQueue ↔ ((restoreRef p e).block id).refCnt = 0
    rw [hQueue, hBlock]
    exact hPool.free_iff id (restoreRef_numBlocks p e ▸ hId)
  · intro id hId
    exact (hBlock id).trans (hPool.refCnt_eq id (restoreRef_numBlocks p e ▸ hId))
  · intro k id
    change _ ↔ id < (restoreRef p e).numBlocks ∧ ((restoreRef p e).block id).blockHash = some k
    rw [mem_cachedIds_cache, cachedIds_restoreRef, restoreRef_numBlocks, hPool.cached_iff]
    by_cases hSame : id = e.blockId
    · subst hSame
      rw [restoreRef_blockHash, Option.some.injEq]
      constructor
      · rintro (⟨-, hOld⟩ | ⟨rfl, -⟩)
        · exact ⟨hIn, (hFits.hash k hOld).symm⟩
        · exact ⟨hIn, rfl⟩
      · rintro ⟨-, rfl⟩
        exact .inr ⟨rfl, rfl⟩
    · simp [restoreRef_block_of_ne p e hSame, hSame]
  · intro held' hHeld id hId
    change id < (restoreRef p e).numBlocks
    rw [restoreRef_numBlocks]
    exact hPool.held_inside held' hHeld id hId

/-- A step of part A at one block does not change what the entries of other blocks find. -/
theorem Fits.cache {other : CacheEntry} (h : Fits p other) (hNe : other.blockId ≠ e.blockId)
    (hHash : e.key.hashable = true) :
    Fits ((restoreRef p e).cache e.key e.blockId hHash) other := by
  have hBlock : ((restoreRef p e).cache e.key e.blockId hHash).block other.blockId =
      p.block other.blockId := restoreRef_block_of_ne p e hNe
  exact ⟨h.hashable, hBlock ▸ h.hash, hBlock ▸ h.free_iff, hBlock ▸ h.le⟩

/-- Part A keeps a consistent pool when every entry fits. -/
theorem restoreCache_consistent {held : Dict String (List Nat)} (entries : List CacheEntry)
    {p : BlockPool} (hPool : p.Consistent held) (hIds : (entries.map CacheEntry.blockId).Nodup)
    (hFits : ∀ e ∈ entries, e.blockId < p.numBlocks → Fits p e) :
    ∃ p', restoreCache p entries = (p', true) ∧ p'.Consistent held ∧
      p'.numBlocks = p.numBlocks := by
  induction entries generalizing p with
  | nil => exact ⟨p, rfl, hPool, rfl⟩
  | cons e rest ih =>
      rw [List.map_cons, List.nodup_cons] at hIds
      rw [restoreCache]
      by_cases hOut : p.numBlocks ≤ e.blockId
      · rw [if_pos hOut]
        exact ih hPool hIds.2 fun e' he' => hFits e' (List.mem_cons_of_mem e he')
      · have hIn := Nat.not_le.mp hOut
        have hFit := hFits e List.mem_cons_self hIn
        rw [if_neg hOut, dif_pos hFit.hashable]
        obtain ⟨p', hRun, hPool', hNum⟩ := ih (hPool.fit hFit hIn) hIds.2 fun e' he' hIn' => by
          have hNe : e'.blockId ≠ e.blockId := fun hSame =>
            hIds.1 (hSame ▸ List.mem_map.mpr ⟨e', he', rfl⟩)
          exact (hFits e' (List.mem_cons_of_mem e he')
            (restoreRef_numBlocks p e ▸ hIn')).cache hNe hFit.hashable
        exact ⟨p', hRun, hPool', hNum.trans (restoreRef_numBlocks p e)⟩

/-- The reference count that part A leaves for the current and the dumped one. -/
def restoredCnt (now dumped : Nat) : Nat := if dumped = 0 then 0 else max now dumped

theorem restoreRef_refCnt (p : BlockPool) (e : CacheEntry) :
    ((restoreRef p e).block e.blockId).refCnt =
      restoredCnt (p.block e.blockId).refCnt e.refCnt := by
  rw [restoreRef, restoredCnt]
  dsimp only
  by_cases hDumped : e.refCnt = 0
  · simp [hDumped, BlockPool.setBlock]
  · by_cases hFree : (p.block e.blockId).refCnt = 0
    · simp [hDumped, hFree, Nat.pos_of_ne_zero hDumped, BlockPool.setBlock]
    · simp [hDumped, hFree, BlockPool.setBlock]

theorem mem_queue_restoreRef (p : BlockPool) (e : CacheEntry) :
    e.blockId ∈ (restoreRef p e).freeBlockQueue ↔
      e.blockId ∈ p.freeBlockQueue ∧ (e.refCnt = 0 ∨ (p.block e.blockId).refCnt ≠ 0) := by
  rw [restoreRef]
  dsimp only
  split
  · rename_i hTaken
    change e.blockId ∈ p.freeBlockQueue.erase e.blockId ↔ _
    rw [p.queue_nodup.mem_erase_iff]
    refine iff_of_false (fun h => h.1 rfl) fun h => ?_
    rcases h.2 with hZero | hHeld
    · exact Nat.ne_of_gt hTaken.1 hZero
    · exact hHeld hTaken.2
  · rename_i hKept
    have hSame : e.refCnt = 0 ∨ (p.block e.blockId).refCnt ≠ 0 := by
      rw [not_and_or] at hKept
      exact hKept.imp_left fun h => Nat.eq_zero_of_not_pos h
    split <;> exact ⟨fun h => ⟨h, hSame⟩, fun h => h.1⟩

theorem mem_queue_restoreRef_of_ne {id : Nat} (h : id ≠ e.blockId) :
    id ∈ (restoreRef p e).freeBlockQueue ↔ id ∈ p.freeBlockQueue := by
  rw [restoreRef]
  dsimp only
  split
  · exact List.mem_erase_of_ne h
  · split <;> rfl

/-- What part A leaves at the block of an entry. -/
structure RestoredAt (p p' : BlockPool) (e : CacheEntry) : Prop where
  refCnt : (p'.block e.blockId).refCnt = restoredCnt (p.block e.blockId).refCnt e.refCnt
  hash : (p'.block e.blockId).blockHash = some e.key
  free_iff : e.blockId ∈ p'.freeBlockQueue ↔
    e.blockId ∈ p.freeBlockQueue ∧ (e.refCnt = 0 ∨ (p.block e.blockId).refCnt ≠ 0)

/-- Part A changes a block through its own entry only. -/
theorem restoreCache_at {entries : List CacheEntry} {p p' : BlockPool}
    (h : restoreCache p entries = (p', true)) (hIds : (entries.map CacheEntry.blockId).Nodup) :
    (∀ e ∈ entries, e.blockId < p.numBlocks → RestoredAt p p' e) ∧
      ∀ id, (∀ e ∈ entries, e.blockId < p.numBlocks → e.blockId ≠ id) →
        p'.block id = p.block id ∧ (id ∈ p'.freeBlockQueue ↔ id ∈ p.freeBlockQueue) := by
  induction entries generalizing p with
  | nil =>
      rw [restoreCache, Prod.mk.injEq] at h
      simp [h.1]
  | cons e rest ih =>
      rw [List.map_cons, List.nodup_cons] at hIds
      have hOther : ∀ e' ∈ rest, e'.blockId ≠ e.blockId := fun e' he' hSame =>
        hIds.1 (hSame ▸ List.mem_map.mpr ⟨e', he', rfl⟩)
      rw [restoreCache] at h
      split at h
      · rename_i hOut
        obtain ⟨hOwn, hRest⟩ := ih h hIds.2
        refine ⟨?_, fun id hNone => hRest id fun e' he' => hNone e' (List.mem_cons_of_mem e he')⟩
        intro e' he' hIn
        rcases List.mem_cons.mp he' with rfl | he'
        · omega
        · exact hOwn e' he' hIn
      · rename_i hOut
        split at h
        · obtain ⟨hOwn, hRest⟩ := ih h hIds.2
          change ∀ e' ∈ rest, e'.blockId < (restoreRef p e).numBlocks → _ at hOwn
          change ∀ id, (∀ e' ∈ rest, e'.blockId < (restoreRef p e).numBlocks → _) → _ at hRest
          rw [restoreRef_numBlocks] at hOwn hRest
          refine ⟨?_, ?_⟩
          · intro e' he' hIn
            rcases List.mem_cons.mp he' with rfl | he'
            · obtain ⟨hBlock, hQueue⟩ := hRest e'.blockId fun other hMem _ => hOther other hMem
              refine ⟨?_, ?_, hQueue.trans (mem_queue_restoreRef p e')⟩
              · rw [hBlock]
                exact restoreRef_refCnt p e'
              · rw [hBlock]
                exact restoreRef_blockHash p e'
            · obtain ⟨hCnt, hHash, hQueue⟩ := hOwn e' he' hIn
              have hBlock := restoreRef_block_of_ne p e (hOther e' he')
              have hFree := @mem_queue_restoreRef_of_ne p e _ (hOther e' he')
              refine ⟨hCnt.trans ?_, hHash, hQueue.trans ?_⟩
              · change restoredCnt ((restoreRef p e).block e'.blockId).refCnt _ = _
                rw [hBlock]
              · change e'.blockId ∈ (restoreRef p e).freeBlockQueue ∧
                  (_ ∨ ((restoreRef p e).block e'.blockId).refCnt ≠ 0) ↔ _
                rw [hBlock, hFree]
          · intro id hNone
            have hNe : id ≠ e.blockId := (hNone e List.mem_cons_self (Nat.not_le.mp hOut)).symm
            obtain ⟨hBlock, hQueue⟩ := hRest id fun e' he' => hNone e' (List.mem_cons_of_mem e he')
            exact ⟨hBlock.trans (restoreRef_block_of_ne p e hNe),
              hQueue.trans (mem_queue_restoreRef_of_ne hNe)⟩
        · simp at h

end Cache

section Attach

theorem attachBlock_block (p : BlockPool) (id other : Nat) :
    (attachBlock p id).block other =
      { p.block other with refCnt := (p.block other).refCnt + if other = id then 1 else 0 } := by
  rw [attachBlock]
  by_cases hSame : other = id
  · subst hSame
    simp [BlockPool.setBlock]
  · dsimp only
    split <;> simp [BlockPool.setBlock, BlockPool.takeFree, hSame]

theorem mem_queue_attachBlock (p : BlockPool) (id other : Nat) :
    other ∈ (attachBlock p id).freeBlockQueue ↔
      other ∈ p.freeBlockQueue ∧ (other ≠ id ∨ (p.block other).refCnt ≠ 0) := by
  rw [attachBlock]
  dsimp only
  split
  · rename_i hFree
    change other ∈ p.freeBlockQueue.erase id ↔ _
    rw [p.queue_nodup.mem_erase_iff]
    constructor
    · exact fun h => ⟨h.2, .inl h.1⟩
    · rintro ⟨hMem, hNe | hHeld⟩
      · exact ⟨hNe, hMem⟩
      · exact ⟨fun hSame => hHeld (hSame ▸ hFree), hMem⟩
  · rename_i hHeld
    change other ∈ p.freeBlockQueue ↔ _
    refine ⟨fun h => ⟨h, ?_⟩, fun h => h.1⟩
    by_cases hSame : other = id
    · exact .inr (hSame ▸ hHeld)
    · exact .inl hSame

/-- Attaching distinct blocks adds one holder to each and takes them off the free queue. -/
theorem foldl_attachBlock {ids : List Nat} (hIds : ids.Nodup) (p : BlockPool) (id : Nat) :
    (ids.foldl attachBlock p).numBlocks = p.numBlocks ∧
      (ids.foldl attachBlock p).block id =
        { p.block id with refCnt := (p.block id).refCnt + if id ∈ ids then 1 else 0 } ∧
      (id ∈ (ids.foldl attachBlock p).freeBlockQueue ↔
        id ∈ p.freeBlockQueue ∧ (id ∉ ids ∨ (p.block id).refCnt ≠ 0)) := by
  induction ids generalizing p with
  | nil => simp
  | cons first rest ih =>
      rw [List.nodup_cons] at hIds
      obtain ⟨hNum, hBlock, hQueue⟩ := ih hIds.2 (attachBlock p first)
      rw [attachBlock_block] at hBlock hQueue
      rw [mem_queue_attachBlock] at hQueue
      have hNumFirst : (attachBlock p first).numBlocks = p.numBlocks := by
        rw [attachBlock]
        dsimp only
        split <;> rfl
      rw [List.foldl_cons]
      refine ⟨hNum.trans hNumFirst, hBlock.trans ?_, hQueue.trans ?_⟩
      · by_cases hSame : id = first
        · subst hSame
          simp [hIds.1]
        · simp [hSame]
      · by_cases hSame : id = first
        · subst hSame
          simp [hIds.1]
        · simp [hSame]

variable (s : Scheduler Status Params) (e : RequestEntry) (r : Request Status Params)

theorem attached_nodup (p : BlockPool) (h : e.blockIds.Nodup) : (e.attached p).Nodup :=
  h.filter _

/-- The holders of a block before and after a request: the blocks that stood
under its id are held no more. -/
theorem holders_attachRequest (id : Nat) :
    holders (attachRequest s e r).reqToBlocks id +
        (if e.attached s.blockPool ≠ [] ∧ id ∈ (s.reqToBlocks.get? e.requestId).getD []
          then 1 else 0) =
      holders s.reqToBlocks id + if id ∈ e.attached s.blockPool then 1 else 0 := by
  rw [attachRequest]
  dsimp only
  by_cases hNone : e.attached s.blockPool = []
  · simp [hNone]
  · rw [if_neg hNone]
    have hCount := Dict.countP_set s.reqToBlocks e.requestId (e.attached s.blockPool)
      fun ids => decide (id ∈ ids)
    rw [holders, holders]
    cases hGet : s.reqToBlocks.get? e.requestId with
    | none =>
        rw [hGet] at hCount
        by_cases hNew : id ∈ e.attached s.blockPool <;> simpa [hNone, hNew] using hCount
    | some old =>
        rw [hGet] at hCount
        by_cases hNew : id ∈ e.attached s.blockPool <;> by_cases hOld : id ∈ old <;>
          simpa [hNone, hNew, hOld] using hCount

theorem get?_attachRequest_of_ne {name : String} (h : name ≠ e.requestId) :
    (attachRequest s e r).reqToBlocks.get? name = s.reqToBlocks.get? name := by
  rw [attachRequest]
  dsimp only
  split
  · rfl
  · rw [Dict.get?_set, if_neg h]

theorem attachRequest_numBlocks (h : e.blockIds.Nodup) :
    (attachRequest s e r).blockPool.numBlocks = s.blockPool.numBlocks :=
  (foldl_attachBlock (attached_nodup e s.blockPool h) s.blockPool 0).1

theorem attached_attachRequest (h : e.blockIds.Nodup) (other : RequestEntry) :
    other.attached (attachRequest s e r).blockPool = other.attached s.blockPool := by
  rw [RequestEntry.attached, attachRequest_numBlocks s e r h, RequestEntry.attached]

/-- A request whose id holds nothing yet keeps the pool consistent. -/
theorem BlockPool.Consistent.attach {s : Scheduler Status Params} {e : RequestEntry}
    (hPool : s.blockPool.Consistent s.reqToBlocks) (hIds : e.blockIds.Nodup)
    (hFree : Unclaimed s e) (r : Request Status Params) :
    (attachRequest s e r).blockPool.Consistent (attachRequest s e r).reqToBlocks := by
  have hNum := attachRequest_numBlocks s e r hIds
  have hBlocks := foldl_attachBlock (attached_nodup e s.blockPool hIds) s.blockPool
  refine ⟨?_, ?_, ?_, ?_⟩
  · intro id hId
    rw [hNum] at hId
    obtain ⟨-, hBlock, hQueue⟩ := hBlocks id
    apply hQueue.trans
    change _ ↔ (((e.attached s.blockPool).foldl attachBlock s.blockPool).block id).refCnt = 0
    rw [hBlock, hPool.free_iff id hId]
    by_cases hMem : id ∈ e.attached s.blockPool <;> simp [hMem]
  · intro id hId
    rw [hNum] at hId
    have hHolders := holders_attachRequest s e r id
    have hNoOld : ¬ (e.attached s.blockPool ≠ [] ∧
        id ∈ (s.reqToBlocks.get? e.requestId).getD []) := by
      rintro ⟨hSome, hMem⟩
      rw [hFree hSome] at hMem
      cases hMem
    rw [if_neg hNoOld, Nat.add_zero] at hHolders
    rw [hHolders, ← hPool.refCnt_eq id hId]
    change (((e.attached s.blockPool).foldl attachBlock s.blockPool).block id).refCnt = _
    rw [(hBlocks id).2.1]
  · intro k id
    rw [hNum, BlockPool.cachedIds]
    change id ∈ (((e.attached s.blockPool).foldl attachBlock
      s.blockPool).cachedBlockHashToBlock.get? k).getD [] ↔ _ ∧
      (((e.attached s.blockPool).foldl attachBlock s.blockPool).block id).blockHash = some k
    rw [foldl_attachBlock_cached, (hBlocks id).2.1]
    exact hPool.cached_iff k id
  · intro held hHeld id hId
    rw [hNum]
    have hOld := (Dict.mem_entries_iff _ held.1 held.2).mp hHeld
    by_cases hSame : held.1 = e.requestId
    · rw [hSame, attachRequest] at hOld
      dsimp only at hOld
      split at hOld
      · exact hPool.held_inside _ ((Dict.mem_entries_iff _ _ _).mpr hOld) id hId
      · rw [Dict.get?_set, if_pos rfl, Option.some.injEq] at hOld
        rw [← hOld, RequestEntry.attached, List.mem_filter] at hId
        exact of_decide_eq_true hId.2
    · rw [get?_attachRequest_of_ne s e r hSame] at hOld
      exact hPool.held_inside _ ((Dict.mem_entries_iff _ _ _).mpr hOld) id hId

end Attach

/-- The requests of a file: every id once, the blocks of each distinct. -/
structure DistinctRequests (entries : List RequestEntry) : Prop where
  ids : (entries.map RequestEntry.requestId).Nodup
  blocks : ∀ e ∈ entries, e.blockIds.Nodup

theorem DistinctRequests.tail {e : RequestEntry} {rest : List RequestEntry}
    (h : DistinctRequests (e :: rest)) : DistinctRequests rest :=
  ⟨(List.nodup_cons.mp h.ids).2, fun e' he' => h.blocks e' (List.mem_cons_of_mem e he')⟩

theorem DistinctRequests.ne {e : RequestEntry} {rest : List RequestEntry}
    (h : DistinctRequests (e :: rest)) : ∀ e' ∈ rest, e'.requestId ≠ e.requestId :=
  fun e' he' hSame => (List.nodup_cons.mp h.ids).1 (hSame ▸ List.mem_map.mpr ⟨e', he', rfl⟩)

section Requests

variable (v : Vllm Status Params)

/-- What a later request finds is not changed by an earlier one. -/
theorem unclaimed_attachRequest_iff {s : Scheduler Status Params} {e other : RequestEntry}
    (hIds : e.blockIds.Nodup) (hNe : other.requestId ≠ e.requestId) (r : Request Status Params) :
    Unclaimed (attachRequest s e r) other ↔ Unclaimed s other := by
  rw [Unclaimed, Unclaimed, attached_attachRequest s e r hIds, get?_attachRequest_of_ne s e r hNe]

theorem restoreRequests_consistent (entries : List RequestEntry) (s : Scheduler Status Params)
    (hEntries : DistinctRequests entries) (hPool : s.blockPool.Consistent s.reqToBlocks)
    (hFree : ∀ e ∈ reachedRequests v entries, Unclaimed s e) :
    (restoreRequests v s entries).1.blockPool.Consistent
      (restoreRequests v s entries).1.reqToBlocks := by
  induction entries generalizing s with
  | nil => exact hPool
  | cons e rest ih =>
      rw [restoreRequests]
      cases hBuild : buildRequest v e with
      | none => exact hPool
      | some r =>
          have hIds := hEntries.blocks e List.mem_cons_self
          rw [reachedRequests, List.takeWhile_cons_of_pos (by simp [hBuild])] at hFree
          apply ih _ hEntries.tail (hPool.attach hIds (hFree e List.mem_cons_self) r)
          intro other hOther
          rw [unclaimed_attachRequest_iff hIds
            (hEntries.ne other ((List.takeWhile_sublist _).subset hOther))]
          exact hFree other (List.mem_cons_of_mem e hOther)

/-- Part B adds a reference for each new holder of a block, but takes none away for
the holders whose entry it overwrites. -/
theorem restoreRequests_counts (id : Nat) (entries : List RequestEntry)
    (s : Scheduler Status Params) (hEntries : DistinctRequests entries) :
    ∃ lost,
      ((restoreRequests v s entries).1.blockPool.block id).refCnt + holders s.reqToBlocks id =
        (s.blockPool.block id).refCnt +
          holders (restoreRequests v s entries).1.reqToBlocks id + lost ∧
      ∀ e ∈ reachedRequests v entries, e.attached s.blockPool ≠ [] →
        id ∈ (s.reqToBlocks.get? e.requestId).getD [] → 0 < lost := by
  induction entries generalizing s with
  | nil => exact ⟨0, rfl, fun e he => absurd he List.not_mem_nil⟩
  | cons e rest ih =>
      rw [restoreRequests]
      cases hBuild : buildRequest v e with
      | none =>
          refine ⟨0, rfl, fun e' he' => ?_⟩
          rw [reachedRequests, List.takeWhile_cons_of_neg (by simp [hBuild])] at he'
          cases he'
      | some r =>
          have hIds := hEntries.blocks e List.mem_cons_self
          obtain ⟨lost, hCounts, hLost⟩ := ih (attachRequest s e r) hEntries.tail
          have hHolders := holders_attachRequest s e r id
          have hBlock := (foldl_attachBlock (attached_nodup e s.blockPool hIds) s.blockPool id).2.1
          have hRef : ((attachRequest s e r).blockPool.block id).refCnt =
              (s.blockPool.block id).refCnt + if id ∈ e.attached s.blockPool then 1 else 0 :=
            congrArg KVCacheBlock.refCnt hBlock
          rw [hRef] at hCounts
          refine ⟨lost + if e.attached s.blockPool ≠ [] ∧
            id ∈ (s.reqToBlocks.get? e.requestId).getD [] then 1 else 0, ?_, ?_⟩
          · dsimp only
            omega
          · intro e' he' hSome hHeld
            rw [reachedRequests, List.takeWhile_cons_of_pos (by simp [hBuild])] at he'
            rcases List.mem_cons.mp he' with rfl | he'
            · rw [if_pos ⟨hSome, hHeld⟩]
              exact Nat.succ_pos lost
            · refine Nat.add_pos_left (hLost e' he' ?_ ?_) _
              · rwa [attached_attachRequest s e r hIds]
              · rwa [get?_attachRequest_of_ne s e r
                  (hEntries.ne e' ((List.takeWhile_sublist _).subset he'))]

/-- A block that no request of the file lists is left alone. -/
theorem restoreRequests_unlisted {id : Nat} (entries : List RequestEntry)
    (s : Scheduler Status Params) (hEntries : DistinctRequests entries)
    (hNone : ∀ e ∈ entries, id ∉ e.blockIds) :
    (restoreRequests v s entries).1.blockPool.block id = s.blockPool.block id ∧
      (id ∈ (restoreRequests v s entries).1.blockPool.freeBlockQueue ↔
        id ∈ s.blockPool.freeBlockQueue) := by
  induction entries generalizing s with
  | nil => exact ⟨rfl, Iff.rfl⟩
  | cons e rest ih =>
      rw [restoreRequests]
      cases hBuild : buildRequest v e with
      | none => exact ⟨rfl, Iff.rfl⟩
      | some r =>
          obtain ⟨hBlock, hQueue⟩ := ih (attachRequest s e r) hEntries.tail
            fun e' he' => hNone e' (List.mem_cons_of_mem e he')
          obtain ⟨-, hBlock', hQueue'⟩ := foldl_attachBlock (attached_nodup e s.blockPool
            (hEntries.blocks e List.mem_cons_self)) s.blockPool id
          have hOut : id ∉ e.attached s.blockPool := fun hMem =>
            hNone e List.mem_cons_self (List.mem_filter.mp hMem).1
          rw [if_neg hOut] at hBlock'
          exact ⟨hBlock.trans hBlock', hQueue.trans (hQueue'.trans (by simp [hOut]))⟩

theorem restoreRequests_frame (entries : List RequestEntry) (s : Scheduler Status Params)
    (hEntries : DistinctRequests entries) :
    (restoreRequests v s entries).1.blockPool.numBlocks = s.blockPool.numBlocks ∧
      ∀ id, ((restoreRequests v s entries).1.blockPool.block id).blockHash =
        (s.blockPool.block id).blockHash := by
  induction entries generalizing s with
  | nil => exact ⟨rfl, fun _ => rfl⟩
  | cons e rest ih =>
      rw [restoreRequests]
      cases hBuild : buildRequest v e with
      | none => exact ⟨rfl, fun _ => rfl⟩
      | some r =>
          have hIds := hEntries.blocks e List.mem_cons_self
          obtain ⟨hNum, hHash⟩ := ih (attachRequest s e r) hEntries.tail
          refine ⟨hNum.trans (attachRequest_numBlocks s e r hIds), fun id => (hHash id).trans ?_⟩
          have hBlock := (foldl_attachBlock (attached_nodup e s.blockPool hIds) s.blockPool id).2.1
          exact (congrArg KVCacheBlock.blockHash hBlock).trans rfl

end Requests

section Dump

theorem map_of_mapM {α β γ : Type} {f : α → Option β} {k : α → γ} {g : β → γ}
    (hf : ∀ a b, f a = some b → g b = k a) {l : List α} {results : List β}
    (h : l.mapM f = some results) : results.map g = l.map k := by
  induction l generalizing results with
  | nil =>
      rw [List.mapM_nil, Option.pure_def, Option.some.injEq] at h
      subst h
      rfl
  | cons a rest ih =>
      rw [List.mapM_cons] at h
      simp only [Option.bind_eq_bind, Option.bind_eq_some_iff, Option.pure_def,
        Option.some.injEq] at h
      obtain ⟨b, hb, others, hOthers, rfl⟩ := h
      rw [List.map_cons, List.map_cons, hf a b hb, ih hOthers]

/-- A block carries one hash, so it is listed once. -/
theorem cachedBlocks_nodup {s : Scheduler Status Params} (h : s.WellFormed) :
    ((cachedBlocks s.blockPool).map Prod.snd).Nodup := by
  have hIds : (cachedBlocks s.blockPool).map Prod.snd =
      s.blockPool.cachedBlockHashToBlock.entries.flatMap Prod.snd := by
    rw [cachedBlocks, List.map_flatMap]
    exact List.flatMap_congr fun e _ => by rw [List.map_map]; exact List.map_id e.2
  rw [hIds, List.nodup_flatMap]
  refine ⟨h.cached_nodup, ?_⟩
  apply (List.pairwise_map.mp s.blockPool.cachedBlockHashToBlock.nodup).imp_of_mem
  intro a b ha hb hKeys id hA hB
  have hHash : ∀ e ∈ s.blockPool.cachedBlockHashToBlock.entries, id ∈ e.2 →
      (s.blockPool.block id).blockHash = some e.1 := by
    intro e he hId
    refine ((h.consistent.cached_iff e.1 id).mp ?_).2
    rw [BlockPool.cachedIds, (Dict.mem_entries_iff _ _ _).mp he]
    exact hId
  exact hKeys (Option.some.inj ((hHash a ha hA).symm.trans (hHash b hb hB)))

/-- What a file of a well-formed scheduler is like: a block that was free is
listed by no request. -/
structure Dumped (f : StateFile) : Prop where
  blocks : (f.prefixCache.map CacheEntry.blockId).Nodup
  requests : DistinctRequests f.requests
  unlisted : ∀ e ∈ f.prefixCache, e.refCnt = 0 → ∀ q ∈ f.requests, e.blockId ∉ q.blockIds

theorem dumped_of_dumpState {v : Vllm Status Params} {s : Scheduler Status Params} {f : StateFile}
    (hDump : dumpState v s = some f) (h : s.WellFormed) : Dumped f := by
  rw [dumpState, Option.map_eq_some_iff] at hDump
  obtain ⟨entries, hEntries, rfl⟩ := hDump
  have hRequest : ∀ q ∈ s.running.map (dumpRequest v s .running) ++
      s.waiting.map (dumpRequest v s .waiting),
      q.blockIds = (s.reqToBlocks.get? q.requestId).getD [] := by
    intro q hq
    rcases List.mem_append.mp hq with hq | hq <;>
      obtain ⟨r, -, rfl⟩ := List.mem_map.mp hq <;> rfl
  refine ⟨?_, ⟨?_, ?_⟩, ?_⟩
  · rw [map_of_mapM (fun c e he => (dumpBlock_some he).1) hEntries]
    exact cachedBlocks_nodup h
  · dsimp only
    rw [List.map_append, List.map_map, List.map_map]
    exact List.map_append ▸ h.queued_once
  · intro q hq
    rw [hRequest q hq]
    cases hGet : s.reqToBlocks.get? q.requestId with
    | none => exact List.nodup_nil
    | some ids => exact h.held_nodup _ ((Dict.mem_entries_iff _ _ _).mpr hGet)
  · intro e he hZero q hq hListed
    obtain ⟨⟨k, id⟩, hc, hBlock⟩ := (mem_of_mapM hEntries).2 e he
    obtain ⟨hId, hRef, -⟩ := dumpBlock_some hBlock
    rw [mem_cachedBlocks] at hc
    have hIn := ((h.consistent.cached_iff k id).mp hc).1
    rw [hRequest q hq, hId] at hListed
    have hPos := holders_pos hListed
    rw [← h.consistent.refCnt_eq id hIn, ← hRef] at hPos
    exact Nat.ne_of_gt hPos hZero

end Dump

section Invariant

variable (v : Vllm Status Params) {s : Scheduler Status Params} {entries : List CacheEntry}
  {requests : List RequestEntry} {p : BlockPool}

/-- A consistent end forces every entry to fit. -/
theorem fits_of_consistent (hDumped : Dumped ⟨entries, requests⟩)
    (hTarget : s.blockPool.Consistent s.reqToBlocks)
    (hCache : restoreCache s.blockPool entries = (p, true))
    (hEnd : (restoreRequests v { s with blockPool := p } requests).1.blockPool.Consistent
      (restoreRequests v { s with blockPool := p } requests).1.reqToBlocks)
    {e : CacheEntry} (he : e ∈ entries) (hIn : e.blockId < s.blockPool.numBlocks) :
    Fits s.blockPool e := by
  obtain ⟨hNum, hHash, hIds⟩ := restoreCache_returns hCache
  obtain ⟨hCnt, hKey, hFree⟩ := (restoreCache_at hCache hDumped.blocks).1 e he hIn
  obtain ⟨hNumEnd, hHashEnd⟩ :=
    restoreRequests_frame v requests { s with blockPool := p } hDumped.requests
  obtain ⟨lost, hCounts, -⟩ :=
    restoreRequests_counts v e.blockId requests { s with blockPool := p } hDumped.requests
  have hInEnd : e.blockId < (restoreRequests v { s with blockPool := p }
      requests).1.blockPool.numBlocks := by
    rw [hNumEnd]
    exact hNum ▸ hIn
  have hHolders := hTarget.refCnt_eq e.blockId hIn
  have hEndRef := hEnd.refCnt_eq e.blockId hInEnd
  have hBalance : restoredCnt (s.blockPool.block e.blockId).refCnt e.refCnt + lost =
      (s.blockPool.block e.blockId).refCnt := by
    dsimp only at hCounts
    omega
  have hZero : e.refCnt = 0 → (s.blockPool.block e.blockId).refCnt = 0 := by
    -- a block in use that is set free does not get into the free queue
    intro hDumpedZero
    by_contra hHeld
    obtain ⟨hBlock, hQueue⟩ := restoreRequests_unlisted v requests { s with blockPool := p }
      hDumped.requests (hDumped.unlisted e he hDumpedZero)
    have hQueued : e.blockId ∈ (restoreRequests v { s with blockPool := p }
        requests).1.blockPool.freeBlockQueue := by
      rw [hEnd.free_iff e.blockId hInEnd, hBlock]
      exact hCnt.trans (if_pos hDumpedZero)
    rw [hQueue, hFree, hTarget.free_iff e.blockId hIn] at hQueued
    exact hHeld hQueued.1
  refine ⟨hHash e he hIn, ?_, ⟨hZero, ?_⟩, ?_⟩
  · intro h hOld
    have hCached : e.blockId ∈ (restoreRequests v { s with blockPool := p }
        requests).1.blockPool.cachedIds h := by
      rw [BlockPool.cachedIds, restoreRequests_cached]
      refine (hIds h e.blockId).mpr (.inl ?_)
      rw [hTarget.cached_iff]
      exact ⟨hIn, hOld⟩
    rw [hEnd.cached_iff, hHashEnd] at hCached
    exact Option.some.inj (hCached.2.symm.trans hKey)
  · intro hNow
    rw [hNow, restoredCnt] at hBalance
    split at hBalance
    · assumption
    · omega
  · rw [restoredCnt] at hBalance
    split at hBalance <;> omega

/-- A consistent end overwrites no request that holds blocks. -/
theorem unclaimed_of_consistent (hDumped : Dumped ⟨entries, requests⟩)
    (hTarget : s.blockPool.Consistent s.reqToBlocks)
    (hCache : restoreCache s.blockPool entries = (p, true))
    (hEnd : (restoreRequests v { s with blockPool := p } requests).1.blockPool.Consistent
      (restoreRequests v { s with blockPool := p } requests).1.reqToBlocks)
    {q : RequestEntry} (hq : q ∈ reachedRequests v requests) : Unclaimed s q := by
  obtain ⟨hNum, -, -⟩ := restoreCache_returns hCache
  intro hSome
  by_contra hHeld
  obtain ⟨id, hId⟩ := List.exists_mem_of_ne_nil _ hHeld
  have hIn : id < s.blockPool.numBlocks := by
    cases hGet : s.reqToBlocks.get? q.requestId with
    | none => simp [hGet] at hId
    | some ids =>
        exact hTarget.held_inside _ ((Dict.mem_entries_iff _ _ _).mpr hGet) id
          (by simpa [hGet] using hId)
  have hRef : (p.block id).refCnt = (s.blockPool.block id).refCnt := by
    by_cases hEntry : ∃ e ∈ entries, e.blockId < s.blockPool.numBlocks ∧ e.blockId = id
    · obtain ⟨e, he, hInEntry, rfl⟩ := hEntry
      have hFits := fits_of_consistent v hDumped hTarget hCache hEnd he hInEntry
      rw [((restoreCache_at hCache hDumped.blocks).1 e he hInEntry).refCnt, restoredCnt]
      split
      · rename_i hZero
        exact (hFits.free_iff.mp hZero).symm
      · exact Nat.max_eq_left hFits.le
    · rw [((restoreCache_at hCache hDumped.blocks).2 id
        fun e he hInEntry hSame => hEntry ⟨e, he, hInEntry, hSame⟩).1]
  obtain ⟨lost, hCounts, hLost⟩ :=
    restoreRequests_counts v id requests { s with blockPool := p } hDumped.requests
  have hPos : 0 < lost := by
    refine hLost q hq ?_ hId
    change q.attached p ≠ []
    rw [RequestEntry.attached, hNum]
    exact hSome
  have hEndRef := hEnd.refCnt_eq id (by
    rw [(restoreRequests_frame v requests { s with blockPool := p } hDumped.requests).1]
    exact hNum ▸ hIn)
  have hHolders := hTarget.refCnt_eq id hIn
  dsimp only at hCounts
  omega

/-- When part A returns, part B runs on the requests, or on none. -/
theorem restorePatch_returns {f : StateFile} (hCache : restoreCache s.blockPool f.prefixCache =
    (p, true)) (enableB : Bool) :
    restorePatch v enableB s f = restoreRequests v { s with blockPool := p }
      (if enableB then f.requests else []) := by
  rw [restorePatch, hCache]
  cases enableB <;> rfl

/-- `restore_patch` keeps the pool consistent exactly when the dumped entries fit
the pool they meet and, with part B, no request is overwritten that holds blocks. -/
theorem consistent_iff (enableB : Bool) (source target : Scheduler Status Params) {f : StateFile}
    (hDump : dumpState v source = some f) (hSource : source.WellFormed)
    (hTarget : target.blockPool.Consistent target.reqToBlocks) :
    (restorePatch v enableB target f).1.blockPool.Consistent
        (restorePatch v enableB target f).1.reqToBlocks ↔
      (∀ e ∈ f.prefixCache, e.blockId < target.blockPool.numBlocks → Fits target.blockPool e) ∧
        (enableB = true → ∀ q ∈ reachedRequests v f.requests, Unclaimed target q) := by
  have hDumped := dumped_of_dumpState hDump hSource
  have hNoRequest : Dumped ⟨f.prefixCache, if enableB then f.requests else []⟩ := by
    cases enableB with
    | true => exact hDumped
    | false =>
        exact ⟨hDumped.blocks, ⟨List.nodup_nil, fun _ h => absurd h List.not_mem_nil⟩,
          fun _ _ _ _ h => absurd h List.not_mem_nil⟩
  rcases hCache : restoreCache target.blockPool f.prefixCache with ⟨p, returned⟩
  cases returned with
  | true =>
      rw [restorePatch_returns v hCache]
      constructor
      · intro hEnd
        refine ⟨fun e he hIn => fits_of_consistent v hNoRequest hTarget hCache hEnd he hIn, ?_⟩
        rintro rfl q hq
        exact unclaimed_of_consistent v hDumped hTarget hCache hEnd hq
      · rintro ⟨hFits, hFree⟩
        obtain ⟨p', hRun, hPool, hNum⟩ :=
          restoreCache_consistent f.prefixCache hTarget hDumped.blocks hFits
        cases hCache.symm.trans hRun
        apply restoreRequests_consistent v _ _ hNoRequest.requests hPool
        intro q hq hSome
        cases enableB with
        | true =>
            apply hFree rfl q hq
            rw [RequestEntry.attached, ← hNum]
            exact hSome
        | false => exact absurd hq List.not_mem_nil
  | false =>
      obtain ⟨hNum, ⟨e, he, hIn, hHash, hBlock⟩, -⟩ := restoreCache_raises hCache
      have hRaised : (restorePatch v enableB target f).1 = { target with blockPool := p } := by
        rw [restorePatch, hCache]
      rw [hRaised]
      refine iff_of_false (fun hEnd => ?_) fun hAll => ?_
      · -- the block carries a key that no dictionary has
        have hCached := (hEnd.cached_iff e.key e.blockId).mpr ⟨hNum ▸ hIn, hBlock⟩
        rw [hashable_of_mem_cachedIds hCached] at hHash
        cases hHash
      · have hKey := (hAll.1 e he hIn).hashable
        rw [hKey] at hHash
        cases hHash

end Invariant

theorem freshScheduler_consistent :
    freshScheduler.blockPool.Consistent freshScheduler.reqToBlocks where
  free_iff id hId := by
    obtain rfl := Nat.lt_one_iff.mp hId
    decide
  refCnt_eq _ _ := rfl
  cached_iff _ _ := iff_of_false List.not_mem_nil fun h => Option.some_ne_none _ h.2.symm
  held_inside _ he := absurd he List.not_mem_nil

/-- A pool with one block, cached under one key. -/
theorem cached_iff_single {p : BlockPool} (hNum : p.numBlocks = 1)
    (hNone : ∀ k, p.cachedIds k = []) (key : BlockHashType) (hHash : key.hashable = true)
    (refCnt : Nat) (h : BlockHashType) (id : Nat) :
    id ∈ ((p.setBlock 0 ⟨refCnt, some key⟩).cache key 0 hHash).cachedIds h ↔
      id < ((p.setBlock 0 ⟨refCnt, some key⟩).cache key 0 hHash).numBlocks ∧
        (((p.setBlock 0 ⟨refCnt, some key⟩).cache key 0 hHash).block id).blockHash = some h := by
  rw [mem_cachedIds_cache]
  change id ∈ p.cachedIds h ∨ _ ↔ id < p.numBlocks ∧
    (if id = 0 then (⟨refCnt, some key⟩ : KVCacheBlock) else p.block id).blockHash = some h
  rw [hNone, hNum]
  constructor
  · rintro (hMem | ⟨rfl, rfl⟩)
    · cases hMem
    · exact ⟨Nat.one_pos, rfl⟩
  · rintro ⟨hId, hBlock⟩
    obtain rfl := Nat.lt_one_iff.mp hId
    exact .inr ⟨(Option.some.inj hBlock).symm, rfl⟩

theorem cachedScheduler_wellFormed (h : BlockHashType) (hHash : h.hashable = true) :
    (cachedScheduler h hHash).WellFormed where
  consistent :=
    { free_iff := fun id hId => by
        obtain rfl := Nat.lt_one_iff.mp hId
        exact iff_of_true List.mem_cons_self rfl
      refCnt_eq := fun id hId => by
        obtain rfl := Nat.lt_one_iff.mp hId
        rfl
      cached_iff := cached_iff_single rfl (fun _ => rfl) h hHash 0
      held_inside := fun _ he => absurd he List.not_mem_nil }
  queued_once := List.nodup_nil
  held_nodup _ he := absurd he List.not_mem_nil
  cached_nodup e he := by
    obtain rfl := List.mem_singleton.mp he
    exact List.nodup_singleton 0

theorem consistent_textKey :
    (restorePatch plainVllm true freshScheduler
        ⟨[⟨7, [1, 2], .scalar .none, 0, 0⟩], []⟩).1.blockPool.Consistent
        (restorePatch plainVllm true freshScheduler
          ⟨[⟨7, [1, 2], .scalar .none, 0, 0⟩], []⟩).1.reqToBlocks ↔
      (∀ e ∈ [(⟨7, [1, 2], .scalar .none, 0, 0⟩ : CacheEntry)], e.blockId < 1 →
        Fits freshScheduler.blockPool e) ∧
        (true = true → ∀ q ∈ reachedRequests plainVllm [], Unclaimed freshScheduler q) :=
  consistent_iff plainVllm true (cachedScheduler textKey rfl) freshScheduler rfl
    (cachedScheduler_wellFormed textKey rfl) freshScheduler_consistent

/-- A scheduler with a running request that holds the cached block. -/
def busyScheduler : Scheduler Unit Unit :=
  { freshScheduler with
    blockPool :=
      ((freshScheduler.blockPool.takeFree 0).setBlock 0 ⟨1, some textKey⟩).cache textKey 0 rfl
    reqToBlocks := Dict.empty.set "a" [0]
    running := [⟨"a", [1, 2], [], 2, (), none, (), []⟩] }

theorem busyScheduler_wellFormed : busyScheduler.WellFormed where
  consistent :=
    { free_iff := fun id hId => by
        obtain rfl := Nat.lt_one_iff.mp hId
        exact iff_of_false List.not_mem_nil Nat.one_ne_zero
      refCnt_eq := fun id hId => by
        obtain rfl := Nat.lt_one_iff.mp hId
        rfl
      cached_iff := cached_iff_single rfl (fun _ => rfl) textKey rfl 1
      held_inside := fun e he id hId => by
        obtain rfl := List.mem_singleton.mp he
        obtain rfl := List.mem_singleton.mp hId
        exact Nat.one_pos }
  queued_once := List.nodup_singleton "a"
  held_nodup e he := by
    obtain rfl := List.mem_singleton.mp he
    exact List.nodup_singleton 0
  cached_nodup e he := by
    obtain rfl := List.mem_singleton.mp he
    exact List.nodup_singleton 0

/-- Without part B the restored block keeps a reference that no request holds. -/
theorem not_consistent_busyScheduler :
    ¬ ∀ (enableB : Bool) (source target : Scheduler Unit Unit) (f : StateFile),
      dumpState plainVllm source = some f → source.WellFormed →
      target.blockPool.Consistent target.reqToBlocks →
      (restorePatch plainVllm enableB target f).1.blockPool.Consistent
        (restorePatch plainVllm enableB target f).1.reqToBlocks := by
  intro h
  have hEnd := h false busyScheduler freshScheduler
    ⟨[⟨7, [1, 2], .scalar .none, 0, 1⟩],
      [⟨.running, "a", [1, 2], [], 2, "RUNNING", none, [], [0], []⟩]⟩
    rfl busyScheduler_wellFormed freshScheduler_consistent
  have hRef := hEnd.refCnt_eq 0 Nat.one_pos
  cases hRef

end FlashCkpt.Engine
