import FlashCkpt.Engine.State

/-! The prefix cache through the state file. JSON does not tell a tuple from a
list, so a key whose extra keys are a tuple comes back unhashable, and the
dictionary raises after the block has been written. -/
namespace FlashCkpt.Engine

open OrderedDict

variable {Status Params : Type}

/-- A pool in which nothing is cached. -/
structure BlockPool.CacheEmpty (p : BlockPool) : Prop where
  cached : ∀ h, p.cachedIds h = []
  blocks : ∀ id < p.numBlocks, (p.block id).blockHash = none

/-- The restored pool caches what the dumped one did, under equal keys, or the
call raised with the pool as it was. -/
def RoundTrip (source target : BlockPool) (restored : Scheduler Status Params × Bool) : Prop :=
  (∀ h id, id ∈ restored.1.blockPool.cachedIds h ↔ id ∈ source.cachedIds h) ∨
    restored.2 = false ∧ restored.1.blockPool = target

theorem mem_of_mapM {α β : Type} {f : α → Option β} {l : List α} {results : List β}
    (h : l.mapM f = some results) :
    (∀ a ∈ l, ∃ b ∈ results, f a = some b) ∧ ∀ b ∈ results, ∃ a ∈ l, f a = some b := by
  induction l generalizing results with
  | nil =>
      rw [List.mapM_nil, Option.pure_def, Option.some.injEq] at h
      subst h
      simp
  | cons a rest ih =>
      rw [List.mapM_cons] at h
      simp only [Option.bind_eq_bind, Option.bind_eq_some_iff, Option.pure_def,
        Option.some.injEq] at h
      obtain ⟨b, hb, others, hOthers, rfl⟩ := h
      obtain ⟨hInto, hFrom⟩ := ih hOthers
      refine ⟨?_, ?_⟩
      · intro x hx
        rcases List.mem_cons.mp hx with rfl | hx
        · exact ⟨b, List.mem_cons_self, hb⟩
        · obtain ⟨y, hy, hxy⟩ := hInto x hx
          exact ⟨y, List.mem_cons_of_mem b hy, hxy⟩
      · intro y hy
        rcases List.mem_cons.mp hy with rfl | hy
        · exact ⟨a, List.mem_cons_self, hb⟩
        · obtain ⟨x, hx, hxy⟩ := hFrom y hy
          exact ⟨x, List.mem_cons_of_mem a hx, hxy⟩

section Json

theorem Json.loads_ne_tuple (j : Json) (items : List PyVal) : j.loads ≠ .tuple items := by
  cases j <;> simp [Json.loads]

/-- A scalar comes back as it was, anything else that `json` writes as a list. -/
theorem PyVal.loads_dumps {value : PyVal} {j : Json} (h : value.dumps = some j) :
    (∃ x, value = .scalar x ∧ j.loads = .scalar x) ∨
      ((∀ x, value ≠ .scalar x) ∧ ∃ items, j.loads = .list items) := by
  cases value with
  | scalar x =>
      rw [PyVal.dumps, Option.some.injEq] at h
      subst h
      exact .inl ⟨x, rfl, by rw [Json.loads]⟩
  | tuple items | list items =>
      rw [PyVal.dumps, Option.map_eq_some_iff] at h
      obtain ⟨all, -, rfl⟩ := h
      exact .inr ⟨by simp, Json.loadsAll all, by rw [Json.loads]⟩
  | object => simp [PyVal.dumps] at h

end Json

theorem dumpBlock_some {p : BlockPool} {h : BlockHashType} {id : Nat} {e : CacheEntry}
    (hDump : dumpBlock p h id = some e) :
    e.blockId = id ∧ e.refCnt = (p.block id).refCnt ∧
      ((∃ x, h.extraKeys = .scalar x) → e.key = h) ∧
      (e.key.hashable = true → ∃ x, h.extraKeys = .scalar x) := by
  rw [dumpBlock, Option.map_eq_some_iff] at hDump
  obtain ⟨extraKeys, hExtra, rfl⟩ := hDump
  refine ⟨rfl, rfl, ?_, ?_⟩
  · rintro ⟨x, hx⟩
    rcases PyVal.loads_dumps hExtra with ⟨y, hy, hLoads⟩ | ⟨hNone, -⟩
    · rw [CacheEntry.key, hLoads, ← hy]
    · exact absurd hx (hNone x)
  · intro hHash
    rcases PyVal.loads_dumps hExtra with ⟨y, hy, -⟩ | ⟨-, items, hLoads⟩
    · exact ⟨y, hy⟩
    · simp [BlockHashType.hashable, CacheEntry.key, hLoads, PyVal.hashable] at hHash

theorem mem_cachedBlocks (p : BlockPool) (h : BlockHashType) (id : Nat) :
    (h, id) ∈ cachedBlocks p ↔ id ∈ p.cachedIds h := by
  rw [cachedBlocks, List.mem_flatMap, BlockPool.cachedIds]
  constructor
  · rintro ⟨⟨k, ids⟩, hEntry, hMem⟩
    obtain ⟨i, hi, hSame⟩ := List.mem_map.mp hMem
    obtain ⟨rfl, rfl⟩ := Prod.mk.inj hSame
    rw [(Dict.mem_entries_iff _ _ _).mp hEntry]
    exact hi
  · intro hMem
    cases hGet : p.cachedBlockHashToBlock.get? h with
    | none => simp [hGet] at hMem
    | some ids =>
        exact ⟨(h, ids), (Dict.mem_entries_iff _ _ _).mpr hGet,
          List.mem_map.mpr ⟨id, by simpa [hGet] using hMem, rfl⟩⟩

section Restore

variable (p : BlockPool) (e : CacheEntry)

@[simp] theorem restoreRef_numBlocks : (restoreRef p e).numBlocks = p.numBlocks := by
  rw [restoreRef]
  dsimp only
  split
  · rfl
  · split <;> rfl

@[simp] theorem restoreRef_cached :
    (restoreRef p e).cachedBlockHashToBlock = p.cachedBlockHashToBlock := by
  rw [restoreRef]
  dsimp only
  split
  · rfl
  · split <;> rfl

theorem restoreRef_block_of_ne {id : Nat} (h : id ≠ e.blockId) :
    (restoreRef p e).block id = p.block id := by
  rw [restoreRef]
  dsimp only
  split
  · exact if_neg h
  · split <;> exact if_neg h

theorem restoreRef_blockHash : ((restoreRef p e).block e.blockId).blockHash = some e.key := by
  rw [restoreRef]
  dsimp only
  split
  · simp [BlockPool.setBlock]
  · split <;> simp [BlockPool.setBlock]

theorem cachedIds_restoreRef (h : BlockHashType) :
    (restoreRef p e).cachedIds h = p.cachedIds h := by
  rw [BlockPool.cachedIds, restoreRef_cached, BlockPool.cachedIds]

end Restore

theorem mem_cachedIds_cache (p : BlockPool) {k : BlockHashType} (id : Nat)
    (hHash : k.hashable = true) (h : BlockHashType) (id' : Nat) :
    id' ∈ (p.cache k id hHash).cachedIds h ↔ id' ∈ p.cachedIds h ∨ h = k ∧ id' = id := by
  have hIds : (p.cache k id hHash).cachedIds h = if h = k then
      (if id ∈ p.cachedIds k then p.cachedIds k else p.cachedIds k ++ [id]) else p.cachedIds h := by
    rw [BlockPool.cachedIds, BlockPool.cache, Dict.get?_set]
    split <;> rfl
  rw [hIds]
  by_cases hKey : h = k
  · subst hKey
    by_cases hMem : id ∈ p.cachedIds h
    · simp only [if_true, if_pos hMem, true_and]
      exact ⟨Or.inl, fun hOr => hOr.elim (fun hIn => hIn) fun hSame => hSame ▸ hMem⟩
    · simp [hMem]
  · simp [hKey]

/-- Without an exception every entry in range is cached, under a key that hashes. -/
theorem restoreCache_returns {entries : List CacheEntry} {p p' : BlockPool}
    (h : restoreCache p entries = (p', true)) :
    p'.numBlocks = p.numBlocks ∧
      (∀ e ∈ entries, e.blockId < p.numBlocks → e.key.hashable = true) ∧
      ∀ k id, id ∈ p'.cachedIds k ↔
        id ∈ p.cachedIds k ∨ ∃ e ∈ entries, e.blockId < p.numBlocks ∧ k = e.key ∧ id = e.blockId := by
  induction entries generalizing p with
  | nil =>
      rw [restoreCache, Prod.mk.injEq] at h
      simp [h.1]
  | cons e rest ih =>
      rw [restoreCache] at h
      split at h
      · rename_i hOut
        obtain ⟨hNum, hHash, hIds⟩ := ih h
        refine ⟨hNum, ?_, fun k id => ?_⟩
        · intro e' he' hIn
          rcases List.mem_cons.mp he' with rfl | he'
          · omega
          · exact hHash e' he' hIn
        · rw [hIds, List.exists_mem_cons_iff]
          simp [Nat.not_lt.mpr hOut]
      · rename_i hIn
        split at h
        · rename_i hKey
          obtain ⟨hNum, hHash, hIds⟩ := ih h
          change p'.numBlocks = (restoreRef p e).numBlocks at hNum
          change ∀ e' ∈ rest, e'.blockId < (restoreRef p e).numBlocks → _ at hHash
          rw [restoreRef_numBlocks] at hNum hHash
          refine ⟨hNum, ?_, fun k id => ?_⟩
          · intro e' he' hIn'
            rcases List.mem_cons.mp he' with rfl | he'
            · exact hKey
            · exact hHash e' he' hIn'
          · rw [hIds, mem_cachedIds_cache, cachedIds_restoreRef, List.exists_mem_cons_iff, or_assoc]
            change _ ∨ _ ∨ (∃ e' ∈ rest, e'.blockId < (restoreRef p e).numBlocks ∧ _) ↔ _
            rw [restoreRef_numBlocks]
            simp only [Nat.not_le.mp hIn, true_and]
        · simp at h

/-- An exception leaves the block of some entry with its unhashable key, and
everything cached stands under the key of an entry. -/
theorem restoreCache_raises {entries : List CacheEntry} {p p' : BlockPool}
    (h : restoreCache p entries = (p', false)) :
    p'.numBlocks = p.numBlocks ∧
      (∃ e ∈ entries, e.blockId < p.numBlocks ∧ e.key.hashable = false ∧
        (p'.block e.blockId).blockHash = some e.key) ∧
      ∀ k id, id ∈ p'.cachedIds k → id ∈ p.cachedIds k ∨ ∃ e ∈ entries, k = e.key := by
  induction entries generalizing p with
  | nil => simp [restoreCache] at h
  | cons e rest ih =>
      rw [restoreCache] at h
      split at h
      · obtain ⟨hNum, ⟨e', he', hRest⟩, hIds⟩ := ih h
        refine ⟨hNum, ⟨e', List.mem_cons_of_mem e he', hRest⟩, fun k id hId => ?_⟩
        exact (hIds k id hId).imp_right fun ⟨e', he', hKey⟩ => ⟨e', List.mem_cons_of_mem e he', hKey⟩
      · rename_i hIn
        split at h
        · obtain ⟨hNum, ⟨e', he', hIn', hHash', hBlock⟩, hIds⟩ := ih h
          refine ⟨hNum.trans (restoreRef_numBlocks p e), ⟨e', List.mem_cons_of_mem e he',
            restoreRef_numBlocks p e ▸ hIn', hHash', hBlock⟩, fun k id hId => ?_⟩
          rcases hIds k id hId with hOld | ⟨e', he', hKey⟩
          · rw [mem_cachedIds_cache, cachedIds_restoreRef] at hOld
            exact hOld.imp_right fun hNew => ⟨e, List.mem_cons_self, hNew.1⟩
          · exact .inr ⟨e', List.mem_cons_of_mem e he', hKey⟩
        · rename_i hHash
          rw [Prod.mk.injEq] at h
          obtain ⟨rfl, -⟩ := h
          refine ⟨restoreRef_numBlocks p e, ⟨e, List.mem_cons_self, Nat.not_le.mp hIn,
            by simpa using hHash, restoreRef_blockHash p e⟩, fun k id hId => ?_⟩
          rw [cachedIds_restoreRef] at hId
          exact .inl hId

section Requests

@[simp] theorem attachBlock_cached (p : BlockPool) (id : Nat) :
    (attachBlock p id).cachedBlockHashToBlock = p.cachedBlockHashToBlock := by
  rw [attachBlock]
  dsimp only
  split <;> rfl

theorem foldl_attachBlock_cached (ids : List Nat) (p : BlockPool) :
    (ids.foldl attachBlock p).cachedBlockHashToBlock = p.cachedBlockHashToBlock := by
  induction ids generalizing p with
  | nil => rfl
  | cons id rest ih => rw [List.foldl_cons, ih, attachBlock_cached]

/-- Part B leaves the prefix cache alone. -/
theorem restoreRequests_cached (v : Vllm Status Params) (entries : List RequestEntry)
    (s : Scheduler Status Params) :
    (restoreRequests v s entries).1.blockPool.cachedBlockHashToBlock =
      s.blockPool.cachedBlockHashToBlock := by
  induction entries generalizing s with
  | nil => rfl
  | cons e rest ih =>
      rw [restoreRequests]
      split
      · rfl
      · rw [ih, attachRequest]
        exact foldl_attachBlock_cached _ _

/-- When part A returns, the prefix cache is that of part A. -/
theorem restorePatch_cachedIds {v : Vllm Status Params} {s : Scheduler Status Params}
    {f : StateFile} {p : BlockPool} (h : restoreCache s.blockPool f.prefixCache = (p, true))
    (enableB : Bool) (k : BlockHashType) :
    (restorePatch v enableB s f).1.blockPool.cachedIds k = p.cachedIds k := by
  rw [restorePatch, h]
  dsimp only
  split
  · rw [BlockPool.cachedIds, restoreRequests_cached, BlockPool.cachedIds]
  · rfl

end Requests

theorem hashable_of_mem_cachedIds {p : BlockPool} {h : BlockHashType} {id : Nat}
    (hMem : id ∈ p.cachedIds h) : h.hashable = true := by
  apply p.keys_hashable h
  cases hGet : p.cachedBlockHashToBlock.get? h with
  | none => simp [BlockPool.cachedIds, hGet] at hMem
  | some ids => exact List.mem_map.mpr ⟨(h, ids), (Dict.mem_entries_iff _ _ _).mpr hGet, rfl⟩

/-- A hash with a tuple is the key of no entry: it has a tuple where entries have lists. -/
theorem key_ne_of_not_scalar {p : BlockPool} {h : BlockHashType} {id : Nat}
    (hMem : id ∈ p.cachedIds h) {e : CacheEntry} (hDump : dumpBlock p h id = some e)
    (hNotScalar : ¬ ∃ value, h.extraKeys = .scalar value) (e' : CacheEntry) : h ≠ e'.key := by
  intro hKey
  cases hExtra : h.extraKeys with
  | scalar value => exact hNotScalar ⟨value, hExtra⟩
  | tuple items =>
      have hLoads : e'.extraKeys.loads = .tuple items := by
        rw [← hExtra, hKey, CacheEntry.key]
      exact Json.loads_ne_tuple _ items hLoads
  | list items =>
      have hHashable := hashable_of_mem_cachedIds hMem
      simp [BlockHashType.hashable, hExtra, PyVal.hashable] at hHashable
  | object => simp [dumpBlock, hExtra, PyVal.dumps] at hDump

/-- The round trip works exactly when no cached hash has a tuple as extra keys. -/
theorem roundTrip_iff (v : Vllm Status Params) (enableB : Bool)
    (source target : Scheduler Status Params) {f : StateFile} (hDump : dumpState v source = some f)
    (hInside : ∀ h, ∀ id ∈ source.blockPool.cachedIds h, id < source.blockPool.numBlocks)
    (hRoom : source.blockPool.numBlocks ≤ target.blockPool.numBlocks)
    (hEmpty : target.blockPool.CacheEmpty) :
    RoundTrip source.blockPool target.blockPool (restorePatch v enableB target f) ↔
      ∀ h id, id ∈ source.blockPool.cachedIds h → ∃ value, h.extraKeys = .scalar value := by
  rw [dumpState, Option.map_eq_some_iff] at hDump
  obtain ⟨entries, hEntries, rfl⟩ := hDump
  obtain ⟨hInto, hFrom⟩ := mem_of_mapM hEntries
  have hReached : ∀ h id, id ∈ source.blockPool.cachedIds h →
      ∃ e ∈ entries, dumpBlock source.blockPool h id = some e ∧
        e.blockId < target.blockPool.numBlocks := by
    intro h id hMem
    obtain ⟨e, he, hBlock⟩ := hInto (h, id) ((mem_cachedBlocks _ h id).mpr hMem)
    refine ⟨e, he, hBlock, ?_⟩
    rw [(dumpBlock_some hBlock).1]
    exact Nat.lt_of_lt_of_le (hInside h id hMem) hRoom
  rcases hCache : restoreCache target.blockPool entries with ⟨p, returned⟩
  cases returned with
  | true =>
      obtain ⟨-, hHash, hIds⟩ := restoreCache_returns hCache
      have hScalar : ∀ h id, id ∈ source.blockPool.cachedIds h →
          ∃ value, h.extraKeys = .scalar value := by
        intro h id hMem
        obtain ⟨e, he, hBlock, hIn⟩ := hReached h id hMem
        exact (dumpBlock_some hBlock).2.2.2 (hHash e he hIn)
      refine iff_of_true (.inl fun h id => ?_) hScalar
      rw [restorePatch_cachedIds hCache, hIds, hEmpty.cached]
      constructor
      · rintro (hNone | ⟨e, he, -, rfl, rfl⟩)
        · simp at hNone
        · obtain ⟨⟨k, i⟩, hc, hBlock⟩ := hFrom e he
          rw [mem_cachedBlocks] at hc
          obtain ⟨hId, -, hKey, -⟩ := dumpBlock_some hBlock
          rw [hKey (hScalar k i hc), hId]
          exact hc
      · intro hMem
        obtain ⟨e, he, hBlock, hIn⟩ := hReached h id hMem
        obtain ⟨hId, -, hKey, -⟩ := dumpBlock_some hBlock
        exact .inr ⟨e, he, hIn, (hKey (hScalar h id hMem)).symm, hId.symm⟩
  | false =>
      obtain ⟨-, ⟨e, he, hIn, hHash, hBlockHash⟩, hIds⟩ := restoreCache_raises hCache
      have hRestored : restorePatch v enableB target
          ⟨entries, source.running.map (dumpRequest v source .running) ++
            source.waiting.map (dumpRequest v source .waiting)⟩ =
          ({ target with blockPool := p }, false) := by
        rw [restorePatch, hCache]
      obtain ⟨⟨h, id⟩, hc, hBlock⟩ := hFrom e he
      rw [mem_cachedBlocks] at hc
      have hNotScalar : ¬ ∃ value, h.extraKeys = .scalar value := by
        intro hScalar
        rw [(dumpBlock_some hBlock).2.2.1 hScalar, BlockHashType.hashable] at hHash
        obtain ⟨value, hValue⟩ := hScalar
        simp [hValue, PyVal.hashable] at hHash
      refine iff_of_false ?_ fun hAll => hNotScalar (hAll h id hc)
      rw [RoundTrip, hRestored]
      rintro (hSame | ⟨-, hPool⟩)
      · rcases hIds h id ((hSame h id).mpr hc) with hOld | ⟨e', _, hKey⟩
        · rw [hEmpty.cached] at hOld
          cases hOld
        · exact key_ne_of_not_scalar hc hBlock hNotScalar e' hKey
      · rw [show p = target.blockPool from hPool, hEmpty.blocks e.blockId hIn] at hBlockHash
        cases hBlockHash

/-- Classes whose request status has one member. -/
def plainVllm : Vllm Unit Unit where
  statusName _ := "RUNNING"
  requestStatus name := if name = "RUNNING" then some () else none
  structFields _ := []
  samplingParams _ := some ()
  hasSpecTokenIds := true

/-- A fresh scheduler with one free block. -/
def freshScheduler : Scheduler Unit Unit where
  blockPool :=
    { numBlocks := 1, block := fun _ => ⟨0, none⟩, freeBlockQueue := [0],
      cachedBlockHashToBlock := .empty, queue_nodup := List.nodup_singleton 0,
      keys_hashable := fun _ hk => absurd hk List.not_mem_nil }
  blockSize := 16
  reqToBlocks := .empty
  numCachedBlock := .empty
  reqToBlockHashes := .empty
  requests := .empty
  running := []
  waiting := []

/-- The same scheduler with its block cached under a key. -/
def cachedScheduler (h : BlockHashType) (hHash : h.hashable = true) : Scheduler Unit Unit :=
  { freshScheduler with
    blockPool := (freshScheduler.blockPool.setBlock 0 ⟨0, some h⟩).cache h 0 hHash }

theorem freshScheduler_cacheEmpty : freshScheduler.blockPool.CacheEmpty :=
  ⟨fun _ => rfl, fun _ _ => rfl⟩

theorem cachedScheduler_inside (h : BlockHashType) (hHash : h.hashable = true) :
    ∀ k, ∀ id ∈ (cachedScheduler h hHash).blockPool.cachedIds k,
      id < (cachedScheduler h hHash).blockPool.numBlocks := by
  intro k id hMem
  rcases (mem_cachedIds_cache _ _ hHash k id).mp hMem with hNone | ⟨-, rfl⟩
  · cases hNone
  · exact Nat.one_pos

/-- A key without extra keys. -/
def textKey : BlockHashType := ⟨7, [1, 2], .scalar .none⟩

theorem roundTrip_textKey :
    RoundTrip (cachedScheduler textKey rfl).blockPool freshScheduler.blockPool
        (restorePatch plainVllm false freshScheduler ⟨[⟨7, [1, 2], .scalar .none, 0, 0⟩], []⟩) ↔
      ∀ h id, id ∈ (cachedScheduler textKey rfl).blockPool.cachedIds h →
        ∃ value, h.extraKeys = .scalar value :=
  roundTrip_iff plainVllm false (cachedScheduler textKey rfl) freshScheduler rfl
    (cachedScheduler_inside textKey rfl) (Nat.le_refl 1) freshScheduler_cacheEmpty

/-- A key with the id of a LoRA adapter. -/
def adapterKey : BlockHashType := ⟨7, [1, 2], .tuple [.scalar (.int 3)]⟩

/-- The key of the adapter raises, with the hash of the block already written. -/
theorem not_roundTrip_adapterKey :
    ¬ ∀ (source target : Scheduler Unit Unit) (f : StateFile),
      dumpState plainVllm source = some f →
      (∀ h, ∀ id ∈ source.blockPool.cachedIds h, id < source.blockPool.numBlocks) →
      source.blockPool.numBlocks ≤ target.blockPool.numBlocks → target.blockPool.CacheEmpty →
      RoundTrip source.blockPool target.blockPool (restorePatch plainVllm false target f) := by
  intro h
  have hTrip := h (cachedScheduler adapterKey rfl) freshScheduler
    ⟨[⟨7, [1, 2], .array [.scalar (.int 3)], 0, 0⟩], []⟩ rfl (cachedScheduler_inside adapterKey rfl)
    (Nat.le_refl 1) freshScheduler_cacheEmpty
  rcases hTrip with hSame | ⟨-, hPool⟩
  · exact List.not_mem_nil ((hSame adapterKey 0).mpr List.mem_cons_self)
  · have hHash := congrArg (fun p => ((BlockPool.block p) 0).blockHash) hPool
    cases hHash

end FlashCkpt.Engine
