import FlashCkpt.Library.OrderedDict

/-! `ckpt_engine_state.py`: the block pool and the requests of a vLLM scheduler,
the state file that `dump_state` writes, and `restore_patch`. The classes of
vLLM are parameters; an exception leaves the state as it is at that point. -/
namespace FlashCkpt.Engine

open OrderedDict

/-- The values that `json` writes and reads as they are. -/
inductive Scalar where
  | none
  | bool (value : Bool)
  | int (value : Int)
  | float (digits : String)
  | str (value : String)
  deriving DecidableEq, Repr

/-- A Python value in a key or a parameter; an `object` is one that `json` refuses. -/
inductive PyVal where
  | scalar (value : Scalar)
  | tuple (items : List PyVal)
  | list (items : List PyVal)
  | object
  deriving Repr

mutual

def PyVal.decEq : (a b : PyVal) → Decidable (a = b)
  | .scalar a, .scalar b => decidable_of_iff (a = b) (by simp)
  | .tuple a, .tuple b => @decidable_of_iff _ (a = b) (by simp) (PyVal.decEqAll a b)
  | .list a, .list b => @decidable_of_iff _ (a = b) (by simp) (PyVal.decEqAll a b)
  | .object, .object => .isTrue rfl
  | .scalar _, .tuple _ | .scalar _, .list _ | .scalar _, .object => .isFalse nofun
  | .tuple _, .scalar _ | .tuple _, .list _ | .tuple _, .object => .isFalse nofun
  | .list _, .scalar _ | .list _, .tuple _ | .list _, .object => .isFalse nofun
  | .object, .scalar _ | .object, .tuple _ | .object, .list _ => .isFalse nofun

def PyVal.decEqAll : (a b : List PyVal) → Decidable (a = b)
  | [], [] => .isTrue rfl
  | [], _ :: _ | _ :: _, [] => .isFalse nofun
  | x :: xs, y :: ys =>
      @decidable_of_iff _ (x = y ∧ xs = ys) (by simp)
        (@instDecidableAnd _ _ (PyVal.decEq x y) (PyVal.decEqAll xs ys))

end

instance : DecidableEq PyVal := PyVal.decEq

inductive Json where
  | scalar (value : Scalar)
  | array (items : List Json)
  deriving Repr

mutual

/-- `json.dump`: tuples and lists are arrays. -/
def PyVal.dumps : PyVal → Option Json
  | .scalar value => some (.scalar value)
  | .tuple items | .list items => (PyVal.dumpsAll items).map .array
  | .object => none

def PyVal.dumpsAll : List PyVal → Option (List Json)
  | [] => some []
  | item :: rest => do return (← item.dumps) :: (← PyVal.dumpsAll rest)

end

mutual

/-- `json.load`: an array is a list. -/
def Json.loads : Json → PyVal
  | .scalar value => .scalar value
  | .array items => .list (Json.loadsAll items)

def Json.loadsAll : List Json → List PyVal
  | [] => []
  | item :: rest => item.loads :: Json.loadsAll rest

end

mutual

/-- A list cannot be hashed, nor can a tuple with one inside. -/
def PyVal.hashable : PyVal → Bool
  | .scalar _ | .object => true
  | .list _ => false
  | .tuple items => PyVal.allHashable items

def PyVal.allHashable : List PyVal → Bool
  | [] => true
  | item :: rest => item.hashable && PyVal.allHashable rest

end

/-- vLLM's named tuple, compared and hashed by its fields. -/
structure BlockHashType where
  hashValue : Int
  tokenIds : List Int
  extraKeys : PyVal
  deriving DecidableEq, Repr

def BlockHashType.hashable (h : BlockHashType) : Bool := h.extraKeys.hashable

structure KVCacheBlock where
  refCnt : Nat
  blockHash : Option BlockHashType
  deriving DecidableEq, Repr

/-- `block_pool`: its blocks by number, the free queue, and the ids of the blocks
that each hash is cached in. What is hashed into a dictionary is hashable. -/
structure BlockPool where
  numBlocks : Nat
  block : Nat → KVCacheBlock
  freeBlockQueue : List Nat
  cachedBlockHashToBlock : Dict BlockHashType (List Nat)
  queue_nodup : freeBlockQueue.Nodup
  keys_hashable : ∀ h ∈ cachedBlockHashToBlock.entries.map Prod.fst, h.hashable = true

def BlockPool.setBlock (p : BlockPool) (id : Nat) (b : KVCacheBlock) : BlockPool :=
  { p with block := fun other => if other = id then b else p.block other }

/-- `free_block_queue.remove`. -/
def BlockPool.takeFree (p : BlockPool) (id : Nat) : BlockPool :=
  { p with freeBlockQueue := p.freeBlockQueue.erase id, queue_nodup := p.queue_nodup.erase id }

/-- The blocks a hash is cached in; the map is a `defaultdict`. -/
def BlockPool.cachedIds (p : BlockPool) (h : BlockHashType) : List Nat :=
  (p.cachedBlockHashToBlock.get? h).getD []

theorem keys_hashable_set {d : Dict BlockHashType (List Nat)} {h : BlockHashType}
    (hKeys : ∀ k ∈ d.entries.map Prod.fst, k.hashable = true) (hHash : h.hashable = true)
    (ids : List Nat) : ∀ k ∈ (d.set h ids).entries.map Prod.fst, k.hashable = true := by
  intro k hk
  rcases (mem_keys_setEntries h ids d.entries k).mp hk with rfl | hOld
  · exact hHash
  · exact hKeys k hOld

/-- `cached_block_hash_to_block[h][id] = block`, for a key that can be hashed. -/
def BlockPool.cache (p : BlockPool) (h : BlockHashType) (id : Nat) (hHash : h.hashable = true) :
    BlockPool :=
  { p with
    cachedBlockHashToBlock := p.cachedBlockHashToBlock.set h
      (if id ∈ p.cachedIds h then p.cachedIds h else p.cachedIds h ++ [id])
    keys_hashable := keys_hashable_set p.keys_hashable hHash _ }

section Scheduler

variable (Status Params : Type)

/-- What the file uses of vLLM's classes: the names of `RequestStatus`, the fields
of `SamplingParams` and its constructor, which may raise. -/
structure Vllm where
  statusName : Status → String
  requestStatus : String → Option Status
  structFields : Params → List (String × PyVal)
  samplingParams : List (String × Json) → Option Params
  hasSpecTokenIds : Bool

structure Request where
  requestId : String
  promptTokenIds : List Int
  outputTokenIds : List Int
  numComputedTokens : Nat
  status : Status
  eosTokenId : Option Int
  samplingParams : Params
  specTokenIds : List Int

/-- The scheduler with its `kv_cache_manager`. -/
structure Scheduler where
  blockPool : BlockPool
  blockSize : Nat
  reqToBlocks : Dict String (List Nat)
  numCachedBlock : Dict String Nat
  reqToBlockHashes : Dict String (List BlockHashType)
  requests : Dict String (Request Status Params)
  running : List (Request Status Params)
  waiting : List (Request Status Params)

end Scheduler

structure CacheEntry where
  hashValue : Int
  tokenIds : List Int
  extraKeys : Json
  blockId : Nat
  refCnt : Nat

inductive QueueName where
  | running | waiting
  deriving DecidableEq, Repr

structure RequestEntry where
  queue : QueueName
  requestId : String
  promptTokenIds : List Int
  outputTokenIds : List Int
  numComputedTokens : Nat
  status : String
  eosTokenId : Option Int
  samplingParams : List (String × Json)
  blockIds : List Nat
  specTokenIds : List Int

/-- The file, of `version` 1. -/
structure StateFile where
  prefixCache : List CacheEntry
  requests : List RequestEntry

variable {Status Params : Type}

def skippedParams : List String :=
  ["logits_processors", "guided_decoding", "_all_stop_token_ids", "bad_words_token_ids"]

/-- `_sampling_params_to_dict`: what `json` refuses is left out. -/
def samplingParamsToDict (fields : List (String × PyVal)) : List (String × Json) :=
  fields.filterMap fun f => if f.1 ∈ skippedParams then none else f.2.dumps.map (f.1, ·)

/-- The entry of one cached block. -/
def dumpBlock (p : BlockPool) (h : BlockHashType) (id : Nat) : Option CacheEntry :=
  h.extraKeys.dumps.map fun extraKeys =>
    ⟨h.hashValue, h.tokenIds, extraKeys, id, (p.block id).refCnt⟩

/-- The cached blocks in the order of the two nested loops. -/
def cachedBlocks (p : BlockPool) : List (BlockHashType × Nat) :=
  p.cachedBlockHashToBlock.entries.flatMap fun e => e.2.map (e.1, ·)

def dumpRequest (v : Vllm Status Params) (s : Scheduler Status Params) (queue : QueueName)
    (r : Request Status Params) : RequestEntry where
  queue := queue
  requestId := r.requestId
  promptTokenIds := r.promptTokenIds
  outputTokenIds := r.outputTokenIds
  numComputedTokens := r.numComputedTokens
  status := v.statusName r.status
  eosTokenId := r.eosTokenId
  samplingParams := samplingParamsToDict (v.structFields r.samplingParams)
  blockIds := (s.reqToBlocks.get? r.requestId).getD []
  specTokenIds := if v.hasSpecTokenIds then r.specTokenIds else []

/-- `dump_state`; no file when `json.dump` raises. -/
def dumpState (v : Vllm Status Params) (s : Scheduler Status Params) : Option StateFile :=
  ((cachedBlocks s.blockPool).mapM fun c => dumpBlock s.blockPool c.1 c.2).map fun prefixCache =>
    ⟨prefixCache,
      s.running.map (dumpRequest v s .running) ++ s.waiting.map (dumpRequest v s .waiting)⟩

/-- The key that `restore_patch` builds: only the token ids are made a tuple again. -/
def CacheEntry.key (e : CacheEntry) : BlockHashType := ⟨e.hashValue, e.tokenIds, e.extraKeys.loads⟩

/-- The reference count and the free queue of the block of an entry. -/
def restoreRef (p : BlockPool) (e : CacheEntry) : BlockPool :=
  let wasFree := (p.block e.blockId).refCnt = 0
  let hashed := { p.block e.blockId with blockHash := some e.key }
  if 0 < e.refCnt ∧ wasFree then
    (p.takeFree e.blockId).setBlock e.blockId { hashed with refCnt := e.refCnt }
  else if e.refCnt = 0 then p.setBlock e.blockId { hashed with refCnt := 0 }
  else p.setBlock e.blockId { hashed with refCnt := max hashed.refCnt e.refCnt }

/-- Part A. The flag is false when the dictionary raises for an unhashable key. -/
def restoreCache : BlockPool → List CacheEntry → BlockPool × Bool
  | p, [] => (p, true)
  | p, e :: rest =>
      if p.numBlocks ≤ e.blockId then restoreCache p rest
      else if hHash : e.key.hashable = true then
        restoreCache ((restoreRef p e).cache e.key e.blockId hHash) rest
      else (restoreRef p e, false)

/-- A block is attached to a request. -/
def attachBlock (p : BlockPool) (id : Nat) : BlockPool :=
  let taken := if (p.block id).refCnt = 0 then p.takeFree id else p
  taken.setBlock id { p.block id with refCnt := (p.block id).refCnt + 1 }

/-- The blocks of a request that exist. -/
def RequestEntry.attached (e : RequestEntry) (p : BlockPool) : List Nat :=
  e.blockIds.filter fun id => id < p.numBlocks

/-- The hashes of the leading full blocks, up to the first one without a hash. -/
def priorHashes (p : BlockPool) : List Nat → List BlockHashType
  | [] => []
  | id :: rest =>
      match (p.block id).blockHash with
      | none => []
      | some h => h :: priorHashes p rest

/-- One request of part B once it is built. -/
def attachRequest (s : Scheduler Status Params) (e : RequestEntry)
    (r : Request Status Params) : Scheduler Status Params :=
  let blocks := e.attached s.blockPool
  let pool := blocks.foldl attachBlock s.blockPool
  let prior := priorHashes pool (blocks.take (e.numComputedTokens / s.blockSize))
  { s with
    blockPool := pool
    reqToBlocks := if blocks = [] then s.reqToBlocks else s.reqToBlocks.set e.requestId blocks
    numCachedBlock := s.numCachedBlock.set e.requestId prior.length
    reqToBlockHashes := s.reqToBlockHashes.set e.requestId prior
    requests := s.requests.set e.requestId r
    running := if e.queue = .running then s.running ++ [r] else s.running
    waiting := if e.queue = .running then s.waiting else s.waiting ++ [r] }

/-- The request of an entry, unless `SamplingParams` or `RequestStatus` raises. -/
def buildRequest (v : Vllm Status Params) (e : RequestEntry) : Option (Request Status Params) := do
  let samplingParams ← v.samplingParams e.samplingParams
  let status ← v.requestStatus e.status
  return { requestId := e.requestId, promptTokenIds := e.promptTokenIds,
           outputTokenIds := e.outputTokenIds, numComputedTokens := e.numComputedTokens,
           status := status, eosTokenId := e.eosTokenId, samplingParams := samplingParams,
           specTokenIds := if v.hasSpecTokenIds then e.specTokenIds else [] }

/-- Part B. -/
def restoreRequests (v : Vllm Status Params) :
    Scheduler Status Params → List RequestEntry → Scheduler Status Params × Bool
  | s, [] => (s, true)
  | s, e :: rest =>
      match buildRequest v e with
      | none => (s, false)
      | some r => restoreRequests v (attachRequest s e r) rest

/-- `restore_patch`: the scheduler it leaves, and whether it returns. -/
def restorePatch (v : Vllm Status Params) (enableB : Bool) (s : Scheduler Status Params)
    (f : StateFile) : Scheduler Status Params × Bool :=
  match restoreCache s.blockPool f.prefixCache with
  | (p, false) => ({ s with blockPool := p }, false)
  | (p, true) =>
      if enableB then restoreRequests v { s with blockPool := p } f.requests
      else ({ s with blockPool := p }, true)

end FlashCkpt.Engine
