import FlashCkpt.Core.CpuSections
import FlashCkpt.Library.Blocks

/-! The batch functions over captures that are whole numbers of chunks. Chunk by chunk the
gathered bytes come back encrypted, as far as the 32-bit count of the chunks reaches, and the
chunks of a capture stay with it. -/
namespace FlashCkpt.Core

open ByteImage Crypto Image Blocks

variable (x : Ciphers)

/-- What a batch gathers. -/
def BatchKind.plain (kind : BatchKind) (caps : List RangeCapture) : Bytes :=
  kind.gathered (caps.map RangeCapture.bufs)

/-- `total_pages`. -/
def BatchKind.totalChunks (kind : BatchKind) (caps : List RangeCapture) : Nat :=
  totalPages (kind.plain caps).length kind.chunk

/-- The chunks that a batch hands to the cipher. -/
def BatchKind.handed (kind : BatchKind) (key : Bytes) (counter : Nat) (env : BatchEnv)
    (caps : List RangeCapture) : List Handed :=
  encryptPages key (kind.plain caps) (kind.totalChunks caps) kind.chunk counter env.encryptThreads
    env.online

/-- `encryptCaptures` from any value of the IV counter on. -/
def encryptCapturesFrom (kind : BatchKind) (key : Bytes) (counter : Nat) (env : BatchEnv)
    (caps : List RangeCapture) : Option (List RangeCapture) :=
  let handed := kind.handed key counter env caps
  if kind.totalChunks caps = 0 then some caps
  else
    match env.outcome with
    | .ok =>
        some (scatter x kind handed env.allocOk 0 0
          (handed.flatMap (fun h => (x.gcm.encrypt h.key h.iv h.plain).1) ++
            (kind.plain caps).drop (kind.totalChunks caps * kind.chunk)) caps)
    | _ => none

/-- The whole chunks of a capture. -/
def BatchKind.count (kind : BatchKind) (c : RangeCapture) : Nat :=
  (kind.part c).length / kind.chunk

/-- The whole chunks of the captures in front of one. -/
def BatchKind.before (kind : BatchKind) (caps : List RangeCapture) (j : Nat) : Nat :=
  ((caps.take j).map kind.count).sum

/-- A chunk behind a batch: only the first `pages` chunks are encrypted. -/
def sealedChunk (key : Bytes) (counter pages q : Nat) (plain : Bytes) : Bytes :=
  if q < pages then (x.gcm.encrypt key (buildIv (counter + q)) plain).1 else plain

/-- The metadata of a capture, as they are copied out of the array of the batch. -/
def freshMetas (kind : BatchKind) (handed : List Handed) (before count : Nat) : List CryptoMeta :=
  (List.range (count % 2 ^ 32)).map fun e =>
    copiedMeta x kind.chunk handed ((before + e) % 2 ^ 32)

theorem BatchKind.chunk_pos (kind : BatchKind) : 0 < kind.chunk := by
  cases kind with
  | captures chunkSize =>
      rw [BatchKind.chunk]
      split
      · decide
      · omega
  | cpuPages => decide

theorem part_captures (chunkSize : Nat) (c : RangeCapture) :
    (BatchKind.captures chunkSize).part c = c.cpuBuf ++ c.gpuBuf := List.flatten_singleton

theorem part_cpuPages (c : RangeCapture) : BatchKind.cpuPages.part c = c.cpuBuf :=
  List.flatten_singleton

theorem sealedChunk_length (key : Bytes) (counter pages q : Nat) (plain : Bytes) :
    (sealedChunk x key counter pages q plain).length = plain.length := by
  rw [sealedChunk]
  split
  · exact x.gcm.cipher_length _ _ _
  · rfl

/-- The encrypted part of a capture is the front of what is scattered to it. -/
theorem part_store (kind : BatchKind) (c : RangeCapture) (gathered : Bytes)
    (fresh : List CryptoMeta) (allocOk : Bool) :
    kind.part (kind.store c gathered fresh allocOk) = gathered.take (kind.part c).length := by
  cases kind with
  | captures chunkSize =>
      rw [part_captures, part_captures, List.length_append, List.take_add]
      rfl
  | cpuPages =>
      rw [part_cpuPages, part_cpuPages]
      rfl

section Aligned

variable {kind : BatchKind} {caps : List RangeCapture}
  (hWhole : ∀ c ∈ caps, kind.chunk ∣ (kind.part c).length)
include hWhole

theorem part_length_eq {c : RangeCapture} (hc : c ∈ caps) :
    (kind.part c).length = kind.count c * kind.chunk :=
  (Nat.div_mul_cancel (hWhole c hc)).symm

theorem flatMap_part_length {front : List RangeCapture} (hFront : ∀ c ∈ front, c ∈ caps) :
    (front.flatMap kind.part).length = (front.map kind.count).sum * kind.chunk := by
  rw [List.length_flatMap, List.map_congr_left fun c hc => part_length_eq hWhole (hFront c hc)]
  exact SizeCut.total_mul kind.count front kind.chunk

theorem plain_length :
    (kind.plain caps).length = (caps.map kind.count).sum * kind.chunk := by
  rw [BatchKind.plain, gathered_eq_flatMap]
  exact flatMap_part_length hWhole fun _ hc => hc

theorem totalChunks_eq : kind.totalChunks caps = (caps.map kind.count).sum % 2 ^ 32 := by
  rw [BatchKind.totalChunks, totalPages, plain_length hWhole, Nat.mul_div_cancel _ kind.chunk_pos]

/-- A capture's slice of the gathered bytes. -/
theorem plain_slice {j : Nat} {c : RangeCapture} (hj : caps[j]? = some c) :
    ((kind.plain caps).drop (kind.before caps j * kind.chunk)).take
      (kind.count c * kind.chunk) = kind.part c := by
  obtain ⟨hLess, hAt⟩ := List.getElem?_eq_some_iff.mp hj
  have hSplit : caps = caps.take j ++ c :: caps.drop (j + 1) := by
    rw [← hAt, List.getElem_cons_drop, List.take_append_drop]
  have hFront := flatMap_part_length hWhole fun d (hd : d ∈ caps.take j) => List.mem_of_mem_take hd
  have hPart := part_length_eq hWhole (List.mem_of_getElem? hj)
  have hPlain : kind.plain caps = (caps.take j).flatMap kind.part ++
      (kind.part c ++ (caps.drop (j + 1)).flatMap kind.part) := by
    rw [BatchKind.plain, gathered_eq_flatMap, ← List.flatMap_cons, ← List.flatMap_append, ← hSplit]
  rw [hPlain, BatchKind.before, List.drop_left' hFront, List.take_left' hPart]

/-- The buffer that is scattered, chunk by chunk. -/
theorem batchBuffer_eq (key : Bytes) (counter : Nat) (env : BatchEnv) :
    (kind.handed key counter env caps).flatMap (fun h => (x.gcm.encrypt h.key h.iv h.plain).1) ++
        (kind.plain caps).drop (kind.totalChunks caps * kind.chunk) =
      (List.range (caps.map kind.count).sum).flatMap fun q =>
        sealedChunk x key counter (kind.totalChunks caps) q
          (block kind.chunk (kind.plain caps) q) := by
  have hLe : kind.totalChunks caps ≤ (caps.map kind.count).sum := by
    rw [totalChunks_eq hWhole]
    exact Nat.mod_le _ _
  have hLength := plain_length hWhole
  obtain ⟨rest, hRest⟩ := Nat.exists_eq_add_of_le hLe
  have hBehind : ((kind.plain caps).drop (kind.totalChunks caps * kind.chunk)).length =
      rest * kind.chunk := by
    rw [List.length_drop, hLength, hRest, Nat.add_mul, Nat.add_sub_cancel_left]
  rw [hRest, flatMap_add, BatchKind.handed, encryptPages_eq, List.flatMap_map]
  congr 1
  · apply List.flatMap_congr
    intro q hq
    rw [sealedChunk, if_pos (List.mem_range.mp hq), block]
  · conv_lhs => rw [← flatMap_block_self hBehind]
    apply List.flatMap_congr
    intro k _
    rw [block_drop, sealedChunk, if_neg (Nat.not_lt.mpr (Nat.le_add_right _ _))]

/-- What is scattered to a capture. -/
theorem batchBuffer_slice (key : Bytes) (counter : Nat) (env : BatchEnv) {j : Nat}
    {c : RangeCapture} (hj : caps[j]? = some c) :
    (((kind.handed key counter env caps).flatMap
        (fun h => (x.gcm.encrypt h.key h.iv h.plain).1) ++
      (kind.plain caps).drop (kind.totalChunks caps * kind.chunk)).drop
        (kind.before caps j * kind.chunk)).take (kind.part c).length =
      (List.range (kind.count c)).flatMap fun k =>
        sealedChunk x key counter (kind.totalChunks caps) (kind.before caps j + k)
          (block kind.chunk (kind.part c) k) := by
  have hEnough : kind.before caps j + kind.count c ≤ (caps.map kind.count).sum :=
    sum_take_add_le kind.count hj
  have hLength := plain_length hWhole
  rw [batchBuffer_eq x hWhole, part_length_eq hWhole (List.mem_of_getElem? hj),
    flatMap_slice ?_ hEnough]
  · apply List.flatMap_congr
    intro k hk
    rw [← plain_slice hWhole hj, block_slice _ (List.mem_range.mp hk)]
  · intro q hq
    rw [sealedChunk_length]
    apply block_length
    rw [hLength]
    exact Nat.mul_le_mul_right _ hq

/-- A capture behind a batch that encrypts something. -/
theorem encryptCapturesFrom_getElem? (key : Bytes) (counter : Nat) {env : BatchEnv}
    (hPages : kind.totalChunks caps ≠ 0) {after : List RangeCapture}
    (h : encryptCapturesFrom x kind key counter env caps = some after) {j : Nat}
    {c : RangeCapture} (hj : caps[j]? = some c) :
    ∃ gathered, after[j]? = some (kind.store c gathered
        (freshMetas x kind (kind.handed key counter env caps) (kind.before caps j) (kind.count c))
        (env.allocOk j)) ∧
      gathered.take (kind.part c).length = (List.range (kind.count c)).flatMap fun k =>
        sealedChunk x key counter (kind.totalChunks caps) (kind.before caps j + k)
          (block kind.chunk (kind.part c) k) := by
  have hOk : env.outcome = .ok := by
    rw [encryptCapturesFrom, if_neg hPages] at h
    split at h
    · rename_i hOutcome
      exact hOutcome
    · cases h
  rw [encryptCapturesFrom, if_neg hPages, hOk, Option.some.injEq] at h
  subst h
  have hStart : ((caps.take j).map fun c => (kind.part c).length).sum =
      kind.before caps j * kind.chunk := by
    rw [← List.length_flatMap]
    exact flatMap_part_length hWhole fun d hd => List.mem_of_mem_take hd
  have hCounts : (fun c => totalPages (kind.part c).length kind.chunk) =
      fun c => kind.count c % 2 ^ 32 := rfl
  refine ⟨_, ?_, batchBuffer_slice x hWhole key counter env hj⟩
  rw [scatter_getElem?, hj, Option.map_some, hStart, hCounts]
  simp only [Nat.zero_add, sum_mod_add]
  rfl

end Aligned

theorem encryptCapturesFrom_length {kind : BatchKind} {key : Bytes} {counter : Nat}
    {env : BatchEnv} {caps after : List RangeCapture}
    (h : encryptCapturesFrom x kind key counter env caps = some after) :
    after.length = caps.length := by
  rw [encryptCapturesFrom] at h
  split at h
  · cases h
    rfl
  · split at h
    · cases h
      exact scatter_length x kind _ _ _ _ _ _
    · cases h

end FlashCkpt.Core
