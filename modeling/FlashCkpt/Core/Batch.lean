import FlashCkpt.Core.K3Counter
import FlashCkpt.Image.Fused

/-! The batch functions of `ckpt_core` with what they leave in the captures: the pages of
all captures are gathered, encrypted under `k3`, and scattered again with the metadata
of their chunks. -/
namespace FlashCkpt.Core

open ByteImage Crypto Image

/-- `range_capture_t`. -/
structure RangeCapture where
  layout : RangeLayout
  cpuBuf : Bytes
  gpuBuf : Bytes
  metas : List CryptoMeta

namespace RangeCapture

def bufs (c : RangeCapture) : Capture := ⟨c.cpuBuf, c.gpuBuf⟩

/-- What a writer stores of a capture. -/
def sections (c : RangeCapture) : Sections where
  baseVa := c.layout.base
  length := c.layout.length
  resmap := c.layout.residency.map Residency.code
  cpu := c.cpuBuf
  gpu := c.gpuBuf
  cryptoMeta := c.metas.flatMap CryptoMeta.encode

end RangeCapture

/-- The two ciphers, and the bytes behind the metadata array of a batch, which a
capture with too many pages is given. -/
structure Ciphers where
  gcm : Gcm
  channel : Channel
  strayIv : Nat → Bytes
  strayTag : Nat → Bytes
  strayIv_length : ∀ j, (strayIv j).length = ivSize
  strayTag_length : ∀ j, (strayTag j).length = tagSize

variable (x : Ciphers)

/-- `capture_range_encrypted`: the buffers as ioctl 115 fills them. -/
def captureRangeEncrypted (memory : ByteImage.Image) (n : Nat) (l : RangeLayout) :
    RangeCapture where
  layout := l
  cpuBuf := packed memory l.base (pagesOn l.residency .cpu)
  gpuBuf := (l.pieces memory n).flatMap (pieceCipher x.channel)
  metas := (l.pieces memory n).map (pieceMeta x.channel)

/-- `meta[j]` as it is copied into a capture. -/
def copiedMeta (chunk : Nat) (handed : List Handed) (j : Nat) : CryptoMeta :=
  match handed[j]? with
  | some h => ⟨chunk % 2 ^ 32, h.iv, 0, (x.gcm.encrypt h.key h.iv h.plain).2, 0⟩
  | none => ⟨chunk % 2 ^ 32, x.strayIv j, 0, x.strayTag j, 0⟩

/-- The pages of a capture that a batch function encrypts. -/
def BatchKind.part (kind : BatchKind) (c : RangeCapture) : Bytes := kind.gathered [c.bufs]

/-- The capture with its slice of the gathered bytes and with its metadata: in the
place of the old one, or behind it. -/
def BatchKind.store (kind : BatchKind) (c : RangeCapture) (gathered : Bytes)
    (fresh : List CryptoMeta) (allocOk : Bool) : RangeCapture :=
  match kind with
  | .captures _ =>
      { c with
        cpuBuf := gathered.take c.cpuBuf.length
        gpuBuf := (gathered.drop c.cpuBuf.length).take c.gpuBuf.length
        metas := if fresh = [] then c.metas else if allocOk then fresh else [] }
  | .cpuPages =>
      { c with
        cpuBuf := gathered.take c.cpuBuf.length
        metas := if allocOk then c.metas ++ fresh else c.metas }

/-- The scatter loop of the batch functions. The offset in the metadata array is a
32-bit number, and the allocation of a capture's metadata may fail. -/
def scatter (kind : BatchKind) (handed : List Handed) (allocOk : Nat → Bool) :
    (i metaOff : Nat) → Bytes → List RangeCapture → List RangeCapture
  | _, _, _, [] => []
  | i, metaOff, gathered, c :: rest =>
      let count := totalPages (kind.part c).length kind.chunk
      kind.store c gathered
          ((List.range count).map fun p => copiedMeta x kind.chunk handed ((metaOff + p) % 2 ^ 32))
          (allocOk i) ::
        scatter kind handed allocOk (i + 1) ((metaOff + count) % 2 ^ 32)
          (gathered.drop (kind.part c).length) rest

/-- How a batch goes apart from its pages. -/
structure BatchEnv where
  encryptThreads : Int
  online : Int
  outcome : BatchOutcome
  allocOk : Nat → Bool

/-- A batch function with all it does to the captures; the pages are encrypted in
place, and none means that it fails. -/
def encryptCaptures (kind : BatchKind) (key : Bytes) (env : BatchEnv)
    (caps : List RangeCapture) : Option (List RangeCapture) :=
  let plain := kind.gathered (caps.map RangeCapture.bufs)
  let pages := totalPages plain.length kind.chunk
  if pages = 0 then some caps
  else
    match env.outcome with
    | .ok =>
        let handed := encryptPages key plain pages kind.chunk 0 env.encryptThreads env.online
        some (scatter x kind handed env.allocOk 0 0
          (handed.flatMap (fun h => (x.gcm.encrypt h.key h.iv h.plain).1) ++
            plain.drop (pages * kind.chunk)) caps)
    | _ => none

/-- Captures made one after the other. -/
def captureAll (memory : ByteImage.Image) (n : Nat) (layouts : List RangeLayout) :
    List RangeCapture :=
  (numbered n layouts).map fun p => captureRangeEncrypted x memory p.1 p.2

theorem part_eq (kind : BatchKind) (c : RangeCapture) :
    ∃ behind, kind.part c = c.cpuBuf ++ behind := by
  cases kind with
  | captures chunkSize => exact ⟨c.gpuBuf ++ [], (List.append_assoc _ _ _).symm ▸ rfl⟩
  | cpuPages => exact ⟨[], rfl⟩

theorem gathered_eq_flatMap (kind : BatchKind) (caps : List RangeCapture) :
    kind.gathered (caps.map RangeCapture.bufs) = caps.flatMap kind.part := by
  rw [List.flatMap_def]
  cases kind with
  | captures chunkSize =>
      have hPart : (BatchKind.captures chunkSize).part = fun c => c.cpuBuf ++ c.gpuBuf := by
        funext c
        exact List.flatten_singleton
      rw [hPart, BatchKind.gathered, List.map_map]
      rfl
  | cpuPages =>
      have hPart : BatchKind.cpuPages.part = RangeCapture.cpuBuf := by
        funext c
        exact List.flatten_singleton
      rw [hPart, BatchKind.gathered, List.map_map]
      rfl

theorem store_metas {kind : BatchKind} {c : RangeCapture} {gathered : Bytes}
    {fresh : List CryptoMeta} {allocOk : Bool} :
    (allocOk = true → ∀ m ∈ fresh, m ∈ (kind.store c gathered fresh allocOk).metas) ∧
      ∀ m ∈ (kind.store c gathered fresh allocOk).metas,
        m ∈ c.metas ∨ (allocOk = true ∧ m ∈ fresh) := by
  cases kind with
  | captures chunkSize =>
      simp only [BatchKind.store]
      refine ⟨fun hOk m hm => ?_, fun m hm => ?_⟩
      · rw [if_neg (List.ne_nil_of_mem hm), if_pos hOk]
        exact hm
      · split at hm
        · exact .inl hm
        · split at hm
          · rename_i hOk
            exact .inr ⟨hOk, hm⟩
          · cases hm
  | cpuPages =>
      simp only [BatchKind.store]
      refine ⟨fun hOk m hm => ?_, fun m hm => ?_⟩
      · rw [if_pos hOk]
        exact List.mem_append_right _ hm
      · split at hm
        · rename_i hOk
          rcases List.mem_append.mp hm with hm | hm
          · exact .inl hm
          · exact .inr ⟨hOk, hm⟩
        · exact .inl hm

theorem store_cpu (kind : BatchKind) (c : RangeCapture) (gathered : Bytes)
    (fresh : List CryptoMeta) (allocOk : Bool) :
    (kind.store c gathered fresh allocOk).layout = c.layout ∧
      (kind.store c gathered fresh allocOk).cpuBuf = gathered.take c.cpuBuf.length := by
  cases kind <;> exact ⟨rfl, rfl⟩

theorem scatter_length (kind : BatchKind) (handed : List Handed) (allocOk : Nat → Bool)
    (i metaOff : Nat) (gathered : Bytes) (caps : List RangeCapture) :
    (scatter x kind handed allocOk i metaOff gathered caps).length = caps.length := by
  induction caps generalizing i metaOff gathered with
  | nil => rfl
  | cons c rest ih => rw [scatter, List.length_cons, ih, List.length_cons]

theorem scatter_getElem? (kind : BatchKind) (handed : List Handed) (allocOk : Nat → Bool)
    (i metaOff : Nat) (gathered : Bytes) (caps : List RangeCapture) (j : Nat) :
    (scatter x kind handed allocOk i metaOff gathered caps)[j]? = caps[j]?.map fun c =>
      kind.store c (gathered.drop ((caps.take j).map fun c => (kind.part c).length).sum)
        ((List.range (totalPages (kind.part c).length kind.chunk)).map fun p =>
          copiedMeta x kind.chunk handed ((metaOff + ((caps.take j).map fun c =>
            totalPages (kind.part c).length kind.chunk).sum + p) % 2 ^ 32))
        (allocOk (i + j)) := by
  induction caps generalizing i metaOff gathered j with
  | nil => rfl
  | cons c rest ih =>
      rw [scatter]
      cases j with
      | zero => simp
      | succ j =>
          rw [List.getElem?_cons_succ, List.getElem?_cons_succ, ih]
          cases hCap : rest[j]? with
          | none => rfl
          | some d =>
              rw [Option.map_some, Option.map_some, List.take_succ_cons, List.map_cons,
                List.map_cons, List.sum_cons, List.sum_cons, List.drop_drop]
              have hAlloc : i + 1 + j = i + (j + 1) := by omega
              have hOff : ∀ a b p : Nat, ((metaOff + a) % 2 ^ 32 + b + p) % 2 ^ 32 =
                  (metaOff + (a + b) + p) % 2 ^ 32 := fun a b p => by omega
              simp only [hOff, hAlloc]

theorem copiedMeta_wellFormed (chunk : Nat) (handed : List Handed) (hIv : ∀ h ∈ handed, h.iv.length = ivSize)
    (j : Nat) : (copiedMeta x chunk handed j).WellFormed := by
  have hSize : chunk % 2 ^ 32 < 256 ^ 8 := by omega
  have hVersion : 0 < 256 ^ 4 := by decide
  rw [copiedMeta]
  split
  · rename_i h hj
    exact ⟨hSize, hIv h (List.mem_of_getElem? hj), x.gcm.tag_length _ _ _, hVersion⟩
  · exact ⟨hSize, x.strayIv_length j, x.strayTag_length j, hVersion⟩

end FlashCkpt.Core
