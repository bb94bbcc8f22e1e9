import FlashCkpt.Crypto.ThreadCount
import FlashCkpt.Static.AllocTable

/-! `save_h2d_weight`: a copy from the host to the device is encrypted page by page from the host
buffer and saved with its metadata. -/
namespace FlashCkpt.Static

open ByteImage Blocks Crypto Transition

/-- What the hook keeps from copy to copy: the table of the gate if there is one, the k3 key with
its IV counter, and the contents of `weights_k3.key`. -/
structure WeightSaver where
  gate : Bool
  table : List AllocEntry
  k3Ready : Bool
  k3Key : Bytes
  ivCounter : Nat
  keyFile : Option Bytes

/-- The destination and the size are 64-bit values. -/
structure HostCopy where
  gpuDst : Nat
  hostSrc : Nat
  count : Nat
  gpuDst_lt : gpuDst < 2 ^ 64
  count_lt : count < 2 ^ 64

/-- How the calls on the way go: the new key and how much of it `fwrite` got to its file, the
processors, the threads of the encryption and their calls, the block of `posix_memalign`,
`open`, the bytes of each `write` (none when it fails) and `ftruncate`. -/
structure SaveEnv where
  newKey : Option Bytes
  keyFileOpens : Bool
  keyWritten : Nat
  online : Int
  created : Nat → Bool
  evp : EvpEnv
  buffer : Option Nat
  opens : Bool
  writes : List Nat
  truncates : Bool

def weightHdrSize : Nat := 32

/-- `num_pages` has 32 bits, the sum before it 64. -/
def weightPages (count : Nat) : Nat :=
  (count + cryptoPageSize - 1) % 2 ^ 64 / cryptoPageSize % 2 ^ 32

def weightTotal (numPages : Nat) : Nat :=
  weightHdrSize + numPages * cryptoPageSize + numPages * pageMetaSize

/-- `aligned_size`. -/
def weightAligned (numPages : Nat) : Nat := (weightTotal numPages + 4095) / 4096 * 4096

/-- The key of the first copy. It counts as ready whether its file was written or not. -/
def WeightSaver.ensureKey (s : WeightSaver) (env : SaveEnv) : WeightSaver :=
  if s.k3Ready then s
  else
    match env.newKey with
    | none => s
    | some key =>
        { s with
          k3Ready := true
          k3Key := key
          keyFile := if env.keyFileOpens then some (key.take env.keyWritten) else s.keyFile }

/-- The entry at `alloc_idx`: the first one whose range has the address, freed or not. -/
def WeightSaver.allocEntry (s : WeightSaver) (addr : Nat) : Option AllocEntry :=
  s.table.find? fun e => decide (e.Covers addr)

/-- `num_threads` is 0. -/
def SaveEnv.threads (env : SaveEnv) : Threads := ⟨0, env.online, env.created⟩

/-- The arguments of the encryption, for a block at `img`. -/
def weightCall (s : WeightSaver) (copy : HostCopy) (img : Nat) : PageCall where
  key := s.k3Key
  src := copy.hostSrc
  dst := img + weightHdrSize
  metas := img + weightHdrSize + weightPages copy.count * cryptoPageSize
  numPages := weightPages copy.count
  pageSize := cryptoPageSize
  base := s.ivCounter

def weightHeader (addr offset count numPages : Nat) : Bytes :=
  leBytes 8 addr ++ (leBytes 8 offset ++ (leBytes 8 count ++ (leBytes 4 numPages ++ leBytes 4 0)))

/-- The loop of `write` calls of at most 256 MB. -/
def writeOut (aligned : Nat) : List Nat → Nat → Nat
  | [], written => written
  | ret :: rest, written =>
      if written < aligned then
        let bytes := min ret (min (aligned - written) (256 * 1024 * 1024))
        if bytes = 0 then written else writeOut aligned rest (written + bytes)
      else written

/-- The block when it is written: the header over what lies there. -/
def weightImage (copy : HostCopy) (va img : Nat) (memory : Image) : Bytes :=
  weightHeader copy.gpuDst (copy.gpuDst - va) copy.count (weightPages copy.count) ++
    read memory (img + weightHdrSize) (weightAligned (weightPages copy.count) - weightHdrSize)

/-- What lies in the file when it is closed. -/
def savedBytes (env : SaveEnv) (numPages : Nat) (image : Bytes) : Bytes :=
  let written := image.take (writeOut (weightAligned numPages) env.writes 0)
  if env.truncates then
    (written ++ List.replicate (weightTotal numPages - written.length) 0).take (weightTotal numPages)
  else written

/-- The saver afterwards, the pages that were read, and the file. -/
structure SaveResult where
  saver : WeightSaver
  handed : List Handed
  file : Option Bytes

variable (gcm : Gcm)

/-- The part behind `posix_memalign`. The result of the encryption is not looked at. -/
def encryptWeight (s : WeightSaver) (env : SaveEnv) (turns : List Nat) (copy : HostCopy)
    (va img : Nat) (memory : Image) : Option SaveResult :=
  let numPages := weightPages copy.count
  (ckptCryptoEncryptPages gcm (weightCall s copy img) env.threads env.evp turns
    (write memory ⟨img, List.replicate (weightAligned numPages) 0⟩)).map fun r =>
      ⟨{ s with ivCounter := (s.ivCounter + numPages) % 2 ^ 64 }, r.handed,
        if env.opens then some (savedBytes env numPages (weightImage copy va img r.memory))
        else none⟩

/-- `save_h2d_weight`, for turns of the encryption threads up to their end. -/
def saveH2dWeight (s : WeightSaver) (env : SaveEnv) (turns : List Nat) (copy : HostCopy)
    (memory : Image) : Option SaveResult :=
  if s.gate = false ∨ copy.count < 4096 then some ⟨s, [], none⟩
  else
    let ready := s.ensureKey env
    if ready.k3Ready = false then some ⟨ready, [], none⟩
    else
      match ready.allocEntry copy.gpuDst with
      | none => some ⟨ready, [], none⟩
      | some e =>
          let flagged := { ready with table := flagFirst copy.gpuDst ready.table }
          match env.buffer with
          | none => some ⟨flagged, [], none⟩
          | some img => encryptWeight gcm flagged env turns copy e.va img memory

/-- A reader of such a file: the address, the offset in the allocation, and the bytes of the
copy. -/
def openWeight (key file : Bytes) : Option (Nat × Nat × Bytes) :=
  let size := ofLeBytes ((file.drop 16).take 8)
  let numPages := ofLeBytes ((file.drop 24).take 4)
  let cipher := file.drop weightHdrSize
  (Crypto.decryptPages gcm key cipher (cipher.drop (numPages * cryptoPageSize)) numPages
    cryptoPageSize).map fun plain =>
      (ofLeBytes (file.take 8), ofLeBytes ((file.drop 8).take 8), plain.take size)

/-- A file is written: what the function itself asks for on the way. -/
structure WeightSaver.Saves (s : WeightSaver) (env : SaveEnv) (copy : HostCopy) (e : AllocEntry)
    (img : Nat) : Prop where
  gate : s.gate = true
  count : 4096 ≤ copy.count
  ready : (s.ensureKey env).k3Ready = true
  entry : s.allocEntry copy.gpuDst = some e
  buffer : env.buffer = some img

/-- The copy is kept: no page of the encryption reaches behind the input, and the file decrypts
with the saved key to the bytes of the copy at their offset in a live allocation, whatever lies
beside the input. -/
structure WeightKept (s : WeightSaver) (env : SaveEnv) (copy : HostCopy) : Prop where
  reads : ∀ gcm env' turns memory r, saveH2dWeight gcm s env' turns copy memory = some r → ∀ h ∈ r.handed,
    h.page * cryptoPageSize + h.plain.length ≤ copy.count
  saves : ∀ gcm turns memory r file, saveH2dWeight gcm s env turns copy memory = some r →
    r.file = some file → ∃ key e, r.saver.keyFile = some key ∧ e ∈ s.table ∧ e.freed = false ∧
      e.Covers copy.gpuDst ∧ openWeight gcm key file =
        some (copy.gpuDst, copy.gpuDst - e.va, read memory copy.hostSrc copy.count)
  pads : ∀ gcm turns turns' memory memory' r r', read memory' copy.hostSrc copy.count =
      read memory copy.hostSrc copy.count → saveH2dWeight gcm s env turns copy memory = some r →
    saveH2dWeight gcm s env turns' copy memory' = some r' → r'.file = r.file

variable {gcm} {s : WeightSaver} {env : SaveEnv} {copy : HostCopy} {turns : List Nat}
variable {memory : Image} {r : SaveResult}

theorem ensureKey_table : (s.ensureKey env).table = s.table := by
  unfold WeightSaver.ensureKey
  split
  · rfl
  · split <;> rfl

/-- All that a save does. -/
theorem saveH2dWeight_eq_some (h : saveH2dWeight gcm s env turns copy memory = some r) :
    (r.handed = [] ∧ r.file = none ∧ ¬∃ e img, s.Saves env copy e img) ∨
      ∃ e img, s.Saves env copy e img ∧ encryptWeight gcm
        { s.ensureKey env with table := flagFirst copy.gpuDst (s.ensureKey env).table } env turns copy e.va
          img memory = some r := by
  rw [saveH2dWeight] at h
  split at h
  · rename_i hEarly
    cases h
    refine .inl ⟨rfl, rfl, ?_⟩
    rintro ⟨e, img, hSaves⟩
    rcases hEarly with hGate | hSmall
    · exact absurd (hSaves.gate.symm.trans hGate) (by decide)
    · exact absurd hSaves.count (Nat.not_le.mpr hSmall)
  · rename_i hGo
    rw [not_or, Bool.not_eq_false, Nat.not_lt] at hGo
    dsimp only at h
    split at h
    · rename_i hReady
      cases h
      exact .inl ⟨rfl, rfl, fun ⟨e, img, hSaves⟩ =>
        absurd (hSaves.ready.symm.trans hReady) (by decide)⟩
    · rename_i hReady
      rw [Bool.not_eq_false] at hReady
      rw [WeightSaver.allocEntry, ensureKey_table, ← WeightSaver.allocEntry] at h
      split at h
      · rename_i hEntry
        cases h
        exact .inl ⟨rfl, rfl, fun ⟨e, img, hSaves⟩ => nomatch hSaves.entry.symm.trans hEntry⟩
      · rename_i e hEntry
        split at h
        · rename_i hBuffer
          cases h
          exact .inl ⟨rfl, rfl, fun ⟨e, img, hSaves⟩ => nomatch hSaves.buffer.symm.trans hBuffer⟩
        · rename_i img hBuffer
          rw [ensureKey_table]
          exact .inr ⟨e, img, ⟨hGo.1, hGo.2, hReady, hEntry, hBuffer⟩, h⟩

/-- A save that gets as far as the encryption. -/
theorem saveH2dWeight_of_saves {e : AllocEntry} {img : Nat} (h : s.Saves env copy e img) :
    saveH2dWeight gcm s env turns copy memory = encryptWeight gcm
      { s.ensureKey env with table := flagFirst copy.gpuDst (s.ensureKey env).table } env turns copy e.va
        img memory := by
  have hEntry : (s.ensureKey env).allocEntry copy.gpuDst = some e := by
    rw [WeightSaver.allocEntry, ensureKey_table, ← WeightSaver.allocEntry, h.entry]
  have hGo : ¬(s.gate = false ∨ copy.count < 4096) := by
    rw [h.gate, not_or]
    exact ⟨by decide, Nat.not_lt.mpr h.count⟩
  rw [saveH2dWeight, if_neg hGo]
  simp only [h.ready, hEntry, h.buffer]
  rfl

/-- The padded pages stay within the input when it is whole pages, or when the 32 bits of
`num_pages` do not hold them all. -/
theorem weightPages_le_iff {count : Nat} (h : count < 2 ^ 64) :
    weightPages count * cryptoPageSize ≤ count ↔ cryptoPageSize ∣ count ∨ 2 ^ 44 - 4096 < count := by
  simp only [weightPages, cryptoPageSize]
  omega

theorem weightPages_eq_iff {count : Nat} (h : count < 2 ^ 64) :
    weightPages count * cryptoPageSize = count ↔ cryptoPageSize ∣ count ∧ count < 2 ^ 44 := by
  simp only [weightPages, cryptoPageSize]
  omega

theorem weightTotal_le (numPages : Nat) : weightTotal numPages ≤ weightAligned numPages := by
  rw [weightAligned]
  omega

theorem weightHdr_le (numPages : Nat) : weightHdrSize ≤ weightTotal numPages := by
  rw [weightTotal, Nat.add_assoc]
  exact Nat.le_add_right _ _

@[simp] theorem weightHeader_length (addr offset count numPages : Nat) :
    (weightHeader addr offset count numPages).length = weightHdrSize := by
  simp [weightHeader, weightHdrSize]

theorem weightImage_length (copy : HostCopy) (va img : Nat) (memory : Image) :
    (weightImage copy va img memory).length = weightAligned (weightPages copy.count) := by
  have := weightTotal_le (weightPages copy.count)
  have := weightHdr_le (weightPages copy.count)
  rw [weightImage, List.length_append, weightHeader_length, read_length]
  omega

/-- A block of memory that nobody has lies apart from the input. -/
def Fresh (copy : HostCopy) (img : Nat) : Prop :=
  img + weightAligned (weightPages copy.count) ≤ copy.hostSrc ∨ copy.hostSrc + copy.count ≤ img

section Images

variable {s : WeightSaver} {copy : HostCopy} {img va : Nat} {memory : Image}

/-- `memset` of the block. -/
def cleared (copy : HostCopy) (img : Nat) (memory : Image) : Image :=
  write memory ⟨img, List.replicate (weightAligned (weightPages copy.count)) 0⟩

theorem buffers_weightCall (hFresh : img + weightTotal (weightPages copy.count) ≤ copy.hostSrc ∨
    copy.hostSrc + weightPages copy.count * cryptoPageSize ≤ img) :
    (weightCall s copy img).Buffers := by
  rw [weightTotal] at hFresh
  constructor
  all_goals simp only [weightCall]
  all_goals omega

/-- The pages of the input as the encryption finds them. -/
theorem read_cleared (hFresh : Fresh copy img)
    (hRead : weightPages copy.count * cryptoPageSize ≤ copy.count) {page : Nat}
    (hPage : page < weightPages copy.count) :
    read (cleared copy img memory) (copy.hostSrc + page * cryptoPageSize) cryptoPageSize =
      read memory (copy.hostSrc + page * cryptoPageSize) cryptoPageSize := by
  have hLast := block_le cryptoPageSize hPage
  apply read_congr
  intro a hLow hHigh
  apply write_outside
  simp only [Write.stop, List.length_replicate]
  rw [Fresh] at hFresh
  omega

/-- What the encryption makes of the input, whatever lies elsewhere. -/
theorem sealPage_cleared (hFresh : Fresh copy img)
    (hRead : weightPages copy.count * cryptoPageSize ≤ copy.count) {page : Nat}
    (hPage : page < weightPages copy.count) :
    (weightCall s copy img).sealPage gcm (cleared copy img memory) page =
      gcm.encrypt s.k3Key (buildIv (s.ivCounter + page))
        (read memory (copy.hostSrc + page * cryptoPageSize) cryptoPageSize) := by
  rw [PageCall.sealPage]
  simp only [weightCall, PageCall.srcPage]
  rw [read_cleared hFresh hRead hPage]

/-- The pages and the entries of a saved weight. -/
def weightCipher (gcm : Gcm) (s : WeightSaver) (copy : HostCopy) (memory : Image) : Bytes :=
  (List.range (weightPages copy.count)).flatMap fun page =>
    (gcm.encrypt s.k3Key (buildIv (s.ivCounter + page))
      (read memory (copy.hostSrc + page * cryptoPageSize) cryptoPageSize)).1

def weightMetas (gcm : Gcm) (s : WeightSaver) (copy : HostCopy) (memory : Image) : Bytes :=
  (List.range (weightPages copy.count)).flatMap fun page =>
    buildIv (s.ivCounter + page) ++ (gcm.encrypt s.k3Key (buildIv (s.ivCounter + page))
      (read memory (copy.hostSrc + page * cryptoPageSize) cryptoPageSize)).2

theorem weightCipher_length : (weightCipher gcm s copy memory).length =
    weightPages copy.count * cryptoPageSize := by
  rw [weightCipher]
  refine @flatMap_length UInt8 cryptoPageSize _ _ fun page _ => ?_
  rw [gcm.cipher_length, read_length]

theorem weightMetas_length : (weightMetas gcm s copy memory).length =
    weightPages copy.count * pageMetaSize := by
  rw [weightMetas]
  refine @flatMap_length UInt8 pageMetaSize _ _ fun page _ => ?_
  rw [List.length_append, buildIv_length, gcm.tag_length]
  rfl

theorem weightCipher_eq (hFresh : Fresh copy img)
    (hRead : weightPages copy.count * cryptoPageSize ≤ copy.count) :
    (weightCall s copy img).cipherText gcm (cleared copy img memory) =
      weightCipher gcm s copy memory := by
  rw [PageCall.cipherText, weightCipher, List.flatMap_def, List.flatMap_def,
    show (weightCall s copy img).numPages = weightPages copy.count from rfl]
  refine congrArg List.flatten (List.map_congr_left fun page hMem => ?_)
  rw [sealPage_cleared hFresh hRead (List.mem_range.mp hMem)]

theorem weightMetas_eq (hFresh : Fresh copy img)
    (hRead : weightPages copy.count * cryptoPageSize ≤ copy.count) :
    (weightCall s copy img).entries gcm (cleared copy img memory) =
      weightMetas gcm s copy memory := by
  rw [PageCall.entries, weightMetas, List.flatMap_def, List.flatMap_def,
    show (weightCall s copy img).numPages = weightPages copy.count from rfl]
  refine congrArg List.flatten (List.map_congr_left fun page hMem => ?_)
  rw [sealPage_cleared hFresh hRead (List.mem_range.mp hMem)]
  rfl

/-- The block behind a full encryption. -/
theorem weightImage_sealed (hFresh : Fresh copy img)
    (hRead : weightPages copy.count * cryptoPageSize ≤ copy.count) :
    weightImage copy va img
        ((weightCall s copy img).sealedMemory gcm (cleared copy img memory)) =
      weightHeader copy.gpuDst (copy.gpuDst - va) copy.count (weightPages copy.count) ++
        (weightCipher gcm s copy memory ++ (weightMetas gcm s copy memory ++
          List.replicate (weightAligned (weightPages copy.count) -
            weightTotal (weightPages copy.count)) 0)) := by
  have hTotal := weightTotal_le (weightPages copy.count)
  have hBuffers : (weightCall s copy img).Buffers := by
    apply buffers_weightCall
    rw [Fresh] at hFresh
    omega
  have hSplit : weightAligned (weightPages copy.count) - weightHdrSize =
      weightPages copy.count * cryptoPageSize + (weightPages copy.count * pageMetaSize +
        (weightAligned (weightPages copy.count) - weightTotal (weightPages copy.count))) := by
    rw [weightTotal] at hTotal ⊢
    omega
  have hCipher : read ((weightCall s copy img).sealedMemory gcm (cleared copy img memory))
      (img + weightHdrSize) (weightPages copy.count * cryptoPageSize) =
        weightCipher gcm s copy memory :=
    (read_sealed_cipher hBuffers).trans (weightCipher_eq hFresh hRead)
  have hMetas : read ((weightCall s copy img).sealedMemory gcm (cleared copy img memory))
      (img + weightHdrSize + weightPages copy.count * cryptoPageSize)
        (weightPages copy.count * pageMetaSize) = weightMetas gcm s copy memory :=
    read_sealed_entries.trans (weightMetas_eq hFresh hRead)
  rw [weightImage, hSplit, read_append, read_append, hCipher, hMetas]
  congr 3
  rw [List.eq_replicate_iff]
  refine ⟨read_length _ _ _, fun b hb => ?_⟩
  obtain ⟨i, hi, rfl⟩ := List.mem_map.mp hb
  rw [List.mem_range] at hi
  rw [PageCall.sealedMemory, write_outside, write_outside, cleared, write_replicate, if_pos]
  · rw [weightTotal] at hi hTotal
    omega
  · simp only [Write.stop, cipherText_length, weightCall]
    omega
  · simp only [Write.stop, entries_length, weightCall]
    omega

end Images

end FlashCkpt.Static
