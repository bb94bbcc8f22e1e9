import FlashCkpt.Image.Fused
import FlashCkpt.Crypto.Pages

/-! The sections of a range as the encrypted reader of `librst_vllm.c` sees them.
A byte of a buffer carries where it came from: the file, a transfer whose tag was
checked, one whose tag did not fit, or memory nobody wrote. -/
namespace FlashCkpt.Restore

open ByteImage SizeCut Crypto Image

inductive Origin where
  | stored
  | ciphertext
  | opened
  | unopened
  | uninit
  deriving DecidableEq, Repr

/-- Data a restore may hand out: in the clear in the file, or authenticated. -/
def Origin.Sound (o : Origin) : Prop := o = .stored ∨ o = .opened

instance (o : Origin) : Decidable o.Sound := inferInstanceAs (Decidable (_ ∨ _))

structure Cell where
  origin : Origin
  value : UInt8
  deriving DecidableEq, Repr

abbrev Buffer := List Cell

def values (b : Buffer) : Bytes := b.map Cell.value

/-- The first `n` bytes of a buffer, with their origin. -/
def filled (o : Origin) (n : Nat) (bytes : Bytes) : Buffer :=
  (List.range n).map fun i => ⟨o, bytes.getD i 0⟩

/-- `read_bytes` into a fresh buffer: a file that ends before leaves the rest of it
as it was. -/
def readBytes (data : ByteImage.Image) (size off n : Nat) (o : Origin) : Buffer :=
  (List.range n).map fun i => ⟨if off + i < size then o else .uninit, data (off + i)⟩

/-- `read_bytes` fails: nothing is read of an empty section. -/
def Unreadable (size off n : Nat) : Prop := n ≠ 0 ∧ size < off + n

instance (size off n : Nat) : Decidable (Unreadable size off n) :=
  inferInstanceAs (Decidable (_ ∧ _))

/-- What opening `/dev/nvidia-uvm` gives: without confidential computing the driver
copies the transfers as they are. -/
inductive Device where
  | missing
  | plain
  | confidential
  deriving DecidableEq, Repr

/-- The keys at hand, and what an uninitialised buffer of a length holds. -/
structure Keys where
  gcm : Gcm
  channel : Channel
  k3 : Option Bytes
  device : Device
  junk : Nat → Bytes

def Keys.uninit (keys : Keys) (n : Nat) : Buffer := filled .uninit n (keys.junk n)

/-- The bytes of a k3 transfer from here on. -/
def k3Chunk (entry : CryptoMeta) (left : Nat) : Nat :=
  min (if entry.size = 0 then pageSize else entry.size) left

/-- `decrypt_k3_transfer`: the length is handed to the cipher as an `int`, and a
negative one is refused. -/
def decryptK3Transfer (keys : Keys) (key : Bytes) (entry : CryptoMeta) (cipher : Bytes) :
    Option Buffer :=
  let n := cipher.length % 2 ^ 32
  if 2 ^ 31 ≤ n then none
  else (keys.gcm.decrypt key entry.iv (cipher.take n) entry.authTag).map fun plain =>
    filled .opened n plain ++ keys.uninit (cipher.length - n)

/-- The k3 branch of `decrypt_section`: whether it succeeds, and its buffer. -/
def decryptK3 (keys : Keys) (key : Bytes) : List CryptoMeta → Bytes → Bool × Buffer
  | [], cipher => (true, keys.uninit cipher.length)
  | entry :: rest, cipher =>
      if cipher = [] then (true, [])
      else
        let chunk := k3Chunk entry cipher.length
        match decryptK3Transfer keys key entry (cipher.take chunk) with
        | none => (false, filled .unopened chunk (keys.junk chunk) ++
            keys.uninit (cipher.length - chunk))
        | some plain =>
            let others := decryptK3 keys key rest (cipher.drop chunk)
            (others.1, plain ++ others.2)

/-- The transfers of ioctl 112: each one is copied out before the next is looked at. -/
def decryptK1 (keys : Keys) : List CryptoMeta → Bytes → Bool × Buffer
  | [], cipher => (true, keys.uninit cipher.length)
  | entry :: rest, cipher =>
      if entry.size = 0 ∨ dmaBufferSize < entry.size ∨ cipher.length < entry.size then
        (false, keys.uninit cipher.length)
      else
        match keys.channel.decrypt entry (cipher.take entry.size) with
        | none => (false, keys.uninit cipher.length)
        | some plain =>
            let others := decryptK1 keys rest (cipher.drop entry.size)
            (others.1, filled .opened entry.size plain ++ others.2)

/-- `decrypt_section`. -/
def decryptSection (keys : Keys) (cipher : Buffer) (metas : List CryptoMeta) (key : Option Bytes)
    (device : Device) (useK1 : Bool) : Bool × Buffer :=
  if metas = [] ∨ cipher = [] then (true, keys.uninit cipher.length)
  else if useK1 then
    match device with
    | .missing => (true, cipher)
    | .plain => (true, cipher)
    | .confidential => decryptK1 keys metas (values cipher)
  else
    match key with
    | some key => decryptK3 keys key metas (values cipher)
    | none => (true, cipher)

/-- The entries of the GPU and of the CPU section. A version 3 image has those of the
GPU section first; the sections of another one are under all its entries. -/
def sectionMetas (v3 : Bool) (data : ByteImage.Image) (d : RangeDesc) :
    List CryptoMeta × List CryptoMeta :=
  let metas := readMetas data d.metaOffset (d.cryptoMetaBytes / cryptoMetaSize)
  if v3 then takeUpTo CryptoMeta.size d.gpuBytes 0 metas else (metas, metas)

/-- A section with entries is ciphertext. -/
def sectionOrigin (metas : List CryptoMeta) : Origin :=
  if metas = [] then .stored else .ciphertext

def readCpu (v3 : Bool) (data : ByteImage.Image) (size : Nat) (d : RangeDesc) : Buffer :=
  readBytes data size (d.dataOffset + d.resmapSize) d.cpuBytes
    (sectionOrigin (sectionMetas v3 data d).2)

def readGpu (v3 : Bool) (data : ByteImage.Image) (size : Nat) (d : RangeDesc) : Buffer :=
  readBytes data size d.gpuOffset d.gpuBytes (sectionOrigin (sectionMetas v3 data d).1)

/-- The GPU section of a version 3 range, or of a block. -/
def openGpu (keys : Keys) (v3 : Bool) (data : ByteImage.Image) (size : Nat) (d : RangeDesc) :
    Bool × Buffer :=
  let metas := (sectionMetas v3 data d).1
  let gpu := readGpu v3 data size d
  if gpu ≠ [] ∧ metas ≠ [] then decryptSection keys gpu metas keys.k3 keys.device v3
  else (true, gpu)

/-- The CPU section of a version 3 range, or of a block. The entries of a block of
version 2 are all counted for its GPU section, and none is left. -/
def openCpu (keys : Keys) (v3 : Bool) (data : ByteImage.Image) (size : Nat) (d : RangeDesc) :
    Bool × Buffer :=
  let left := if v3 then (sectionMetas v3 data d).2 else []
  let cpu := readCpu v3 data size d
  if cpu ≠ [] ∧ keys.k3.isSome ∧ left ≠ [] then decryptSection keys cpu left keys.k3 .missing false
  else (true, cpu)

/-- The sections of a version 2 range are decrypted as one buffer. The key is a local
array, handed over also when it was not read. -/
def openCombined (keys : Keys) (data : ByteImage.Image) (size : Nat) (d : RangeDesc) :
    Bool × Buffer :=
  decryptSection keys (readCpu false data size d ++ readGpu false data size d)
    (sectionMetas false data d).1 (some (keys.k3.getD (keys.junk keySize))) .missing false

/-- The CPU and the GPU section of a range of the base image. -/
def openRange (keys : Keys) (v3 : Bool) (data : ByteImage.Image) (size : Nat) (d : RangeDesc) :
    Option (Buffer × Buffer) :=
  if v3 then
    if (openGpu keys v3 data size d).1 && (openCpu keys v3 data size d).1 then
      some ((openCpu keys v3 data size d).2, (openGpu keys v3 data size d).2)
    else none
  else if (sectionMetas v3 data d).1 = [] then
    some (readCpu v3 data size d, readGpu v3 data size d)
  else if (openCombined keys data size d).1 then
    some ((openCombined keys data size d).2.take d.cpuBytes,
      (openCombined keys data size d).2.drop d.cpuBytes)
  else none

def readResmap (data : ByteImage.Image) (d : RangeDesc) : Bytes :=
  (read data d.dataOffset d.resmapSize).take d.numPages

/-- The pages copied into the result, each with its address. -/
abbrev Log := List (Nat × Buffer)

/-- One page from the start of a buffer, also from behind its end. -/
def pageCells (b : Buffer) : Buffer :=
  (List.range pageSize).map fun i => b.getD i ⟨.uninit, 0⟩

/-- The pages of one range or block copied to their addresses. The encrypted
reader checks that the sections reach, the other one does not. -/
def placePages (checked : Bool) : (va : Nat) → (resmap : Bytes) → (cpu gpu : Buffer) → Log
  | _, [], _, _ => []
  | va, m :: rest, cpu, gpu =>
      if m = 0 ∧ (!checked ∨ pageSize ≤ cpu.length) then
        (va, pageCells cpu) ::
          placePages checked (va + pageSize) rest (cpu.drop pageSize) gpu
      else if m = 1 ∧ (!checked ∨ pageSize ≤ gpu.length) then
        (va, pageCells gpu) ::
          placePages checked (va + pageSize) rest cpu (gpu.drop pageSize)
      else placePages checked (va + pageSize) rest cpu gpu

def replay (image : ByteImage.Image) (log : Log) : ByteImage.Image :=
  log.foldl (fun image w => write image ⟨w.1, values w.2⟩) image

@[simp] theorem values_append (a b : Buffer) : values (a ++ b) = values a ++ values b :=
  List.map_append

@[simp] theorem filled_length (o : Origin) (n : Nat) (bytes : Bytes) :
    (filled o n bytes).length = n := by
  simp [filled]

@[simp] theorem readBytes_length (data : ByteImage.Image) (size off n : Nat) (o : Origin) :
    (readBytes data size off n o).length = n := by
  simp [readBytes]

theorem values_filled (o : Origin) (bytes : Bytes) :
    values (filled o bytes.length bytes) = bytes := by
  refine List.ext_getElem? fun i => ?_
  rw [values, filled, List.map_map, List.getElem?_map]
  by_cases hi : i < bytes.length
  · rw [List.getElem?_range hi, Option.map_some, Function.comp_apply, List.getD_eq_getElem?_getD,
      List.getElem?_eq_getElem hi, Option.getD_some]
  · rw [List.getElem?_eq_none (by simpa using hi), List.getElem?_eq_none (by omega),
      Option.map_none]

theorem values_readBytes (data : ByteImage.Image) (size off n : Nat) (o : Origin) :
    values (readBytes data size off n o) = read data off n := by
  rw [values, readBytes, List.map_map]
  rfl

section Decrypt

variable {keys : Keys} {cipher : Buffer} {metas : List CryptoMeta}

theorem decryptSection_k1 (hMetas : metas ≠ []) (hCipher : cipher ≠ []) (key : Option Bytes) :
    decryptSection keys cipher metas key .confidential true =
      decryptK1 keys metas (values cipher) := by
  simp [decryptSection, hMetas, hCipher]

theorem decryptSection_k3 (hMetas : metas ≠ []) (hCipher : cipher ≠ []) (key : Bytes)
    (device : Device) :
    decryptSection keys cipher metas (some key) device false =
      decryptK3 keys key metas (values cipher) := by
  simp [decryptSection, hMetas, hCipher]

end Decrypt

/-- The transfers that follow each other in the ciphertext decrypt to their
plaintexts. -/
theorem decryptK1_eq {keys : Keys} {pieces : List (Nat × Bytes)}
    (hSize : ∀ p ∈ pieces, 0 < p.2.length ∧ p.2.length ≤ dmaBufferSize) :
    (decryptK1 keys (pieces.map (pieceMeta keys.channel))
        (pieces.flatMap (pieceCipher keys.channel))).1 = true ∧
      values (decryptK1 keys (pieces.map (pieceMeta keys.channel))
        (pieces.flatMap (pieceCipher keys.channel))).2 = pieces.flatMap Prod.snd := by
  induction pieces with
  | nil => exact ⟨rfl, rfl⟩
  | cons p rest ih =>
      have hHead := hSize p List.mem_cons_self
      have hMeta : (pieceMeta keys.channel p).size = p.2.length := keys.channel.meta_size p.1 p.2
      have hLength : (pieceCipher keys.channel p).length = p.2.length :=
        keys.channel.cipher_length p.1 p.2
      obtain ⟨hOk, hRest⟩ := ih fun q hq => hSize q (List.mem_cons_of_mem p hq)
      have hOpen : keys.channel.decrypt (pieceMeta keys.channel p) (pieceCipher keys.channel p) =
          some p.2 := keys.channel.decrypt_encrypt p.1 p.2
      rw [List.map_cons, List.flatMap_cons, decryptK1, hMeta,
        if_neg (by rw [List.length_append]; omega), List.take_left' hLength, hOpen]
      dsimp only
      rw [List.drop_left' hLength, values_append, values_filled, hRest, List.flatMap_cons]
      exact ⟨hOk, rfl⟩

/-- The entry of a chunk under `k3` with its IV, and the chunk's ciphertext. -/
def k3Meta (gcm : Gcm) (key : Bytes) (p : Bytes × Bytes) : CryptoMeta where
  size := p.2.length
  iv := p.1
  ivFresh := 0
  authTag := (gcm.encrypt key p.1 p.2).2
  keyVersion := 0

def k3Cipher (gcm : Gcm) (key : Bytes) (p : Bytes × Bytes) : Bytes := (gcm.encrypt key p.1 p.2).1

/-- Chunks under `k3` that follow each other are opened by their entries. -/
theorem decryptK3_eq (keys : Keys) (key : Bytes) {chunks : List (Bytes × Bytes)}
    (hSize : ∀ p ∈ chunks, 0 < p.2.length ∧ p.2.length < 2 ^ 31) :
    (decryptK3 keys key (chunks.map (k3Meta keys.gcm key))
        (chunks.flatMap (k3Cipher keys.gcm key))).1 = true ∧
      values (decryptK3 keys key (chunks.map (k3Meta keys.gcm key))
        (chunks.flatMap (k3Cipher keys.gcm key))).2 = chunks.flatMap Prod.snd := by
  induction chunks with
  | nil => exact ⟨rfl, rfl⟩
  | cons p rest ih =>
      obtain ⟨hPos, hInt⟩ := hSize p List.mem_cons_self
      obtain ⟨hOk, hRest⟩ := ih fun q hq => hSize q (List.mem_cons_of_mem p hq)
      have hLength : (k3Cipher keys.gcm key p).length = p.2.length :=
        keys.gcm.cipher_length key p.1 p.2
      have hSome : k3Cipher keys.gcm key p ++ rest.flatMap (k3Cipher keys.gcm key) ≠ [] := by
        intro hNil
        have := congrArg List.length hNil
        rw [List.length_append, hLength, List.length_nil] at this
        omega
      have hChunk : k3Chunk (k3Meta keys.gcm key p)
          (k3Cipher keys.gcm key p ++ rest.flatMap (k3Cipher keys.gcm key)).length =
            p.2.length := by
        have hNonzero : (k3Meta keys.gcm key p).size ≠ 0 := Nat.ne_of_gt hPos
        rw [k3Chunk, if_neg hNonzero, List.length_append, hLength, k3Meta]
        exact Nat.min_eq_left (Nat.le_add_right _ _)
      have hTransfer : decryptK3Transfer keys key (k3Meta keys.gcm key p)
          (k3Cipher keys.gcm key p) = some (filled .opened p.2.length p.2) := by
        have hMod : p.2.length % 2 ^ 32 = p.2.length := Nat.mod_eq_of_lt (by omega)
        have hFull : (k3Cipher keys.gcm key p).take p.2.length = k3Cipher keys.gcm key p :=
          List.take_of_length_le (Nat.le_of_eq hLength)
        have hOpen : keys.gcm.decrypt key (k3Meta keys.gcm key p).iv (k3Cipher keys.gcm key p)
            (k3Meta keys.gcm key p).authTag = some p.2 := keys.gcm.decrypt_encrypt key p.1 p.2
        rw [decryptK3Transfer, hLength, hMod, if_neg (Nat.not_le.mpr hInt), hFull, hOpen, Option.map_some,
          Nat.sub_self]
        exact congrArg some (List.append_nil _)
      rw [List.map_cons, List.flatMap_cons, decryptK3, if_neg hSome]
      dsimp only
      rw [hChunk, List.take_left' hLength, List.drop_left' hLength, hTransfer]
      dsimp only
      rw [values_append, values_filled, hRest, List.flatMap_cons]
      exact ⟨hOk, rfl⟩

section Stored

variable {keys : Keys} {data : ByteImage.Image} {size : Nat} {r : Sections} {d : RangeDesc}
  (h : StoredAt data size r d)
include h

theorem readResmap_stored : readResmap data d = r.resmap := by
  have hPages : d.numPages = r.resmap.length := by rw [h.desc]; rfl
  have hSize : d.resmapSize = r.resmap.length := by rw [h.desc]; rfl
  rw [readResmap, hSize, h.resmap, hPages, List.take_length]

theorem values_readCpu_stored (v3 : Bool) : values (readCpu v3 data size d) = r.cpu := by
  have hBytes : d.cpuBytes = r.cpu.length := by rw [h.desc]; rfl
  rw [readCpu, values_readBytes, hBytes, h.cpu]

theorem values_readGpu_stored (v3 : Bool) : values (readGpu v3 data size d) = r.gpu := by
  have hBytes : d.gpuBytes = r.gpu.length := by rw [h.desc]; rfl
  rw [readGpu, values_readBytes, hBytes, h.gpu]

/-- The entries are split where those of the GPU section end. -/
theorem sectionMetas_stored {front back : List CryptoMeta}
    (hFormed : ∀ m ∈ front ++ back, m.WellFormed)
    (hMetas : r.cryptoMeta = (front ++ back).flatMap CryptoMeta.encode)
    (hPos : ∀ m ∈ front, 0 < m.size) (hTotal : total CryptoMeta.size front = r.gpu.length) :
    sectionMetas true data d = (front, back) := by
  have hBytes : d.gpuBytes = r.gpu.length := by rw [h.desc]; rfl
  have hCut := takeUpTo_exact CryptoMeta.size hPos 0 back
  rw [Nat.zero_add, hTotal] at hCut
  rw [sectionMetas, if_pos rfl, h.entries hFormed hMetas, hBytes, hCut]

/-- With the driver at hand the transfers of the GPU section are opened. -/
theorem openGpu_stored (hDevice : keys.device = .confidential) {pieces : List (Nat × Bytes)}
    (hSize : ∀ p ∈ pieces, 0 < p.2.length ∧ p.2.length ≤ dmaBufferSize)
    (hGpu : r.gpu = pieces.flatMap (pieceCipher keys.channel))
    (hMetas : (sectionMetas true data d).1 = pieces.map (pieceMeta keys.channel)) :
    (openGpu keys true data size d).1 = true ∧
      values (openGpu keys true data size d).2 = pieces.flatMap Prod.snd := by
  have hRead := (values_readGpu_stored h true).trans hGpu
  rw [openGpu, hMetas]
  split
  · rename_i hSome
    rw [hDevice, decryptSection_k1 hSome.2 hSome.1, hRead]
    exact decryptK1_eq hSize
  · rename_i hNone
    refine ⟨rfl, ?_⟩
    have hNil : pieces = [] := by
      by_contra hPieces
      refine hNone ⟨?_, by simpa using hPieces⟩
      intro hEmpty
      obtain ⟨p, rest, rfl⟩ := List.exists_cons_of_ne_nil hPieces
      have hPos := (hSize p List.mem_cons_self).1
      have hLength := congrArg List.length hRead
      rw [hEmpty, values, List.map_nil, List.length_nil, List.flatMap_cons, List.length_append,
        pieceCipher, keys.channel.cipher_length] at hLength
      omega
    rw [hRead, hNil]
    rfl

omit h in
/-- Without entries the CPU section is taken as it stands. -/
theorem openCpu_stored (hMetas : (sectionMetas true data d).2 = []) :
    openCpu keys true data size d = (true, readCpu true data size d) := by
  rw [openCpu, hMetas, if_pos rfl]
  exact if_neg fun hSome => hSome.2.2 rfl

end Stored

end FlashCkpt.Restore
