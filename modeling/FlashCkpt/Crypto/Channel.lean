import FlashCkpt.Library.ByteImage

/-! The confidential-computing channel of the driver: ciphertext of the copy
engine with one metadata entry a transfer, and the decryption service of
ioctl 112. The session key never leaves the driver, so the cipher is a
parameter which opens what the same session sealed. -/
namespace FlashCkpt.Crypto

open ByteImage

/-- `UVM_LIVE_MIGRATION_PAGE_CRYPTO_META`. -/
structure CryptoMeta where
  size : Nat
  iv : Bytes
  ivFresh : UInt8
  authTag : Bytes
  keyVersion : Nat
  deriving DecidableEq, Repr

/-- The packed size of an entry. -/
def cryptoMetaSize : Nat := 41

/-- A transfer goes through one DMA buffer. -/
def dmaBufferSize : Nat := 2 * 1024 * 1024

structure CryptoMeta.WellFormed (m : CryptoMeta) : Prop where
  size : m.size < 256 ^ 8
  iv : m.iv.length = 12
  authTag : m.authTag.length = 16
  keyVersion : m.keyVersion < 256 ^ 4

def CryptoMeta.encode (m : CryptoMeta) : Bytes :=
  leBytes 8 m.size ++ (m.iv ++ (m.ivFresh :: (m.authTag ++ leBytes 4 m.keyVersion)))

def CryptoMeta.parse (bytes : Bytes) : CryptoMeta where
  size := ofLeBytes (bytes.take 8)
  iv := (bytes.drop 8).take 12
  ivFresh := (bytes.drop 20).headD 0
  authTag := (bytes.drop 21).take 16
  keyVersion := ofLeBytes ((bytes.drop 37).take 4)

/-- Entries of a metadata section. -/
def readMetas (data : ByteImage.Image) (off count : Nat) : List CryptoMeta :=
  (List.range count).map fun i =>
    CryptoMeta.parse (read data (off + i * cryptoMetaSize) cryptoMetaSize)

/-- The engine's encryption of the `n`-th transfer of the session, and the
driver's decryption with the transfer's metadata. -/
structure Channel where
  encrypt : (n : Nat) → (plain : Bytes) → CryptoMeta × Bytes
  decrypt : (entry : CryptoMeta) → (cipher : Bytes) → Option Bytes
  wellFormed : ∀ n plain, plain.length < 256 ^ 8 → (encrypt n plain).1.WellFormed
  meta_size : ∀ n plain, (encrypt n plain).1.size = plain.length
  cipher_length : ∀ n plain, (encrypt n plain).2.length = plain.length
  decrypt_encrypt : ∀ n plain, decrypt (encrypt n plain).1 (encrypt n plain).2 = some plain

/-- A channel that only counts its transfers, for runs on concrete data. -/
def Channel.clear : Channel where
  encrypt n plain := (⟨plain.length, leBytes 12 n, 1, List.replicate 16 0, 0⟩, plain)
  decrypt entry cipher := if entry.authTag = List.replicate 16 0 then some cipher else none
  wellFormed _ _ h := ⟨h, leBytes_length _ _, List.length_replicate, Nat.pow_pos (by decide)⟩
  meta_size _ _ := rfl
  cipher_length _ _ := rfl
  decrypt_encrypt _ _ := if_pos rfl

/-- The transfers of ioctl 112 from an offset of the ciphertext on. -/
def decryptTransfers (channel : Channel) (data : ByteImage.Image) (cipherBuf totalSize : Nat) :
    List CryptoMeta → Nat → Option Bytes
  | [], _ => some []
  | entry :: rest, cipherOff =>
      if entry.size = 0 ∨ dmaBufferSize < entry.size ∨ totalSize < cipherOff + entry.size then
        none
      else do
        let plain ← channel.decrypt entry (read data (cipherBuf + cipherOff) entry.size)
        let others ← decryptTransfers channel data cipherBuf totalSize rest
          (cipherOff + entry.size)
        return plain ++ others

/-- `uvm_api_live_migration_decrypt_encrypted_pages`. -/
def decryptEncryptedPages (channel : Channel) (data : ByteImage.Image)
    (cipherBuf totalSize : Nat) (metas : List CryptoMeta) : Option Bytes :=
  if metas = [] ∨ totalSize = 0 then none
  else decryptTransfers channel data cipherBuf totalSize metas 0

theorem CryptoMeta.encode_length {m : CryptoMeta} (h : m.WellFormed) :
    m.encode.length = cryptoMetaSize := by
  simp [CryptoMeta.encode, h.iv, h.authTag, cryptoMetaSize]

theorem CryptoMeta.parse_encode {m : CryptoMeta} (h : m.WellFormed) :
    CryptoMeta.parse m.encode = m := by
  have hSize : (leBytes 8 m.size).length = 8 := leBytes_length 8 m.size
  have hDrop8 : m.encode.drop 8 = m.iv ++ (m.ivFresh :: (m.authTag ++ leBytes 4 m.keyVersion)) := by
    rw [CryptoMeta.encode, List.drop_left' hSize]
  have hDrop20 : m.encode.drop 20 = m.ivFresh :: (m.authTag ++ leBytes 4 m.keyVersion) := by
    rw [show 20 = 8 + 12 from rfl, ← List.drop_drop, hDrop8, List.drop_left' h.iv]
  have hDrop21 : m.encode.drop 21 = m.authTag ++ leBytes 4 m.keyVersion := by
    rw [show 21 = 20 + 1 from rfl, ← List.drop_drop, hDrop20, List.drop_one, List.tail_cons]
  have hDrop37 : m.encode.drop 37 = leBytes 4 m.keyVersion := by
    rw [show 37 = 21 + 16 from rfl, ← List.drop_drop, hDrop21, List.drop_left' h.authTag]
  have hTake8 : m.encode.take 8 = leBytes 8 m.size := by
    rw [CryptoMeta.encode, List.take_left' hSize]
  have hTake4 : (leBytes 4 m.keyVersion).take 4 = leBytes 4 m.keyVersion := by
    rw [List.take_of_length_le (by simp)]
  rw [CryptoMeta.parse, hTake8, hDrop8, hDrop20, hDrop21, hDrop37, hTake4,
    ofLeBytes_leBytes h.size, ofLeBytes_leBytes h.keyVersion, List.take_left' h.iv,
    List.take_left' h.authTag]
  rfl

end FlashCkpt.Crypto
