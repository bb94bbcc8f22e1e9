import FlashCkpt.Library.ByteImage
import Mathlib.Data.List.Range

/-! `ckpt_crypto.c`: AES-256-GCM over pages of a fixed size, one IV and tag a
page. The cipher itself is a parameter which opens what it sealed. -/
namespace FlashCkpt.Crypto

open ByteImage

def keySize : Nat := 32
def ivSize : Nat := 12
def tagSize : Nat := 16
def cryptoPageSize : Nat := 4096

/-- `sizeof(ckpt_page_meta_t)`. -/
def pageMetaSize : Nat := ivSize + tagSize

/-- AES-GCM: `decrypt` checks the tag and gives back what `encrypt` was given. -/
structure Gcm where
  encrypt : (key iv plain : Bytes) → Bytes × Bytes
  decrypt : (key iv cipher tag : Bytes) → Option Bytes
  cipher_length : ∀ key iv plain, (encrypt key iv plain).1.length = plain.length
  tag_length : ∀ key iv plain, (encrypt key iv plain).2.length = tagSize
  decrypt_encrypt : ∀ key iv plain,
    decrypt key iv (encrypt key iv plain).1 (encrypt key iv plain).2 = some plain

/-- The lengths of an IV and of a tag of zeros. -/
theorem zeroIv_length (_ : Nat) : (List.replicate ivSize (0 : UInt8)).length = ivSize :=
  List.length_replicate

theorem zeroTag_length (_ : Nat) : (List.replicate tagSize (0 : UInt8)).length = tagSize :=
  List.length_replicate

theorem clearTag_length (_ _ _ : Bytes) : (List.replicate tagSize (0 : UInt8)).length = tagSize :=
  List.length_replicate

/-- A cipher that only appends a tag, for runs on concrete data. -/
def Gcm.clear : Gcm where
  encrypt _ _ plain := (plain, List.replicate tagSize 0)
  decrypt _ _ cipher tag := if tag = List.replicate tagSize 0 then some cipher else none
  cipher_length _ _ _ := rfl
  tag_length := clearTag_length
  decrypt_encrypt _ _ _ := if_pos rfl

/-- The nonce "CKPT" and the 64-bit counter. -/
def buildIv (counter : Nat) : Bytes := [0x43, 0x4B, 0x50, 0x54] ++ leBytes 8 counter

/-- One page given to AES-256-GCM. -/
structure Handed where
  page : Nat
  key : Bytes
  iv : Bytes
  plain : Bytes
  deriving DecidableEq, Repr

/-- The requested number of threads, or the online processors capped to 64. -/
def getNumThreads (requested online : Int) : Nat :=
  if 0 < requested then requested.toNat else (min 64 (max 1 online)).toNat

/-- The page indices of the workers of `ckpt_crypto_encrypt_pages`, from the
`t`-th worker on: everyone takes `share` pages and the first `extra` one more. -/
def workerPages (share extra : Nat) : Nat → Nat → Nat → List (List Nat)
  | 0, _, _ => []
  | workers + 1, t, offset =>
      let count := share + if t < extra then 1 else 0
      List.range' offset count :: workerPages share extra workers (t + 1) (offset + count)

/-- The pages `ckpt_crypto_encrypt_pages` hands out, worker by worker. -/
def encryptPages (key plain : Bytes) (numPages pageSize base : Nat) (requested online : Int) :
    List Handed :=
  let workers := min (getNumThreads requested online) numPages
  (workerPages (numPages / workers) (numPages % workers) workers 0 0).flatten.map fun page =>
    ⟨page, key, buildIv (base + page), (plain.drop (page * pageSize)).take pageSize⟩

/-- One page of `ckpt_crypto_decrypt_pages`, with its metadata entry. -/
def decryptPage (gcm : Gcm) (key cipher metas : Bytes) (pageSize page : Nat) : Option Bytes :=
  let entry := (metas.drop (page * pageMetaSize)).take pageMetaSize
  gcm.decrypt key (entry.take ivSize) ((cipher.drop (page * pageSize)).take pageSize)
    (entry.drop ivSize)

/-- The call fails when one page does not authenticate. -/
def decryptPages (gcm : Gcm) (key cipher metas : Bytes) (numPages pageSize : Nat) :
    Option Bytes :=
  ((List.range numPages).mapM (decryptPage gcm key cipher metas pageSize)).map List.flatten

theorem buildIv_injective {m n : Nat} (hm : m < 2 ^ 64) (hn : n < 2 ^ 64)
    (h : buildIv m = buildIv n) : m = n :=
  leBytes_injective (by simpa using hm) (by simpa using hn) (List.append_cancel_left h)

@[simp] theorem buildIv_length (counter : Nat) : (buildIv counter).length = ivSize := by
  simp [buildIv, ivSize]

theorem getNumThreads_pos (requested online : Int) : 0 < getNumThreads requested online := by
  unfold getNumThreads
  split <;> omega

/-- The workers' shares, read in order, are the pages in order. -/
theorem workerPages_flatten (share extra workers t offset : Nat) :
    (workerPages share extra workers t offset).flatten =
      List.range' offset (workers * share + min workers (extra - t)) := by
  induction workers generalizing t offset with
  | zero => simp [workerPages]
  | succ workers ih =>
      simp only [workerPages, List.flatten_cons, ih]
      rw [List.range'_append_1]
      congr 1
      rw [Nat.add_mul, Nat.one_mul]
      split <;> omega

/-- The workers of a call have all its pages between them. -/
theorem workerPages_call (numPages : Nat) (requested online : Int) :
    (workerPages (numPages / min (getNumThreads requested online) numPages)
      (numPages % min (getNumThreads requested online) numPages)
      (min (getNumThreads requested online) numPages) 0 0).flatten = List.range numPages := by
  rw [workerPages_flatten, List.range_eq_range']
  rcases Nat.eq_zero_or_pos numPages with hZero | hPos
  · simp [hZero]
  · have hThreads := getNumThreads_pos requested online
    have hMod := Nat.mod_lt numPages (y := min (getNumThreads requested online) numPages)
      (by omega)
    have hSum := Nat.div_add_mod numPages (min (getNumThreads requested online) numPages)
    rw [Nat.sub_zero, Nat.min_eq_right hMod.le, hSum]

/-- However many workers there are, every page is handed out once. -/
theorem encryptPages_eq (key plain : Bytes) (numPages pageSize base : Nat)
    (requested online : Int) :
    encryptPages key plain numPages pageSize base requested online =
      (List.range numPages).map fun page =>
        ⟨page, key, buildIv (base + page), (plain.drop (page * pageSize)).take pageSize⟩ := by
  simp only [encryptPages, workerPages_call]

theorem encryptPages_pairs (key plain : Bytes) (numPages pageSize base : Nat)
    (requested online : Int) :
    (encryptPages key plain numPages pageSize base requested online).map
        (fun p => (p.key, p.iv)) =
      (List.range' base numPages).map fun c => (key, buildIv c) := by
  rw [encryptPages_eq, List.map_map, List.range'_eq_map_range, List.map_map]
  rfl

theorem mapM_eq_some_map {α β : Type} {f : α → Option β} (g : α → β) {l : List α}
    (h : ∀ a ∈ l, f a = some (g a)) : l.mapM f = some (l.map g) := by
  induction l with
  | nil => rfl
  | cons a rest ih =>
      rw [List.mapM_cons, h a List.mem_cons_self,
        ih fun b hb => h b (List.mem_cons_of_mem a hb)]
      rfl

/-- Pages whose ciphertext and metadata stand where `decryptPages` looks for
them decrypt to what was encrypted. -/
theorem decryptPages_eq (gcm : Gcm) (key cipher metas : Bytes) (numPages pageSize : Nat)
    (plain iv : Nat → Bytes)
    (hIv : ∀ page < numPages, (iv page).length = ivSize)
    (hCipher : ∀ page < numPages, (cipher.drop (page * pageSize)).take pageSize =
      (gcm.encrypt key (iv page) (plain page)).1)
    (hMeta : ∀ page < numPages, (metas.drop (page * pageMetaSize)).take pageMetaSize =
      iv page ++ (gcm.encrypt key (iv page) (plain page)).2) :
    decryptPages gcm key cipher metas numPages pageSize =
      some ((List.range numPages).map plain).flatten := by
  rw [decryptPages, mapM_eq_some_map plain, Option.map_some]
  intro page hMem
  have hLt := List.mem_range.mp hMem
  simp only [decryptPage, hCipher page hLt, hMeta page hLt]
  rw [← hIv page hLt, List.take_left, List.drop_left, gcm.decrypt_encrypt]

end FlashCkpt.Crypto
