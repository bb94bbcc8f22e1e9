import FlashCkpt.Crypto.Pages
import FlashCkpt.Library.Blocks
import FlashCkpt.Library.Crew

/-! The threads of `ckpt_crypto_encrypt_pages` and `ckpt_crypto_decrypt_pages`, page by page and
in any order, with the calls to pthreads and OpenSSL that can fail. -/
namespace FlashCkpt.Crypto

open ByteImage Blocks Transition

/-- The arguments of a call. The buffers are addresses in one memory. -/
structure PageCall where
  key : Bytes
  src : Nat
  dst : Nat
  metas : Nat
  numPages : Nat
  pageSize : Nat
  base : Nat

/-- `num_threads`, `sysconf(_SC_NPROCESSORS_ONLN)`, and which `pthread_create` succeed. -/
structure Threads where
  requested : Int
  online : Int
  created : Nat → Bool

/-- How the OpenSSL calls for a page go: they all succeed, `Init` or `Update` fails, or one
behind `Update` does. -/
inductive Evp where
  | whole
  | refused
  | untagged
  deriving DecidableEq, Repr

/-- The outcome of the other calls: `calloc`, `EVP_CIPHER_CTX_new` by worker, OpenSSL by page,
and what a decryption that fails leaves in the output. -/
structure EvpEnv where
  allocated : Bool
  context : Nat → Bool
  page : Nat → Evp
  debris : Nat → Bytes

/-- `EVP_EncryptUpdate` and `EVP_DecryptUpdate` take the length as an `int`. No bytes go with a
negative one. -/
def intLength (size : Nat) : Nat := (Int.bmod size (2 ^ 32)).toNat

namespace PageCall

variable (gcm : Gcm) (c : PageCall) (env : EvpEnv)

def srcPage (page : Nat) : Nat := c.src + page * c.pageSize
def dstPage (page : Nat) : Nat := c.dst + page * c.pageSize
def entry (page : Nat) : Nat := c.metas + page * pageMetaSize

/-- The loop body of `encrypt_worker`. -/
def encryptPage (page : Nat) (memory : Image) : Image × Option Handed :=
  let iv := buildIv (c.base + page)
  let named := write memory ⟨c.entry page, iv⟩
  let plain := read named (c.srcPage page) (intLength c.pageSize)
  let out := gcm.encrypt c.key iv plain
  let filled := write named ⟨c.dstPage page, out.1⟩
  match env.page page with
  | .refused => (named, none)
  | .untagged => (filled, none)
  | .whole => (write filled ⟨c.entry page + ivSize, out.2⟩, some ⟨page, c.key, iv, plain⟩)

/-- The loop body of `decrypt_worker`. -/
def decryptPage (page : Nat) (memory : Image) : Image × Option Handed :=
  let iv := read memory (c.entry page) ivSize
  let tag := read memory (c.entry page + ivSize) tagSize
  let cipher := read memory (c.srcPage page) (intLength c.pageSize)
  let spoilt := write memory ⟨c.dstPage page, (env.debris page).take (intLength c.pageSize)⟩
  match env.page page with
  | .refused => (memory, none)
  | .untagged => (spoilt, none)
  | .whole =>
      match gcm.decrypt c.key iv cipher tag with
      | none => (spoilt, none)
      | some plain => (write memory ⟨c.dstPage page, plain⟩, some ⟨page, c.key, iv, cipher⟩)

end PageCall

/-- The number of threads, at most one for each page. -/
def Threads.count (th : Threads) (numPages : Nat) : Nat :=
  min (getNumThreads th.requested th.online) numPages

/-- `page_start` and `page_count` of the workers, as page lists. -/
def Threads.shares (th : Threads) (numPages : Nat) : List (List Nat) :=
  workerPages (numPages / th.count numPages) (numPages % th.count numPages) (th.count numPages) 0 0

/-- Nobody goes through the pages of a worker that does not start. -/
def staffed (starts : Nat → Bool) : Nat → List (List Nat) → List (List Nat)
  | _, [] => []
  | t, pages :: rest => (if starts t then pages else []) :: staffed starts (t + 1) rest

/-- The threads that were created. One without a context sets its `status` and ends. -/
def Threads.start (th : Threads) (env : EvpEnv) (numPages : Nat) (memory : Image) :
    Crew.State Nat Handed Image where
  left := staffed (fun t => th.created t && env.context t) 0 (th.shares numPages)
  done := []
  failed := (List.range (th.count numPages)).any fun t => th.created t && !env.context t
  shared := memory

structure PageResult where
  memory : Image
  status : Int
  handed : List Handed

/-- Both functions around their worker, for turns of the threads up to the last `pthread_join`.
What `pthread_create` and `pthread_join` return is not looked at. -/
def runPages (worker : Nat → Image → Image × Option Handed) (c : PageCall) (th : Threads)
    (env : EvpEnv) (turns : List Nat) (memory : Image) : Option PageResult :=
  if c.numPages = 0 then some ⟨memory, 0, []⟩
  else if c.pageSize = 0 ∨ env.allocated = false then some ⟨memory, -1, []⟩
  else
    match execute (Crew.next worker) (th.start env c.numPages memory) turns with
    | none => none
    | some last =>
        if last.left.flatten = [] then
          some ⟨last.shared, if last.failed then -1 else 0, last.done⟩
        else none

def ckptCryptoEncryptPages (gcm : Gcm) (c : PageCall) (th : Threads) (env : EvpEnv)
    (turns : List Nat) (memory : Image) : Option PageResult :=
  runPages (c.encryptPage gcm env) c th env turns memory

def ckptCryptoDecryptPages (gcm : Gcm) (c : PageCall) (th : Threads) (env : EvpEnv)
    (turns : List Nat) (memory : Image) : Option PageResult :=
  runPages (c.decryptPage gcm env) c th env turns memory

namespace PageCall

variable (c : PageCall)

/-- The metadata lies apart, and the output lies apart from the input or in its place. -/
structure Buffers : Prop where
  metaSrc : c.metas + c.numPages * pageMetaSize ≤ c.src ∨
    c.src + c.numPages * c.pageSize ≤ c.metas
  metaDst : c.metas + c.numPages * pageMetaSize ≤ c.dst ∨
    c.dst + c.numPages * c.pageSize ≤ c.metas
  srcDst : c.src = c.dst ∨ c.src + c.numPages * c.pageSize ≤ c.dst ∨
    c.dst + c.numPages * c.pageSize ≤ c.src

/-- Only the output and the entry of the page differ. -/
def Frames (page : Nat) (memory memory' : Image) : Prop :=
  ∀ a, (a < c.dstPage page ∨ c.dstPage page + c.pageSize ≤ a) →
    (a < c.entry page ∨ c.entry page + pageMetaSize ≤ a) → memory' a = memory a

/-- The input and the entry of the page are as in the beginning. -/
structure Ready (before : Image) (page : Nat) (memory : Image) : Prop where
  lt : page < c.numPages
  src : ∀ a, c.srcPage page ≤ a → a < c.srcPage page + c.pageSize → memory a = before a
  entry : ∀ a, c.entry page ≤ a → a < c.entry page + pageMetaSize → memory a = before a

/-- Outside the output all is as in the beginning, for an encryption outside the metadata too. -/
def KeepOthers (before memory : Image) : Prop :=
  ∀ a, (a < c.dst ∨ c.dst + c.numPages * c.pageSize ≤ a) → memory a = before a

def Keep (before memory : Image) : Prop :=
  ∀ a, (a < c.dst ∨ c.dst + c.numPages * c.pageSize ≤ a) →
    (a < c.metas ∨ c.metas + c.numPages * pageMetaSize ≤ a) → memory a = before a

end PageCall

theorem intLength_le (size : Nat) : intLength size ≤ size := by
  unfold intLength
  have := Int.bmod_le (x := size) (m := 2 ^ 32) (by decide)
  have := Int.le_bmod (x := size) (m := 2 ^ 32) (by decide)
  have := Int.bmod_def (size : Int) (2 ^ 32)
  omega

/-- The length arrives as it is where it fits an `int`, and never otherwise. -/
theorem intLength_eq_iff {size : Nat} : intLength size = size ↔ size < 2 ^ 31 := by
  unfold intLength
  have := Int.bmod_def (size : Int) (2 ^ 32)
  split at this <;> omega

/-- Blocks of one size lie one behind the other. -/
theorem blocks_apart {i j : Nat} (size : Nat) (h : i ≠ j) :
    i * size + size ≤ j * size ∨ j * size + size ≤ i * size := by
  rw [← Nat.succ_mul, ← Nat.succ_mul]
  rcases Nat.lt_or_gt_of_ne h with hLt | hGt
  · exact .inl (Nat.mul_le_mul_right size hLt)
  · exact .inr (Nat.mul_le_mul_right size hGt)

theorem block_le {i n : Nat} (size : Nat) (h : i < n) : i * size + size ≤ n * size := by
  rw [← Nat.succ_mul]
  exact Nat.mul_le_mul_right size h

section Pages

variable {c : PageCall} {before memory memory' : Image} {page other : Nat}

/-- A page's own work leaves the input and the entry of the others. -/
theorem PageCall.Ready.frames (hBuffers : c.Buffers) (hNe : page ≠ other) (hOther : other < c.numPages)
    (h : c.Ready before page memory) (hFrames : c.Frames other memory memory') :
    c.Ready before page memory' := by
  have hPage := block_le c.pageSize h.lt
  have hPage' := block_le c.pageSize hOther
  have hMeta := block_le pageMetaSize h.lt
  have hMeta' := block_le pageMetaSize hOther
  have hApart := blocks_apart c.pageSize hNe
  have hMetaApart := blocks_apart pageMetaSize hNe
  obtain ⟨hMetaSrc, hMetaDst, hSrcDst⟩ := hBuffers
  refine ⟨h.lt, fun a hLow hHigh => ?_, fun a hLow hHigh => ?_⟩
  · rw [← h.src a hLow hHigh]
    simp only [PageCall.srcPage] at hLow hHigh
    apply hFrames <;> simp only [PageCall.dstPage, PageCall.entry] <;> omega
  · rw [← h.entry a hLow hHigh]
    simp only [PageCall.entry] at hLow hHigh
    apply hFrames <;> simp only [PageCall.dstPage, PageCall.entry] <;> omega

theorem PageCall.Keep.frames (hPage : page < c.numPages) (h : c.Keep before memory)
    (hFrames : c.Frames page memory memory') : c.Keep before memory' := by
  have hLast := block_le c.pageSize hPage
  have hMeta := block_le pageMetaSize hPage
  intro a hDst hMetas
  rw [← h a hDst hMetas]
  apply hFrames <;> simp only [PageCall.dstPage, PageCall.entry] <;> omega

/-- The output and the entry of a page outlast the work on another one. -/
theorem PageCall.Frames.output (hBuffers : c.Buffers) (hNe : page ≠ other)
    (hPage : page < c.numPages) (hOther : other < c.numPages)
    (h : c.Frames other memory memory') {a : Nat}
    (ha : (c.dstPage page ≤ a ∧ a < c.dstPage page + c.pageSize) ∨
      (c.entry page ≤ a ∧ a < c.entry page + pageMetaSize)) : memory' a = memory a := by
  have hLast := block_le c.pageSize hPage
  have hLast' := block_le c.pageSize hOther
  have hMeta := block_le pageMetaSize hPage
  have hMeta' := block_le pageMetaSize hOther
  have hApart := blocks_apart c.pageSize hNe
  have hMetaApart := blocks_apart pageMetaSize hNe
  have hMetaDst := hBuffers.metaDst
  simp only [PageCall.dstPage, PageCall.entry] at ha
  apply h <;> simp only [PageCall.dstPage, PageCall.entry] <;> omega

/-- Work that stays in the output and the entry of its page stands on its own. -/
theorem independent_pages {worker : Nat → Image → Image × Option Handed}
    {Done : Nat → Image → Prop} {value : Nat → Option Handed} {Keep : Image → Prop}
    (hBuffers : c.Buffers)
    (hFrames : ∀ page memory, c.Ready before page memory →
      c.Frames page memory (worker page memory).1)
    (hValue : ∀ page memory, c.Ready before page memory → (worker page memory).2 = value page)
    (hDone : ∀ page memory, c.Ready before page memory → (value page).isSome = true →
      Done page (worker page memory).1)
    (hCongr : ∀ page memory memory', (∀ a, (c.dstPage page ≤ a ∧ a < c.dstPage page + c.pageSize) ∨
      (c.entry page ≤ a ∧ a < c.entry page + pageMetaSize) → memory' a = memory a) →
      Done page memory → Done page memory')
    (hKeep : ∀ page memory, c.Ready before page memory → Keep memory →
      Keep (worker page memory).1) :
    Crew.Independent worker (c.Ready before) (fun page memory => page < c.numPages ∧ Done page memory)
      value Keep where
  value_eq := hValue
  done page memory hReady hSome := ⟨hReady.lt, hDone page memory hReady hSome⟩
  ready_of_ne _ other memory hNe hOther hReady :=
    hReady.frames hBuffers hNe hOther.lt (hFrames other memory hOther)
  done_of_ne page other memory hNe hOther h :=
    ⟨h.1, hCongr page memory _ (fun _ ha =>
      (hFrames other memory hOther).output hBuffers hNe h.1 hOther.lt ha) h.2⟩
  keep := hKeep

end Pages

section Encryption

variable (gcm : Gcm) (c : PageCall) (env : EvpEnv) (before : Image)

/-- What the cipher gets for a page, and what comes of it. -/
def PageCall.plainPage (page : Nat) : Bytes := read before (c.srcPage page) (intLength c.pageSize)

def PageCall.sealedPage (page : Nat) : Bytes × Bytes :=
  gcm.encrypt c.key (buildIv (c.base + page)) (c.plainPage before page)

def PageCall.encryptValue (page : Nat) : Option Handed :=
  if env.page page = .whole then
    some ⟨page, c.key, buildIv (c.base + page), c.plainPage before page⟩
  else none

/-- The ciphertext and the entry of a page. -/
structure PageCall.Sealed (page : Nat) (memory : Image) : Prop where
  cipher : read memory (c.dstPage page) (intLength c.pageSize) = (c.sealedPage gcm before page).1
  entry : read memory (c.entry page) pageMetaSize =
    buildIv (c.base + page) ++ (c.sealedPage gcm before page).2

variable {gcm c env before} {page : Nat} {memory : Image}

theorem PageCall.Ready.plain (hBuffers : c.Buffers) (h : c.Ready before page memory) {w : Write}
    (hLow : c.entry page ≤ w.off) (hHigh : w.stop ≤ c.entry page + pageMetaSize) :
    read (write memory w) (c.srcPage page) (intLength c.pageSize) = c.plainPage before page := by
  have hLength := intLength_le c.pageSize
  have hPage := block_le c.pageSize h.lt
  have hMeta := block_le pageMetaSize h.lt
  have hApart := hBuffers.metaSrc
  apply read_congr
  intro a hFrom hTo
  rw [write_outside, h.src a hFrom (by omega)]
  simp only [PageCall.entry, PageCall.srcPage] at hLow hHigh hFrom hTo
  omega

/-- A page is encrypted as it stood at the call. -/
theorem encryptPage_eq (hBuffers : c.Buffers) (h : c.Ready before page memory) :
    c.encryptPage gcm env page memory =
      (match env.page page with
        | .refused => write memory ⟨c.entry page, buildIv (c.base + page)⟩
        | .untagged => write (write memory ⟨c.entry page, buildIv (c.base + page)⟩)
            ⟨c.dstPage page, (c.sealedPage gcm before page).1⟩
        | .whole => write (write (write memory ⟨c.entry page, buildIv (c.base + page)⟩)
            ⟨c.dstPage page, (c.sealedPage gcm before page).1⟩)
              ⟨c.entry page + ivSize, (c.sealedPage gcm before page).2⟩,
        c.encryptValue env before page) := by
  have hPlain := h.plain hBuffers (w := ⟨c.entry page, buildIv (c.base + page)⟩) (Nat.le_refl _)
    (by simp [Write.stop, pageMetaSize])
  simp only [PageCall.encryptPage, hPlain, PageCall.encryptValue, PageCall.sealedPage]
  cases env.page page <;> rfl

theorem sealedPage_length (page : Nat) :
    (c.sealedPage gcm before page).1.length = intLength c.pageSize := by
  rw [PageCall.sealedPage, gcm.cipher_length, PageCall.plainPage, read_length]

/-- An encryption writes to the output and the entry of its page, and to the tag only at the end. -/
theorem encryptPage_outside {a : Nat}
    (hDst : a < c.dstPage page ∨ c.dstPage page + c.pageSize ≤ a)
    (hEntry : a < c.entry page ∨
      c.entry page + (if env.page page = .whole then pageMetaSize else ivSize) ≤ a) :
    (c.encryptPage gcm env page memory).1 a = memory a := by
  have hLength := intLength_le c.pageSize
  have hIvLe : ivSize ≤ if env.page page = .whole then pageMetaSize else ivSize := by
    split <;> decide
  have hIv : ∀ image : Image, write image ⟨c.entry page, buildIv (c.base + page)⟩ a = image a := by
    intro image
    apply write_outside
    simp only [Write.stop, buildIv_length]
    omega
  have hCipher : ∀ (image : Image) (plain : Bytes), plain.length = intLength c.pageSize →
      write image ⟨c.dstPage page, (gcm.encrypt c.key (buildIv (c.base + page)) plain).1⟩ a =
        image a := by
    intro image plain hPlain
    apply write_outside
    simp only [Write.stop, gcm.cipher_length, hPlain]
    omega
  simp only [PageCall.encryptPage]
  cases hOutcome : env.page page with
  | refused => exact hIv memory
  | untagged => exact (hCipher _ _ (read_length _ _ _)).trans (hIv memory)
  | whole =>
      rw [hOutcome, if_pos rfl] at hEntry
      dsimp only
      rw [write_outside, hCipher _ _ (read_length _ _ _), hIv]
      simp only [Write.stop, gcm.tag_length]
      simp only [pageMetaSize] at hEntry
      omega

theorem encryptPage_frames (page : Nat) (memory : Image) :
    c.Frames page memory (c.encryptPage gcm env page memory).1 := by
  intro a hDst hEntry
  apply encryptPage_outside hDst
  have : ivSize ≤ pageMetaSize := by decide
  split <;> omega

/-- The ciphertext and the entry of a page are there when its calls went well. -/
theorem encryptPage_sealed (hBuffers : c.Buffers) (h : c.Ready before page memory)
    (hWhole : env.page page = .whole) :
    c.Sealed gcm before page (c.encryptPage gcm env page memory).1 := by
  have hLength := intLength_le c.pageSize
  have hPage := block_le c.pageSize h.lt
  have hMeta := block_le pageMetaSize h.lt
  have hApart := hBuffers.metaDst
  have hTag : (c.sealedPage gcm before page).2.length = tagSize := gcm.tag_length _ _ _
  have hCipher : (c.sealedPage gcm before page).1.length = intLength c.pageSize :=
    sealedPage_length page
  rw [encryptPage_eq hBuffers h, hWhole]
  dsimp only
  constructor
  · rw [← hCipher]
    refine Eq.trans (read_congr fun a hLow hHigh => write_outside _ ?_) (read_write_self _ _)
    simp only [PageCall.dstPage, PageCall.entry, Write.stop, hTag] at hLow hHigh ⊢
    simp only [pageMetaSize, ivSize, tagSize] at *
    omega
  · have hIv := buildIv_length (c.base + page)
    rw [show pageMetaSize = ivSize + tagSize from rfl, read_append]
    congr 1
    · have hSelf := read_write_self memory ⟨c.entry page, buildIv (c.base + page)⟩
      rw [hIv] at hSelf
      refine Eq.trans (read_congr fun a hLow hHigh => ?_) hSelf
      rw [write_outside, write_outside]
      all_goals simp only [PageCall.dstPage, PageCall.entry, Write.stop, hCipher] at hLow hHigh ⊢
      all_goals simp only [pageMetaSize, ivSize, tagSize] at *
      all_goals omega
    · rw [← hTag]
      exact read_write_self _ ⟨c.entry page + ivSize, _⟩

theorem PageCall.Sealed.congr {memory' : Image}
    (h : ∀ a, (c.dstPage page ≤ a ∧ a < c.dstPage page + c.pageSize) ∨
      (c.entry page ≤ a ∧ a < c.entry page + pageMetaSize) → memory' a = memory a)
    (hSealed : c.Sealed gcm before page memory) : c.Sealed gcm before page memory' := by
  have hLength := intLength_le c.pageSize
  constructor
  · rw [← hSealed.cipher]
    exact read_congr fun a hLow hHigh => h a (.inl ⟨hLow, by omega⟩)
  · rw [← hSealed.entry]
    exact read_congr fun a hLow hHigh => h a (.inr ⟨hLow, hHigh⟩)

/-- The pages of an encryption do not disturb each other. -/
theorem independent_encryption (hBuffers : c.Buffers) :
    Crew.Independent (c.encryptPage gcm env) (c.Ready before)
      (fun page memory => page < c.numPages ∧ c.Sealed gcm before page memory)
      (c.encryptValue env before) (c.Keep before) := by
  apply independent_pages hBuffers
  · exact fun page memory _ => encryptPage_frames page memory
  · intro page memory h
    rw [encryptPage_eq hBuffers h]
  · intro page memory h hSome
    apply encryptPage_sealed hBuffers h
    by_contra hNot
    rw [PageCall.encryptValue, if_neg hNot] at hSome
    cases hSome
  · exact fun _ _ _ h hSealed => hSealed.congr h
  · exact fun page memory h hKeep => hKeep.frames h.lt (encryptPage_frames page memory)

end Encryption

section Decryption

variable (gcm : Gcm) (c : PageCall) (env : EvpEnv) (before : Image)

/-- What a page decrypts to. -/
def PageCall.openedPage (page : Nat) : Option Bytes :=
  gcm.decrypt c.key (read before (c.entry page) ivSize) (c.plainPage before page)
    (read before (c.entry page + ivSize) tagSize)

def PageCall.decryptValue (page : Nat) : Option Handed :=
  if env.page page = .whole then
    (c.openedPage gcm before page).map fun _ =>
      ⟨page, c.key, read before (c.entry page) ivSize, c.plainPage before page⟩
  else none

/-- The plaintext of a page stands in the output. -/
def PageCall.Opened (page : Nat) (memory : Image) : Prop :=
  ∀ plain, c.openedPage gcm before page = some plain →
    read memory (c.dstPage page) plain.length = plain

variable {gcm c env before} {page : Nat} {memory : Image}

/-- A page is decrypted as it stood at the call. -/
theorem decryptPage_eq (h : c.Ready before page memory) :
    c.decryptPage gcm env page memory =
      (match env.page page, c.openedPage gcm before page with
        | .refused, _ => memory
        | .whole, some plain => write memory ⟨c.dstPage page, plain⟩
        | _, _ => write memory ⟨c.dstPage page, (env.debris page).take (intLength c.pageSize)⟩,
        c.decryptValue gcm env before page) := by
  have hLength := intLength_le c.pageSize
  have hCipher : read memory (c.srcPage page) (intLength c.pageSize) = c.plainPage before page :=
    read_congr fun a hLow hHigh => h.src a hLow (by omega)
  have hIv : read memory (c.entry page) ivSize = read before (c.entry page) ivSize :=
    read_congr fun a hLow hHigh => h.entry a hLow (by
      simp only [pageMetaSize, ivSize, tagSize] at hHigh ⊢
      omega)
  have hTag : read memory (c.entry page + ivSize) tagSize =
      read before (c.entry page + ivSize) tagSize :=
    read_congr fun a hLow hHigh => h.entry a (by omega) (by
      simp only [pageMetaSize] at hHigh ⊢
      omega)
  have hOpened : gcm.decrypt c.key (read before (c.entry page) ivSize) (c.plainPage before page)
      (read before (c.entry page + ivSize) tagSize) = c.openedPage gcm before page := rfl
  simp only [PageCall.decryptPage, hCipher, hIv, hTag, PageCall.decryptValue, hOpened]
  cases env.page page <;> cases c.openedPage gcm before page <;> rfl

variable (hLength : ∀ key iv cipher tag plain, gcm.decrypt key iv cipher tag = some plain →
  plain.length = cipher.length)

include hLength in
theorem openedPage_length {plain : Bytes} (h : c.openedPage gcm before page = some plain) :
    plain.length = intLength c.pageSize := by
  rw [hLength _ _ _ _ _ h, PageCall.plainPage, read_length]

include hLength in
/-- A decryption writes to the output of its page only. -/
theorem decryptPage_outside (h : c.Ready before page memory) {a : Nat}
    (ha : a < c.dstPage page ∨ c.dstPage page + c.pageSize ≤ a) :
    (c.decryptPage gcm env page memory).1 a = memory a := by
  have hSize := intLength_le c.pageSize
  have hWrite : ∀ bytes : Bytes, bytes.length ≤ intLength c.pageSize →
      write memory ⟨c.dstPage page, bytes⟩ a = memory a := by
    intro bytes hBytes
    apply write_outside
    simp only [Write.stop]
    omega
  have hDebris := hWrite ((env.debris page).take (intLength c.pageSize)) (List.length_take_le _ _)
  rw [decryptPage_eq h]
  cases hOpened : c.openedPage gcm before page with
  | none => cases env.page page <;> simp only [hDebris]
  | some plain =>
      have hPlain := hWrite plain (openedPage_length hLength hOpened).le
      cases env.page page <;> simp only [hDebris, hPlain]

include hLength in
/-- The pages of a decryption do not disturb each other. -/
theorem independent_decryption (hBuffers : c.Buffers) :
    Crew.Independent (c.decryptPage gcm env) (c.Ready before)
      (fun page memory => page < c.numPages ∧ c.Opened gcm before page memory)
      (c.decryptValue gcm env before) (c.KeepOthers before) := by
  have hSize := intLength_le c.pageSize
  apply independent_pages hBuffers
  · exact fun _ _ h _ hDst _ => decryptPage_outside hLength h hDst
  · intro page memory h
    rw [decryptPage_eq h]
  · intro page memory h hSome plain hPlain
    rw [decryptPage_eq h, hPlain]
    rw [PageCall.decryptValue] at hSome
    by_cases hWhole : env.page page = .whole
    · rw [hWhole]
      exact read_write_self memory ⟨c.dstPage page, plain⟩
    · rw [if_neg hWhole] at hSome
      cases hSome
  · intro page memory memory' h hOpened plain hPlain
    have hPlainLength := openedPage_length hLength hPlain
    rw [← hOpened plain hPlain]
    simp only [read_length]
    exact read_congr fun a hLow hHigh => h a (.inl ⟨hLow, by omega⟩)
  · intro page memory h hKeep a ha
    have hPage := block_le c.pageSize h.lt
    rw [decryptPage_outside hLength h, hKeep a ha]
    simp only [PageCall.dstPage]
    omega

end Decryption

end FlashCkpt.Crypto
