import FlashCkpt.Crypto.Pages

/-! The pipeline of `ckpt_baseline.c`. The launcher cuts every range into
copies, each a number of 2 MB chunks, and queues one work item a copy; the
writers encrypt an item chunk by chunk, the ciphertext and its metadata going
to the places of the file the item names. -/
namespace FlashCkpt.Baseline

open ByteImage Crypto

def cryptoChunkBytes : Nat := 2 * 1024 * 1024
def chunkBytes : Nat := 256 * 1024 * 1024
def deltaChunkBytes : Nat := 8 * 1024 * 1024

/-- A range of GPU memory, and where its ciphertext and its metadata go. -/
structure Region where
  va : Nat
  length : Nat
  dataOff : Nat
  metaOff : Nat
  deriving DecidableEq, Repr

/-- `bl_work_t`. The staging slot holds the memory at `src`. -/
structure Work where
  src : Nat
  dst : Nat
  bytes : Nat
  metaPtr : Nat
  baseIv : Nat
  deriving DecidableEq, Repr

/-- The size of the next copy: at most `cap`, rounded down to whole chunks. -/
def thisChunk (cap remaining : Nat) : Nat :=
  let capped := min remaining cap
  let aligned := capped - capped % cryptoChunkBytes
  if aligned = 0 then cryptoChunkBytes else aligned

theorem thisChunk_pos (cap remaining : Nat) : 0 < thisChunk cap remaining := by
  unfold thisChunk
  dsimp only
  split
  · decide
  · omega

/-- The copies of one range, from the bytes copied so far on. -/
def dispatch (cap : Nat) (r : Region) (copied counter : Nat) : List Work :=
  if copied < r.length then
    { src := r.va + copied
      dst := r.dataOff + copied
      bytes := thisChunk cap (r.length - copied)
      metaPtr := r.metaOff + copied / cryptoChunkBytes * pageMetaSize
      baseIv := counter } ::
    dispatch cap r (copied + thisChunk cap (r.length - copied))
      (counter + thisChunk cap (r.length - copied) / cryptoChunkBytes)
  else []
termination_by r.length - copied
decreasing_by
  have := thisChunk_pos cap (r.length - copied)
  omega

/-- The copies of all ranges, with the chunk counter carried along. -/
def dispatchAll (cap : Nat) : List Region → Nat → List Work
  | [], _ => []
  | r :: rest, counter =>
      let items := dispatch cap r 0 counter
      items ++ dispatchAll cap rest (counter + (items.map (·.bytes / cryptoChunkBytes)).sum)

/-- What `bl_writer_thread` writes for an item; none when it refuses the item. -/
def workWrites (gcm : Gcm) (key : Bytes) (memory : ByteImage.Image) (w : Work) :
    Option (List Write) :=
  if w.bytes < cryptoChunkBytes ∨ w.bytes % cryptoChunkBytes ≠ 0 then none
  else
    let handed := encryptPages key (read memory w.src w.bytes)
      (w.bytes / cryptoChunkBytes % 2 ^ 32) cryptoChunkBytes w.baseIv 1 1
    some (handed.flatMap fun p =>
      [⟨w.dst + p.page * cryptoChunkBytes, (gcm.encrypt p.key p.iv p.plain).1⟩,
        ⟨w.metaPtr + p.page * pageMetaSize, p.iv ++ (gcm.encrypt p.key p.iv p.plain).2⟩])

section Pages

variable (gcm : Gcm) (key : Bytes) (memory : ByteImage.Image)

/-- The ciphertext of one chunk of a range, and its metadata entry. -/
def chunkCipher (va iv page : Nat) : Bytes :=
  (gcm.encrypt key (buildIv (iv + page))
    (read memory (va + page * cryptoChunkBytes) cryptoChunkBytes)).1

def chunkMeta (va iv page : Nat) : Bytes :=
  buildIv (iv + page) ++ (gcm.encrypt key (buildIv (iv + page))
    (read memory (va + page * cryptoChunkBytes) cryptoChunkBytes)).2

def cipherWrite (r : Region) (iv page : Nat) : Write :=
  ⟨r.dataOff + page * cryptoChunkBytes, chunkCipher gcm key memory r.va iv page⟩

def metaWrite (r : Region) (iv page : Nat) : Write :=
  ⟨r.metaOff + page * pageMetaSize, chunkMeta gcm key memory r.va iv page⟩

@[simp] theorem chunkCipher_length (va iv page : Nat) :
    (chunkCipher gcm key memory va iv page).length = cryptoChunkBytes := by
  rw [chunkCipher, gcm.cipher_length, read_length]

@[simp] theorem chunkMeta_length (va iv page : Nat) :
    (chunkMeta gcm key memory va iv page).length = pageMetaSize := by
  rw [chunkMeta, List.length_append, buildIv_length, gcm.tag_length, pageMetaSize]

theorem thisChunk_eq {cap remaining : Nat} (hCap : 0 < cap) (hRemaining : 0 < remaining) :
    thisChunk (cap * cryptoChunkBytes) (remaining * cryptoChunkBytes) =
      min remaining cap * cryptoChunkBytes := by
  have hPos : 0 < min remaining cap * cryptoChunkBytes :=
    Nat.mul_pos (by omega) (by decide)
  rw [thisChunk, Nat.mul_min_mul_right, Nat.mul_mod_left, Nat.sub_zero, if_neg (by omega)]

/-- A writer turns a copy of whole chunks into one pair of writes a chunk. -/
theorem workWrites_eq (r : Region) (iv start count : Nat) (hPos : 0 < count)
    (hBound : count < 2 ^ 32) :
    workWrites gcm key memory
        { src := r.va + start * cryptoChunkBytes
          dst := r.dataOff + start * cryptoChunkBytes
          bytes := count * cryptoChunkBytes
          metaPtr := r.metaOff + start * pageMetaSize
          baseIv := iv + start } =
      some ((List.range' start count).flatMap fun page =>
        [cipherWrite gcm key memory r iv page, metaWrite gcm key memory r iv page]) := by
  have hWhole : ¬(count * cryptoChunkBytes < cryptoChunkBytes ∨
      count * cryptoChunkBytes % cryptoChunkBytes ≠ 0) := by
    rw [Nat.mul_mod_left]
    have := Nat.le_mul_of_pos_left cryptoChunkBytes hPos
    omega
  have hCount : count * cryptoChunkBytes / cryptoChunkBytes % 2 ^ 32 = count := by
    rw [Nat.mul_div_cancel _ (by decide : 0 < cryptoChunkBytes), Nat.mod_eq_of_lt hBound]
  rw [workWrites, if_neg hWhole]
  simp only [hCount, encryptPages_eq, List.range'_eq_map_range, List.flatMap_map]
  congr 1
  apply List.flatMap_congr
  intro page hMem
  have hPage := List.mem_range.mp hMem
  have hSlice : page * cryptoChunkBytes + cryptoChunkBytes ≤ count * cryptoChunkBytes := by
    rw [← Nat.succ_mul]
    exact Nat.mul_le_mul_right _ hPage
  rw [read_slice memory hSlice]
  simp only [cipherWrite, metaWrite, chunkCipher, chunkMeta, Nat.add_mul, Nat.add_assoc]

/-- What holds behind the last chunk of a range, and of an item with what holds behind it, holds
of the items from any chunk on. -/
theorem dispatch_induction {cap : Nat} (hCap : 0 < cap) {r : Region} {count : Nat}
    (hLength : r.length = count * cryptoChunkBytes) {motive : Nat → Nat → List Work → Prop}
    (hDone : ∀ counter, motive count counter [])
    (hItem : ∀ start counter chunks items, 0 < chunks → chunks ≤ cap → start + chunks ≤ count →
      motive (start + chunks) (counter + chunks) items →
      motive start counter ({
        src := r.va + start * cryptoChunkBytes
        dst := r.dataOff + start * cryptoChunkBytes
        bytes := chunks * cryptoChunkBytes
        metaPtr := r.metaOff + start * pageMetaSize
        baseIv := counter } :: items)) (start counter : Nat) (hStart : start ≤ count) :
    motive start counter
      (dispatch (cap * cryptoChunkBytes) r (start * cryptoChunkBytes) counter) := by
  induction hRest : count - start using Nat.strongRecOn generalizing start counter with
  | ind rest ih =>
      rw [dispatch]
      rcases Nat.eq_zero_or_pos rest with hZero | hPos
      · obtain rfl : start = count := by omega
        rw [if_neg (by rw [hLength]; exact Nat.lt_irrefl _)]
        exact hDone counter
      · have hMore : start * cryptoChunkBytes < r.length := by
          rw [hLength]
          exact Nat.mul_lt_mul_of_pos_right (by omega) (by decide)
        have hLeft : r.length - start * cryptoChunkBytes = rest * cryptoChunkBytes := by
          rw [hLength, ← Nat.sub_mul, hRest]
        have hDiv : min rest cap * cryptoChunkBytes / cryptoChunkBytes = min rest cap :=
          Nat.mul_div_cancel _ (by decide)
        have hStartDiv : start * cryptoChunkBytes / cryptoChunkBytes = start :=
          Nat.mul_div_cancel _ (by decide)
        rw [if_pos hMore, hLeft, thisChunk_eq hCap hPos, hDiv, hStartDiv, ← Nat.add_mul]
        exact hItem start counter (min rest cap) _ (by omega) (by omega) (by omega)
          (ih (rest - min rest cap) (by omega) (start + min rest cap) _ (by omega) (by omega))

/-- From chunk `start` on, the items of a range of `count` chunks have the
writers write every remaining chunk once. -/
theorem dispatch_writes (cap : Nat) (hCap : 0 < cap) (hBound : cap < 2 ^ 32) (r : Region)
    (count iv start : Nat) (hLength : r.length = count * cryptoChunkBytes)
    (hStart : start ≤ count) :
    ∃ writes, (dispatch (cap * cryptoChunkBytes) r (start * cryptoChunkBytes)
        (iv + start)).mapM (workWrites gcm key memory) = some writes ∧
      writes.flatten = (List.range' start (count - start)).flatMap fun page =>
        [cipherWrite gcm key memory r iv page, metaWrite gcm key memory r iv page] := by
  apply dispatch_induction hCap hLength (motive := fun start counter items =>
    counter = iv + start → ∃ writes, items.mapM (workWrites gcm key memory) = some writes ∧
      writes.flatten = (List.range' start (count - start)).flatMap fun page =>
        [cipherWrite gcm key memory r iv page, metaWrite gcm key memory r iv page])
  · intro counter _
    exact ⟨[], rfl, by simp⟩
  · intro start counter chunks items hPos hRoom hMore hOthers hCounter
    obtain ⟨writes, hWrites, hFlat⟩ := hOthers (by omega)
    have hFirst := workWrites_eq gcm key memory r iv start chunks hPos (by omega)
    rw [hCounter, List.mapM_cons, hFirst, hWrites]
    refine ⟨_, rfl, ?_⟩
    rw [List.flatten_cons, hFlat, ← List.flatMap_append, List.range'_append_1]
    congr 2
    omega
  · exact hStart
  · rfl

/-- The counter moves on by the number of chunks of the range. -/
theorem dispatch_chunks (cap : Nat) (hCap : 0 < cap) (r : Region) (count counter start : Nat)
    (hLength : r.length = count * cryptoChunkBytes) (hStart : start ≤ count) :
    ((dispatch (cap * cryptoChunkBytes) r (start * cryptoChunkBytes) counter).map
      (·.bytes / cryptoChunkBytes)).sum = count - start := by
  apply dispatch_induction hCap hLength (motive := fun start _ items =>
    (items.map (·.bytes / cryptoChunkBytes)).sum = count - start)
  · intro counter
    rw [Nat.sub_self]
    rfl
  · intro start counter chunks items hPos hRoom hMore hOthers
    have hDiv : chunks * cryptoChunkBytes / cryptoChunkBytes = chunks :=
      Nat.mul_div_cancel _ (by decide)
    rw [List.map_cons, List.sum_cons, hDiv, hOthers]
    omega
  · exact hStart

/-- The first IV counter of every range. -/
def assignIvs : List Region → Nat → List (Region × Nat)
  | [], _ => []
  | r :: rest, counter => (r, counter) :: assignIvs rest (counter + r.length / cryptoChunkBytes)

/-- The writes of a range in the order of the launcher. -/
def regionWrites (p : Region × Nat) : List Write :=
  (List.range (p.1.length / cryptoChunkBytes)).flatMap fun page =>
    [cipherWrite gcm key memory p.1 p.2 page, metaWrite gcm key memory p.1 p.2 page]

/-- The writes of a range in the order of the file. -/
def regionLayout (p : Region × Nat) : List Write :=
  (List.range (p.1.length / cryptoChunkBytes)).map (cipherWrite gcm key memory p.1 p.2) ++
    (List.range (p.1.length / cryptoChunkBytes)).map (metaWrite gcm key memory p.1 p.2)

/-- The file holds the range, encrypted with IVs from `iv` on. -/
def Holds (data : ByteImage.Image) (r : Region) (iv : Nat) : Prop :=
  ∀ page < r.length / cryptoChunkBytes,
    read data (r.dataOff + page * cryptoChunkBytes) cryptoChunkBytes =
      chunkCipher gcm key memory r.va iv page ∧
    read data (r.metaOff + page * pageMetaSize) pageMetaSize =
      chunkMeta gcm key memory r.va iv page

theorem assignIvs_mem {regions : List Region} {r : Region} (h : r ∈ regions) (counter : Nat) :
    ∃ iv, (r, iv) ∈ assignIvs regions counter := by
  induction regions generalizing counter with
  | nil => cases h
  | cons head rest ih =>
      rcases List.mem_cons.mp h with rfl | h
      · exact ⟨counter, List.mem_cons_self⟩
      · obtain ⟨iv, hMem⟩ := ih h (counter + head.length / cryptoChunkBytes)
        exact ⟨iv, List.mem_cons_of_mem _ hMem⟩

/-- The writers never refuse an item of the launcher, and write every chunk of
every range once. -/
theorem dispatchAll_writes (cap : Nat) (hCap : 0 < cap) (hBound : cap < 2 ^ 32)
    (regions : List Region) (counter : Nat)
    (hWhole : ∀ r ∈ regions, r.length % cryptoChunkBytes = 0) :
    ∃ writes, (dispatchAll (cap * cryptoChunkBytes) regions counter).mapM
        (workWrites gcm key memory) = some writes ∧
      writes.flatten = (assignIvs regions counter).flatMap (regionWrites gcm key memory) := by
  induction regions generalizing counter with
  | nil => exact ⟨[], rfl, rfl⟩
  | cons r rest ih =>
      have hLength : r.length = r.length / cryptoChunkBytes * cryptoChunkBytes := by
        have := Nat.div_add_mod r.length cryptoChunkBytes
        have := hWhole r List.mem_cons_self
        rw [Nat.mul_comm]
        omega
      have hChunks := dispatch_chunks cap hCap r _ counter 0 hLength (Nat.zero_le _)
      obtain ⟨first, hFirst, hFirstFlat⟩ :=
        dispatch_writes gcm key memory cap hCap hBound r _ counter 0 hLength (Nat.zero_le _)
      obtain ⟨others, hOthers, hOthersFlat⟩ :=
        ih (counter + r.length / cryptoChunkBytes) fun r' h => hWhole r' (List.mem_cons_of_mem r h)
      rw [Nat.zero_mul, Nat.sub_zero] at hChunks
      rw [Nat.zero_mul, Nat.add_zero] at hFirst
      rw [Nat.sub_zero] at hFirstFlat
      refine ⟨first ++ others, ?_, ?_⟩
      · simp only [dispatchAll, hChunks, List.mapM_append, hFirst, hOthers]
        rfl
      · rw [List.flatten_append, hFirstFlat, hOthersFlat, assignIvs, List.flatMap_cons,
          regionWrites, List.range_eq_range']

theorem regionWrites_perm (p : Region × Nat) :
    (regionWrites gcm key memory p).Perm (regionLayout gcm key memory p) := by
  rw [regionLayout, List.map_eq_flatMap, List.map_eq_flatMap]
  exact (List.flatMap_append_perm _ (fun page => [cipherWrite gcm key memory p.1 p.2 page])
    (fun page => [metaWrite gcm key memory p.1 p.2 page])).symm

theorem regionLayout_packed (r : Region) (iv : Nat)
    (hMeta : r.metaOff = r.dataOff + r.length / cryptoChunkBytes * cryptoChunkBytes) :
    Packed r.dataOff (regionLayout gcm key memory (r, iv))
      (r.metaOff + r.length / cryptoChunkBytes * pageMetaSize) := by
  apply Packed.append
  · exact Packed.uniform r.dataOff cryptoChunkBytes _ (chunkCipher gcm key memory r.va iv)
      fun page _ => chunkCipher_length gcm key memory r.va iv page
  · rw [← hMeta]
    exact Packed.uniform r.metaOff pageMetaSize _ (chunkMeta gcm key memory r.va iv)
      fun page _ => chunkMeta_length gcm key memory r.va iv page

/-- A file in which every write of the range can be read back holds the range. -/
theorem holds_of_read {data : ByteImage.Image} {p : Region × Nat}
    (h : ∀ w ∈ regionWrites gcm key memory p, read data w.off w.bytes.length = w.bytes) :
    Holds gcm key memory data p.1 p.2 := by
  intro page hPage
  have hMem : page ∈ List.range (p.1.length / cryptoChunkBytes) := List.mem_range.mpr hPage
  have hCipher := h (cipherWrite gcm key memory p.1 p.2 page)
    (List.mem_flatMap.mpr ⟨page, hMem, List.mem_cons_self⟩)
  have hMeta := h (metaWrite gcm key memory p.1 p.2 page)
    (List.mem_flatMap.mpr ⟨page, hMem, List.mem_cons_of_mem _ List.mem_cons_self⟩)
  simp only [cipherWrite, metaWrite, chunkCipher_length, chunkMeta_length] at hCipher hMeta
  exact ⟨hCipher, hMeta⟩

end Pages

end FlashCkpt.Baseline
