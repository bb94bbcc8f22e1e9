import FlashCkpt.Static.WeightFiles

/-! When a saved weight is the copy it was made from: what is in the file, and what a call that
fails on the way takes out of it. -/
namespace FlashCkpt.Static

open ByteImage Blocks Crypto

section Reading

variable {α : Type}

theorem slice_append {front middle rest : List α} {n k : Nat} (hn : front.length = n)
    (hk : middle.length = k) : ((front ++ (middle ++ rest)).drop n).take k = middle := by
  rw [List.drop_left' hn, List.take_left' hk]

/-- A block of the front of a list. -/
theorem block_front {front rest : List α} {size n page : Nat} (hFront : front.length = n * size)
    (hPage : page < n) : ((front ++ rest).drop (page * size)).take size = block size front page := by
  have hLast := block_le size hPage
  rw [List.drop_append_of_le_length (by omega), List.take_append_of_le_length, block]
  rw [List.length_drop]
  omega

end Reading

variable {gcm : Gcm} {s : WeightSaver} {copy : HostCopy} {va : Nat} {memory : Image}

/-- A file that begins with the header, the pages and the entries decrypts to the pages. -/
theorem openWeight_eq (tail : Bytes) :
    openWeight gcm s.k3Key
        (weightHeader copy.gpuDst (copy.gpuDst - va) copy.count (weightPages copy.count) ++
          (weightCipher gcm s copy memory ++ (weightMetas gcm s copy memory ++ tail))) =
      some (copy.gpuDst, copy.gpuDst - va,
        (read memory copy.hostSrc (weightPages copy.count * cryptoPageSize)).take copy.count) := by
  have hPages : weightPages copy.count < 256 ^ 4 := Nat.mod_lt _ (by decide)
  have hAddr : copy.gpuDst < 256 ^ 8 := copy.gpuDst_lt
  have hCount : copy.count < 256 ^ 8 := copy.count_lt
  have hOffset : copy.gpuDst - va < 256 ^ 8 := Nat.lt_of_le_of_lt (Nat.sub_le _ _) hAddr
  have hFields : ∀ body : Bytes,
      (weightHeader copy.gpuDst (copy.gpuDst - va) copy.count (weightPages copy.count) ++ body) =
        leBytes 8 copy.gpuDst ++ (leBytes 8 (copy.gpuDst - va) ++ (leBytes 8 copy.count ++
          (leBytes 4 (weightPages copy.count) ++ (leBytes 4 0 ++ body)))) := by
    intro body
    simp only [weightHeader, List.append_assoc]
  have hDrop : ∀ body : Bytes,
      (weightHeader copy.gpuDst (copy.gpuDst - va) copy.count (weightPages copy.count) ++
        body).drop weightHdrSize = body :=
    fun body => List.drop_left' (weightHeader_length _ _ _ _)
  have hNp : ∀ body : Bytes,
      ((weightHeader copy.gpuDst (copy.gpuDst - va) copy.count (weightPages copy.count) ++
        body).drop 24).take 4 = leBytes 4 (weightPages copy.count) := by
    intro body
    rw [hFields, ← List.append_assoc, ← List.append_assoc]
    exact slice_append (by simp) (leBytes_length _ _)
  have hSize : ∀ body : Bytes,
      ((weightHeader copy.gpuDst (copy.gpuDst - va) copy.count (weightPages copy.count) ++
        body).drop 16).take 8 = leBytes 8 copy.count := by
    intro body
    rw [hFields, ← List.append_assoc]
    exact slice_append (by simp) (leBytes_length _ _)
  have hOff : ∀ body : Bytes,
      ((weightHeader copy.gpuDst (copy.gpuDst - va) copy.count (weightPages copy.count) ++
        body).drop 8).take 8 = leBytes 8 (copy.gpuDst - va) := by
    intro body
    rw [hFields]
    exact slice_append (leBytes_length _ _) (leBytes_length _ _)
  have hFirst : ∀ body : Bytes,
      (weightHeader copy.gpuDst (copy.gpuDst - va) copy.count (weightPages copy.count) ++
        body).take 8 = leBytes 8 copy.gpuDst := by
    intro body
    rw [hFields]
    exact List.take_left' (leBytes_length _ _)
  rw [openWeight]
  simp only [hNp, hSize, hOff, hFirst, hDrop, ofLeBytes_leBytes hPages, ofLeBytes_leBytes hAddr,
    ofLeBytes_leBytes hCount, ofLeBytes_leBytes hOffset]
  rw [List.drop_left' weightCipher_length]
  rw [decryptPages_eq gcm s.k3Key _ _ _ _
    (fun page => read memory (copy.hostSrc + page * cryptoPageSize) cryptoPageSize)
    (fun page => buildIv (s.ivCounter + page)) (fun _ _ => buildIv_length _)]
  · rw [read_chunks]
    rfl
  · intro page hPage
    rw [block_front weightCipher_length hPage, weightCipher]
    exact block_flatMap (fun _ _ => by rw [gcm.cipher_length, read_length]) hPage
  · intro page hPage
    rw [block_front weightMetas_length hPage, weightMetas]
    exact block_flatMap (fun _ _ => by
      rw [List.length_append, buildIv_length, gcm.tag_length]
      rfl) hPage

/-- The loop writes no more than the block. -/
theorem writeOut_le (aligned : Nat) (rets : List Nat) {written : Nat} (h : written ≤ aligned) :
    writeOut aligned rets written ≤ aligned := by
  induction rets generalizing written with
  | nil => exact h
  | cons ret rest ih =>
      simp only [writeOut]
      split
      · split
        · exact h
        · apply ih
          omega
      · exact h

section Saved

variable {env : SaveEnv} {numPages : Nat} {image : Bytes}

/-- A byte of the file that is not 0 was written, and is a byte of the block. -/
theorem savedBytes_getElem? {i : Nat} {b : UInt8} (hByte : b ≠ 0)
    (h : (savedBytes env numPages image)[i]? = some b) :
    i < writeOut (weightAligned numPages) env.writes 0 ∧ image[i]? = some b := by
  have hTake : ∀ {k : Nat}, (image.take k)[i]? = some b → i < k ∧ image[i]? = some b := by
    intro k hTaken
    rw [List.getElem?_take] at hTaken
    split at hTaken
    · exact ⟨‹_›, hTaken⟩
    · cases hTaken
  rw [savedBytes] at h
  split at h
  · rw [List.getElem?_take] at h
    split at h
    · rcases Nat.lt_or_ge i
        (image.take (writeOut (weightAligned numPages) env.writes 0)).length with hLt | hGe
      · rw [List.getElem?_append_left hLt] at h
        exact hTake h
      · rw [List.getElem?_append_right hGe, List.getElem?_replicate] at h
        split at h
        · exact absurd (Option.some.inj h).symm hByte
        · cases h
    · cases h
  · exact hTake h

/-- The front of the file is the front of the block, as far as it was written. -/
theorem savedBytes_take (hImage : image.length = weightAligned numPages) {n : Nat}
    (hWritten : n ≤ writeOut (weightAligned numPages) env.writes 0)
    (hTotal : n ≤ weightTotal numPages) :
    (savedBytes env numPages image).take n = image.take n := by
  have hLe := writeOut_le (weightAligned numPages) env.writes (Nat.zero_le _)
  rw [savedBytes]
  split
  · rw [List.take_take, Nat.min_eq_left hTotal, List.take_append_of_le_length, List.take_take,
      Nat.min_eq_left hWritten]
    rw [List.length_take]
    omega
  · rw [List.take_take, Nat.min_eq_left hWritten]

end Saved

theorem slice_congr {l l' : Bytes} {n a k : Nat} (h : l.take n = l'.take n) (ha : a + k ≤ n) :
    (l.drop a).take k = (l'.drop a).take k := by
  have hSlice : ∀ m : Bytes, (m.drop a).take k = ((m.take n).drop a).take k := by
    intro m
    rw [List.drop_take, List.take_take, Nat.min_eq_left (by omega)]
  rw [hSlice l, h, ← hSlice]

/-- Behind the header the block is memory. -/
theorem weightImage_slice {img i k : Nat} (hHeader : weightHdrSize ≤ i)
    (hEnd : i + k ≤ weightAligned (weightPages copy.count)) :
    ((weightImage copy va img memory).drop i).take k = read memory (img + i) k := by
  obtain ⟨j, rfl⟩ := Nat.exists_eq_add_of_le hHeader
  rw [weightImage, ← List.drop_drop, List.drop_left' (weightHeader_length _ _ _ _),
    read_slice _ (by omega), Nat.add_assoc]

section Marked

/-- A tag that tells one key from all others. -/
def keyMark (key0 key : Bytes) : UInt8 := if key = key0 then 255 else 238

theorem keyMark_ne_zero (key0 key : Bytes) : keyMark key0 key ≠ 0 := by
  rw [keyMark]
  split <;> decide

theorem markedTag_length (key0 key : Bytes) :
    (List.replicate tagSize (keyMark key0 key)).length = tagSize := List.length_replicate

/-- A cipher that marks every page. -/
def markedGcm (key0 : Bytes) : Gcm where
  encrypt key _ plain := (plain, List.replicate tagSize (keyMark key0 key))
  decrypt key _ cipher tag :=
    if tag = List.replicate tagSize (keyMark key0 key) then some cipher else none
  cipher_length _ _ _ := rfl
  tag_length key _ _ := markedTag_length key0 key
  decrypt_encrypt _ _ _ := if_pos rfl

theorem mapM_flatten_length {f : Nat → Option Bytes} {size : Nat} {l : List Nat}
    {out : List Bytes} (hSize : ∀ i ∈ l, ∀ b, f i = some b → b.length ≤ size)
    (h : l.mapM f = some out) :
    out.flatten.length ≤ l.length * size ∧ ∀ i ∈ l, ∃ b, f i = some b := by
  induction l generalizing out with
  | nil =>
      cases h
      exact ⟨Nat.zero_le _, nofun⟩
  | cons i rest ih =>
      rw [List.mapM_cons] at h
      simp only [Option.bind_eq_bind, Option.bind_eq_some_iff, Option.pure_def,
        Option.some.injEq] at h
      obtain ⟨b, hb, out', hRest, rfl⟩ := h
      obtain ⟨hLength, hAll⟩ := ih (fun j hj => hSize j (List.mem_cons_of_mem i hj)) hRest
      have hFirst := hSize i List.mem_cons_self b hb
      constructor
      · rw [List.flatten_cons, List.length_append, List.length_cons, Nat.succ_mul]
        omega
      · intro j hj
        rcases List.mem_cons.mp hj with rfl | hj
        · exact ⟨b, hb⟩
        · exact hAll j hj

/-- Every page that decrypts has the mark of the key. -/
theorem decryptPages_marked {key0 key cipher metas plain : Bytes} {numPages size : Nat}
    (h : Crypto.decryptPages (markedGcm key0) key cipher metas numPages size = some plain) :
    plain.length ≤ numPages * size ∧ ∀ page < numPages,
      (metas.drop (page * pageMetaSize + ivSize)).take tagSize =
        List.replicate tagSize (keyMark key0 key) := by
  rw [Crypto.decryptPages, Option.map_eq_some_iff] at h
  obtain ⟨out, hOut, rfl⟩ := h
  have hPage : ∀ page b, decryptPage (markedGcm key0) key cipher metas size page = some b →
      b.length ≤ size ∧ (metas.drop (page * pageMetaSize + ivSize)).take tagSize =
        List.replicate tagSize (keyMark key0 key) := by
    intro page b hb
    simp only [decryptPage, markedGcm] at hb
    split at hb
    · rename_i hTag
      cases hb
      constructor
      · exact List.length_take_le _ _
      · rw [← hTag, List.drop_take, List.drop_drop]
        rfl
    · cases hb
  obtain ⟨hLength, hAll⟩ := mapM_flatten_length (fun page _ b hb => (hPage page b hb).1) hOut
  rw [List.length_range] at hLength
  refine ⟨hLength, fun page hLt => ?_⟩
  obtain ⟨b, hb⟩ := hAll page (List.mem_range.mpr hLt)
  exact (hPage page b hb).2

theorem getElem?_of_slice {l : Bytes} {a k i : Nat} {b : UInt8}
    (h : (l.drop a).take k = List.replicate k b) (hi : i < k) : l[a + i]? = some b := by
  have hByte := congrArg (fun m => m[i]?) h
  simp only [List.getElem?_take, if_pos hi, List.getElem?_drop, List.getElem?_replicate] at hByte
  exact hByte

/-- The number of pages of the header, in a file that was written so far. -/
theorem savedBytes_pages {env : SaveEnv} {img : Nat}
    (hWritten : 28 ≤ writeOut (weightAligned (weightPages copy.count)) env.writes 0) :
    ofLeBytes (((savedBytes env (weightPages copy.count)
      (weightImage copy va img memory)).drop 24).take 4) = weightPages copy.count := by
  have hPages : weightPages copy.count < 256 ^ 4 := Nat.mod_lt _ (by decide)
  have hHdr := weightHdr_le (weightPages copy.count)
  rw [weightHdrSize] at hHdr
  rw [slice_congr (savedBytes_take (weightImage_length copy va img memory) hWritten (by omega))
    (Nat.le_refl 28), weightImage, weightHeader]
  simp only [List.append_assoc]
  rw [← List.append_assoc, ← List.append_assoc, slice_append (by simp) (leBytes_length _ _),
    ofLeBytes_leBytes hPages]

/-- A file that decrypts to as many bytes as the copy has was written in full, with the mark of
the key on every page. -/
theorem opened_marked {env : SaveEnv} {img : Nat} {key0 key plain : Bytes} {addr offset : Nat}
    (hCount : 0 < copy.count) (hRead : weightPages copy.count * cryptoPageSize ≤ copy.count)
    (hPlain : plain.length = copy.count)
    (h : openWeight (markedGcm key0) key (savedBytes env (weightPages copy.count)
      (weightImage copy va img memory)) = some (addr, offset, plain)) :
    weightPages copy.count * cryptoPageSize = copy.count ∧
      weightTotal (weightPages copy.count) ≤
        writeOut (weightAligned (weightPages copy.count)) env.writes 0 ∧
      ∀ page < weightPages copy.count, read memory
        (img + weightHdrSize + weightPages copy.count * cryptoPageSize + page * pageMetaSize + ivSize)
          tagSize = List.replicate tagSize (keyMark key0 key) := by
  rw [openWeight, Option.map_eq_some_iff] at h
  obtain ⟨all, hAll, hFields⟩ := h
  obtain ⟨hLength, hMarks⟩ := decryptPages_marked hAll
  simp only [Prod.mk.injEq] at hFields
  have hTake := congrArg List.length hFields.2.2
  rw [hPlain, List.length_take] at hTake
  generalize hNp : ofLeBytes (((savedBytes env (weightPages copy.count)
    (weightImage copy va img memory)).drop 24).take 4) = np at hLength hMarks
  have hPos : 0 < np := by
    apply Nat.pos_of_ne_zero
    intro hZero
    rw [hZero, Nat.zero_mul] at hLength
    omega
  -- the last byte of a tag is not 0, so the file was written as far as that
  have hReach : ∀ page < np, weightHdrSize + np * cryptoPageSize + page * pageMetaSize + 28 ≤
      writeOut (weightAligned (weightPages copy.count)) env.writes 0 := by
    intro page hPage
    have hMark := hMarks page hPage
    rw [List.drop_drop, List.drop_drop] at hMark
    have hByte := getElem?_of_slice hMark (show 15 < tagSize by decide)
    have hLast := (savedBytes_getElem? (keyMark_ne_zero key0 key) hByte).1
    simp only [ivSize] at hLast
    omega
  have hFirst := hReach 0 hPos
  have hSame : np = weightPages copy.count := by
    rw [← hNp]
    exact savedBytes_pages (by omega)
  subst hSame
  have hWhole : weightPages copy.count * cryptoPageSize = copy.count := by omega
  have hWritten : weightTotal (weightPages copy.count) ≤
      writeOut (weightAligned (weightPages copy.count)) env.writes 0 := by
    have hLast := hReach (weightPages copy.count - 1) (by omega)
    rw [weightTotal]
    rw [show pageMetaSize = 28 from rfl] at hLast ⊢
    omega
  refine ⟨hWhole, hWritten, fun page hPage => ?_⟩
  have hEnd := block_le pageMetaSize hPage
  have hTotal := weightTotal_le (weightPages copy.count)
  have hMark := hMarks page hPage
  have hIn : weightHdrSize + (weightPages copy.count * cryptoPageSize +
      (page * pageMetaSize + ivSize)) + tagSize ≤ weightTotal (weightPages copy.count) := by
    rw [weightTotal]
    rw [show pageMetaSize = 28 from rfl] at hEnd ⊢
    simp only [ivSize, tagSize]
    omega
  rw [List.drop_drop, List.drop_drop, slice_congr (savedBytes_take (weightImage_length _ _ _ _)
    hWritten (Nat.le_refl _)) hIn, weightImage_slice (by omega) (by omega)] at hMark
  simpa only [Nat.add_assoc] using hMark

end Marked

/-- All threads of the encryption are at work, and no page fails. -/
structure SaveEnv.Encrypts (env : SaveEnv) (numPages : Nat) : Prop where
  allocated : env.evp.allocated = true
  threads : ∀ t < env.threads.count numPages, env.created t = true ∧ env.evp.context t = true
  pages : ∀ page < numPages, env.evp.page page = .whole

/-- What a file takes: whole pages, an encryption and writes that succeed, the key in its file,
and an entry that starts where the live allocation does. -/
structure WeightSaver.Complete (s : WeightSaver) (env : SaveEnv) (copy : HostCopy)
    (e : AllocEntry) : Prop where
  whole : cryptoPageSize ∣ copy.count ∧ copy.count < 2 ^ 44
  encrypts : env.Encrypts (weightPages copy.count)
  written : weightTotal (weightPages copy.count) ≤
    writeOut (weightAligned (weightPages copy.count)) env.writes 0
  key : (s.ensureKey env).keyFile = some (s.ensureKey env).k3Key
  live : ∃ l ∈ s.table, l.freed = false ∧ l.Covers copy.gpuDst ∧ l.va = e.va

section Encryption

variable {env : SaveEnv} {turns : List Nat} {img : Nat} {run : PageResult}

theorem encrypts_zero (hPages : weightPages copy.count ≠ 0)
    (hBuffers : (weightCall s copy img).Buffers) (hEncrypts : env.Encrypts (weightPages copy.count))
    (h : ckptCryptoEncryptPages gcm (weightCall s copy img) env.threads env.evp turns
      (cleared copy img memory) = some run) :
    run.memory = (weightCall s copy img).sealedMemory gcm (cleared copy img memory) := by
  have hStatus : run.status = 0 := by
    apply runPages_calm (independent_encryption hBuffers) (fun _ _ _ => rfl) hPages
      (show cryptoPageSize ≠ 0 by decide) hEncrypts.allocated (fun t ht => (hEncrypts.threads t ht).2) _ h
    intro page hPage
    rw [PageCall.encryptValue, if_pos (hEncrypts.pages page hPage)]
    rfl
  exact (encrypt_zero hBuffers hPages (show cryptoPageSize < 2 ^ 31 by decide) (fun t ht => (hEncrypts.threads t ht).1) h
    hStatus).2.1

/-- An encryption that leaves a tag on every page lacked no thread and no page. -/
theorem encrypts_of_marks (hPages : weightPages copy.count ≠ 0)
    (hBuffers : (weightCall s copy img).Buffers) {mark : UInt8} (hMark : mark ≠ 0)
    (hTotal : weightTotal (weightPages copy.count) ≤ weightAligned (weightPages copy.count))
    (h : ckptCryptoEncryptPages gcm (weightCall s copy img) env.threads env.evp turns
      (cleared copy img memory) = some run)
    (hTags : ∀ page < weightPages copy.count, read run.memory
      ((weightCall s copy img).entry page + ivSize) tagSize = List.replicate tagSize mark) :
    env.Encrypts (weightPages copy.count) := by
  have hBusy : ∀ page < weightPages copy.count, ¬(env.evp.page page ≠ .whole ∨
      env.evp.allocated = false ∨ page ∉ (env.threads.start env.evp (weightPages copy.count)
        (cleared copy img memory)).left.flatten) := by
    intro page hPage hIdle
    have hEnd := block_le pageMetaSize hPage
    have hKept := tag_kept hBuffers hPages h hPage hIdle
    rw [hTags page hPage] at hKept
    have hZero : read (cleared copy img memory) ((weightCall s copy img).entry page + ivSize)
        tagSize = read (fun _ => 0) ((weightCall s copy img).entry page + ivSize) tagSize := by
      apply read_congr
      intro a hLow hHigh
      rw [cleared, write_replicate, if_pos]
      rw [weightTotal] at hTotal
      simp only [PageCall.entry, weightCall] at hLow hHigh
      simp only [pageMetaSize, ivSize, tagSize] at *
      omega
    rw [hZero, read_const (fun _ => rfl), List.replicate_inj] at hKept
    exact hMark (hKept.2.resolve_left (by decide))
  have hFirst := hBusy 0 (Nat.pos_of_ne_zero hPages)
  push Not at hFirst
  refine ⟨by simpa using hFirst.2.1, ?_, fun page hPage => ?_⟩
  · apply starts_of_pages (c := weightCall s copy img) (Nat.pos_of_ne_zero hPages)
    intro page hPage
    by_contra hOut
    exact hBusy page hPage (.inr (.inr hOut))
  · by_contra hNot
    exact hBusy page hPage (.inl hNot)

end Encryption

section Main

variable {env : SaveEnv}

/-- Where the first copy puts the key. -/
def WeightSaver.marked (s : WeightSaver) (env : SaveEnv) (copy : HostCopy) : WeightSaver :=
  { s.ensureKey env with table := flagFirst copy.gpuDst (s.ensureKey env).table }

theorem encryptWeight_eq_some {turns : List Nat} {img : Nat} {r : SaveResult}
    (h : encryptWeight gcm s env turns copy va img memory = some r) :
    ∃ run, ckptCryptoEncryptPages gcm (weightCall s copy img) env.threads env.evp turns
        (cleared copy img memory) = some run ∧ r.handed = run.handed ∧
      r.saver.keyFile = s.keyFile ∧ r.file = if env.opens then
        some (savedBytes env (weightPages copy.count) (weightImage copy va img run.memory))
      else none := by
  rw [encryptWeight, Option.map_eq_some_iff] at h
  obtain ⟨run, hRun, rfl⟩ := h
  exact ⟨run, hRun, rfl, rfl, rfl⟩

theorem exists_encryptWeight (gcm : Gcm) (s : WeightSaver) (env : SaveEnv) (copy : HostCopy)
    (va img : Nat) (memory : Image) :
    ∃ turns r, encryptWeight gcm s env turns copy va img memory = some r := by
  obtain ⟨turns, run, hRun⟩ := exists_runPages ((weightCall s copy img).encryptPage gcm env.evp)
    (weightCall s copy img) env.threads env.evp (cleared copy img memory)
  refine ⟨turns, ?_⟩
  rw [encryptWeight]
  exact ⟨_, congrArg _ hRun⟩

/-- The pages of every encryption of a copy. -/
theorem handed_within {turns : List Nat} {img : Nat} {r : SaveResult}
    (h : encryptWeight gcm s env turns copy va img memory = some r) :
    ∀ x ∈ r.handed, x.page < weightPages copy.count ∧ x.plain.length = cryptoPageSize := by
  obtain ⟨run, hRun, hHanded, -, -⟩ := encryptWeight_eq_some h
  rw [hHanded]
  intro x hx
  obtain ⟨hPage, hLength⟩ := handed_page hRun x hx
  have hSize : intLength cryptoPageSize = cryptoPageSize := intLength_eq_iff.mpr (by decide)
  exact ⟨hPage, hLength.trans hSize⟩

/-- Calls that all go well, with a block behind the padded input. -/
def calmSave (copy : HostCopy) : SaveEnv where
  newKey := some []
  keyFileOpens := true
  keyWritten := 0
  online := 1
  created := fun _ => true
  evp := calmEnv
  buffer := some (copy.hostSrc + weightPages copy.count * cryptoPageSize)
  opens := false
  writes := []
  truncates := true

theorem ready_calmSave : (s.ensureKey (calmSave copy)).k3Ready = true := by
  rw [WeightSaver.ensureKey]
  split
  · assumption
  · rfl

/-- The encryption reads the padded pages, to the last one. -/
theorem reads_iff : (∀ gcm env' turns memory r, saveH2dWeight gcm s env' turns copy memory = some r →
      ∀ h ∈ r.handed, h.page * cryptoPageSize + h.plain.length ≤ copy.count) ↔
    (s.gate = true → 4096 ≤ copy.count → (s.allocEntry copy.gpuDst).isSome = true →
      cryptoPageSize ∣ copy.count ∨ 2 ^ 44 - 4096 < copy.count) := by
  constructor
  · intro hReads hGate hCount hEntry
    obtain ⟨e, he⟩ := Option.isSome_iff_exists.mp hEntry
    rw [← weightPages_le_iff copy.count_lt]
    by_cases hPages : weightPages copy.count = 0
    · rw [hPages, Nat.zero_mul]
      exact Nat.zero_le _
    have hSaves : s.Saves (calmSave copy) copy e
        (copy.hostSrc + weightPages copy.count * cryptoPageSize) :=
      ⟨hGate, hCount, ready_calmSave, he, rfl⟩
    obtain ⟨turns, r, hRun⟩ := exists_encryptWeight Gcm.clear (s.marked (calmSave copy) copy)
      (calmSave copy) copy e.va (copy.hostSrc + weightPages copy.count * cryptoPageSize) fun _ => 0
    have hAll := hReads _ _ _ _ _ ((saveH2dWeight_of_saves hSaves).trans hRun)
    obtain ⟨run, hRun', hHanded, -, -⟩ := encryptWeight_eq_some hRun
    have hBuffers : (weightCall (s.marked (calmSave copy) copy) copy
        (copy.hostSrc + weightPages copy.count * cryptoPageSize)).Buffers :=
      buffers_weightCall (.inr (Nat.le_refl _))
    have hStatus : run.status = 0 :=
      runPages_calm (independent_encryption hBuffers) (fun _ _ _ => rfl) hPages
        (show cryptoPageSize ≠ 0 by decide) rfl (fun _ _ => rfl) (fun _ _ => rfl) hRun'
    obtain ⟨-, -, hPerm⟩ := encrypt_zero hBuffers hPages
      (show cryptoPageSize < 2 ^ 31 by decide) (fun _ _ => rfl) hRun' hStatus
    rw [encryptPages_eq] at hPerm
    have hLast := hPerm.mem_iff.mpr (List.mem_map_of_mem
      (List.mem_range.mpr (Nat.sub_lt (Nat.pos_of_ne_zero hPages) Nat.one_pos)))
    rw [← hHanded] at hLast
    have hLess := hAll _ hLast
    have hLength := (handed_within hRun _ hLast).2
    rw [hLength] at hLess
    dsimp only [weightCall] at hLess
    have hWhole : (weightPages copy.count - 1 + 1) * cryptoPageSize ≤ copy.count := by
      rw [Nat.succ_mul]
      exact hLess
    rwa [Nat.sub_add_cancel (Nat.pos_of_ne_zero hPages)] at hWhole
  · intro hCond gcm env' turns memory r h x hx
    rcases saveH2dWeight_eq_some h with ⟨hNone, -, -⟩ | ⟨e, img, hSaves, hRun⟩
    · rw [hNone] at hx
      cases hx
    · have hRead := hCond hSaves.gate hSaves.count (by rw [hSaves.entry]; rfl)
      rw [← weightPages_le_iff copy.count_lt] at hRead
      obtain ⟨hPage, hLength⟩ := handed_within hRun x hx
      have hLast := block_le cryptoPageSize hPage
      omega

theorem allocEntry_mem {e : AllocEntry} (h : s.allocEntry copy.gpuDst = some e) :
    e ∈ s.table ∧ e.Covers copy.gpuDst :=
  ⟨List.mem_of_find?_eq_some h, by simpa using List.find?_some h⟩

/-- The block of a full save, which depends on the input alone. -/
def fullImage (gcm : Gcm) (s : WeightSaver) (copy : HostCopy) (va : Nat) (memory : Image) : Bytes :=
  weightHeader copy.gpuDst (copy.gpuDst - va) copy.count (weightPages copy.count) ++
    (weightCipher gcm s copy memory ++ (weightMetas gcm s copy memory ++
      List.replicate (weightAligned (weightPages copy.count) -
        weightTotal (weightPages copy.count)) 0))

/-- A full block that was written as far as its entries go opens. -/
theorem openWeight_saved
    (hWritten : weightTotal (weightPages copy.count) ≤
      writeOut (weightAligned (weightPages copy.count)) env.writes 0) :
    openWeight gcm s.k3Key (savedBytes env (weightPages copy.count) (fullImage gcm s copy va memory)) =
      some (copy.gpuDst, copy.gpuDst - va,
        (read memory copy.hostSrc (weightPages copy.count * cryptoPageSize)).take copy.count) := by
  have hTotal := weightTotal_le (weightPages copy.count)
  have hFront : (weightHeader copy.gpuDst (copy.gpuDst - va) copy.count (weightPages copy.count) ++
      (weightCipher gcm s copy memory ++ weightMetas gcm s copy memory)).length =
        weightTotal (weightPages copy.count) := by
    rw [List.length_append, List.length_append, weightHeader_length, weightCipher_length,
      weightMetas_length, weightTotal, Nat.add_assoc]
  have hImage : fullImage gcm s copy va memory =
      (weightHeader copy.gpuDst (copy.gpuDst - va) copy.count (weightPages copy.count) ++
        (weightCipher gcm s copy memory ++ weightMetas gcm s copy memory)) ++
          List.replicate (weightAligned (weightPages copy.count) -
            weightTotal (weightPages copy.count)) 0 := by
    simp only [fullImage, List.append_assoc]
  have hLength : (fullImage gcm s copy va memory).length = weightAligned (weightPages copy.count) := by
    rw [hImage, List.length_append, hFront, List.length_replicate]
    omega
  have hTake := savedBytes_take hLength hWritten (Nat.le_refl _)
  rw [hImage, List.take_left' hFront, ← hImage] at hTake
  rw [← List.take_append_drop (weightTotal (weightPages copy.count))
    (savedBytes env (weightPages copy.count) (fullImage gcm s copy va memory)), hTake]
  simp only [List.append_assoc]
  exact openWeight_eq _

theorem pages_ne_zero (hCount : 4096 ≤ copy.count)
    (hWhole : weightPages copy.count * cryptoPageSize = copy.count) :
    weightPages copy.count ≠ 0 := by
  intro hZero
  rw [hZero] at hWhole
  omega

theorem buffers_fresh {img : Nat} (hFresh : Fresh copy img)
    (hRead : weightPages copy.count * cryptoPageSize ≤ copy.count) :
    (weightCall s copy img).Buffers := by
  have hTotal := weightTotal_le (weightPages copy.count)
  rw [Fresh] at hFresh
  exact buffers_weightCall (by omega)

/-- The block behind an encryption in which nothing fails. -/
theorem weightImage_encrypts {img : Nat} {turns : List Nat} {run : PageResult}
    (hFresh : Fresh copy img) (hCount : 4096 ≤ copy.count)
    (hWhole : weightPages copy.count * cryptoPageSize = copy.count)
    (hEncrypts : env.Encrypts (weightPages copy.count))
    (hRun : ckptCryptoEncryptPages gcm (weightCall s copy img) env.threads env.evp turns
      (cleared copy img memory) = some run) :
    weightImage copy va img run.memory = fullImage gcm s copy va memory := by
  have hRead := Nat.le_of_eq hWhole
  rw [encrypts_zero (pages_ne_zero hCount hWhole) (buffers_fresh hFresh hRead) hEncrypts hRun]
  exact weightImage_sealed hFresh hRead

/-- The mark on the pages of a full encryption is that of the key. -/
theorem mark_encrypts {img : Nat} {turns : List Nat} {run : PageResult} {key0 key : Bytes}
    (hFresh : Fresh copy img) (hCount : 4096 ≤ copy.count)
    (hWhole : weightPages copy.count * cryptoPageSize = copy.count)
    (hEncrypts : env.Encrypts (weightPages copy.count))
    (hRun : ckptCryptoEncryptPages (markedGcm key0) (weightCall s copy img) env.threads env.evp turns
      (cleared copy img memory) = some run)
    (hTags : ∀ page < weightPages copy.count, read run.memory
      ((weightCall s copy img).entry page + ivSize) tagSize =
        List.replicate tagSize (keyMark key0 key)) : keyMark key0 key = keyMark key0 s.k3Key := by
  have hPages := pages_ne_zero hCount hWhole
  have hFirst := hTags 0 (Nat.pos_of_ne_zero hPages)
  rw [encrypts_zero hPages (buffers_fresh hFresh (Nat.le_of_eq hWhole)) hEncrypts hRun] at hFirst
  have hEntry : read ((weightCall s copy img).sealedMemory (markedGcm key0) (cleared copy img memory))
      ((weightCall s copy img).entry 0) pageMetaSize = _ :=
    read_block read_sealed_entries (fun _ _ => entry_length _) (Nat.pos_of_ne_zero hPages)
  rw [show pageMetaSize = ivSize + tagSize from rfl, read_append] at hEntry
  have hTag := (List.append_inj hEntry (by rw [read_length, buildIv_length])).2
  rw [hFirst] at hTag
  exact (List.replicate_inj.mp hTag).2.resolve_left (by decide)

/-- Memory that agrees on the input gives the same file. -/
theorem fullImage_congr {memory' : Image}
    (hRead : weightPages copy.count * cryptoPageSize ≤ copy.count)
    (h : read memory' copy.hostSrc copy.count = read memory copy.hostSrc copy.count) :
    fullImage gcm s copy va memory' = fullImage gcm s copy va memory := by
  have hPage : ∀ page ∈ List.range (weightPages copy.count),
      read memory' (copy.hostSrc + page * cryptoPageSize) cryptoPageSize =
        read memory (copy.hostSrc + page * cryptoPageSize) cryptoPageSize := by
    intro page hMem
    have hLast := block_le cryptoPageSize (List.mem_range.mp hMem)
    apply read_congr
    intro a hLow hHigh
    exact read_eq_iff.mp h a (by omega) (by omega)
  have hCipher : weightCipher gcm s copy memory' = weightCipher gcm s copy memory := by
    rw [weightCipher, weightCipher, List.flatMap_def, List.flatMap_def]
    exact congrArg List.flatten (List.map_congr_left fun page hMem => by rw [hPage page hMem])
  have hMetas : weightMetas gcm s copy memory' = weightMetas gcm s copy memory := by
    rw [weightMetas, weightMetas, List.flatMap_def, List.flatMap_def]
    exact congrArg List.flatten (List.map_congr_left fun page hMem => by rw [hPage page hMem])
  rw [fullImage, hCipher, hMetas, fullImage]

/-- The file of a complete save. -/
theorem file_of_complete {e : AllocEntry} {img : Nat} {turns : List Nat} {r : SaveResult}
    (hSaves : s.Saves env copy e img) (hFresh : Fresh copy img) (hOpens : env.opens = true)
    (hComplete : s.Complete env copy e)
    (h : encryptWeight gcm (s.marked env copy) env turns copy e.va img memory = some r) :
    r.saver.keyFile = some (s.ensureKey env).k3Key ∧ r.file = some (savedBytes env
      (weightPages copy.count) (fullImage gcm (s.marked env copy) copy e.va memory)) := by
  have hWhole := (weightPages_eq_iff copy.count_lt).mpr hComplete.whole
  obtain ⟨run, hRun, -, hKey, hFile⟩ := encryptWeight_eq_some h
  rw [if_pos hOpens,
    weightImage_encrypts hFresh hSaves.count hWhole hComplete.encrypts hRun] at hFile
  exact ⟨hKey.trans hComplete.key, hFile⟩

theorem file_of_notOpens {img : Nat} {turns : List Nat} {r : SaveResult} (hOpens : ¬env.opens = true)
    (h : encryptWeight gcm s env turns copy va img memory = some r) : r.file = none := by
  obtain ⟨run, -, -, -, hFile⟩ := encryptWeight_eq_some h
  rwa [if_neg hOpens] at hFile

/-- A copy is kept exactly when its size is whole pages and nothing goes wrong unnoticed. -/
theorem weightKept_iff (s : WeightSaver) (env : SaveEnv) (copy : HostCopy)
    (hFresh : ∀ img, env.buffer = some img → Fresh copy img) :
    WeightKept s env copy ↔
      (s.gate = true → 4096 ≤ copy.count → (s.allocEntry copy.gpuDst).isSome = true →
          cryptoPageSize ∣ copy.count ∨ 2 ^ 44 - 4096 < copy.count) ∧
        ∀ e img, s.Saves env copy e img → env.opens = true → s.Complete env copy e := by
  constructor
  · intro hKept
    have hReads := reads_iff.mp hKept.reads
    refine ⟨hReads, fun e img hSaves hOpens => ?_⟩
    have hRead := (weightPages_le_iff copy.count_lt).mpr
      (hReads hSaves.gate hSaves.count (by rw [hSaves.entry]; rfl))
    have hApart := hFresh img hSaves.buffer
    obtain ⟨turns, r, hRun⟩ := exists_encryptWeight (markedGcm (s.ensureKey env).k3Key)
      (s.marked env copy) env copy e.va img fun _ => 0
    obtain ⟨run, hRun', -, hKeyFile, hFile⟩ := encryptWeight_eq_some hRun
    rw [if_pos hOpens] at hFile
    obtain ⟨key, l, hKey, hMem, hLive, hCovers, hOpen⟩ := hKept.saves _ _ _ _ _
      ((saveH2dWeight_of_saves hSaves).trans hRun) hFile
    have hPositive : 0 < copy.count := Nat.lt_of_lt_of_le (by decide) hSaves.count
    obtain ⟨hWhole, hWritten, hMarks⟩ := opened_marked hPositive hRead (read_length _ _ _) hOpen
    have hEncrypts := encrypts_of_marks (pages_ne_zero hSaves.count hWhole)
      (buffers_fresh hApart hRead) (keyMark_ne_zero _ _) (weightTotal_le _) hRun' hMarks
    have hSame := mark_encrypts hApart hSaves.count hWhole hEncrypts hRun' hMarks
    have hKeyEq : key = (s.ensureKey env).k3Key := by
      by_contra hNe
      rw [keyMark, if_neg hNe, keyMark] at hSame
      rw [WeightSaver.marked, if_pos rfl] at hSame
      exact absurd hSame (by decide)
    refine ⟨(weightPages_eq_iff copy.count_lt).mp hWhole, hEncrypts, hWritten, ?_, ?_⟩
    · rw [← hKeyEq]
      exact hKeyFile.symm.trans hKey
    · refine ⟨l, hMem, hLive, hCovers, ?_⟩
      have hBack : openWeight (markedGcm (s.ensureKey env).k3Key) (s.ensureKey env).k3Key
          (savedBytes env (weightPages copy.count) (fullImage (markedGcm (s.ensureKey env).k3Key)
            (s.marked env copy) copy e.va fun _ => 0)) = some (copy.gpuDst, copy.gpuDst - e.va, _) :=
        openWeight_saved hWritten
      rw [weightImage_encrypts hApart hSaves.count hWhole hEncrypts hRun', hKeyEq] at hOpen
      have hFields := Option.some.inj (hOpen.symm.trans hBack)
      have hOffset := (Prod.mk.inj (Prod.mk.inj hFields).2).1
      have hEntry := (allocEntry_mem hSaves.entry).2
      rw [AllocEntry.Covers] at hEntry hCovers
      omega
  · rintro ⟨hReads, hComplete⟩
    refine ⟨reads_iff.mpr hReads, ?_, ?_⟩
    · intro gcm turns memory r file h hSome
      rcases saveH2dWeight_eq_some h with ⟨-, hNone, -⟩ | ⟨e, img, hSaves, hRun⟩
      · cases hNone.symm.trans hSome
      by_cases hOpens : env.opens = true
      · have hAll := hComplete e img hSaves hOpens
        have hWhole := (weightPages_eq_iff copy.count_lt).mpr hAll.whole
        obtain ⟨hKey, hFile⟩ := file_of_complete hSaves (hFresh img hSaves.buffer) hOpens hAll hRun
        obtain ⟨l, hMem, hLive, hCovers, hVa⟩ := hAll.live
        refine ⟨_, l, hKey, hMem, hLive, hCovers, ?_⟩
        cases hFile.symm.trans hSome
        have hPlain : (read memory copy.hostSrc (weightPages copy.count * cryptoPageSize)).take
            copy.count = read memory copy.hostSrc copy.count := by
          rw [hWhole]
          exact List.take_of_length_le (Nat.le_of_eq (read_length _ _ _))
        rw [hVa, ← hPlain]
        exact openWeight_saved hAll.written
      · cases (file_of_notOpens hOpens hRun).symm.trans hSome
    · intro gcm turns turns' memory memory' r r' hSame h h'
      rcases saveH2dWeight_eq_some h with ⟨-, hNone, hNot⟩ | ⟨e, img, hSaves, hRun⟩
      · rcases saveH2dWeight_eq_some h' with ⟨-, hNone', -⟩ | ⟨e, img, hSaves, -⟩
        · rw [hNone, hNone']
        · exact absurd ⟨e, img, hSaves⟩ hNot
      rw [saveH2dWeight_of_saves hSaves] at h'
      by_cases hOpens : env.opens = true
      · have hAll := hComplete e img hSaves hOpens
        have hWhole := (weightPages_eq_iff copy.count_lt).mpr hAll.whole
        rw [(file_of_complete hSaves (hFresh img hSaves.buffer) hOpens hAll hRun).2,
          (file_of_complete hSaves (hFresh img hSaves.buffer) hOpens hAll h').2,
          fullImage_congr (Nat.le_of_eq hWhole) hSame]
      · rw [file_of_notOpens hOpens hRun, file_of_notOpens hOpens h']

/-- A gate with one live allocation, and a key that is in its file. -/
def oneWeight : WeightSaver := ⟨true, [⟨8192, 65536, false, false⟩], true, [1], 7, some [1]⟩

/-- One page to the middle of the allocation. -/
def pageCopy : HostCopy := ⟨12288, 1048576, 4096, by decide, Image.page_lt_wordLimit⟩

/-- A save in which all calls go well. -/
def goodSave : SaveEnv where
  newKey := none
  keyFileOpens := false
  keyWritten := 0
  online := 2
  created := fun _ => true
  evp := calmEnv
  buffer := some 0
  opens := true
  writes := [8192]
  truncates := true

theorem weightKept_page : WeightKept oneWeight goodSave pageCopy := by
  apply (weightKept_iff oneWeight goodSave pageCopy _).mpr
  · refine ⟨fun _ _ _ => .inl (by decide), fun e img hSaves _ => ?_⟩
    cases hSaves.entry
    exact ⟨by decide, ⟨rfl, fun _ _ => ⟨rfl, rfl⟩, fun _ _ => rfl⟩, by decide, rfl,
      ⟨_, List.mem_cons_self, rfl, by decide, rfl⟩⟩
  · intro img hBuffer
    cases hBuffer
    exact .inl (by decide)

/-- One byte more than a page. -/
def unevenCopy : HostCopy := ⟨12288, 1048576, 4097, by decide, by decide⟩

/-- The encryption goes on to the end of the second page, 4095 bytes behind the input. -/
theorem not_weightKept_uneven : ¬WeightKept oneWeight goodSave unevenCopy := by
  intro h
  have hReads := reads_iff.mp h.reads rfl (by decide) rfl
  revert hReads
  decide

end Main

end FlashCkpt.Static
