import FlashCkpt.Restore.FromFiles

/-! What `ckpt_restore_from_files_encrypted` hands out when it returns 0: the pages
it copied into the result, byte by byte with their origin. -/
namespace FlashCkpt.Restore

open ByteImage SizeCut Crypto Image

/-- The pages `ckpt_restore_from_files` copies. -/
def plainLog (base : BaseFile) (delta : IncDelta) : Option Log :=
  let groups := groupDescs base.descs
  if maxRanges < base.descs.length ∨ maxGroups < groups.length then none
  else do
    let ranges ← (sortDescs base.descs).mapM (dataLog (isV3 base) base.data base.size)
    if delta.magic ≠ incDeltaMagic then none
    else
      let blocks ← delta.blocks.mapM (patchLog (isV3 base) groups delta)
      return ranges.flatten ++ blocks.flatten

/-- The pages `ckpt_restore_from_files_encrypted` copies. -/
def restoreLog (keys : Keys) (base : BaseFile) (delta : IncDelta) : Option Log :=
  let groups := groupDescs base.descs
  if maxRanges < base.descs.length then none
  else if base.descs.all fun d => d.cryptoMetaBytes = 0 then plainLog base delta
  else if maxGroups < groups.length then none
  else do
    let ranges ← (sortDescs base.descs).mapM (rangeLog keys base)
    if delta.magic ≠ incDeltaMagic then none
    else return ranges.flatten ++
      (delta.blocks.map (blockLog keys (isV3 base) groups delta)).flatten

def AllSound (log : Log) : Prop := ∀ w ∈ log, ∀ c ∈ w.2, c.origin.Sound

/-- Whatever the reader returns is what it copied, in the clear in the files or
authenticated. -/
def FailsClosed (keys : Keys) (base : BaseFile) (delta : IncDelta) : Prop :=
  ∀ result, restoreFromFilesEncrypted keys base delta = some result →
    ∃ log, restoreLog keys base delta = some log ∧ result.image = replay (fun _ => 0) log ∧
      AllSound log

/-- The transfer is one the cipher takes, and its tag fits. -/
def K3Authentic (keys : Keys) (key : Bytes) (entry : CryptoMeta) (cipher : Bytes) : Prop :=
  cipher.length % 2 ^ 32 < 2 ^ 31 ∧
    (keys.gcm.decrypt key entry.iv (cipher.take (cipher.length % 2 ^ 32)) entry.authTag).isSome

def K1Authentic (keys : Keys) (entry : CryptoMeta) (cipher : Bytes) : Prop :=
  0 < entry.size ∧ entry.size ≤ dmaBufferSize ∧ entry.size ≤ cipher.length ∧
    (keys.channel.decrypt entry (cipher.take entry.size)).isSome

/-- Every transfer of the section is authentic. -/
def K3Verifies (keys : Keys) (key : Bytes) : List CryptoMeta → Bytes → Prop
  | [], _ => True
  | entry :: rest, cipher => cipher = [] ∨
      K3Authentic keys key entry (cipher.take (k3Chunk entry cipher.length)) ∧
        K3Verifies keys key rest (cipher.drop (k3Chunk entry cipher.length))

def K1Verifies (keys : Keys) : List CryptoMeta → Bytes → Prop
  | [], _ => True
  | entry :: rest, cipher =>
      K1Authentic keys entry cipher ∧ K1Verifies keys rest (cipher.drop entry.size)

/-- The bytes from `a` to `k` of the section are in transfers the loop gets to, and each
of these was seen by the cipher up to its end. -/
def K3Opens (keys : Keys) (key : Bytes) : List CryptoMeta → Bytes → (a k : Nat) → Prop
  | [], _, a, k => k ≤ a
  | entry :: rest, cipher, a, k => k ≤ a ∨
      K3Authentic keys key entry (cipher.take (k3Chunk entry cipher.length)) ∧
        (k ≤ k3Chunk entry cipher.length % 2 ^ 32 ∨ k3Chunk entry cipher.length ≤ a ∨
          k3Chunk entry cipher.length < 2 ^ 32) ∧
        K3Opens keys key rest (cipher.drop (k3Chunk entry cipher.length))
          (a - k3Chunk entry cipher.length) (k - k3Chunk entry cipher.length)

/-- The first `k` bytes of the section are covered by authentic transfers. -/
def K1Opens (keys : Keys) : List CryptoMeta → Bytes → (k : Nat) → Prop
  | [], _, k => k = 0
  | entry :: rest, cipher, k => k = 0 ∨
      K1Authentic keys entry cipher ∧ K1Opens keys rest (cipher.drop entry.size) (k - entry.size)

/-- The bytes a residency map takes from a section of `n` bytes. -/
def placedBytes (checked : Bool) (place : Residency) (resmap : Bytes) (n : Nat) : Nat :=
  (if checked then min (resmap.count place.code) (n / pageSize) else resmap.count place.code) *
    pageSize

/-- The first `k` bytes of the CPU section of a version 3 range, or of a block, are in
the clear in the file or under authentic transfers with the key at hand. -/
def CpuReady (keys : Keys) (v3 : Bool) (data : ByteImage.Image) (size : Nat) (d : RangeDesc)
    (k : Nat) : Prop :=
  k = 0 ∨ if (sectionMetas v3 data d).2 = [] then d.dataOffset + d.resmapSize + k ≤ size
    else v3 = true ∧ ∃ key, keys.k3 = some key ∧ K3Opens keys key (sectionMetas v3 data d).2
      (read data (d.dataOffset + d.resmapSize) d.cpuBytes) 0 k

def GpuReady (keys : Keys) (v3 : Bool) (data : ByteImage.Image) (size : Nat) (d : RangeDesc)
    (k : Nat) : Prop :=
  k = 0 ∨ if (sectionMetas v3 data d).1 = [] then d.gpuOffset + k ≤ size
    else if v3 then keys.device = .confidential ∧
      K1Opens keys (sectionMetas v3 data d).1 (read data d.gpuOffset d.gpuBytes) k
    else ∃ key, keys.k3 = some key ∧
      K3Opens keys key (sectionMetas v3 data d).1 (read data d.gpuOffset d.gpuBytes) 0 k

/-- A block of the delta whose pages are all ready. -/
def BlockReady (keys : Keys) (v3 : Bool) (data : ByteImage.Image) (size : Nat) (d : RangeDesc) :
    Prop :=
  CpuReady keys v3 data size d (placedBytes true .cpu (readResmap data d) d.cpuBytes) ∧
    GpuReady keys v3 data size d (placedBytes true .gpu (readResmap data d) d.gpuBytes)

/-- The key the base image of version 2 is decrypted with. -/
def Keys.combinedKey (keys : Keys) : Bytes := keys.k3.getD (keys.junk keySize)

/-- The two sections of a version 2 range, as one. -/
def combinedBytes (data : ByteImage.Image) (d : RangeDesc) : Bytes :=
  read data (d.dataOffset + d.resmapSize) (d.cpuBytes + d.gpuBytes)

/-- A range of version 2: its sections stand in the clear in the file, or the entries
reach to the last page that is taken. -/
def CombinedReady (keys : Keys) (data : ByteImage.Image) (size : Nat) (d : RangeDesc)
    (cpu gpu : Nat) : Prop :=
  if (sectionMetas false data d).1 = [] then
    (cpu = 0 ∨ d.dataOffset + d.resmapSize + cpu ≤ size) ∧ (gpu = 0 ∨ d.gpuOffset + gpu ≤ size)
  else
    K3Opens keys keys.combinedKey (sectionMetas false data d).1 (combinedBytes data d) 0 cpu ∧
      K3Opens keys keys.combinedKey (sectionMetas false data d).1 (combinedBytes data d)
        d.cpuBytes (d.cpuBytes + gpu)

def RangeReady (keys : Keys) (v3 : Bool) (data : ByteImage.Image) (size : Nat) (d : RangeDesc) :
    Prop :=
  if v3 then BlockReady keys v3 data size d
  else CombinedReady keys data size d (placedBytes true .cpu (readResmap data d) d.cpuBytes)
    (placedBytes true .gpu (readResmap data d) d.gpuBytes)

/-- What the reader checks of a range of the base image. -/
def RangeVerifies (keys : Keys) (v3 : Bool) (data : ByteImage.Image) (d : RangeDesc) : Prop :=
  if v3 then
    (d.gpuBytes ≠ 0 → (sectionMetas v3 data d).1 ≠ [] → keys.device = .confidential →
      K1Verifies keys (sectionMetas v3 data d).1 (read data d.gpuOffset d.gpuBytes)) ∧
    (d.cpuBytes ≠ 0 → (sectionMetas v3 data d).2 ≠ [] → ∀ key, keys.k3 = some key →
      K3Verifies keys key (sectionMetas v3 data d).2
        (read data (d.dataOffset + d.resmapSize) d.cpuBytes))
  else (sectionMetas v3 data d).1 ≠ [] →
    K3Verifies keys keys.combinedKey (sectionMetas v3 data d).1 (combinedBytes data d)

/-- The plain reader takes the pages as they stand: no entry belongs to a section that
is used, and the section has the pages. -/
def PlainReady (v3 : Bool) (data : ByteImage.Image) (d : RangeDesc) : Prop :=
  (placedBytes false .cpu (readResmap data d) d.cpuBytes = 0 ∨ (sectionMetas v3 data d).2 = [] ∧
    placedBytes false .cpu (readResmap data d) d.cpuBytes ≤ d.cpuBytes) ∧
  (placedBytes false .gpu (readResmap data d) d.gpuBytes = 0 ∨ (sectionMetas v3 data d).1 = [] ∧
    placedBytes false .gpu (readResmap data d) d.gpuBytes ≤ d.gpuBytes)

/-- The file has the three sections the plain reader asks for. -/
def Readable (size : Nat) (d : RangeDesc) : Prop :=
  ¬Unreadable size d.dataOffset d.resmapSize ∧
    ¬Unreadable size (d.dataOffset + d.resmapSize) d.cpuBytes ∧
    ¬Unreadable size d.gpuOffset d.gpuBytes

/-- No range of the base image has metadata. -/
def BasePlain (base : BaseFile) : Prop := base.descs.all fun d => d.cryptoMetaBytes = 0

instance (base : BaseFile) : Decidable (BasePlain base) := inferInstanceAs (Decidable (_ = true))

/-- The files get through the checks of the reader. -/
structure Accepts (keys : Keys) (base : BaseFile) (delta : IncDelta) : Prop where
  ranges : base.descs.length ≤ maxRanges
  groups : (groupDescs base.descs).length ≤ maxGroups
  magic : delta.magic = incDeltaMagic
  encrypted : ¬BasePlain base → ∀ d ∈ base.descs,
    ¬Unreadable base.size d.dataOffset d.resmapSize ∧ RangeVerifies keys (isV3 base) base.data d
  plain : BasePlain base → (∀ d ∈ base.descs, Readable base.size d) ∧
    ∀ b ∈ delta.blocks, (findGroup (groupDescs base.descs) b).isSome ∧ Readable delta.size b

/-- Every page the residency maps ask for is ready. -/
structure Ready (keys : Keys) (base : BaseFile) (delta : IncDelta) : Prop where
  encrypted : ¬BasePlain base →
    (∀ d ∈ base.descs, RangeReady keys (isV3 base) base.data base.size d) ∧
    ∀ b ∈ delta.blocks, (findGroup (groupDescs base.descs) b).isSome →
      BlockReady keys (isV3 base) delta.data delta.size b
  plain : BasePlain base →
    (∀ d ∈ base.descs, PlainReady (isV3 base) base.data d) ∧
    ∀ b ∈ delta.blocks, PlainReady (isV3 base) delta.data b

/-- The bytes from `a` to `k` of a buffer are there and sound. -/
def SoundOn (b : Buffer) (a k : Nat) : Prop :=
  ∀ i, a ≤ i → i < k → ∃ c, b[i]? = some c ∧ c.origin.Sound

theorem soundOn_empty (b : Buffer) {a k : Nat} (h : k ≤ a) : SoundOn b a k :=
  fun _ hLow hHigh => absurd hHigh (by omega)

theorem soundOn_drop (b : Buffer) (j k : Nat) : SoundOn (b.drop j) 0 k ↔ SoundOn b j (j + k) := by
  constructor
  · intro h i hLow hHigh
    obtain ⟨c, hc⟩ := h (i - j) (by omega) (by omega)
    rw [List.getElem?_drop, show j + (i - j) = i by omega] at hc
    exact ⟨c, hc⟩
  · intro h i _ hi
    rw [List.getElem?_drop]
    exact h (j + i) (by omega) (by omega)

theorem soundOn_split (b : Buffer) (j k : Nat) :
    SoundOn b 0 (j + k) ↔ SoundOn b 0 j ∧ SoundOn (b.drop j) 0 k := by
  rw [soundOn_drop]
  constructor
  · exact fun h => ⟨fun i _ hi => h i (by omega) (by omega), fun i _ hi => h i (by omega) hi⟩
  · rintro ⟨hFirst, hRest⟩ i _ hi
    by_cases hLow : i < j
    · exact hFirst i (by omega) hLow
    · exact hRest i (by omega) hi

theorem soundOn_append (x y : Buffer) (a k : Nat) :
    SoundOn (x ++ y) a k ↔
      SoundOn x a (min k x.length) ∧ SoundOn y (a - x.length) (k - x.length) := by
  constructor
  · intro h
    refine ⟨fun i hLow hHigh => ?_, fun i hLow hHigh => ?_⟩
    · obtain ⟨c, hc⟩ := h i hLow (by omega)
      rw [List.getElem?_append_left (by omega)] at hc
      exact ⟨c, hc⟩
    · obtain ⟨c, hc⟩ := h (x.length + i) (by omega) (by omega)
      rw [List.getElem?_append_right (by omega), Nat.add_sub_cancel_left] at hc
      exact ⟨c, hc⟩
  · rintro ⟨hFirst, hRest⟩ i hLow hHigh
    by_cases hIn : i < x.length
    · rw [List.getElem?_append_left hIn]
      exact hFirst i hLow (by omega)
    · rw [List.getElem?_append_right (by omega)]
      exact hRest (i - x.length) (by omega) (by omega)

theorem soundOn_take {b : Buffer} {j k : Nat} (hLe : k ≤ j) : SoundOn (b.take j) 0 k ↔ SoundOn b 0 k := by
  constructor
  · intro h i hLow hi
    obtain ⟨c, hc⟩ := h i hLow hi
    rw [List.getElem?_take_of_lt (by omega)] at hc
    exact ⟨c, hc⟩
  · intro h i hLow hi
    rw [List.getElem?_take_of_lt (by omega)]
    exact h i hLow hi

theorem soundOn_filled (o : Origin) {n a k : Nat} (bytes : Bytes) (hLe : k ≤ n) :
    SoundOn (filled o n bytes) a k ↔ k ≤ a ∨ o.Sound := by
  have hCell : ∀ i < k, (filled o n bytes)[i]? = some ⟨o, bytes.getD i 0⟩ := by
    intro i hi
    rw [filled, List.getElem?_map, List.getElem?_range (by omega), Option.map_some]
  constructor
  · intro h
    by_cases hEmpty : k ≤ a
    · exact .inl hEmpty
    · obtain ⟨c, hc, hSound⟩ := h a (Nat.le_refl a) (by omega)
      rw [hCell a (by omega), Option.some.injEq] at hc
      subst hc
      exact .inr hSound
  · rintro (hEmpty | hSound)
    · exact soundOn_empty _ hEmpty
    · exact fun i _ hi => ⟨_, hCell i hi, hSound⟩

theorem soundOn_readBytes (data : ByteImage.Image) (size off n : Nat) (o : Origin) (k : Nat) :
    SoundOn (readBytes data size off n o) 0 k ↔ k = 0 ∨ o.Sound ∧ k ≤ n ∧ off + k ≤ size := by
  have hCell : ∀ i < n, (readBytes data size off n o)[i]? =
      some ⟨if off + i < size then o else .uninit, data (off + i)⟩ := by
    intro i hi
    rw [readBytes, List.getElem?_map, List.getElem?_range hi, Option.map_some]
  constructor
  · intro h
    by_cases hZero : k = 0
    · exact .inl hZero
    · obtain ⟨c, hc, hSound⟩ := h (k - 1) (by omega) (by omega)
      have hLe : k ≤ n := by
        by_contra hOver
        rw [List.getElem?_eq_none (by rw [readBytes_length]; omega)] at hc
        cases hc
      rw [hCell (k - 1) (by omega), Option.some.injEq] at hc
      subst hc
      by_cases hIn : off + (k - 1) < size
      · rw [if_pos hIn] at hSound
        exact .inr ⟨hSound, hLe, by omega⟩
      · rw [if_neg hIn] at hSound
        exact absurd hSound (by simp [Origin.Sound])
  · rintro (rfl | ⟨hSound, hLe, hIn⟩)
    · exact soundOn_empty _ (Nat.le_refl 0)
    · intro i _ hi
      refine ⟨_, hCell i (by omega), ?_⟩
      rw [if_pos (by omega)]
      exact hSound

theorem soundOn_uninit (keys : Keys) {n a k : Nat} (hLe : k ≤ n) :
    SoundOn (keys.uninit n) a k ↔ k ≤ a := by
  rw [Keys.uninit, soundOn_filled _ _ hLe, or_iff_left (by decide)]

@[simp] theorem uninit_length (keys : Keys) (n : Nat) : (keys.uninit n).length = n :=
  filled_length _ _ _

theorem pageCells_sound (b : Buffer) :
    (∀ c ∈ pageCells b, c.origin.Sound) ↔ SoundOn b 0 pageSize := by
  simp only [pageCells, List.forall_mem_map, List.mem_range, SoundOn, Nat.zero_le, forall_const]
  refine forall_congr' fun i => forall_congr' fun _ => ?_
  rw [List.getD_eq_getElem?_getD]
  cases b[i]? with
  | none => simp [Origin.Sound]
  | some c => simp

theorem placedBytes_cons (checked : Bool) (place : Residency) {m : UInt8} (rest : Bytes)
    {n : Nat} (hCode : m = place.code) (hReach : !checked ∨ pageSize ≤ n) :
    placedBytes checked place (m :: rest) n =
      pageSize + placedBytes checked place rest (n - pageSize) := by
  rw [placedBytes, placedBytes, hCode, List.count_cons_self]
  cases checked with
  | false => simp only [Bool.false_eq_true, if_false, Nat.succ_mul, Nat.add_comm pageSize]
  | true =>
      have hLe : pageSize ≤ n := by simpa using hReach
      simp only [if_true]
      rw [Nat.div_eq_sub_div (by decide) hLe, Nat.add_min_add_right, Nat.succ_mul, Nat.add_comm]

theorem placedBytes_skip (checked : Bool) (place : Residency) {m : UInt8} (rest : Bytes)
    {n : Nat} (h : ¬(m = place.code ∧ (!checked ∨ pageSize ≤ n))) :
    placedBytes checked place (m :: rest) n = placedBytes checked place rest n := by
  by_cases hCode : m = place.code
  · have hShort : checked = true ∧ n < pageSize := by
      simpa [hCode] using h
    rw [placedBytes, placedBytes, hShort.1, Nat.div_eq_of_lt hShort.2]
    simp
  · rw [placedBytes, placedBytes, List.count_cons_of_ne hCode]

/-- The pages copied are sound when the sections are, as far as pages are taken. -/
theorem placePages_sound (checked : Bool) (va : Nat) (resmap : Bytes) (cpu gpu : Buffer) :
    AllSound (placePages checked va resmap cpu gpu) ↔
      SoundOn cpu 0 (placedBytes checked .cpu resmap cpu.length) ∧
        SoundOn gpu 0 (placedBytes checked .gpu resmap gpu.length) := by
  induction resmap generalizing va cpu gpu with
  | nil => simp [placePages, AllSound, placedBytes, soundOn_empty]
  | cons m rest ih =>
      have hCons : ∀ w log, AllSound (w :: log) ↔ (∀ c ∈ w.2, c.origin.Sound) ∧ AllSound log :=
        fun w log => List.forall_mem_cons
      rw [placePages]
      split
      · rename_i hCpu
        have hOther : ¬(m = Residency.gpu.code ∧ (!checked ∨ pageSize ≤ gpu.length)) := by
          rw [hCpu.1]
          exact fun h => absurd h.1 (by decide)
        rw [hCons, ih, pageCells_sound, placedBytes_cons checked .cpu rest hCpu.1 hCpu.2,
          placedBytes_skip checked .gpu rest hOther, soundOn_split, List.length_drop, and_assoc]
      · rename_i hCpu
        rw [placedBytes_skip checked .cpu rest hCpu]
        split
        · rename_i hGpu
          rw [hCons, ih, pageCells_sound, placedBytes_cons checked .gpu rest hGpu.1 hGpu.2,
            soundOn_split, List.length_drop, and_left_comm]
        · rename_i hGpu
          rw [ih, placedBytes_skip checked .gpu rest hGpu]

section K3

variable (keys : Keys) (key : Bytes)

theorem k3Chunk_le (entry : CryptoMeta) (left : Nat) : k3Chunk entry left ≤ left :=
  Nat.min_le_right _ _

theorem decryptK3Transfer_isSome (entry : CryptoMeta) (cipher : Bytes) :
    (decryptK3Transfer keys key entry cipher).isSome ↔ K3Authentic keys key entry cipher := by
  rw [decryptK3Transfer, K3Authentic]
  split
  · rename_i hLong
    constructor
    · exact fun h => absurd h Bool.false_ne_true
    · exact fun h => absurd h.1 (Nat.not_lt.mpr hLong)
  · rename_i hShort
    rw [Option.isSome_map]
    exact (and_iff_right (by omega)).symm

/-- A transfer that opens fills its part of the buffer, as far as the cipher saw it. -/
theorem decryptK3Transfer_some {entry : CryptoMeta} {cipher : Bytes} {plain : Buffer}
    (h : decryptK3Transfer keys key entry cipher = some plain) :
    plain.length = cipher.length ∧ ∀ a, ∀ k ≤ cipher.length,
      (SoundOn plain a k ↔ k ≤ a ∨ k ≤ cipher.length % 2 ^ 32 ∨ cipher.length < 2 ^ 32) := by
  rw [decryptK3Transfer] at h
  split at h
  · cases h
  · obtain ⟨bytes, -, rfl⟩ := Option.map_eq_some_iff.mp h
    have hMod := Nat.mod_le cipher.length (2 ^ 32)
    refine ⟨by rw [List.length_append, filled_length, uninit_length]; omega, fun a k hk => ?_⟩
    rw [soundOn_append, filled_length, soundOn_filled _ _ (by omega), soundOn_uninit _ (by omega)]
    simp only [Origin.Sound, or_true, true_and]
    omega

theorem decryptK3_length (metas : List CryptoMeta) (cipher : Bytes) :
    (decryptK3 keys key metas cipher).2.length = cipher.length := by
  induction metas generalizing cipher with
  | nil => simp [decryptK3]
  | cons entry rest ih =>
      rw [decryptK3]
      split
      · rename_i hNil
        rw [hNil]
        rfl
      · have hLe := k3Chunk_le entry cipher.length
        dsimp only
        split
        · simp only [List.length_append, filled_length, uninit_length]
          omega
        · rename_i plain hPlain
          have hLength := (decryptK3Transfer_some keys key hPlain).1
          rw [List.length_take] at hLength
          simp only [List.length_append, ih, List.length_drop]
          omega

theorem decryptK3_ok (metas : List CryptoMeta) (cipher : Bytes) :
    (decryptK3 keys key metas cipher).1 = true ↔ K3Verifies keys key metas cipher := by
  induction metas generalizing cipher with
  | nil => simp [decryptK3, K3Verifies]
  | cons entry rest ih =>
      rw [decryptK3, K3Verifies, ← decryptK3Transfer_isSome]
      split
      · rename_i hNil
        simp [hNil]
      · rename_i hSome
        rw [or_iff_right hSome]
        dsimp only
        split
        · rename_i hFails
          simp [hFails]
        · rename_i plain hPlain
          simp [hPlain, ih]

theorem K3Opens.of_le {metas : List CryptoMeta} {cipher : Bytes} {a k : Nat} (h : k ≤ a) :
    K3Opens keys key metas cipher a k := by
  cases metas with
  | nil => exact h
  | cons => exact .inl h

/-- The buffer is sound as far as authentic transfers reach. -/
theorem decryptK3_sound (metas : List CryptoMeta) (cipher : Bytes) {a k : Nat}
    (hLe : k ≤ cipher.length) :
    SoundOn (decryptK3 keys key metas cipher).2 a k ↔ K3Opens keys key metas cipher a k := by
  induction metas generalizing cipher a k with
  | nil => rw [decryptK3, K3Opens, soundOn_uninit _ hLe]
  | cons entry rest ih =>
      rw [decryptK3, K3Opens, ← decryptK3Transfer_isSome]
      have hChunk := k3Chunk_le entry cipher.length
      have hMod := Nat.mod_le (k3Chunk entry cipher.length) (2 ^ 32)
      have hTake : (cipher.take (k3Chunk entry cipher.length)).length =
          k3Chunk entry cipher.length := by
        rw [List.length_take, Nat.min_eq_left hChunk]
      split
      · rename_i hNil
        rw [hNil, List.length_nil] at hLe
        exact iff_of_true (soundOn_empty _ (by omega)) (.inl (by omega))
      · rename_i hSome
        dsimp only
        split
        · rename_i hFails
          rw [soundOn_append, filled_length, soundOn_filled _ _ (by omega),
            soundOn_uninit _ (by omega), hFails]
          simp only [Origin.Sound, reduceCtorEq, or_self, or_false, Option.isSome_none,
            Bool.false_eq_true, false_and]
          omega
        · rename_i plain hPlain
          obtain ⟨hLength, hSound⟩ := decryptK3Transfer_some keys key hPlain
          rw [hTake] at hLength hSound
          rw [soundOn_append, hLength, hSound _ _ (by omega),
            ih _ (by rw [List.length_drop]; omega), hPlain]
          simp only [Option.isSome_some, true_and]
          by_cases hEmpty : k ≤ a
          · exact iff_of_true ⟨by omega, .of_le keys key (by omega)⟩ (.inl hEmpty)
          · rw [or_iff_right hEmpty]
            refine and_congr_left fun _ => ?_
            omega

end K3

section K1

variable (keys : Keys)

theorem decryptK1_length (metas : List CryptoMeta) (cipher : Bytes) :
    (decryptK1 keys metas cipher).2.length = cipher.length := by
  induction metas generalizing cipher with
  | nil => simp [decryptK1]
  | cons entry rest ih =>
      rw [decryptK1]
      split
      · exact uninit_length _ _
      · dsimp only
        split
        · exact uninit_length _ _
        · simp only [List.length_append, filled_length, ih, List.length_drop]
          omega

theorem decryptK1_ok (metas : List CryptoMeta) (cipher : Bytes) :
    (decryptK1 keys metas cipher).1 = true ↔ K1Verifies keys metas cipher := by
  induction metas generalizing cipher with
  | nil => simp [decryptK1, K1Verifies]
  | cons entry rest ih =>
      rw [decryptK1, K1Verifies, K1Authentic]
      split
      · simp only [Bool.false_eq_true, false_iff]
        omega
      · dsimp only
        split
        · rename_i hFails
          simp [hFails]
        · rename_i plain hPlain
          have hFits : 0 < entry.size ∧ entry.size ≤ dmaBufferSize ∧
              entry.size ≤ cipher.length := by omega
          simp only [hPlain, Option.isSome_some, ih, hFits, and_self, true_and]

theorem decryptK1_sound (metas : List CryptoMeta) (cipher : Bytes) {k : Nat}
    (hLe : k ≤ cipher.length) :
    SoundOn (decryptK1 keys metas cipher).2 0 k ↔ K1Opens keys metas cipher k := by
  induction metas generalizing cipher k with
  | nil => rw [decryptK1, K1Opens, soundOn_uninit _ hLe, Nat.le_zero]
  | cons entry rest ih =>
      rw [decryptK1, K1Opens, K1Authentic]
      split
      · rw [soundOn_uninit _ hLe]
        omega
      · rename_i hTaken
        dsimp only
        split
        · rename_i hFails
          rw [soundOn_uninit _ hLe, hFails]
          simp
        · rename_i plain hPlain
          rw [soundOn_append, filled_length, soundOn_filled _ _ (by omega), Nat.zero_sub,
            ih _ (by rw [List.length_drop]; omega), hPlain]
          simp only [Origin.Sound, or_true, true_and, Option.isSome_some, and_true]
          constructor
          · exact fun hRest => .inr ⟨by omega, hRest⟩
          · rintro (rfl | ⟨-, hRest⟩)
            · rw [Nat.zero_sub]
              cases rest with
              | nil => rfl
              | cons => exact .inl rfl
            · exact hRest

end K1

theorem placedBytes_le (place : Residency) (resmap : Bytes) (n : Nat) :
    placedBytes true place resmap n ≤ n :=
  Nat.le_trans (Nat.mul_le_mul_right pageSize (Nat.min_le_right _ _)) (Nat.div_mul_le_self n pageSize)

theorem sectionOrigin_sound (metas : List CryptoMeta) : (sectionOrigin metas).Sound ↔ metas = [] := by
  rw [sectionOrigin]
  split
  · rename_i hNil
    exact iff_of_true (.inl rfl) hNil
  · rename_i hSome
    exact iff_of_false (by decide) hSome

theorem decryptSection_length (keys : Keys) (cipher : Buffer) (metas : List CryptoMeta)
    (key : Option Bytes) (device : Device) (useK1 : Bool) :
    (decryptSection keys cipher metas key device useK1).2.length = cipher.length := by
  unfold decryptSection
  split
  · exact uninit_length _ _
  · split
    · split
      · rfl
      · rfl
      · exact (decryptK1_length keys metas _).trans (List.length_map _)
    · split
      · exact (decryptK3_length keys _ metas _).trans (List.length_map _)
      · rfl

section Sections

variable (keys : Keys) (v3 : Bool) (data : ByteImage.Image) (size : Nat) (d : RangeDesc)

theorem readCpu_nil : readCpu v3 data size d = [] ↔ d.cpuBytes = 0 := by
  rw [← List.length_eq_zero_iff, readCpu, readBytes_length]

theorem readGpu_nil : readGpu v3 data size d = [] ↔ d.gpuBytes = 0 := by
  rw [← List.length_eq_zero_iff, readGpu, readBytes_length]

theorem openCpu_length : (openCpu keys v3 data size d).2.length = d.cpuBytes := by
  have hRead : (readCpu v3 data size d).length = d.cpuBytes := readBytes_length _ _ _ _ _
  rw [openCpu]
  split
  · split
    · rw [decryptSection_length, hRead]
    · exact hRead
  · split
    · rw [decryptSection_length, hRead]
    · exact hRead

theorem openGpu_length : (openGpu keys v3 data size d).2.length = d.gpuBytes := by
  have hRead : (readGpu v3 data size d).length = d.gpuBytes := readBytes_length _ _ _ _ _
  rw [openGpu]
  split
  · rw [decryptSection_length, hRead]
  · exact hRead

theorem soundOn_readCpu (k : Nat) : SoundOn (readCpu v3 data size d) 0 k ↔
    k = 0 ∨ (sectionMetas v3 data d).2 = [] ∧ k ≤ d.cpuBytes ∧
      d.dataOffset + d.resmapSize + k ≤ size := by
  rw [readCpu, soundOn_readBytes, sectionOrigin_sound]

theorem soundOn_readGpu (k : Nat) : SoundOn (readGpu v3 data size d) 0 k ↔
    k = 0 ∨ (sectionMetas v3 data d).1 = [] ∧ k ≤ d.gpuBytes ∧ d.gpuOffset + k ≤ size := by
  rw [readGpu, soundOn_readBytes, sectionOrigin_sound]

variable {d}

theorem openCpu_sound {k : Nat} (hLe : k ≤ d.cpuBytes) :
    SoundOn (openCpu keys v3 data size d).2 0 k ↔ CpuReady keys v3 data size d k := by
  rw [CpuReady]
  by_cases hZero : k = 0
  · exact iff_of_true (soundOn_empty _ (by omega)) (.inl hZero)
  · rw [or_iff_right hZero]
    have hCipher : readCpu v3 data size d ≠ [] := by
      rw [ne_eq, readCpu_nil]
      omega
    have hPlain := soundOn_readCpu v3 data size d k
    rw [or_iff_right hZero] at hPlain
    rw [openCpu]
    by_cases hMetas : (sectionMetas v3 data d).2 = []
    · rw [if_pos hMetas, if_neg (by simp [hMetas]), hPlain]
      tauto
    · rw [if_neg hMetas]
      cases hKey : keys.k3 with
      | none =>
          rw [if_neg (by simp), hPlain]
          simp [hMetas]
      | some key =>
          cases v3 with
          | false =>
              rw [if_neg (by simp), hPlain]
              simp [hMetas]
          | true =>
              rw [if_pos ⟨hCipher, rfl, hMetas⟩, if_pos rfl, decryptSection_k3 hMetas hCipher,
                decryptK3_sound, readCpu, values_readBytes]
              · simp
              · rw [readCpu, values_readBytes, read_length]
                exact hLe

theorem openGpu_sound {k : Nat} (hLe : k ≤ d.gpuBytes) :
    SoundOn (openGpu keys v3 data size d).2 0 k ↔ GpuReady keys v3 data size d k := by
  rw [GpuReady]
  by_cases hZero : k = 0
  · exact iff_of_true (soundOn_empty _ (by omega)) (.inl hZero)
  · rw [or_iff_right hZero]
    have hCipher : readGpu v3 data size d ≠ [] := by
      rw [ne_eq, readGpu_nil]
      omega
    have hPlain := soundOn_readGpu v3 data size d k
    rw [or_iff_right hZero] at hPlain
    have hBytes : k ≤ (values (readGpu v3 data size d)).length := by
      rw [readGpu, values_readBytes, read_length]
      exact hLe
    rw [openGpu]
    by_cases hMetas : (sectionMetas v3 data d).1 = []
    · rw [if_pos hMetas, if_neg (by simp [hMetas]), hPlain]
      tauto
    · rw [if_neg hMetas, if_pos ⟨hCipher, hMetas⟩]
      cases v3 with
      | true =>
          rw [if_pos rfl]
          cases hDevice : keys.device with
          | confidential =>
              rw [decryptSection_k1 hMetas hCipher, decryptK1_sound _ _ _ hBytes, readGpu,
                values_readBytes]
              simp
          | missing =>
              simp [decryptSection, hMetas, hCipher, hPlain]
          | plain =>
              simp [decryptSection, hMetas, hCipher, hPlain]
      | false =>
          rw [if_neg Bool.false_ne_true]
          cases hKey : keys.k3 with
          | none => simp [decryptSection, hMetas, hCipher, hPlain]
          | some key =>
              rw [decryptSection_k3 hMetas hCipher, decryptK3_sound _ _ _ _ hBytes, readGpu,
                values_readBytes]
              simp

theorem openGpu_ok : (openGpu keys true data size d).1 = true ↔
    (d.gpuBytes ≠ 0 → (sectionMetas true data d).1 ≠ [] → keys.device = .confidential →
      K1Verifies keys (sectionMetas true data d).1 (read data d.gpuOffset d.gpuBytes)) := by
  rw [openGpu]
  by_cases hUsed : readGpu true data size d ≠ [] ∧ (sectionMetas true data d).1 ≠ []
  · rw [if_pos hUsed]
    have hBytes : d.gpuBytes ≠ 0 := fun hZero => hUsed.1 ((readGpu_nil _ _ _ _).mpr hZero)
    cases hDevice : keys.device with
    | confidential =>
        rw [decryptSection_k1 hUsed.2 hUsed.1, decryptK1_ok, readGpu, values_readBytes]
        simp [hBytes, hUsed.2]
    | missing => simp [decryptSection, hUsed.1, hUsed.2]
    | plain => simp [decryptSection, hUsed.1, hUsed.2]
  · rw [if_neg hUsed]
    rw [ne_eq, readGpu_nil] at hUsed
    exact iff_of_true rfl fun hBytes hMetas => absurd ⟨hBytes, hMetas⟩ hUsed

theorem openCpu_ok : (openCpu keys true data size d).1 = true ↔
    (d.cpuBytes ≠ 0 → (sectionMetas true data d).2 ≠ [] → ∀ key, keys.k3 = some key →
      K3Verifies keys key (sectionMetas true data d).2
        (read data (d.dataOffset + d.resmapSize) d.cpuBytes)) := by
  rw [openCpu, if_pos rfl]
  cases hKey : keys.k3 with
  | none => simp
  | some key =>
      by_cases hUsed : readCpu true data size d ≠ [] ∧ (sectionMetas true data d).2 ≠ []
      · have hBytes : d.cpuBytes ≠ 0 := fun hZero => hUsed.1 ((readCpu_nil _ _ _ _).mpr hZero)
        rw [if_pos ⟨hUsed.1, rfl, hUsed.2⟩, decryptSection_k3 hUsed.2 hUsed.1, decryptK3_ok,
          readCpu, values_readBytes]
        simp [hBytes, hUsed.2]
      · rw [if_neg fun h => hUsed ⟨h.1, h.2.2⟩]
        rw [ne_eq, readCpu_nil] at hUsed
        exact iff_of_true rfl fun hBytes hMetas => absurd ⟨hBytes, hMetas⟩ hUsed

theorem values_combined : values (readCpu false data size d ++ readGpu false data size d) =
    combinedBytes data d := by
  rw [values_append, readCpu, readGpu, values_readBytes, values_readBytes, combinedBytes,
    read_append]
  rfl

theorem openCombined_length :
    (openCombined keys data size d).2.length = d.cpuBytes + d.gpuBytes := by
  rw [openCombined, decryptSection_length, List.length_append, readCpu, readGpu, readBytes_length,
    readBytes_length]

theorem openCombined_ok (hMetas : (sectionMetas false data d).1 ≠ []) :
    (openCombined keys data size d).1 = true ↔
      K3Verifies keys keys.combinedKey (sectionMetas false data d).1 (combinedBytes data d) := by
  rw [openCombined]
  by_cases hCipher : readCpu false data size d ++ readGpu false data size d = []
  · obtain ⟨entry, rest, hEntries⟩ := List.exists_cons_of_ne_nil hMetas
    rw [← values_combined data size, hCipher, hEntries]
    exact iff_of_true (by simp [decryptSection]) (.inl rfl)
  · rw [decryptSection_k3 hMetas hCipher, decryptK3_ok, values_combined]
    rfl

theorem openCombined_sound (hMetas : (sectionMetas false data d).1 ≠ []) {a k : Nat}
    (hLe : k ≤ d.cpuBytes + d.gpuBytes) :
    SoundOn (openCombined keys data size d).2 a k ↔
      K3Opens keys keys.combinedKey (sectionMetas false data d).1 (combinedBytes data d) a k := by
  rw [openCombined]
  by_cases hCipher : readCpu false data size d ++ readGpu false data size d = []
  · have hZero : k = 0 := by
      obtain ⟨hCpu, hGpu⟩ := List.append_eq_nil_iff.mp hCipher
      rw [readCpu_nil] at hCpu
      rw [readGpu_nil] at hGpu
      omega
    exact iff_of_true (soundOn_empty _ (by omega)) (.of_le keys _ (by omega))
  · rw [decryptSection_k3 hMetas hCipher, decryptK3_sound, values_combined]
    · rfl
    · rw [values_combined, combinedBytes, read_length]
      exact hLe

theorem openRange_isSome :
    (openRange keys v3 data size d).isSome ↔ RangeVerifies keys v3 data d := by
  cases v3 with
  | true =>
      rw [openRange, RangeVerifies, if_pos rfl, if_pos rfl, ← openGpu_ok keys data size,
        ← openCpu_ok keys data size]
      split
      · rename_i hOk
        rw [Bool.and_eq_true] at hOk
        exact iff_of_true rfl hOk
      · rename_i hFails
        rw [Bool.and_eq_true] at hFails
        exact iff_of_false Bool.false_ne_true hFails
  | false =>
      rw [openRange, RangeVerifies, if_neg Bool.false_ne_true, if_neg Bool.false_ne_true]
      split
      · rename_i hNone
        exact iff_of_true rfl fun hMetas => absurd hNone hMetas
      · rename_i hMetas
        rw [← openCombined_ok keys data size hMetas]
        split
        · rename_i hOk
          exact iff_of_true rfl fun _ => hOk
        · rename_i hFails
          exact iff_of_false Bool.false_ne_true fun h => hFails (h hMetas)

/-- The sections of a range are sound as far as its pages are ready. -/
theorem openRange_sound {sections : Buffer × Buffer}
    (h : openRange keys v3 data size d = some sections) :
    AllSound (placePages true d.baseVa (readResmap data d) sections.1 sections.2) ↔
      RangeReady keys v3 data size d := by
  have hCpu := placedBytes_le .cpu (readResmap data d) d.cpuBytes
  have hGpu := placedBytes_le .gpu (readResmap data d) d.gpuBytes
  rw [placePages_sound]
  cases v3 with
  | true =>
      rw [openRange, if_pos rfl] at h
      split at h
      · cases h
        rw [openCpu_length, openGpu_length, openCpu_sound keys true data size hCpu,
          openGpu_sound keys true data size hGpu]
        rfl
      · cases h
  | false =>
      rw [RangeReady, CombinedReady, if_neg Bool.false_ne_true]
      rw [openRange, if_neg Bool.false_ne_true] at h
      split at h
      · rename_i hNone
        cases h
        dsimp only
        rw [soundOn_readCpu, soundOn_readGpu, readCpu, readGpu, readBytes_length,
          readBytes_length, if_pos hNone]
        have hNone' : (sectionMetas false data d).2 = [] := hNone
        simp only [hNone, hNone', true_and, hCpu, hGpu]
      · rename_i hMetas
        split at h
        · cases h
          dsimp only
          rw [List.length_take, List.length_drop, openCombined_length,
            Nat.min_eq_left (Nat.le_add_right _ _), Nat.add_sub_cancel_left,
            soundOn_take hCpu, soundOn_drop, openCombined_sound _ _ _ hMetas (by omega),
            openCombined_sound _ _ _ hMetas (by omega), if_neg hMetas]
        · cases h

end Sections

section Logs

variable {α : Type} {f : α → Option Log} {l : List α}

theorem mapM_isSome : (l.mapM f).isSome ↔ ∀ a ∈ l, (f a).isSome := by
  induction l with
  | nil => simp
  | cons a rest ih =>
      rw [List.mapM_cons, List.forall_mem_cons, ← ih]
      cases f a with
      | none => simp
      | some log => cases rest.mapM f with
        | none => simp
        | some logs => simp

theorem allSound_append (a b : Log) : AllSound (a ++ b) ↔ AllSound a ∧ AllSound b :=
  List.forall_mem_append

theorem allSound_flatten (logs : List Log) : AllSound logs.flatten ↔ ∀ log ∈ logs, AllSound log := by
  induction logs with
  | nil => simp [AllSound]
  | cons log rest ih => rw [List.flatten_cons, allSound_append, ih, List.forall_mem_cons]

/-- The pages of all ranges are sound when those of each are. -/
theorem allSound_mapM {ready : α → Prop} (hReady : ∀ a ∈ l, ∀ log, f a = some log →
    (AllSound log ↔ ready a)) {logs : List Log} (h : l.mapM f = some logs) :
    AllSound logs.flatten ↔ ∀ a ∈ l, ready a := by
  induction l generalizing logs with
  | nil =>
      cases h
      simp [AllSound]
  | cons a rest ih =>
      simp only [List.mapM_cons, Option.bind_eq_bind, Option.bind_eq_some_iff, Option.pure_def,
        Option.some.injEq] at h
      obtain ⟨log, hLog, others, hOthers, rfl⟩ := h
      rw [List.flatten_cons, allSound_append, hReady a List.mem_cons_self log hLog,
        ih (fun b hb => hReady b (List.mem_cons_of_mem a hb)) hOthers, List.forall_mem_cons]

theorem replay_append (image : ByteImage.Image) (a b : Log) :
    replay image (a ++ b) = replay (replay image a) b :=
  List.foldl_append

/-- Copying range by range is copying what all of them have. -/
theorem foldlM_replay (image : ByteImage.Image) :
    l.foldlM (fun image a => (f a).map (replay image)) image =
      (l.mapM f).map fun logs => replay image logs.flatten := by
  induction l generalizing image with
  | nil => rfl
  | cons a rest ih =>
      rw [List.foldlM_cons, List.mapM_cons]
      cases f a with
      | none => rfl
      | some log =>
          simp only [Option.map_some, Option.bind_eq_bind, Option.bind_some, ih]
          cases rest.mapM f with
          | none => rfl
          | some logs => simp [replay_append]

theorem foldl_replay (g : α → Log) (image : ByteImage.Image) :
    l.foldl (fun image a => replay image (g a)) image = replay image (l.map g).flatten := by
  induction l generalizing image with
  | nil => rfl
  | cons a rest ih => rw [List.foldl_cons, ih, List.map_cons, List.flatten_cons, replay_append]

end Logs

section Readers

variable (keys : Keys) (base : BaseFile) (delta : IncDelta)

theorem restoreFromFiles_replay :
    restoreFromFiles base delta =
      (plainLog base delta).map fun log => ⟨groupDescs base.descs, replay (fun _ => 0) log⟩ := by
  have hBase := foldlM_replay (f := dataLog (isV3 base) base.data base.size)
    (l := sortDescs base.descs) fun _ => 0
  rw [restoreFromFiles, plainLog]
  split
  · rfl
  · rw [show assembleData (isV3 base) base.data base.size = fun image d =>
      (dataLog (isV3 base) base.data base.size d).map (replay image) from rfl, hBase]
    cases (sortDescs base.descs).mapM (dataLog (isV3 base) base.data base.size) with
    | none => rfl
    | some ranges =>
        simp only [Option.map_some, Option.bind_eq_bind, Option.bind_some]
        split
        · rfl
        · rw [show patchBlock (isV3 base) (groupDescs base.descs) delta = fun image b =>
            (patchLog (isV3 base) (groupDescs base.descs) delta b).map (replay image) from rfl,
            foldlM_replay]
          cases delta.blocks.mapM (patchLog (isV3 base) (groupDescs base.descs) delta) with
          | none => rfl
          | some blocks => simp [replay_append]

/-- The result is the pages that were copied, over zeros. -/
theorem restoreFromFilesEncrypted_replay :
    restoreFromFilesEncrypted keys base delta =
      (restoreLog keys base delta).map fun log =>
        ⟨groupDescs base.descs, replay (fun _ => 0) log⟩ := by
  rw [restoreFromFilesEncrypted, restoreLog]
  split
  · rfl
  · split
    · exact restoreFromFiles_replay base delta
    · split
      · rfl
      · rw [show restoreRange keys base = fun image d => (rangeLog keys base d).map (replay image)
          from rfl, foldlM_replay]
        cases (sortDescs base.descs).mapM (rangeLog keys base) with
        | none => rfl
        | some ranges =>
            simp only [Option.map_some, Option.bind_eq_bind, Option.bind_some]
            split
            · rfl
            · rw [show applyBlock keys (isV3 base) (groupDescs base.descs) delta = fun image b =>
                replay image (blockLog keys (isV3 base) (groupDescs base.descs) delta b) from rfl,
                foldl_replay]
              simp [replay_append]

theorem rangeLog_isSome (d : RangeDesc) : (rangeLog keys base d).isSome ↔
    ¬Unreadable base.size d.dataOffset d.resmapSize ∧
      RangeVerifies keys (isV3 base) base.data d := by
  rw [rangeLog, ← openRange_isSome keys _ _ base.size]
  split
  · rename_i hBad
    exact iff_of_false Bool.false_ne_true fun h => h.1 hBad
  · rename_i hGood
    rw [Option.isSome_map, and_iff_right hGood]

theorem rangeLog_sound {d : RangeDesc} {log : Log} (h : rangeLog keys base d = some log) :
    AllSound log ↔ RangeReady keys (isV3 base) base.data base.size d := by
  rw [rangeLog] at h
  split at h
  · cases h
  · obtain ⟨sections, hSections, rfl⟩ := Option.map_eq_some_iff.mp h
    exact openRange_sound keys _ _ _ hSections

theorem blockLog_sound (v3 : Bool) (groups : List (Nat × Nat)) (b : RangeDesc) :
    AllSound (blockLog keys v3 groups delta b) ↔
      ((findGroup groups b).isSome → BlockReady keys v3 delta.data delta.size b) := by
  rw [blockLog]
  cases findGroup groups b with
  | none => simp [AllSound]
  | some g =>
      dsimp only
      rw [placePages_sound, openCpu_length, openGpu_length,
        openCpu_sound keys v3 _ _ (placedBytes_le _ _ _),
        openGpu_sound keys v3 _ _ (placedBytes_le _ _ _)]
      simp [BlockReady]

theorem dataLog_isSome (v3 : Bool) (data : ByteImage.Image) (size : Nat) (d : RangeDesc) :
    (dataLog v3 data size d).isSome ↔ Readable size d := by
  rw [dataLog, Readable]
  split
  · rename_i hBad
    exact iff_of_false Bool.false_ne_true (by tauto)
  · rename_i hGood
    exact iff_of_true rfl (by tauto)

theorem dataLog_sound {v3 : Bool} {data : ByteImage.Image} {size : Nat} {d : RangeDesc} {log : Log}
    (h : dataLog v3 data size d = some log) : AllSound log ↔ PlainReady v3 data d := by
  rw [dataLog] at h
  split at h
  · cases h
  · rename_i hGood
    cases h
    -- what was read in full is inside the file
    have hRead : ∀ (off n k : Nat) (clear : Prop), ¬Unreadable size off n →
        (k = 0 ∨ clear ∧ k ≤ n ∧ off + k ≤ size ↔ k = 0 ∨ clear ∧ k ≤ n) := by
      intro off n k clear hFull
      rw [Unreadable] at hFull
      refine or_congr_right' fun hPos => and_congr_right fun _ => ?_
      omega
    rw [not_or, not_or] at hGood
    rw [placePages_sound, soundOn_readCpu, soundOn_readGpu, readCpu, readGpu, readBytes_length,
      readBytes_length, hRead _ _ _ _ hGood.2.1, hRead _ _ _ _ hGood.2.2, PlainReady]

theorem patchLog_isSome (v3 : Bool) (groups : List (Nat × Nat)) (b : RangeDesc) :
    (patchLog v3 groups delta b).isSome ↔ (findGroup groups b).isSome ∧ Readable delta.size b := by
  rw [patchLog]
  cases findGroup groups b with
  | none => simp
  | some g => simp [dataLog_isSome]

theorem patchLog_sound {v3 : Bool} {groups : List (Nat × Nat)} {b : RangeDesc} {log : Log}
    (h : patchLog v3 groups delta b = some log) : AllSound log ↔ PlainReady v3 delta.data b := by
  rw [patchLog] at h
  cases hGroup : findGroup groups b with
  | none =>
      rw [hGroup] at h
      cases h
  | some g =>
      rw [hGroup] at h
      exact dataLog_sound h

variable {keys base delta}

/-- Files that do not get through the checks give no result. -/
theorem accepts_of_log {log : Log} (h : restoreLog keys base delta = some log) :
    Accepts keys base delta ∧ (AllSound log ↔ Ready keys base delta) := by
  have hSorted : ∀ {p : RangeDesc → Prop}, (∀ d ∈ sortDescs base.descs, p d) ↔
      ∀ d ∈ base.descs, p d := by
    intro p
    simp only [sortDescs, List.mem_mergeSort]
  rw [restoreLog] at h
  split at h
  · cases h
  rename_i hRanges
  split at h
  · rename_i hPlain
    rw [plainLog] at h
    split at h
    · cases h
    rename_i hLimits
    simp only [Option.bind_eq_bind, Option.bind_eq_some_iff] at h
    obtain ⟨ranges, hBase, h⟩ := h
    split at h
    · cases h
    rename_i hMagic
    simp only [Option.bind_eq_some_iff, Option.pure_def, Option.some.injEq] at h
    obtain ⟨blocks, hDelta, rfl⟩ := h
    have hReadable := mapM_isSome.mp (Option.isSome_of_mem hBase)
    have hPatched := mapM_isSome.mp (Option.isSome_of_mem hDelta)
    simp only [dataLog_isSome, hSorted] at hReadable
    simp only [patchLog_isSome] at hPatched
    refine ⟨⟨by omega, by omega, not_not.mp hMagic, fun hNot => absurd hPlain hNot,
      fun _ => ⟨hReadable, hPatched⟩⟩, ?_⟩
    rw [allSound_append, allSound_mapM (fun _ _ _ => dataLog_sound) hBase,
      allSound_mapM (fun _ _ _ => patchLog_sound delta) hDelta, hSorted]
    exact ⟨fun hReady => ⟨fun hNot => absurd hPlain hNot, fun _ => hReady⟩,
      fun hReady => hReady.plain hPlain⟩
  · rename_i hEncrypted
    split at h
    · cases h
    rename_i hGroups
    simp only [Option.bind_eq_bind, Option.bind_eq_some_iff] at h
    obtain ⟨ranges, hBase, h⟩ := h
    split at h
    · cases h
    rename_i hMagic
    cases h
    have hRead := mapM_isSome.mp (Option.isSome_of_mem hBase)
    simp only [rangeLog_isSome, hSorted] at hRead
    refine ⟨⟨by omega, by omega, not_not.mp hMagic, fun _ => hRead,
      fun hPlain => absurd hPlain hEncrypted⟩, ?_⟩
    rw [allSound_append, allSound_mapM (fun _ _ _ => rangeLog_sound keys base) hBase, hSorted,
      allSound_flatten, List.forall_mem_map]
    simp only [blockLog_sound]
    exact ⟨fun hReady => ⟨fun _ => hReady, fun hPlain => absurd hPlain hEncrypted⟩,
      fun hReady => hReady.encrypted hEncrypted⟩

theorem log_of_accepts (h : Accepts keys base delta) : (restoreLog keys base delta).isSome := by
  rw [restoreLog, if_neg (Nat.not_lt.mpr h.ranges)]
  split
  · rename_i hPlain
    obtain ⟨hBase, hDelta⟩ := h.plain hPlain
    have hRanges : ((sortDescs base.descs).mapM
        (dataLog (isV3 base) base.data base.size)).isSome := by
      rw [mapM_isSome]
      exact fun d hd => (dataLog_isSome _ _ _ _).mpr (hBase d (List.mem_mergeSort.mp hd))
    have hBlocks : (delta.blocks.mapM
        (patchLog (isV3 base) (groupDescs base.descs) delta)).isSome := by
      rw [mapM_isSome]
      exact fun b hb => (patchLog_isSome _ _ _ _).mpr (hDelta b hb)
    obtain ⟨ranges, hRanges⟩ := Option.isSome_iff_exists.mp hRanges
    obtain ⟨blocks, hBlocks⟩ := Option.isSome_iff_exists.mp hBlocks
    have hLimits : ¬(maxRanges < base.descs.length ∨
        maxGroups < (groupDescs base.descs).length) := by
      have := h.ranges
      have := h.groups
      omega
    rw [plainLog, if_neg hLimits, hRanges, Option.bind_eq_bind, Option.bind_some,
      if_neg (not_not.mpr h.magic), hBlocks]
    rfl
  · rename_i hEncrypted
    have hRanges : ((sortDescs base.descs).mapM (rangeLog keys base)).isSome := by
      rw [mapM_isSome]
      exact fun d hd => (rangeLog_isSome _ _ _).mpr
        (h.encrypted hEncrypted d (List.mem_mergeSort.mp hd))
    obtain ⟨ranges, hRanges⟩ := Option.isSome_iff_exists.mp hRanges
    rw [if_neg (Nat.not_lt.mpr h.groups), hRanges, Option.bind_eq_bind, Option.bind_some,
      if_neg (not_not.mpr h.magic)]
    rfl

end Readers

/-- One GPU page under one transfer of 4096 bytes, with the first byte of its tag. -/
def onePage (off : Nat) (tag : UInt8) : ByteImage.Image := fun a =>
  if a = off then 1 else if a = off + 4098 then 16 else if a = off + 4118 then tag else 0

def onePageDesc (off : Nat) : RangeDesc := ⟨0, 4096, 1, off, 1, 0, 4096, 41⟩

def sessionKeys : Keys := ⟨.clear, .clear, none, .confidential, fun n => List.replicate n 0⟩

/-- A base image with the tag of its page, and a delta where it was changed. -/
def intactBase : BaseFile := ⟨3, [onePageDesc 88], onePage 88 0, 88 + 4138⟩

def tamperedDelta : IncDelta := ⟨incDeltaMagic, 1, [onePageDesc 104], onePage 104 1, 104 + 4138⟩

theorem intactBase_metas : (sectionMetas true intactBase.data (onePageDesc 88)).1 =
    [⟨4096, List.replicate 12 0, 0, List.replicate 16 0, 0⟩] := by
  decide

theorem tamperedDelta_metas : (sectionMetas true tamperedDelta.data (onePageDesc 104)).1 =
    [⟨4096, List.replicate 12 0, 0, 1 :: List.replicate 15 0, 0⟩] := by
  decide

theorem intactBase_groups : groupDescs intactBase.descs = [(0, 4096)] := by
  simp [groupDescs, sortDescs, intactBase, onePageDesc, Intervals.merge, Intervals.extend]

/-- A version 3 image of one range passes when its GPU section is one page under an entry that
the channel takes. -/
theorem accepts_onePage {base : BaseFile} {delta : IncDelta} {d : RangeDesc}
    (hDescs : base.descs = [d]) (hV3 : isV3 base = true) (hMagic : delta.magic = incDeltaMagic)
    (hGroups : (groupDescs base.descs).length ≤ maxGroups)
    (hMap : ¬Unreadable base.size d.dataOffset d.resmapSize) (hMeta : d.cryptoMetaBytes ≠ 0)
    (hCpu : d.cpuBytes = 0) (hGpu : d.gpuBytes = 4096)
    (hMetas : (sectionMetas true base.data d).1 =
      [⟨4096, List.replicate 12 0, 0, List.replicate 16 0, 0⟩]) :
    Accepts sessionKeys base delta where
  ranges := by
    rw [hDescs, List.length_singleton]
    decide
  groups := hGroups
  magic := hMagic
  encrypted := by
    intro _ e he
    rw [hDescs, List.mem_singleton] at he
    subst he
    refine ⟨hMap, ?_⟩
    rw [hV3, RangeVerifies, if_pos rfl]
    refine ⟨fun _ _ _ => ?_, fun hBytes => absurd hCpu hBytes⟩
    rw [hMetas, hGpu]
    refine ⟨⟨by decide, by decide, by rw [read_length], ?_⟩, trivial⟩
    simp [sessionKeys, Channel.clear]
  plain := by
    intro hPlain
    rw [BasePlain, hDescs, List.all_cons, List.all_nil, Bool.and_true, decide_eq_true_eq] at hPlain
    exact absurd hPlain hMeta

theorem accepts_tampered : Accepts sessionKeys intactBase tamperedDelta :=
  accepts_onePage rfl rfl rfl (by rw [intactBase_groups]; decide) (by decide) (by decide) rfl rfl
    intactBase_metas

end FlashCkpt.Restore
