import FlashCkpt.Core.K3Batch
import FlashCkpt.Restore.Sections

/-! `encrypt_captures_batch` and the version 2 reader. The batch divides all gathered bytes into
chunks at once and each capture by itself; a capture that is no whole number of chunks moves
the chunks of those behind it and keeps its own tail in the clear. -/
namespace FlashCkpt.Restore

open ByteImage SizeCut Crypto Image FlashCkpt.Core Blocks

/-- What `encrypt_captures_batch` is to do: every captured byte is handed to the cipher, only
ciphertext is left in the captures, no chunk reaches over the end of a capture, the entries of
each capture cover it, and with them the version 2 reader gets the capture back from any file
that has it. -/
structure SealedBatch (x : Ciphers) (kind : BatchKind) (key : Bytes) (counter : Nat)
    (env : BatchEnv) (caps after : List RangeCapture) : Prop where
  handed : (kind.handed key counter env caps).flatMap Handed.plain = caps.flatMap kind.part
  sealed : after.flatMap kind.part = (kind.handed key counter env caps).flatMap fun h =>
    (x.gcm.encrypt h.key h.iv h.plain).1
  apart : ∀ h ∈ kind.handed key counter env caps, ∃ (i : Nat) (c : RangeCapture),
    caps[i]? = some c ∧ ((caps.take i).flatMap kind.part).length ≤ h.page * kind.chunk ∧
      (h.page + 1) * kind.chunk ≤
        ((caps.take i).flatMap kind.part).length + (kind.part c).length
  covered : ∀ (i : Nat) (c c' : RangeCapture), caps[i]? = some c → after[i]? = some c' →
    total CryptoMeta.size c'.metas = (kind.part c).length
  opens : ∀ (i : Nat) (c c' : RangeCapture), caps[i]? = some c → after[i]? = some c' →
    ∀ keys : Keys, keys.gcm = x.gcm → keys.k3 = some key →
      ∀ data size d, StoredAt data size c'.sections d →
        ∃ sections, openRange keys false data size d = some sections ∧
          values sections.1 = c.cpuBuf ∧ values sections.2 = c.gpuBuf

/-- Each capture is a whole number of chunks, the chunks can be counted in 32 bits, and the
metadata of each capture can be allocated. -/
structure WholeChunks (kind : BatchKind) (env : BatchEnv) (caps : List RangeCapture) : Prop where
  whole : ∀ c ∈ caps, kind.chunk ∣ (kind.part c).length
  counted : (caps.map kind.count).sum < 2 ^ 32
  allocated : ∀ (i : Nat) (c : RangeCapture), caps[i]? = some c → kind.part c ≠ [] →
    env.allocOk i = true

section Handed

variable (kind : BatchKind) (key : Bytes) (counter : Nat) (env : BatchEnv)
  (caps : List RangeCapture)

theorem handed_plain : (kind.handed key counter env caps).flatMap Handed.plain =
    (kind.plain caps).take (kind.totalChunks caps * kind.chunk) := by
  rw [BatchKind.handed, encryptPages_eq, List.flatMap_map, ← flatMap_blocks]
  rfl

theorem totalChunks_le : kind.totalChunks caps * kind.chunk ≤ (kind.plain caps).length :=
  Nat.le_trans (Nat.mul_le_mul_right _ (Nat.mod_le _ _)) (Nat.div_mul_le_self _ _)

/-- Every byte is handed out exactly when the chunks counted are all there is. -/
theorem handed_iff : (kind.handed key counter env caps).flatMap Handed.plain =
    caps.flatMap kind.part ↔
      (kind.plain caps).length = kind.totalChunks caps * kind.chunk := by
  have hLe := totalChunks_le kind caps
  have hPlain : caps.flatMap kind.part = kind.plain caps := (gathered_eq_flatMap kind caps).symm
  rw [handed_plain, hPlain]
  constructor
  · intro h
    have hLength := congrArg List.length h
    rw [List.length_take] at hLength
    omega
  · intro h
    rw [← h, List.take_length]

theorem handed_length :
    (kind.handed key counter env caps).length = kind.totalChunks caps := by
  rw [BatchKind.handed, encryptPages_eq, List.length_map, List.length_range]

theorem handed_getElem? {q : Nat} (hq : q < kind.totalChunks caps) :
    (kind.handed key counter env caps)[q]? =
      some ⟨q, key, buildIv (counter + q), block kind.chunk (kind.plain caps) q⟩ := by
  rw [BatchKind.handed, encryptPages_eq, List.getElem?_map, List.getElem?_range hq,
    Option.map_some, block]

theorem handed_iv : ∀ h ∈ kind.handed key counter env caps, h.iv.length = ivSize := by
  intro h hh
  rw [BatchKind.handed, encryptPages_eq] at hh
  obtain ⟨q, -, rfl⟩ := List.mem_map.mp hh
  exact buildIv_length _

end Handed

/-- A capture of the buffer that is scattered, whatever the sizes are. -/
theorem scatter_part (x : Ciphers) (kind : BatchKind) (handed : List Handed)
    (allocOk : Nat → Bool) (i metaOff : Nat) (gathered : Bytes) (caps : List RangeCapture) :
    (scatter x kind handed allocOk i metaOff gathered caps).flatMap kind.part =
      gathered.take (caps.flatMap kind.part).length := by
  induction caps generalizing i metaOff gathered with
  | nil => simp [scatter]
  | cons c rest ih =>
      rw [scatter, List.flatMap_cons, part_store, ih, List.flatMap_cons, List.length_append,
        List.take_add]

/-- The capture in which a chunk lies. -/
theorem exists_take_sum {α : Type} (f : α → Nat) {l : List α} {q : Nat} (h : q < (l.map f).sum) :
    ∃ (i : Nat) (a : α), l[i]? = some a ∧ ((l.take i).map f).sum ≤ q ∧
      q < ((l.take i).map f).sum + f a := by
  induction l generalizing q with
  | nil => cases h
  | cons a rest ih =>
      rw [List.map_cons, List.sum_cons] at h
      by_cases hFirst : q < f a
      · exact ⟨0, a, rfl, Nat.zero_le q, by simpa using hFirst⟩
      · obtain ⟨i, b, hb, hLow, hHigh⟩ := ih (q := q - f a) (by omega)
        refine ⟨i + 1, b, hb, ?_, ?_⟩
        · rw [List.take_succ_cons, List.map_cons, List.sum_cons]
          omega
        · rw [List.take_succ_cons, List.map_cons, List.sum_cons]
          omega

section Captured

variable {x : Ciphers} {chunkSize : Nat} {key : Bytes} {counter : Nat} {env : BatchEnv}
  {caps after : List RangeCapture}

/-- The chunk sizes that are used. -/
def ChunkUsed (chunkSize : Nat) : Prop := chunkSize = cryptoPageSize ∨ chunkSize = chunk2MB

theorem ChunkUsed.chunk_eq (h : ChunkUsed chunkSize) :
    (BatchKind.captures chunkSize).chunk = chunkSize ∧ chunkSize < 2 ^ 31 := by
  rcases h with rfl | rfl
  · exact ⟨rfl, by decide⟩
  · exact ⟨rfl, by decide⟩

/-- The entries of a capture that had none. -/
theorem total_store {c : RangeCapture} (hNone : c.metas = []) (gathered : Bytes)
    (fresh : List CryptoMeta) (allocOk : Bool) :
    total CryptoMeta.size
        ((BatchKind.captures chunkSize).store c gathered fresh allocOk).metas =
      if allocOk then total CryptoMeta.size fresh else 0 := by
  rw [BatchKind.store]
  dsimp only
  split
  · rename_i hFresh
    rw [hNone, hFresh, total_nil, ite_self]
  · split
    · rfl
    · rfl

theorem total_copied {α : Type} (chunk : Nat) (handed : List Handed) (f : α → Nat)
    (l : List α) : total CryptoMeta.size (l.map fun a => copiedMeta x chunk handed (f a)) =
      l.length * (chunk % 2 ^ 32) := by
  induction l with
  | nil => simp
  | cons a rest ih =>
      have hSize : (copiedMeta x chunk handed (f a)).size = chunk % 2 ^ 32 := by
        rw [copiedMeta]
        split
        · rfl
        · rfl
      rw [List.map_cons, total_cons, ih, hSize, List.length_cons, Nat.succ_mul, Nat.add_comm]

/-- What is left in a capture, whatever the sizes are. -/
theorem after_getElem? {kind : BatchKind} (hPages : kind.totalChunks caps ≠ 0)
    (hAfter : encryptCapturesFrom x kind key counter env caps = some after) {i : Nat}
    {c : RangeCapture} (hi : caps[i]? = some c) : ∃ gathered fresh,
      after[i]? = some (kind.store c gathered fresh (env.allocOk i)) ∧
        total CryptoMeta.size fresh = kind.count c % 2 ^ 32 * (kind.chunk % 2 ^ 32) := by
  rw [encryptCapturesFrom, if_neg hPages] at hAfter
  split at hAfter
  · cases hAfter
    have hStored := scatter_getElem? x kind (kind.handed key counter env caps) env.allocOk 0 0
      ((kind.handed key counter env caps).flatMap (fun h => (x.gcm.encrypt h.key h.iv h.plain).1) ++
        (kind.plain caps).drop (kind.totalChunks caps * kind.chunk)) caps i
    rw [hi, Option.map_some, Nat.zero_add i] at hStored
    exact ⟨_, _, hStored, (total_copied _ _ _ _).trans (by rw [List.length_range]; rfl)⟩
  · cases hAfter

theorem SealedBatch.wholeChunks (hUsed : ChunkUsed chunkSize) (hNone : ∀ c ∈ caps, c.metas = [])
    (hAfter : encryptCapturesFrom x (.captures chunkSize) key counter env caps = some after)
    (h : SealedBatch x (.captures chunkSize) key counter env caps after) :
    WholeChunks (.captures chunkSize) env caps := by
  have hAll := (handed_iff _ key counter env caps).mp h.handed
  have hMod : (BatchKind.captures chunkSize).chunk % 2 ^ 32 =
      (BatchKind.captures chunkSize).chunk := by
    rw [hUsed.chunk_eq.1]
    exact Nat.mod_eq_of_lt (Nat.lt_trans hUsed.chunk_eq.2 (by decide))
  -- a capture is as long as its entries say, and has some only if they could be allocated
  have hEach : ∀ (i : Nat) (c : RangeCapture), caps[i]? = some c →
      ((BatchKind.captures chunkSize).part c).length =
        if env.allocOk i then (BatchKind.captures chunkSize).count c % 2 ^ 32 *
          (BatchKind.captures chunkSize).chunk else 0 := by
    intro i c hi
    by_cases hPages : (BatchKind.captures chunkSize).totalChunks caps = 0
    · rw [hPages, Nat.zero_mul, BatchKind.plain, gathered_eq_flatMap] at hAll
      have hPart : ((BatchKind.captures chunkSize).part c).length = 0 := by
        rw [List.length_eq_zero_iff]
        exact List.flatMap_eq_nil_iff.mp (List.eq_nil_of_length_eq_zero hAll) c
          (List.mem_of_getElem? hi)
      rw [BatchKind.count, hPart, Nat.zero_div, Nat.zero_mod, Nat.zero_mul, ite_self]
    · obtain ⟨gathered, fresh, hStored, hFresh⟩ := after_getElem? hPages hAfter hi
      rw [← h.covered i c _ hi hStored, total_store (hNone c (List.mem_of_getElem? hi)), hFresh,
        hMod]
  have hWhole : ∀ c ∈ caps, (BatchKind.captures chunkSize).chunk ∣
      ((BatchKind.captures chunkSize).part c).length := by
    intro c hc
    obtain ⟨i, hi⟩ := List.getElem?_of_mem hc
    rw [hEach i c hi]
    split
    · exact Nat.dvd_mul_left _ _
    · exact Nat.dvd_zero _
  refine ⟨hWhole, ?_, ?_⟩
  · rw [plain_length hWhole] at hAll
    rw [Nat.eq_of_mul_eq_mul_right (BatchKind.chunk_pos _) hAll]
    exact Nat.mod_lt _ (by decide)
  · intro i c hi hSome
    by_contra hFails
    have hLength := hEach i c hi
    rw [if_neg hFails] at hLength
    exact hSome (List.eq_nil_of_length_eq_zero hLength)

end Captured

section Opened

variable {keys : Keys} {key : Bytes} {data : ByteImage.Image} {size : Nat} {r : Sections}
  {d : RangeDesc}

theorem k3Meta_wellFormed (gcm : Gcm) (key : Bytes) {chunks : List (Bytes × Bytes)}
    (hIv : ∀ p ∈ chunks, p.1.length = ivSize)
    (hSize : ∀ p ∈ chunks, 0 < p.2.length ∧ p.2.length < 2 ^ 31) :
    ∀ m ∈ chunks.map (k3Meta gcm key), m.WellFormed := by
  intro m hm
  obtain ⟨p, hp, rfl⟩ := List.mem_map.mp hm
  have hLength : p.2.length < 256 ^ 8 := Nat.lt_trans (hSize p hp).2 (by decide)
  exact ⟨hLength, hIv p hp, gcm.tag_length _ _ _, Nat.pow_pos (by decide)⟩

/-- A version 2 range without entries is taken as it stands. -/
theorem openRange_plain (keys : Keys) (h : StoredAt data size r d) (hNone : r.cryptoMeta = []) :
    ∃ sections, openRange keys false data size d = some sections ∧
      values sections.1 = r.cpu ∧ values sections.2 = r.gpu := by
  have hMetas : (sectionMetas false data d).1 = [] := h.entries (by simp) hNone
  refine ⟨_, by rw [openRange, if_neg Bool.false_ne_true, if_pos hMetas], ?_, ?_⟩
  · exact values_readCpu_stored h false
  · exact values_readGpu_stored h false

/-- The sections of a version 2 range are opened as one. -/
theorem openRange_sealed (h : StoredAt data size r d) (hKey : keys.k3 = some key)
    {chunks : List (Bytes × Bytes)} (hIv : ∀ p ∈ chunks, p.1.length = ivSize)
    (hSize : ∀ p ∈ chunks, 0 < p.2.length ∧ p.2.length < 2 ^ 31) (hSome : chunks ≠ [])
    (hMetas : r.cryptoMeta = (chunks.map (k3Meta keys.gcm key)).flatMap CryptoMeta.encode)
    (hCipher : r.cpu ++ r.gpu = chunks.flatMap (k3Cipher keys.gcm key)) :
    ∃ sections, openRange keys false data size d = some sections ∧
      values sections.1 = (chunks.flatMap Prod.snd).take r.cpu.length ∧
      values sections.2 = (chunks.flatMap Prod.snd).drop r.cpu.length := by
  have hEntries : (sectionMetas false data d).1 = chunks.map (k3Meta keys.gcm key) :=
    h.entries (k3Meta_wellFormed keys.gcm key hIv hSize) hMetas
  have hNotNil : chunks.map (k3Meta keys.gcm key) ≠ [] := by simpa using hSome
  have hRead : values (readCpu false data size d ++ readGpu false data size d) =
      chunks.flatMap (k3Cipher keys.gcm key) := by
    rw [values_append, values_readCpu_stored h, values_readGpu_stored h, hCipher]
  have hBuffer : readCpu false data size d ++ readGpu false data size d ≠ [] := by
    intro hNil
    obtain ⟨p, rest, rfl⟩ := List.exists_cons_of_ne_nil hSome
    have hPos := (hSize p List.mem_cons_self).1
    have hLength := congrArg List.length hRead
    rw [hNil, values, List.map_nil, List.length_nil, List.flatMap_cons, List.length_append,
      k3Cipher, keys.gcm.cipher_length] at hLength
    omega
  have hCpu : d.cpuBytes = r.cpu.length := by rw [h.desc]; rfl
  obtain ⟨hOk, hPlain⟩ := decryptK3_eq keys key hSize
  have hOpen : openCombined keys data size d = decryptK3 keys key
      (chunks.map (k3Meta keys.gcm key)) (chunks.flatMap (k3Cipher keys.gcm key)) := by
    rw [openCombined, hEntries, hKey, Option.getD_some, decryptSection_k3 hNotNil hBuffer, hRead]
  refine ⟨_, by rw [openRange, if_neg Bool.false_ne_true, hEntries, if_neg hNotNil, hOpen,
    if_pos hOk], ?_, ?_⟩
  · rw [values, List.map_take, ← values, hPlain, hCpu]
  · rw [values, List.map_drop, ← values, hPlain, hCpu]

end Opened

section Aligned

variable {x : Ciphers} {kind : BatchKind} {key : Bytes} {counter : Nat} {env : BatchEnv}
  {caps after : List RangeCapture} {j : Nat} {c : RangeCapture}

/-- The chunks of a capture, each with the IV it is encrypted with. -/
def chunksOf (kind : BatchKind) (counter before : Nat) (c : RangeCapture) :
    List (Bytes × Bytes) :=
  (List.range (kind.count c)).map fun k =>
    (buildIv (counter + (before + k)), block kind.chunk (kind.part c) k)

theorem chunksOf_iv (before : Nat) : ∀ p ∈ chunksOf kind counter before c,
    p.1.length = ivSize := by
  intro p hp
  obtain ⟨k, -, rfl⟩ := List.mem_map.mp hp
  exact buildIv_length _

theorem chunksOf_length (counter before : Nat) : ∀ p ∈ chunksOf kind counter before c,
    p.2.length = kind.chunk := by
  intro p hp
  obtain ⟨k, hk, rfl⟩ := List.mem_map.mp hp
  apply block_length
  exact Nat.le_trans (Nat.mul_le_mul_right _ (List.mem_range.mp hk)) (Nat.div_mul_le_self _ _)

theorem chunksOf_plain {before : Nat} (hWhole : kind.chunk ∣ (kind.part c).length) :
    (chunksOf kind counter before c).flatMap Prod.snd = kind.part c := by
  rw [chunksOf, List.flatMap_map]
  exact flatMap_block_self (Nat.div_mul_cancel hWhole).symm

theorem chunksOf_cipher {before pages : Nat} (h : before + kind.count c ≤ pages) :
    (chunksOf kind counter before c).flatMap (k3Cipher x.gcm key) =
      (List.range (kind.count c)).flatMap fun k =>
        sealedChunk x key counter pages (before + k) (block kind.chunk (kind.part c) k) := by
  rw [chunksOf, List.flatMap_map]
  apply List.flatMap_congr
  intro k hk
  have hk := List.mem_range.mp hk
  rw [sealedChunk, if_pos (by omega), k3Cipher]

/-- The entries of a capture whose chunks were all encrypted. -/
theorem freshMetas_eq (hWhole : ∀ c ∈ caps, kind.chunk ∣ (kind.part c).length)
    (hChunk : kind.chunk < 2 ^ 31) (hj : caps[j]? = some c)
    (hReach : kind.before caps j + kind.count c ≤ kind.totalChunks caps) :
    freshMetas x kind (kind.handed key counter env caps) (kind.before caps j) (kind.count c) =
      (chunksOf kind counter (kind.before caps j) c).map (k3Meta x.gcm key) := by
  have hLess : kind.totalChunks caps < 2 ^ 32 := Nat.mod_lt _ (by decide)
  have hCount : kind.count c % 2 ^ 32 = kind.count c := Nat.mod_eq_of_lt (by omega)
  rw [freshMetas, hCount, chunksOf, List.map_map]
  apply List.map_congr_left
  intro k hk
  have hk := List.mem_range.mp hk
  have hBlock : block kind.chunk (kind.plain caps) (kind.before caps j + k) =
      block kind.chunk (kind.part c) k := by
    rw [← plain_slice hWhole hj, block_slice _ hk]
  have hLength : (block kind.chunk (kind.part c) k).length = kind.chunk :=
    chunksOf_length counter 0 _ (List.mem_map_of_mem (List.mem_range.mpr hk))
  rw [Nat.mod_eq_of_lt (by omega), copiedMeta,
    handed_getElem? kind key counter env caps (by omega), Function.comp_apply, hBlock, k3Meta]
  dsimp only
  rw [hLength, Nat.mod_eq_of_lt (by omega)]

/-- A capture that a batch encrypts in full: its entries are those of its chunks, and its
sections their ciphertexts. -/
theorem encrypted_capture (hWhole : ∀ c ∈ caps, kind.chunk ∣ (kind.part c).length)
    (hChunk : kind.chunk < 2 ^ 31) (hPages : kind.totalChunks caps ≠ 0)
    (hAfter : encryptCapturesFrom x kind key counter env caps = some after)
    (hj : caps[j]? = some c)
    (hReach : kind.before caps j + kind.count c ≤ kind.totalChunks caps) :
    ∃ gathered, after[j]? = some (kind.store c gathered
        ((chunksOf kind counter (kind.before caps j) c).map (k3Meta x.gcm key))
        (env.allocOk j)) ∧
      gathered.take (kind.part c).length =
        (chunksOf kind counter (kind.before caps j) c).flatMap (k3Cipher x.gcm key) := by
  obtain ⟨gathered, hStored, hSlice⟩ :=
    encryptCapturesFrom_getElem? x hWhole key counter hPages hAfter hj
  rw [freshMetas_eq hWhole hChunk hj hReach] at hStored
  rw [← chunksOf_cipher hReach] at hSlice
  exact ⟨gathered, hStored, hSlice⟩

end Aligned

section Whole

variable {x : Ciphers} {chunkSize : Nat} {key : Bytes} {counter : Nat} {env : BatchEnv}
  {caps after : List RangeCapture}

/-- Behind a batch that counts all chunks of the captures. -/
theorem WholeChunks.opens (hUsed : ChunkUsed chunkSize) (hNone : ∀ c ∈ caps, c.metas = [])
    (hAfter : encryptCapturesFrom x (.captures chunkSize) key counter env caps = some after)
    (h : WholeChunks (.captures chunkSize) env caps) {i : Nat} {c c' : RangeCapture}
    (hi : caps[i]? = some c) (hi' : after[i]? = some c') {keys : Keys} (hGcm : keys.gcm = x.gcm)
    (hKey : keys.k3 = some key) {data : ByteImage.Image} {size : Nat} {d : RangeDesc}
    (hStored : StoredAt data size c'.sections d) :
    ∃ sections, openRange keys false data size d = some sections ∧
      values sections.1 = c.cpuBuf ∧ values sections.2 = c.gpuBuf := by
  have hCount : (BatchKind.captures chunkSize).before caps i +
      (BatchKind.captures chunkSize).count c ≤
        (caps.map (BatchKind.captures chunkSize).count).sum :=
    sum_take_add_le _ hi
  have hTotal := totalChunks_eq h.whole
  rw [Nat.mod_eq_of_lt h.counted] at hTotal
  by_cases hPages : (BatchKind.captures chunkSize).totalChunks caps = 0
  · rw [encryptCapturesFrom, if_pos hPages, Option.some.injEq] at hAfter
    subst hAfter
    cases hi.symm.trans hi'
    apply openRange_plain keys hStored
    rw [RangeCapture.sections, hNone c (List.mem_of_getElem? hi)]
    rfl
  · obtain ⟨gathered, hEntry, hSlice⟩ := encrypted_capture h.whole
      (by rw [hUsed.chunk_eq.1]; exact hUsed.chunk_eq.2) hPages hAfter hi (by omega)
    cases hi'.symm.trans hEntry
    generalize hChunks : chunksOf (.captures chunkSize) counter
      ((BatchKind.captures chunkSize).before caps i) c = chunks at hStored hSlice
    have hPlain : chunks.flatMap Prod.snd = c.cpuBuf ++ c.gpuBuf := by
      rw [← hChunks, chunksOf_plain (h.whole c (List.mem_of_getElem? hi)), part_captures]
    have hSize : ∀ p ∈ chunks, 0 < p.2.length ∧ p.2.length < 2 ^ 31 := by
      intro p hp
      rw [← hChunks] at hp
      rw [chunksOf_length _ _ p hp]
      exact ⟨BatchKind.chunk_pos _, by rw [hUsed.chunk_eq.1]; exact hUsed.chunk_eq.2⟩
    have hLength : (chunks.flatMap (k3Cipher x.gcm key)).length =
        c.cpuBuf.length + c.gpuBuf.length := by
      rw [← List.length_append, ← hPlain]
      exact flatMap_length_eq _ _ fun p _ => x.gcm.cipher_length key p.1 p.2
    by_cases hEmpty : chunks = []
    · rw [hEmpty, List.flatMap_nil] at hPlain
      obtain ⟨hCpu, hGpu⟩ := List.append_eq_nil_iff.mp hPlain.symm
      have hOpen := openRange_plain keys hStored (by
        rw [RangeCapture.sections, BatchKind.store, hEmpty, List.map_nil, if_pos rfl,
          hNone c (List.mem_of_getElem? hi)]
        rfl)
      simp only [RangeCapture.sections, BatchKind.store, hCpu, hGpu, List.length_nil,
        List.take_zero] at hOpen
      rw [hCpu, hGpu]
      exact hOpen
    · have hAlloc : env.allocOk i = true := by
        apply h.allocated i c hi
        rw [part_captures, ← hPlain]
        intro hNil
        obtain ⟨p, rest, rfl⟩ := List.exists_cons_of_ne_nil hEmpty
        have hPos := (hSize p List.mem_cons_self).1
        rw [List.flatMap_cons, List.append_eq_nil_iff, ← List.length_eq_zero_iff] at hNil
        omega
      have hBuffer := congrArg List.length hSlice
      rw [List.length_take, hLength, part_captures, List.length_append] at hBuffer
      rw [← hGcm] at hStored hSlice
      rw [hAlloc] at hStored
      obtain ⟨sections, hOpen, hFirst, hSecond⟩ := openRange_sealed hStored hKey
        (by rw [← hChunks]; exact chunksOf_iv _) hSize hEmpty
        (by rw [RangeCapture.sections, BatchKind.store, if_neg (by simpa using hEmpty), if_pos rfl])
        (by
          rw [← hSlice, ← part_store (.captures chunkSize) c gathered
            (chunks.map (k3Meta keys.gcm key)) true, part_captures]
          rfl)
      have hFront : (gathered.take c.cpuBuf.length).length = c.cpuBuf.length := by
        rw [List.length_take]
        omega
      simp only [RangeCapture.sections, BatchKind.store, hFront, hPlain] at hFirst hSecond
      rw [List.take_left' rfl] at hFirst
      rw [List.drop_left' rfl] at hSecond
      exact ⟨sections, hOpen, hFirst, hSecond⟩

/-- The chunks that are handed over are all of the plaintext. -/
theorem WholeChunks.chunks_length (h : WholeChunks (.captures chunkSize) env caps) :
    (BatchKind.captures chunkSize).totalChunks caps * (BatchKind.captures chunkSize).chunk =
      (BatchKind.plain (.captures chunkSize) caps).length := by
  have hAll := plain_length h.whole
  have hTotal := totalChunks_eq h.whole
  rw [Nat.mod_eq_of_lt h.counted] at hTotal
  rw [← hTotal] at hAll
  exact hAll.symm

/-- Where there is no chunk, the captures are empty. -/
theorem WholeChunks.part_eq_nil (h : WholeChunks (.captures chunkSize) env caps)
    (hPages : (BatchKind.captures chunkSize).totalChunks caps = 0) {c : RangeCapture} (hc : c ∈ caps) :
    (BatchKind.captures chunkSize).part c = [] := by
  have hAll := h.chunks_length.symm
  rw [hPages, Nat.zero_mul, BatchKind.plain, gathered_eq_flatMap] at hAll
  exact List.flatMap_eq_nil_iff.mp (List.eq_nil_of_length_eq_zero hAll) c hc

/-- The captures hold the ciphertexts of the chunks, one behind the other. -/
theorem WholeChunks.sealed
    (hAfter : encryptCapturesFrom x (.captures chunkSize) key counter env caps = some after)
    (h : WholeChunks (.captures chunkSize) env caps) :
    after.flatMap (BatchKind.captures chunkSize).part =
      (BatchKind.handed (.captures chunkSize) key counter env caps).flatMap fun h =>
        (x.gcm.encrypt h.key h.iv h.plain).1 := by
  by_cases hPages : (BatchKind.captures chunkSize).totalChunks caps = 0
  · have hHanded : (BatchKind.captures chunkSize).handed key counter env caps = [] := by
      rw [← List.length_eq_zero_iff, handed_length, hPages]
    rw [encryptCapturesFrom, if_pos hPages, Option.some.injEq] at hAfter
    rw [hHanded, ← hAfter, List.flatMap_eq_nil_iff.mpr fun _ => h.part_eq_nil hPages]
    rfl
  · rw [encryptCapturesFrom, if_neg hPages] at hAfter
    split at hAfter
    · cases hAfter
      have hNoTail : (BatchKind.plain (.captures chunkSize) caps).drop
          ((BatchKind.captures chunkSize).totalChunks caps *
            (BatchKind.captures chunkSize).chunk) = [] := by
        rw [h.chunks_length, List.drop_length]
      have hCipher : ((BatchKind.handed (.captures chunkSize) key counter env caps).flatMap
          fun h => (x.gcm.encrypt h.key h.iv h.plain).1).length =
            (caps.flatMap (BatchKind.captures chunkSize).part).length := by
        rw [← (handed_iff _ key counter env caps).mpr h.chunks_length.symm]
        exact flatMap_length_eq _ _ fun h _ => x.gcm.cipher_length _ _ _
      rw [scatter_part, hNoTail, List.append_nil, ← hCipher, List.take_length]
    · cases hAfter

/-- A chunk lies inside one capture. -/
theorem WholeChunks.apart (h : WholeChunks (.captures chunkSize) env caps) {handed : Handed}
    (hMem : handed ∈ (BatchKind.captures chunkSize).handed key counter env caps) :
    ∃ (i : Nat) (c : RangeCapture), caps[i]? = some c ∧
      ((caps.take i).flatMap (BatchKind.captures chunkSize).part).length ≤
        handed.page * (BatchKind.captures chunkSize).chunk ∧
      (handed.page + 1) * (BatchKind.captures chunkSize).chunk ≤
        ((caps.take i).flatMap (BatchKind.captures chunkSize).part).length +
          ((BatchKind.captures chunkSize).part c).length := by
  have hTotal := totalChunks_eq h.whole
  rw [Nat.mod_eq_of_lt h.counted] at hTotal
  obtain ⟨q, hq⟩ := List.getElem?_of_mem hMem
  have hLess := (List.getElem?_eq_some_iff.mp hq).1
  rw [handed_length] at hLess
  have hHanded := handed_getElem? (.captures chunkSize) key counter env caps hLess
  cases hq.symm.trans hHanded
  rw [hTotal] at hLess
  obtain ⟨i, c, hi, hLow, hHigh⟩ := exists_take_sum _ hLess
  have hFront := flatMap_part_length h.whole fun d (hd : d ∈ caps.take i) =>
    List.mem_of_mem_take hd
  refine ⟨i, c, hi, ?_, ?_⟩
  · rw [hFront]
    exact Nat.mul_le_mul_right _ hLow
  · rw [hFront, part_length_eq h.whole (List.mem_of_getElem? hi), ← Nat.add_mul]
    exact Nat.mul_le_mul_right _ hHigh

/-- The entries of a capture cover it. -/
theorem WholeChunks.covered (hUsed : ChunkUsed chunkSize) (hNone : ∀ c ∈ caps, c.metas = [])
    (hAfter : encryptCapturesFrom x (.captures chunkSize) key counter env caps = some after)
    (h : WholeChunks (.captures chunkSize) env caps) {i : Nat} {c c' : RangeCapture}
    (hi : caps[i]? = some c) (hi' : after[i]? = some c') :
    total CryptoMeta.size c'.metas = ((BatchKind.captures chunkSize).part c).length := by
  by_cases hPages : (BatchKind.captures chunkSize).totalChunks caps = 0
  · rw [encryptCapturesFrom, if_pos hPages, Option.some.injEq] at hAfter
    subst hAfter
    cases hi.symm.trans hi'
    rw [hNone c (List.mem_of_getElem? hi), h.part_eq_nil hPages (List.mem_of_getElem? hi)]
    rfl
  · obtain ⟨gathered, fresh, hStored, hFresh⟩ := after_getElem? hPages hAfter hi
    cases hi'.symm.trans hStored
    have hCount : (BatchKind.captures chunkSize).count c < 2 ^ 32 := by
      have hSum := sum_take_add_le (BatchKind.captures chunkSize).count hi
      have := h.counted
      omega
    have hChunk : (BatchKind.captures chunkSize).chunk < 2 ^ 32 := by
      rw [hUsed.chunk_eq.1]
      exact Nat.lt_trans hUsed.chunk_eq.2 (by decide)
    rw [total_store (hNone c (List.mem_of_getElem? hi)), hFresh, Nat.mod_eq_of_lt hCount,
      Nat.mod_eq_of_lt hChunk, ← part_length_eq h.whole (List.mem_of_getElem? hi)]
    split
    · rfl
    · rename_i hFails
      by_contra hSome
      refine hFails (h.allocated i c hi fun hNil => hSome ?_)
      rw [hNil]
      rfl

theorem WholeChunks.sealedBatch (hUsed : ChunkUsed chunkSize) (hNone : ∀ c ∈ caps, c.metas = [])
    (hAfter : encryptCapturesFrom x (.captures chunkSize) key counter env caps = some after)
    (h : WholeChunks (.captures chunkSize) env caps) :
    SealedBatch x (.captures chunkSize) key counter env caps after where
  handed := (handed_iff _ key counter env caps).mpr h.chunks_length.symm
  sealed := h.sealed hAfter
  apart := fun _ hMem => h.apart hMem
  covered := fun _ _ _ hi hi' => h.covered hUsed hNone hAfter hi hi'
  opens := fun _ _ _ hi hi' _ hGcm hKey _ _ _ hStored =>
    h.opens hUsed hNone hAfter hi hi' hGcm hKey hStored

end Whole

section OnePage

/-- A static range of one page on the GPU, captured in the clear. -/
def clearPage : RangeCapture where
  layout := ⟨0, [.gpu], [1], oneTransfer_pages, oneTransfer_sum⟩
  cpuBuf := []
  gpuBuf := List.replicate pageSize 7
  metas := []

def clearPageEnv : BatchEnv := ⟨1, 1, .ok, fun _ => true⟩

theorem clearPage_part (chunkSize : Nat) :
    ((BatchKind.captures chunkSize).part clearPage).length = pageSize := by
  rw [part_captures, clearPage, List.nil_append, List.length_replicate]

theorem clearPage_plain (chunkSize : Nat) :
    (BatchKind.plain (.captures chunkSize) [clearPage]).length = pageSize := by
  rw [BatchKind.plain, gathered_eq_flatMap, List.flatMap_singleton, clearPage_part]

end OnePage

end FlashCkpt.Restore
