import FlashCkpt.Core.Batch
import FlashCkpt.Image.Coalesced

/-! The CPU pages of an `--encrypted` run. The driver hands GPU pages over as
ciphertext and CPU pages as they are, and `k3` is meant for the latter; which of
the writers sees to it depends on the path of `main`. -/
namespace FlashCkpt.Core

open ByteImage Crypto Image

variable (x : Ciphers)

/-- The span that ioctl 116 reads: the driver ends its transfers at absent pages. -/
structure DeltaSpan where
  span : RangeLayout
  aligned : Aligned span.transfers (presentRuns 0 span.residency)

/-- An `--encrypted` run. Each part has what the run captured for it before it ended:
the ranges of the stun copy, the span and the ranges of the coalesced base, the ranges
of the streamed base, the span of the fused delta, the regions of the legacy one. -/
structure EncryptedRun where
  options : Options
  encrypted : options.useEncryptedIoctl = true
  key : Bytes
  baseMemory : ByteImage.Image
  deltaMemory : ByteImage.Image
  firstTransfer : Nat
  deltaTransfer : Nat
  dynamic : List RangeLayout
  batch : BatchEnv
  baseSpan : Option (RangeLayout × List SpanRange)
  baseRanges : List RangeLayout
  deltaSpan : Option DeltaSpan
  deltaRegions : List RangeLayout

namespace EncryptedRun

variable (r : EncryptedRun)

/-- The batch function of a stun copy. -/
def stunKind : BatchKind := if r.options.encryptK3 then .captures cryptoPageSize else .cpuPages

def stunRanges : List Sections :=
  ((encryptCaptures x r.stunKind r.key r.batch
    (captureAll x r.baseMemory r.firstTransfer r.dynamic)).getD []).map RangeCapture.sections

def writtenBase : List Sections :=
  if r.options.coalesce then
    match r.baseSpan with
    | none => []
    | some (span, ranges) =>
        (coalescedRanges span.base (readSpan x.channel r.baseMemory r.firstTransfer span)
          ranges).getD []
  else capture x.channel r.baseMemory r.firstTransfer r.baseRanges

def writtenDelta : List Sections :=
  if r.options.deltaLegacy then capture x.channel r.deltaMemory r.deltaTransfer r.deltaRegions
  else
    match r.deltaSpan with
    | none => []
    | some d =>
        (fusedRegions d.span.base
          (readSpan x.channel r.deltaMemory r.deltaTransfer d.span)).getD []

/-- The ranges of the base and the delta image, with the memory they were read from.
On the other two paths the application writes the images. -/
def written : List (ByteImage.Image × Sections) :=
  match r.options.mode with
  | .strawman | .precopyBaseline => []
  | .stunCopy => (r.stunRanges x).map (r.baseMemory, ·)
  | .mainPath =>
      (r.writtenBase x).map (r.baseMemory, ·) ++ (r.writtenDelta x).map (r.deltaMemory, ·)

end EncryptedRun

/-- The pages of a stored residency map that lie on the CPU. -/
def cpuPagesOf (resmap : Bytes) : List Nat :=
  (List.range resmap.length).filter fun p => resmap[p]? = some Residency.cpu.code

/-- The entries of a stored metadata section. -/
def entriesOf (cryptoMeta : Bytes) : List CryptoMeta :=
  (List.range (cryptoMeta.length / cryptoMetaSize)).map fun i =>
    CryptoMeta.parse ((cryptoMeta.drop (i * cryptoMetaSize)).take cryptoMetaSize)

/-- The CPU section holds the ciphertext of its pages, and of each the IV and the tag
are among the metadata. -/
structure CpuSealed (gcm : Gcm) (key : Bytes) (memory : ByteImage.Image) (s : Sections) :
    Prop where
  whole : s.cpu.length = (cpuPagesOf s.resmap).length * pageSize
  pages : ∀ k p, (cpuPagesOf s.resmap)[k]? = some p → ∃ m ∈ entriesOf s.cryptoMeta,
    ((s.cpu.drop (k * pageSize)).take pageSize, m.authTag) =
      gcm.encrypt key m.iv (read memory (s.baseVa + p * pageSize) pageSize)

/-- Whatever the ciphers are, no CPU page leaves the run in the clear. -/
def EncryptedRun.Confidential (r : EncryptedRun) : Prop :=
  ∀ x : Ciphers, ∀ p ∈ r.written x, CpuSealed x.gcm r.key p.1 p.2

/-- The number of pages of a captured range that a batch function encrypts. -/
def BatchKind.pages : BatchKind → RangeLayout → Nat
  | .captures _, l => (pagesOn l.residency .cpu).length + (pagesOn l.residency .gpu).length
  | .cpuPages, l => (pagesOn l.residency .cpu).length

/-- Every CPU page is among the pages counted in 32 bits, and the metadata of its range
was allocated. -/
def BatchKind.Reaches (kind : BatchKind) (allocOk : Nat → Bool) (layouts : List RangeLayout) :
    Prop :=
  ∀ i l, layouts[i]? = some l → ∀ k < (pagesOn l.residency .cpu).length,
    ((layouts.take i).map kind.pages).sum + k < (layouts.map kind.pages).sum % 2 ^ 32 ∧
      k < kind.pages l % 2 ^ 32 ∧ allocOk i = true

def GpuOnly (l : RangeLayout) : Prop := Residency.cpu ∉ l.residency

/-- A stun copy whose batch fails writes nothing, unless there is nothing to encrypt. On
the main path there must be no CPU page but for the coalesced base, which refuses them. -/
def EncryptedRun.CpuPagesReached (r : EncryptedRun) : Prop :=
  match r.options.mode with
  | .strawman | .precopyBaseline => True
  | .stunCopy =>
      r.batch.outcome = .ok ∨ (r.dynamic.map r.stunKind.pages).sum % 2 ^ 32 = 0 →
        r.stunKind.Reaches r.batch.allocOk r.dynamic
  | .mainPath =>
      (r.options.coalesce = false → ∀ l ∈ r.baseRanges, GpuOnly l) ∧
        (r.options.deltaLegacy = true → ∀ l ∈ r.deltaRegions, GpuOnly l) ∧
        (r.options.deltaLegacy = false → ∀ d, r.deltaSpan = some d → GpuOnly d.span)

section Cipher

/-- The bytes added to a plaintext of some length. -/
def keyStream (iv : Bytes) (n : Nat) : Bytes := (1 :: (iv ++ List.replicate n 0)).take n

theorem keyStream_length (iv : Bytes) (n : Nat) : (keyStream iv n).length = n := by
  rw [keyStream, List.length_take, List.length_cons, List.length_append, List.length_replicate]
  omega

theorem zipWith_sub_add {plain stream : Bytes} (h : plain.length = stream.length) :
    List.zipWith (· - ·) (List.zipWith (· + ·) plain stream) stream = plain := by
  induction plain generalizing stream with
  | nil => rfl
  | cons b rest ih =>
      cases stream with
      | nil => cases h
      | cons c more =>
          rw [List.zipWith_cons_cons, List.zipWith_cons_cons, ih (Nat.succ.inj h)]
          simp

/-- A cipher which changes every plaintext, and no two IVs in the same way. -/
def streamGcm : Gcm where
  encrypt _ iv plain :=
    (List.zipWith (· + ·) plain (keyStream iv plain.length), List.replicate tagSize 0)
  decrypt _ iv cipher _ := some (List.zipWith (· - ·) cipher (keyStream iv cipher.length))
  cipher_length _ _ _ := by simp [keyStream_length]
  tag_length := clearTag_length
  decrypt_encrypt _ iv plain := by
    rw [List.length_zipWith, keyStream_length, Nat.min_self,
      zipWith_sub_add (keyStream_length iv plain.length).symm]

theorem streamGcm_ne (key iv : Bytes) {plain : Bytes} (h : 0 < plain.length) :
    (streamGcm.encrypt key iv plain).1 ≠ plain := by
  cases plain with
  | nil => cases h
  | cons b rest =>
      intro hSame
      have hHead := congrArg List.head? hSame
      simp [streamGcm, keyStream] at hHead

theorem zipWith_add_cancel {plain stream stream' : Bytes} (h : plain.length = stream.length)
    (h' : plain.length = stream'.length)
    (hSame : List.zipWith (· + ·) plain stream = List.zipWith (· + ·) plain stream') :
    stream = stream' := by
  induction plain generalizing stream stream' with
  | nil => rw [List.eq_nil_of_length_eq_zero h.symm, List.eq_nil_of_length_eq_zero h'.symm]
  | cons b rest ih =>
      cases stream with
      | nil => cases h
      | cons c more =>
          cases stream' with
          | nil => cases h'
          | cons c' more' =>
              rw [List.zipWith_cons_cons, List.zipWith_cons_cons, List.cons.injEq] at hSame
              rw [ih (Nat.succ.inj h) (Nat.succ.inj h') hSame.2]
              simpa using hSame.1

theorem streamGcm_iv {key iv iv' plain : Bytes} (hIv : iv.length = ivSize)
    (hIv' : iv'.length = ivSize) (hPlain : plain.length = pageSize)
    (h : (streamGcm.encrypt key iv plain).1 = (streamGcm.encrypt key iv' plain).1) :
    iv = iv' := by
  have hStream := zipWith_add_cancel (keyStream_length iv plain.length).symm
    (keyStream_length iv' plain.length).symm h
  have hTake : ∀ v : Bytes, v.length = ivSize →
      (keyStream v plain.length).take (ivSize + 1) = 1 :: v := by
    intro v hv
    rw [keyStream, List.take_take, hPlain, Nat.min_eq_left (by decide), List.take_succ_cons,
      List.take_left' hv]
  have hBoth := congrArg (List.take (ivSize + 1)) hStream
  rw [hTake iv hIv, hTake iv' hIv'] at hBoth
  exact (List.cons.inj hBoth).2

/-- A channel with the same IV for all transfers. -/
def zeroIvChannel : Channel where
  encrypt _ plain := (⟨plain.length, List.replicate 12 0, 1, List.replicate 16 0, 0⟩, plain)
  decrypt _ cipher := some cipher
  wellFormed _ _ h :=
    ⟨h, List.length_replicate, List.length_replicate, Nat.pow_pos (by decide)⟩
  meta_size _ _ := rfl
  cipher_length _ _ := rfl
  decrypt_encrypt _ _ := rfl

/-- The ciphers against which a run is held. -/
def testCiphers : Ciphers where
  gcm := streamGcm
  channel := zeroIvChannel
  strayIv _ := List.replicate ivSize 0
  strayTag _ := List.replicate tagSize 0
  strayIv_length := zeroIv_length
  strayTag_length := zeroTag_length

theorem buildIv_ne_zero (counter : Nat) : buildIv counter ≠ List.replicate ivSize 0 := by
  intro h
  have hHead := congrArg List.head? h
  simp [buildIv, ivSize, List.replicate_succ] at hHead

end Cipher

section Stored

theorem cpuPagesOf_code (residency : List Residency) :
    cpuPagesOf (residency.map Residency.code) = pagesOn residency .cpu := by
  rw [cpuPagesOf, pagesOn, List.length_map]
  refine List.filter_congr fun p _ => ?_
  rw [List.getElem?_map]
  cases residency[p]? with
  | none => rfl
  | some place => cases place <;> decide

theorem cpuPagesOf_eq_nil {resmap : Bytes} (h : ∀ b ∈ resmap, b = 1) : cpuPagesOf resmap = [] := by
  rw [cpuPagesOf, List.filter_eq_nil_iff]
  intro p _ hCode
  rw [decide_eq_true_eq] at hCode
  have hOne := h _ (List.mem_of_getElem? hCode)
  exact absurd hOne (by decide)

theorem entriesOf_encode {metas : List CryptoMeta} (h : ∀ m ∈ metas, m.WellFormed) :
    entriesOf (metas.flatMap CryptoMeta.encode) = metas := by
  have hLength : (metas.flatMap CryptoMeta.encode).length = metas.length * cryptoMetaSize :=
    flatMap_length_const fun m hm => CryptoMeta.encode_length (h m hm)
  rw [entriesOf, hLength, Nat.mul_div_cancel _ (by decide)]
  clear hLength
  induction metas with
  | nil => rfl
  | cons m rest ih =>
      have hHead := CryptoMeta.encode_length (h m List.mem_cons_self)
      rw [List.length_cons, List.range_succ_eq_map, List.map_cons, List.map_map, List.flatMap_cons]
      refine List.cons_eq_cons.mpr ⟨?_, ?_⟩
      · rw [Nat.zero_mul, List.drop_zero, List.take_left' hHead,
          CryptoMeta.parse_encode (h m List.mem_cons_self)]
      · refine Eq.trans (List.map_congr_left fun i _ => ?_)
          (ih fun m' hm' => h m' (List.mem_cons_of_mem m hm'))
        rw [Function.comp_apply, Nat.succ_mul, Nat.add_comm (i * cryptoMetaSize), ← List.drop_drop,
          List.drop_left' hHead]

theorem gpuOnly_iff (l : RangeLayout) : GpuOnly l ↔ pagesOn l.residency .cpu = [] := by
  rw [GpuOnly, ← List.length_eq_zero_iff, pagesOn_length, List.count_eq_zero]

/-- A page in the clear is not sealed. -/
theorem not_sealed_of_plain {key : Bytes} {memory : ByteImage.Image} {s : Sections} {k p : Nat}
    (hPage : (cpuPagesOf s.resmap)[k]? = some p)
    (hPlain : (s.cpu.drop (k * pageSize)).take pageSize =
      read memory (s.baseVa + p * pageSize) pageSize) :
    ¬ CpuSealed streamGcm key memory s := by
  intro h
  obtain ⟨m, -, hSeal⟩ := h.pages k p hPage
  rw [hPlain] at hSeal
  have hLength := read_length memory (s.baseVa + p * pageSize) pageSize
  generalize read memory (s.baseVa + p * pageSize) pageSize = plain at hSeal hLength
  have hPos : 0 < plain.length := by
    rw [hLength]
    decide
  exact streamGcm_ne key m.iv hPos (congrArg Prod.fst hSeal).symm

theorem sealed_of_noPages {gcm : Gcm} {key : Bytes} {memory : ByteImage.Image} {s : Sections}
    (hPages : cpuPagesOf s.resmap = []) (hCpu : s.cpu = []) : CpuSealed gcm key memory s where
  whole := by rw [hPages, hCpu]; rfl
  pages := by
    intro k p hk
    rw [hPages] at hk
    cases hk

/-- The sections of ioctl 115 are sealed exactly when no page lies on the CPU. -/
theorem capture_sealed_iff (key : Bytes) (memory : ByteImage.Image) (n : Nat)
    (layouts : List RangeLayout) :
    (∀ x : Ciphers, ∀ s ∈ capture x.channel memory n layouts, CpuSealed x.gcm key memory s) ↔
      ∀ l ∈ layouts, GpuOnly l := by
  constructor
  · intro h l hl
    rw [gpuOnly_iff]
    by_contra hSome
    obtain ⟨p, rest, hCons⟩ := List.exists_cons_of_ne_nil hSome
    have hZero : (pagesOn l.residency .cpu)[0]? = some p := by rw [hCons]; rfl
    obtain ⟨q, hq, rfl⟩ : ∃ q ∈ numbered n layouts, q.2 = l := by
      rw [← map_snd_numbered n layouts, List.mem_map] at hl
      exact hl
    have hSealed := h testCiphers (q.2.sections zeroIvChannel memory q.1) (by
      rw [capture_eq_map]
      exact List.mem_map_of_mem hq)
    have hPage : (cpuPagesOf (q.2.sections zeroIvChannel memory q.1).resmap)[0]? = some p := by
      rw [RangeLayout.sections, cpuPagesOf_code]
      exact hZero
    exact not_sealed_of_plain hPage (packed_page memory q.2.base hZero) hSealed
  · intro h x s hs
    rw [capture_eq_map, List.mem_map] at hs
    obtain ⟨q, hq, rfl⟩ := hs
    have hNone := (gpuOnly_iff q.2).mp (h q.2 (by
      rw [← map_snd_numbered n layouts]
      exact List.mem_map_of_mem hq))
    refine sealed_of_noPages ?_ ?_
    · rw [RangeLayout.sections, cpuPagesOf_code, hNone]
    · rw [RangeLayout.sections, hNone]
      rfl

end Stored

section Batch

/-- The pages of a batch in the buffer that is scattered. -/
theorem batch_page (gcm : Gcm) (key plain : Bytes) {pages q : Nat}
    (hPages : pages * pageSize ≤ plain.length) :
    ((((List.range pages).map fun page => (⟨page, key, buildIv (0 + page),
        (plain.drop (page * pageSize)).take pageSize⟩ : Handed)).flatMap
          (fun h => (gcm.encrypt h.key h.iv h.plain).1) ++ plain.drop (pages * pageSize)).drop
            (q * pageSize)).take pageSize =
      if q < pages then
        (gcm.encrypt key (buildIv q) ((plain.drop (q * pageSize)).take pageSize)).1
      else (plain.drop (q * pageSize)).take pageSize := by
  have hSize : ∀ page ∈ List.range pages, (gcm.encrypt key (buildIv (0 + page))
      ((plain.drop (page * pageSize)).take pageSize)).1.length = pageSize := by
    intro page hPage
    have hLess := Nat.mul_le_mul_right pageSize (List.mem_range.mp hPage)
    rw [Nat.succ_mul] at hLess
    rw [gcm.cipher_length, List.length_take, List.length_drop]
    omega
  rw [List.flatMap_map]
  split
  · rename_i hLess
    rw [flatMap_block hSize (by rw [List.getElem?_range hLess]), Nat.zero_add]
  · rename_i hBehind
    have hMul := Nat.mul_le_mul_right pageSize (Nat.le_of_not_lt hBehind)
    have hLength := flatMap_length_const hSize
    rw [List.length_range] at hLength
    obtain ⟨rest, hRest⟩ := Nat.exists_eq_add_of_le hMul
    rw [hRest, ← List.drop_drop, List.drop_left' hLength, List.drop_drop]

variable (memory : ByteImage.Image) (n : Nat)

theorem part_length (kind : BatchKind) (m : Nat) (l : RangeLayout) :
    (kind.part (captureRangeEncrypted x memory m l)).length = kind.pages l * pageSize := by
  have hCpu := packed_length memory l.base (pagesOn l.residency .cpu)
  have hGpu : ((l.pieces memory m).flatMap (pieceCipher x.channel)).length =
      (pagesOn l.residency .gpu).length * pageSize := l.gpu_length x.channel memory m
  cases kind with
  | captures chunkSize =>
      rw [BatchKind.part, BatchKind.gathered, List.map_singleton, List.flatten_singleton,
        List.length_append, BatchKind.pages, Nat.add_mul, ← hCpu, ← hGpu]
      rfl
  | cpuPages =>
      rw [BatchKind.part, BatchKind.gathered, List.map_singleton, List.flatten_singleton,
        BatchKind.pages, ← hCpu]
      rfl

/-- What is counted of the captures is counted of their ranges. -/
theorem captureAll_map {β : Type} {g : RangeCapture → β} {g' : RangeLayout → β}
    (h : ∀ m l, g (captureRangeEncrypted x memory m l) = g' l) (layouts : List RangeLayout)
    (j : Nat) : ((captureAll x memory n layouts).take j).map g = (layouts.take j).map g' := by
  rw [← map_snd_numbered n layouts, captureAll, ← List.map_take, ← List.map_take, List.map_map,
    List.map_map]
  rw [map_snd_numbered]
  exact List.map_congr_left fun p _ => h p.1 p.2

theorem numbered_getElem? {layouts : List RangeLayout} {j : Nat} {l : RangeLayout}
    (h : layouts[j]? = some l) : ∃ m, (numbered n layouts)[j]? = some (m, l) := by
  rw [← map_snd_numbered n layouts, List.getElem?_map, Option.map_eq_some_iff] at h
  obtain ⟨⟨m, l'⟩, hNumbered, rfl⟩ := h
  exact ⟨m, hNumbered⟩

theorem captureAll_length (layouts : List RangeLayout) :
    (captureAll x memory n layouts).length = layouts.length := by
  rw [captureAll, List.length_map, ← List.length_map (f := Prod.snd), map_snd_numbered]

theorem gathered_length (kind : BatchKind) (layouts : List RangeLayout) :
    (kind.gathered ((captureAll x memory n layouts).map RangeCapture.bufs)).length =
      (layouts.map kind.pages).sum * pageSize := by
  have hMap := captureAll_map x memory n (g := fun c => (kind.part c).length)
    (fun m l => part_length x memory kind m l) layouts layouts.length
  have hCount := captureAll_length x memory n layouts
  rw [List.take_length, ← hCount, List.take_length] at hMap
  rw [gathered_eq_flatMap, List.length_flatMap, hMap]
  exact SizeCut.total_mul kind.pages layouts pageSize

/-- A CPU page of a captured range, in the bytes the batch gathers. -/
theorem gathered_page (kind : BatchKind) {layouts : List RangeLayout} {j k p : Nat}
    {l : RangeLayout} (hRange : layouts[j]? = some l)
    (hPage : (pagesOn l.residency .cpu)[k]? = some p) :
    ((kind.gathered ((captureAll x memory n layouts).map RangeCapture.bufs)).drop
        ((((layouts.take j).map kind.pages).sum + k) * pageSize)).take pageSize =
      read memory (l.base + p * pageSize) pageSize := by
  obtain ⟨m, hNumbered⟩ := numbered_getElem? n hRange
  have hCap : (captureAll x memory n layouts)[j]? = some (captureRangeEncrypted x memory m l) := by
    rw [captureAll, List.getElem?_map, hNumbered, Option.map_some]
  obtain ⟨hLess, hAt⟩ := List.getElem?_eq_some_iff.mp hCap
  have hSplit : captureAll x memory n layouts = (captureAll x memory n layouts).take j ++
      captureRangeEncrypted x memory m l :: (captureAll x memory n layouts).drop (j + 1) := by
    rw [← hAt, List.getElem_cons_drop, List.take_append_drop]
  have hFront : (((captureAll x memory n layouts).take j).flatMap kind.part).length =
      ((layouts.take j).map kind.pages).sum * pageSize := by
    rw [List.length_flatMap, captureAll_map x memory n (g := fun c => (kind.part c).length)
      (fun m l => part_length x memory kind m l) layouts j]
    exact SizeCut.total_mul kind.pages _ pageSize
  obtain ⟨behind, hPart⟩ := part_eq kind (captureRangeEncrypted x memory m l)
  rw [gathered_eq_flatMap, hSplit, List.flatMap_append, List.flatMap_cons, Nat.add_mul,
    ← List.drop_drop, List.drop_left' hFront, hPart, List.append_assoc]
  exact flatMap_block (f := fun p => read memory (l.base + p * pageSize) pageSize)
    (fun _ _ => read_length _ _ _) hPage _

theorem sum_mod_add {α : Type} (f : α → Nat) (l : List α) (p m : Nat) :
    ((l.map fun a => f a % m).sum + p) % m = ((l.map f).sum + p) % m := by
  induction l generalizing p with
  | nil => rfl
  | cons a rest ih =>
      rw [List.map_cons, List.map_cons, List.sum_cons, List.sum_cons,
        show f a % m + (rest.map fun a => f a % m).sum + p =
          (rest.map fun a => f a % m).sum + (f a % m + p) by omega, ih,
        show (rest.map f).sum + (f a % m + p) = f a % m + ((rest.map f).sum + p) by omega,
        Nat.mod_add_mod]
      congr 1
      omega

/-- The pages of a batch as they are handed out. -/
def batchHanded (key plain : Bytes) (pages : Nat) : List Handed :=
  (List.range pages).map fun page =>
    ⟨page, key, buildIv (0 + page), (plain.drop (page * pageSize)).take pageSize⟩

theorem copiedMeta_iv (chunk : Nat) (key plain : Bytes) (pages j : Nat) :
    (copiedMeta x chunk (batchHanded key plain pages) j).iv =
      if j < pages then buildIv j else x.strayIv j := by
  rw [copiedMeta, batchHanded, List.getElem?_map]
  split
  · rename_i h hj
    rw [Option.map_eq_some_iff] at hj
    obtain ⟨page, hPage, rfl⟩ := hj
    obtain ⟨hLess, hAt⟩ := List.getElem?_eq_some_iff.mp hPage
    rw [List.length_range] at hLess
    rw [List.getElem_range] at hAt
    rw [if_pos hLess, ← hAt, Nat.zero_add]
  · rename_i hNone
    rw [Option.map_eq_none_iff, List.getElem?_eq_none_iff, List.length_range] at hNone
    rw [if_neg (Nat.not_lt.mpr hNone)]

theorem copiedMeta_tag (chunk : Nat) (key plain : Bytes) {pages j : Nat} (h : j < pages) :
    (copiedMeta x chunk (batchHanded key plain pages) j).authTag =
      (x.gcm.encrypt key (buildIv j) ((plain.drop (j * pageSize)).take pageSize)).2 := by
  rw [copiedMeta, batchHanded, List.getElem?_map, List.getElem?_range h, Option.map_some,
    Nat.zero_add]

/-- A captured range behind a batch of some pages, `before` of them in front of it. -/
structure Batched (key plain : Bytes) (kind : BatchKind) (pages before : Nat) (allocOk : Bool)
    (l : RangeLayout) (c : RangeCapture) : Prop where
  layout : c.layout = l
  length : c.cpuBuf.length = (pagesOn l.residency .cpu).length * pageSize
  page : ∀ k p, (pagesOn l.residency .cpu)[k]? = some p →
    (c.cpuBuf.drop (k * pageSize)).take pageSize =
      if before + k < pages then
        (x.gcm.encrypt key (buildIv (before + k))
          (read memory (l.base + p * pageSize) pageSize)).1
      else read memory (l.base + p * pageSize) pageSize
  fresh : allocOk = true → ∀ e < kind.pages l % 2 ^ 32,
    copiedMeta x kind.chunk (batchHanded key plain pages) ((before + e) % 2 ^ 32) ∈ c.metas
  metas : ∀ m ∈ c.metas, (∃ i, m ∈ (l.pieces memory i).map (pieceMeta x.channel)) ∨
    (allocOk = true ∧ ∃ e < kind.pages l % 2 ^ 32,
      m = copiedMeta x kind.chunk (batchHanded key plain pages) ((before + e) % 2 ^ 32))

theorem sum_take_add_le {α : Type} (f : α → Nat) {l : List α} {j : Nat} {a : α}
    (h : l[j]? = some a) : ((l.take j).map f).sum + f a ≤ (l.map f).sum := by
  induction l generalizing j with
  | nil => cases h
  | cons b rest ih =>
      cases j with
      | zero =>
          rw [List.getElem?_cons_zero, Option.some.injEq] at h
          simp [h]
      | succ j =>
          rw [List.getElem?_cons_succ] at h
          have hRest := ih h
          rw [List.take_succ_cons, List.map_cons, List.map_cons, List.sum_cons, List.sum_cons]
          omega

theorem take_drop_take {L : Bytes} {size a b : Nat} (h : a + b ≤ size) :
    ((L.take size).drop a).take b = (L.drop a).take b := by
  rw [List.drop_take, List.take_take, Nat.min_eq_left (by omega)]

theorem batchBuffer_length (key plain : Bytes) {pages : Nat}
    (hFits : pages * pageSize ≤ plain.length) :
    ((batchHanded key plain pages).flatMap (fun h => (x.gcm.encrypt h.key h.iv h.plain).1) ++
      plain.drop (pages * pageSize)).length = plain.length := by
  have hCipher : ((batchHanded key plain pages).flatMap
      fun h => (x.gcm.encrypt h.key h.iv h.plain).1).length =
        (batchHanded key plain pages).length * pageSize := by
    refine flatMap_length_const fun h hh => ?_
    obtain ⟨page, hPage, rfl⟩ := List.mem_map.mp hh
    have hLess := Nat.mul_le_mul_right pageSize (List.mem_range.mp hPage)
    rw [Nat.succ_mul] at hLess
    rw [x.gcm.cipher_length, List.length_take, List.length_drop]
    omega
  rw [List.length_append, hCipher, batchHanded, List.length_map, List.length_range,
    List.length_drop]
  omega

theorem batched_store (key : Bytes) {plain : Bytes} {kind : BatchKind} {pages before m : Nat}
    {allocOk : Bool} {l : RangeLayout} (hFits : pages * pageSize ≤ plain.length)
    (hRoom : before * pageSize + kind.pages l * pageSize ≤ plain.length)
    (hPlain : ∀ k p, (pagesOn l.residency .cpu)[k]? = some p →
      (plain.drop ((before + k) * pageSize)).take pageSize =
        read memory (l.base + p * pageSize) pageSize) :
    Batched x memory key plain kind pages before allocOk l
      (kind.store (captureRangeEncrypted x memory m l)
        (((batchHanded key plain pages).flatMap (fun h => (x.gcm.encrypt h.key h.iv h.plain).1) ++
          plain.drop (pages * pageSize)).drop (before * pageSize))
        ((List.range (kind.pages l % 2 ^ 32)).map fun p =>
          copiedMeta x kind.chunk (batchHanded key plain pages) ((before + p) % 2 ^ 32)) allocOk) := by
  have hCpu : (captureRangeEncrypted x memory m l).cpuBuf.length =
      (pagesOn l.residency .cpu).length * pageSize := packed_length memory _ _
  have hPart : (pagesOn l.residency .cpu).length ≤ kind.pages l := by
    cases kind <;> simp [BatchKind.pages]
  have hPart := Nat.mul_le_mul_right pageSize hPart
  have hBuffer := batchBuffer_length x key plain hFits
  obtain ⟨hLayout, hBuf⟩ := store_cpu kind (captureRangeEncrypted x memory m l)
    (((batchHanded key plain pages).flatMap (fun h => (x.gcm.encrypt h.key h.iv h.plain).1) ++
      plain.drop (pages * pageSize)).drop (before * pageSize))
    ((List.range (kind.pages l % 2 ^ 32)).map fun p =>
      copiedMeta x kind.chunk (batchHanded key plain pages) ((before + p) % 2 ^ 32)) allocOk
  refine ⟨hLayout, ?_, ?_, ?_, ?_⟩
  · rw [hBuf, List.length_take, List.length_drop, hBuffer, hCpu]
    omega
  · intro k p hPage
    have hLess := (List.getElem?_eq_some_iff.mp hPage).1
    have hEnd := Nat.mul_le_mul_right pageSize hLess
    rw [Nat.succ_mul] at hEnd
    rw [hBuf, hCpu, take_drop_take hEnd, List.drop_drop, ← Nat.add_mul, ← hPlain k p hPage]
    exact batch_page x.gcm key plain hFits
  · intro hOk e he
    exact store_metas.1 hOk _ (List.mem_map_of_mem (List.mem_range.mpr he))
  · intro entry hEntry
    rcases store_metas.2 entry hEntry with hOld | ⟨hOk, hFresh⟩
    · exact .inl ⟨m, hOld⟩
    · obtain ⟨e, he, rfl⟩ := List.mem_map.mp hFresh
      exact .inr ⟨hOk, e, List.mem_range.mp he, rfl⟩

/-- The captures behind a batch that succeeds. -/
theorem encryptCaptures_batched {kind : BatchKind} (hChunk : kind.chunk = pageSize)
    (key : Bytes) {env : BatchEnv} (hOk : env.outcome = .ok) {layouts : List RangeLayout}
    (hPages : (layouts.map kind.pages).sum % 2 ^ 32 ≠ 0) :
    ∃ after, encryptCaptures x kind key env (captureAll x memory n layouts) = some after ∧
      after.length = layouts.length ∧
      ∀ j l, layouts[j]? = some l → ∃ c, after[j]? = some c ∧
        Batched x memory key (kind.gathered ((captureAll x memory n layouts).map
          RangeCapture.bufs)) kind ((layouts.map kind.pages).sum % 2 ^ 32)
          ((layouts.take j).map kind.pages).sum (env.allocOk j) l c := by
  have hLength := gathered_length x memory n kind layouts
  have hTotal : totalPages (kind.gathered ((captureAll x memory n layouts).map
      RangeCapture.bufs)).length kind.chunk = (layouts.map kind.pages).sum % 2 ^ 32 := by
    rw [totalPages, hLength, hChunk, Nat.mul_div_cancel _ (by decide)]
  have hParts : ∀ m l, totalPages (kind.part (captureRangeEncrypted x memory m l)).length
      kind.chunk = kind.pages l % 2 ^ 32 := by
    intro m l
    rw [totalPages, part_length, hChunk, Nat.mul_div_cancel _ (by decide)]
  have hFits : (layouts.map kind.pages).sum % 2 ^ 32 * pageSize ≤
      (kind.gathered ((captureAll x memory n layouts).map RangeCapture.bufs)).length := by
    rw [hLength]
    exact Nat.mul_le_mul_right _ (Nat.mod_le _ _)
  have hPlainPage : ∀ j l k p, layouts[j]? = some l → (pagesOn l.residency .cpu)[k]? = some p →
      ((kind.gathered ((captureAll x memory n layouts).map RangeCapture.bufs)).drop
        ((((layouts.take j).map kind.pages).sum + k) * pageSize)).take pageSize =
          read memory (l.base + p * pageSize) pageSize :=
    fun j l k p hRange hPage => gathered_page x memory n kind hRange hPage
  have hCall : encryptCaptures x kind key env (captureAll x memory n layouts) =
      (let plain := kind.gathered ((captureAll x memory n layouts).map RangeCapture.bufs)
      let handed := batchHanded key plain ((layouts.map kind.pages).sum % 2 ^ 32)
      some (scatter x kind handed env.allocOk 0 0
        (handed.flatMap (fun h => (x.gcm.encrypt h.key h.iv h.plain).1) ++
          plain.drop ((layouts.map kind.pages).sum % 2 ^ 32 * pageSize))
        (captureAll x memory n layouts))) := by
    simp only [encryptCaptures, hTotal, if_neg hPages, hOk, encryptPages_eq]
    simp only [hChunk]
    rfl
  dsimp only at hCall
  generalize kind.gathered ((captureAll x memory n layouts).map RangeCapture.bufs) = plain at *
  generalize (layouts.map kind.pages).sum % 2 ^ 32 = pages at *
  refine ⟨scatter x kind (batchHanded key plain pages) env.allocOk 0 0
    ((batchHanded key plain pages).flatMap (fun h => (x.gcm.encrypt h.key h.iv h.plain).1) ++
      plain.drop (pages * pageSize)) (captureAll x memory n layouts), hCall, ?_, ?_⟩
  · rw [scatter_length, captureAll_length]
  · intro j l hRange
    obtain ⟨m, hNumbered⟩ := numbered_getElem? n hRange
    have hCap : (captureAll x memory n layouts)[j]? =
        some (captureRangeEncrypted x memory m l) := by
      rw [captureAll, List.getElem?_map, hNumbered, Option.map_some]
    have hFront : (((captureAll x memory n layouts).take j).map
        fun c => (kind.part c).length).sum = ((layouts.take j).map kind.pages).sum * pageSize := by
      rw [captureAll_map x memory n (g := fun c => (kind.part c).length)
        (fun m l => part_length x memory kind m l) layouts j]
      exact SizeCut.total_mul kind.pages _ pageSize
    have hMetas : (((captureAll x memory n layouts).take j).map
        fun c => totalPages (kind.part c).length kind.chunk) =
          (layouts.take j).map fun l => kind.pages l % 2 ^ 32 :=
      captureAll_map x memory n (g := fun c => totalPages (kind.part c).length kind.chunk)
        hParts layouts j
    rw [scatter_getElem?, hCap, Option.map_some]
    refine ⟨_, rfl, ?_⟩
    rw [hFront, hMetas, hParts]
    simp only [Nat.zero_add, sum_mod_add]
    have hRoom := sum_take_add_le kind.pages hRange
    exact batched_store x memory key hFits (by
      rw [hLength, ← Nat.add_mul]
      exact Nat.mul_le_mul_right _ hRoom) (fun k p => hPlainPage j l k p hRange)

section Sealed

variable {x memory} {key plain : Bytes} {kind : BatchKind} {pages before : Nat} {allocOk : Bool}
  {l : RangeLayout} {c : RangeCapture}

theorem Batched.entries (h : Batched x memory key plain kind pages before allocOk l c) :
    entriesOf c.sections.cryptoMeta = c.metas := by
  refine entriesOf_encode fun m hm => ?_
  rcases h.metas m hm with ⟨i, hOld⟩ | ⟨-, e, -, rfl⟩
  · obtain ⟨piece, hPiece, rfl⟩ := List.mem_map.mp hOld
    have hSize := (RangeLayout.piece_size memory hPiece).2
    exact x.channel.wellFormed _ _ (Nat.lt_of_le_of_lt hSize (by decide))
  · refine copiedMeta_wellFormed x _ _ (fun handed hh => ?_) _
    obtain ⟨page, -, rfl⟩ := List.mem_map.mp hh
    exact buildIv_length _

theorem Batched.cpuPages (h : Batched x memory key plain kind pages before allocOk l c) :
    cpuPagesOf c.sections.resmap = pagesOn l.residency .cpu := by
  rw [RangeCapture.sections, h.layout, cpuPagesOf_code]

/-- The pages of a range that the batch reaches are sealed. -/
theorem Batched.seals (h : Batched x memory key plain kind pages before allocOk l c)
    (hPages : pages < 2 ^ 32)
    (hPlain : ∀ k p, (pagesOn l.residency .cpu)[k]? = some p →
      (plain.drop ((before + k) * pageSize)).take pageSize =
        read memory (l.base + p * pageSize) pageSize)
    (hReach : ∀ k < (pagesOn l.residency .cpu).length,
      before + k < pages ∧ k < kind.pages l % 2 ^ 32 ∧ allocOk = true) :
    CpuSealed x.gcm key memory c.sections where
  whole := by
    rw [h.cpuPages]
    exact h.length
  pages := by
    intro k p hPage
    rw [h.cpuPages] at hPage
    obtain ⟨hCounted, hFresh, hOk⟩ := hReach k (List.getElem?_eq_some_iff.mp hPage).1
    have hMem := h.fresh hOk k hFresh
    rw [Nat.mod_eq_of_lt (Nat.lt_trans hCounted hPages)] at hMem
    refine ⟨_, by rw [h.entries]; exact hMem, ?_⟩
    rw [copiedMeta_iv, if_pos hCounted, copiedMeta_tag x _ key plain hCounted, hPlain k p hPage,
      show c.sections.baseVa = l.base from congrArg RangeLayout.base h.layout]
    exact Prod.ext ((h.page k p hPage).trans (if_pos hCounted)) rfl

/-- With the test ciphers only the pages that the batch reaches are sealed. -/
theorem Batched.reaches (h : Batched testCiphers memory key plain kind pages before allocOk l c)
    (hPages : pages < 2 ^ 32) (hSealed : CpuSealed streamGcm key memory c.sections) :
    ∀ k < (pagesOn l.residency .cpu).length,
      before + k < pages ∧ k < kind.pages l % 2 ^ 32 ∧ allocOk = true := by
  intro k hk
  have hPage : (pagesOn l.residency .cpu)[k]? = some (pagesOn l.residency .cpu)[k] :=
    List.getElem?_eq_getElem hk
  have hBase : c.sections.baseVa = l.base := congrArg RangeLayout.base h.layout
  have hCell := h.page k _ hPage
  have hStored : (cpuPagesOf c.sections.resmap)[k]? = some (pagesOn l.residency .cpu)[k] := by
    rw [h.cpuPages]
    exact hPage
  have hCounted : before + k < pages := by
    by_contra hNot
    rw [if_neg hNot, ← hBase] at hCell
    exact not_sealed_of_plain hStored hCell hSealed
  obtain ⟨m, hm, hSeal⟩ := hSealed.pages k _ hStored
  rw [h.entries] at hm
  rw [if_pos hCounted] at hCell
  rw [hBase] at hSeal
  have hLength := read_length memory (l.base + (pagesOn l.residency .cpu)[k] * pageSize) pageSize
  have hSame := (hCell.symm.trans (congrArg Prod.fst hSeal))
  generalize read memory (l.base + (pagesOn l.residency .cpu)[k] * pageSize) pageSize = page
    at hSame hLength
  rcases h.metas m hm with ⟨i, hOld⟩ | ⟨hOk, e, he, rfl⟩
  · obtain ⟨piece, -, rfl⟩ := List.mem_map.mp hOld
    exact absurd (streamGcm_iv (buildIv_length _) List.length_replicate hLength hSame)
      (buildIv_ne_zero _)
  · rw [copiedMeta_iv] at hSame
    split at hSame
    · have hIv := buildIv_injective (by omega) (by omega)
        (streamGcm_iv (buildIv_length _) (buildIv_length _) hLength hSame)
      have hMod := Nat.mod_lt (kind.pages l) (Nat.two_pow_pos 32)
      exact ⟨hCounted, by omega, hOk⟩
    · exact absurd (streamGcm_iv (buildIv_length _) List.length_replicate hLength hSame)
        (buildIv_ne_zero _)

end Sealed

theorem captureAll_sections (layouts : List RangeLayout) :
    (captureAll x memory n layouts).map RangeCapture.sections =
      capture x.channel memory n layouts := by
  rw [captureAll, capture_eq_map, List.map_map]
  refine List.map_congr_left fun p _ => ?_
  simp only [Function.comp_apply, RangeCapture.sections, captureRangeEncrypted,
    RangeLayout.sections, List.flatMap_map]
  rfl

theorem reaches_none_iff {kind : BatchKind} {allocOk : Nat → Bool} {layouts : List RangeLayout}
    (hNone : (layouts.map kind.pages).sum % 2 ^ 32 = 0) :
    kind.Reaches allocOk layouts ↔ ∀ l ∈ layouts, GpuOnly l := by
  constructor
  · intro h l hl
    obtain ⟨i, hi⟩ := List.getElem?_of_mem hl
    rw [gpuOnly_iff, List.eq_nil_iff_length_eq_zero]
    by_contra hPos
    have hReach := (h i l hi 0 (Nat.pos_of_ne_zero hPos)).1
    rw [hNone] at hReach
    exact Nat.not_lt_zero _ hReach
  · intro h i l hi k hk
    rw [(gpuOnly_iff l).mp (h l (List.mem_of_getElem? hi))] at hk
    exact absurd hk (Nat.not_lt_zero k)

/-- What a stun copy writes. -/
theorem stun_sealed_iff {kind : BatchKind} (hChunk : kind.chunk = pageSize) (key : Bytes)
    (env : BatchEnv) (layouts : List RangeLayout) :
    (∀ x : Ciphers, ∀ s ∈ ((encryptCaptures x kind key env
        (captureAll x memory n layouts)).getD []).map RangeCapture.sections,
        CpuSealed x.gcm key memory s) ↔
      (env.outcome = .ok ∨ (layouts.map kind.pages).sum % 2 ^ 32 = 0 →
        kind.Reaches env.allocOk layouts) := by
  by_cases hNone : (layouts.map kind.pages).sum % 2 ^ 32 = 0
  · have hCall : ∀ x : Ciphers, encryptCaptures x kind key env (captureAll x memory n layouts) =
        some (captureAll x memory n layouts) := by
      intro x
      have hTotal : totalPages (kind.gathered ((captureAll x memory n layouts).map
          RangeCapture.bufs)).length kind.chunk = 0 := by
        rw [totalPages, gathered_length, hChunk, Nat.mul_div_cancel _ (by decide), hNone]
      simp only [encryptCaptures, hTotal, if_true]
    simp only [hCall, Option.getD_some, captureAll_sections, hNone, or_true, true_implies]
    rw [capture_sealed_iff, reaches_none_iff hNone]
  · have hPages := Nat.mod_lt (layouts.map kind.pages).sum (Nat.two_pow_pos 32)
    by_cases hOk : env.outcome = .ok
    · constructor
      · intro h _ i l hi
        obtain ⟨after, hCall, -, hAfter⟩ :=
          encryptCaptures_batched testCiphers memory n hChunk key hOk hNone
        obtain ⟨c, hc, hBatched⟩ := hAfter i l hi
        refine hBatched.reaches hPages (h testCiphers c.sections ?_)
        rw [hCall, Option.getD_some]
        exact List.mem_map_of_mem (List.mem_of_getElem? hc)
      · intro h x s hs
        obtain ⟨after, hCall, hLength, hAfter⟩ :=
          encryptCaptures_batched x memory n hChunk key hOk hNone
        rw [hCall, Option.getD_some] at hs
        obtain ⟨c, hc, rfl⟩ := List.mem_map.mp hs
        obtain ⟨j, hj⟩ := List.getElem?_of_mem hc
        have hLess := (List.getElem?_eq_some_iff.mp hj).1
        rw [hLength] at hLess
        have hRange := List.getElem?_eq_getElem hLess
        obtain ⟨c', hc', hBatched⟩ := hAfter j _ hRange
        rw [hj, Option.some.injEq] at hc'
        subst hc'
        exact hBatched.seals hPages (fun k p => gathered_page x memory n kind hRange)
          (h (.inl hOk) j _ hRange)
    · refine ⟨fun _ hSome => ?_, fun _ x s hs => ?_⟩
      · rcases hSome with hOk' | hNone'
        · exact absurd hOk' hOk
        · exact absurd hNone' hNone
      · have hTotal : totalPages (kind.gathered ((captureAll x memory n layouts).map
            RangeCapture.bufs)).length kind.chunk ≠ 0 := by
          rw [totalPages, gathered_length, hChunk, Nat.mul_div_cancel _ (by decide)]
          exact hNone
        have hCall : encryptCaptures x kind key env (captureAll x memory n layouts) = none := by
          simp only [encryptCaptures, if_neg hTotal]
        rw [hCall] at hs
        cases hs

end Batch

/-- The runs of a span have a CPU page exactly when the span has one. -/
theorem runs_gpuOnly_iff (d : DeltaSpan) {regions : List RangeLayout}
    (hRuns : (presentRuns 0 d.span.residency).map
        (fun r => (d.span.base + r.1 * pageSize, r.2)) =
      regions.map fun l => (l.base, l.residency)) :
    (∀ l ∈ regions, GpuOnly l) ↔ GpuOnly d.span := by
  have hSame : regions.map RangeLayout.residency =
      (presentRuns 0 d.span.residency).map Prod.snd := by
    have hSnd := congrArg (List.map Prod.snd) hRuns
    rw [List.map_map, List.map_map] at hSnd
    exact hSnd.symm
  have hAll : (∀ l ∈ regions, GpuOnly l) ↔
      ∀ run ∈ presentRuns 0 d.span.residency, Residency.cpu ∉ run.2 := by
    have hMap : (∀ l ∈ regions, GpuOnly l) ↔
        ∀ r ∈ regions.map RangeLayout.residency, Residency.cpu ∉ r := by
      simp [GpuOnly]
    rw [hMap, hSame, List.forall_mem_map]
  rw [hAll]
  constructor
  · intro h hCpu
    obtain ⟨i, hi⟩ := List.getElem?_of_mem hCpu
    obtain ⟨run, hRun, hLow, hHigh⟩ := exists_presentRun 0 hi (by decide)
    rw [Nat.zero_add] at hLow hHigh
    have hAt := (presentRuns_isRun 0 _ run hRun).same (i - run.1) (by omega)
    rw [Nat.sub_zero, Nat.add_sub_cancel' hLow, hi] at hAt
    exact h run hRun (List.mem_of_getElem? hAt.symm)
  · intro h run hRun hCpu
    obtain ⟨i, hi⟩ := List.getElem?_of_mem hCpu
    have hAt := (presentRuns_isRun 0 _ run hRun).same i (List.getElem?_eq_some_iff.mp hi).1
    rw [hi] at hAt
    exact h (List.mem_of_getElem? hAt)

namespace EncryptedRun

variable (r : EncryptedRun)

theorem stunKind_chunk : r.stunKind.chunk = pageSize := by
  unfold stunKind
  split <;> rfl

theorem writtenBase_sealed_iff :
    (∀ x : Ciphers, ∀ s ∈ r.writtenBase x, CpuSealed x.gcm r.key r.baseMemory s) ↔
      (r.options.coalesce = false → ∀ l ∈ r.baseRanges, GpuOnly l) := by
  cases hCoalesce : r.options.coalesce with
  | false =>
      simp only [writtenBase, hCoalesce, Bool.false_eq_true, if_false, true_implies]
      exact capture_sealed_iff r.key r.baseMemory r.firstTransfer r.baseRanges
  | true =>
      refine ⟨fun _ h => (by cases h), fun _ x s hs => ?_⟩
      simp only [writtenBase, hCoalesce, if_true] at hs
      split at hs
      · cases hs
      · rename_i span ranges _
        cases hSlices : coalescedRanges span.base
            (readSpan x.channel r.baseMemory r.firstTransfer span) ranges with
        | none =>
            rw [hSlices] at hs
            cases hs
        | some written =>
            rw [hSlices, Option.getD_some] at hs
            obtain ⟨hCpu, hResmap⟩ := sliceRanges_cpu hSlices s hs
            exact sealed_of_noPages (cpuPagesOf_eq_nil hResmap) hCpu

theorem writtenDelta_sealed_iff :
    (∀ x : Ciphers, ∀ s ∈ r.writtenDelta x, CpuSealed x.gcm r.key r.deltaMemory s) ↔
      (r.options.deltaLegacy = true → ∀ l ∈ r.deltaRegions, GpuOnly l) ∧
        (r.options.deltaLegacy = false → ∀ d, r.deltaSpan = some d → GpuOnly d.span) := by
  cases hLegacy : r.options.deltaLegacy with
  | true =>
      simp only [writtenDelta, hLegacy, if_true, true_implies, Bool.true_eq_false, false_implies,
        and_true]
      exact capture_sealed_iff r.key r.deltaMemory r.deltaTransfer r.deltaRegions
  | false =>
      simp only [writtenDelta, hLegacy, Bool.false_eq_true, if_false, true_implies, false_implies,
        true_and]
      cases hSpan : r.deltaSpan with
      | none => simp
      | some d =>
          obtain ⟨regions, hRuns, hFused⟩ := fusedRegions_eq d.span d.aligned
          simp only [hFused, Option.getD_some, Option.some.injEq, forall_eq']
          rw [capture_sealed_iff, runs_gpuOnly_iff d hRuns]

end EncryptedRun

/-- A streamed base of one range with one page, which lies on the CPU. -/
def cpuPageRun : EncryptedRun where
  options := { useEncryptedIoctl := true }
  encrypted := rfl
  key := List.replicate 32 7
  baseMemory := fun _ => 5
  deltaMemory := fun _ => 5
  firstTransfer := 0
  deltaTransfer := 0
  dynamic := []
  batch := ⟨0, 1, .ok, fun _ => true⟩
  baseSpan := none
  baseRanges := [⟨0, [.cpu], [], fun t ht => (by cases ht), rfl⟩]
  deltaSpan := none
  deltaRegions := []

end FlashCkpt.Core
