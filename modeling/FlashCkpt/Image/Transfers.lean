import FlashCkpt.Image.Captured
import FlashCkpt.Library.SizeCut

/-! The transfers of a captured range, as the driver hands them over and as the
readers decrypt them again. -/
namespace FlashCkpt.Image

open ByteImage SizeCut Crypto

variable (channel : Channel)

/-- The metadata and the ciphertext of a list of transfers. -/
def pieceMeta (p : Nat × Bytes) : CryptoMeta := (channel.encrypt p.1 p.2).1
def pieceCipher (p : Nat × Bytes) : Bytes := (channel.encrypt p.1 p.2).2
def pieceSize (p : Nat × Bytes) : Nat := p.2.length

theorem readMetas_eq {data : ByteImage.Image} {metas : List CryptoMeta}
    (hFormed : ∀ m ∈ metas, m.WellFormed) {off : Nat}
    (h : read data off (metas.length * cryptoMetaSize) = metas.flatMap CryptoMeta.encode) :
    readMetas data off metas.length = metas := by
  induction metas generalizing off with
  | nil => rfl
  | cons m rest ih =>
      have hHead := hFormed m List.mem_cons_self
      rw [List.length_cons, Nat.succ_mul, Nat.add_comm, read_append, List.flatMap_cons] at h
      obtain ⟨hFirst, hRest⟩ := List.append_inj h
        (by rw [read_length, CryptoMeta.encode_length hHead])
      have hTail := ih (fun m' hm' => hFormed m' (List.mem_cons_of_mem m hm')) hRest
      rw [readMetas, List.length_cons, List.range_succ_eq_map, List.map_cons, List.map_map]
      refine List.cons_eq_cons.mpr ⟨?_, ?_⟩
      · rw [Nat.zero_mul, Nat.add_zero, hFirst, CryptoMeta.parse_encode hHead]
      · refine Eq.trans (List.map_congr_left ?_) hTail
        intro i _
        rw [Function.comp_apply, Nat.succ_mul, Nat.add_comm (i * cryptoMetaSize), Nat.add_assoc]

/-- The transfers that follow each other in the ciphertext decrypt to their
plaintexts. -/
theorem decryptTransfers_eq {data : ByteImage.Image} {cipherBuf bound : Nat}
    {pieces : List (Nat × Bytes)}
    (hSize : ∀ p ∈ pieces, 0 < p.2.length ∧ p.2.length ≤ dmaBufferSize) {cipherOff : Nat}
    (hBound : cipherOff + total pieceSize pieces ≤ bound)
    (h : read data (cipherBuf + cipherOff) (total pieceSize pieces) =
      pieces.flatMap (pieceCipher channel)) :
    decryptTransfers channel data cipherBuf bound (pieces.map (pieceMeta channel)) cipherOff =
      some (pieces.flatMap Prod.snd) := by
  induction pieces generalizing cipherOff with
  | nil => rfl
  | cons p rest ih =>
      have hHead := hSize p List.mem_cons_self
      have hMeta : (pieceMeta channel p).size = p.2.length := channel.meta_size p.1 p.2
      rw [total_cons, pieceSize] at hBound
      rw [total_cons, pieceSize, read_append, List.flatMap_cons] at h
      obtain ⟨hFirst, hRest⟩ := List.append_inj h
        (by rw [read_length, pieceCipher, channel.cipher_length])
      rw [Nat.add_assoc] at hRest
      have hTail := ih (fun q hq => hSize q (List.mem_cons_of_mem p hq)) (by omega) hRest
      rw [List.map_cons, decryptTransfers, hMeta, if_neg (by omega), hFirst, hTail, pieceMeta,
        pieceCipher, channel.decrypt_encrypt]
      rfl

variable (memory : ByteImage.Image)

theorem total_pieces (l : RangeLayout) (n : Nat) :
    total pieceSize (l.pieces memory n) = (pagesOn l.residency .gpu).length * pageSize := by
  have hTotal := total_mul (fun t : Nat => t) l.transfers pageSize
  rw [total, show pieceSize = fun p => p.2.length from rfl, l.pieces_map_length,
    ← l.transfer_sum]
  simpa [total] using hTotal

/-- The transfers end where their pieces end. -/
theorem boundary_pieces (l : RangeLayout) (n off : Nat) :
    Boundary pieceSize (l.pieces memory n) off ↔ Boundary (· * pageSize) l.transfers off := by
  have hSizes := l.pieces_map_length memory n
  have hLeft := boundary_map (fun k : Nat => k) pieceSize (l.pieces memory n) off
  have hRight := boundary_map (fun k : Nat => k) (· * pageSize) l.transfers off
  rw [show pieceSize = fun p => p.2.length from rfl] at hLeft ⊢
  rw [hSizes] at hLeft
  exact hLeft.symm.trans hRight

variable {channel memory} {l : RangeLayout} {n : Nat}

theorem pieceMeta_size : (fun p => (pieceMeta channel p).size) = pieceSize := by
  funext p
  exact channel.meta_size p.1 p.2

theorem flatMap_snd_length (pieces : List (Nat × Bytes)) :
    (pieces.flatMap Prod.snd).length = total pieceSize pieces := by
  induction pieces with
  | nil => rfl
  | cons p rest ih => rw [List.flatMap_cons, List.length_append, ih, total_cons, pieceSize]

theorem flatMap_cipher_length (pieces : List (Nat × Bytes)) :
    (pieces.flatMap (pieceCipher channel)).length = total pieceSize pieces := by
  rw [← flatMap_snd_length]
  exact flatMap_length_eq _ _ fun p _ => channel.cipher_length p.1 p.2

/-- Part of the transfers carries its part of the packed GPU pages. -/
theorem pieces_slice {front slice after : List (Nat × Bytes)}
    (hSplit : l.pieces memory n = front ++ (slice ++ after)) :
    slice.flatMap Prod.snd = ((packed memory l.base (pagesOn l.residency .gpu)).drop
      (total pieceSize front)).take (total pieceSize slice) := by
  rw [← l.pieces_flatten memory n, hSplit, List.flatMap_append, List.flatMap_append,
    List.drop_left' (flatMap_snd_length front), List.take_left' (flatMap_snd_length slice)]

theorem piece_pos {p : Nat × Bytes} (h : p ∈ l.pieces memory n) : 0 < pieceSize p :=
  (RangeLayout.piece_size memory h).1

/-- The entries of transfers that went through a DMA buffer. -/
theorem pieceMeta_wellFormed {pieces : List (Nat × Bytes)}
    (hSize : ∀ p ∈ pieces, p.2.length ≤ dmaBufferSize) :
    ∀ entry ∈ pieces.map (pieceMeta channel), entry.WellFormed := by
  intro entry hEntry
  obtain ⟨p, hp, rfl⟩ := List.mem_map.mp hEntry
  apply channel.wellFormed
  have := hSize p hp
  simp only [dmaBufferSize] at this
  omega

/-- A metadata section gives back its entries. -/
theorem StoredAt.entries {data : ByteImage.Image} {size : Nat} {d : RangeDesc} {r : Sections}
    {metas : List CryptoMeta} (hFormed : ∀ m ∈ metas, m.WellFormed)
    (hMetas : r.cryptoMeta = metas.flatMap CryptoMeta.encode) (h : StoredAt data size r d) :
    readMetas data d.metaOffset (d.cryptoMetaBytes / cryptoMetaSize) = metas := by
  have hLength : r.cryptoMeta.length = metas.length * cryptoMetaSize := by
    rw [hMetas]
    exact flatMap_length_const fun m hm => CryptoMeta.encode_length (hFormed m hm)
  have hBytes : d.cryptoMetaBytes = metas.length * cryptoMetaSize := by
    rw [← hLength, h.desc]
    rfl
  rw [hBytes, Nat.mul_div_cancel _ (by decide : 0 < cryptoMetaSize)]
  apply readMetas_eq hFormed
  rw [← hLength, h.cryptoMeta, hMetas]

/-- The metadata section gives back the entries of the transfers. -/
theorem StoredAt.metas {data : ByteImage.Image} {size : Nat} {d : RangeDesc}
    (h : StoredAt data size (l.sections channel memory n) d) :
    readMetas data d.metaOffset (d.cryptoMetaBytes / cryptoMetaSize) =
      (l.pieces memory n).map (pieceMeta channel) := by
  apply h.entries (pieceMeta_wellFormed fun p hp => (RangeLayout.piece_size memory hp).2)
  rw [List.flatMap_map]
  rfl

/-- What the descriptor of a captured range says. -/
theorem StoredAt.lengths {data : ByteImage.Image} {size : Nat} {d : RangeDesc}
    (h : StoredAt data size (l.sections channel memory n) d) :
    d.baseVa = l.base ∧ d.length = l.length ∧ d.numPages = l.residency.length ∧
      d.resmapSize = l.residency.length ∧
      d.cpuBytes = (pagesOn l.residency .cpu).length * pageSize ∧
      d.gpuBytes = (pagesOn l.residency .gpu).length * pageSize ∧
      d.cryptoMetaBytes = l.transfers.length * cryptoMetaSize := by
  have hGpu := l.gpu_length channel memory n
  have hMeta := l.meta_length channel memory n
  rw [h.desc]
  simp only [Sections.descAt, hGpu, hMeta]
  simp only [RangeLayout.sections, List.length_map, packed_length, and_self]

end FlashCkpt.Image
