import FlashCkpt.Restore.ChunkFit
import FlashCkpt.Restore.Replay

/-! The two ways of a v3 allocation out of the base image: chunk by chunk through the
ring, whose workers do not report a failed decryption, or with one call of ioctl 112. -/
namespace FlashCkpt.Restore

open ByteImage SizeCut Crypto Image Baseline

section Transfers

variable (channel : Channel) (data : ByteImage.Image) (base : Nat)

/-- Ioctl 112 opens the transfer that starts at a place behind the base. -/
structure Opens (t : Nat × CryptoMeta) : Prop where
  some : 0 < t.2.size
  fits : t.2.size ≤ dmaBufferSize
  authentic : (channel.decrypt t.2 (read data (base + t.1) t.2.size)).isSome

def plainAt (t : Nat × CryptoMeta) : Bytes :=
  (channel.decrypt t.2 (read data (base + t.1) t.2.size)).getD []

/-- A cipher that gives as many bytes as it is given. -/
def KeepsLength : Prop := ∀ entry cipher plain, channel.decrypt entry cipher = some plain →
  plain.length = cipher.length

variable {channel data base}

theorem plainAt_length (hLength : KeepsLength channel) {t : Nat × CryptoMeta}
    (h : Opens channel data base t) : (plainAt channel data base t).length = t.2.size := by
  obtain ⟨plain, hPlain⟩ := Option.isSome_iff_exists.mp h.authentic
  rw [plainAt, hPlain, Option.getD_some, hLength _ _ _ hPlain, read_length]

theorem flatMap_plainAt_length (hLength : KeepsLength channel) {off : Nat} {metas : List CryptoMeta}
    (h : ∀ t ∈ starts CryptoMeta.size off metas, Opens channel data base t) :
    ((starts CryptoMeta.size off metas).flatMap (plainAt channel data base)).length =
      total CryptoMeta.size metas := by
  induction metas generalizing off with
  | nil => rfl
  | cons entry rest ih =>
      rw [starts, List.forall_mem_cons] at h
      rw [starts, List.flatMap_cons, List.length_append, total_cons, plainAt_length hLength h.1, ih h.2]

theorem flatMap_plainAt_le (hLength : KeepsLength channel) (off : Nat) (metas : List CryptoMeta) :
    ((starts CryptoMeta.size off metas).flatMap (plainAt channel data base)).length ≤
      total CryptoMeta.size metas := by
  induction metas generalizing off with
  | nil => exact Nat.le_refl 0
  | cons entry rest ih =>
      rw [starts, List.flatMap_cons, List.length_append, total_cons]
      refine Nat.add_le_add ?_ (ih _)
      cases hPlain : channel.decrypt entry (read data (base + off) entry.size) with
      | none => rw [plainAt, hPlain]; exact Nat.zero_le _
      | some plain =>
          rw [plainAt, hPlain, Option.getD_some, hLength _ _ _ hPlain, read_length]

/-- Places further on, behind a base further back. -/
theorem opens_shift {off off' : Nat} {metas : List CryptoMeta} :
    (∀ t ∈ starts CryptoMeta.size (off + off') metas, Opens channel data base t) ↔
      ∀ t ∈ starts CryptoMeta.size off' metas, Opens channel data (base + off) t := by
  induction metas generalizing off' with
  | nil => simp [starts]
  | cons entry rest ih =>
      rw [starts, starts, List.forall_mem_cons, List.forall_mem_cons, Nat.add_assoc, ih]
      refine and_congr_left fun _ => ?_
      constructor
      · rintro ⟨hPos, hFits, hOpens⟩
        exact ⟨hPos, hFits, by rwa [← Nat.add_assoc] at hOpens⟩
      · rintro ⟨hPos, hFits, hOpens⟩
        exact ⟨hPos, hFits, by rwa [← Nat.add_assoc]⟩

theorem plainAt_shift {off off' : Nat} (metas : List CryptoMeta) :
    (starts CryptoMeta.size (off + off') metas).flatMap (plainAt channel data base) =
      (starts CryptoMeta.size off' metas).flatMap (plainAt channel data (base + off)) := by
  induction metas generalizing off' with
  | nil => rfl
  | cons entry rest ih =>
      rw [starts, starts, List.flatMap_cons, List.flatMap_cons, Nat.add_assoc, ih, plainAt, plainAt,
        Nat.add_assoc]

theorem decryptTransfers_of_opens {totalSize off : Nat} {metas : List CryptoMeta}
    (hTotal : off + total CryptoMeta.size metas ≤ totalSize)
    (h : ∀ t ∈ starts CryptoMeta.size off metas, Opens channel data base t) :
    decryptTransfers channel data base totalSize metas off =
      some ((starts CryptoMeta.size off metas).flatMap (plainAt channel data base)) := by
  induction metas generalizing off with
  | nil => rfl
  | cons entry rest ih =>
      rw [starts, List.forall_mem_cons] at h
      rw [total_cons] at hTotal
      obtain ⟨⟨hPos, hFits, hOpens⟩, hRest⟩ := h
      obtain ⟨plain, hPlain⟩ := Option.isSome_iff_exists.mp hOpens
      dsimp only at hPos hFits hPlain
      rw [decryptTransfers, if_neg (by omega), hPlain, ih (by omega) hRest, starts, List.flatMap_cons,
        plainAt, hPlain]
      rfl

theorem opens_of_decryptTransfers {totalSize off : Nat} {metas : List CryptoMeta} {plain : Bytes}
    (h : decryptTransfers channel data base totalSize metas off = some plain) :
    ∀ t ∈ starts CryptoMeta.size off metas, Opens channel data base t := by
  induction metas generalizing off plain with
  | nil => exact fun _ hMem => nomatch hMem
  | cons entry rest ih =>
      rw [decryptTransfers, Option.ite_none_left_eq_some] at h
      obtain ⟨hSizes, h⟩ := h
      simp only [Option.bind_eq_bind, Option.bind_eq_some_iff] at h
      obtain ⟨first, hFirst, others, hOthers, -⟩ := h
      have hPos : 0 < entry.size := by omega
      have hFits : entry.size ≤ dmaBufferSize := by omega
      rw [starts, List.forall_mem_cons]
      exact ⟨⟨hPos, hFits, Option.isSome_iff_exists.mpr ⟨first, hFirst⟩⟩, ih hOthers⟩

/-- One call of the ioctl for consecutive transfers. -/
theorem decryptEncryptedPages_eq_some_iff {off : Nat} {metas : List CryptoMeta}
    {plain : Bytes} :
    decryptEncryptedPages channel data (base + off) (total CryptoMeta.size metas) metas = some plain ↔
      0 < total CryptoMeta.size metas ∧
        (∀ t ∈ starts CryptoMeta.size off metas, Opens channel data base t) ∧
          plain = (starts CryptoMeta.size off metas).flatMap (plainAt channel data base) := by
  have hShift := @opens_shift channel data base off 0 metas
  have hPlain := @plainAt_shift channel data base off 0 metas
  rw [Nat.add_zero] at hShift hPlain
  rw [decryptEncryptedPages, Option.ite_none_left_eq_some, hShift, hPlain]
  constructor
  · rintro ⟨hSome, h⟩
    have hOpens := opens_of_decryptTransfers h
    rw [decryptTransfers_of_opens (by omega) hOpens] at h
    exact ⟨Nat.pos_of_ne_zero fun hZero => hSome (.inr hZero), hOpens, (Option.some.inj h).symm⟩
  · rintro ⟨hPos, hOpens, rfl⟩
    refine ⟨?_, decryptTransfers_of_opens (by omega) hOpens⟩
    rintro (rfl | hZero)
    · exact absurd hPos (Nat.lt_irrefl 0)
    · omega

end Transfers

section Chunks

variable (channel : Channel) (data : ByteImage.Image) (base newSize : Nat)

/-- Chunks that begin inside the new allocation have all their transfers opened. -/
def OpensBefore : Nat → List (List CryptoMeta) → Prop
  | _, [] => True
  | done, slice :: rest =>
      (done < newSize → ∀ t ∈ starts CryptoMeta.size done slice, Opens channel data base t) ∧
        OpensBefore (done + total CryptoMeta.size slice) rest

variable {channel data base newSize}

/-- With chunks on the grid these are the transfers that start before the end of the
last chunk which the new allocation enters. -/
theorem opensBefore_iff {chunkSize ckptSize : Nat} (hChunk : 0 < chunkSize) {k : Nat}
    {entries : List CryptoMeta} {slices : List (List CryptoMeta)}
    (h : cutChunks CryptoMeta.size chunkSize ckptSize (k * chunkSize) entries = some slices)
    (hFits : ∀ s ∈ slices, total CryptoMeta.size s ≤ chunkSize) :
    OpensBefore channel data base newSize (k * chunkSize) slices ↔
      ∀ t ∈ starts CryptoMeta.size (k * chunkSize) entries,
        t.1 < min ckptSize (roundUp newSize chunkSize) → Opens channel data base t := by
  induction hRest : ckptSize - k * chunkSize using Nat.strongRecOn
    generalizing k entries slices with
  | ind rest ih =>
      by_cases hMore : k * chunkSize < ckptSize
      · obtain ⟨slice, left, others, rfl, rfl, hCut, hReaches, hPos, hOthers⟩ := cutChunks_step h hMore
        rw [List.forall_mem_cons] at hFits
        have hNext : (k + 1) * chunkSize = k * chunkSize + chunkSize := Nat.succ_mul k chunkSize
        rw [OpensBefore, starts_append, List.forall_mem_append]
        refine and_congr ⟨fun hOpens t ht hLess => hOpens ?_ t ht, fun hOpens hInside t ht => ?_⟩ ?_
        · by_contra hOut
          have hRound := roundUp_le hChunk (not_lt.mp hOut)
          have hPlace := le_of_mem_starts CryptoMeta.size ht
          omega
        · have hRound := (mul_lt_iff_roundUp hChunk).mp hInside
          have hPlace := starts_takeUpTo_lt CryptoMeta.size hCut (k * chunkSize) ht
          exact hOpens t ht (by omega)
        · by_cases hFull : total CryptoMeta.size slice = chunkSize
          · rw [hFull, ← hNext] at hOthers ⊢
            exact ih _ (by omega) hOthers hFits.2 rfl
          · rw [cutChunks_done hOthers (by omega)]
            refine ⟨fun _ t ht hLess => ?_, fun _ => trivial⟩
            have hPlace := le_of_mem_starts CryptoMeta.size ht
            omega
      · rw [cutChunks_done h (not_lt.mp hMore)]
        refine ⟨fun _ t ht hLess => ?_, fun _ => trivial⟩
        have hPlace := le_of_mem_starts CryptoMeta.size ht
        omega

/-- One chunk of the ring, inside the new allocation. -/
theorem ringApply_inside {f : BaseFile} {env : Env} (hCopies : ∀ k, env.h2dFault k = none)
    {slice : List CryptoMeta} (rest : List (List CryptoMeta)) {done : Nat} (k : Nat) {buffer : Bytes}
    (hPos : 0 < total CryptoMeta.size slice) (hInside : done < buffer.length) :
    ∃ slot : Bytes, slot = ((decryptEncryptedPages channel f.data (base + done)
        (total CryptoMeta.size slice) slice).getD
          (env.slotJunk ⟨done, total CryptoMeta.size slice, base + done, slice⟩)).take
            (min (total CryptoMeta.size slice) (buffer.length - done)) ∧
      ringApply channel f env (toJobs base done (slice :: rest)) k done buffer =
        ringApply channel f env (toJobs base (done + total CryptoMeta.size slice) rest) (k + 1)
          (done + total CryptoMeta.size slice) (splice buffer done slot) := by
  refine ⟨_, rfl, ?_⟩
  have hCopy : (if buffer.length < done + total CryptoMeta.size slice then buffer.length - done
      else total CryptoMeta.size slice) =
        min (total CryptoMeta.size slice) (buffer.length - done) := by
    split <;> omega
  rw [toJobs, ringApply]
  dsimp only
  rw [hCopy, if_pos (by omega), hCopies, copyH2D]

/-- A chunk behind the new allocation is consumed and not copied. -/
theorem ringApply_outside {f : BaseFile} {env : Env} (slice : List CryptoMeta)
    (rest : List (List CryptoMeta)) {done : Nat} (k : Nat) {buffer : Bytes}
    (hOutside : ¬done < buffer.length) :
    ringApply channel f env (toJobs base done (slice :: rest)) k done buffer =
      ringApply channel f env (toJobs base (done + total CryptoMeta.size slice) rest) (k + 1)
        (done + total CryptoMeta.size slice) buffer := by
  rw [toJobs, ringApply]
  dsimp only
  rw [if_neg (by split <;> omega)]

/-- What the ring leaves in the allocation when the chunks that matter open. -/
theorem ringApply_of_opens {f : BaseFile} {env : Env} (hCopies : ∀ k, env.h2dFault k = none)
    (hLength : KeepsLength channel) {slices : List (List CryptoMeta)}
    (hPos : ∀ s ∈ slices, 0 < total CryptoMeta.size s) {done k : Nat} {buffer : Bytes}
    (hOpens : OpensBefore channel f.data base buffer.length done slices) :
    ringApply channel f env (toJobs base done slices) k done buffer =
      ⟨.restored, splice buffer done (((starts CryptoMeta.size done slices.flatten).flatMap
        (plainAt channel f.data base)).take (buffer.length - done))⟩ := by
  induction slices generalizing done k buffer with
  | nil => simp [toJobs, ringApply, starts]
  | cons slice rest ih =>
      rw [List.forall_mem_cons] at hPos
      obtain ⟨hHere, hRest⟩ := hOpens
      rw [List.flatten_cons, starts_append, List.flatMap_append]
      by_cases hInside : done < buffer.length
      · have hDecrypt := decryptEncryptedPages_eq_some_iff.mpr ⟨hPos.1, hHere hInside, rfl⟩
        have hSize := flatMap_plainAt_length hLength (hHere hInside)
        obtain ⟨slot, hSlot, hNext⟩ := @ringApply_inside channel base f env hCopies slice rest done k
          buffer hPos.1 hInside
        generalize (starts CryptoMeta.size done slice).flatMap (plainAt channel f.data base) = plain
          at hDecrypt hSize ⊢
        have hTake : slot = plain.take (buffer.length - done) := by
          rw [hSlot, hDecrypt, Option.getD_some, ← List.take_take]
          exact List.take_of_length_le (by rw [List.length_take]; omega)
        have hSame := splice_take_length buffer plain done
        rw [hNext, hTake, ih hPos.2 (by rwa [hSame]), hSame, ← hSize, splice_take_append]
      · rw [ringApply_outside slice rest k hInside, ih hPos.2 hRest]
        have hNone : buffer.length - done = 0 := by omega
        have hNone' : buffer.length - (done + total CryptoMeta.size slice) = 0 := by omega
        rw [hNone, hNone', List.take_zero, List.take_zero, splice_nil, splice_nil]

/-- The ring reports no error while the copies succeed. -/
theorem ringApply_restored {f : BaseFile} {env : Env} (hCopies : ∀ k, env.h2dFault k = none)
    (jobs : List ChunkJob) (k logicalOff : Nat) (buffer : Bytes) :
    (ringApply channel f env jobs k logicalOff buffer).status = .restored := by
  induction jobs generalizing k logicalOff buffer with
  | nil => rfl
  | cons job rest ih =>
      rw [ringApply]
      by_cases hSome : 0 < if buffer.length < logicalOff + job.byteSize then
          buffer.length - logicalOff else job.byteSize
      · rw [if_pos hSome, hCopies]
        exact ih _ _ _
      · rw [if_neg hSome]
        exact ih _ _ _

/-- A chunk leaves what lies before it. -/
theorem ringApply_before {f : BaseFile} {env : Env} (hCopies : ∀ k, env.h2dFault k = none)
    {slices : List (List CryptoMeta)} (hPos : ∀ s ∈ slices, 0 < total CryptoMeta.size s)
    {done i : Nat} (hi : i < done) (k : Nat) (buffer : Bytes) :
    (ringApply channel f env (toJobs base done slices) k done buffer).buffer[i]? = buffer[i]? := by
  induction slices generalizing done k buffer with
  | nil => rfl
  | cons slice rest ih =>
      rw [List.forall_mem_cons] at hPos
      by_cases hInside : done < buffer.length
      · obtain ⟨slot, -, hNext⟩ := @ringApply_inside channel base f env hCopies slice rest done k buffer
          hPos.1 hInside
        rw [hNext, ih hPos.2 (by omega), splice, List.append_assoc,
          List.getElem?_append_left (by rw [List.length_take]; omega), List.getElem?_take_of_lt hi]
      · rw [ringApply_outside slice rest k hInside]
        exact ih hPos.2 (by omega) _ _

/-- Copies that do not fail, and a slot with one byte in it. -/
def junkAt (place : Nat) (x : UInt8) : Env :=
  ⟨fun _ => none, fun job => if job.byteOff = place then [x] else []⟩

/-- What a failed decryption leaves in its slot shows in the allocation. -/
theorem ringApply_junk {f : BaseFile} {slices : List (List CryptoMeta)}
    (hPos : ∀ s ∈ slices, 0 < total CryptoMeta.size s) {done : Nat}
    (h : ¬OpensBefore channel f.data base newSize done slices) :
    ∃ place < newSize, ∀ (x : UInt8) (k : Nat) (buffer : Bytes), buffer.length = newSize →
      (ringApply channel f (junkAt place x) (toJobs base done slices) k done buffer).buffer[place]? =
        some x := by
  induction slices generalizing done with
  | nil => exact absurd trivial h
  | cons slice rest ih =>
      rw [List.forall_mem_cons] at hPos
      by_cases hHere : done < newSize → ∀ t ∈ starts CryptoMeta.size done slice,
          Opens channel f.data base t
      · obtain ⟨place, hPlace, hJunk⟩ := ih hPos.2 fun hRest => h ⟨hHere, hRest⟩
        refine ⟨place, hPlace, fun x k buffer hLength => ?_⟩
        by_cases hInside : done < buffer.length
        · obtain ⟨slot, hSlot, hNext⟩ := @ringApply_inside channel base f (junkAt place x)
            (fun _ => rfl) slice rest done k buffer hPos.1 hInside
          have hShort : done + slot.length ≤ buffer.length := by
            rw [hSlot, List.length_take]
            omega
          rw [hNext]
          exact hJunk x _ _ ((splice_length hShort).trans hLength)
        · rw [ringApply_outside slice rest k hInside]
          exact hJunk x _ _ hLength
      · rw [Classical.not_imp] at hHere
        obtain ⟨hInside, hFails⟩ := hHere
        refine ⟨done, hInside, fun x k buffer hLength => ?_⟩
        have hNone : decryptEncryptedPages channel f.data (base + done)
            (total CryptoMeta.size slice) slice = none := by
          rw [Option.eq_none_iff_forall_ne_some]
          intro plain hPlain
          exact hFails (decryptEncryptedPages_eq_some_iff.mp hPlain).2.1
        obtain ⟨slot, hSlot, hNext⟩ := @ringApply_inside channel base f (junkAt done x)
          (fun _ => rfl) slice rest done k buffer hPos.1 (hLength ▸ hInside)
        have hJunk : (junkAt done x).slotJunk ⟨done, total CryptoMeta.size slice, base + done, slice⟩ =
            [x] := if_pos rfl
        rw [hNone, Option.getD_none, hJunk,
          List.take_of_length_le (by rw [List.length_singleton]; omega)] at hSlot
        rw [hNext, ringApply_before (fun _ => rfl) hPos.2 (by omega), hSlot, splice, List.append_assoc,
          List.getElem?_append_right (by rw [List.length_take]; omega)]
        have hFront : done - (buffer.take done).length = 0 := by
          rw [List.length_take]
          omega
        rw [hFront]
        rfl

end Chunks

end FlashCkpt.Restore
