import FlashCkpt.Driver.SequentialCapture
import FlashCkpt.Image.Transfers

/-! Ioctl 112. With confidential computing the transfers are decrypted one after the other;
without it the buffer is copied as it is. What is decrypted lies without a gap from the start
of the caller's buffer on, but nothing compares the sum of the sizes with the total. -/
namespace FlashCkpt.Driver.DecryptPages

open ByteImage Crypto Image

/-- The decryption of the session's channel; it fills as many bytes as it is given. -/
structure Session extends Channel where
  decrypt_length : ∀ entry cipher plain, decrypt entry cipher = some plain →
    plain.length = cipher.length

/-- `UVM_LIVE_MIGRATION_DECRYPT_ENCRYPTED_PAGES_PARAMS`: addresses of the caller and sizes, all
of 64 bits. -/
structure Params where
  cipherBuf : Nat
  plainBuf : Nat
  cryptoMeta : Nat
  totalSize : Nat
  numTransfers : Nat
  cipherWord : cipherBuf < 2 ^ 64
  plainWord : plainBuf < 2 ^ 64
  totalWord : totalSize < 2 ^ 64
  transfersWord : numTransfers < 2 ^ 64

/-- What the calls return: copies are by their offset in the buffer. `stray` is what lies behind
the end of `meta_buf`. -/
structure Env where
  capable : Bool
  confComputing : Bool
  pageAlloc : Bool
  allocs : Bool
  metasCopied : Bool
  gpu : Bool
  channel : Status
  copyIn : Nat → Bool
  copyOut : Nat → Nat
  stray : Nat → CryptoMeta

/-- User space ends here; copies beyond it fail. -/
def userLimit : Nat := 2 ^ 56

/-- The size of `meta_buf`, in 64 bits. -/
def Params.metaBytes (p : Params) : Nat := p.numTransfers * cryptoMetaSize % 2 ^ 64

section Ioctl

variable (session : Session) (p : Params) (memory : ByteImage.Image) (env : Env)

/-- `meta_buf[i]`. -/
def entryAt (i : Nat) : CryptoMeta :=
  if (i + 1) * cryptoMetaSize ≤ p.metaBytes then
    CryptoMeta.parse (ByteImage.read memory (p.cryptoMeta + i * cryptoMetaSize) cryptoMetaSize)
  else env.stray i

/-- `copy_from_user` from the ciphertext. -/
def copyFromUser (off n : Nat) : Bool :=
  env.copyIn off && (p.cipherBuf + off) % 2 ^ 64 + n ≤ userLimit

/-- How many bytes `copy_to_user` copies to the plaintext. -/
def copyToUser (off n : Nat) : Nat :=
  if (p.plainBuf + off) % 2 ^ 64 + n ≤ userLimit then min (env.copyOut off) n else 0

/-- The loop over the transfers; `now` is the memory as far as it has been written. -/
def decryptFrom (entry : Nat → CryptoMeta) : Nat → Nat → Nat → ByteImage.Image → Status × List Write
  | 0, _, _, _ => (.ok, [])
  | n + 1, i, cipherOff, now =>
      let chunkSize := (entry i).size
      if chunkSize = 0 ∨ dmaBufferSize < chunkSize ∨ p.totalSize < (cipherOff + chunkSize) % 2 ^ 64 then
        (.invalidArgument, [])
      else if !copyFromUser p env cipherOff chunkSize then (.invalidArgument, [])
      else
        match session.decrypt (entry i)
            (ByteImage.read now ((p.cipherBuf + cipherOff) % 2 ^ 64) chunkSize) with
        | none => (.other, [])
        | some plain =>
            let copied := copyToUser p env cipherOff chunkSize
            let w : Write := ⟨(p.plainBuf + cipherOff) % 2 ^ 64, plain.take copied⟩
            if copied < chunkSize then (.invalidArgument, [w])
            else
              let rest := decryptFrom entry n (i + 1) ((cipherOff + chunkSize) % 2 ^ 64) (write now w)
              (rest.1, w :: rest.2)

/-- Without confidential computing: page by page. -/
def copyPages : Nat → Nat → ByteImage.Image → Status × List Write
  | 0, _, _ => (.ok, [])
  | n + 1, k, now =>
      let off := k * pageSize
      let chunk := min pageSize (p.totalSize - off)
      if !copyFromUser p env off chunk then (.invalidArgument, [])
      else
        let copied := copyToUser p env off chunk
        let w : Write := ⟨(p.plainBuf + off) % 2 ^ 64,
          (ByteImage.read now ((p.cipherBuf + off) % 2 ^ 64) chunk).take copied⟩
        if copied < chunk then (.invalidArgument, [w])
        else
          let rest := copyPages n (k + 1) (write now w)
          (rest.1, w :: rest.2)

/-- `uvm_api_live_migration_decrypt_encrypted_pages`, with the writes to the caller's buffer. -/
def decryptPages : Status × List Write :=
  if !env.capable then (.insufficientPermissions, [])
  else if p.numTransfers = 0 ∨ p.totalSize = 0 then (.invalidArgument, [])
  else if p.cipherBuf = 0 ∨ p.plainBuf = 0 ∨ p.cryptoMeta = 0 then (.invalidArgument, [])
  else if !env.confComputing then
    if !env.pageAlloc then (.noMemory, [])
    else copyPages p env ((p.totalSize + pageSize - 1) / pageSize) 0 memory
  else if !env.allocs then (.noMemory, [])
  else if !(env.metasCopied && p.cryptoMeta + p.metaBytes ≤ userLimit) then (.invalidArgument, [])
  else if !env.gpu then (.invalidDevice, [])
  else if env.channel ≠ .ok then (env.channel, [])
  else decryptFrom session p env (entryAt p memory env) p.numTransfers 0 0 memory

end Ioctl

section Loop

variable {session : Session} {p : Params} {env : Env}

/-- The transfers have been opened one after the other, from this offset on. -/
def Opened (session : Session) (p : Params) :
    ByteImage.Image → Nat → List CryptoMeta → List Write → Prop
  | _, _, [], ws => ws = []
  | now, off, e :: rest, ws => ∃ w done, ws = w :: done ∧ (0 < e.size ∧ e.size ≤ dmaBufferSize) ∧
      off + e.size ≤ p.totalSize ∧ p.cipherBuf + off + e.size ≤ userLimit ∧
      w.off = p.plainBuf + off ∧ w.bytes.length = e.size ∧
      session.decrypt e (ByteImage.read now (p.cipherBuf + off) e.size) = some w.bytes ∧
      Opened session p (write now w) (off + e.size) rest done

/-- Where a copy reaches to the end, the address has not wrapped around. -/
theorem no_wrap {buf off n : Nat} (hBuf : buf < 2 ^ 64) (hBefore : off = 0 ∨ buf + off ≤ userLimit)
    (hAccess : (buf + off) % 2 ^ 64 + n ≤ userLimit) :
    (buf + off) % 2 ^ 64 = buf + off ∧ buf + off + n ≤ userLimit := by
  have hSame : (buf + off) % 2 ^ 64 = buf + off := by
    apply Nat.mod_eq_of_lt
    rw [userLimit] at hBefore
    omega
  rw [hSame] at hAccess
  exact ⟨hSame, hAccess⟩

theorem opened_of_decryptFrom {entry : Nat → CryptoMeta} {n i off : Nat} {now : ByteImage.Image}
    (hCipher : off = 0 ∨ p.cipherBuf + off ≤ userLimit)
    (hPlain : off = 0 ∨ p.plainBuf + off ≤ userLimit)
    (hOk : (decryptFrom session p env entry n i off now).1 = .ok) :
    Opened session p now off ((List.range' i n).map entry)
      (decryptFrom session p env entry n i off now).2 := by
  induction n generalizing i off now with
  | zero => exact rfl
  | succ n ih =>
      rw [decryptFrom] at hOk ⊢
      dsimp only at hOk ⊢
      split at hOk
      · cases hOk
      · rename_i hValid
        rw [if_neg hValid]
        push Not at hValid
        obtain ⟨hPos, hMax, hTotal⟩ := hValid
        split at hOk
        · cases hOk
        · rename_i hIn
          rw [if_neg hIn]
          have hRead : copyFromUser p env off (entry i).size = true := by simpa using hIn
          rw [copyFromUser, Bool.and_eq_true, decide_eq_true_eq] at hRead
          obtain ⟨hFrom, hEnd⟩ := no_wrap p.cipherWord hCipher hRead.2
          split at hOk
          · cases hOk
          · rename_i plain hDecrypt
            split at hOk
            · cases hOk
            · rename_i hOut
              rw [if_neg hOut]
              have hCopied : copyToUser p env off (entry i).size = (entry i).size ∧
                  (p.plainBuf + off) % 2 ^ 64 + (entry i).size ≤ userLimit := by
                rw [copyToUser] at hOut ⊢
                split at hOut
                · rename_i hAccess
                  rw [if_pos hAccess]
                  exact ⟨Nat.le_antisymm (Nat.min_le_right _ _) (Nat.le_of_not_lt hOut), hAccess⟩
                · omega
              obtain ⟨hTo, hPlainEnd⟩ := no_wrap p.plainWord hPlain hCopied.2
              have hLength : plain.length = (entry i).size := by
                rw [session.decrypt_length _ _ _ hDecrypt, read_length]
              have hNext : (off + (entry i).size) % 2 ^ 64 = off + (entry i).size := by
                apply Nat.mod_eq_of_lt
                rw [userLimit] at hEnd
                omega
              rw [hCopied.1, List.take_of_length_le (Nat.le_of_eq hLength), hTo, hNext] at hOk ⊢
              rw [hNext] at hTotal
              rw [hFrom] at hDecrypt
              rw [List.range'_succ, List.map_cons]
              refine ⟨_, _, rfl, ⟨Nat.pos_of_ne_zero hPos, hMax⟩, hTotal, hEnd, rfl, hLength,
                hDecrypt, ?_⟩
              exact ih (.inr (by omega)) (.inr (by omega)) hOk

/-- The sum of the sizes. -/
def sizes (metas : List CryptoMeta) : Nat := (metas.map CryptoMeta.size).sum

@[simp] theorem sizes_cons (e : CryptoMeta) (rest : List CryptoMeta) :
    sizes (e :: rest) = e.size + sizes rest := rfl

/-- Where a transfer begins. -/
def offsetOf (metas : List CryptoMeta) (i : Nat) : Nat := sizes (metas.take i)

/-- The plaintext is not written over ciphertext that is still to be read. -/
def Params.InOrder (p : Params) : Prop :=
  p.plainBuf ≤ p.cipherBuf ∨ p.cipherBuf + p.totalSize ≤ p.plainBuf

variable {now : ByteImage.Image} {off : Nat} {metas : List CryptoMeta} {ws : List Write}

theorem Opened.bounds (h : Opened session p now off metas ws) (hOff : off ≤ p.totalSize)
    (hCipher : off = 0 ∨ p.cipherBuf + off ≤ userLimit) :
    (∀ e ∈ metas, 0 < e.size ∧ e.size ≤ dmaBufferSize) ∧ off + sizes metas ≤ p.totalSize ∧
      (off + sizes metas = 0 ∨ p.cipherBuf + off + sizes metas ≤ userLimit) := by
  induction metas generalizing now off ws with
  | nil =>
      refine ⟨nofun, hOff, ?_⟩
      rw [sizes, List.map_nil, List.sum_nil]
      exact hCipher
  | cons e rest ih =>
      obtain ⟨w, done, -, hSize, hTotal, hEnd, -, -, -, hRest⟩ := h
      obtain ⟨hSizes, hSum, hLimit⟩ := ih hRest hTotal (.inr (by omega))
      refine ⟨List.forall_mem_cons.mpr ⟨hSize, hSizes⟩, ?_, ?_⟩
      · rw [sizes_cons]
        omega
      · rw [sizes_cons]
        omega

theorem length_le_sizes (h : ∀ e ∈ metas, 0 < e.size) : metas.length ≤ sizes metas := by
  induction metas with
  | nil => exact Nat.le_refl _
  | cons e rest ih =>
      have hFirst := h e List.mem_cons_self
      have hRest := ih fun e' he' => h e' (List.mem_cons_of_mem e he')
      rw [List.length_cons, sizes_cons]
      omega

theorem Opened.packed (h : Opened session p now off metas ws) :
    Packed (p.plainBuf + off) ws (p.plainBuf + off + sizes metas) := by
  induction metas generalizing now off ws with
  | nil =>
      obtain rfl : ws = [] := h
      exact rfl
  | cons e rest ih =>
      obtain ⟨w, done, rfl, -, -, -, hOff, hLength, -, hRest⟩ := h
      refine ⟨hOff, ?_⟩
      have hStop : w.stop = p.plainBuf + (off + e.size) := by
        rw [Write.stop, hOff, hLength, Nat.add_assoc]
      have hEnd : p.plainBuf + off + sizes (e :: rest) = p.plainBuf + (off + e.size) + sizes rest := by
        rw [sizes_cons]
        omega
      rw [hStop, hEnd]
      exact ih hRest

/-- Each transfer has been decrypted from what stood in the ciphertext, and stands in the
plaintext. -/
theorem Opened.transfer (h : Opened session p now off metas ws) {i : Nat} {e : CryptoMeta}
    (he : metas[i]? = some e) : ∃ w ∈ ws, ∃ cipher, w.off = p.plainBuf + (off + offsetOf metas i) ∧
      w.bytes.length = e.size ∧ cipher.length = e.size ∧
      session.decrypt e cipher = some w.bytes := by
  induction metas generalizing now off ws i with
  | nil => cases he
  | cons e' rest ih =>
      obtain ⟨w, done, rfl, -, -, -, hOff, hLength, hDecrypt, hRest⟩ := h
      cases i with
      | zero =>
          cases he
          exact ⟨w, List.mem_cons_self, _, hOff, hLength, read_length _ _ _, hDecrypt⟩
      | succ i =>
          obtain ⟨w', hw', cipher, hOff', hFound⟩ := ih hRest he
          refine ⟨w', List.mem_cons_of_mem w hw', cipher, ?_, hFound⟩
          rw [hOff', offsetOf, offsetOf, List.take_succ_cons, sizes_cons, Nat.add_assoc off]

/-- In order the ciphertext is read as it was at the start. -/
theorem Opened.transfers {memory : ByteImage.Image} (h : Opened session p now off metas ws)
    (hOrder : p.InOrder)
    (hSame : ∀ a, p.cipherBuf + off ≤ a → a < p.cipherBuf + p.totalSize → now a = memory a) :
    decryptTransfers session.toChannel memory p.cipherBuf p.totalSize metas off =
      some (ws.flatMap Write.bytes) := by
  induction metas generalizing now off ws with
  | nil =>
      obtain rfl : ws = [] := h
      rfl
  | cons e rest ih =>
      obtain ⟨w, done, rfl, ⟨hPos, hMax⟩, hTotal, -, hOff, hLength, hDecrypt, hRest⟩ := h
      have hCipher : ByteImage.read now (p.cipherBuf + off) e.size =
          ByteImage.read memory (p.cipherBuf + off) e.size := by
        apply read_congr
        intro a hLow hHigh
        exact hSame a hLow (by omega)
      have hKept : ∀ a, p.cipherBuf + (off + e.size) ≤ a → a < p.cipherBuf + p.totalSize →
          write now w a = memory a := by
        intro a hLow hHigh
        rw [write_outside, hSame a (by omega) hHigh]
        rw [Write.stop, hOff, hLength]
        rcases hOrder with hBefore | hBehind
        · exact .inr (by omega)
        · exact .inl (by omega)
      rw [decryptTransfers, if_neg (by omega), ← hCipher, hDecrypt, ih hRest hKept]
      rfl

/-- With calls that succeed, what can be decrypted is. -/
theorem decryptFrom_calm (env : Env) {memory : ByteImage.Image} {entry : Nat → CryptoMeta} {n i : Nat}
    {plain : Bytes}
    (hOrder : p.InOrder)
    (hSame : ∀ a, p.cipherBuf + off ≤ a → a < p.cipherBuf + p.totalSize → now a = memory a)
    (hIn : ∀ o, env.copyIn o = true) (hOut : ∀ o, dmaBufferSize ≤ env.copyOut o)
    (hCipher : p.cipherBuf + p.totalSize ≤ userLimit) (hPlain : p.plainBuf + p.totalSize ≤ userLimit)
    (h : decryptTransfers session.toChannel memory p.cipherBuf p.totalSize
      ((List.range' i n).map entry) off = some plain) :
    (decryptFrom session p env entry n i off now).1 = .ok := by
  induction n generalizing i off now plain with
  | zero => rfl
  | succ n ih =>
      rw [List.range'_succ, List.map_cons, decryptTransfers] at h
      split at h
      · cases h
      · rename_i hValid
        push Not at hValid
        obtain ⟨hPos, hMax, hTotal⟩ := hValid
        have hWord := p.totalWord
        have hNext : (off + (entry i).size) % 2 ^ 64 = off + (entry i).size :=
          Nat.mod_eq_of_lt (by omega)
        have hFrom : (p.cipherBuf + off) % 2 ^ 64 = p.cipherBuf + off := by
          apply Nat.mod_eq_of_lt
          rw [userLimit] at hCipher
          omega
        have hTo : (p.plainBuf + off) % 2 ^ 64 = p.plainBuf + off := by
          apply Nat.mod_eq_of_lt
          rw [userLimit] at hPlain
          omega
        have hRead : copyFromUser p env off (entry i).size = true := by
          rw [copyFromUser, hIn, hFrom, Bool.true_and, decide_eq_true_eq]
          omega
        have hCopied : copyToUser p env off (entry i).size = (entry i).size := by
          rw [copyToUser, hTo, if_pos (by omega)]
          exact Nat.min_eq_right (Nat.le_trans hMax (hOut off))
        have hBytes : ByteImage.read now (p.cipherBuf + off) (entry i).size =
            ByteImage.read memory (p.cipherBuf + off) (entry i).size := by
          apply read_congr
          intro a hLow hHigh
          exact hSame a hLow (by omega)
        obtain ⟨first, hFirst, h⟩ := Option.bind_eq_some_iff.mp h
        obtain ⟨others, hOthers, -⟩ := Option.bind_eq_some_iff.mp h
        have hLength : first.length = (entry i).size := by
          rw [session.decrypt_length _ _ _ hFirst, read_length]
        rw [decryptFrom]
        dsimp only
        rw [hNext, if_neg (by omega), hRead, hFrom, hBytes, hFirst]
        dsimp only
        rw [hCopied, if_neg (Nat.lt_irrefl _), List.take_of_length_le (Nat.le_of_eq hLength), hTo]
        refine ih (fun a hLow hHigh => ?_) hOthers
        rw [write_outside, hSame a (by omega) hHigh]
        rw [Write.stop, hLength]
        dsimp only
        rcases hOrder with hBefore | hBehind
        · exact .inr (by omega)
        · exact .inl (by omega)

end Loop

section Copy

variable {p : Params} {env : Env} {memory now : ByteImage.Image}

/-- How much is copied at a time: a page, or what is left. -/
def pageChunk (p : Params) (k : Nat) : Nat := min pageSize (p.totalSize - k * pageSize)

/-- The copy of a page from one buffer to the other. -/
def pageCopy (p : Params) (now : ByteImage.Image) (k : Nat) : Write :=
  ⟨p.plainBuf + k * pageSize, ByteImage.read now (p.cipherBuf + k * pageSize) (pageChunk p k)⟩

theorem pageCopy_stop (now : ByteImage.Image) {k : Nat} (hHere : k * pageSize < p.totalSize) :
    (pageCopy p now k).stop = p.plainBuf + min ((k + 1) * pageSize) p.totalSize := by
  have hStep : (k + 1) * pageSize = k * pageSize + pageSize := Nat.succ_mul k pageSize
  rw [Write.stop, pageCopy, read_length, pageChunk, hStep]
  dsimp only
  omega

/-- A copy that goes through copies its first page whole, and no address wraps around. -/
theorem copyPages_succ {n k : Nat} (hHere : k * pageSize < p.totalSize)
    (hCipher : k = 0 ∨ p.cipherBuf + k * pageSize ≤ userLimit)
    (hPlain : k = 0 ∨ p.plainBuf + k * pageSize ≤ userLimit)
    (hOk : (copyPages p env (n + 1) k now).1 = .ok) :
    (p.cipherBuf + k * pageSize + pageChunk p k ≤ userLimit ∧
        p.plainBuf + k * pageSize + pageChunk p k ≤ userLimit) ∧
      (copyPages p env n (k + 1) (write now (pageCopy p now k))).1 = .ok ∧
      (copyPages p env (n + 1) k now).2 =
        pageCopy p now k :: (copyPages p env n (k + 1) (write now (pageCopy p now k))).2 := by
  have hZero : k = 0 → k * pageSize = 0 := fun hk => by rw [hk, Nat.zero_mul]
  rw [copyPages, ← pageChunk] at hOk ⊢
  dsimp only at hOk ⊢
  split at hOk
  · cases hOk
  · rename_i hIn
    rw [if_neg hIn]
    have hRead : copyFromUser p env (k * pageSize) (pageChunk p k) = true := by simpa using hIn
    rw [copyFromUser, Bool.and_eq_true, decide_eq_true_eq] at hRead
    obtain ⟨hFrom, hEnd⟩ := no_wrap p.cipherWord (hCipher.imp_left hZero) hRead.2
    split at hOk
    · cases hOk
    · rename_i hOut
      rw [if_neg hOut]
      have hCopied : copyToUser p env (k * pageSize) (pageChunk p k) = pageChunk p k ∧
          (p.plainBuf + k * pageSize) % 2 ^ 64 + pageChunk p k ≤ userLimit := by
        rw [copyToUser] at hOut ⊢
        split at hOut
        · rename_i hAccess
          rw [if_pos hAccess]
          exact ⟨Nat.le_antisymm (Nat.min_le_right _ _) (Nat.le_of_not_lt hOut), hAccess⟩
        · have hPos : 0 < pageSize := by decide
          rw [pageChunk] at hOut
          omega
      obtain ⟨hTo, hPlainEnd⟩ := no_wrap p.plainWord (hPlain.imp_left hZero) hCopied.2
      rw [hCopied.1, hTo, hFrom, List.take_of_length_le (Nat.le_of_eq (read_length _ _ _)),
        ← pageCopy] at hOk ⊢
      exact ⟨⟨hEnd, hPlainEnd⟩, hOk, rfl⟩

/-- Without confidential computing the pages that are left are copied as they are. -/
theorem copyPages_ok (memory : ByteImage.Image) {n k : Nat} (hOrder : p.InOrder)
    (hSame : ∀ a, p.cipherBuf + k * pageSize ≤ a → a < p.cipherBuf + p.totalSize → now a = memory a)
    (hLeft : ∀ j < n, (k + j) * pageSize < p.totalSize) (hAll : p.totalSize ≤ (k + n) * pageSize)
    (hCipher : k = 0 ∨ p.cipherBuf + k * pageSize ≤ userLimit)
    (hPlain : k = 0 ∨ p.plainBuf + k * pageSize ≤ userLimit)
    (hOk : (copyPages p env n k now).1 = .ok) :
    Packed (p.plainBuf + min (k * pageSize) p.totalSize) (copyPages p env n k now).2
        (p.plainBuf + p.totalSize) ∧
      (copyPages p env n k now).2.flatMap Write.bytes = ByteImage.read memory
        (p.cipherBuf + min (k * pageSize) p.totalSize) (p.totalSize - k * pageSize) := by
  induction n generalizing k now with
  | zero =>
      rw [Nat.add_zero] at hAll
      rw [Nat.min_eq_right hAll, Nat.sub_eq_zero_of_le hAll]
      exact ⟨rfl, rfl⟩
  | succ n ih =>
      have hHere : k * pageSize < p.totalSize := hLeft 0 (Nat.succ_pos n)
      have hStep : (k + 1) * pageSize = k * pageSize + pageSize := Nat.succ_mul k pageSize
      obtain ⟨⟨hEnd, hPlainEnd⟩, hRestOk, hWrites⟩ := copyPages_succ hHere hCipher hPlain hOk
      have hStop := pageCopy_stop now hHere
      have hBytes : (pageCopy p now k).bytes =
          ByteImage.read memory (p.cipherBuf + k * pageSize) (pageChunk p k) := by
        apply read_congr
        intro a hLow hHigh
        rw [pageChunk] at hHigh
        exact hSame a hLow (by omega)
      have hKept : ∀ a, p.cipherBuf + (k + 1) * pageSize ≤ a → a < p.cipherBuf + p.totalSize →
          write now (pageCopy p now k) a = memory a := by
        intro a hLow hHigh
        rw [write_outside, hSame a (by omega) hHigh]
        rw [hStop, pageCopy]
        dsimp only
        rcases hOrder with hBefore | hBehind
        · exact .inr (by omega)
        · exact .inl (by omega)
      rw [pageChunk] at hEnd hPlainEnd hBytes
      rw [hWrites]
      cases n with
      | zero =>
          have hLast : p.totalSize ≤ (k + 1) * pageSize := hAll
          refine ⟨⟨?_, ?_⟩, ?_⟩
          · rw [pageCopy]
            dsimp only
            omega
          · show Write.stop _ = _
            rw [hStop, Nat.min_eq_right hLast]
          · have hRest : min pageSize (p.totalSize - k * pageSize) = p.totalSize - k * pageSize := by
              omega
            show (pageCopy p now k).bytes ++ [] = _
            rw [List.append_nil, hBytes, Nat.min_eq_left (Nat.le_of_lt hHere), hRest]
      | succ n =>
          have hMore : (k + 1) * pageSize < p.totalSize := hLeft 1 (by omega)
          obtain ⟨hPacked, hRest⟩ := ih (k := k + 1) hKept (fun j hj => by
            rw [Nat.add_assoc, Nat.add_comm 1 j]
            exact hLeft (j + 1) (by omega)) (by rw [Nat.add_assoc, Nat.add_comm 1]; exact hAll)
            (.inr (by omega)) (.inr (by omega)) hRestOk
          refine ⟨⟨?_, ?_⟩, ?_⟩
          · rw [pageCopy]
            dsimp only
            omega
          · rw [hStop]
            exact hPacked
          · have hPage : min pageSize (p.totalSize - k * pageSize) = pageSize := by omega
            have hSum : pageSize + (p.totalSize - (k + 1) * pageSize) =
                p.totalSize - k * pageSize := by omega
            rw [List.flatMap_cons, hRest, hBytes, Nat.min_eq_left (Nat.le_of_lt hMore),
              Nat.min_eq_left (Nat.le_of_lt hHere), hPage, ← hSum, read_append, hStep,
              ← Nat.add_assoc]

end Copy

section Success

variable (session : Session) (p : Params) (memory : ByteImage.Image) (env : Env)

/-- The entries that the caller hands in. -/
def Params.metas (p : Params) (memory : ByteImage.Image) : List CryptoMeta :=
  readMetas memory p.cryptoMeta p.numTransfers

/-- The memory of the caller behind the call. -/
def finalMemory : ByteImage.Image := writeAll memory (decryptPages session p memory env).2

/-- The transfers lie one after the other from the start on, and each stands in the plaintext
as it was decrypted and authenticated. -/
structure DecryptedAll : Prop where
  sizes : ∀ e ∈ p.metas memory, 0 < e.size ∧ e.size ≤ dmaBufferSize
  fits : DecryptPages.sizes (p.metas memory) ≤ p.totalSize
  opened : ∀ i e, (p.metas memory)[i]? = some e → ∃ cipher plain, cipher.length = e.size ∧
    session.decrypt e cipher = some plain ∧ ByteImage.read (finalMemory session p memory env)
      (p.plainBuf + offsetOf (p.metas memory) i) e.size = plain
  original : p.InOrder → ∃ plain,
    decryptEncryptedPages session.toChannel memory p.cipherBuf p.totalSize (p.metas memory) =
        some plain ∧
      ByteImage.read (finalMemory session p memory env) p.plainBuf
        (DecryptPages.sizes (p.metas memory)) = plain

/-- The size of `meta_buf` has not wrapped around where as many transfers as that are opened. -/
theorem entries_eq {n : Nat} (hCount : n ≤ userLimit) (hn : p.numTransfers = n) :
    (List.range' 0 n).map (entryAt p memory env) = p.metas memory := by
  rw [Params.metas, readMetas, hn, ← List.range_eq_range']
  apply List.map_congr_left
  intro i hi
  have hi' := List.mem_range.mp hi
  rw [entryAt, if_pos]
  rw [Params.metaBytes, hn, Nat.mod_eq_of_lt]
  · exact Nat.mul_le_mul_right _ hi'
  · rw [userLimit] at hCount
    rw [cryptoMetaSize]
    omega

variable {session p memory env}

theorem decryptPages_ok (hOk : (decryptPages session p memory env).1 = .ok) :
    p.numTransfers ≠ 0 ∧ p.totalSize ≠ 0 ∧
      decryptPages session p memory env = if env.confComputing then
        decryptFrom session p env (entryAt p memory env) p.numTransfers 0 0 memory
      else copyPages p env ((p.totalSize + pageSize - 1) / pageSize) 0 memory := by
  rw [decryptPages] at hOk ⊢
  split at hOk
  · cases hOk
  · rename_i hCapable
    rw [if_neg hCapable]
    split at hOk
    · cases hOk
    · rename_i hSome
      rw [if_neg hSome]
      push Not at hSome
      refine ⟨hSome.1, hSome.2, ?_⟩
      split at hOk
      · cases hOk
      · rename_i hGiven
        rw [if_neg hGiven]
        cases hConf : env.confComputing with
        | false =>
            rw [hConf] at hOk
            simp only [Bool.not_false, if_true] at hOk ⊢
            split at hOk
            · cases hOk
            · rename_i hPage
              rw [if_neg hPage]
              rfl
        | true =>
            rw [hConf] at hOk
            simp only [Bool.not_true, Bool.false_eq_true, if_false] at hOk ⊢
            split at hOk
            · cases hOk
            · rename_i hAllocs
              rw [if_neg hAllocs]
              split at hOk
              · cases hOk
              · rename_i hMetas
                rw [if_neg hMetas]
                split at hOk
                · cases hOk
                · rename_i hGpu
                  rw [if_neg hGpu]
                  split at hOk
                  · rename_i hChannel
                    exact absurd hOk hChannel
                  · rename_i hChannel
                    rw [if_neg hChannel]
                    rfl

theorem opened_of_ok (hOk : (decryptPages session p memory env).1 = .ok)
    (hConf : env.confComputing = true) :
    p.metas memory ≠ [] ∧ p.totalSize ≠ 0 ∧
      Opened session p memory 0 (p.metas memory) (decryptPages session p memory env).2 := by
  obtain ⟨hSome, hTotal, hLoop⟩ := decryptPages_ok hOk
  rw [hLoop, if_pos hConf] at hOk ⊢
  have hOpened := opened_of_decryptFrom (.inl rfl) (.inl rfl) hOk
  obtain ⟨hSizes, -, hLimit⟩ := hOpened.bounds (Nat.zero_le _) (.inl rfl)
  have hCount := length_le_sizes fun e he => (hSizes e he).1
  rw [List.length_map, List.length_range'] at hCount
  have hMetas := entries_eq p memory env (show p.numTransfers ≤ userLimit by omega) rfl
  rw [hMetas] at hOpened
  refine ⟨fun hNone => hSome ?_, hTotal, hOpened⟩
  have hLength := congrArg List.length hNone
  rw [Params.metas, readMetas, List.length_map, List.length_range] at hLength
  exact hLength

theorem decryptedAll_of_ok (hOk : (decryptPages session p memory env).1 = .ok)
    (hConf : env.confComputing = true) : DecryptedAll session p memory env := by
  obtain ⟨hSome, hTotal, hOpened⟩ := opened_of_ok hOk hConf
  obtain ⟨hSizes, hSum, -⟩ := hOpened.bounds (Nat.zero_le _) (.inl rfl)
  have hPacked := hOpened.packed
  refine ⟨hSizes, by omega, fun i e he => ?_, fun hOrder => ?_⟩
  · obtain ⟨w, hw, cipher, hOff, hLength, hCipher, hDecrypt⟩ := hOpened.transfer he
    refine ⟨cipher, w.bytes, hCipher, hDecrypt, ?_⟩
    rw [Nat.zero_add] at hOff
    rw [← hOff, ← hLength]
    exact hPacked.read_writeAll (List.Perm.refl _) memory hw
  · refine ⟨(decryptPages session p memory env).2.flatMap Write.bytes, ?_, ?_⟩
    · rw [decryptEncryptedPages, if_neg (fun h => h.elim hSome hTotal)]
      exact hOpened.transfers hOrder fun a _ _ => rfl
    · have hAll := hPacked.read_all (List.Perm.refl _) memory
      rw [Nat.add_zero, Nat.add_sub_cancel_left] at hAll
      exact hAll

theorem copied_of_ok (hOk : (decryptPages session p memory env).1 = .ok)
    (hConf : env.confComputing = false) (hOrder : p.InOrder) :
    ByteImage.read (finalMemory session p memory env) p.plainBuf p.totalSize =
      ByteImage.read memory p.cipherBuf p.totalSize := by
  obtain ⟨-, hTotal, hLoop⟩ := decryptPages_ok hOk
  rw [hConf] at hLoop
  rw [finalMemory, hLoop]
  rw [hLoop] at hOk
  have hPage : pageSize = 4096 := rfl
  have hCopied := copyPages_ok memory (k := 0) hOrder (fun a _ _ => rfl)
    (fun j hj => by rw [hPage] at hj ⊢; omega) (by rw [hPage]; omega) (.inl rfl) (.inl rfl) hOk
  obtain ⟨hPacked, hBytes⟩ := hCopied
  have hAll := hPacked.read_all (List.Perm.refl _) memory
  simp only [Nat.zero_mul, Nat.zero_min, Nat.add_zero, Nat.sub_zero, Nat.add_sub_cancel_left]
    at hAll hBytes
  exact hAll.trans hBytes

end Success

section Runs

theorem growRun_size {run : Run Nat} {last : Frame} (hSome : run.pages ≠ [])
    (hFits : run.pages.length * pageSize ≤ dmaBufferSize) (records : List (Nat × Frame)) :
    ∀ run' ∈ growRun run last records,
      run'.pages ≠ [] ∧ run'.pages.length * pageSize ≤ dmaBufferSize := by
  induction records generalizing run last with
  | nil =>
      intro run' hRun'
      rw [List.mem_singleton.mp hRun']
      exact ⟨hSome, hFits⟩
  | cons record rest ih =>
      rw [growRun]
      split
      · rename_i hGrows
        apply ih (List.append_ne_nil_of_right_ne_nil _ (List.cons_ne_nil _ _))
        rw [List.length_append, List.length_singleton, Nat.succ_mul]
        exact hGrows.2.2
      · intro run' hRun'
        rcases List.mem_cons.mp hRun' with rfl | hRest
        · exact ⟨hSome, hFits⟩
        · exact ih (List.cons_ne_nil _ _) (by rw [List.length_singleton]; decide) run' hRest

/-- A run has pages, and fits a DMA buffer. -/
theorem buildRuns_size (records : List (Nat × Frame)) :
    ∀ run ∈ buildRuns records, run.pages ≠ [] ∧ run.pages.length * pageSize ≤ dmaBufferSize := by
  cases records with
  | nil => exact nofun
  | cons record rest => exact growRun_size (List.cons_ne_nil _ _) (by rw [List.length_singleton]; decide) rest

theorem transfersFrom_size {runs : List (Run Nat)} {k : Nat}
    (hRuns : ∀ run ∈ runs, run.pages ≠ [] ∧ run.pages.length * pageSize ≤ dmaBufferSize) :
    ∀ t ∈ transfersFrom k runs, 0 < t.bytes ∧ t.bytes ≤ dmaBufferSize := by
  induction runs generalizing k with
  | nil => exact nofun
  | cons run rest ih =>
      obtain ⟨hSome, hFits⟩ := hRuns run List.mem_cons_self
      intro t ht
      rcases List.mem_cons.mp ht with rfl | hRest
      · exact ⟨Nat.mul_pos (List.length_pos_of_ne_nil hSome) (by decide), hFits⟩
      · exact ih (fun run' hRun' => hRuns run' (List.mem_cons_of_mem run hRun')) t hRest

theorem transfersFrom_total (runs : List (Run Nat)) (k : Nat) :
    ((transfersFrom k runs).map Transfer.bytes).sum = runPages runs * pageSize := by
  induction runs generalizing k with
  | nil => exact (Nat.zero_mul _).symm
  | cons run rest ih =>
      have hPages : runPages (run :: rest) = run.pages.length + runPages rest := rfl
      rw [transfersFrom, List.map_cons, List.sum_cons, ih, hPages, Nat.add_mul]

/-- Runs that stand in their parts of the buffer stand there as one sequence. -/
theorem read_transfers (data : ByteImage.Image) (value : Transfer × Nat → Bytes)
    (runs : List (Run Nat)) {k j : Nat}
    (h : ∀ e ∈ (transfersFrom k runs).zipIdx j,
      ByteImage.read data e.1.offset e.1.bytes = value e) :
    ByteImage.read data (k * pageSize) (runPages runs * pageSize) =
      ((transfersFrom k runs).zipIdx j).flatMap value := by
  induction runs generalizing k j with
  | nil =>
      rw [runPages, List.map_nil, List.sum_nil, Nat.zero_mul]
      rfl
  | cons run rest ih =>
      have hFirst := h _ List.mem_cons_self
      have hRest := ih fun e he => h e (List.mem_cons_of_mem _ he)
      rw [runPages, List.map_cons, List.sum_cons, Nat.add_mul, read_append, ← Nat.add_mul,
        ← runPages, hRest]
      exact congrArg (· ++ _) hFirst

variable (gpuMemory : Aperture → ByteImage.Image)

/-- The bytes at a frame of the GPU. -/
def frameBytes (f : Frame) (n : Nat) : Bytes := ByteImage.read (gpuMemory f.aperture) f.address n

theorem frameBytes_run (run : Run Nat) : frameBytes gpuMemory run.first (run.pages.length * pageSize) =
    run.copies.flatMap fun e => frameBytes gpuMemory e.2 pageSize := by
  rw [frameBytes, ← read_chunks, Run.copies, List.flatMap_map, List.flatMap_def]
  congr 1
  have hPages : ∀ (pages : List Nat) (j : Nat), (pages.zipIdx j).map (fun e =>
      frameBytes gpuMemory (run.first.behind e.2) pageSize) = (List.range' j pages.length).map
        fun page => ByteImage.read (gpuMemory run.first.aperture)
          (run.first.address + page * pageSize) pageSize := by
    intro pages
    induction pages with
    | nil => exact fun _ => rfl
    | cons page rest ih =>
        intro j
        rw [List.zipIdx_cons, List.map_cons, ih, List.length_cons, List.range'_succ, List.map_cons]
        rfl
  rw [List.range_eq_range', ← hPages]

/-- The plaintext of the runs is that of the pages. -/
theorem transfersFrom_plain (runs : List (Run Nat)) (k : Nat) :
    (transfersFrom k runs).flatMap (fun t => frameBytes gpuMemory t.source t.bytes) =
      (runs.flatMap Run.copies).flatMap fun e => frameBytes gpuMemory e.2 pageSize := by
  induction runs generalizing k with
  | nil => rfl
  | cons run rest ih =>
      rw [transfersFrom, List.flatMap_cons, ih, List.flatMap_cons, List.flatMap_append]
      exact congrArg (· ++ _) (frameBytes_run gpuMemory run)

end Runs

section RoundTrip

variable {Content : Type} (sys : DriverState Content) (cp : CaptureParams)
variable (gpuMemory : Aperture → ByteImage.Image)

/-- The captured GPU pages in the order of their addresses. -/
def capturedPlain : Bytes :=
  (gpuRecords .readPagesResidentEncryptedMt sys cp).flatMap fun e =>
    frameBytes gpuMemory e.2 pageSize

/-- The copy engine has encrypted each submission from the memory of the GPU; `number` is the
place of a submission among the transfers of the channel. -/
def Sealed (session : Session) (number : Nat → Nat) (out : CaptureResult Content) : Prop :=
  ∀ (r : Nat) (sub : Submission) (cipher tag : Bytes), out.submissions[r]? = some sub →
    sub.result = some (cipher, tag) →
      session.encrypt (number r) (frameBytes gpuMemory sub.source sub.bytes) = (sub.entry tag, cipher)

/-- The call is given the buffers of the capture. -/
structure Params.Takes (p : Params) (memory image : ByteImage.Image) (out : CaptureResult Content) :
    Prop where
  numTransfers : p.numTransfers = out.numTransfers
  totalSize : p.totalSize = out.gpuBytesOut
  cipher : ByteImage.read memory p.cipherBuf out.gpuBytesOut =
    ByteImage.read (writeAll image out.gpuWrites) 0 out.gpuBytesOut
  metas : ByteImage.read memory p.cryptoMeta (out.numTransfers * cryptoMetaSize) =
    ((List.range out.numTransfers).map out.metas).flatMap CryptoMeta.encode

/-- None of the calls fails, and the buffers lie in user space. -/
structure Env.Succeeds (env : Env) (p : Params) : Prop where
  capable : env.capable = true
  allocs : env.allocs = true
  metasCopied : env.metasCopied = true
  gpu : env.gpu = true
  channel : env.channel = .ok
  copyIn : ∀ off, env.copyIn off = true
  copyOut : ∀ off, dmaBufferSize ≤ env.copyOut off
  pointers : p.cipherBuf ≠ 0 ∧ p.plainBuf ≠ 0 ∧ p.cryptoMeta ≠ 0
  cipher : p.cipherBuf + p.totalSize ≤ userLimit
  plain : p.plainBuf + p.totalSize ≤ userLimit
  metas : p.cryptoMeta + p.numTransfers * cryptoMetaSize ≤ userLimit

variable {sys cp gpuMemory} {session : Session} {number : Nat → Nat} {out : CaptureResult Content}

/-- The transfers of the capture, as the channel numbers them. -/
def capturedPieces (sys : DriverState Content) (cp : CaptureParams)
    (gpuMemory : Aperture → ByteImage.Image) (number : Nat → Nat) : List (Nat × Bytes) :=
  (capturedRuns sys cp).zipIdx.map fun e => (number e.2, frameBytes gpuMemory e.1.source e.1.bytes)

theorem capturedPieces_size : ∀ piece ∈ capturedPieces sys cp gpuMemory number,
    0 < piece.2.length ∧ piece.2.length ≤ dmaBufferSize := by
  intro piece hPiece
  obtain ⟨⟨t, r⟩, ht, rfl⟩ := List.mem_map.mp hPiece
  dsimp only
  rw [frameBytes, read_length]
  exact transfersFrom_size (buildRuns_size _) t (List.fst_mem_of_mem_zipIdx ht)

theorem capturedPieces_plain : (capturedPieces sys cp gpuMemory number).flatMap Prod.snd =
    capturedPlain sys cp gpuMemory := by
  have hPlain := transfersFrom_plain gpuMemory
    (buildRuns (gpuRecords .readPagesResidentEncryptedMt sys cp)) 0
  rw [buildRuns_copies] at hPlain
  rw [capturedPlain, ← hPlain, capturedPieces, List.flatMap_map, capturedRuns]
  conv_rhs => rw [← List.zipIdx_map_fst 0 (transfersFrom 0 _), List.flatMap_map]

theorem capturedPieces_total : SizeCut.total pieceSize (capturedPieces sys cp gpuMemory number) =
    (gpuRecords .readPagesResidentEncryptedMt sys cp).length * pageSize := by
  have hTotal := transfersFrom_total
    (buildRuns (gpuRecords .readPagesResidentEncryptedMt sys cp)) 0
  rw [runPages_buildRuns] at hTotal
  rw [← hTotal, SizeCut.total, capturedPieces, List.map_map, capturedRuns]
  conv_rhs => rw [← List.zipIdx_map_fst 0 (transfersFrom 0 _), List.map_map]
  congr 1
  apply List.map_congr_left
  intro e _
  exact read_length _ _ _

/-- What was handed over for a run is what the channel made of it. -/
theorem handedOver_piece (hSealed : Sealed gpuMemory session number out) {r : Nat} {t : Transfer}
    (h : RunHandedOver cp out r t) : ∃ cipher,
      session.encrypt (number r) (frameBytes gpuMemory t.source t.bytes) = (out.metas r, cipher) ∧
        cipher.length = t.bytes ∧ (cp.gpuBuf = true → Landed out.gpuWrites ⟨t.offset, cipher⟩) := by
  obtain ⟨sub, cipher, tag, hSub, hSource, hBytes, hResult, hLength, hMeta, hLanded⟩ := h
  refine ⟨cipher, ?_, hLength, hLanded⟩
  rw [← hSource, ← hBytes, hSealed r sub cipher tag hSub hResult, hMeta, ← hBytes]
  rfl

theorem capturedPieces_metas (hSealed : Sealed gpuMemory session number out)
    (hCarries : CarriesRuns sys cp out) :
    (capturedPieces sys cp gpuMemory number).map (pieceMeta session.toChannel) =
      (List.range out.numTransfers).map out.metas := by
  apply List.ext_getElem?
  intro r
  rw [capturedPieces, List.map_map, List.getElem?_map, List.getElem?_map, List.getElem?_zipIdx,
    hCarries.numTransfers]
  cases hRun : (capturedRuns sys cp)[r]? with
  | none =>
      rw [List.getElem?_eq_none]
      · rfl
      · rw [List.length_range]
        exact List.getElem?_eq_none_iff.mp hRun
  | some t =>
      obtain ⟨cipher, hEncrypt, -, -⟩ :=
        handedOver_piece hSealed (hCarries.handedOver r t hRun)
      rw [List.getElem?_range (List.getElem?_eq_some_iff.mp hRun).1]
      simp only [Option.map_some, Function.comp_apply, pieceMeta, Nat.zero_add, hEncrypt]

theorem capturedPieces_cipher (hSealed : Sealed gpuMemory session number out)
    (hCarries : CarriesRuns sys cp out) (hBuf : cp.gpuBuf = true) (image : ByteImage.Image) :
    ByteImage.read (writeAll image out.gpuWrites) 0
        ((gpuRecords .readPagesResidentEncryptedMt sys cp).length * pageSize) =
      (capturedPieces sys cp gpuMemory number).flatMap (pieceCipher session.toChannel) := by
  have hAll := read_transfers (writeAll image out.gpuWrites)
    (fun e => pieceCipher session.toChannel
      (number e.2, frameBytes gpuMemory e.1.source e.1.bytes))
    (buildRuns (gpuRecords .readPagesResidentEncryptedMt sys cp)) (k := 0) (j := 0) ?_
  · rw [Nat.zero_mul, runPages_buildRuns] at hAll
    rw [hAll, capturedPieces, List.flatMap_map]
    rfl
  · rintro ⟨t, r⟩ hMem
    have hRun : (capturedRuns sys cp)[r]? = some t := by
      have hIndex := List.mk_mem_zipIdx_iff_getElem?.mp hMem
      exact hIndex
    obtain ⟨cipher, hEncrypt, hLength, hLanded⟩ :=
      handedOver_piece hSealed (hCarries.handedOver r t hRun)
    have hRead := (hLanded hBuf).2 image
    dsimp only at hRead ⊢
    rw [hLength] at hRead
    rw [hRead, pieceCipher, hEncrypt]

variable {p : Params} {memory image : ByteImage.Image} {env : Env}

theorem sizes_pieces (pieces : List (Nat × Bytes)) :
    sizes (pieces.map (pieceMeta session.toChannel)) = SizeCut.total pieceSize pieces := by
  rw [sizes, SizeCut.total, List.map_map]
  congr 1
  apply List.map_congr_left
  intro piece _
  exact session.meta_size piece.1 piece.2

/-- The entries of a capture as the call reads them. -/
theorem metas_of_takes (hSealed : Sealed gpuMemory session number out)
    (hCarries : CarriesRuns sys cp out) (hTakes : p.Takes memory image out) :
    p.metas memory = (capturedPieces sys cp gpuMemory number).map (pieceMeta session.toChannel) := by
  have hMetas := capturedPieces_metas hSealed hCarries
  have hLength : ((capturedPieces sys cp gpuMemory number).map
      (pieceMeta session.toChannel)).length = out.numTransfers := by
    rw [hMetas, List.length_map, List.length_range]
  have hRead := hTakes.metas
  rw [← hMetas, ← hLength] at hRead
  rw [Params.metas, hTakes.numTransfers, ← hLength]
  apply readMetas_eq ?_ hRead
  intro m hm
  obtain ⟨piece, hPiece, rfl⟩ := List.mem_map.mp hm
  apply session.wellFormed
  exact Nat.lt_of_le_of_lt (capturedPieces_size piece hPiece).2 (by decide)

/-- The channel opens what it has sealed. -/
theorem decrypt_captured (hSealed : Sealed gpuMemory session number out)
    (hCarries : CarriesRuns sys cp out) (hBuf : cp.gpuBuf = true)
    (hBytes : out.gpuBytesOut = (gpuRecords .readPagesResidentEncryptedMt sys cp).length * pageSize)
    (hTakes : p.Takes memory image out) :
    decryptTransfers session.toChannel memory p.cipherBuf p.totalSize (p.metas memory) 0 =
      some (capturedPlain sys cp gpuMemory) := by
  have hCipher := capturedPieces_cipher hSealed hCarries hBuf image
  have hTotal : SizeCut.total pieceSize (capturedPieces sys cp gpuMemory number) = _ :=
    capturedPieces_total
  have hPlain : (capturedPieces sys cp gpuMemory number).flatMap Prod.snd = _ :=
    capturedPieces_plain
  rw [← hBytes, ← hTakes.cipher, hBytes, ← hTotal] at hCipher
  have hBound : 0 + SizeCut.total pieceSize (capturedPieces sys cp gpuMemory number) ≤ p.totalSize := by
    rw [hTakes.totalSize, hBytes, hTotal, Nat.zero_add]
  rw [metas_of_takes hSealed hCarries hTakes, ← hPlain]
  exact decryptTransfers_eq session.toChannel capturedPieces_size hBound hCipher

theorem succeeds_of_decrypts (hOrder : p.InOrder) (hConf : env.confComputing = true)
    (hCalm : env.Succeeds p) (hSome : p.numTransfers ≠ 0) (hTotal : p.totalSize ≠ 0) {plain : Bytes}
    (h : decryptTransfers session.toChannel memory p.cipherBuf p.totalSize (p.metas memory) 0 =
      some plain) : (decryptPages session p memory env).1 = .ok := by
  have hCount : p.numTransfers ≤ userLimit := by
    have hMetas := hCalm.metas
    rw [cryptoMetaSize] at hMetas
    omega
  have hWord : p.metaBytes = p.numTransfers * cryptoMetaSize := by
    have hMetas := hCalm.metas
    rw [Params.metaBytes, Nat.mod_eq_of_lt]
    rw [userLimit] at hMetas
    omega
  have hLoop := decryptFrom_calm env hOrder (fun a _ _ => rfl) hCalm.copyIn hCalm.copyOut
    hCalm.cipher hCalm.plain ((entries_eq p memory env hCount rfl).symm ▸ h)
  have hPointers : ¬(p.cipherBuf = 0 ∨ p.plainBuf = 0 ∨ p.cryptoMeta = 0) := by
    obtain ⟨hCipher, hPlain, hMeta⟩ := hCalm.pointers
    rintro (hNull | hNull | hNull)
    · exact hCipher hNull
    · exact hPlain hNull
    · exact hMeta hNull
  have hAccess : decide (p.cryptoMeta + p.metaBytes ≤ userLimit) = true := by
    rw [hWord]
    exact decide_eq_true hCalm.metas
  have hNonzero : ¬(p.numTransfers = 0 ∨ p.totalSize = 0) := fun hNone => hNone.elim hSome hTotal
  rw [decryptPages, hCalm.capable, if_neg hNonzero, if_neg hPointers, hConf, hCalm.allocs, hCalm.metasCopied, hAccess, hCalm.gpu, hCalm.channel]
  exact hLoop

/-- What ioctl 115 has captured decrypts to the captured plaintext. -/
theorem captured_decrypts {env' : CaptureEnv}
    (hRun : mtIoctl .readPagesResidentEncryptedMt sys cp env' = some out)
    (hOk : out.status = some .ok) (hBuf : cp.gpuBuf = true)
    (hSealed : Sealed gpuMemory session number out) (hTakes : p.Takes memory image out)
    (hOrder : p.InOrder) (hConf : env.confComputing = true) :
    ((decryptPages session p memory env).1 = .ok →
      ByteImage.read (finalMemory session p memory env) p.plainBuf p.totalSize =
        capturedPlain sys cp gpuMemory) ∧
    (out.numTransfers ≠ 0 → env.Succeeds p → (decryptPages session p memory env).1 = .ok) := by
  obtain ⟨-, -, hRecords, r, hComplete, hFinished⟩ := mtIoctl_ok hRun hOk
  have hCarries := carriesRuns_of_complete hRecords hComplete hFinished
  have hBytes := hFinished.gpuBytesOut
  rw [hRecords] at hBytes
  have hDecrypts := decrypt_captured hSealed hCarries hBuf hBytes hTakes
  have hMetas := metas_of_takes hSealed hCarries hTakes
  have hSizes : sizes (p.metas memory) = p.totalSize := by
    rw [hMetas, sizes_pieces, capturedPieces_total, hTakes.totalSize, hBytes]
  constructor
  · intro hDone
    obtain ⟨plain, hPlain, hFinal⟩ := (decryptedAll_of_ok hDone hConf).original hOrder
    obtain ⟨hSome, hTotal, -⟩ := opened_of_ok hDone hConf
    rw [decryptEncryptedPages, if_neg (fun h => h.elim hSome hTotal), hDecrypts] at hPlain
    rw [← hSizes, hFinal]
    exact (Option.some.inj hPlain).symm
  · intro hSome hCalm
    have hLength : (p.metas memory).length = p.numTransfers := by
      rw [Params.metas, readMetas, List.length_map, List.length_range]
    have hPositive : ∀ e ∈ p.metas memory, 0 < e.size := by
      rw [hMetas]
      intro e he
      obtain ⟨piece, hPiece, rfl⟩ := List.mem_map.mp he
      rw [pieceMeta, session.meta_size]
      exact (capturedPieces_size piece hPiece).1
    have hLe := length_le_sizes hPositive
    rw [← hTakes.numTransfers] at hSome
    exact succeeds_of_decrypts hOrder hConf hCalm hSome (by omega) hDecrypts

end RoundTrip

/-- What NV_OK of ioctl 112 means, and what it makes of a capture of ioctl 115. -/
theorem decryptPages_sound :
    (∀ (session : Session) (p : Params) (memory : ByteImage.Image) (env : Env),
      (decryptPages session p memory env).1 = .ok →
        (env.confComputing = true → DecryptedAll session p memory env) ∧
        (env.confComputing = false → p.InOrder →
          ByteImage.read (finalMemory session p memory env) p.plainBuf p.totalSize =
            ByteImage.read memory p.cipherBuf p.totalSize)) ∧
    ∀ (Content : Type) (sys : DriverState Content) (cp : CaptureParams)
      (gpuMemory : Aperture → ByteImage.Image) (session : Session) (number : Nat → Nat)
      (out : CaptureResult Content) (p : Params) (memory image : ByteImage.Image) (env : Env)
      (env' : CaptureEnv), mtIoctl .readPagesResidentEncryptedMt sys cp env' = some out →
        out.status = some .ok → cp.gpuBuf = true → Sealed gpuMemory session number out →
        p.Takes memory image out → p.InOrder → env.confComputing = true →
          ((decryptPages session p memory env).1 = .ok →
            ByteImage.read (finalMemory session p memory env) p.plainBuf p.totalSize =
              capturedPlain sys cp gpuMemory) ∧
          (out.numTransfers ≠ 0 → env.Succeeds p → (decryptPages session p memory env).1 = .ok) := by
  constructor
  · intro session p memory env hOk
    exact ⟨decryptedAll_of_ok hOk, copied_of_ok hOk⟩
  · intro Content sys cp gpuMemory session number out p memory image env env' hRun hOk hBuf hSealed
      hTakes hOrder hConf
    exact captured_decrypts hRun hOk hBuf hSealed hTakes hOrder hConf

section Runs

def clearSession : Session where
  toChannel := Channel.clear
  decrypt_length := by
    intro entry cipher plain h
    rw [Channel.clear] at h
    dsimp only at h
    split at h
    · cases h
      rfl
    · cases h

/-- The calls of ioctl 112 where none fails. -/
def calmCalls (confComputing : Bool) : Env where
  capable := true
  confComputing := confComputing
  pageAlloc := true
  allocs := true
  metasCopied := true
  gpu := true
  channel := .ok
  copyIn := fun _ => true
  copyOut := fun _ => dmaBufferSize
  stray := fun _ => ⟨0, [], 0, [], 0⟩

/-- An entry for one byte at 256; the tag is the one that the channel makes, or another one. -/
def entryMemory (tag : UInt8) : ByteImage.Image :=
  writeAll (fun _ => 0) [⟨256, CryptoMeta.encode ⟨1, leBytes 12 0, 1, List.replicate 16 tag, 0⟩⟩]

/-- Two bytes are to be decrypted with it. -/
def shortParams : Params where
  cipherBuf := 512
  plainBuf := 1024
  cryptoMeta := 256
  totalSize := 2
  numTransfers := 1
  cipherWord := by decide
  plainWord := by decide
  totalWord := by decide
  transfersWord := by decide

/-- Without confidential computing NV_OK comes without a decryption; with it, also where the
transfers end before the total. -/
theorem decryptPages_short :
    ((decryptPages clearSession shortParams (entryMemory 1) (calmCalls false)).1 = .ok ∧
      ∀ e ∈ shortParams.metas (entryMemory 1), ∀ cipher, clearSession.decrypt e cipher = none) ∧
    ((decryptPages clearSession shortParams (entryMemory 0) (calmCalls true)).1 = .ok ∧
      sizes (shortParams.metas (entryMemory 0)) = 1 ∧ shortParams.totalSize = 2) := by
  refine ⟨⟨by decide +kernel, fun e he cipher => ?_⟩, by decide +kernel, by decide +kernel, rfl⟩
  have hTags : ∀ e ∈ shortParams.metas (entryMemory 1), e.authTag ≠ List.replicate 16 0 := by
    decide +kernel
  exact if_neg (hTags e he)

/-- A page of nines on the GPU. -/
def ninesPage : Bytes := List.replicate pageSize 9

def gpuPage : DriverState Nat where
  capable := true
  confComputing := true
  hasGpu := true
  spaces := [⟨[⟨true, 0, 1, [⟨0, 1, fun _ => .gpu ⟨.vid, 0⟩, true, true⟩], by decide, by decide⟩],
    by decide⟩]

def gpuParams : CaptureParams where
  base := 0
  length := pageSize
  cpuBuf := false
  cpuBufSize := 0
  gpuBuf := true
  gpuBufSize := pageSize
  residencyMap := true
  cryptoMeta := true
  cryptoMetaSize := cryptoMetaSize
  numThreads := 1
  inside := firstPage_inside

/-- The copy engine makes of the page what the channel makes of it. -/
def sealingEnv : CaptureEnv :=
  { calmEnv gpuParams
      [(0, .alloc true .ok .ok), (0, .submit .ok (leBytes 12 0) 1 0),
        (0, .device 0 ninesPage (List.replicate 16 0)), (0, .wait .ok .other []),
        (0, .copy pageSize)] with metaCopied := cryptoMetaSize }

def pageEntry : CryptoMeta := ⟨pageSize, leBytes 12 0, 1, List.replicate 16 0, 0⟩

/-- Image and metadata of the capture in the memory of the reader. -/
def pageMemory : ByteImage.Image :=
  writeAll (fun _ => 9) [⟨256, CryptoMeta.encode pageEntry⟩]

def pageParams : Params where
  cipherBuf := 2 * pageSize
  plainBuf := 4 * pageSize
  cryptoMeta := 256
  totalSize := pageSize
  numTransfers := 1
  cipherWord := by decide
  plainWord := by decide
  totalWord := by decide
  transfersWord := by decide

set_option maxRecDepth 20000

theorem sealing_ends : ∃ out,
    mtIoctl .readPagesResidentEncryptedMt gpuPage gpuParams sealingEnv = some out ∧
      out.status = some .ok ∧ out.numTransfers = 1 ∧ out.gpuBytesOut = pageSize ∧
      out.metas 0 = pageEntry ∧ out.gpuWrites = [⟨0, ninesPage⟩] ∧
      out.submissions = [⟨false, ⟨.vid, 0⟩, pageSize, leBytes 12 0, 1, 0,
        some (ninesPage, List.replicate 16 0)⟩] :=
  ⟨_, rfl, rfl, rfl, rfl, rfl, rfl, rfl⟩

theorem sealing_sealed {out : CaptureResult Nat}
    (hSubmissions : out.submissions = [⟨false, ⟨.vid, 0⟩, pageSize, leBytes 12 0, 1, 0,
      some (ninesPage, List.replicate 16 0)⟩]) :
    Sealed (fun _ _ => 9) clearSession id out := by
  intro r sub cipher tag hSub hResult
  rw [hSubmissions] at hSub
  cases r with
  | zero =>
      cases hSub
      cases hResult
      have hPlain : frameBytes (fun _ _ => 9) ⟨.vid, 0⟩ pageSize = ninesPage :=
        read_const (fun _ => rfl) 0 pageSize
      rw [hPlain]
      have hLength : ninesPage.length = pageSize := List.length_replicate
      show (CryptoMeta.mk ninesPage.length _ _ _ _, ninesPage) = _
      rw [hLength]
      rfl
  | succ r => cases hSub

theorem page_takes {out : CaptureResult Nat} (hNum : out.numTransfers = 1)
    (hBytes : out.gpuBytesOut = pageSize) (hMeta : out.metas 0 = pageEntry)
    (hWrites : out.gpuWrites = [⟨0, ninesPage⟩]) :
    pageParams.Takes pageMemory (fun _ => 9) out := by
  refine ⟨hNum.symm, hBytes.symm, ?_, ?_⟩
  · have hLeft : ByteImage.read pageMemory (2 * pageSize) pageSize = List.replicate pageSize 9 := by
      rw [pageMemory, read_writeAll_outside]
      · exact read_const (fun _ => rfl) _ _
      · intro w hw
        rw [List.mem_singleton.mp hw]
        exact .inl (by decide)
    have hRight := read_write_self (fun _ => 9) ⟨0, ninesPage⟩
    have hLength : ninesPage.length = pageSize := List.length_replicate
    rw [hLength] at hRight
    rw [hBytes, hWrites]
    exact hLeft.trans hRight.symm
  · rw [hNum]
    have hRead := read_write_self (fun _ => 9) ⟨256, CryptoMeta.encode pageEntry⟩
    have hEntries : ((List.range 1).map out.metas).flatMap CryptoMeta.encode =
        CryptoMeta.encode pageEntry := by
      rw [List.range_one, List.map_singleton, hMeta, List.flatMap_singleton]
    rw [hEntries]
    exact hRead

theorem decryptPages_sound_page :
    DecryptedAll clearSession pageParams pageMemory (calmCalls true) ∧
      ByteImage.read (finalMemory clearSession pageParams pageMemory (calmCalls true))
        pageParams.plainBuf pageParams.totalSize = capturedPlain gpuPage gpuParams fun _ _ => 9 := by
  obtain ⟨out, hRun, hOk, hNum, hBytes, hMeta, hWrites, hSubmissions⟩ := sealing_ends
  have hCalm : (calmCalls true).Succeeds pageParams :=
    ⟨rfl, rfl, rfl, rfl, rfl, fun _ => rfl, fun _ => Nat.le_refl _, by decide, by decide, by decide,
      by decide⟩
  obtain ⟨hPlain, hDone⟩ := decryptPages_sound.2 Nat gpuPage gpuParams (fun _ _ => 9) clearSession id
    out pageParams pageMemory (fun _ => 9) (calmCalls true) sealingEnv hRun hOk rfl
    (sealing_sealed hSubmissions) (page_takes hNum hBytes hMeta hWrites) (.inr (by decide)) rfl
  have hReturns := hDone (by rw [hNum]; decide) hCalm
  exact ⟨(decryptPages_sound.1 clearSession pageParams pageMemory (calmCalls true) hReturns).1 rfl,
    hPlain hReturns⟩

end Runs

end FlashCkpt.Driver.DecryptPages
