import FlashCkpt.Crypto.PageWorkers

/-! Page encryption and decryption with any number of threads: when they report success, and what
lies in memory then. -/
namespace FlashCkpt.Crypto

open ByteImage Blocks Transition

section Staffing

variable {starts starts' : Nat → Bool} {lists : List (List Nat)} {t : Nat}

theorem staffed_congr (h : ∀ i < lists.length, starts (t + i) = starts' (t + i)) :
    staffed starts t lists = staffed starts' t lists := by
  induction lists generalizing t with
  | nil => rfl
  | cons pages rest ih =>
      rw [staffed, staffed, show starts t = starts' t from h 0 (Nat.succ_pos _), ih]
      intro i hi
      rw [Nat.add_assoc, Nat.add_comm 1]
      exact h (i + 1) (Nat.succ_lt_succ hi)

theorem staffed_all (t : Nat) (lists : List (List Nat)) : staffed (fun _ => true) t lists = lists := by
  induction lists generalizing t with
  | nil => rfl
  | cons pages rest ih => rw [staffed, ih, if_pos rfl]

theorem staffed_sublist (starts : Nat → Bool) (t : Nat) (lists : List (List Nat)) :
    (staffed starts t lists).flatten.Sublist lists.flatten := by
  induction lists generalizing t with
  | nil => exact List.Sublist.refl _
  | cons pages rest ih =>
      rw [staffed, List.flatten_cons, List.flatten_cons]
      apply List.Sublist.append _ (ih (t + 1))
      split
      · exact List.Sublist.refl _
      · exact List.nil_sublist _

/-- All threads are there when no page is left out. -/
theorem starts_of_length (hLists : ∀ pages ∈ lists, pages ≠ [])
    (h : (staffed starts t lists).flatten.length = lists.flatten.length) :
    ∀ i < lists.length, starts (t + i) = true := by
  induction lists generalizing t with
  | nil => exact nofun
  | cons pages rest ih =>
      have hPages := List.length_pos_of_ne_nil (hLists pages List.mem_cons_self)
      have hRest := (staffed_sublist starts (t + 1) rest).length_le
      rw [staffed, List.flatten_cons, List.flatten_cons, List.length_append,
        List.length_append] at h
      have hFirst : starts t = true := by
        by_contra hNot
        rw [if_neg hNot, List.length_nil] at h
        omega
      rw [if_pos hFirst] at h
      intro i hi
      cases i with
      | zero => exact hFirst
      | succ i =>
          rw [Nat.add_comm i 1, ← Nat.add_assoc]
          exact ih (fun pages hMem => hLists pages (List.mem_cons_of_mem _ hMem)) (by omega) i
            (Nat.lt_of_succ_lt_succ hi)

theorem workerPages_length (share extra workers t offset : Nat) :
    (workerPages share extra workers t offset).length = workers := by
  induction workers generalizing t offset with
  | zero => rfl
  | succ workers ih => rw [workerPages, List.length_cons, ih]

theorem workerPages_ne_nil {share : Nat} (hShare : 0 < share) (extra workers t offset : Nat) :
    ∀ pages ∈ workerPages share extra workers t offset, pages ≠ [] := by
  induction workers generalizing t offset with
  | zero => exact nofun
  | succ workers ih =>
      intro pages hMem
      rw [workerPages, List.mem_cons] at hMem
      rcases hMem with rfl | hMem
      · apply List.ne_nil_of_length_pos
        rw [List.length_range']
        omega
      · exact ih _ _ pages hMem

variable {th : Threads} {numPages : Nat}

theorem count_pos (hPages : 0 < numPages) : 0 < th.count numPages := by
  have := getNumThreads_pos th.requested th.online
  rw [Threads.count]
  omega

theorem shares_flatten : (th.shares numPages).flatten = List.range numPages :=
  workerPages_call numPages th.requested th.online

theorem shares_length : (th.shares numPages).length = th.count numPages :=
  workerPages_length _ _ _ _ _

/-- No thread is created without a page. -/
theorem shares_ne_nil (hPages : 0 < numPages) : ∀ pages ∈ th.shares numPages, pages ≠ [] :=
  workerPages_ne_nil (Nat.div_pos (Nat.min_le_right _ _) (count_pos hPages)) _ _ _ _

end Staffing

/-- The pages somebody goes through. -/
def Threads.pages (th : Threads) (numPages : Nat) : List Nat :=
  (staffed th.created 0 (th.shares numPages)).flatten

section Runs

variable {c : PageCall} {th : Threads} {env : EvpEnv} {before : Image}
variable {worker : Nat → Image → Image × Option Handed} {Done : Nat → Image → Prop}
variable {value : Nat → Option Handed} {Keep : Image → Prop} {turns : List Nat} {r : PageResult}

theorem pages_all (h : ∀ t < th.count c.numPages, th.created t = true) :
    th.pages c.numPages = List.range c.numPages := by
  have hStaffed : staffed th.created 0 (th.shares c.numPages) =
      staffed (fun _ => true) 0 (th.shares c.numPages) := by
    apply staffed_congr
    rw [shares_length]
    intro t ht
    rw [Nat.zero_add]
    exact h t ht
  rw [Threads.pages, hStaffed, staffed_all, shares_flatten]

/-- Every thread was created if no page is left out. -/
theorem created_of_pages (hPages : 0 < c.numPages)
    (h : (th.pages c.numPages).length = c.numPages) :
    ∀ t < th.count c.numPages, th.created t = true := by
  have hAll := starts_of_length (shares_ne_nil hPages)
    (h.trans (by rw [shares_flatten, List.length_range]))
  intro t ht
  have hOne := hAll t (shares_length.symm ▸ ht)
  rwa [Nat.zero_add] at hOne

theorem runPages_eq_some (hPages : c.numPages ≠ 0)
    (h : runPages worker c th env turns before = some r) :
    ((c.pageSize = 0 ∨ env.allocated = false) ∧ r.status = -1) ∨
      (c.pageSize ≠ 0 ∧ env.allocated = true ∧ ∃ last,
        execute (Crew.next worker) (th.start env c.numPages before) turns = some last ∧ last.Over ∧
          r = ⟨last.shared, if last.failed then -1 else 0, last.done⟩) := by
  rw [runPages, if_neg hPages] at h
  split at h
  · rename_i hEarly
    cases h
    exact .inl ⟨hEarly, rfl⟩
  · rename_i hGo
    rw [not_or] at hGo
    split at h
    · cases h
    · rename_i last hRun
      split at h
      · rename_i hOver
        cases h
        exact .inr ⟨hGo.1, by simpa using hGo.2, last, hRun, hOver, rfl⟩
      · cases h

/-- The threads are started with pages of the call. -/
theorem start_sublist :
    (th.start env c.numPages before).left.flatten.Sublist (List.range c.numPages) := by
  have hSub := staffed_sublist (fun t => th.created t && env.context t) 0 (th.shares c.numPages)
  rwa [shares_flatten] at hSub

theorem page_of_start {page : Nat} (h : page ∈ (th.start env c.numPages before).left.flatten) :
    page < c.numPages := List.mem_range.mp (start_sublist.subset h)

/-- The state of the crew when all have come to their end. -/
theorem crew_over (hIndep : Crew.Independent worker (c.Ready before)
    (fun page memory => page < c.numPages ∧ Done page memory) value Keep) (hKeep : Keep before)
    {last : Crew.State Nat Handed Image}
    (hRun : execute (Crew.next worker) (th.start env c.numPages before) turns = some last) :
    Crew.Inv (c.Ready before) (fun page memory => page < c.numPages ∧ Done page memory) value
      Keep (th.start env c.numPages before).left.flatten
      (th.start env c.numPages before).failed last := by
  apply Crew.Inv.execute hIndep turns _ _ _ rfl hRun
  · exact start_sublist.nodup List.nodup_range
  · intro page hMem
    exact ⟨page_of_start hMem, fun _ _ _ => rfl, fun _ _ _ => rfl⟩
  · exact hKeep

/-- Success: what the pages give is logged, and stands in memory. -/
theorem runPages_zero (hIndep : Crew.Independent worker (c.Ready before)
    (fun page memory => page < c.numPages ∧ Done page memory) value Keep) (hKeep : Keep before)
    (hPages : c.numPages ≠ 0) (h : runPages worker c th env turns before = some r)
    (hStatus : r.status = 0) :
    r.handed.Perm ((th.pages c.numPages).filterMap value) ∧
      (∀ page ∈ th.pages c.numPages, (value page).isSome = true ∧ Done page r.memory) ∧
        Keep r.memory := by
  rcases runPages_eq_some hPages h with ⟨-, hFailed⟩ | ⟨-, -, last, hRun, hOver, rfl⟩
  · rw [hFailed] at hStatus
    cases hStatus
  · have hFine : last.failed = false := by
      by_contra hNot
      rw [Bool.not_eq_false] at hNot
      rw [hNot] at hStatus
      cases hStatus
    have hStart : (th.start env c.numPages before).failed = false := by
      by_contra hNot
      rw [Bool.not_eq_false] at hNot
      rw [Crew.failed_execute turns hNot hRun] at hFine
      cases hFine
    have hAll : (th.start env c.numPages before).left.flatten = th.pages c.numPages := by
      rw [Threads.pages, Threads.start, staffed_congr]
      intro t ht
      rw [shares_length] at ht
      simp only [Threads.start, List.any_eq_false, List.mem_range] at hStart
      have hOne := hStart t ht
      rw [Nat.zero_add]
      cases hCreated : th.created t <;> simp_all
    have hInv := crew_over hIndep hKeep hRun
    rw [hAll] at hInv
    obtain ⟨hLog, hDone⟩ := hInv.over hOver hFine
    exact ⟨hLog, fun page hMem => ⟨(hDone page hMem).1, (hDone page hMem).2.2⟩, hInv.keep⟩

/-- Where the other calls go well, only a page that fails makes the call fail. -/
theorem runPages_calm (hIndep : Crew.Independent worker (c.Ready before)
    (fun page memory => page < c.numPages ∧ Done page memory) value Keep) (hKeep : Keep before)
    (hPages : c.numPages ≠ 0) (hSize : c.pageSize ≠ 0) (hAlloc : env.allocated = true)
    (hContext : ∀ t < th.count c.numPages, env.context t = true)
    (hValue : ∀ page < c.numPages, (value page).isSome = true)
    (h : runPages worker c th env turns before = some r) : r.status = 0 := by
  rcases runPages_eq_some hPages h with ⟨hZero | hNone, -⟩ | ⟨-, -, last, hRun, -, rfl⟩
  · exact absurd hZero hSize
  · rw [hAlloc] at hNone
    cases hNone
  · have hInv := crew_over hIndep hKeep hRun
    have hFailed := hInv.calm fun page hMem => hValue page (page_of_start hMem)
    have hStart : (th.start env c.numPages before).failed = false := by
      simp only [Threads.start, List.any_eq_false, List.mem_range]
      intro t ht
      simp [hContext t ht]
    rw [hFailed, hStart]
    rfl

/-- The threads are all at work if no page is left out. -/
theorem starts_of_pages (hPages : 0 < c.numPages)
    (h : ∀ page < c.numPages, page ∈ (th.start env c.numPages before).left.flatten) :
    ∀ t < th.count c.numPages, th.created t = true ∧ env.context t = true := by
  have hSub : List.range c.numPages ⊆ (th.start env c.numPages before).left.flatten :=
    fun page hMem => h page (List.mem_range.mp hMem)
  have hLess := (staffed_sublist (fun t => th.created t && env.context t) 0
    (th.shares c.numPages)).length_le
  have hMore := (List.subperm_of_subset List.nodup_range hSub).length_le
  have hAll := starts_of_length (shares_ne_nil hPages)
    (Nat.le_antisymm hLess (by rwa [shares_flatten]))
  intro t ht
  have hOne := hAll t (shares_length.symm ▸ ht)
  rwa [Nat.zero_add, Bool.and_eq_true] at hOne

/-- Only the pages of the call are handed out. -/
theorem handed_page {gcm : Gcm} (h : ckptCryptoEncryptPages gcm c th env turns before = some r) :
    ∀ x ∈ r.handed, x.page < c.numPages ∧ x.plain.length = intLength c.pageSize := by
  by_cases hPages : c.numPages = 0
  · rw [ckptCryptoEncryptPages, runPages, if_pos hPages] at h
    cases h
    exact List.forall_mem_nil _
  by_cases hBytes : c.pageSize = 0 ∨ env.allocated = false
  · rw [ckptCryptoEncryptPages, runPages, if_neg hPages, if_pos hBytes] at h
    cases h
    exact List.forall_mem_nil _
  rcases runPages_eq_some hPages h with ⟨hNot, -⟩ | ⟨-, -, last, hRun, -, rfl⟩
  · exact absurd hNot hBytes
  have hKeep : ∀ (u v : Crew.State Nat Handed Image) page,
      page ∈ (th.start env c.numPages before).left.flatten →
      (∀ x ∈ u.done, x.page < c.numPages ∧ x.plain.length = intLength c.pageSize) →
      v.shared = (c.encryptPage gcm env page u.shared).1 →
      ((∃ out, (c.encryptPage gcm env page u.shared).2 = some out ∧ v.done = u.done ++ [out]) ∨
        v.done = u.done) →
      ∀ x ∈ v.done, x.page < c.numPages ∧ x.plain.length = intLength c.pageSize := by
    rintro u v page hPage hDone - (⟨out, hOut, hLog⟩ | hLog)
    · intro x hx
      rw [hLog, List.mem_append, List.mem_singleton] at hx
      rcases hx with hOld | rfl
      · exact hDone x hOld
      · simp only [PageCall.encryptPage] at hOut
        split at hOut <;> cases hOut
        refine ⟨page_of_start hPage, ?_⟩
        rw [read_length]
    · rw [hLog]
      exact hDone
  exact Crew.invariant_of_tasks hKeep turns (List.forall_mem_nil _) hRun

/-- The tag of a page that nobody finishes stays as it is. -/
theorem tag_kept {gcm : Gcm} (hBuffers : c.Buffers) (hPages : c.numPages ≠ 0)
    (h : ckptCryptoEncryptPages gcm c th env turns before = some r) {page : Nat}
    (hPage : page < c.numPages) (hIdle : env.page page ≠ .whole ∨ env.allocated = false ∨
      page ∉ (th.start env c.numPages before).left.flatten) :
    read r.memory (c.entry page + ivSize) tagSize = read before (c.entry page + ivSize) tagSize := by
  by_cases hBytes : c.pageSize = 0 ∨ env.allocated = false
  · rw [ckptCryptoEncryptPages, runPages, if_neg hPages, if_pos hBytes] at h
    cases h
    rfl
  · rcases runPages_eq_some hPages h with ⟨hNot, -⟩ | ⟨-, -, last, hRun, -, rfl⟩
    · exact absurd hNot hBytes
    · have hKeep : ∀ (u v : Crew.State Nat Handed Image) task,
          task ∈ (th.start env c.numPages before).left.flatten →
          read u.shared (c.entry page + ivSize) tagSize =
            read before (c.entry page + ivSize) tagSize →
          v.shared = (c.encryptPage gcm env task u.shared).1 →
          ((∃ out, (c.encryptPage gcm env task u.shared).2 = some out ∧ v.done = u.done ++ [out]) ∨
            v.done = u.done) →
          read v.shared (c.entry page + ivSize) tagSize =
            read before (c.entry page + ivSize) tagSize := by
        intro u v task hMem hTag hShared _
        have hTask := page_of_start hMem
        rw [← hTag, hShared]
        apply read_congr
        intro a hLow hHigh
        have hLast := block_le c.pageSize hTask
        have hMeta := block_le pageMetaSize hPage
        have hApart := hBuffers.metaDst
        have hEntries : c.entry page + ivSize + tagSize = c.entry page + pageMetaSize := rfl
        apply encryptPage_outside
        · simp only [PageCall.entry, PageCall.dstPage] at *
          omega
        · by_cases hSame : page = task
          · subst hSame
            have hNot : env.page page ≠ .whole := by
              rcases hIdle with hNot | hNone | hOut
              · exact hNot
              · exact absurd (.inr hNone) hBytes
              · exact absurd hMem hOut
            rw [if_neg hNot]
            exact .inr hLow
          · have hOther := blocks_apart pageMetaSize hSame
            have hWide : (if env.page task = .whole then pageMetaSize else ivSize) ≤
                pageMetaSize := by
              split <;> decide
            simp only [PageCall.entry] at *
            omega
      exact Crew.invariant_of_tasks hKeep turns rfl hRun

/-- Every call comes to its end. -/
theorem exists_runPages (worker : Nat → Image → Image × Option Handed) (c : PageCall)
    (th : Threads) (env : EvpEnv) (before : Image) :
    ∃ turns r, runPages worker c th env turns before = some r := by
  obtain ⟨turns, last, hRun, hOver⟩ :=
    Crew.exists_over worker (th.start env c.numPages before)
  refine ⟨turns, ?_⟩
  simp only [runPages, hRun, show last.left.flatten = [] from hOver]
  split
  · exact ⟨_, rfl⟩
  · split
    · exact ⟨_, rfl⟩
    · exact ⟨_, rfl⟩

end Runs

section Memory

variable (gcm : Gcm) (c : PageCall) (before : Image)

/-- Ciphertext and tag of a page, as documented. -/
def PageCall.sealPage (page : Nat) : Bytes × Bytes :=
  gcm.encrypt c.key (buildIv (c.base + page)) (read before (c.srcPage page) c.pageSize)

/-- The pages and the entries of an encryption, one after the other. -/
def PageCall.cipherText : Bytes :=
  (List.range c.numPages).flatMap fun page => (c.sealPage gcm before page).1

def PageCall.entries : Bytes :=
  (List.range c.numPages).flatMap fun page =>
    buildIv (c.base + page) ++ (c.sealPage gcm before page).2

/-- The memory behind an encryption. Threads do not come into it. -/
def PageCall.sealedMemory : Image :=
  write (write before ⟨c.dst, c.cipherText gcm before⟩) ⟨c.metas, c.entries gcm before⟩

variable {gcm c before} {memory : Image}

theorem sealPage_eq (hSize : c.pageSize < 2 ^ 31) (page : Nat) :
    c.sealedPage gcm before page = c.sealPage gcm before page := by
  rw [PageCall.sealedPage, PageCall.plainPage, intLength_eq_iff.mpr hSize, PageCall.sealPage]

theorem sealPage_length (page : Nat) : (c.sealPage gcm before page).1.length = c.pageSize := by
  rw [PageCall.sealPage, gcm.cipher_length, read_length]

theorem entry_length (page : Nat) :
    (buildIv (c.base + page) ++ (c.sealPage gcm before page).2).length = pageMetaSize := by
  rw [PageCall.sealPage, List.length_append, buildIv_length, gcm.tag_length]
  rfl

@[simp] theorem cipherText_length : (c.cipherText gcm before).length = c.numPages * c.pageSize :=
  flatMap_length fun page _ => sealPage_length page

@[simp] theorem entries_length : (c.entries gcm before).length = c.numPages * pageMetaSize :=
  flatMap_length fun page _ => entry_length page

/-- A region whose blocks are known. -/
theorem read_blocks {off size n : Nat} {f : Nat → Bytes}
    (h : ∀ i < n, read memory (off + i * size) size = f i) :
    read memory off (n * size) = (List.range n).flatMap f := by
  rw [← read_chunks, List.flatMap_def]
  congr 1
  exact List.map_congr_left fun i hi => h i (List.mem_range.mp hi)

/-- A block of a region made of blocks. -/
theorem read_block {off size n i : Nat} {f : Nat → Bytes}
    (h : read memory off (n * size) = (List.range n).flatMap f)
    (hSize : ∀ i < n, (f i).length = size) (hi : i < n) :
    read memory (off + i * size) size = f i := by
  have hEnd := block_le size hi
  have hBlock := block_flatMap hSize hi
  rwa [block, ← h, read_slice _ hEnd] at hBlock

theorem read_sealed_cipher (hBuffers : c.Buffers) :
    read (c.sealedMemory gcm before) c.dst (c.numPages * c.pageSize) = c.cipherText gcm before := by
  have hApart := hBuffers.metaDst
  have hSelf := read_write_self before ⟨c.dst, c.cipherText gcm before⟩
  simp only [cipherText_length] at hSelf
  refine Eq.trans (read_congr fun a hLow hHigh => write_outside _ ?_) hSelf
  simp only [Write.stop, entries_length]
  omega

theorem read_sealed_entries :
    read (c.sealedMemory gcm before) c.metas (c.numPages * pageMetaSize) = c.entries gcm before := by
  have hSelf := read_write_self (write before ⟨c.dst, c.cipherText gcm before⟩)
    ⟨c.metas, c.entries gcm before⟩
  rwa [entries_length] at hSelf

/-- Memory in which all pages are encrypted, and the rest is as before. -/
theorem eq_sealedMemory (hBuffers : c.Buffers) (hSize : c.pageSize < 2 ^ 31)
    (hSealed : ∀ page < c.numPages, c.Sealed gcm before page memory) (hKeep : c.Keep before memory) :
    memory = c.sealedMemory gcm before := by
  have hCipher : read memory c.dst (c.numPages * c.pageSize) = c.cipherText gcm before := by
    apply read_blocks
    intro page hPage
    have h := (hSealed page hPage).cipher
    rwa [intLength_eq_iff.mpr hSize, sealPage_eq hSize] at h
  have hEntries : read memory c.metas (c.numPages * pageMetaSize) = c.entries gcm before := by
    apply read_blocks
    intro page hPage
    have h := (hSealed page hPage).entry
    rwa [sealPage_eq hSize] at h
  have hDstEq := read_eq_iff.mp (hCipher.trans (read_sealed_cipher hBuffers).symm)
  have hMetaEq := read_eq_iff.mp (hEntries.trans read_sealed_entries.symm)
  funext a
  by_cases hInDst : c.dst ≤ a ∧ a < c.dst + c.numPages * c.pageSize
  · exact hDstEq a hInDst.1 hInDst.2
  · by_cases hInMeta : c.metas ≤ a ∧ a < c.metas + c.numPages * pageMetaSize
    · exact hMetaEq a hInMeta.1 hInMeta.2
    · rw [hKeep a (by omega) (by omega), PageCall.sealedMemory, write_outside, write_outside]
      · simp only [Write.stop, cipherText_length]
        omega
      · simp only [Write.stop, entries_length]
        omega

/-- The decryption of what an encryption wrote, in place or to another buffer. -/
def PageCall.reversed (c : PageCall) (out : Nat) : PageCall := { c with src := c.dst, dst := out }

/-- Each page decrypts to what was encrypted. -/
theorem openedPage_sealed (hBuffers : c.Buffers) (hSize : c.pageSize < 2 ^ 31) {page out : Nat}
    (hPage : page < c.numPages) :
    (c.reversed out).openedPage gcm (c.sealedMemory gcm before) page =
      some (read before (c.srcPage page) c.pageSize) := by
  have hCipher : read (c.sealedMemory gcm before) (c.dst + page * c.pageSize) c.pageSize =
      (c.sealPage gcm before page).1 :=
    read_block (read_sealed_cipher hBuffers) (fun _ _ => sealPage_length _) hPage
  have hEntry : read (c.sealedMemory gcm before) (c.metas + page * pageMetaSize) pageMetaSize =
      buildIv (c.base + page) ++ (c.sealPage gcm before page).2 :=
    read_block read_sealed_entries (fun _ _ => entry_length _) hPage
  rw [show pageMetaSize = ivSize + tagSize from rfl, read_append] at hEntry
  obtain ⟨hIv, hTag⟩ := List.append_inj hEntry (by rw [read_length, buildIv_length])
  have hOpened := gcm.decrypt_encrypt c.key (buildIv (c.base + page))
    (read before (c.srcPage page) c.pageSize)
  simp only [PageCall.openedPage, PageCall.reversed, PageCall.plainPage, PageCall.entry,
    PageCall.srcPage, intLength_eq_iff.mpr hSize]
  rw [hCipher]
  rw [show ivSize + tagSize = pageMetaSize from rfl] at hIv hTag
  rw [hIv, hTag]
  exact hOpened

end Memory

/-- All calls beside `pthread_create` go well. -/
structure EvpEnv.Calm (env : EvpEnv) : Prop where
  allocated : env.allocated = true
  context : ∀ t, env.context t = true
  page : ∀ page, env.page page = .whole

/-- The tag of a page is the one of its ciphertext. -/
def PageCall.Authentic (gcm : Gcm) (c : PageCall) (before : Image) (page : Nat) : Prop :=
  (gcm.decrypt c.key (read before (c.entry page) ivSize) (read before (c.srcPage page) c.pageSize)
    (read before (c.entry page + ivSize) tagSize)).isSome = true

/-- What the calls come to with given threads: every page is handed out once, success means that
memory is as if there were no threads, and one page that fails makes the call fail. -/
structure PagesSound (gcm : Gcm) (c : PageCall) (out : Nat) (th th' : Threads) : Prop where
  encrypts : ∀ env turns before r, ckptCryptoEncryptPages gcm c th env turns before = some r →
    r.status = 0 → r.memory = c.sealedMemory gcm before ∧
      r.handed.Perm (encryptPages c.key (read before c.src (c.numPages * c.pageSize)) c.numPages
        c.pageSize c.base th.requested th.online)
  encryptFails : ∀ env turns before r page, page < c.numPages → env.page page ≠ .whole →
    ckptCryptoEncryptPages gcm c th env turns before = some r → r.status = -1
  encryptSucceeds : ∀ env turns before r, env.Calm → c.pageSize ≠ 0 →
    ckptCryptoEncryptPages gcm c th env turns before = some r → r.status = 0
  decrypts : ∀ env turns before r,
    ckptCryptoDecryptPages gcm (c.reversed out) th' env turns (c.sealedMemory gcm before) = some r →
    r.status = 0 → r.memory = write (c.sealedMemory gcm before)
        ⟨out, read before c.src (c.numPages * c.pageSize)⟩ ∧
      (r.handed.map Handed.page).Perm (List.range c.numPages)
  decryptFails : ∀ env turns before r page, page < c.numPages →
    env.page page ≠ .whole ∨ ¬(c.reversed out).Authentic gcm before page →
    ckptCryptoDecryptPages gcm (c.reversed out) th' env turns before = some r → r.status = -1
  decryptSucceeds : ∀ env turns before r, env.Calm → c.pageSize ≠ 0 →
    ckptCryptoDecryptPages gcm (c.reversed out) th' env turns (c.sealedMemory gcm before) = some r →
    r.status = 0

section Sound

variable {gcm : Gcm} {c : PageCall} {th : Threads} {env : EvpEnv} {before : Image}
variable {turns : List Nat} {r : PageResult}

theorem status_cases {worker : Nat → Image → Image × Option Handed}
    (h : runPages worker c th env turns before = some r) : r.status = 0 ∨ r.status = -1 := by
  by_cases hPages : c.numPages = 0
  · rw [runPages, if_pos hPages] at h
    cases h
    exact .inl rfl
  · rcases runPages_eq_some hPages h with ⟨-, hFailed⟩ | ⟨-, -, last, -, -, rfl⟩
    · exact .inr hFailed
    · dsimp only
      split
      · exact .inr rfl
      · exact .inl rfl

/-- An encryption that reports success, with all its threads. -/
theorem encrypt_zero (hBuffers : c.Buffers) (hPages : c.numPages ≠ 0) (hSize : c.pageSize < 2 ^ 31)
    (hCreated : ∀ t < th.count c.numPages, th.created t = true)
    (h : ckptCryptoEncryptPages gcm c th env turns before = some r) (hStatus : r.status = 0) :
    (∀ page < c.numPages, env.page page = .whole) ∧ r.memory = c.sealedMemory gcm before ∧
      r.handed.Perm (encryptPages c.key (read before c.src (c.numPages * c.pageSize)) c.numPages
        c.pageSize c.base th.requested th.online) := by
  obtain ⟨hLog, hDone, hKeep⟩ :=
    runPages_zero (independent_encryption hBuffers) (fun _ _ _ => rfl) hPages h hStatus
  rw [pages_all hCreated] at hLog hDone
  have hWhole : ∀ page < c.numPages, env.page page = .whole := by
    intro page hPage
    have hSome := (hDone page (List.mem_range.mpr hPage)).1
    by_contra hNot
    rw [PageCall.encryptValue, if_neg hNot] at hSome
    cases hSome
  refine ⟨hWhole, ?_, ?_⟩
  · exact eq_sealedMemory hBuffers hSize
      (fun page hPage => (hDone page (List.mem_range.mpr hPage)).2) hKeep
  · have hValues : (List.range c.numPages).filterMap (c.encryptValue env before) =
        (List.range c.numPages).map fun page =>
          ⟨page, c.key, buildIv (c.base + page), read before (c.srcPage page) c.pageSize⟩ := by
      rw [← List.filterMap_eq_map]
      apply List.filterMap_congr
      intro page hMem
      rw [PageCall.encryptValue, if_pos (hWhole page (List.mem_range.mp hMem)), PageCall.plainPage,
        intLength_eq_iff.mpr hSize]
      rfl
    rw [hValues] at hLog
    rw [encryptPages_eq]
    refine hLog.trans (List.Perm.of_eq (List.map_congr_left fun page hMem => ?_))
    rw [read_slice _ (block_le c.pageSize (List.mem_range.mp hMem)), PageCall.srcPage]

variable (hLength : ∀ key iv cipher tag plain, gcm.decrypt key iv cipher tag = some plain →
  plain.length = cipher.length)

include hLength in
/-- A decryption that reports success, with all its threads. -/
theorem decrypt_zero (hBuffers : c.Buffers) (hPages : c.numPages ≠ 0) (hSize : c.pageSize < 2 ^ 31)
    (hCreated : ∀ t < th.count c.numPages, th.created t = true)
    (h : ckptCryptoDecryptPages gcm c th env turns before = some r) (hStatus : r.status = 0) :
    (∀ page < c.numPages, env.page page = .whole ∧ c.Authentic gcm before page ∧
        c.Opened gcm before page r.memory) ∧
      (r.handed.map Handed.page).Perm (List.range c.numPages) ∧ c.KeepOthers before r.memory := by
  obtain ⟨hLog, hDone, hKeep⟩ :=
    runPages_zero (independent_decryption hLength hBuffers) (fun _ _ => rfl) hPages h hStatus
  rw [pages_all hCreated] at hLog hDone
  have hOpen : ∀ page < c.numPages, env.page page = .whole ∧
      (c.openedPage gcm before page).isSome = true := by
    intro page hPage
    have hSome := (hDone page (List.mem_range.mpr hPage)).1
    rw [PageCall.decryptValue] at hSome
    by_cases hWhole : env.page page = .whole
    · rw [if_pos hWhole, Option.isSome_map] at hSome
      exact ⟨hWhole, hSome⟩
    · rw [if_neg hWhole] at hSome
      cases hSome
  refine ⟨fun page hPage => ⟨(hOpen page hPage).1, ?_, (hDone page (List.mem_range.mpr hPage)).2⟩,
    ?_, hKeep⟩
  · have hAuthentic := (hOpen page hPage).2
    rwa [PageCall.openedPage, PageCall.plainPage, intLength_eq_iff.mpr hSize] at hAuthentic
  · have hMap := hLog.map Handed.page
    rw [List.map_filterMap] at hMap
    refine hMap.trans (List.Perm.of_eq ?_)
    rw [← List.filterMap_some (l := List.range c.numPages), List.filterMap_filterMap]
    apply List.filterMap_congr
    intro page hMem
    obtain ⟨hWhole, hSome⟩ := hOpen page (List.mem_range.mp hMem)
    obtain ⟨plain, hPlain⟩ := Option.isSome_iff_exists.mp hSome
    simp [PageCall.decryptValue, hWhole, hPlain]

/-- No more pages are handed out than there are threads for. -/
theorem created_of_handed {worker : Nat → Image → Image × Option Handed}
    {Done : Nat → Image → Prop} {value : Nat → Option Handed} {Keep : Image → Prop}
    (hIndep : Crew.Independent worker (c.Ready before)
      (fun page memory => page < c.numPages ∧ Done page memory) value Keep) (hKeep : Keep before)
    (hPages : c.numPages ≠ 0) (h : runPages worker c th env turns before = some r)
    (hStatus : r.status = 0) (hHanded : r.handed.length = c.numPages) :
    ∀ t < th.count c.numPages, th.created t = true := by
  obtain ⟨hLog, -, -⟩ := runPages_zero hIndep hKeep hPages h hStatus
  have hMost := List.length_filterMap_le value (th.pages c.numPages)
  have hSub := (staffed_sublist th.created 0 (th.shares c.numPages)).length_le
  rw [shares_flatten, List.length_range, ← Threads.pages] at hSub
  rw [← hLog.length_eq, hHanded] at hMost
  exact created_of_pages (Nat.pos_of_ne_zero hPages) (by omega)

end Sound

section Main

variable {gcm : Gcm} {c : PageCall} {out : Nat} {th th' : Threads}

theorem write_nil (image : Image) (off : Nat) : write image ⟨off, []⟩ = image :=
  funext fun a => write_outside image (Nat.lt_or_ge a off)

theorem runPages_noPages {worker : Nat → Image → Image × Option Handed} {env : EvpEnv}
    {turns : List Nat} {before : Image} {r : PageResult} (hPages : c.numPages = 0)
    (h : runPages worker c th env turns before = some r) : r = ⟨before, 0, []⟩ := by
  rw [runPages, if_pos hPages] at h
  exact (Option.some.inj h).symm

/-- Nothing is to be done for no pages. -/
theorem pagesSound_of_noPages (hPages : c.numPages = 0) : PagesSound gcm c out th th' := by
  have hSealed : ∀ before, c.sealedMemory gcm before = before := by
    intro before
    simp [PageCall.sealedMemory, PageCall.cipherText, PageCall.entries, hPages, write_nil]
  have hNone : ∀ {page}, ¬page < c.numPages := by
    intro page
    rw [hPages]
    exact Nat.not_lt_zero page
  constructor
  · intro env turns before r h hStatus
    rw [runPages_noPages hPages h, hSealed, encryptPages_eq, hPages]
    exact ⟨rfl, List.Perm.refl _⟩
  · exact fun _ _ _ _ _ hPage => absurd hPage hNone
  · intro env turns before r hCalm hSize h
    rw [runPages_noPages hPages h]
  · intro env turns before r h hStatus
    rw [runPages_noPages (c := c.reversed out) hPages h, hPages, Nat.zero_mul,
      show read before c.src 0 = [] from rfl, write_nil]
    exact ⟨rfl, List.Perm.refl _⟩
  · exact fun _ _ _ _ _ hPage => absurd hPage hNone
  · intro env turns before r hCalm hSize h
    rw [runPages_noPages (c := c.reversed out) hPages h]

/-- Pages without bytes are refused. -/
theorem status_of_noBytes {worker : Nat → Image → Image × Option Handed} {env : EvpEnv}
    {turns : List Nat} {before : Image} {r : PageResult} (hPages : c.numPages ≠ 0)
    (hSize : c.pageSize = 0) (h : runPages worker c th env turns before = some r) :
    r.status = -1 := by
  rcases runPages_eq_some hPages h with ⟨-, hFailed⟩ | ⟨hNot, -⟩
  · exact hFailed
  · exact absurd hSize hNot

theorem pagesSound_of_noBytes (hPages : c.numPages ≠ 0) (hSize : c.pageSize = 0) :
    PagesSound gcm c out th th' := by
  constructor
  · intro env turns before r h hStatus
    rw [status_of_noBytes hPages hSize h] at hStatus
    cases hStatus
  · exact fun _ _ _ _ _ _ _ h => status_of_noBytes hPages hSize h
  · exact fun _ _ _ _ _ hNot => absurd hSize hNot
  · intro env turns before r h hStatus
    rw [status_of_noBytes (c := c.reversed out) hPages hSize h] at hStatus
    cases hStatus
  · exact fun _ _ _ _ _ _ _ h => status_of_noBytes (c := c.reversed out) hPages hSize h
  · exact fun _ _ _ _ _ hNot => absurd hSize hNot

variable (hLength : ∀ key iv cipher tag plain, gcm.decrypt key iv cipher tag = some plain →
  plain.length = cipher.length)

include hLength in
/-- With all threads the calls do what they are for. -/
theorem pagesSound_of_created (hBuffers : c.Buffers) (hOut : (c.reversed out).Buffers)
    (hPages : c.numPages ≠ 0) (hSize : c.pageSize < 2 ^ 31)
    (hCreated : ∀ t < th.count c.numPages, th.created t = true)
    (hCreated' : ∀ t < th'.count c.numPages, th'.created t = true) :
    PagesSound gcm c out th th' := by
  have hOpened : ∀ before page, page < c.numPages →
      (c.reversed out).openedPage gcm (c.sealedMemory gcm before) page =
        some (read before (c.srcPage page) c.pageSize) :=
    fun before page hPage => openedPage_sealed hBuffers hSize hPage
  constructor
  · intro env turns before r h hStatus
    exact (encrypt_zero hBuffers hPages hSize hCreated h hStatus).2
  · intro env turns before r page hPage hNot h
    rcases status_cases h with hZero | hFailed
    · exact absurd ((encrypt_zero hBuffers hPages hSize hCreated h hZero).1 page hPage) hNot
    · exact hFailed
  · intro env turns before r hCalm hBytes h
    apply runPages_calm (independent_encryption hBuffers) (fun _ _ _ => rfl) hPages hBytes
      hCalm.allocated (fun t _ => hCalm.context t) _ h
    intro page hPage
    rw [PageCall.encryptValue, if_pos (hCalm.page page)]
    rfl
  · intro env turns before r h hStatus
    obtain ⟨hPage, hHanded, hKeep⟩ :=
      decrypt_zero hLength hOut hPages hSize hCreated' h hStatus
    refine ⟨?_, hHanded⟩
    have hPlain : read r.memory out (c.numPages * c.pageSize) =
        read before c.src (c.numPages * c.pageSize) := by
      rw [← read_chunks before, ← read_chunks r.memory]
      congr 1
      apply List.map_congr_left
      intro page hMem
      have hBack := (hPage page (List.mem_range.mp hMem)).2.2 _
        (hOpened before page (List.mem_range.mp hMem))
      rwa [read_length] at hBack
    have hSelf := read_write_self (c.sealedMemory gcm before)
      ⟨out, read before c.src (c.numPages * c.pageSize)⟩
    rw [read_length] at hSelf
    have hSame := read_eq_iff.mp (hPlain.trans hSelf.symm)
    funext a
    by_cases hIn : out ≤ a ∧ a < out + c.numPages * c.pageSize
    · exact hSame a hIn.1 hIn.2
    · rw [write_outside, hKeep a]
      · simp only [PageCall.reversed]
        omega
      · simp only [Write.stop, read_length]
        omega
  · intro env turns before r page hPage hNot h
    rcases status_cases h with hZero | hFailed
    · have hFine := (decrypt_zero hLength hOut hPages hSize hCreated' h hZero).1 page hPage
      exact (hNot.elim (· hFine.1) (· hFine.2.1)).elim
    · exact hFailed
  · intro env turns before r hCalm hBytes h
    apply runPages_calm (independent_decryption hLength hOut) (fun _ _ => rfl) hPages hBytes
      hCalm.allocated (fun t _ => hCalm.context t) _ h
    intro page hPage
    rw [PageCall.decryptValue, if_pos (hCalm.page page), hOpened before page hPage]
    rfl

/-- Calls that go well. -/
def calmEnv : EvpEnv := ⟨true, fun _ => true, fun _ => .whole, fun _ => []⟩

theorem calm_calmEnv : calmEnv.Calm := ⟨rfl, fun _ => rfl, fun _ => rfl⟩

include hLength in
/-- Page encryption and decryption are sound exactly when the length of a page fits an `int` and
no `pthread_create` fails, which nobody looks at. -/
theorem pagesSound_iff (hBuffers : c.Buffers) (hOut : (c.reversed out).Buffers) :
    PagesSound gcm c out th th' ↔ c.numPages = 0 ∨ c.pageSize = 0 ∨ (c.pageSize < 2 ^ 31 ∧
      (∀ t < th.count c.numPages, th.created t = true) ∧
        ∀ t < th'.count c.numPages, th'.created t = true) := by
  by_cases hPages : c.numPages = 0
  · exact iff_of_true (pagesSound_of_noPages hPages) (.inl hPages)
  by_cases hBytes : c.pageSize = 0
  · exact iff_of_true (pagesSound_of_noBytes hPages hBytes) (.inr (.inl hBytes))
  simp only [hPages, hBytes, false_or]
  constructor
  · intro hSound
    obtain ⟨turns, r, hRun⟩ := exists_runPages (c.encryptPage gcm calmEnv) c th calmEnv fun _ => 0
    have hStatus := hSound.encryptSucceeds _ _ _ _ calm_calmEnv hBytes hRun
    obtain ⟨hMemory, hHanded⟩ := hSound.encrypts _ _ _ _ hRun hStatus
    rw [encryptPages_eq] at hHanded
    have hCreated := created_of_handed (independent_encryption hBuffers) (fun _ _ _ => rfl) hPages
      hRun hStatus (by simpa using hHanded.length_eq)
    have hSize : c.pageSize < 2 ^ 31 := by
      rw [← intLength_eq_iff]
      obtain ⟨hLog, -, -⟩ := runPages_zero (independent_encryption hBuffers) (fun _ _ _ => rfl)
        hPages hRun hStatus
      have hFirst := hHanded.mem_iff.mpr
        (List.mem_map_of_mem (List.mem_range.mpr (Nat.pos_of_ne_zero hPages)))
      obtain ⟨page, -, hValue⟩ := List.mem_filterMap.mp (hLog.mem_iff.mp hFirst)
      have hBlock := block_le c.pageSize (Nat.pos_of_ne_zero hPages)
      rw [PageCall.encryptValue, if_pos (calm_calmEnv.page page)] at hValue
      have hLengths := congrArg (fun h : Handed => h.plain.length) (Option.some.inj hValue)
      simp only [PageCall.plainPage, read_length, List.length_take, List.length_drop] at hLengths
      omega
    refine ⟨hSize, hCreated, ?_⟩
    obtain ⟨turns', r', hRun'⟩ := exists_runPages ((c.reversed out).decryptPage gcm calmEnv)
      (c.reversed out) th' calmEnv (c.sealedMemory gcm fun _ => 0)
    have hStatus' := hSound.decryptSucceeds _ _ _ _ calm_calmEnv hBytes hRun'
    have hHanded' : r'.handed.length = c.numPages := by
      simpa using (hSound.decrypts _ _ _ _ hRun' hStatus').2.length_eq
    exact created_of_handed (c := c.reversed out) (independent_decryption hLength hOut) (fun _ _ => rfl) hPages hRun'
      hStatus' hHanded'
  · rintro ⟨hSize, hCreated, hCreated'⟩
    exact pagesSound_of_created hLength hBuffers hOut hPages hSize hCreated hCreated'

/-- Two pages of four bytes, decrypted in place by more threads than encrypted them. -/
def twoPages : PageCall := ⟨[], 0, 16, 32, 2, 4, 7⟩

theorem pagesSound_twoPages :
    PagesSound Gcm.clear twoPages 16 ⟨1, 4, fun _ => true⟩ ⟨0, 4, fun _ => true⟩ := by
  have hLength : ∀ key iv cipher tag plain, Gcm.clear.decrypt key iv cipher tag = some plain →
      plain.length = cipher.length := by
    intro key iv cipher tag plain h
    simp only [Gcm.clear] at h
    split at h <;> cases h
    rfl
  exact (pagesSound_iff hLength ⟨by decide, by decide, by decide⟩
    ⟨by decide, by decide, by decide⟩).mpr (.inr (.inr ⟨by decide, fun _ _ => rfl, fun _ _ => rfl⟩))

/-- The second thread cannot be created: its page stays as it is, and the call reports success. -/
theorem not_pagesSound_lostThread :
    ¬PagesSound Gcm.clear twoPages 16 ⟨2, 4, fun t => t == 0⟩ ⟨1, 4, fun _ => true⟩ := by
  intro h
  obtain ⟨r, hRun, hStatus, hHanded⟩ : ∃ r,
      ckptCryptoEncryptPages Gcm.clear twoPages ⟨2, 4, fun t => t == 0⟩ calmEnv [0] (fun _ => 0) =
        some r ∧ r.status = 0 ∧ r.handed.length = 1 := ⟨_, rfl, rfl, rfl⟩
  have hAll := (h.encrypts _ _ _ _ hRun hStatus).2.length_eq
  rw [hHanded] at hAll
  exact absurd hAll (by decide)

end Main

end FlashCkpt.Crypto
