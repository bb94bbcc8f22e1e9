import FlashCkpt.Emul.GcrChunks
import FlashCkpt.Emul.Recopy
import FlashCkpt.Library.ByteImage

/-! A kernel launch without a template: both emulators take the eight bytes at each of its
arguments for a device address and mark the allocation that contains it. With the number of
parameters known, an argument whose own address does not look right is skipped; without it the
scan ends there. -/
namespace FlashCkpt.Emul

open RangeSet
open ByteImage (Image ofLeBytes)

/-- User memory, and which of its pages can be read. -/
structure Memory where
  bytes : Image
  readable : Nat → Bool

def Memory.qword (m : Memory) (addr : Nat) : Nat := ofLeBytes (ByteImage.read m.bytes addr 8)

/-- `safe_read_qword`. The page that the thread has read before is still there, so that it only
saves the call. -/
def Memory.safeReadQword (m : Memory) (src : Nat) : Option Nat :=
  if m.readable (src / 4096) && m.readable ((src + 7) / 4096) then some (m.qword src) else none

/-- `slot_looks_safe`. -/
def slotLooksSafe (p : Nat) : Bool :=
  if p = 0 then false
  else if p % 8 ≠ 0 then false
  else if p < 0x400000000000 then false
  else if 0x7fffffffffff < p then false
  else true

/-- The words that are looked up where the number of parameters is known. -/
def scanExact (m : Memory) (params nparams : Nat) : List Nat :=
  if params = 0 then []
  else
    (List.range nparams).filterMap fun i =>
      let slot := m.qword (params + 8 * i)
      if slotLooksSafe slot then some (m.qword slot) else none

/-- The words from slot `i` on. -/
def scanFrom (m : Memory) (params : Nat) : (left i : Nat) → List Nat
  | 0, _ => []
  | left + 1, i =>
      let slot := m.qword (params + 8 * i)
      if slotLooksSafe slot then
        match m.safeReadQword slot with
        | some cand => cand :: scanFrom m params left (i + 1)
        | none => []
      else []

/-- The words that are looked up up to a depth. -/
def scanSafe (m : Memory) (params depth : Nat) : List Nat :=
  if params = 0 then []
  else
    match m.safeReadQword params with
    | some _ => scanFrom m params depth 0
    | none => []

/-- A parameter of the kernel, with its place in a parameter buffer. -/
structure Param where
  offset : Nat
  size : Nat
  pointer : Bool

/-- A launch: the array with the addresses of the arguments or, where that is null, a buffer
with all of them. -/
structure KernelCall where
  memory : Memory
  params : Nat
  extra : Nat
  args : List Param

/-- Where an argument is stored. -/
def KernelCall.place (l : KernelCall) (i : Nat) (p : Param) : Nat :=
  if l.params = 0 then l.extra + p.offset else l.memory.qword (l.params + 8 * i)

/-- The array and the arguments are in memory that can be read. -/
structure Launch (depth : Nat) extends KernelCall where
  fits : args.length ≤ depth
  array : params ≠ 0 → ∀ i < args.length, ∀ b < 8, memory.readable ((params + 8 * i + b) / 4096) = true
  stored : ∀ i p, args[i]? = some p → ∀ b < p.size,
    memory.readable ((toKernelCall.place i p + b) / 4096) = true
  sized : ∀ p ∈ args, 0 < p.size ∧ (p.pointer = true → p.size = 8)

/-- The hook that was called: one of the driver, where the number of parameters can be asked
for or not, or the one of the runtime. -/
inductive Entry where
  | driver (known : Bool)
  | runtime
  deriving DecidableEq, Repr

/-- The choice of `shadow_exec_driver` and `scan_kernel_params_exact`; `cudaLaunchKernel` and
`scan_kernel_params` always take the scan without a number. -/
def KernelCall.scanned (l : KernelCall) (depth : Nat) : Entry → List Nat
  | .driver true =>
      if 0 < l.args.length then scanExact l.memory l.params l.args.length
      else scanSafe l.memory l.params depth
  | .driver false | .runtime => scanSafe l.memory l.params depth

/-- `mark_alloc_dirty` for each word. -/
def Gcr.markWords (t : Table GcrFlags) (dirty : Ranges Nat) (words : List Nat) : Ranges Nat :=
  words.foldl (fun dirty cand =>
    match Gcr.markAllocDirty t cand with
    | none => dirty
    | some r => dirty.insert r.start r.stop) dirty

/-- The flag `dirty_this_round` for each word. -/
def Phos.markWords (t : Table PhosFlags) (words : List Nat) : Table PhosFlags :=
  words.foldl (fun t cand => Phos.markDirtyVa cand t) t

/-- `scan_kernel_params_exact` and `scan_kernel_params`. -/
def Phos.scanKernelParams (scanEnabled : Bool) (t : Table PhosFlags) (depth : Nat) (l : KernelCall)
    (entry : Entry) : Table PhosFlags :=
  if scanEnabled then Phos.markWords t (l.scanned depth entry) else t

variable {depth : Nat} {Flags : Type}

/-- A live allocation that contains the value of a pointer parameter. -/
def Launch.PointsTo (l : Launch depth) (t : Table Flags) (k : Nat) (e : Alloc Flags) : Prop :=
  t.allocs[k]? = some e ∧ e.alive = true ∧ ∃ i p, l.args[i]? = some p ∧ p.pointer = true ∧
    e.Covers (l.memory.qword (l.place i p))

/-- Each byte of an allocation that a pointer parameter points into is dirty, and the scan
without a number marks what the other one does. -/
structure Gcr.Pessimistic (t : Table GcrFlags) (dirty : Ranges Nat) (l : Launch depth)
    (entry : Entry) : Prop where
  whole : ∀ k e, l.PointsTo t k e → ∀ addr, e.Covers addr →
    (Gcr.markWords t dirty (l.scanned depth entry)).Has addr
  atLeast : ∀ addr,
    (Gcr.markWords t dirty (scanExact l.memory l.params l.args.length)).Has addr →
      (Gcr.markWords t dirty (scanSafe l.memory l.params depth)).Has addr

structure Phos.Pessimistic (t : Table PhosFlags) (l : Launch depth) (entry : Entry) : Prop where
  whole : ∀ k e, l.PointsTo t k e → ∀ e' : Alloc PhosFlags,
    (Phos.scanKernelParams true t depth l.toKernelCall entry).allocs[k]? = some e' →
      e'.flags.dirtyThisRound = true
  atLeast : ∀ (k : Nat) (e e' : Alloc PhosFlags),
    (Phos.markWords t (scanExact l.memory l.params l.args.length)).allocs[k]? = some e →
    e.flags.dirtyThisRound = true →
      (Phos.markWords t (scanSafe l.memory l.params depth)).allocs[k]? = some e' →
        e'.flags.dirtyThisRound = true

/-- The address in the array for parameter `i`. -/
def Launch.slot (l : Launch depth) (i : Nat) : Nat := l.memory.qword (l.params + 8 * i)

/-- The word there. -/
def Launch.word (l : Launch depth) (i : Nat) : Nat := l.memory.qword (l.slot i)

/-- The scan comes to parameter `i` and takes it: with the number known, its own address is
accepted, else all addresses up to it are. Those behind the parameters, where there may be
anything, have to be readable as well. -/
def Launch.Reached (l : Launch depth) (exact : Bool) (i : Nat) : Prop :=
  l.params ≠ 0 ∧
    if exact then i < l.args.length ∧ slotLooksSafe (l.slot i) = true
    else i < depth ∧ ∀ j ≤ i, slotLooksSafe (l.slot j) = true ∧
      (l.args.length ≤ j → (l.memory.safeReadQword (l.slot j)).isSome = true)

def Entry.exact : Entry → Bool
  | .driver known => known
  | .runtime => false

/-- What the pointer parameters point into is dirty already, or some word that is reached has
its first allocation there; and so has what the scan with the number reaches. -/
structure Gcr.Covering (t : Table GcrFlags) (dirty : Ranges Nat) (l : Launch depth) (entry : Entry) :
    Prop where
  pointers : ∀ k e, l.PointsTo t k e → ∀ addr, e.Covers addr → dirty.Has addr ∨
    ∃ i, l.Reached entry.exact i ∧ ∃ r, Gcr.markAllocDirty t (l.word i) = some r ∧ r.Covers addr
  others : ∀ i, l.Reached true i → ∀ r, Gcr.markAllocDirty t (l.word i) = some r →
    ∀ addr, r.Covers addr → dirty.Has addr ∨
      ∃ j, l.Reached false j ∧ ∃ r, Gcr.markAllocDirty t (l.word j) = some r ∧ r.Covers addr

structure Phos.Covering (t : Table PhosFlags) (l : Launch depth) (entry : Entry) : Prop where
  pointers : ∀ k e, l.PointsTo t k e → e.flags.dirtyThisRound = true ∨
    ∃ i, l.Reached entry.exact i ∧ t.findAllocIdx (l.word i) = some k
  others : ∀ i, l.Reached true i → ∀ k e, t.findAllocIdx (l.word i) = some k → t.allocs[k]? = some e →
    e.flags.dirtyThisRound = true ∨ ∃ j, l.Reached false j ∧ t.findAllocIdx (l.word j) = some k

theorem mem_scanExact {m : Memory} {params nparams c : Nat} :
    c ∈ scanExact m params nparams ↔ params ≠ 0 ∧ ∃ i < nparams,
      slotLooksSafe (m.qword (params + 8 * i)) = true ∧ m.qword (m.qword (params + 8 * i)) = c := by
  rw [scanExact]
  split
  · rename_i hNull
    simp [hNull]
  · rename_i hParams
    simp only [List.mem_filterMap, List.mem_range, Option.ite_none_right_eq_some, Option.some.injEq,
      ne_eq, hParams, not_false_eq_true, true_and]

/-- The scan goes on as long as the addresses are accepted and can be read. -/
theorem mem_scanFrom {m : Memory} {params left i c : Nat} :
    c ∈ scanFrom m params left i ↔ ∃ j, i ≤ j ∧ j < i + left ∧
      m.qword (m.qword (params + 8 * j)) = c ∧ ∀ k, i ≤ k → k ≤ j →
        slotLooksSafe (m.qword (params + 8 * k)) = true ∧
          (m.safeReadQword (m.qword (params + 8 * k))).isSome = true := by
  induction left generalizing i with
  | zero =>
      simp only [scanFrom, List.not_mem_nil, false_iff]
      rintro ⟨j, hLow, hHigh, _⟩
      omega
  | succ left ih =>
      rw [scanFrom]
      split
      · rename_i hSafe
        cases hRead : m.safeReadQword (m.qword (params + 8 * i)) with
        | none =>
            simp only [List.not_mem_nil, false_iff]
            rintro ⟨j, hLow, _, _, hAll⟩
            have hHere := (hAll i (Nat.le_refl i) hLow).2
            rw [hRead] at hHere
            cases hHere
        | some cand =>
            have hCand : m.qword (m.qword (params + 8 * i)) = cand := by
              rw [Memory.safeReadQword] at hRead
              exact Option.some.inj (Option.ite_none_right_eq_some.mp hRead).2
            have hSome : (m.safeReadQword (m.qword (params + 8 * i))).isSome = true := by
              rw [hRead]
              rfl
            dsimp only
            rw [List.mem_cons, ih]
            constructor
            · rintro (rfl | ⟨j, hLow, hHigh, hWord, hAll⟩)
              · refine ⟨i, Nat.le_refl i, by omega, hCand, fun k hLow hHigh => ?_⟩
                obtain rfl := Nat.le_antisymm hLow hHigh
                exact ⟨hSafe, hSome⟩
              · refine ⟨j, by omega, by omega, hWord, fun k hkLow hkHigh => ?_⟩
                rcases Nat.eq_or_lt_of_le hkLow with rfl | hMore
                · exact ⟨hSafe, hSome⟩
                · exact hAll k hMore hkHigh
            · rintro ⟨j, hLow, hHigh, hWord, hAll⟩
              rcases Nat.eq_or_lt_of_le hLow with rfl | hMore
              · exact .inl (hWord.symm.trans hCand)
              · exact .inr ⟨j, hMore, by omega, hWord, fun k hkLow => hAll k (Nat.le_of_succ_le hkLow)⟩
      · rename_i hSafe
        simp only [List.not_mem_nil, false_iff]
        rintro ⟨j, hLow, _, _, hAll⟩
        exact hSafe (hAll i (Nat.le_refl i) hLow).1

theorem slotLooksSafe_aligned {p : Nat} (h : slotLooksSafe p = true) : p % 8 = 0 := by
  rw [slotLooksSafe] at h
  split at h
  · cases h
  · split at h
    · cases h
    · rename_i hAligned
      exact Decidable.not_not.mp hAligned

/-- An aligned word lies in one page, so an argument that is accepted can be read. -/
theorem Launch.readable_slot (l : Launch depth) (hParams : l.params ≠ 0) {i : Nat}
    (hi : i < l.args.length) (hSafe : slotLooksSafe (l.slot i) = true) :
    (l.memory.safeReadQword (l.slot i)).isSome = true := by
  have hPlace : l.place i l.args[i] = l.slot i := if_neg hParams
  have hFirst := l.stored i l.args[i] (List.getElem?_eq_getElem hi) 0
    (l.sized _ (List.getElem_mem hi)).1
  rw [hPlace, Nat.add_zero] at hFirst
  have hAligned := slotLooksSafe_aligned hSafe
  have hPage : (l.slot i + 7) / 4096 = l.slot i / 4096 := by omega
  rw [Memory.safeReadQword, hPage, hFirst]
  rfl

theorem Launch.mem_exact (l : Launch depth) {c : Nat} :
    c ∈ scanExact l.memory l.params l.args.length ↔ ∃ i, l.Reached true i ∧ l.word i = c := by
  rw [mem_scanExact]
  constructor
  · rintro ⟨hParams, i, hi, hAccepted, hWord⟩
    exact ⟨i, ⟨hParams, hi, hAccepted⟩, hWord⟩
  · rintro ⟨i, ⟨hParams, hi, hAccepted⟩, hWord⟩
    exact ⟨hParams, i, hi, hAccepted, hWord⟩

theorem Launch.mem_safe (l : Launch depth) (hArgs : 0 < l.args.length) {c : Nat} :
    c ∈ scanSafe l.memory l.params depth ↔ ∃ i, l.Reached false i ∧ l.word i = c := by
  rw [scanSafe]
  split
  · rename_i hNull
    simp only [List.not_mem_nil, false_iff]
    rintro ⟨i, ⟨hParams, _⟩, _⟩
    exact hParams hNull
  · rename_i hParams
    have hProbe : l.memory.safeReadQword l.params = some (l.memory.qword l.params) := by
      have hLow := l.array hParams 0 hArgs 0 (by decide)
      have hHigh := l.array hParams 0 hArgs 7 (by decide)
      rw [Memory.safeReadQword, show l.memory.readable (l.params / 4096) = true from hLow,
        show l.memory.readable ((l.params + 7) / 4096) = true from hHigh]
      rfl
    rw [hProbe]
    dsimp only
    rw [mem_scanFrom]
    constructor
    · rintro ⟨j, _, hDepth, hWord, hAll⟩
      exact ⟨j, ⟨hParams, by omega, fun k hk => ⟨(hAll k (Nat.zero_le k) hk).1,
        fun _ => (hAll k (Nat.zero_le k) hk).2⟩⟩, hWord⟩
    · rintro ⟨j, ⟨_, hDepth, hAll⟩, hWord⟩
      refine ⟨j, Nat.zero_le j, by omega, hWord, fun k _ hk => ⟨(hAll k hk).1, ?_⟩⟩
      by_cases hArg : k < l.args.length
      · exact l.readable_slot hParams hArg (hAll k hk).1
      · exact (hAll k hk).2 (Nat.le_of_not_lt hArg)

/-- What the scan of a launch with parameters looks up. -/
theorem Launch.mem_scanned (l : Launch depth) (hArgs : 0 < l.args.length) {entry : Entry} {c : Nat} :
    c ∈ l.scanned depth entry ↔ ∃ i, l.Reached entry.exact i ∧ l.word i = c := by
  cases entry with
  | runtime => exact l.mem_safe hArgs
  | driver known =>
      cases known with
      | false => exact l.mem_safe hArgs
      | true =>
          rw [KernelCall.scanned, if_pos hArgs]
          exact l.mem_exact

theorem Launch.PointsTo.args {l : Launch depth} {t : Table Flags} {k : Nat} {e : Alloc Flags}
    (h : l.PointsTo t k e) : 0 < l.args.length := by
  obtain ⟨_, _, i, p, hp, _⟩ := h
  exact Nat.zero_lt_of_lt (List.getElem?_eq_some_iff.mp hp).1

theorem Launch.Reached.args {l : Launch depth} {i : Nat} (h : l.Reached true i) : 0 < l.args.length :=
  Nat.zero_lt_of_lt h.2.1

/-- With an array whose addresses are all accepted, either scan comes to each argument. -/
theorem Launch.reached_of_accepted (l : Launch depth) (hParams : l.params ≠ 0)
    (hAccepted : ∀ i < l.args.length, slotLooksSafe (l.slot i) = true) (exact : Bool) {i : Nat}
    (hi : i < l.args.length) : l.Reached exact i := by
  refine ⟨hParams, ?_⟩
  cases exact with
  | true => exact ⟨hi, hAccepted i hi⟩
  | false =>
      refine ⟨Nat.lt_of_lt_of_le hi l.fits, fun j hj => ⟨hAccepted j (by omega), fun hBehind => ?_⟩⟩
      exact absurd hi (by omega)

theorem Gcr.has_markWords (t : Table GcrFlags) (dirty : Ranges Nat) (words : List Nat) (addr : Nat) :
    (Gcr.markWords t dirty words).Has addr ↔
      dirty.Has addr ∨ ∃ c ∈ words, ∃ r, Gcr.markAllocDirty t c = some r ∧ r.Covers addr := by
  induction words generalizing dirty with
  | nil => simp [Gcr.markWords]
  | cons c rest ih =>
      rw [Gcr.markWords, List.foldl_cons, ← Gcr.markWords, ih, List.exists_mem_cons_iff]
      cases hMark : Gcr.markAllocDirty t c with
      | none => simp
      | some r =>
          dsimp only
          rw [Ranges.has_insert]
          constructor
          · rintro ((hr | hDirty) | hRest)
            · exact .inr (.inl ⟨r, rfl, hr⟩)
            · exact .inl hDirty
            · exact .inr (.inr hRest)
          · rintro (hDirty | ⟨r', hSame, hr⟩ | hRest)
            · exact .inl (.inr hDirty)
            · cases hSame
              exact .inl (.inl hr)
            · exact .inr hRest

/-- A flag changes nothing that a lookup reads. -/
theorem Phos.findAllocIdx_markDirtyVa (t : Table PhosFlags) (c addr : Nat) :
    (Phos.markDirtyVa c t).findAllocIdx addr = t.findAllocIdx addr := by
  rcases Phos.markDirtyVa_cases c t with ⟨_, hSame⟩ | ⟨k, _, hFlag⟩
  · rw [hSame]
  · have hLooks : (t.allocs.modify k (Phos.setDirty true)).map (fun e => (e.alive, e.toRegion)) =
        t.allocs.map fun e => (e.alive, e.toRegion) := by
      apply List.ext_getElem?
      intro i
      rw [List.getElem?_map, List.getElem?_map, List.getElem?_modify]
      cases t.allocs[i]? with
      | none => rfl
      | some e =>
          simp only [Option.map_some]
          split <;> rfl
    have hFind : ∀ allocs : List (Alloc PhosFlags),
        (allocs.findIdx? fun e => e.alive && decide (e.Covers addr)) =
          (allocs.map fun e => (e.alive, e.toRegion)).findIdx? fun e => e.1 && decide (e.2.Covers addr) :=
      fun allocs => by
        rw [List.findIdx?_map]
        rfl
    rw [hFlag, Table.findAllocIdx, Table.findAllocIdx, hFind, hLooks, ← hFind]

theorem Phos.getElem?_markWords (t : Table PhosFlags) (words : List Nat) (k : Nat) :
    (Phos.markWords t words).allocs[k]? = (t.allocs[k]?).map fun e =>
      if ∃ c ∈ words, t.findAllocIdx c = some k then Phos.setDirty true e else e := by
  induction words generalizing t with
  | nil => simp [Phos.markWords]
  | cons c rest ih =>
      rw [Phos.markWords, List.foldl_cons, ← Phos.markWords, ih]
      simp only [Phos.findAllocIdx_markDirtyVa, List.exists_mem_cons_iff]
      rcases Phos.markDirtyVa_cases c t with ⟨hNone, hSame⟩ | ⟨i, hFind, hFlag⟩
      · rw [hSame, hNone]
        simp
      · rw [hFlag, hFind, List.getElem?_modify]
        cases t.allocs[k]? with
        | none => rfl
        | some e =>
            simp only [Option.map_some, Option.some.injEq]
            by_cases hHere : i = k <;> by_cases hRest : ∃ c ∈ rest, t.findAllocIdx c = some k <;>
              simp [hHere, hRest, Phos.setDirty]

theorem Gcr.pessimistic_iff (t : Table GcrFlags) (dirty : Ranges Nat) (l : Launch depth)
    (entry : Entry) : Gcr.Pessimistic t dirty l entry ↔ Gcr.Covering t dirty l entry := by
  have hHas : ∀ (words : List Nat) (reached : Nat → Prop),
      (∀ {c}, c ∈ words ↔ ∃ i, reached i ∧ l.word i = c) → ∀ addr,
      ((Gcr.markWords t dirty words).Has addr ↔ dirty.Has addr ∨
        ∃ i, reached i ∧ ∃ r, Gcr.markAllocDirty t (l.word i) = some r ∧ r.Covers addr) := by
    intro words reached hWords addr
    rw [Gcr.has_markWords]
    refine or_congr_right ?_
    constructor
    · rintro ⟨c, hc, hMark⟩
      obtain ⟨i, hi, rfl⟩ := hWords.mp hc
      exact ⟨i, hi, hMark⟩
    · rintro ⟨i, hi, hMark⟩
      exact ⟨l.word i, hWords.mpr ⟨i, hi, rfl⟩, hMark⟩
  constructor
  · intro h
    refine ⟨fun k e hPoints addr hAddr => ?_, fun i hi r hMark addr hr => ?_⟩
    · exact (hHas _ _ (l.mem_scanned hPoints.args) addr).mp (h.whole k e hPoints addr hAddr)
    · have hExact := (hHas _ _ l.mem_exact addr).mpr (.inr ⟨i, hi, r, hMark, hr⟩)
      exact (hHas _ _ (l.mem_safe hi.args) addr).mp (h.atLeast addr hExact)
  · intro h
    refine ⟨fun k e hPoints addr hAddr => ?_, fun addr hExact => ?_⟩
    · exact (hHas _ _ (l.mem_scanned hPoints.args) addr).mpr (h.pointers k e hPoints addr hAddr)
    · rcases (hHas _ _ l.mem_exact addr).mp hExact with hDirty | ⟨i, hi, r, hMark, hr⟩
      · exact (Gcr.has_markWords t dirty _ addr).mpr (.inl hDirty)
      · exact (hHas _ _ (l.mem_safe hi.args) addr).mpr (h.others i hi r hMark addr hr)

theorem Phos.pessimistic_iff (t : Table PhosFlags) (l : Launch depth) (entry : Entry) :
    Phos.Pessimistic t l entry ↔ Phos.Covering t l entry := by
  -- a flag behind the scan, for an entry of the table
  have hFlag : ∀ (words : List Nat) {k : Nat} {e : Alloc PhosFlags}, t.allocs[k]? = some e →
      ((∀ e' : Alloc PhosFlags, (Phos.markWords t words).allocs[k]? = some e' →
        e'.flags.dirtyThisRound = true) ↔
          e.flags.dirtyThisRound = true ∨ ∃ c ∈ words, t.findAllocIdx c = some k) := by
    intro words k e he
    rw [Phos.getElem?_markWords, he, Option.map_some]
    by_cases hFound : ∃ c ∈ words, t.findAllocIdx c = some k <;> simp [hFound, Phos.setDirty]
  have hWords : ∀ {words : List Nat} {reached : Nat → Prop},
      (∀ {c}, c ∈ words ↔ ∃ i, reached i ∧ l.word i = c) → ∀ k,
      ((∃ c ∈ words, t.findAllocIdx c = some k) ↔
        ∃ i, reached i ∧ t.findAllocIdx (l.word i) = some k) := by
    intro words reached hWords k
    constructor
    · rintro ⟨c, hc, hFind⟩
      obtain ⟨i, hi, rfl⟩ := hWords.mp hc
      exact ⟨i, hi, hFind⟩
    · rintro ⟨i, hi, hFind⟩
      exact ⟨l.word i, hWords.mpr ⟨i, hi, rfl⟩, hFind⟩
  constructor
  · intro h
    refine ⟨fun k e hPoints => ?_, fun i hi k e hFind he => ?_⟩
    · rw [← hWords (l.mem_scanned hPoints.args), ← hFlag _ hPoints.1]
      exact h.whole k e hPoints
    · rw [← hWords (l.mem_safe hi.args), ← hFlag _ he]
      intro e'
      refine h.atLeast k (Phos.setDirty true e) e' ?_ rfl
      rw [Phos.getElem?_markWords, he, Option.map_some, if_pos]
      exact (hWords l.mem_exact k).mpr ⟨i, hi, hFind⟩
  · intro h
    refine ⟨fun k e hPoints => ?_, fun k e e' hExact hDirty => ?_⟩
    · have hReached := h.pointers k e hPoints
      rw [← hWords (l.mem_scanned hPoints.args), ← hFlag _ hPoints.1] at hReached
      exact hReached
    · rw [Phos.getElem?_markWords, Option.map_eq_some_iff] at hExact
      obtain ⟨e₀, he₀, rfl⟩ := hExact
      refine (hFlag _ he₀).mpr ?_ e'
      split at hDirty
      · rename_i hFound
        obtain ⟨i, hi, hFind⟩ := (hWords l.mem_exact k).mp hFound
        rw [hWords (l.mem_safe hi.args)]
        exact h.others i hi k e₀ hFind he₀
      · exact .inl hDirty

/-- Where live allocations are apart, nothing is missed of a launch whose argument addresses
are all accepted. -/
theorem Phos.covering_of_accepted {t : Table PhosFlags} {l : Launch depth} (hParams : l.params ≠ 0)
    (hAccepted : ∀ i < l.args.length, slotLooksSafe (l.slot i) = true)
    (hApart : ∀ k e, t.allocs[k]? = some e → e.alive = true → ∀ addr, e.Covers addr →
      t.findAllocIdx addr = some k) (entry : Entry) : Phos.Covering t l entry where
  pointers := by
    rintro k e ⟨he, hAlive, i, p, hp, _, hCovers⟩
    have hi := (List.getElem?_eq_some_iff.mp hp).1
    have hPlace : l.place i p = l.slot i := if_neg hParams
    rw [hPlace] at hCovers
    exact .inr ⟨i, l.reached_of_accepted hParams hAccepted entry.exact hi,
      hApart k e he hAlive _ hCovers⟩
  others := fun i hi _ _ hFind _ =>
    .inr ⟨i, l.reached_of_accepted hParams hAccepted false hi.2.1, hFind⟩

/-- The fallback of both emulators marks all that a launch may write if and only if what its
pointers point into is reached. -/
theorem fallback_iff (depth : Nat) (l : Launch depth) (entry : Entry) :
    (∀ t dirty, Gcr.Pessimistic t dirty l entry ↔ Gcr.Covering t dirty l entry) ∧
      ∀ t, Phos.Pessimistic t l entry ↔ Phos.Covering t l entry :=
  ⟨fun t dirty => Gcr.pessimistic_iff t dirty l entry, fun t => Phos.pessimistic_iff t l entry⟩

/-- Two arguments on the stack: an `int` at an address that ends in 4 and a device pointer
behind it. -/
def intFirst : Launch 16 where
  memory := ⟨ByteImage.writeAll (fun _ => 0)
    [⟨0x7ffe00000000, ByteImage.leBytes 8 0x7ffe00000104⟩,
      ⟨0x7ffe00000008, ByteImage.leBytes 8 0x7ffe00000108⟩,
      ⟨0x7ffe00000108, ByteImage.leBytes 8 0x7f0000000000⟩], fun _ => true⟩
  params := 0x7ffe00000000
  extra := 0
  args := [⟨0, 4, false⟩, ⟨8, 8, true⟩]
  fits := by decide
  array := fun _ _ _ _ _ => rfl
  stored := fun _ _ _ _ _ => rfl
  sized := by decide

/-- `cudaLaunchKernel`: the scan ends at the `int`. -/
theorem not_pessimistic_intFirst :
    (¬ ∀ depth t dirty (l : Launch depth) entry, Gcr.Pessimistic t dirty l entry) ∧
      ¬ ∀ depth t (l : Launch depth) entry, Phos.Pessimistic t l entry := by
  constructor
  · intro h
    have hWhole := (h 16 ⟨[⟨⟨0x7f0000000000, 0x200000⟩, none, true, ⟨false⟩⟩], 0, false⟩ .empty
      intFirst .runtime).whole 0 ⟨⟨0x7f0000000000, 0x200000⟩, none, true, ⟨false⟩⟩
      ⟨rfl, rfl, 1, ⟨8, 8, true⟩, rfl, rfl, by decide +kernel⟩ 0x7f0000000000 (by decide)
    have hScan : intFirst.scanned 16 .runtime = [] := by decide +kernel
    rw [hScan] at hWhole
    obtain ⟨r, hr, _⟩ := hWhole
    cases hr
  · intro h
    have hWhole := (h 16 ⟨[⟨⟨0x7f0000000000, 0x200000⟩, none, true, ⟨false, false⟩⟩], 0, false⟩
      intFirst .runtime).whole 0 ⟨⟨0x7f0000000000, 0x200000⟩, none, true, ⟨false, false⟩⟩
      ⟨rfl, rfl, 1, ⟨8, 8, true⟩, rfl, rfl, by decide +kernel⟩
    have hScan : intFirst.scanned 16 .runtime = [] := by decide +kernel
    rw [Phos.scanKernelParams, if_pos rfl, hScan] at hWhole
    exact Bool.false_ne_true (hWhole _ rfl)

end FlashCkpt.Emul
