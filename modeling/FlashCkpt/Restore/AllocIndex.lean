import FlashCkpt.Restore.InApp

/-! The allocation hooks of `libckpt_vllm.c`. At checkpoint time every hook
appends an entry to the table in the gate; in a restored process a counter of its
own says which entry of the snapshot fills the new allocation. -/
namespace FlashCkpt.Restore

/-- The intercepted allocation functions. -/
inductive EntryPoint where
  | cudaMalloc
  | cudaMallocAsync
  | cuMemAllocV2
  | cudaMallocManaged
  deriving DecidableEq, Repr

/-- The symbols the library found behind its hooks. -/
structure Symbols where
  cudaMallocManaged : Bool
  cuMemAllocManaged : Bool
  cudaMemcpy : Bool
  deriving DecidableEq, Repr

/-- A call of the application. An allocation carries the address the real function
returned, none if that failed. -/
inductive Call where
  | alloc (entry : EntryPoint) (size : Nat) (answer : Option Nat)
  | free (va : Nat)
  deriving DecidableEq, Repr

/-- `ckpt_alloc_entry_t` with the flag `CKPT_ALLOC_FLAG_FREED`. -/
structure TableEntry where
  va : Nat
  size : Nat
  freed : Bool
  deriving DecidableEq, Repr

/-- The allocation table of the gate and `g_restore_alloc_idx`. -/
structure Process where
  userVa : Nat
  userSize : Nat
  table : List TableEntry
  restoreAllocIdx : Nat
  deriving DecidableEq, Repr

def Process.fresh : Process := ⟨0, 0, [], 0⟩

/-- What a hook did: the index of the entry it appended, and the index of the
snapshot entry it filled the allocation from. -/
structure Hooked where
  recorded : Option Nat
  applied : Option Nat
  deriving DecidableEq, Repr

def Hooked.idle : Hooked := ⟨none, none⟩

/-- `gate_record_alloc`. -/
def gateRecordAlloc (p : Process) (va size : Nat) : Process × Option Nat :=
  if va = 0 then (p, none)
  else
    let q := if p.userSize < size then { p with userVa := va, userSize := size } else p
    if q.table.length < gateAllocMax then
      ({ q with table := q.table ++ [⟨va, size, false⟩] }, some q.table.length)
    else (q, none)

def markFirst (va : Nat) : List TableEntry → List TableEntry
  | [] => []
  | e :: rest =>
      if e.va = va ∧ e.freed = false then { e with freed := true } :: rest
      else e :: markFirst va rest

/-- `gate_mark_freed`: the last live entry with the address. -/
def gateMarkFreed (p : Process) (va : Nat) : Process :=
  if va = 0 then p else { p with table := (markFirst va p.table.reverse).reverse }

/-- The index `restore_apply_alloc` takes in a process that restores a snapshot
with `total` entries. -/
def takeIndex (syms : Symbols) (total : Option Nat) (p : Process) : Process × Option Nat :=
  match total with
  | none => (p, none)
  | some n =>
      if syms.cudaMemcpy then
        ({ p with restoreAllocIdx := (p.restoreAllocIdx + 1) % 2 ^ 32 },
          if p.restoreAllocIdx < n then some p.restoreAllocIdx else none)
      else (p, none)

/-- A hook that replaces device memory by managed memory. -/
def managedInstead (found : Bool) (syms : Symbols) (total : Option Nat) (p : Process)
    (size : Nat) (answer : Option Nat) : Process × Hooked :=
  match found, answer with
  | true, some va =>
      let (q, recorded) := gateRecordAlloc p va size
      let (r, applied) := takeIndex syms total q
      (r, ⟨recorded, applied⟩)
  | _, _ => (p, .idle)

def cudaMalloc (syms : Symbols) : Option Nat → Process → Nat → Option Nat → Process × Hooked :=
  managedInstead syms.cudaMallocManaged syms

def cudaMallocAsync (syms : Symbols) :
    Option Nat → Process → Nat → Option Nat → Process × Hooked :=
  managedInstead syms.cudaMallocManaged syms

def cuMemAllocV2 (syms : Symbols) : Option Nat → Process → Nat → Option Nat → Process × Hooked :=
  managedInstead syms.cuMemAllocManaged syms

/-- The hook of `cudaMallocManaged` records the allocation and does not restore
it. -/
def cudaMallocManaged (syms : Symbols) (p : Process) (size : Nat) (answer : Option Nat) :
    Process × Hooked :=
  match syms.cudaMallocManaged, answer with
  | true, some va =>
      let (q, recorded) := gateRecordAlloc p va size
      (q, ⟨recorded, none⟩)
  | _, _ => (p, .idle)

def Call.exec (syms : Symbols) (total : Option Nat) (p : Process) : Call → Process × Hooked
  | .alloc .cudaMalloc size answer => cudaMalloc syms total p size answer
  | .alloc .cudaMallocAsync size answer => cudaMallocAsync syms total p size answer
  | .alloc .cuMemAllocV2 size answer => cuMemAllocV2 syms total p size answer
  | .alloc .cudaMallocManaged size answer => cudaMallocManaged syms p size answer
  | .free va => (gateMarkFreed p va, .idle)

/-- The calls of a process, with what each hook did. -/
def runHooks (syms : Symbols) (total : Option Nat) : Process → List Call → Process × List Hooked
  | p, [] => (p, [])
  | p, c :: rest =>
      let (q, hooked) := c.exec syms total p
      let (r, after) := runHooks syms total q rest
      (r, hooked :: after)

/-- The table of the snapshot taken after the calls. -/
def snapshot (syms : Symbols) (calls : List Call) : List TableEntry :=
  (runHooks syms none .fresh calls).1.table

/-- The index of the entry each call appended at checkpoint time. -/
def recorded (syms : Symbols) (calls : List Call) : List (Option Nat) :=
  (runHooks syms none .fresh calls).2.map Hooked.recorded

/-- The index of the snapshot entry each call of the restored process is filled
from. -/
def applied (syms : Symbols) (total : Nat) (calls : List Call) : List (Option Nat) :=
  (runHooks syms (some total) .fresh calls).2.map Hooked.applied

/-- The same call in the restored process: the allocator succeeds alike and may
return another address. -/
inductive Call.Same : Call → Call → Prop where
  | alloc (entry : EntryPoint) (size : Nat) {a b : Option Nat} (h : a.isSome = b.isSome) :
      Call.Same (.alloc entry size a) (.alloc entry size b)
  | free (va va' : Nat) : Call.Same (.free va) (.free va')

/-- The entry at an index is one of the snapshot's live allocations. -/
def Live (table : List TableEntry) (i : Nat) : Prop := ∃ e, table[i]? = some e ∧ e.freed = false

/-- A process that issues the calls again from a snapshot fills an allocation from
no entry but its own, and every live one from that. A snapshot without entries is
refused by `restore_init`. -/
def IndexAgrees (syms : Symbols) (calls : List Call) : Prop :=
  ∀ again, List.Forall₂ Call.Same calls again → snapshot syms calls ≠ [] →
    ∀ k : Nat,
      (∀ i, (applied syms (snapshot syms calls).length again)[k]? = some (some i) →
        (recorded syms calls)[k]? = some (some i)) ∧
      (∀ i, (recorded syms calls)[k]? = some (some i) → Live (snapshot syms calls) i →
        (applied syms (snapshot syms calls).length again)[k]? = some (some i))

/-- The call gives managed memory to the application. -/
def Call.managed (syms : Symbols) : Call → Bool
  | .alloc .cuMemAllocV2 _ answer => syms.cuMemAllocManaged && answer.isSome
  | .alloc _ _ answer => syms.cudaMallocManaged && answer.isSome
  | .free _ => false

/-- The call went to `cudaMallocManaged` itself. -/
def Call.direct : Call → Bool
  | .alloc .cudaMallocManaged _ _ => true
  | _ => false

def Call.null : Call → Bool
  | .alloc _ _ answer => answer == some 0
  | .free _ => false

/-- The calls that count for the table, and for the restored process. -/
def Call.records (syms : Symbols) (c : Call) : Bool := c.managed syms && !c.null

def Call.restores (syms : Symbols) (c : Call) : Bool := c.managed syms && !c.direct

/-- The order of calls in which both counters stay together. A recorded call of
`cudaMallocManaged` is freed before the snapshot and followed by no call of the
other three, a null pointer counted by the restored process is not followed by a
recorded call, and the restored process does not count past 32 bits. -/
structure CallsAligned (syms : Symbols) (calls : List Call) : Prop where
  directFreed : ∀ before c after, calls = before ++ c :: after →
    c.records syms → c.direct → ¬ Live (snapshot syms calls) (before.countP (Call.records syms))
  directLast : ∀ before c after, calls = before ++ c :: after →
    c.records syms → c.direct → before.countP (Call.records syms) < gateAllocMax →
    ∀ d ∈ after, ¬ d.restores syms
  nullLast : ∀ before c after, calls = before ++ c :: after →
    c.restores syms → c.null → before.countP (Call.records syms) < gateAllocMax →
    ∀ d ∈ after, ¬ d.records syms
  counted : snapshot syms calls ≠ [] → calls.countP (Call.restores syms) ≤ 2 ^ 32

/-- Without `cudaMemcpy` nothing is restored, which is right only for a snapshot
without live allocations. -/
def Replayable (syms : Symbols) (calls : List Call) : Prop :=
  if syms.cudaMemcpy then CallsAligned syms calls else ∀ i, ¬ Live (snapshot syms calls) i

section Runs

variable {syms : Symbols} {total : Option Nat} {p : Process}

theorem runHooks_append (before after : List Call) :
    runHooks syms total p (before ++ after) =
      ((runHooks syms total (runHooks syms total p before).1 after).1,
        (runHooks syms total p before).2 ++
          (runHooks syms total (runHooks syms total p before).1 after).2) := by
  induction before generalizing p with
  | nil => rfl
  | cons c rest ih => simp only [List.cons_append, runHooks, ih]

theorem length_runHooks (calls : List Call) :
    (runHooks syms total p calls).2.length = calls.length := by
  induction calls generalizing p with
  | nil => rfl
  | cons c rest ih => simp only [runHooks, List.length_cons, ih]

/-- The call at a position is made in the state the earlier ones left. -/
theorem hooked_getElem? (before after : List Call) (c : Call) :
    (runHooks syms total p (before ++ c :: after)).2[before.length]? =
      some (c.exec syms total (runHooks syms total p before).1).2 := by
  rw [runHooks_append, List.getElem?_append_right (by simp [length_runHooks]), length_runHooks,
    Nat.sub_self]
  rfl

theorem length_markFirst (va : Nat) (entries : List TableEntry) :
    (markFirst va entries).length = entries.length := by
  induction entries with
  | nil => rfl
  | cons e rest ih =>
      rw [markFirst]
      split <;> simp [ih]

theorem gateRecordAlloc_length (va size : Nat) (h : p.table.length ≤ gateAllocMax) :
    (gateRecordAlloc p va size).1.table.length =
      min (p.table.length + (if va = 0 then 0 else 1)) gateAllocMax := by
  by_cases hVa : va = 0
  · simp only [gateRecordAlloc, if_pos hVa]
    omega
  · simp only [gateRecordAlloc, if_neg hVa]
    split <;> split <;> simp_all <;> omega

theorem gateRecordAlloc_idx (va size : Nat) :
    (gateRecordAlloc p va size).1.restoreAllocIdx = p.restoreAllocIdx := by
  simp only [gateRecordAlloc]
  split <;> (try split) <;> (try split) <;> rfl

theorem gateRecordAlloc_recorded (va size : Nat) :
    (gateRecordAlloc p va size).2 =
      if va ≠ 0 ∧ p.table.length < gateAllocMax then some p.table.length else none := by
  by_cases hVa : va = 0
  · simp [gateRecordAlloc, hVa]
  · simp only [gateRecordAlloc, if_neg hVa]
    split <;> split <;> simp_all

theorem takeIndex_table : (takeIndex syms total p).1.table = p.table := by
  simp only [takeIndex]
  split
  · rfl
  · split <;> rfl

theorem gateMarkFreed_length (va : Nat) :
    (gateMarkFreed p va).table.length = p.table.length := by
  simp only [gateMarkFreed]
  split
  · rfl
  · simp [length_markFirst]

theorem exec_length (c : Call) (h : p.table.length ≤ gateAllocMax) :
    (c.exec syms total p).1.table.length =
      min (p.table.length + (if c.records syms then 1 else 0)) gateAllocMax := by
  cases c with
  | free va => simp [Call.exec, Call.records, Call.managed, gateMarkFreed_length, h]
  | alloc entry size answer =>
      cases entry <;> cases hManaged : syms.cudaMallocManaged <;>
        cases hDriver : syms.cuMemAllocManaged <;> cases answer <;>
        simp [Call.exec, cudaMalloc, cudaMallocAsync, cuMemAllocV2, cudaMallocManaged,
          managedInstead, Call.records, Call.managed, Call.null, takeIndex_table,
          gateRecordAlloc_length, hManaged, hDriver, h]

theorem exec_idx (c : Call) :
    (c.exec syms total p).1.restoreAllocIdx =
      if total.isSome && syms.cudaMemcpy && c.restores syms then
        (p.restoreAllocIdx + 1) % 2 ^ 32 else p.restoreAllocIdx := by
  cases c with
  | free va =>
      simp only [Call.exec, Call.restores, Call.managed, gateMarkFreed]
      split <;> simp
  | alloc entry size answer =>
      cases entry <;> cases hManaged : syms.cudaMallocManaged <;>
        cases hDriver : syms.cuMemAllocManaged <;> cases answer <;> cases total <;>
        cases hCopy : syms.cudaMemcpy <;>
        simp [Call.exec, cudaMalloc, cudaMallocAsync, cuMemAllocV2, cudaMallocManaged,
          managedInstead, Call.restores, Call.managed, Call.direct, takeIndex,
          gateRecordAlloc_idx, hManaged, hDriver, hCopy]

theorem exec_recorded (c : Call) :
    (c.exec syms total p).2.recorded =
      if c.records syms ∧ p.table.length < gateAllocMax then some p.table.length else none := by
  cases c with
  | free va => simp [Call.exec, Hooked.idle, Call.records, Call.managed]
  | alloc entry size answer =>
      cases entry <;> cases hManaged : syms.cudaMallocManaged <;>
        cases hDriver : syms.cuMemAllocManaged <;> cases answer <;>
        simp [Call.exec, cudaMalloc, cudaMallocAsync, cuMemAllocV2, cudaMallocManaged,
          managedInstead, Call.records, Call.managed, Call.null, Hooked.idle,
          gateRecordAlloc_recorded, hManaged, hDriver]

theorem exec_applied (c : Call) (n : Nat) :
    (c.exec syms (some n) p).2.applied =
      if syms.cudaMemcpy ∧ c.restores syms ∧ p.restoreAllocIdx < n then
        some p.restoreAllocIdx else none := by
  cases c with
  | free va => simp [Call.exec, Hooked.idle, Call.restores, Call.managed]
  | alloc entry size answer =>
      cases entry <;> cases hManaged : syms.cudaMallocManaged <;>
        cases hDriver : syms.cuMemAllocManaged <;> cases answer <;>
        cases hCopy : syms.cudaMemcpy <;>
        simp [Call.exec, cudaMalloc, cudaMallocAsync, cuMemAllocV2, cudaMallocManaged,
          managedInstead, Call.restores, Call.managed, Call.direct, Hooked.idle, takeIndex,
          gateRecordAlloc_idx, hManaged, hDriver, hCopy]

/-- The table holds one entry for each call that counts, up to its capacity. -/
theorem runHooks_length (calls : List Call) (h : p.table.length ≤ gateAllocMax) :
    (runHooks syms total p calls).1.table.length =
      min (p.table.length + calls.countP (Call.records syms)) gateAllocMax := by
  induction calls generalizing p with
  | nil =>
      simp only [runHooks, List.countP_nil]
      omega
  | cons c rest ih =>
      have hLength := @exec_length syms total p c h
      simp only [runHooks, List.countP_cons]
      rw [ih (by omega), hLength]
      omega

theorem runHooks_idx (hCopy : syms.cudaMemcpy = true) (n : Nat) (calls : List Call)
    (h : p.restoreAllocIdx < 2 ^ 32) :
    (runHooks syms (some n) p calls).1.restoreAllocIdx =
      (p.restoreAllocIdx + calls.countP (Call.restores syms)) % 2 ^ 32 := by
  induction calls generalizing p with
  | nil => simp only [runHooks, List.countP_nil, Nat.add_zero, Nat.mod_eq_of_lt h]
  | cons c rest ih =>
      have hIdx := @exec_idx syms (some n) p c
      simp only [hCopy, Option.isSome_some, Bool.true_and] at hIdx
      simp only [runHooks, List.countP_cons]
      split at hIdx
      · rename_i hRestores
        rw [ih (by omega), hIdx, if_pos hRestores]
        omega
      · rename_i hRestores
        rw [ih (by omega), hIdx, if_neg hRestores, Nat.add_zero]

theorem applied_eq_of_same {calls again : List Call} (h : List.Forall₂ Call.Same calls again)
    (n : Nat) {q : Process} (hIdx : p.restoreAllocIdx = q.restoreAllocIdx) :
    (runHooks syms (some n) q again).2.map Hooked.applied =
      (runHooks syms (some n) p calls).2.map Hooked.applied := by
  induction h generalizing p q with
  | nil => rfl
  | @cons c d rest rest' hSame _ ih =>
      have hRestores : d.restores syms = c.restores syms := by
        cases hSame with
        | free va va' => rfl
        | alloc entry size hSome =>
            cases entry <;> simp only [Call.restores, Call.managed, Call.direct, hSome]
      simp only [runHooks, List.map_cons, exec_applied, hRestores, hIdx]
      rw [ih]
      rw [exec_idx, exec_idx, hRestores, hIdx]

end Runs

theorem Call.Same.refl : ∀ c : Call, Call.Same c c
  | .alloc entry size _ => .alloc entry size rfl
  | .free va => .free va va

section Positions

variable {syms : Symbols} {calls : List Call}

theorem length_snapshot :
    (snapshot syms calls).length = min (calls.countP (Call.records syms)) gateAllocMax := by
  have hLength := @runHooks_length syms none .fresh calls (Nat.zero_le gateAllocMax)
  rw [snapshot, hLength]
  simp [Process.fresh]

theorem recorded_getElem? (before after : List Call) (c : Call) (i : Nat) :
    (recorded syms (before ++ c :: after))[before.length]? = some (some i) ↔
      c.records syms ∧ before.countP (Call.records syms) < gateAllocMax ∧
        i = before.countP (Call.records syms) := by
  have hLength := @runHooks_length syms none .fresh before (Nat.zero_le gateAllocMax)
  rw [recorded, List.getElem?_map, hooked_getElem?, Option.map_some, exec_recorded, hLength]
  simp only [Process.fresh, List.length_nil, Nat.zero_add, Option.some.injEq]
  constructor
  · intro h
    split at h
    · rename_i hRoom
      cases h
      exact ⟨hRoom.1, by omega, by omega⟩
    · cases h
  · rintro ⟨hRecords, hRoom, rfl⟩
    rw [if_pos ⟨hRecords, by omega⟩, Nat.min_eq_left (by omega)]

theorem applied_getElem? (hCopy : syms.cudaMemcpy = true) (n : Nat) (before after : List Call)
    (c : Call) (i : Nat) :
    (applied syms n (before ++ c :: after))[before.length]? = some (some i) ↔
      c.restores syms ∧ i = before.countP (Call.restores syms) % 2 ^ 32 ∧ i < n := by
  have hIdx := @runHooks_idx syms .fresh hCopy n before (by decide)
  rw [applied, List.getElem?_map, hooked_getElem?, Option.map_some, exec_applied, hIdx]
  simp only [Process.fresh, Nat.zero_add, hCopy, true_and, Option.some.injEq]
  constructor
  · intro h
    split at h
    · rename_i hTaken
      cases h
      exact ⟨hTaken.1, rfl, hTaken.2⟩
    · cases h
  · rintro ⟨hRestores, rfl, hLt⟩
    rw [if_pos ⟨hRestores, hLt⟩]

theorem live_lt {table : List TableEntry} {i : Nat} (h : Live table i) : i < table.length := by
  obtain ⟨e, hEntry, _⟩ := h
  exact (List.getElem?_eq_some_iff.mp hEntry).1

/-- What the two properties say of one call of the sequence. -/
structure Agrees (syms : Symbols) (calls before : List Call) (c : Call) : Prop where
  own : c.restores syms →
    before.countP (Call.restores syms) % 2 ^ 32 < (snapshot syms calls).length →
    c.records syms ∧
      before.countP (Call.records syms) = before.countP (Call.restores syms) % 2 ^ 32
  served : c.records syms → Live (snapshot syms calls) (before.countP (Call.records syms)) →
    c.restores syms ∧
      before.countP (Call.restores syms) % 2 ^ 32 = before.countP (Call.records syms)

theorem indexAgrees_iff_forall (hCopy : syms.cudaMemcpy = true) :
    IndexAgrees syms calls ↔ (snapshot syms calls ≠ [] →
      ∀ before c after, calls = before ++ c :: after → Agrees syms calls before c) := by
  constructor
  · intro h hSnap before c after hCalls
    obtain ⟨hOwn, hServed⟩ := h calls (List.forall₂_same.mpr fun c _ => Call.Same.refl c) hSnap
      before.length
    have hRecorded := fun i => @recorded_getElem? syms before after c i
    have hApplied := applied_getElem? hCopy (snapshot syms calls).length before after c
    rw [← hCalls] at hApplied
    simp only [← hCalls] at hRecorded
    refine ⟨fun hRestores hLt => ?_, fun hRecords hLive => ?_⟩
    · obtain ⟨hRecords, _, hEq⟩ := (hRecorded _).mp (hOwn _ ((hApplied _).mpr ⟨hRestores, rfl, hLt⟩))
      exact ⟨hRecords, hEq.symm⟩
    · have hLt := live_lt hLive
      rw [length_snapshot] at hLt
      obtain ⟨hRestores, hEq, _⟩ := (hApplied _).mp
        (hServed _ ((hRecorded _).mpr ⟨hRecords, by omega, rfl⟩) hLive)
      exact ⟨hRestores, hEq.symm⟩
  · intro h again hSame hSnap k
    have hAgain : applied syms (snapshot syms calls).length again =
        applied syms (snapshot syms calls).length calls := applied_eq_of_same hSame _ rfl
    rw [hAgain]
    by_cases hk : k < calls.length
    · have hCalls : calls = calls.take k ++ calls[k] :: calls.drop (k + 1) := by simp
      have hTake : (calls.take k).length = k := by simp; omega
      have hAgrees := h hSnap _ _ _ hCalls
      have hRecorded := fun i =>
        @recorded_getElem? syms (calls.take k) (calls.drop (k + 1)) calls[k] i
      have hApplied := applied_getElem? hCopy (snapshot syms calls).length (calls.take k)
        (calls.drop (k + 1)) calls[k]
      simp only [← hCalls, hTake] at hRecorded hApplied
      refine ⟨fun i hi => ?_, fun i hi hLive => ?_⟩
      · obtain ⟨hRestores, rfl, hLt⟩ := (hApplied i).mp hi
        obtain ⟨hRecords, hEq⟩ := hAgrees.own hRestores hLt
        rw [length_snapshot] at hLt
        exact (hRecorded _).mpr ⟨hRecords, by omega, hEq.symm⟩
      · obtain ⟨hRecords, _, rfl⟩ := (hRecorded i).mp hi
        obtain ⟨hRestores, hEq⟩ := hAgrees.served hRecords hLive
        exact (hApplied _).mpr ⟨hRestores, hEq.symm, live_lt hLive⟩
    · have hNone : (recorded syms calls)[k]? = none := by
        simp [recorded, length_runHooks]; omega
      have hNone' : (applied syms (snapshot syms calls).length calls)[k]? = none := by
        simp [applied, length_runHooks]; omega
      simp [hNone, hNone']

theorem direct_of_records {c : Call} (hRecords : c.records syms) (h : ¬ c.restores syms) :
    c.direct := by
  simp only [Call.records, Call.restores] at hRecords h
  cases hDirect : c.direct <;> simp_all

theorem not_restores_of_direct {c : Call} (h : c.direct) : ¬ c.restores syms := by
  simp [Call.restores, h]

theorem null_of_restores {c : Call} (hRestores : c.restores syms) (h : ¬ c.records syms) :
    c.null := by
  simp only [Call.records, Call.restores] at hRestores h
  cases hNull : c.null <;> simp_all

theorem not_records_of_null {c : Call} (h : c.null) : ¬ c.records syms := by
  simp [Call.records, h]

/-- Both counters count the call, or neither does. -/
def Call.Even (syms : Symbols) (c : Call) : Prop := c.records syms ↔ c.restores syms

theorem countP_eq_of_even {before : List Call} (h : ∀ c ∈ before, c.Even syms) :
    before.countP (Call.records syms) = before.countP (Call.restores syms) :=
  List.countP_congr h

/-- The calls are even, or there is a first one that is not. -/
theorem even_or_first_odd (calls : List Call) :
    (∀ c ∈ calls, c.Even syms) ∨ ∃ before c after, calls = before ++ c :: after ∧
      (∀ d ∈ before, d.Even syms) ∧ ¬ c.Even syms := by
  induction calls with
  | nil => exact Or.inl (by simp)
  | cons c rest ih =>
      by_cases hEven : c.Even syms
      · rcases ih with hAll | ⟨before, d, after, rfl, hBefore, hOdd⟩
        · exact Or.inl (List.forall_mem_cons.mpr ⟨hEven, hAll⟩)
        · exact Or.inr ⟨c :: before, d, after, rfl, List.forall_mem_cons.mpr ⟨hEven, hBefore⟩, hOdd⟩
      · exact Or.inr ⟨[], c, rest, rfl, by simp, hEven⟩

theorem odd_cases {c : Call} (h : ¬ c.Even syms) :
    (c.records syms ∧ ¬ c.restores syms) ∨ (c.restores syms ∧ ¬ c.records syms) := by
  simp only [Call.Even] at h
  tauto

/-- The call that a counter of the sequence reaches with a given value. -/
theorem exists_split_countP (q : Call → Bool) {n : Nat} :
    ∀ {calls : List Call}, n < calls.countP q →
      ∃ before c after, calls = before ++ c :: after ∧ q c ∧ before.countP q = n := by
  intro calls
  induction calls generalizing n with
  | nil => simp
  | cons c rest ih =>
      intro h
      by_cases hc : q c
      · cases n with
        | zero => exact ⟨[], c, rest, rfl, hc, rfl⟩
        | succ m =>
            rw [List.countP_cons_of_pos hc] at h
            obtain ⟨before, d, after, rfl, hd, hCount⟩ := ih (Nat.lt_of_succ_lt_succ h)
            exact ⟨c :: before, d, after, rfl, hd, by rw [List.countP_cons_of_pos hc, hCount]⟩
      · rw [List.countP_cons_of_neg hc] at h
        obtain ⟨before, d, after, rfl, hd, hCount⟩ := ih h
        exact ⟨c :: before, d, after, rfl, hd, by rw [List.countP_cons_of_neg hc, hCount]⟩

/-- Up to a call that is restored the counters agree, unless the table is full or
ends before. -/
theorem CallsAligned.even_before (h : CallsAligned syms calls) {before after : List Call} {c : Call}
    (hCalls : calls = before ++ c :: after) (hRestores : c.restores syms) :
    (∀ d ∈ before, d.Even syms) ∨
      (gateAllocMax ≤ before.countP (Call.records syms) ∧
        gateAllocMax ≤ before.countP (Call.restores syms)) ∨
      (calls.countP (Call.records syms) ≤ before.countP (Call.restores syms) ∧
        ¬ c.records syms) := by
  rcases @even_or_first_odd syms before with hAll | ⟨pre, x, mid, rfl, hPre, hOdd⟩
  · exact Or.inl hAll
  · have hSplit : calls = pre ++ x :: (mid ++ c :: after) := by rw [hCalls]; simp
    have hCount := countP_eq_of_even hPre
    have hc : c ∈ mid ++ c :: after := by simp
    refine Or.inr ?_
    by_cases hRoom : pre.countP (Call.records syms) < gateAllocMax
    · rcases odd_cases hOdd with ⟨hRecords, hNot⟩ | ⟨hRestores', hNot⟩
      · exact absurd hRestores
          (h.directLast _ _ _ hSplit hRecords (direct_of_records hRecords hNot) hRoom c hc)
      · have hLast := h.nullLast _ _ _ hSplit hRestores' (null_of_restores hRestores' hNot) hRoom
        have hZero : (mid ++ c :: after).countP (Call.records syms) = 0 :=
          List.countP_eq_zero.mpr hLast
        refine Or.inr ⟨?_, hLast c hc⟩
        rw [hSplit, List.countP_append, List.countP_cons_of_neg hNot, hZero, List.countP_append]
        omega
    · refine Or.inl ⟨?_, ?_⟩ <;> rw [List.countP_append] <;> omega

theorem agrees_of_callsAligned (h : CallsAligned syms calls) (hSnap : snapshot syms calls ≠ [])
    {before after : List Call} {c : Call} (hCalls : calls = before ++ c :: after) :
    Agrees syms calls before c := by
  have hTotal := @length_snapshot syms calls
  have hFew := h.counted hSnap
  have hRestoresAll : calls.countP (Call.restores syms) =
      before.countP (Call.restores syms) + (c :: after).countP (Call.restores syms) := by
    rw [hCalls, List.countP_append]
  have hRecordsAll : calls.countP (Call.records syms) =
      before.countP (Call.records syms) + (c :: after).countP (Call.records syms) := by
    rw [hCalls, List.countP_append]
  constructor
  · intro hRestores hLt
    rw [List.countP_cons_of_pos hRestores] at hRestoresAll
    have hMod : before.countP (Call.restores syms) % 2 ^ 32 = before.countP (Call.restores syms) :=
      Nat.mod_eq_of_lt (by omega)
    rw [hMod] at hLt ⊢
    rcases h.even_before hCalls hRestores with hEven | ⟨_, hFull⟩ | ⟨hEnd, _⟩
    · refine ⟨?_, countP_eq_of_even hEven⟩
      by_contra hNot
      have hCount := countP_eq_of_even hEven
      have hLast := h.nullLast _ _ _ hCalls hRestores (null_of_restores hRestores hNot) (by omega)
      rw [List.countP_cons_of_neg hNot, List.countP_eq_zero.mpr hLast] at hRecordsAll
      omega
    · omega
    · omega
  · intro hRecords hLive
    have hLt := live_lt hLive
    have hRestores : c.restores syms := by
      by_contra hNot
      exact h.directFreed _ _ _ hCalls hRecords (direct_of_records hRecords hNot) hLive
    refine ⟨hRestores, ?_⟩
    rw [List.countP_cons_of_pos hRestores] at hRestoresAll
    rw [Nat.mod_eq_of_lt (by omega)]
    rcases h.even_before hCalls hRestores with hEven | ⟨hFull, _⟩ | ⟨_, hEnd⟩
    · exact (countP_eq_of_even hEven).symm
    · omega
    · exact absurd hRecords hEnd

section Necessity

variable (hAll : ∀ before c after, calls = before ++ c :: after → Agrees syms calls before c)

include hAll

/-- After a first entry that the restored process does not count, any call it
counts would be filled from that entry. -/
theorem not_restores_of_first {before after : List Call} {x : Call}
    (hCalls : calls = before ++ x :: after) (hEven : ∀ d ∈ before, d.Even syms)
    (hRecords : x.records syms) (hNot : ¬ x.restores syms)
    (hRoom : before.countP (Call.records syms) < gateAllocMax) :
    ∀ d ∈ after, ¬ d.restores syms := by
  intro d hd hRestores
  have hSome : 0 < after.countP (Call.restores syms) := List.countP_pos_iff.mpr ⟨d, hd, hRestores⟩
  obtain ⟨mid, e, rest, rfl, he, hNone⟩ := exists_split_countP (Call.restores syms) hSome
  have hSplit : calls = (before ++ x :: mid) ++ e :: rest := by rw [hCalls]; simp
  have hCount : (before ++ x :: mid).countP (Call.restores syms) =
      before.countP (Call.records syms) := by
    rw [List.countP_append, List.countP_cons_of_neg hNot, hNone, countP_eq_of_even hEven]
    rfl
  have hMore : before.countP (Call.records syms) < (before ++ x :: mid).countP (Call.records syms) := by
    rw [List.countP_append, List.countP_cons_of_pos hRecords]
    omega
  have hMod : before.countP (Call.records syms) % 2 ^ 32 = before.countP (Call.records syms) :=
    Nat.mod_eq_of_lt (Nat.lt_trans hRoom (by decide))
  have hTotal := @length_snapshot syms calls
  rw [hSplit, List.countP_append] at hTotal
  have hOwn := (hAll _ _ _ hSplit).own he
  rw [hCount, hMod, hSplit] at hOwn
  have hEq := (hOwn (by omega)).2
  omega

/-- A null pointer counted before a later entry would be filled from that entry. -/
theorem not_records_of_first {before after : List Call} {x : Call}
    (hCalls : calls = before ++ x :: after) (hEven : ∀ d ∈ before, d.Even syms)
    (hRestores : x.restores syms) (hNot : ¬ x.records syms)
    (hRoom : before.countP (Call.records syms) < gateAllocMax) :
    ∀ d ∈ after, ¬ d.records syms := by
  intro d hd hRecords
  have hSome : 0 < after.countP (Call.records syms) := List.countP_pos_iff.mpr ⟨d, hd, hRecords⟩
  have hMod : before.countP (Call.restores syms) % 2 ^ 32 = before.countP (Call.records syms) := by
    rw [← countP_eq_of_even hEven]
    exact Nat.mod_eq_of_lt (Nat.lt_trans hRoom (by decide))
  have hTotal := @length_snapshot syms calls
  have hRecordsAll : calls.countP (Call.records syms) =
      before.countP (Call.records syms) + after.countP (Call.records syms) := by
    rw [hCalls, List.countP_append, List.countP_cons_of_neg hNot]
  exact hNot ((hAll _ _ _ hCalls).own hRestores (by omega)).1

theorem callsAligned_of_agrees (hSnap : snapshot syms calls ≠ []) : CallsAligned syms calls where
  directFreed := by
    intro before c after hCalls hRecords hDirect hLive
    exact not_restores_of_direct hDirect ((hAll _ _ _ hCalls).served hRecords hLive).1
  directLast := by
    intro before c after hCalls hRecords hDirect hRoom d hd hRestores
    rcases @even_or_first_odd syms before with hEven | ⟨pre, x, mid, rfl, hPre, hOdd⟩
    · exact not_restores_of_first hAll hCalls hEven hRecords (not_restores_of_direct hDirect) hRoom
        d hd hRestores
    · have hSplit : calls = pre ++ x :: (mid ++ c :: after) := by rw [hCalls]; simp
      rw [List.countP_append] at hRoom
      rcases odd_cases hOdd with ⟨hx, hNot⟩ | ⟨hx, hNot⟩
      · exact not_restores_of_first hAll hSplit hPre hx hNot (by omega) d (by simp [hd]) hRestores
      · exact not_records_of_first hAll hSplit hPre hx hNot (by omega) c (by simp) hRecords
  nullLast := by
    intro before c after hCalls hRestores hNull hRoom d hd hRecords
    rcases @even_or_first_odd syms before with hEven | ⟨pre, x, mid, rfl, hPre, hOdd⟩
    · exact not_records_of_first hAll hCalls hEven hRestores (not_records_of_null hNull) hRoom
        d hd hRecords
    · have hSplit : calls = pre ++ x :: (mid ++ c :: after) := by rw [hCalls]; simp
      rw [List.countP_append] at hRoom
      rcases odd_cases hOdd with ⟨hx, hNot⟩ | ⟨hx, hNot⟩
      · exact not_restores_of_first hAll hSplit hPre hx hNot (by omega) c (by simp) hRestores
      · exact not_records_of_first hAll hSplit hPre hx hNot (by omega) d (by simp [hd]) hRecords
  counted := by
    intro _
    by_contra hMany
    have hPos : 0 < (snapshot syms calls).length := List.length_pos_iff.mpr hSnap
    obtain ⟨before, c, after, hCalls, hc, hCount⟩ :=
      exists_split_countP (Call.restores syms) (Nat.lt_of_not_le hMany)
    have hOwn := (hAll _ _ _ hCalls).own hc
    rw [hCount, Nat.mod_self] at hOwn
    obtain ⟨_, hNone⟩ := hOwn hPos
    have hFirst : 0 < before.countP (Call.restores syms) := by rw [hCount]; decide
    obtain ⟨pre, d, mid, rfl, hd, hZero⟩ := exists_split_countP (Call.restores syms) hFirst
    have hSplit : calls = pre ++ d :: (mid ++ c :: after) := by rw [hCalls]; simp
    have hRecords := ((hAll _ _ _ hSplit).own hd (by rw [hZero]; exact hPos)).1
    rw [List.countP_append, List.countP_cons_of_pos hRecords] at hNone
    omega

end Necessity

theorem callsAligned_of_snapshot_nil (h : snapshot syms calls = []) : CallsAligned syms calls := by
  have hZero : calls.countP (Call.records syms) = 0 := by
    have hLength := @length_snapshot syms calls
    rw [h, List.length_nil] at hLength
    have hMax : 0 < gateAllocMax := by decide
    omega
  have hNone := List.countP_eq_zero.mp hZero
  have hAbsurd : ∀ before c after, calls = before ++ c :: after → ¬ c.records syms :=
    fun before c after hCalls => hNone c (by simp [hCalls])
  refine ⟨?_, ?_, ?_, fun hSnap => absurd h hSnap⟩
  · exact fun before c after hCalls hRecords => absurd hRecords (hAbsurd before c after hCalls)
  · exact fun before c after hCalls hRecords => absurd hRecords (hAbsurd before c after hCalls)
  · exact fun before c after hCalls _ _ _ d hd => hNone d (by simp [hCalls, hd])

theorem not_applied (hCopy : syms.cudaMemcpy = false) (n : Nat) (k i : Nat) :
    (applied syms n calls)[k]? ≠ some (some i) := by
  suffices hNone : ∀ p, ∀ h ∈ (runHooks syms (some n) p calls).2, h.applied = none by
    intro h
    rw [applied, List.getElem?_map, Option.map_eq_some_iff] at h
    obtain ⟨hooked, hMem, hEq⟩ := h
    rw [hNone .fresh hooked (List.mem_of_getElem? hMem)] at hEq
    cases hEq
  induction calls with
  | nil => simp [runHooks]
  | cons c rest ih =>
      intro p
      simp only [runHooks, List.forall_mem_cons]
      exact ⟨by simp [exec_applied, hCopy], ih _⟩

theorem indexAgrees_iff_not_live (hCopy : syms.cudaMemcpy = false) :
    IndexAgrees syms calls ↔ ∀ i, ¬ Live (snapshot syms calls) i := by
  constructor
  · intro h i hLive
    have hLt := live_lt hLive
    rw [length_snapshot] at hLt
    have hSnap : snapshot syms calls ≠ [] := List.ne_nil_of_length_pos (by
      rw [length_snapshot]; omega)
    obtain ⟨before, c, after, hCalls, hRecords, rfl⟩ :=
      exists_split_countP (Call.records syms) (Nat.lt_of_lt_of_le hLt (Nat.min_le_left _ _))
    have hRecorded := @recorded_getElem? syms before after c (before.countP (Call.records syms))
    rw [← hCalls] at hRecorded
    obtain ⟨_, hServed⟩ := h calls (List.forall₂_same.mpr fun c _ => Call.Same.refl c) hSnap
      before.length
    exact not_applied hCopy _ _ _
      (hServed _ (hRecorded.mpr ⟨hRecords, by omega, rfl⟩) hLive)
  · intro h again _ _ k
    exact ⟨fun i hi => absurd hi (not_applied hCopy _ _ _), fun i _ hLive => absurd hLive (h i)⟩

end Positions

/-- The two counters agree exactly for the sequences in which no recorded call of
`cudaMallocManaged` is live or precedes a call of the other three, and no null pointer
precedes a recorded call. -/
theorem indexAgrees_iff (syms : Symbols) (calls : List Call) :
    IndexAgrees syms calls ↔ Replayable syms calls := by
  cases hCopy : syms.cudaMemcpy with
  | false =>
      rw [indexAgrees_iff_not_live hCopy, Replayable, hCopy]
      simp
  | true =>
      rw [indexAgrees_iff_forall hCopy, Replayable, if_pos hCopy]
      constructor
      · intro h
        by_cases hSnap : snapshot syms calls = []
        · exact callsAligned_of_snapshot_nil hSnap
        · exact callsAligned_of_agrees (h hSnap) hSnap
      · intro h hSnap before c after hCalls
        exact agrees_of_callsAligned h hSnap hCalls

/-- A managed allocation before a device allocation. -/
def managedFirst : List Call :=
  [.alloc .cudaMallocManaged 4096 (some 0x7f0000000000),
    .alloc .cudaMalloc 8192 (some 0x7f0000200000)]

/-- The device allocation of the restored process is filled from the entry of the
managed one. -/
theorem not_indexAgrees_managedFirst : ¬ IndexAgrees ⟨true, true, true⟩ managedFirst := by
  intro h
  have hSame := List.forall₂_same.mpr fun c (_ : c ∈ managedFirst) => Call.Same.refl c
  have hOwn := (h managedFirst hSame (by decide) 1).1 0 (by decide)
  revert hOwn
  decide

end FlashCkpt.Restore
