import FlashCkpt.Restore.DeltaOracle

/-! The page classifier of `ckpt_agent.c`: which 2 MB pages were dirty in a learning
round, and the ranges the adaptive rounds copy. Addresses are in pages of 4 KB. -/
namespace FlashCkpt.Agent

open Image Driver Restore

def max2mPages : Nat := 65536

/-- `page_class_entry_t`. -/
structure ClassEntry where
  va : Nat
  dirtyCount : Nat
  deriving DecidableEq, Repr

abbrev Classifier := List ClassEntry

/-- The 2 MB page of an address. -/
def chunkOf (p : Nat) : Nat := p / blockPages * blockPages

/-- `classifier_get` and the increment of its entry; a full table takes no new one. -/
def countDirty (room : Bool) (va : Nat) : Classifier → Classifier
  | [] => if room then [⟨va, 1⟩] else []
  | e :: rest =>
      if e.va = va then ⟨e.va, e.dirtyCount + 1⟩ :: rest else e :: countDirty room va rest

/-- One address of the dump; a 2 MB page counts once a round. -/
def classifierStep (state : Classifier × List Nat) (addr : Nat) : Classifier × List Nat :=
  let va := chunkOf addr
  if va ∈ state.2 then state
  else (countDirty (state.1.length < max2mPages) va state.1,
    if state.2.length < max2mPages then state.2 ++ [va] else state.2)

def classifierUpdate (pc : Classifier) (dump : List Nat) : Classifier :=
  (dump.foldl classifierStep (pc, [])).1

/-- The 2 MB pages of an allocation. -/
def allocChunks (e : GateAlloc) : List Nat :=
  let start := chunkOf (e.va / pageSize)
  let bytes := e.va + e.size - start * pageSize
  (List.range ((bytes + blockPages * pageSize - 1) / (blockPages * pageSize))).map fun i =>
    start + i * blockPages

/-- The pages that were dirty once, then those of the allocations that are not H2D. -/
def dynamicVas (pc : Classifier) (allocs : List GateAlloc) : List Nat :=
  let dirty := (pc.filter fun e => 0 < e.dirtyCount).map ClassEntry.va
  ((allocs.filter fun e => !e.h2d).flatMap allocChunks).foldl
    (fun vas va => if va ∉ vas ∧ vas.length < pc.length + max2mPages then vas ++ [va] else vas) dirty

/-- `classifier_write_ranges`. -/
def classifierWriteRanges (pc : Classifier) (allocs : List GateAlloc) : List (Nat × Nat) :=
  mergeStarts ((dynamicVas pc allocs).mergeSort fun a b => a ≤ b)

/-- The page lies in one of the ranges. -/
def InRanges (ranges : List (Nat × Nat)) (p : Nat) : Prop := ∃ r ∈ ranges, r.1 ≤ p ∧ p < r.2

instance (ranges : List (Nat × Nat)) (p : Nat) : Decidable (InRanges ranges p) :=
  inferInstanceAs (Decidable (∃ r ∈ ranges, _))

theorem inRanges_mergeStarts (starts : List Nat) (p : Nat) :
    InRanges (mergeStarts (starts.mergeSort fun a b => a ≤ b)) p ↔
      ∃ a ∈ starts, a ≤ p ∧ p < a + blockPages := by
  rw [InRanges, mergeStarts_covers]
  simp only [List.mem_mergeSort]

/-- The ranges are the dynamic 2 MB pages. -/
theorem inRanges_classifierWriteRanges (pc : Classifier) (allocs : List GateAlloc) (p : Nat) :
    InRanges (classifierWriteRanges pc allocs) p ↔
      ∃ va ∈ dynamicVas pc allocs, va ≤ p ∧ p < va + blockPages :=
  inRanges_mergeStarts _ p

/-- A list of new entries as long as there is room: all of them get in. -/
theorem mem_foldl_insert {limit : Nat} (new vas : List Nat) (hRoom : vas.length + new.length ≤ limit)
    (va : Nat) :
    va ∈ new.foldl
        (fun vas va => if va ∉ vas ∧ vas.length < limit then vas ++ [va] else vas) vas ↔
      va ∈ vas ∨ va ∈ new := by
  induction new generalizing vas with
  | nil => simp
  | cons first rest ih =>
      rw [List.length_cons] at hRoom
      rw [List.foldl_cons]
      split
      · rw [ih _ (by rw [List.length_append, List.length_singleton]; omega)]
        simp [or_assoc]
      · rename_i hOld
        have hMem : first ∈ vas := by
          by_contra hNot
          exact hOld ⟨hNot, by omega⟩
        rw [ih _ (by omega), List.mem_cons]
        constructor
        · rintro (hVas | hRest)
          · exact .inl hVas
          · exact .inr (.inr hRest)
        · rintro (hVas | rfl | hRest)
          · exact .inl hVas
          · exact .inl hMem
          · exact .inr hRest

/-- Up to 128 GB, the dynamic pages are those dirty once and those of allocations that are
not H2D. -/
theorem mem_dynamicVas (pc : Classifier) (allocs : List GateAlloc)
    (hRoom : ((allocs.filter fun e => !e.h2d).flatMap allocChunks).length ≤ max2mPages) (va : Nat) :
    va ∈ dynamicVas pc allocs ↔
      (∃ e ∈ pc, 0 < e.dirtyCount ∧ e.va = va) ∨
        ∃ e ∈ allocs, e.h2d = false ∧ va ∈ allocChunks e := by
  have hDirty : ((pc.filter fun e => 0 < e.dirtyCount).map ClassEntry.va).length ≤ pc.length := by
    rw [List.length_map]
    exact List.length_filter_le _ _
  rw [dynamicVas, mem_foldl_insert _ _ (by omega)]
  simp [and_assoc]

end FlashCkpt.Agent
