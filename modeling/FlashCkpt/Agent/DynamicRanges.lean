import FlashCkpt.Agent.Classifier
import Mathlib.Data.Finset.Card

/-! The ranges the agent hands to the adaptive rounds. Entries of the classifier have
different 2 MB pages, so that sorting and merging gives the one list of ranges that are
sorted and do not touch. -/
namespace FlashCkpt.Agent

open Image Driver Restore

/-- The inner loop of the insertion sort, over the sorted entries from the last one down. -/
def shiftKey (key : Nat) : List Nat → List Nat
  | [] => [key]
  | a :: rest => if key < a then a :: shiftKey key rest else key :: a :: rest

/-- The insertion sort of `classifier_write_ranges`. -/
def sortDyn (vas : List Nat) : List Nat := (vas.foldl (fun sorted key => shiftKey key sorted) []).reverse

theorem shiftKey_perm (key : Nat) (sorted : List Nat) : (shiftKey key sorted).Perm (key :: sorted) := by
  induction sorted with
  | nil => exact List.Perm.refl _
  | cons a rest ih =>
      rw [shiftKey]
      split
      · exact (ih.cons a).trans (List.Perm.swap key a rest)
      · exact List.Perm.refl _

theorem shiftKey_pairwise (key : Nat) {sorted : List Nat} (h : sorted.Pairwise (· ≥ ·)) :
    (shiftKey key sorted).Pairwise (· ≥ ·) := by
  induction sorted with
  | nil => exact List.pairwise_singleton _ _
  | cons a rest ih =>
      obtain ⟨hHead, hRest⟩ := List.pairwise_cons.mp h
      rw [shiftKey]
      split
      · rename_i hLess
        refine List.pairwise_cons.mpr ⟨fun b hb => ?_, ih hRest⟩
        rcases List.mem_cons.mp ((shiftKey_perm key rest).mem_iff.mp hb) with rfl | hb
        · exact hLess.le
        · exact hHead b hb
      · rename_i hNot
        refine List.pairwise_cons.mpr ⟨fun b hb => ?_, h⟩
        rcases List.mem_cons.mp hb with rfl | hb
        · exact not_lt.mp hNot
        · exact le_trans (hHead b hb) (not_lt.mp hNot)

theorem foldl_shiftKey (vas sorted : List Nat) (h : sorted.Pairwise (· ≥ ·)) :
    (vas.foldl (fun sorted key => shiftKey key sorted) sorted).Pairwise (· ≥ ·) ∧
      (vas.foldl (fun sorted key => shiftKey key sorted) sorted).Perm (vas ++ sorted) := by
  induction vas generalizing sorted with
  | nil => exact ⟨h, List.Perm.refl _⟩
  | cons key rest ih =>
      obtain ⟨hOrder, hPerm⟩ := ih (shiftKey key sorted) (shiftKey_pairwise key h)
      refine ⟨hOrder, hPerm.trans ?_⟩
      exact ((shiftKey_perm key sorted).append_left rest).trans List.perm_middle

/-- A sorted list has one order. -/
theorem sortDyn_eq (vas : List Nat) : sortDyn vas = vas.mergeSort fun a b => a ≤ b := by
  obtain ⟨hOrder, hPerm⟩ := foldl_shiftKey vas [] List.Pairwise.nil
  rw [List.append_nil] at hPerm
  have hSorted : (sortDyn vas).Pairwise (· ≤ ·) := List.pairwise_reverse.mpr hOrder
  have hSame : (sortDyn vas).Perm (vas.mergeSort fun a b => a ≤ b) :=
    ((List.reverse_perm _).trans hPerm).trans (List.mergeSort_perm _ _).symm
  exact hSame.eq_of_pairwise (fun a b _ _ => Nat.le_antisymm) hSorted
    (List.pairwise_mergeSort' _ vas)

/-- What `classifier_write_ranges` writes of a range: address and size. -/
def rangeRecord (r : Nat × Nat) : Nat × Nat := (r.1 * pageSize, (r.2 - r.1) * pageSize)

/-- The records of the ranges file. -/
def writtenRanges (pc : Classifier) (allocs : List GateAlloc) : List (Nat × Nat) :=
  (mergeStarts (sortDyn (dynamicVas pc allocs))).map rangeRecord

/-- A table of different 2 MB pages. -/
structure Classifier.Valid (pc : Classifier) : Prop where
  distinct : (pc.map ClassEntry.va).Nodup
  aligned : ∀ e ∈ pc, blockPages ∣ e.va

section Update

theorem countDirty_vas (room : Bool) (va : Nat) (pc : Classifier) :
    (countDirty room va pc).map ClassEntry.va =
      if room && va ∉ pc.map ClassEntry.va then pc.map ClassEntry.va ++ [va]
      else pc.map ClassEntry.va := by
  induction pc with
  | nil => cases room <;> rfl
  | cons e rest ih =>
      rw [countDirty]
      by_cases hSame : e.va = va
      · simp [hSame]
      · have hOther : ¬va = e.va := fun h => hSame h.symm
        rw [if_neg hSame, List.map_cons, ih, List.map_cons]
        by_cases hMem : va ∈ rest.map ClassEntry.va
        · simp [hMem]
        · cases room <;> simp [hMem, hOther]

theorem Classifier.Valid.countDirty {pc : Classifier} (h : pc.Valid) (room : Bool) {va : Nat}
    (hVa : blockPages ∣ va) : (Agent.countDirty room va pc).Valid := by
  have hVas := countDirty_vas room va pc
  refine ⟨?_, fun e he => ?_⟩
  · rw [hVas]
    split
    · rename_i hNew
      simp only [Bool.and_eq_true, decide_eq_true_eq] at hNew
      exact List.nodup_append.mpr ⟨h.distinct, (by simp), fun a ha b hb hab =>
        hNew.2 (List.mem_singleton.mp hb ▸ hab ▸ ha)⟩
    · exact h.distinct
  · have hMem : e.va ∈ (Agent.countDirty room va pc).map ClassEntry.va := List.mem_map_of_mem he
    have hOld : e.va ∈ pc.map ClassEntry.va → blockPages ∣ e.va := by
      intro hMem
      obtain ⟨e', he', hSame⟩ := List.mem_map.mp hMem
      exact hSame ▸ h.aligned e' he'
    rw [hVas] at hMem
    split at hMem
    · rcases List.mem_append.mp hMem with hMem | hMem
      · exact hOld hMem
      · rw [List.mem_singleton.mp hMem]
        exact hVa
    · exact hOld hMem

theorem Classifier.Valid.update {pc : Classifier} (h : pc.Valid) (dump : List Nat) :
    (classifierUpdate pc dump).Valid := by
  have hFold : ∀ (dump : List Nat) (state : Classifier × List Nat), state.1.Valid →
      (dump.foldl classifierStep state).1.Valid := by
    intro dump
    induction dump with
    | nil => exact fun _ hState => hState
    | cons addr rest ih =>
        intro state hState
        rw [List.foldl_cons]
        apply ih
        rw [classifierStep]
        split
        · exact hState
        · exact hState.countDirty _ (Dvd.intro_left _ rfl)
  exact hFold dump (pc, []) h

theorem Classifier.valid_nil : Classifier.Valid [] := ⟨List.nodup_nil, fun _ => nofun⟩

/-- Every table that the agent has learned. -/
theorem Classifier.valid_updates (dumps : List (List Nat)) :
    Classifier.Valid (dumps.foldl classifierUpdate []) := by
  have hFold : ∀ (dumps : List (List Nat)) (pc : Classifier), pc.Valid →
      Classifier.Valid (dumps.foldl classifierUpdate pc) := by
    intro dumps
    induction dumps with
    | nil => exact fun _ hValid => hValid
    | cons dump rest ih => exact fun pc hValid => ih _ (hValid.update dump)
  exact hFold dumps [] valid_nil

end Update

section Merge

/-- Ranges of whole 2 MB pages, sorted and with room between them. -/
structure Canonical (ranges : List (Nat × Nat)) : Prop where
  aligned : ∀ r ∈ ranges, blockPages ∣ r.1 ∧ blockPages ∣ r.2 ∧ r.1 < r.2
  apart : ranges.Pairwise fun a b => a.2 < b.1

theorem next_multiple {a b : Nat} (ha : blockPages ∣ a) (hb : blockPages ∣ b) (h : a < b) :
    a + blockPages ≤ b := by
  have hStep := Nat.le_of_dvd (Nat.sub_pos_of_lt h) (Nat.dvd_sub hb ha)
  omega

theorem mergeBlocks_canonical {start stop : Nat} {starts : List Nat} (hStart : blockPages ∣ start)
    (hStop : blockPages ∣ stop) (hLess : start < stop) (hAligned : ∀ a ∈ starts, blockPages ∣ a)
    (hOrder : starts.Pairwise (· < ·)) (hBehind : ∀ a ∈ starts, stop ≤ a) :
    Canonical (mergeBlocks start stop starts) ∧ ∀ r ∈ mergeBlocks start stop starts, start ≤ r.1 := by
  induction starts generalizing start stop with
  | nil =>
      rw [mergeBlocks]
      refine ⟨⟨fun r hr => ?_, List.pairwise_singleton _ _⟩, fun r hr => ?_⟩
      · rw [List.mem_singleton.mp hr]
        exact ⟨hStart, hStop, hLess⟩
      · rw [List.mem_singleton.mp hr]
  | cons a rest ih =>
      rw [List.forall_mem_cons] at hAligned hBehind
      obtain ⟨hHead, hRest⟩ := List.pairwise_cons.mp hOrder
      rw [mergeBlocks]
      split
      · rename_i hNext
        subst hNext
        exact ih hStart (Nat.dvd_add hStop (Nat.dvd_refl _)) (by omega) hAligned.2 hRest fun b hb =>
          next_multiple hStop (hAligned.2 b hb) (hHead b hb)
      · rename_i hGap
        have hPos : 0 < blockPages := by decide
        obtain ⟨hRanges, hFirst⟩ := @ih a (a + blockPages) hAligned.1
          (Nat.dvd_add hAligned.1 (Nat.dvd_refl _)) (by omega) hAligned.2 hRest fun b hb =>
            next_multiple hAligned.1 (hAligned.2 b hb) (hHead b hb)
        refine ⟨⟨List.forall_mem_cons.mpr ⟨⟨hStart, hStop, hLess⟩, hRanges.aligned⟩,
          List.pairwise_cons.mpr ⟨fun r hr => ?_, hRanges.apart⟩⟩,
          List.forall_mem_cons.mpr ⟨le_refl _, fun r hr => ?_⟩⟩
        · have hRange := hFirst r hr
          have hLate := hBehind.1
          dsimp only
          omega
        · have hRange := hFirst r hr
          have hLate := hBehind.1
          omega

theorem mergeStarts_canonical {starts : List Nat} (hAligned : ∀ a ∈ starts, blockPages ∣ a)
    (hOrder : starts.Pairwise (· < ·)) : Canonical (mergeStarts starts) := by
  cases starts with
  | nil => exact ⟨fun _ => nofun, List.Pairwise.nil⟩
  | cons a rest =>
      rw [List.forall_mem_cons] at hAligned
      obtain ⟨hHead, hRest⟩ := List.pairwise_cons.mp hOrder
      have hPos : 0 < blockPages := by decide
      rw [mergeStarts]
      exact (mergeBlocks_canonical hAligned.1 (Nat.dvd_add hAligned.1 (Nat.dvd_refl _)) (by omega)
        hAligned.2 hRest fun b hb => next_multiple hAligned.1 (hAligned.2 b hb) (hHead b hb)).1

end Merge

section Ranges

variable (pc : Classifier) (allocs : List GateAlloc)

/-- The 2 MB pages that were dirty once. -/
def dirtyVas : List Nat := (pc.filter fun e => 0 < e.dirtyCount).map ClassEntry.va

/-- Those of the allocations that are not H2D. -/
def allocVas : List Nat := (allocs.filter fun e => !e.h2d).flatMap allocChunks

/-- The array has room for the pages of the allocations beside those of the table. -/
def HasRoom : Prop :=
  (dirtyVas pc ++ allocVas allocs).toFinset.card ≤ pc.length + max2mPages

variable {pc allocs}

/-- Entries of which there are at most as many as fit all get in, once. -/
theorem foldl_insert {limit : Nat} (new vas : List Nat) (hDistinct : vas.Nodup)
    (hRoom : (vas ++ new).toFinset.card ≤ limit) :
    (new.foldl (fun vas va => if va ∉ vas ∧ vas.length < limit then vas ++ [va] else vas) vas).Nodup ∧
      ∀ va, va ∈ new.foldl
          (fun vas va => if va ∉ vas ∧ vas.length < limit then vas ++ [va] else vas) vas ↔
        va ∈ vas ∨ va ∈ new := by
  induction new generalizing vas with
  | nil => exact ⟨hDistinct, by simp⟩
  | cons first rest ih =>
      rw [List.foldl_cons]
      by_cases hOld : first ∈ vas
      · have hSame : (vas ++ first :: rest).toFinset = (vas ++ rest).toFinset := by
          ext va
          simp only [List.toFinset_append, List.toFinset_cons, Finset.mem_union, List.mem_toFinset,
            Finset.mem_insert]
          constructor
          · rintro (hVas | rfl | hRest)
            · exact .inl hVas
            · exact .inl hOld
            · exact .inr hRest
          · rintro (hVas | hRest)
            · exact .inl hVas
            · exact .inr (.inr hRest)
        have hSkip : ¬(first ∉ vas ∧ vas.length < limit) := fun h => h.1 hOld
        rw [if_neg hSkip]
        obtain ⟨hNodup, hMem⟩ := ih vas hDistinct (hSame ▸ hRoom)
        refine ⟨hNodup, fun va => (hMem va).trans ?_⟩
        have hBoth := Finset.ext_iff.mp hSame va
        simp only [List.mem_toFinset, List.mem_append] at hBoth
        exact hBoth.symm
      · have hNext : (vas ++ [first]).Nodup :=
          List.nodup_append.mpr ⟨hDistinct, by simp, fun a ha b hb hab =>
            hOld (List.mem_singleton.mp hb ▸ hab ▸ ha)⟩
        have hAll : vas ++ first :: rest = (vas ++ [first]) ++ rest := by simp
        have hLess : vas.length < limit := by
          have hCard := List.toFinset_card_of_nodup hNext
          have hSub : (vas ++ [first]).toFinset ⊆ (vas ++ first :: rest).toFinset := by
            intro va hVa
            rw [hAll, List.mem_toFinset, List.mem_append]
            exact .inl (List.mem_toFinset.mp hVa)
          have hLe := Finset.card_le_card hSub
          rw [hCard, List.length_append, List.length_singleton] at hLe
          omega
        rw [if_pos ⟨hOld, hLess⟩]
        obtain ⟨hNodup, hMem⟩ := ih (vas ++ [first]) hNext (hAll ▸ hRoom)
        refine ⟨hNodup, fun va => (hMem va).trans ?_⟩
        rw [← List.mem_append, ← hAll, List.mem_append]

theorem dynamicVas_spec (h : pc.Valid) (hRoom : HasRoom pc allocs) :
    (dynamicVas pc allocs).Nodup ∧
      ∀ va, va ∈ dynamicVas pc allocs ↔ va ∈ dirtyVas pc ∨ va ∈ allocVas allocs :=
  foldl_insert (allocVas allocs) (dirtyVas pc)
    (h.distinct.sublist (List.filter_sublist.map ClassEntry.va)) hRoom

theorem mem_allocChunks {e : GateAlloc} (hSize : 0 < e.size) (va : Nat) :
    va ∈ allocChunks e ↔ blockPages ∣ va ∧ va * pageSize < e.va + e.size ∧
      e.va < (va + blockPages) * pageSize := by
  rw [allocChunks, chunkOf, show pageSize = 4096 from rfl, show blockPages = 512 from rfl]
  simp only [List.mem_map, List.mem_range]
  constructor
  · rintro ⟨i, hi, rfl⟩
    exact ⟨⟨e.va / 4096 / 512 + i, by omega⟩, by omega, by omega⟩
  · rintro ⟨⟨k, rfl⟩, hLow, hHigh⟩
    exact ⟨k - e.va / 4096 / 512, by omega, by omega⟩

/-- A range as it is in the file holds the bytes of its pages. -/
theorem mem_rangeRecord (r : Nat × Nat) (a : Nat) :
    (rangeRecord r).1 ≤ a ∧ a < (rangeRecord r).1 + (rangeRecord r).2 ↔
      r.1 ≤ a / pageSize ∧ a / pageSize < r.2 := by
  have hPos : 0 < pageSize := by decide
  rw [rangeRecord, Nat.le_div_iff_mul_le hPos, Nat.div_lt_iff_lt_mul hPos, Nat.sub_mul]
  dsimp only
  omega

/-- The address lies in a 2 MB page which the allocation has a byte of. -/
def ReachesByte (e : GateAlloc) (a : Nat) : Prop :=
  ∃ b, e.va ≤ b ∧ b < e.va + e.size ∧ b / (blockPages * pageSize) = a / (blockPages * pageSize)

theorem reachesByte_iff {e : GateAlloc} (hSize : 0 < e.size) (a : Nat) :
    (∃ va ∈ allocChunks e, va ≤ a / pageSize ∧ a / pageSize < va + blockPages) ↔ ReachesByte e a := by
  simp only [mem_allocChunks hSize]
  rw [ReachesByte, show pageSize = 4096 from rfl, show blockPages = 512 from rfl]
  constructor
  · rintro ⟨va, ⟨⟨k, rfl⟩, hLow, hHigh⟩, hFrom, hTo⟩
    exact ⟨max e.va (512 * k * 4096), by omega, by omega, by omega⟩
  · rintro ⟨b, hLow, hHigh, hSame⟩
    exact ⟨512 * (b / 2097152), ⟨⟨b / 2097152, rfl⟩, by omega, by omega⟩, by omega, by omega⟩

/-- The ranges in the file are whole 2 MB pages, sorted and not touching, and together they are
the pages that were dirty in some round and those of the allocations that are not H2D. -/
theorem writtenRanges_canonical (dumps : List (List Nat)) (allocs : List GateAlloc)
    (hSizes : ∀ e ∈ allocs, 0 < e.size)
    (hRoom : HasRoom (dumps.foldl classifierUpdate []) allocs) :
    (∀ r ∈ writtenRanges (dumps.foldl classifierUpdate []) allocs,
      blockPages * pageSize ∣ r.1 ∧ blockPages * pageSize ∣ r.2 ∧ 0 < r.2) ∧
    (writtenRanges (dumps.foldl classifierUpdate []) allocs).Pairwise (fun r s => r.1 + r.2 < s.1) ∧
    ∀ a, (∃ r ∈ writtenRanges (dumps.foldl classifierUpdate []) allocs, r.1 ≤ a ∧ a < r.1 + r.2) ↔
      (∃ e ∈ dumps.foldl classifierUpdate [], 0 < e.dirtyCount ∧ e.va * pageSize ≤ a ∧
        a < e.va * pageSize + blockPages * pageSize) ∨
      ∃ e ∈ allocs, e.h2d = false ∧ ReachesByte e a := by
  have hValid := Classifier.valid_updates dumps
  generalize dumps.foldl classifierUpdate [] = pc at hValid hRoom ⊢
  obtain ⟨hNodup, hMem⟩ := dynamicVas_spec hValid hRoom
  have hStarts : ∀ va ∈ (dynamicVas pc allocs).mergeSort fun a b => a ≤ b, blockPages ∣ va := by
    intro va hVa
    rcases (hMem va).mp (List.mem_mergeSort.mp hVa) with hDirty | hAlloc
    · obtain ⟨e, he, rfl⟩ := List.mem_map.mp hDirty
      exact hValid.aligned e (List.mem_of_mem_filter he)
    · obtain ⟨e, he, hVa⟩ := List.mem_flatMap.mp hAlloc
      exact ((mem_allocChunks (hSizes e (List.mem_of_mem_filter he)) va).mp hVa).1
  have hOrder : ((dynamicVas pc allocs).mergeSort fun a b => a ≤ b).Pairwise (· < ·) :=
    ((List.pairwise_mergeSort' _ _).and ((List.mergeSort_perm _ _).nodup_iff.mpr hNodup)).imp
      fun h => lt_of_le_of_ne h.1 h.2
  have hRanges := mergeStarts_canonical hStarts hOrder
  have hPage : 0 < pageSize := by decide
  rw [writtenRanges, sortDyn_eq]
  refine ⟨?_, ?_, fun a => ?_⟩
  · intro r hr
    obtain ⟨s, hs, rfl⟩ := List.mem_map.mp hr
    obtain ⟨hStart, hStop, hLess⟩ := hRanges.aligned s hs
    exact ⟨Nat.mul_dvd_mul hStart (Nat.dvd_refl _),
      Nat.mul_dvd_mul (Nat.dvd_sub hStop hStart) (Nat.dvd_refl _),
      Nat.mul_pos (Nat.sub_pos_of_lt hLess) hPage⟩
  · rw [List.pairwise_map]
    refine hRanges.apart.imp_of_mem fun {r s} hr _ hApart => ?_
    have hLess := (hRanges.aligned r hr).2.2
    rw [rangeRecord, rangeRecord]
    dsimp only
    rw [← Nat.add_mul, Nat.add_sub_cancel' hLess.le]
    exact Nat.mul_lt_mul_of_pos_right hApart hPage
  · have hCover := inRanges_mergeStarts (dynamicVas pc allocs) (a / pageSize)
    rw [InRanges] at hCover
    simp only [List.mem_map, exists_exists_and_eq_and, mem_rangeRecord]
    rw [hCover]
    constructor
    · rintro ⟨va, hVa, hLow, hHigh⟩
      rcases (hMem va).mp hVa with hDirty | hAlloc
      · obtain ⟨e, he, rfl⟩ := List.mem_map.mp hDirty
        rw [List.mem_filter, decide_eq_true_eq] at he
        rw [Nat.le_div_iff_mul_le hPage] at hLow
        rw [Nat.div_lt_iff_lt_mul hPage, Nat.add_mul] at hHigh
        exact .inl ⟨e, he.1, he.2, hLow, hHigh⟩
      · obtain ⟨e, he, hVa⟩ := List.mem_flatMap.mp hAlloc
        rw [List.mem_filter, Bool.not_eq_true'] at he
        exact .inr ⟨e, he.1, he.2, (reachesByte_iff (hSizes e he.1) a).mp ⟨va, hVa, hLow, hHigh⟩⟩
    · rintro (⟨e, he, hDirty, hLow, hHigh⟩ | ⟨e, he, hOther, hReaches⟩)
      · rw [← Nat.le_div_iff_mul_le hPage] at hLow
        rw [← Nat.add_mul, ← Nat.div_lt_iff_lt_mul hPage] at hHigh
        refine ⟨e.va, (hMem e.va).mpr (.inl (List.mem_map_of_mem ?_)), hLow, hHigh⟩
        exact List.mem_filter.mpr ⟨he, decide_eq_true hDirty⟩
      · obtain ⟨va, hVa, hRange⟩ := (reachesByte_iff (hSizes e he) a).mpr hReaches
        refine ⟨va, (hMem va).mpr (.inr (List.mem_flatMap.mpr ⟨e, ?_, hVa⟩)), hRange⟩
        exact List.mem_filter.mpr ⟨he, by rw [hOther]; rfl⟩

/-- Two allocations in neighbouring 2 MB pages, the first of them dirty in a round. -/
theorem writtenRanges_canonical_neighbours :
    (writtenRanges ([[512]].foldl classifierUpdate []) [⟨2 ^ 21, 4096, false⟩, ⟨2 ^ 22, 1, false⟩]).Pairwise
      fun r s => r.1 + r.2 < s.1 := by
  refine (writtenRanges_canonical [[512]] [⟨2 ^ 21, 4096, false⟩, ⟨2 ^ 22, 1, false⟩] ?_ ?_).2.1
  · decide
  · rw [HasRoom]
    decide

end Ranges

end FlashCkpt.Agent
