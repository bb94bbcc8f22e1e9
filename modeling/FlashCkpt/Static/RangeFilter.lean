import FlashCkpt.Static.AllocTable
import FlashCkpt.Uvm.Queries

/-! Step [1] of `ckpt_core`: of the ranges the driver reports it keeps those that lie
inside a recorded allocation. The ranges consist of pages, the allocations of bytes. -/
namespace FlashCkpt.Static

open Image Restore Uvm

/-- The ranges that `ckpt_core` skips as "CUDA internal". -/
def skips (f : Filter) (r : VaRange) : Bool := !f.keeps r && !Agent.staticRange f r

/-- Every page of every live recorded allocation lies in a range that is kept or recorded
as static, and in none that is skipped. -/
def CoversApplication (s : State) (staticImg : Bool) (nAllocs : Nat) (ranges : List VaRange) :
    Prop :=
  ∀ e ∈ s.gate.table, e.freed = false → ∀ p, Agent.Touches e.toGateAlloc p →
    (∃ r ∈ ranges, r.Has p ∧ skips (s.filter staticImg nAllocs) r = false) ∧
      ∀ r ∈ ranges, r.Has p → skips (s.filter staticImg nAllocs) r = false

/-- The test of the filter: inside one of the entries that were counted, or, when there
were none, inside the largest allocation. -/
def InsideRecorded (s : State) (nAllocs : Nat) (r : VaRange) : Prop :=
  if s.gate.table.take nAllocs = [] then
    s.gate.userVa = 0 ∨ s.gate.userVa ≤ r.va ∧ r.va + r.size ≤ s.gate.userVa + s.gate.userSize
  else ∃ e ∈ s.gate.table.take nAllocs, e.Contains r

/-- Each page of a live recorded allocation is in a managed range, and the managed ranges
that have it lie inside one recorded allocation, byte for byte. -/
def RangesInside (s : State) (nAllocs : Nat) (ranges : List VaRange) : Prop :=
  ∀ e ∈ s.gate.table, e.freed = false → ∀ p, Agent.Touches e.toGateAlloc p →
    (∃ r ∈ ranges, r.Has p) ∧ ∀ r ∈ ranges, r.Has p → InsideRecorded s nAllocs r

theorem skips_iff (s : State) (staticImg : Bool) (nAllocs : Nat) (r : VaRange) :
    skips (s.filter staticImg nAllocs) r = false ↔ InsideRecorded s nAllocs r := by
  have hEmpty : (s.filter staticImg nAllocs).allocs.isEmpty = true ↔
      s.gate.table.take nAllocs = [] := by
    rw [State.filter, List.isEmpty_iff, List.map_eq_nil_iff]
  have hInside : ((s.filter staticImg nAllocs).allocs.find? fun a =>
      a.va ≤ r.va && r.va + r.size ≤ a.va + a.size).isSome = true ↔
        ∃ e ∈ s.gate.table.take nAllocs, e.Contains r := by
    rw [List.find?_isSome]
    constructor
    · rintro ⟨a, ha, hIn⟩
      obtain ⟨e, he, rfl⟩ := List.mem_map.mp ha
      have hBoth := Bool.and_eq_true_iff.mp hIn
      exact ⟨e, he, of_decide_eq_true hBoth.1, of_decide_eq_true hBoth.2⟩
    · rintro ⟨e, he, hIn⟩
      exact ⟨_, List.mem_map_of_mem he,
        Bool.and_eq_true_iff.mpr ⟨decide_eq_true hIn.1, decide_eq_true hIn.2⟩⟩
  rw [InsideRecorded, skips, Bool.and_eq_false_iff, Bool.not_eq_false', Bool.not_eq_false',
    Filter.keeps, Agent.staticRange]
  by_cases hTable : s.gate.table.take nAllocs = []
  · have hAllocs : (s.filter staticImg nAllocs).allocs = [] :=
      List.isEmpty_iff.mp (hEmpty.mpr hTable)
    rw [if_pos (hEmpty.mpr hTable), if_pos hTable, hAllocs]
    simp [State.filter]
  · rw [if_neg fun h => hTable (hEmpty.mp h), if_neg hTable, ← hInside]
    cases (s.filter staticImg nAllocs).allocs.find? fun a =>
        a.va ≤ r.va && r.va + r.size ≤ a.va + a.size with
    | none => simp
    | some a => cases a.h2d <;> cases (s.filter staticImg nAllocs).staticImg <;> simp

/-- What the filter does with the answer of GET_VA_RANGES, whose errors end the run. -/
def FilterCovers (s : State) (staticImg : Bool) (nAllocs : Nat) (answer : Answer VaRange) : Prop :=
  answer.status = .ok → CoversApplication s staticImg nAllocs answer.found

/-- The filter covers the application if and only if GET_VA_RANGES fails, or the managed
ranges that have its pages lie inside recorded allocations. -/
theorem filterCovers_iff (s : State) (staticImg : Bool) (nAllocs : Nat)
    (capable validArgs memory copies : Bool) (spaces : List DriverSpace) :
    FilterCovers s staticImg nAllocs
        (getVaRanges maxRanges capable validArgs memory copies spaces) ↔
      (capable = true ∧ validArgs = true ∧ memory = true ∧ copies = true ∧
        (managedRanges spaces).length ≤ maxRanges →
          RangesInside s nAllocs ((managedRanges spaces).map DriverRange.range)) := by
  obtain ⟨hOk, hFound⟩ := getVaRanges_ok maxRanges capable validArgs memory copies spaces
  have hMax : 0 < maxRanges := by decide
  rw [FilterCovers]
  have hCovers : ∀ ranges, CoversApplication s staticImg nAllocs ranges ↔
      RangesInside s nAllocs ranges := by
    intro ranges
    refine forall₂_congr fun e _ => forall_congr' fun _ => forall₂_congr fun p _ => ?_
    simp only [skips_iff]
    constructor
    · exact fun ⟨⟨r, hr, hHas, _⟩, hAll⟩ => ⟨⟨r, hr, hHas⟩, hAll⟩
    · exact fun ⟨⟨r, hr, hHas⟩, hAll⟩ => ⟨⟨r, hr, hHas, hAll r hr hHas⟩, hAll⟩
  constructor
  · rintro h ⟨hCapable, hArgs, hMemory, hCopies, hRoom⟩
    have hStatus := hOk.mpr ⟨hCapable, hArgs, hMemory, hCopies, hMax, hRoom⟩
    rw [← hFound hStatus, ← hCovers]
    exact h hStatus
  · intro h hStatus
    obtain ⟨hCapable, hArgs, hMemory, hCopies, -, hRoom⟩ := hOk.mp hStatus
    rw [hFound hStatus, hCovers]
    exact h ⟨hCapable, hArgs, hMemory, hCopies, hRoom⟩

theorem AllocEntry.pages_pos (e : AllocEntry) (h : 0 < e.size) :
    0 < (e.va + e.size + (pageSize - 1)) / pageSize - e.va / pageSize := by
  simp only [pageSize]
  omega

/-- The pages of an allocation, as a managed range of its own. -/
def AllocEntry.pages (e : AllocEntry) (h : 0 < e.size) : VaRange where
  first := e.va / pageSize
  count := (e.va + e.size + (pageSize - 1)) / pageSize - e.va / pageSize
  pos := e.pages_pos h

/-- A range of its own lies inside the allocation only if that consists of whole pages. -/
theorem contains_pages_iff (e : AllocEntry) (h : 0 < e.size) :
    e.Contains (e.pages h) ↔ e.va % pageSize = 0 ∧ e.size % pageSize = 0 := by
  simp only [AllocEntry.Contains, AllocEntry.pages, VaRange.va, VaRange.size, pageSize]
  omega

/-- Two allocations with a managed range each, the second one of 5000 bytes. -/
def oddAllocation : State where
  gate := ⟨40960, 5000, [⟨4096, 4096, false, false⟩, ⟨40960, 5000, false, false⟩]⟩
  live := [⟨4096, 4096, false⟩, ⟨40960, 5000, false⟩]

def oddSpaces : List DriverSpace :=
  [[⟨true, ⟨1, 1, Nat.one_pos⟩, []⟩, ⟨true, ⟨10, 2, Nat.two_pos⟩, []⟩]]

/-- The range of the second one is skipped. -/
theorem not_filterCovers_oddAllocation :
    ¬FilterCovers oddAllocation false 2 (getVaRanges maxRanges true true true true oddSpaces) := by
  intro h
  have hPage := h (by decide) ⟨40960, 5000, false, false⟩ (by decide) rfl 10 (by decide)
  have hFound : (getVaRanges maxRanges true true true true oddSpaces).found =
      [⟨1, 1, Nat.one_pos⟩, ⟨10, 2, Nat.two_pos⟩] := rfl
  rw [hFound] at hPage
  have hKept := hPage.2 _ (List.mem_cons_of_mem _ List.mem_cons_self) (by decide)
  exact absurd hKept (by decide)

end FlashCkpt.Static
