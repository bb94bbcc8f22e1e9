import FlashCkpt.Library.Transition
import Mathlib.Data.List.Pairwise

/-! The allocation tables of the two emulators: `libgcr_intercept.cpp` and
`libphos_intercept.c` append a record for each allocation, hand out its slot in the image
and retire the first live record that contains the address of a free. Device addresses
and sizes stay far below `2 ^ 64`, so the sums do not wrap. -/
namespace FlashCkpt.Emul

open Transition

/-- A half-open range of device addresses. -/
structure Region where
  va : Nat
  size : Nat
  deriving DecidableEq, Repr

namespace Region

variable (r s : Region)

def Covers (addr : Nat) : Prop := r.va ≤ addr ∧ addr < r.va + r.size

instance (addr : Nat) : Decidable (r.Covers addr) := inferInstanceAs (Decidable (_ ∧ _))

def Apart : Prop := r.va + r.size ≤ s.va ∨ s.va + s.size ≤ r.va

instance : Decidable (r.Apart s) := inferInstanceAs (Decidable (_ ∨ _))

def Inside : Prop := s.va ≤ r.va ∧ r.va + r.size ≤ s.va + s.size

instance : Decidable (r.Inside s) := inferInstanceAs (Decidable (_ ∧ _))

variable {r s}

theorem Apart.symm (h : r.Apart s) : s.Apart r := Or.symm h

/-- Ranges with a common address are not apart. -/
theorem not_apart_of_covers {addr : Nat} (hr : r.Covers addr) (hs : s.Covers addr) :
    ¬r.Apart s := by
  obtain ⟨hrLow, hrHigh⟩ := hr
  obtain ⟨hsLow, hsHigh⟩ := hs
  rintro (h | h) <;> omega

theorem covers_va (h : 0 < r.size) : r.Covers r.va := ⟨Nat.le_refl _, Nat.lt_add_of_pos_right h⟩

end Region

/-- `gcr_alloc_t` and `phos_alloc_t`: the fields of both, with the flags of each. -/
structure Alloc (Flags : Type) extends Region where
  imgOffset : Option Nat
  alive : Bool
  flags : Flags
  deriving DecidableEq, Repr

/-- The table `g_allocs` with the bump pointer of the image, and whether
`image_reserve_slot` has printed its warning. -/
structure Table (Flags : Type) where
  allocs : List (Alloc Flags)
  imageUsed : Nat
  warned : Bool
  deriving DecidableEq, Repr

/-- What differs between the tables of the two libraries: the size, the flags of a new
record, and whether a full image is printed. -/
structure Shim (Flags : Type) where
  maxAllocs : Nat
  fresh : Flags
  warns : Bool

structure GcrFlags where
  pendingDrop : Bool
  deriving DecidableEq, Repr

structure PhosFlags where
  isH2d : Bool
  dirtyThisRound : Bool
  deriving DecidableEq, Repr

/-- `GCR_MAX_ALLOCS`, and `pending_drop = 0` in a new record. -/
def gcr : Shim GcrFlags := ⟨4096, ⟨false⟩, true⟩

/-- `PHOS_MAX_ALLOCS`; a new allocation is dirty. -/
def phos : Shim PhosFlags := ⟨4096, ⟨false, true⟩, false⟩

/-- The lines printed about the image: at load that there is none, and that it is full. -/
inductive Report where
  | imageMissing
  | imageExhausted (used total : Nat)
  deriving DecidableEq, Repr

/-- What `record_alloc` made of an allocation, with the lines that concern its slot. -/
structure Outcome where
  record : Option Nat
  slot : Option Nat
  reports : List Report
  deriving DecidableEq, Repr

variable {Flags : Type}

/-- The slot of a record in the image. -/
def Alloc.slot (e : Alloc Flags) : Option Region := e.imgOffset.map fun a => ⟨a, e.size⟩

def Table.slots (t : Table Flags) : List Region := t.allocs.filterMap Alloc.slot

/-- `find_alloc_idx_unlocked`. -/
def Table.findAllocIdx (t : Table Flags) (addr : Nat) : Option Nat :=
  t.allocs.findIdx? fun e => e.alive && decide (e.Covers addr)

/-- `image_reserve_slot` of the one and `assign_image_slot` of the other. -/
def Shim.reserveSlot (shim : Shim Flags) (image : Option Nat) (size : Nat) (t : Table Flags) :
    Option Nat × List Report × Table Flags :=
  match image with
  | none => (none, [.imageMissing], t)
  | some total =>
      if size = 0 then (none, [], t)
      else if total < t.imageUsed + size then
        if shim.warns && !t.warned then
          (none, [.imageExhausted t.imageUsed total], { t with warned := true })
        else (none, [], t)
      else (some t.imageUsed, [], { t with imageUsed := t.imageUsed + size })

/-- `record_alloc` for an address and a size that are not 0: the slot is taken first, and
nothing is printed when the table is full. -/
def Shim.append (shim : Shim Flags) (image : Option Nat) (r : Region) (t : Table Flags) :
    Outcome × Table Flags :=
  let (slot, reports, t') := shim.reserveSlot image r.size t
  if t'.allocs.length < shim.maxAllocs then
    (⟨some t'.allocs.length, slot, reports⟩,
      { t' with allocs := t'.allocs ++ [⟨r, slot, true, shim.fresh⟩] })
  else (⟨none, slot, reports⟩, t')

/-- `record_alloc`. -/
def Shim.recordAlloc (shim : Shim Flags) (image : Option Nat) (ptr size : Nat) (t : Table Flags) :
    Option Outcome × Table Flags :=
  if ptr = 0 ∨ size = 0 then (none, t)
  else
    let (outcome, t') := shim.append image ⟨ptr, size⟩ t
    (some outcome, t')

/-- Write into the first live record that contains the address. -/
def Table.updateAt (change : Alloc Flags → Alloc Flags) (addr : Nat) (t : Table Flags) :
    Table Flags :=
  match t.findAllocIdx addr with
  | none => t
  | some i => { t with allocs := t.allocs.modify i change }

def Alloc.retired (e : Alloc Flags) : Alloc Flags := { e with alive := false }

/-- `retire_alloc`, with no round in flight. -/
def Table.retireAlloc (addr : Nat) (t : Table Flags) : Table Flags :=
  if addr = 0 then t else t.updateAt Alloc.retired addr

namespace Gcr

def deferDrop (e : Alloc GcrFlags) : Alloc GcrFlags := { e with flags := ⟨true⟩ }

/-- `retire_alloc` of GCR: during a round the record is only marked. -/
def retireAlloc (inFlight : Bool) (addr : Nat) (t : Table GcrFlags) : Table GcrFlags :=
  if inFlight then if addr = 0 then t else t.updateAt deferDrop addr
  else t.retireAlloc addr

def dropPending (e : Alloc GcrFlags) : Alloc GcrFlags :=
  if e.flags.pendingDrop && e.alive then { e with alive := false, flags := ⟨false⟩ } else e

/-- `sweep_pending_drops`. -/
def sweepPendingDrops (t : Table GcrFlags) : Table GcrFlags :=
  { t with allocs := t.allocs.map dropPending }

end Gcr

/-- Memory that CUDA holds mapped, by `cuMemMap` or by an allocator, and what
`record_alloc` made of it. -/
structure Mapping extends Region where
  vmm : Bool
  outcome : Outcome
  deriving DecidableEq, Repr

structure State (Flags : Type) where
  table : Table Flags
  mapped : List Mapping

def State.init : State Flags := ⟨⟨[], 0, false⟩, []⟩

/-- The hooked calls: `cuMemMap` or one of the allocators, one of the frees, `cuMemUnmap`. -/
inductive Call where
  | alloc (vmm : Bool) (va size : Nat)
  | free (va : Nat)
  | unmap (va size : Nat)
  deriving DecidableEq, Repr

/-- CUDA takes the call: new memory lies apart from all other, what is freed was
allocated, and an unmap covers whole mappings and nothing else. -/
def Accepts (mapped : List Mapping) : Call → Prop
  | .alloc _ va size =>
      va = 0 ∧ size = 0 ∨ 0 < va ∧ 0 < size ∧ ∀ m ∈ mapped, m.Apart ⟨va, size⟩
  | .free va => va = 0 ∨ ∃ m ∈ mapped, m.va = va ∧ m.vmm = false
  | .unmap va size =>
      0 < size ∧ (∀ m ∈ mapped, ¬m.Apart ⟨va, size⟩ → m.vmm = true ∧ m.Inside ⟨va, size⟩) ∧
        ((mapped.filter fun m => m.Inside ⟨va, size⟩).map (·.size)).sum = size

instance (mapped : List Mapping) : (call : Call) → Decidable (Accepts mapped call)
  | .alloc _ _ _ => inferInstanceAs (Decidable (_ ∨ _))
  | .free _ => inferInstanceAs (Decidable (_ ∨ _))
  | .unmap _ _ => inferInstanceAs (Decidable (_ ∧ _))

/-- One hooked call. The hooks of the frees wait for the end of a round before they
retire the record, so none is in flight. -/
def next (shim : Shim Flags) (image : Option Nat) (s : State Flags) (call : Call) :
    Option (State Flags) :=
  if Accepts s.mapped call then
    match call with
    | .alloc vmm va size =>
        let (outcome, table) := shim.recordAlloc image va size s.table
        some ⟨table, s.mapped ++ (outcome.map fun o => ⟨⟨va, size⟩, vmm, o⟩).toList⟩
    | .free va => some ⟨s.table.retireAlloc va, s.mapped.filter fun m => m.va ≠ va⟩
    | .unmap va size =>
        some ⟨s.table.retireAlloc va, s.mapped.filter fun m => ¬m.Inside ⟨va, size⟩⟩
  else none

/-- The table mirrors the memory that is mapped, and what it could not record or give a
slot is on the log. -/
structure Mirrors (image : Option Nat) (s : State Flags) : Prop where
  disjoint : s.table.allocs.Pairwise fun e f => e.alive = true → f.alive = true → e.Apart f.toRegion
  find : ∀ addr, s.table.findAllocIdx addr =
    (s.mapped.find? fun m => m.Covers addr).bind fun m => m.outcome.record
  extent : ∀ m ∈ s.mapped, ∀ i, m.outcome.record = some i →
    (s.table.allocs[i]?).map (·.toRegion) = some m.toRegion
  slotsApart : s.table.slots.Pairwise Region.Apart
  slotsInside : ∀ r ∈ s.table.slots, ∃ total, image = some total ∧ r.Inside ⟨0, total⟩
  /-- There is no message for a record that finds no room. -/
  recorded : ∀ m ∈ s.mapped, m.outcome.record ≠ none
  slotted : ∀ m ∈ s.mapped, m.outcome.slot = none → m.outcome.reports ≠ []

/-- A new mapping finds room in the table, and in the image or the first time that there
is none a library that says so. An unmap covers one mapping. -/
def Fits (shim : Shim Flags) (image : Option Nat) (s : State Flags) : Call → Prop
  | .alloc _ va size => va ≠ 0 → size ≠ 0 →
      s.table.allocs.length < shim.maxAllocs ∧ ∀ total, image = some total →
        s.table.imageUsed + size ≤ total ∨ shim.warns = true ∧ s.table.warned = false
  | .free _ => True
  | .unmap va size => (s.mapped.filter fun m => m.Inside ⟨va, size⟩).length = 1

@[simp] theorem reserveSlot_allocs (shim : Shim Flags) (image : Option Nat) (size : Nat)
    (t : Table Flags) : (shim.reserveSlot image size t).2.2.allocs = t.allocs := by
  cases image with
  | none => rfl
  | some total =>
      simp only [Shim.reserveSlot]
      split_ifs <;> rfl

theorem recordAlloc_of_ne (shim : Shim Flags) (image : Option Nat) {ptr size : Nat} (hPtr : ptr ≠ 0)
    (hSize : size ≠ 0) (t : Table Flags) : shim.recordAlloc image ptr size t =
      (some (shim.append image ⟨ptr, size⟩ t).1, (shim.append image ⟨ptr, size⟩ t).2) := by
  rw [Shim.recordAlloc, if_neg (by simp [hPtr, hSize])]

theorem append_record (shim : Shim Flags) (image : Option Nat) (r : Region) (t : Table Flags) :
    (shim.append image r t).1.record =
      if t.allocs.length < shim.maxAllocs then some t.allocs.length else none := by
  simp only [Shim.append, reserveSlot_allocs]
  split <;> rfl

theorem append_slot (shim : Shim Flags) (image : Option Nat) (r : Region) (t : Table Flags) :
    (shim.append image r t).1.slot = (shim.reserveSlot image r.size t).1 := by
  simp only [Shim.append]
  split <;> rfl

theorem append_allocs (shim : Shim Flags) (image : Option Nat) (r : Region) (t : Table Flags) :
    (shim.append image r t).2.allocs = if t.allocs.length < shim.maxAllocs then
      t.allocs ++ [⟨r, (shim.reserveSlot image r.size t).1, true, shim.fresh⟩] else t.allocs := by
  simp only [Shim.append, reserveSlot_allocs]
  split
  · rfl
  · exact reserveSlot_allocs shim image r.size t

theorem append_imageUsed (shim : Shim Flags) (image : Option Nat) (r : Region) (t : Table Flags) :
    (shim.append image r t).2.imageUsed = (shim.reserveSlot image r.size t).2.2.imageUsed := by
  simp only [Shim.append]
  split <;> rfl

/-- A new allocation has a slot or a line about it: there is no image, the image has room,
or it is the first time that a library which warns finds it full. -/
theorem append_slotted (shim : Shim Flags) (image : Option Nat) {r : Region} (hSize : r.size ≠ 0)
    (t : Table Flags) :
    ((shim.append image r t).1.slot = none → (shim.append image r t).1.reports ≠ []) ↔
      ∀ total, image = some total →
        t.imageUsed + r.size ≤ total ∨ shim.warns = true ∧ t.warned = false := by
  have hReports : (shim.append image r t).1.reports = (shim.reserveSlot image r.size t).2.1 := by
    simp only [Shim.append]
    split <;> rfl
  rw [append_slot, hReports]
  cases image with
  | none => simp [Shim.reserveSlot]
  | some total =>
      by_cases hFull : total < t.imageUsed + r.size
      · cases hWarns : shim.warns <;> cases hWarned : t.warned <;>
          simp [Shim.reserveSlot, hSize, hFull, hWarns, hWarned]
      · simp [Shim.reserveSlot, hSize, hFull, Nat.not_lt.mp hFull]

/-- The slots lie one behind the other below the bump pointer. -/
structure Packed (image : Option Nat) (t : Table Flags) : Prop where
  below : ∀ r ∈ t.slots, image ≠ none ∧ r.Inside ⟨0, t.imageUsed⟩
  apart : t.slots.Pairwise Region.Apart
  inside : ∀ total, image = some total → t.imageUsed ≤ total

/-- The slot of an entry. -/
theorem Table.mem_slots {t : Table Flags} {i off : Nat} {e : Alloc Flags}
    (he : t.allocs[i]? = some e) (hOff : e.imgOffset = some off) : ⟨off, e.size⟩ ∈ t.slots :=
  List.mem_filterMap.mpr ⟨e, List.mem_of_getElem? he, by simp [Alloc.slot, hOff]⟩

/-- An entry has a slot only if there is an image. -/
theorem Packed.image_isSome {image : Option Nat} {t : Table Flags} (h : Packed image t)
    {i off : Nat} {e : Alloc Flags} (he : t.allocs[i]? = some e) (hOff : e.imgOffset = some off) :
    image.isSome = true :=
  Option.isSome_iff_ne_none.mpr (h.below _ (Table.mem_slots he hOff)).1

/-- The image has room for every slot. -/
theorem Packed.slot_le {image : Option Nat} {t : Table Flags} (h : Packed image t) {i off : Nat}
    {e : Alloc Flags} (he : t.allocs[i]? = some e) (hOff : e.imgOffset = some off) {total : Nat}
    (hTotal : image = some total) : off + e.size ≤ total := by
  have hBelow := (h.below _ (Table.mem_slots he hOff)).2.2
  have hUsed := h.inside total hTotal
  dsimp only at hBelow
  omega

theorem packed_init (image : Option Nat) : Packed image (State.init : State Flags).table where
  below := fun _ hr => absurd hr List.not_mem_nil
  apart := List.Pairwise.nil
  inside := fun _ _ => Nat.zero_le _

/-- A slot that is given out begins at the bump pointer, which then moves behind it. -/
theorem reserveSlot_cases (shim : Shim Flags) (image : Option Nat) (size : Nat) (t : Table Flags) :
    (shim.reserveSlot image size t).1 = none ∧
        (shim.reserveSlot image size t).2.2.imageUsed = t.imageUsed ∨
      ∃ total, image = some total ∧ t.imageUsed + size ≤ total ∧
        (shim.reserveSlot image size t).1 = some t.imageUsed ∧
        (shim.reserveSlot image size t).2.2.imageUsed = t.imageUsed + size := by
  cases image with
  | none => exact .inl ⟨rfl, rfl⟩
  | some total =>
      by_cases hSize : size = 0
      · exact .inl (by simp [Shim.reserveSlot, hSize])
      · by_cases hFull : total < t.imageUsed + size
        · cases hWarn : (shim.warns && !t.warned) with
          | false => exact .inl (by simp [Shim.reserveSlot, hSize, hFull, hWarn])
          | true => exact .inl (by simp [Shim.reserveSlot, hSize, hFull, hWarn])
        · exact .inr ⟨total, rfl, Nat.not_lt.mp hFull, by simp [Shim.reserveSlot, hSize, hFull]⟩

theorem Packed.append {image : Option Nat} {t : Table Flags} (h : Packed image t)
    (shim : Shim Flags) (r : Region) : Packed image (shim.append image r t).2 := by
  have hSlots : (shim.append image r t).2.slots = t.slots ∨
      (shim.append image r t).2.slots =
        t.slots ++ ((shim.reserveSlot image r.size t).1.map fun a => ⟨a, r.size⟩).toList := by
    rw [Table.slots, append_allocs]
    split
    · rw [List.filterMap_append]
      exact .inr rfl
    · exact .inl rfl
  rcases reserveSlot_cases shim image r.size t with ⟨hNone, hUsed⟩ | ⟨total, hImage, hFits, hSome, hUsed⟩
  · have hSame : (shim.append image r t).2.slots = t.slots := by
      simpa [hNone] using hSlots
    refine ⟨?_, ?_, ?_⟩
    · rw [hSame, append_imageUsed, hUsed]
      exact h.below
    · rw [hSame]
      exact h.apart
    · rw [append_imageUsed, hUsed]
      exact h.inside
  · have hMem : ∀ s ∈ (shim.append image r t).2.slots, s ∈ t.slots ∨ s = ⟨t.imageUsed, r.size⟩ := by
      intro s hs
      rcases hSlots with hSame | hMore
      · exact .inl (hSame ▸ hs)
      · simpa [hMore, hSome] using hs
    refine ⟨?_, ?_, ?_⟩
    · intro s hs
      rw [append_imageUsed, hUsed]
      rcases hMem s hs with hOld | rfl
      · obtain ⟨hNe, hLow, hHigh⟩ := h.below s hOld
        exact ⟨hNe, hLow, by dsimp only at hHigh ⊢; omega⟩
      · exact ⟨by simp [hImage], Nat.zero_le _, by dsimp only; omega⟩
    · rcases hSlots with hSame | hMore
      · rw [hSame]
        exact h.apart
      · rw [hMore, hSome]
        refine List.pairwise_append.mpr ⟨h.apart, List.pairwise_singleton _ _, ?_⟩
        intro s hs s' hs'
        cases List.mem_singleton.mp hs'
        obtain ⟨_, _, hHigh⟩ := h.below s hs
        exact .inl (by simpa using hHigh)
    · intro total' hImage'
      cases hImage.symm.trans hImage'
      rw [append_imageUsed, hUsed]
      exact hFits

/-- The live records are those of the mapped memory. -/
structure Owned (allocs : List (Alloc Flags)) (mapped : List Mapping) : Prop where
  pos : ∀ m ∈ mapped, 0 < m.va ∧ 0 < m.size
  apart : mapped.Pairwise fun m n => m.Apart n.toRegion
  record : ∀ m ∈ mapped, ∃ i e, m.outcome.record = some i ∧ allocs[i]? = some e ∧
    e.alive = true ∧ e.toRegion = m.toRegion
  mapping : ∀ i e, allocs[i]? = some e → e.alive = true →
    ∃ m ∈ mapped, m.outcome.record = some i ∧ e.toRegion = m.toRegion

instance : Std.Symm fun m n : Mapping => m.Apart n.toRegion := ⟨fun _ _ h => h.symm⟩

theorem eq_of_covers {mapped : List Mapping}
    (hApart : mapped.Pairwise fun m n => m.Apart n.toRegion) {m n : Mapping} (hm : m ∈ mapped)
    (hn : n ∈ mapped) (addr : Nat) (hmAddr : m.Covers addr) (hnAddr : n.Covers addr) : m = n := by
  by_contra hNe
  exact Region.not_apart_of_covers hmAddr hnAddr (hApart.forall hm hn hNe)

theorem findAllocIdx_some {t : Table Flags} {addr i : Nat} (h : t.findAllocIdx addr = some i) :
    ∃ e, t.allocs[i]? = some e ∧ e.alive = true ∧ e.Covers addr := by
  obtain ⟨hLt, hFound, _⟩ := List.findIdx?_eq_some_iff_getElem.mp h
  rw [Bool.and_eq_true, decide_eq_true_eq] at hFound
  exact ⟨t.allocs[i], List.getElem?_eq_getElem hLt, hFound⟩

theorem findAllocIdx_none {t : Table Flags} {addr : Nat} (h : t.findAllocIdx addr = none) {i : Nat}
    {e : Alloc Flags} (he : t.allocs[i]? = some e) (hAlive : e.alive = true) : ¬e.Covers addr := by
  have hNot := List.findIdx?_eq_none_iff.mp h e (List.mem_of_getElem? he)
  simpa [hAlive] using hNot

/-- The lookup finds the record of what is mapped at the address. -/
theorem Owned.find {t : Table Flags} {mapped : List Mapping} (h : Owned t.allocs mapped)
    (addr : Nat) : t.findAllocIdx addr =
      (mapped.find? fun m => m.Covers addr).bind fun m => m.outcome.record := by
  cases hMapped : mapped.find? fun m => m.Covers addr with
  | none =>
      cases hFind : t.findAllocIdx addr with
      | none => rfl
      | some i =>
          obtain ⟨e, he, hAlive, hCovers⟩ := findAllocIdx_some hFind
          obtain ⟨m, hm, _, hRegion⟩ := h.mapping i e he hAlive
          have hNot := List.find?_eq_none.mp hMapped m hm
          rw [hRegion] at hCovers
          exact absurd (decide_eq_true hCovers) hNot
  | some m =>
      have hm := List.mem_of_find?_eq_some hMapped
      have hCovers : m.Covers addr := by simpa using List.find?_some hMapped
      obtain ⟨i, e, hRecord, he, hAlive, hRegion⟩ := h.record m hm
      cases hFind : t.findAllocIdx addr with
      | none => exact absurd (hRegion ▸ hCovers) (findAllocIdx_none hFind he hAlive)
      | some j =>
          obtain ⟨f, hf, hfAlive, hfCovers⟩ := findAllocIdx_some hFind
          obtain ⟨n, hn, hnRecord, hnRegion⟩ := h.mapping j f hf hfAlive
          rw [hnRegion] at hfCovers
          cases eq_of_covers h.apart hm hn addr hCovers hfCovers
          exact hnRecord.symm

/-- An address of a mapping is found in the record of that mapping. -/
theorem Owned.find_of_covers {t : Table Flags} {mapped : List Mapping}
    (h : Owned t.allocs mapped) {m : Mapping} (hm : m ∈ mapped) {addr : Nat} (hCovers : m.Covers addr) :
    t.findAllocIdx addr = m.outcome.record := by
  rw [h.find]
  cases hMapped : mapped.find? fun n => n.Covers addr with
  | none => exact absurd (decide_eq_true hCovers) (List.find?_eq_none.mp hMapped m hm)
  | some n =>
      have hn := List.mem_of_find?_eq_some hMapped
      have hnCovers : n.Covers addr := by simpa using List.find?_some hMapped
      cases eq_of_covers h.apart hn hm addr hnCovers hCovers
      rfl

theorem Owned.disjoint {allocs : List (Alloc Flags)} {mapped : List Mapping}
    (h : Owned allocs mapped) :
    allocs.Pairwise fun e f => e.alive = true → f.alive = true → e.Apart f.toRegion := by
  rw [List.pairwise_iff_getElem]
  intro i j hi hj hij hiAlive hjAlive
  obtain ⟨m, hm, hmRecord, hmRegion⟩ := h.mapping i _ (List.getElem?_eq_getElem hi) hiAlive
  obtain ⟨n, hn, hnRecord, hnRegion⟩ := h.mapping j _ (List.getElem?_eq_getElem hj) hjAlive
  rw [hmRegion, hnRegion]
  apply h.apart.forall hm hn
  rintro rfl
  exact absurd (Option.some.inj (hmRecord.symm.trans hnRecord)) (Nat.ne_of_lt hij)

theorem Owned.append {allocs : List (Alloc Flags)} {mapped : List Mapping} (h : Owned allocs mapped)
    {e : Alloc Flags} {m : Mapping} (hAlive : e.alive = true) (hRegion : e.toRegion = m.toRegion)
    (hRecord : m.outcome.record = some allocs.length) (hPos : 0 < m.va ∧ 0 < m.size)
    (hApart : ∀ n ∈ mapped, n.Apart m.toRegion) : Owned (allocs ++ [e]) (mapped ++ [m]) := by
  refine ⟨?_, ?_, ?_, ?_⟩
  · intro n hn
    rcases List.mem_append.mp hn with hn | hn
    · exact h.pos n hn
    · cases List.mem_singleton.mp hn
      exact hPos
  · refine List.pairwise_append.mpr ⟨h.apart, List.pairwise_singleton _ _, ?_⟩
    intro n hn m' hm'
    cases List.mem_singleton.mp hm'
    exact hApart n hn
  · intro n hn
    rcases List.mem_append.mp hn with hn | hn
    · obtain ⟨i, f, hnRecord, hf, hfAlive, hfRegion⟩ := h.record n hn
      have hLt := (List.getElem?_eq_some_iff.mp hf).1
      exact ⟨i, f, hnRecord, by rw [List.getElem?_append_left hLt, hf], hfAlive, hfRegion⟩
    · cases List.mem_singleton.mp hn
      exact ⟨allocs.length, e, hRecord, by simp, hAlive, hRegion⟩
  · intro i f hf hfAlive
    rcases Nat.lt_or_ge i allocs.length with hLt | hGe
    · rw [List.getElem?_append_left hLt] at hf
      obtain ⟨n, hn, hnRecord, hnRegion⟩ := h.mapping i f hf hfAlive
      exact ⟨n, List.mem_append_left _ hn, hnRecord, hnRegion⟩
    · have hLast : i = allocs.length := by
        have := (List.getElem?_eq_some_iff.mp hf).1
        rw [List.length_append, List.length_singleton] at this
        omega
      subst hLast
      obtain rfl : e = f := by simpa using hf
      exact ⟨m, List.mem_append_right _ List.mem_cons_self, hRecord, hRegion⟩

/-- The free or unmap of one mapping retires its record. -/
theorem Owned.release {t : Table Flags} {mapped : List Mapping} (h : Owned t.allocs mapped)
    {m : Mapping} (hm : m ∈ mapped) {keep : Mapping → Bool}
    (hKeep : ∀ n ∈ mapped, keep n = true ↔ n ≠ m) :
    Owned (t.retireAlloc m.va).allocs (mapped.filter keep) := by
  obtain ⟨i, e, hRecord, he, hAlive, hRegion⟩ := h.record m hm
  have hFound : t.findAllocIdx m.va = some i :=
    (h.find_of_covers hm (Region.covers_va (h.pos m hm).2)).trans hRecord
  have hAllocs : (t.retireAlloc m.va).allocs = t.allocs.modify i Alloc.retired := by
    rw [Table.retireAlloc, if_neg (Nat.ne_of_gt (h.pos m hm).1), Table.updateAt, hFound]
  rw [hAllocs]
  refine ⟨fun n hn => h.pos n (List.mem_of_mem_filter hn), h.apart.filter _, ?_, ?_⟩
  · intro n hn
    obtain ⟨hnMem, hnKeep⟩ := List.mem_filter.mp hn
    obtain ⟨j, f, hnRecord, hf, hfAlive, hfRegion⟩ := h.record n hnMem
    have hNe : i ≠ j := by
      rintro rfl
      obtain rfl : e = f := Option.some.inj (he.symm.trans hf)
      have hSame := hRegion.symm.trans hfRegion
      refine (hKeep n hnMem).mp hnKeep (eq_of_covers h.apart hnMem hm m.va ?_ ?_)
      · rw [← hSame]
        exact Region.covers_va (h.pos m hm).2
      · exact Region.covers_va (h.pos m hm).2
    exact ⟨j, f, hnRecord, by simp [hNe, hf], hfAlive, hfRegion⟩
  · intro j f hf hfAlive
    by_cases hSame : i = j
    · subst hSame
      obtain rfl : e.retired = f := by simpa [List.getElem?_modify, he] using hf
      cases hfAlive
    · have hOld : t.allocs[j]? = some f := by simpa [List.getElem?_modify, hSame] using hf
      obtain ⟨n, hn, hnRecord, hnRegion⟩ := h.mapping j f hOld hfAlive
      refine ⟨n, List.mem_filter.mpr ⟨hn, (hKeep n hn).mpr ?_⟩, hnRecord, hnRegion⟩
      rintro rfl
      exact hSame (Option.some.inj (hRecord.symm.trans hnRecord))

theorem slots_modify {change : Alloc Flags → Alloc Flags} (hChange : ∀ e, (change e).slot = e.slot)
    (i : Nat) (t : Table Flags) :
    ({ t with allocs := t.allocs.modify i change } : Table Flags).slots = t.slots := by
  have hSame : (t.allocs.modify i change).map Alloc.slot = t.allocs.map Alloc.slot := by
    apply List.ext_getElem?
    intro j
    rw [List.getElem?_map, List.getElem?_map, List.getElem?_modify]
    cases t.allocs[j]? with
    | none => rfl
    | some e => by_cases hij : i = j <;> simp [hij, hChange]
  have hIds := congrArg (List.filterMap id) hSame
  rwa [List.filterMap_map, List.filterMap_map] at hIds

theorem slots_updateAt {change : Alloc Flags → Alloc Flags} (hChange : ∀ e, (change e).slot = e.slot)
    (addr : Nat) (t : Table Flags) : (t.updateAt change addr).slots = t.slots := by
  rw [Table.updateAt]
  split
  · rfl
  · exact slots_modify hChange _ t

theorem Packed.retire {image : Option Nat} {t : Table Flags} (h : Packed image t) (addr : Nat) :
    Packed image (t.retireAlloc addr) := by
  have hSlots : (t.retireAlloc addr).slots = t.slots := by
    rw [Table.retireAlloc]
    split
    · rfl
    · have hRetired : ∀ e : Alloc Flags, e.retired.slot = e.slot := fun _ => rfl
      exact slots_updateAt hRetired addr t
  have hUsed : (t.retireAlloc addr).imageUsed = t.imageUsed := by
    rw [Table.retireAlloc, Table.updateAt]
    split
    · rfl
    · split <;> rfl
  refine ⟨?_, ?_, ?_⟩
  · rw [hSlots, hUsed]
    exact h.below
  · rw [hSlots]
    exact h.apart
  · rw [hUsed]
    exact h.inside

structure Inv (image : Option Nat) (s : State Flags) : Prop where
  owned : Owned s.table.allocs s.mapped
  packed : Packed image s.table
  slotted : ∀ m ∈ s.mapped, m.outcome.slot = none → m.outcome.reports ≠ []

theorem inv_init (image : Option Nat) : Inv image (State.init : State Flags) where
  owned := ⟨fun _ h => absurd h List.not_mem_nil, .nil, fun _ h => absurd h List.not_mem_nil,
    fun _ _ h => absurd h (by simp [State.init])⟩
  packed := packed_init image
  slotted := fun _ h => absurd h List.not_mem_nil

theorem Inv.mirrors {image : Option Nat} {s : State Flags} (h : Inv image s) : Mirrors image s where
  disjoint := h.owned.disjoint
  find := h.owned.find
  extent := by
    intro m hm i hRecord
    obtain ⟨j, e, hRecord', he, _, hRegion⟩ := h.owned.record m hm
    cases hRecord.symm.trans hRecord'
    rw [he, Option.map_some, hRegion]
  slotsApart := h.packed.apart
  slotsInside := by
    intro r hr
    obtain ⟨hImage, hLow, hHigh⟩ := h.packed.below r hr
    obtain ⟨total, hTotal⟩ := Option.ne_none_iff_exists'.mp hImage
    have hUsed := h.packed.inside total hTotal
    exact ⟨total, hTotal, hLow, by dsimp only at hHigh ⊢; omega⟩
  recorded := by
    intro m hm
    obtain ⟨i, _, hRecord, _⟩ := h.owned.record m hm
    simp [hRecord]
  slotted := h.slotted

/-- The mapping that a call which is not a new one takes away, where an unmap covers one. -/
theorem Inv.released {image : Option Nat} {s : State Flags} (h : Inv image s) {va : Nat}
    {m : Mapping} (hm : m ∈ s.mapped) (hVa : m.va = va) {keep : Mapping → Bool}
    (hKeep : ∀ n ∈ s.mapped, keep n = true ↔ n ≠ m) :
    Inv image ⟨s.table.retireAlloc va, s.mapped.filter keep⟩ where
  owned := hVa ▸ h.owned.release hm hKeep
  packed := h.packed.retire va
  slotted := fun n hn => h.slotted n (List.mem_of_mem_filter hn)

theorem Inv.eq_of_va {image : Option Nat} {s : State Flags} (h : Inv image s) {m n : Mapping}
    (hm : m ∈ s.mapped) (hn : n ∈ s.mapped) (hVa : n.va = m.va) : n = m := by
  refine eq_of_covers h.owned.apart hn hm m.va ?_ (Region.covers_va (h.owned.pos m hm).2)
  rw [← hVa]
  exact Region.covers_va (h.owned.pos n hn).2

theorem Inv.alloc {image : Option Nat} {s : State Flags} (h : Inv image s) {shim : Shim Flags}
    (vmm : Bool) {r : Region} (hPos : 0 < r.va ∧ 0 < r.size)
    (hApart : ∀ m ∈ s.mapped, m.Apart r) (hRoom : s.table.allocs.length < shim.maxAllocs)
    (hSlot : ∀ total, image = some total →
      s.table.imageUsed + r.size ≤ total ∨ shim.warns = true ∧ s.table.warned = false) :
    Inv image ⟨(shim.append image r s.table).2,
      s.mapped ++ [⟨r, vmm, (shim.append image r s.table).1⟩]⟩ where
  owned := by
    rw [append_allocs, if_pos hRoom]
    refine h.owned.append rfl rfl ?_ hPos hApart
    rw [append_record, if_pos hRoom]
  packed := h.packed.append shim r
  slotted := by
    intro m hm
    rcases List.mem_append.mp hm with hm | hm
    · exact h.slotted m hm
    · cases List.mem_singleton.mp hm
      exact (append_slotted shim image (Nat.ne_of_gt hPos.2) s.table).mpr hSlot

theorem next_alloc {shim : Shim Flags} {image : Option Nat} {s t : State Flags} {vmm : Bool}
    {va size : Nat} (h : next shim image s (.alloc vmm va size) = some t) :
    va = 0 ∧ t = s ∨ 0 < va ∧ 0 < size ∧ (∀ m ∈ s.mapped, m.Apart ⟨va, size⟩) ∧
      t = ⟨(shim.append image ⟨va, size⟩ s.table).2,
        s.mapped ++ [⟨⟨va, size⟩, vmm, (shim.append image ⟨va, size⟩ s.table).1⟩]⟩ := by
  unfold next at h
  split_ifs at h with hAccepts
  rcases hAccepts with ⟨rfl, rfl⟩ | ⟨hVa, hSize, hApart⟩
  · cases h
    exact .inl ⟨rfl, by simp⟩
  · simp only [recordAlloc_of_ne shim image (Nat.ne_of_gt hVa) (Nat.ne_of_gt hSize)] at h
    cases h
    exact .inr ⟨hVa, hSize, hApart, rfl⟩

theorem next_free {shim : Shim Flags} {image : Option Nat} {s t : State Flags} {va : Nat}
    (h : next shim image s (.free va) = some t) :
    (va = 0 ∨ ∃ m ∈ s.mapped, m.va = va) ∧
      t = ⟨s.table.retireAlloc va, s.mapped.filter fun m => m.va ≠ va⟩ := by
  unfold next at h
  split_ifs at h with hAccepts
  cases h
  exact ⟨hAccepts.imp_right fun ⟨m, hm, hVa, _⟩ => ⟨m, hm, hVa⟩, rfl⟩

theorem next_unmap {shim : Shim Flags} {image : Option Nat} {s t : State Flags} {va size : Nat}
    (h : next shim image s (.unmap va size) = some t) :
    0 < size ∧ ((s.mapped.filter fun m => m.Inside ⟨va, size⟩).map (·.size)).sum = size ∧
      t = ⟨s.table.retireAlloc va, s.mapped.filter fun m => ¬m.Inside ⟨va, size⟩⟩ := by
  unfold next at h
  split_ifs at h with hAccepts
  cases h
  exact ⟨hAccepts.1, hAccepts.2.2, rfl⟩

/-- What holds in every run: the record made for a mapping stays where it was put, with
the slot that was reserved. -/
structure Recorded (s : State Flags) : Prop where
  pos : ∀ m ∈ s.mapped, 0 < m.va ∧ 0 < m.size
  apart : s.mapped.Pairwise fun m n => m.Apart n.toRegion
  record : ∀ m ∈ s.mapped, ∀ i, m.outcome.record = some i → ∃ e, s.table.allocs[i]? = some e ∧
    e.toRegion = m.toRegion ∧ e.imgOffset = m.outcome.slot

theorem recorded_init : Recorded (State.init : State Flags) where
  pos := fun _ h => absurd h List.not_mem_nil
  apart := .nil
  record := fun _ h => absurd h List.not_mem_nil

theorem Recorded.retire {s : State Flags} (h : Recorded s) (addr : Nat) (keep : Mapping → Bool) :
    Recorded ⟨s.table.retireAlloc addr, s.mapped.filter keep⟩ where
  pos := fun m hm => h.pos m (List.mem_of_mem_filter hm)
  apart := h.apart.filter _
  record := by
    intro m hm i hRecord
    obtain ⟨e, he, hRegion, hSlot⟩ := h.record m (List.mem_of_mem_filter hm) i hRecord
    rw [Table.retireAlloc, Table.updateAt]
    split
    · exact ⟨e, he, hRegion, hSlot⟩
    · cases s.table.findAllocIdx addr with
      | none => exact ⟨e, he, hRegion, hSlot⟩
      | some j =>
          by_cases hij : j = i
          · exact ⟨e.retired, by simp [hij, he], hRegion, hSlot⟩
          · exact ⟨e, by simp [hij, he], hRegion, hSlot⟩

theorem Recorded.next {shim : Shim Flags} {image : Option Nat} {s t : State Flags}
    (h : Recorded s) {call : Call} (hNext : Emul.next shim image s call = some t) : Recorded t := by
  cases call with
  | alloc vmm va size =>
      rcases next_alloc hNext with ⟨_, rfl⟩ | ⟨hVa, hSize, hApart, rfl⟩
      · exact h
      · refine ⟨?_, ?_, ?_⟩
        · intro m hm
          rcases List.mem_append.mp hm with hm | hm
          · exact h.pos m hm
          · cases List.mem_singleton.mp hm
            exact ⟨hVa, hSize⟩
        · refine List.pairwise_append.mpr ⟨h.apart, List.pairwise_singleton _ _, ?_⟩
          intro m hm n hn
          cases List.mem_singleton.mp hn
          exact hApart m hm
        · intro m hm i hRecord
          rw [append_allocs]
          rcases List.mem_append.mp hm with hm | hm
          · obtain ⟨e, he, hSame⟩ := h.record m hm i hRecord
            split
            · have hLt := (List.getElem?_eq_some_iff.mp he).1
              exact ⟨e, by rw [List.getElem?_append_left hLt, he], hSame⟩
            · exact ⟨e, he, hSame⟩
          · cases List.mem_singleton.mp hm
            rw [append_record] at hRecord
            split at hRecord
            · rename_i hRoom
              cases hRecord
              refine ⟨⟨⟨va, size⟩, (shim.append image ⟨va, size⟩ s.table).1.slot, true, shim.fresh⟩,
                ?_, rfl, rfl⟩
              rw [if_pos hRoom, List.getElem?_concat_length, append_slot]
            · cases hRecord
  | free va =>
      obtain ⟨_, rfl⟩ := next_free hNext
      exact h.retire va _
  | unmap va size =>
      obtain ⟨_, _, rfl⟩ := next_unmap hNext
      exact h.retire va _

theorem Packed.next {shim : Shim Flags} {image : Option Nat} {s t : State Flags}
    (h : Packed image s.table) {call : Call} (hNext : Emul.next shim image s call = some t) :
    Packed image t.table := by
  cases call with
  | alloc vmm va size =>
      rcases next_alloc hNext with ⟨_, rfl⟩ | ⟨_, _, _, rfl⟩
      · exact h
      · exact h.append shim ⟨va, size⟩
  | free va =>
      obtain ⟨_, rfl⟩ := next_free hNext
      exact h.retire va
  | unmap va size =>
      obtain ⟨_, _, rfl⟩ := next_unmap hNext
      exact h.retire va

/-- A place in the image belongs to one record. -/
theorem Packed.eq_of_covers {image : Option Nat} {t : Table Flags} (h : Packed image t)
    {i j : Nat} {e f : Alloc Flags} (he : t.allocs[i]? = some e) (hf : t.allocs[j]? = some f)
    {a b : Nat} (ha : e.imgOffset = some a) (hb : f.imgOffset = some b) (pos : Nat)
    (heCovers : (⟨a, e.size⟩ : Region).Covers pos) (hfCovers : (⟨b, f.size⟩ : Region).Covers pos) :
    i = j := by
  have hApart := h.apart
  rw [Table.slots, List.pairwise_filterMap, List.pairwise_iff_getElem] at hApart
  obtain ⟨hi, rfl⟩ := List.getElem?_eq_some_iff.mp he
  obtain ⟨hj, rfl⟩ := List.getElem?_eq_some_iff.mp hf
  rcases Nat.lt_trichotomy i j with hLt | hEq | hGt
  · refine absurd (hApart i j hi hj hLt ⟨a, _⟩ ?_ ⟨b, _⟩ ?_)
      (Region.not_apart_of_covers heCovers hfCovers)
    · simp [Alloc.slot, ha]
    · simp [Alloc.slot, hb]
  · exact hEq
  · refine absurd (hApart j i hj hi hGt ⟨b, _⟩ ?_ ⟨a, _⟩ ?_)
      (Region.not_apart_of_covers hfCovers heCovers)
    · simp [Alloc.slot, hb]
    · simp [Alloc.slot, ha]

/-- The step lemma: a call that fits keeps the table in order. -/
theorem Inv.next {shim : Shim Flags} {image : Option Nat} {s t : State Flags} (h : Inv image s)
    {call : Call} (hFits : Fits shim image s call)
    (hNext : Emul.next shim image s call = some t) : Inv image t := by
  cases call with
  | alloc vmm va size =>
      rcases next_alloc hNext with ⟨_, rfl⟩ | ⟨hVa, hSize, hApart, rfl⟩
      · exact h
      · obtain ⟨hRoom, hSlot⟩ := hFits (Nat.ne_of_gt hVa) (Nat.ne_of_gt hSize)
        exact h.alloc vmm ⟨hVa, hSize⟩ hApart hRoom hSlot
  | free va =>
      obtain ⟨hFreed, rfl⟩ := next_free hNext
      rcases hFreed with rfl | ⟨m, hm, hVa⟩
      · have hAll : s.mapped.filter (fun m => decide (m.va ≠ 0)) = s.mapped := by
          rw [List.filter_eq_self]
          intro m hm
          simpa using Nat.ne_of_gt (h.owned.pos m hm).1
        rw [hAll]
        exact h
      · refine h.released hm hVa fun n hn => ?_
        rw [decide_eq_true_eq, Ne, not_iff_not]
        exact ⟨fun hSame => h.eq_of_va hm hn (hSame.trans hVa.symm), fun hSame => hSame ▸ hVa⟩
  | unmap va size =>
      obtain ⟨_, hSum, rfl⟩ := next_unmap hNext
      obtain ⟨m, hOne⟩ := List.length_eq_one_iff.mp hFits
      have hMem : ∀ n, n ∈ s.mapped ∧ n.Inside ⟨va, size⟩ ↔ n = m := by
        intro n
        simpa using (congrArg (n ∈ ·) hOne).to_iff
      obtain ⟨hm, hLow, hHigh⟩ := (hMem m).mpr rfl
      have hSize : m.size = size := by simpa [hOne] using hSum
      have hVa : m.va = va := by dsimp only at hLow hHigh; omega
      refine h.released hm hVa fun n hn => ?_
      rw [decide_eq_true_eq, Ne, not_iff_not]
      exact ⟨fun hIn => (hMem n).mp ⟨hn, hIn⟩, fun hSame => ((hMem n).mpr hSame).2⟩

/-- Of two mappings that one unmap takes away the record of one stays live. -/
theorem Inv.stale {image : Option Nat} {s : State Flags} (h : Inv image s) (va : Nat) {m n : Mapping}
    (hm : m ∈ s.mapped) (hn : n ∈ s.mapped) (hNe : m ≠ n) :
    ∃ k, (k = m ∨ k = n) ∧ (s.table.retireAlloc va).findAllocIdx k.va ≠ none := by
  obtain ⟨i, e, hmRecord, he, heAlive, heRegion⟩ := h.owned.record m hm
  obtain ⟨j, f, hnRecord, hf, hfAlive, hfRegion⟩ := h.owned.record n hn
  have hIdx : i ≠ j := by
    rintro rfl
    obtain rfl : e = f := Option.some.inj (he.symm.trans hf)
    exact hNe (h.eq_of_va hn hm (congrArg Region.va (heRegion.symm.trans hfRegion)))
  have hKept : ∀ {k : Mapping} {l : Nat} {g : Alloc Flags}, k ∈ s.mapped → s.table.allocs[l]? = some g →
      g.alive = true → g.toRegion = k.toRegion → s.table.findAllocIdx va ≠ some l →
      (s.table.retireAlloc va).findAllocIdx k.va ≠ none := by
    intro k l g hk hg hgAlive hgRegion hOther hNone
    have hStill : (s.table.retireAlloc va).allocs[l]? = some g := by
      rw [Table.retireAlloc, Table.updateAt]
      split
      · exact hg
      · cases hFind : s.table.findAllocIdx va with
        | none => exact hg
        | some l' =>
            have hDiffers : l' ≠ l := fun hSame => hOther (hFind.trans (congrArg some hSame))
            simp [hDiffers, hg]
    apply findAllocIdx_none hNone hStill hgAlive
    rw [hgRegion]
    exact Region.covers_va (h.owned.pos k hk).2
  by_cases hFirst : s.table.findAllocIdx va = some i
  · refine ⟨n, .inr rfl, hKept hn hf hfAlive hfRegion ?_⟩
    rw [hFirst]
    exact fun hSame => hIdx (Option.some.inj hSame)
  · exact ⟨m, .inl rfl, hKept hm he heAlive heRegion hFirst⟩

/-- A call after which the table mirrors the memory fits. -/
theorem Inv.fits {shim : Shim Flags} {image : Option Nat} {s t : State Flags} (h : Inv image s)
    {call : Call} (hNext : Emul.next shim image s call = some t) (hMirrors : Mirrors image t) :
    Fits shim image s call := by
  cases call with
  | alloc vmm va size =>
      intro hVa hSize
      rcases next_alloc hNext with ⟨hZero, _⟩ | ⟨_, _, _, rfl⟩
      · exact absurd hZero hVa
      · have hRecorded := hMirrors.recorded _ (List.mem_append_right _ List.mem_cons_self)
        have hSlotted := hMirrors.slotted _ (List.mem_append_right _ List.mem_cons_self)
        rw [append_record] at hRecorded
        refine ⟨by_contra fun hFull => hRecorded (if_neg hFull), ?_⟩
        exact (append_slotted shim image (r := ⟨va, size⟩) hSize s.table).mp hSlotted
  | free va => trivial
  | unmap va size =>
      obtain ⟨hSize, hSum, rfl⟩ := next_unmap hNext
      cases hInside : s.mapped.filter fun m => m.Inside ⟨va, size⟩ with
      | nil =>
          rw [hInside] at hSum
          exact absurd hSum (Nat.ne_of_lt hSize)
      | cons m rest =>
          cases rest with
          | nil => rw [Fits, hInside, List.length_singleton]
          | cons n rest =>
              have hMem : ∀ k, k = m ∨ k = n → k ∈ s.mapped ∧ k.Inside ⟨va, size⟩ := by
                intro k hk
                have hIn : k ∈ s.mapped.filter fun m => m.Inside ⟨va, size⟩ := by
                  rw [hInside]
                  rcases hk with rfl | rfl <;> simp
                simpa using List.mem_filter.mp hIn
              have hNe : m ≠ n := by
                have hApart := h.owned.apart.filter fun m => m.Inside ⟨va, size⟩
                rw [hInside] at hApart
                have hmn := (List.pairwise_cons.mp hApart).1 n List.mem_cons_self
                rintro rfl
                have hCovers := Region.covers_va (h.owned.pos m (hMem m (.inl rfl)).1).2
                exact Region.not_apart_of_covers hCovers hCovers hmn
              -- one of the two is found at its address, where nothing is mapped
              obtain ⟨k, hk, hFound⟩ := h.stale va (hMem m (.inl rfl)).1 (hMem n (.inr rfl)).1 hNe
              obtain ⟨hkMem, hkIn⟩ := hMem k hk
              rw [hMirrors.find] at hFound
              obtain ⟨i, hi⟩ := Option.ne_none_iff_exists'.mp hFound
              obtain ⟨k', hk', _⟩ := Option.bind_eq_some_iff.mp hi
              have hCovers : k'.Covers k.va := by simpa using List.find?_some hk'
              obtain ⟨hk'Mem, hk'Out⟩ := List.mem_filter.mp (List.mem_of_find?_eq_some hk')
              have hSame := eq_of_covers h.owned.apart hk'Mem hkMem k.va hCovers
                (Region.covers_va (h.owned.pos k hkMem).2)
              rw [hSame] at hk'Out
              exact absurd hkIn (by simpa using hk'Out)

/-- The table of either library mirrors the memory in every state of a run if and only if
each call fits. -/
theorem mirrors_along_iff (shim : Shim Flags) (image : Option Nat) (calls : List Call) :
    Along (next shim image) (fun s call => ∀ t, next shim image s call = some t → Mirrors image t)
        State.init calls ↔
      Along (next shim image) (Fits shim image) State.init calls := by
  constructor
  · refine along_of_invariant ?_ ?_ calls State.init (inv_init image)
    · intro s call t hMirrors h hNext
      exact h.next (h.fits hNext (hMirrors t hNext)) hNext
    · intro s call t hMirrors h hNext
      exact h.fits hNext (hMirrors t hNext)
  · refine along_of_invariant ?_ ?_ calls State.init (inv_init image)
    · intro s call t hFits h hNext
      exact h.next hFits hNext
    · intro s call _ hFits h _ t hNext
      exact (h.next hFits hNext).mirrors

/-- Two mappings of 2 MB side by side, unmapped at once. -/
def unmapBoth : List Call :=
  [.alloc true 0x200000 0x200000, .alloc true 0x400000 0x200000, .unmap 0x200000 0x400000]

/-- The record of the second one is still found at its address. -/
theorem not_mirrors_unmapBoth :
    ¬ ∀ calls, Along (next gcr (some 0x1000000))
      (fun s call => ∀ t, next gcr (some 0x1000000) s call = some t → Mirrors (some 0x1000000) t)
      State.init calls := by
  intro h
  have hMirrors := ((((h unmapBoth) _ rfl).2 _ rfl).2 _ rfl).1 _ rfl
  exact absurd (hMirrors.find 0x400000) (by decide)

end FlashCkpt.Emul
