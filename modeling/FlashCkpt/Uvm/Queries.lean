import FlashCkpt.Library.Nesting
import FlashCkpt.Restore.FusedDelta

/-! The ioctls that walk over all VA spaces of the system to report ranges and dirty
blocks, with the locks they take on the way. -/
namespace FlashCkpt.Uvm

open Nesting Restore

inductive NvStatus where
  | ok
  | warnNothingToDo
  | insufficientPermissions
  | invalidArgument
  | invalidAddress
  | noMemory
  | bufferTooSmall
  | other
  deriving DecidableEq, Repr

/-- The list of VA spaces, one of them, and one of its blocks. -/
inductive DriverLock where
  | global
  | vaSpace (i : Nat)
  | block (start : Nat)
  deriving DecidableEq, Repr

/-- A block as the walks see it. Addresses are in pages. -/
structure DriverBlock where
  range : VaRange
  tracked : Bool
  dirty : Bool

structure DriverRange where
  managed : Bool
  range : VaRange
  blocks : List DriverBlock

abbrev DriverSpace := List DriverRange

/-- What an ioctl returns, and what it did with the locks. -/
structure Answer (β : Type) where
  status : NvStatus
  found : List β
  events : List (Event DriverLock)

def lockBlock (b : DriverBlock) : List (Event DriverLock) :=
  [.acquire (.block b.range.first), .release (.block b.range.first)]

section GetDirty

variable (max : Nat) (copyFails : Nat → Bool)

/-- The body of the loop over the blocks in `uvm_api_live_migration_get_dirty_pages`. -/
def dirtyBlock (b : DriverBlock) (found : List Nat) : Walk DriverLock (List Nat) NvStatus :=
  if !b.tracked then ⟨found, none, lockBlock b⟩
  else if !b.dirty then ⟨found, none, lockBlock b⟩
  else if max ≤ found.length then ⟨found, some .ok, lockBlock b⟩
  else if copyFails found.length then ⟨found, some .invalidAddress, lockBlock b⟩
  else ⟨found ++ [b.range.first], none, lockBlock b⟩

def dirtyRange (r : DriverRange) (found : List Nat) : Walk DriverLock (List Nat) NvStatus :=
  if !r.managed then ⟨found, none, []⟩ else scan (dirtyBlock max copyFails) r.blocks found

/-- The exits go to `done`, which does not release the lock of the VA space. -/
def dirtySpace (space : DriverSpace × Nat) (found : List Nat) :
    Walk DriverLock (List Nat) NvStatus :=
  let walk := scan (dirtyRange max copyFails) space.1 found
  match walk.exit with
  | some status => ⟨walk.acc, some status, .acquire (.vaSpace space.2) :: walk.events⟩
  | none =>
      ⟨walk.acc, none, .acquire (.vaSpace space.2) :: walk.events ++ [.release (.vaSpace space.2)]⟩

/-- `uvm_api_live_migration_get_dirty_pages`. -/
def getDirtyPages (spaces : List DriverSpace) : Answer Nat :=
  let walk := scan (dirtySpace max copyFails) spaces.zipIdx []
  ⟨walk.exit.getD .ok, walk.acc, .acquire .global :: walk.events ++ [.release .global]⟩

end GetDirty

section GetRanges

variable (max : Nat)

def reportRange (r : DriverRange) (found : List VaRange) :
    Walk DriverLock (List VaRange) NvStatus :=
  if !r.managed then ⟨found, none, []⟩
  else if max ≤ found.length then ⟨found, some .bufferTooSmall, []⟩
  else ⟨found ++ [r.range], none, []⟩

def reportSpace (space : DriverSpace × Nat) (found : List VaRange) :
    Walk DriverLock (List VaRange) NvStatus :=
  let walk := scan (reportRange max) space.1 found
  ⟨walk.acc, walk.exit,
    .acquire (.vaSpace space.2) :: walk.events ++ [.release (.vaSpace space.2)]⟩

/-- `uvm_api_live_migration_get_va_ranges`. -/
def getVaRanges (capable validArgs memory copies : Bool) (spaces : List DriverSpace) :
    Answer VaRange :=
  if !capable then ⟨.insufficientPermissions, [], []⟩
  else if !validArgs || max = 0 then ⟨.invalidArgument, [], []⟩
  else if !memory then ⟨.noMemory, [], []⟩
  else
    let walk := scan (reportSpace max) spaces.zipIdx []
    ⟨if copies then walk.exit.getD .ok else .invalidArgument, walk.acc,
      .acquire .global :: walk.events ++ [.release .global]⟩

end GetRanges

def managedRanges (spaces : List DriverSpace) : List DriverRange :=
  spaces.flatten.filter DriverRange.managed

/-- The addresses of the blocks that are tracked and dirty, in the order of the walk. -/
def dirtyStarts (spaces : List DriverSpace) : List Nat :=
  (((managedRanges spaces).flatMap DriverRange.blocks).filter fun b => b.tracked && b.dirty).map
    fun b => b.range.first

/-- A walk that hands over the items of a list one by one, as far as `accepts` lets it. -/
def deliver {β : Type} (accepts : Nat → Option NvStatus) :
    List β → List β → List β × Option NvStatus
  | [], found => (found, none)
  | item :: rest, found =>
      match accepts found.length with
      | some status => (found, some status)
      | none => deliver accepts rest (found ++ [item])

section Deliver

variable {β α : Type} {accepts : Nat → Option NvStatus}

theorem deliver_append (first second found : List β) :
    deliver accepts (first ++ second) found =
      match deliver accepts first found with
      | (after, none) => deliver accepts second after
      | (after, some status) => (after, some status) := by
  induction first generalizing found with
  | nil => rfl
  | cons item rest ih =>
      rw [List.cons_append, deliver, deliver]
      cases accepts found.length with
      | some status => rfl
      | none => exact ih _

/-- The turns of a loop that hand over their items, put together. -/
theorem scan_deliver {turn : α → List β → Walk DriverLock (List β) NvStatus} {items : α → List β}
    (xs : List α) (found : List β)
    (h : ∀ a ∈ xs, ∀ found, ((turn a found).acc, (turn a found).exit) =
      deliver accepts (items a) found) :
    ((scan turn xs found).acc, (scan turn xs found).exit) =
      deliver accepts (xs.flatMap items) found := by
  induction xs generalizing found with
  | nil => rfl
  | cons a rest ih =>
      have hTurn := h a List.mem_cons_self found
      have hRest := fun found => ih found fun b hb => h b (List.mem_cons_of_mem a hb)
      rw [List.flatMap_cons, deliver_append, ← hTurn]
      cases hExit : (turn a found).exit with
      | some status =>
          rw [scan_cons_exit hExit, hExit]
      | none =>
          rw [scan_cons_next hExit]
          exact hRest _

theorem deliver_from (items found : List β) :
    ((∀ k < items.length, accepts (found.length + k) = none) ∧
        deliver accepts items found = (found ++ items, none)) ∨
      ∃ k status, k < items.length ∧ (∀ j < k, accepts (found.length + j) = none) ∧
        accepts (found.length + k) = some status ∧
        deliver accepts items found = (found ++ items.take k, some status) := by
  induction items generalizing found with
  | nil => exact .inl ⟨fun k hk => absurd hk (Nat.not_lt_zero k), by rw [deliver, List.append_nil]⟩
  | cons item rest ih =>
      cases hFirst : accepts found.length with
      | some status =>
          refine .inr ⟨0, status, Nat.succ_pos _, fun j hj => absurd hj (Nat.not_lt_zero j), hFirst,
            ?_⟩
          simp only [deliver, hFirst, List.take_zero, List.append_nil]
      | none =>
          have hNext : ∀ k, (found ++ [item]).length + k = found.length + (k + 1) := by
            intro k
            rw [List.length_append, List.length_singleton, Nat.add_assoc, Nat.add_comm 1]
          have hStep : deliver accepts (item :: rest) found =
              deliver accepts rest (found ++ [item]) := by
            simp only [deliver, hFirst]
          rw [hStep]
          rcases ih (found ++ [item]) with ⟨hAll, hEq⟩ | ⟨k, status, hk, hBefore, hStop, hEq⟩
          · refine .inl ⟨fun k hk => ?_, by rw [hEq, List.append_assoc, List.singleton_append]⟩
            cases k with
            | zero => exact hFirst
            | succ k => exact hNext k ▸ hAll k (Nat.lt_of_succ_lt_succ hk)
          · refine .inr ⟨k + 1, status, Nat.succ_lt_succ hk, fun j hj => ?_, hNext k ▸ hStop, ?_⟩
            · cases j with
              | zero => exact hFirst
              | succ j => exact hNext j ▸ hBefore j (Nat.lt_of_succ_lt_succ hj)
            · rw [hEq, List.append_assoc, List.singleton_append, List.take_succ_cons]

/-- All items are handed over, or those before the first one that is refused. -/
theorem deliver_cases (accepts : Nat → Option NvStatus) (items : List β) :
    ((∀ k < items.length, accepts k = none) ∧ deliver accepts items [] = (items, none)) ∨
      ∃ k status, k < items.length ∧ (∀ j < k, accepts j = none) ∧ accepts k = some status ∧
        deliver accepts items [] = (items.take k, some status) := by
  have h := @deliver_from β accepts items []
  simpa only [List.length_nil, Nat.zero_add, List.nil_append] using h

theorem flatMap_zipIdx (items : DriverRange → List β) (spaces : List DriverSpace) (i : Nat) :
    (spaces.zipIdx i).flatMap (fun space => space.1.flatMap items) =
      spaces.flatten.flatMap items := by
  induction spaces generalizing i with
  | nil => rfl
  | cons space rest ih =>
      rw [List.zipIdx_cons, List.flatMap_cons, ih, List.flatten_cons, List.flatMap_append]

end Deliver

/-- The room of the buffer, and whether the copy of an address into it fails. -/
def dirtyAccepts (max : Nat) (copyFails : Nat → Bool) (k : Nat) : Option NvStatus :=
  if max ≤ k then some .ok else if copyFails k then some .invalidAddress else none

section Dirty

variable (max : Nat) (copyFails : Nat → Bool)

theorem dirtyBlock_deliver (b : DriverBlock) (found : List Nat) :
    ((dirtyBlock max copyFails b found).acc, (dirtyBlock max copyFails b found).exit) =
      deliver (dirtyAccepts max copyFails) (if b.tracked && b.dirty then [b.range.first] else [])
        found := by
  rw [dirtyBlock]
  cases b.tracked with
  | false => rfl
  | true =>
      cases b.dirty with
      | false => rfl
      | true =>
          simp only [Bool.not_true, Bool.false_eq_true, if_false, Bool.and_self, if_true, deliver,
            dirtyAccepts]
          by_cases hFull : max ≤ found.length
          · simp only [hFull, if_true]
          · by_cases hCopy : copyFails found.length = true
            · simp only [hFull, hCopy, if_false, if_true]
            · simp only [hFull, hCopy, Bool.false_eq_true, if_false]

/-- The dirty blocks of a range. -/
def DriverRange.dirtyStarts (r : DriverRange) : List Nat :=
  if r.managed then (r.blocks.filter fun b => b.tracked && b.dirty).map fun b => b.range.first
  else []

theorem flatMap_dirty (blocks : List DriverBlock) :
    blocks.flatMap (fun b => if b.tracked && b.dirty then [b.range.first] else []) =
      (blocks.filter fun b => b.tracked && b.dirty).map fun b => b.range.first := by
  induction blocks with
  | nil => rfl
  | cons b rest ih =>
      rw [List.flatMap_cons, ih, List.filter_cons]
      split
      · rfl
      · rfl

theorem dirtyRange_deliver (r : DriverRange) (found : List Nat) :
    ((dirtyRange max copyFails r found).acc, (dirtyRange max copyFails r found).exit) =
      deliver (dirtyAccepts max copyFails) r.dirtyStarts found := by
  rw [dirtyRange, DriverRange.dirtyStarts]
  cases r.managed with
  | false => rfl
  | true =>
      have h := scan_deliver r.blocks found fun b _ => dirtyBlock_deliver max copyFails b
      rwa [flatMap_dirty] at h

theorem dirtySpace_deliver (space : DriverSpace × Nat) (found : List Nat) :
    ((dirtySpace max copyFails space found).acc, (dirtySpace max copyFails space found).exit) =
      deliver (dirtyAccepts max copyFails) (space.1.flatMap DriverRange.dirtyStarts) found := by
  rw [← scan_deliver space.1 found fun r _ => dirtyRange_deliver max copyFails r]
  simp only [dirtySpace]
  cases hExit : (scan (dirtyRange max copyFails) space.1 found).exit with
  | none => rfl
  | some status => rfl

theorem flatMap_dirtyStarts (ranges : List DriverRange) :
    ranges.flatMap DriverRange.dirtyStarts =
      (((ranges.filter DriverRange.managed).flatMap DriverRange.blocks).filter
        fun b => b.tracked && b.dirty).map fun b => b.range.first := by
  induction ranges with
  | nil => rfl
  | cons r rest ih =>
      rw [List.flatMap_cons, ih, DriverRange.dirtyStarts, List.filter_cons]
      split
      · rw [List.flatMap_cons, List.filter_append, List.map_append]
      · rfl

/-- GET_DIRTY_PAGES hands over the dirty blocks until the buffer is full or a copy fails. -/
theorem getDirtyPages_deliver (spaces : List DriverSpace) :
    ((scan (dirtySpace max copyFails) spaces.zipIdx []).acc,
        (scan (dirtySpace max copyFails) spaces.zipIdx []).exit) =
      deliver (dirtyAccepts max copyFails) (dirtyStarts spaces) [] := by
  have h := scan_deliver spaces.zipIdx [] fun space _ => dirtySpace_deliver max copyFails space
  rwa [flatMap_zipIdx, flatMap_dirtyStarts] at h

end Dirty

section Ranges

variable (max : Nat)

def rangesAccept (k : Nat) : Option NvStatus := if max ≤ k then some .bufferTooSmall else none

def DriverRange.reported (r : DriverRange) : List VaRange := if r.managed then [r.range] else []

theorem reportRange_deliver (r : DriverRange) (found : List VaRange) :
    ((reportRange max r found).acc, (reportRange max r found).exit) =
      deliver (rangesAccept max) r.reported found := by
  rw [reportRange, DriverRange.reported]
  cases r.managed with
  | false => rfl
  | true =>
      simp only [Bool.not_true, Bool.false_eq_true, if_false, if_true, deliver, rangesAccept]
      by_cases hFull : max ≤ found.length
      · simp only [hFull, if_true]
      · simp only [hFull, if_false]

theorem reportSpace_deliver (space : DriverSpace × Nat) (found : List VaRange) :
    ((reportSpace max space found).acc, (reportSpace max space found).exit) =
      deliver (rangesAccept max) (space.1.flatMap DriverRange.reported) found :=
  scan_deliver space.1 found fun r _ => reportRange_deliver max r

theorem flatMap_reported (ranges : List DriverRange) :
    ranges.flatMap DriverRange.reported =
      (ranges.filter DriverRange.managed).map DriverRange.range := by
  induction ranges with
  | nil => rfl
  | cons r rest ih =>
      rw [List.flatMap_cons, ih, DriverRange.reported, List.filter_cons]
      split
      · rfl
      · rfl

/-- GET_VA_RANGES returns NV_OK exactly when there is room for all managed ranges, and
then with all of them. -/
theorem getVaRanges_ok (capable validArgs memory copies : Bool) (spaces : List DriverSpace) :
    ((getVaRanges max capable validArgs memory copies spaces).status = .ok ↔
        capable = true ∧ validArgs = true ∧ memory = true ∧ copies = true ∧ 0 < max ∧
          (managedRanges spaces).length ≤ max) ∧
      ((getVaRanges max capable validArgs memory copies spaces).status = .ok →
        (getVaRanges max capable validArgs memory copies spaces).found =
          (managedRanges spaces).map DriverRange.range) := by
  have hWalk := scan_deliver spaces.zipIdx [] fun space _ => reportSpace_deliver max space
  rw [flatMap_zipIdx, flatMap_reported, Prod.ext_iff] at hWalk
  cases capable with
  | false => exact ⟨⟨(nomatch ·), fun h => absurd h.1 Bool.false_ne_true⟩, (nomatch ·)⟩
  | true =>
  cases validArgs with
  | false => exact ⟨⟨(nomatch ·), fun h => absurd h.2.1 Bool.false_ne_true⟩, (nomatch ·)⟩
  | true =>
  by_cases hMax : max = 0
  · have hAnswer : getVaRanges max true true memory copies spaces = ⟨.invalidArgument, [], []⟩ := by
      simp [getVaRanges, hMax]
    rw [hAnswer]
    exact ⟨⟨(nomatch ·), fun h => by omega⟩, (nomatch ·)⟩
  cases memory with
  | false =>
      have hAnswer : getVaRanges max true true false copies spaces = ⟨.noMemory, [], []⟩ := by
        simp [getVaRanges, hMax]
      rw [hAnswer]
      exact ⟨⟨(nomatch ·), fun h => absurd h.2.2.1 Bool.false_ne_true⟩, (nomatch ·)⟩
  | true =>
  have hAnswer : getVaRanges max true true true copies spaces =
      ⟨if copies then (scan (reportSpace max) spaces.zipIdx []).exit.getD .ok else .invalidArgument,
        (scan (reportSpace max) spaces.zipIdx []).acc,
        .acquire .global :: (scan (reportSpace max) spaces.zipIdx []).events ++
          [.release .global]⟩ := by
    simp [getVaRanges, hMax]
  rw [hAnswer]
  cases copies with
  | false => exact ⟨⟨(nomatch ·), fun h => absurd h.2.2.2.1 Bool.false_ne_true⟩, (nomatch ·)⟩
  | true =>
  dsimp only at hWalk ⊢
  rw [if_pos rfl, hWalk.1, hWalk.2]
  rcases deliver_cases (rangesAccept max)
    ((spaces.flatten.filter DriverRange.managed).map DriverRange.range) with
    ⟨hAll, hEq⟩ | ⟨k, status, hk, -, hStop, hEq⟩
  · rw [hEq]
    refine ⟨iff_of_true rfl ⟨rfl, rfl, rfl, rfl, by omega, ?_⟩, fun _ => rfl⟩
    by_contra hLong
    rw [managedRanges] at hLong
    have hFull := hAll max (by rw [List.length_map]; omega)
    rw [rangesAccept, if_pos (Nat.le_refl _)] at hFull
    cases hFull
  · rw [hEq]
    rw [rangesAccept] at hStop
    split at hStop
    · cases hStop
      refine ⟨iff_of_false (nomatch ·) ?_, (nomatch ·)⟩
      rw [List.length_map] at hk
      rw [managedRanges]
      omega
    · cases hStop

end Ranges

/-- NV_OK is returned only with the start of every tracked dirty block, each once. -/
def Answer.Complete (answer : Answer Nat) (spaces : List DriverSpace) : Prop :=
  answer.status = .ok → answer.found = dirtyStarts spaces

/-- The buffers of `ckpt_core`, sized by the bytes it captured. -/
def dirtyCapacity (bytes : Nat) : Nat := if 0 < bytes then bytes / (64 * 1024) + 1 else 65536

/-- The list of dirty blocks is complete or an error is returned exactly when the buffer
has room for all of them, or an address in front of its end cannot be copied. -/
theorem complete_iff (max : Nat) (copyFails : Nat → Bool) (spaces : List DriverSpace) :
    (getDirtyPages max copyFails spaces).Complete spaces ↔
      (dirtyStarts spaces).length ≤ max ∨ ∃ k < max, copyFails k = true := by
  have hWalk := getDirtyPages_deliver max copyFails spaces
  have hAnswer : (getDirtyPages max copyFails spaces).Complete spaces ↔
      ((deliver (dirtyAccepts max copyFails) (dirtyStarts spaces) []).2.getD .ok = .ok →
        (deliver (dirtyAccepts max copyFails) (dirtyStarts spaces) []).1 = dirtyStarts spaces) := by
    rw [← hWalk]
    exact Iff.rfl
  rw [hAnswer]
  rcases deliver_cases (dirtyAccepts max copyFails) (dirtyStarts spaces) with
    ⟨hAll, hEq⟩ | ⟨k, status, hk, hBefore, hStop, hEq⟩
  · rw [hEq]
    refine iff_of_true (fun _ => rfl) (.inl ?_)
    by_contra hLong
    have hFull := hAll max (by omega)
    rw [dirtyAccepts, if_pos (Nat.le_refl _)] at hFull
    cases hFull
  · rw [hEq]
    have hShort : (dirtyStarts spaces).take k ≠ dirtyStarts spaces := by
      intro hSame
      have := congrArg List.length hSame
      rw [List.length_take] at this
      omega
    rw [dirtyAccepts] at hStop
    split at hStop
    · rename_i hFull
      cases hStop
      refine iff_of_false (fun h => hShort (h rfl)) ?_
      have hRoom : ∀ j < k, j < max ∧ copyFails j ≠ true := by
        intro j hj
        have hAccepted := hBefore j hj
        rw [dirtyAccepts] at hAccepted
        split at hAccepted
        · cases hAccepted
        · split at hAccepted
          · cases hAccepted
          · exact ⟨by omega, by assumption⟩
      rintro (hLength | ⟨j, hj, hFail⟩)
      · omega
      · exact (hRoom j (by omega)).2 hFail
    · split at hStop
      · rename_i hRoom hCopy
        cases hStop
        exact iff_of_true (fun h => nomatch h) (.inr ⟨k, by omega, hCopy⟩)
      · cases hStop

/-- Three dirty blocks of other processes. -/
def threeDirty : List DriverSpace :=
  [[⟨true, ⟨0, 1536, by decide⟩, [⟨⟨0, 512, by decide⟩, true, true⟩,
    ⟨⟨512, 512, by decide⟩, true, true⟩, ⟨⟨1024, 512, by decide⟩, true, true⟩]⟩]]

/-- After a capture of 64 KB there is room for two of them, and the answer is NV_OK. -/
theorem not_complete_threeDirty :
    ¬(getDirtyPages (dirtyCapacity 65536) (fun _ => false) threeDirty).Complete threeDirty := by
  intro h
  exact absurd (h rfl) (by decide)

end FlashCkpt.Uvm
