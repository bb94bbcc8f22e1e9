import FlashCkpt.Uvm.Queries

/-! The locks of the live-migration ioctls. Besides the two queries these are the resident
reads, whose first pass keeps the VA space it found locked while it looks at its pages. -/
namespace FlashCkpt.Uvm

open Nesting Restore

/-- Where a page is, the CPU first. The GPU is the one that is asked for, if the VA space
has it. -/
inductive PageHome where
  | cpu
  | gpu
  | nowhere
  deriving DecidableEq, Repr

/-- What the first pass reads, in pages, and what fails in it: a copy into the buffer of
the user, if there is one, and the allocation of a larger array of GPU pages. -/
structure PassOneArgs where
  base : Nat
  pages : Nat
  dirtyOnly : Bool
  cpuBuf : Bool
  cap : Nat
  home : Nat → PageHome
  copyFails : Nat → Bool
  growFails : Nat → Bool

/-- What it collects: the CPU pages copied, the GPU pages to copy with the room for them,
and the residency map. -/
structure PassOnePages where
  cpu : List Nat
  gpu : List Nat
  cap : Nat
  resmap : Nat → Nat

def PassOnePages.classify (found : PassOnePages) (i kind : Nat) : PassOnePages :=
  { found with resmap := fun j => if j = i then kind else found.resmap j }

structure PassOne where
  status : NvStatus
  found : PassOnePages
  events : List (Event DriverLock)

section PassOne

variable (args : PassOneArgs)

/-- The body of the loop over the pages of a block. -/
def readPage (b : DriverBlock) (page : Nat) (found : PassOnePages) :
    Walk DriverLock PassOnePages NvStatus :=
  match args.home page with
  | .cpu =>
      let seen := found.classify (page - args.base) 0
      if args.cpuBuf && args.copyFails found.cpu.length then
        ⟨seen, some .invalidArgument, lockBlock b⟩
      else ⟨{ seen with cpu := found.cpu ++ [page] }, none, lockBlock b⟩
  | .gpu =>
      let seen := found.classify (page - args.base) 1
      if found.cap ≤ found.gpu.length then
        if args.growFails found.gpu.length then ⟨seen, some .noMemory, lockBlock b⟩
        else ⟨{ seen with gpu := found.gpu ++ [page], cap := found.cap * 2 }, none, lockBlock b⟩
      else ⟨{ seen with gpu := found.gpu ++ [page] }, none, lockBlock b⟩
  | .nowhere => ⟨found, none, lockBlock b⟩

def readBlock (b : DriverBlock) (found : PassOnePages) : Walk DriverLock PassOnePages NvStatus :=
  let first := max b.range.first args.base
  let last := min (b.range.first + b.range.count) (args.base + args.pages)
  if last ≤ first then ⟨found, none, []⟩
  else if args.dirtyOnly && !(b.tracked && b.dirty) then ⟨found, none, lockBlock b⟩
  else
    let walk := scan (readPage args b) (List.range' first (last - first)) found
    ⟨walk.acc, walk.exit, (if args.dirtyOnly then lockBlock b else []) ++ walk.events⟩

/-- The ranges outside the pages that are asked for are not visited. -/
def readRange (r : DriverRange) (found : PassOnePages) : Walk DriverLock PassOnePages NvStatus :=
  if args.base + args.pages ≤ r.range.first ∨ r.range.first + r.range.count ≤ args.base then
    ⟨found, none, []⟩
  else if !r.managed then ⟨found, none, []⟩
  else scan (readBlock args) r.blocks found

/-- The search for the VA space of the base, which stays locked when it is found. -/
def findSpace (space : DriverSpace × Nat) (_ : Unit) :
    Walk DriverLock Unit (DriverSpace × Nat) :=
  if (space.1.find? fun r => decide (r.range.Has args.base)).any DriverRange.managed then
    ⟨(), some space, [.acquire (.vaSpace space.2)]⟩
  else ⟨(), none, [.acquire (.vaSpace space.2), .release (.vaSpace space.2)]⟩

/-- `lm_mt_pass1`, and the first pass of the second version of the resident read. -/
def passOne (spaces : List DriverSpace) : PassOne :=
  let start : PassOnePages := ⟨[], [], args.cap, fun _ => 2⟩
  let search := scan (findSpace args) spaces.zipIdx ()
  match search.exit with
  | none => ⟨.invalidAddress, start, .acquire .global :: search.events ++ [.release .global]⟩
  | some space =>
      let walk := scan (readRange args) space.1 start
      ⟨walk.exit.getD .ok, walk.acc,
        .acquire .global :: (search.events ++ walk.events ++ [.release (.vaSpace space.2)]) ++
          [.release .global]⟩

/-- `uvm_api_live_migration_read_pages_resident_encrypted_v2` up to its second pass, which
takes none of the locks. -/
def readPagesResidentEncryptedV2 (capable validArgs memory : Bool) (spaces : List DriverSpace) :
    PassOne :=
  let start : PassOnePages := ⟨[], [], min args.pages 512, fun _ => 2⟩
  if !capable then ⟨.insufficientPermissions, start, []⟩
  else if !validArgs then ⟨.invalidArgument, start, []⟩
  else if !memory then ⟨.noMemory, start, []⟩
  else passOne { args with dirtyOnly := false, cap := min args.pages 512 } spaces

end PassOne

inductive LockingCall where
  | getDirtyPages (max : Nat) (copyFails : Nat → Bool)
  | getVaRanges (max : Nat) (capable validArgs memory copies : Bool)
  | mtPass1 (args : PassOneArgs)
  | readPagesResidentEncryptedV2 (args : PassOneArgs) (capable validArgs memory : Bool)

/-- What a call does with the locks until it returns. -/
def LockingCall.events (spaces : List DriverSpace) : LockingCall → List (Event DriverLock)
  | .getDirtyPages max copyFails => (Uvm.getDirtyPages max copyFails spaces).events
  | .getVaRanges max capable validArgs memory copies =>
      (Uvm.getVaRanges max capable validArgs memory copies spaces).events
  | .mtPass1 args => (passOne args spaces).events
  | .readPagesResidentEncryptedV2 args capable validArgs memory =>
      (Uvm.readPagesResidentEncryptedV2 args capable validArgs memory spaces).events

/-- GET_DIRTY_PAGES hands over every dirty block: there is room for it and it is copied. -/
def LockingCall.Runs (spaces : List DriverSpace) : LockingCall → Prop
  | .getDirtyPages max copyFails =>
      ∀ k < (dirtyStarts spaces).length, k < max ∧ copyFails k = false
  | _ => True

section Balance

theorem balanced_lockBlock (b : DriverBlock) (i : Nat) :
    Balanced [.vaSpace i, .global] (lockBlock b) :=
  balanced_pair (by simp)

theorem dirtyBlock_balanced (max : Nat) (copyFails : Nat → Bool) (b : DriverBlock)
    (found : List Nat) (i : Nat) :
    Balanced [.vaSpace i, .global] (dirtyBlock max copyFails b found).events := by
  unfold dirtyBlock
  split_ifs <;> exact balanced_lockBlock b i

theorem dirtyRange_balanced (max : Nat) (copyFails : Nat → Bool) (r : DriverRange)
    (found : List Nat) (i : Nat) :
    Balanced [.vaSpace i, .global] (dirtyRange max copyFails r found).events := by
  unfold dirtyRange
  split
  · exact balanced_nil _
  · exact scan_balanced _ _ fun b _ found => dirtyBlock_balanced max copyFails b found i

/-- A VA space that is left in the middle stays locked. -/
theorem dirtySpace_leaves (max : Nat) (copyFails : Nat → Bool) (space : DriverSpace × Nat)
    (found : List Nat) :
    (dirtySpace max copyFails space found).Leaves [.global]
      fun _ after => ∃ i, after = some [.vaSpace i, .global] := by
  have hWalk : Balanced [.vaSpace space.2, .global]
      (scan (dirtyRange max copyFails) space.1 found).events :=
    scan_balanced _ _ fun r _ found => dirtyRange_balanced max copyFails r found space.2
  have hNew : DriverLock.vaSpace space.2 ∉ [DriverLock.global] := by simp
  rw [Walk.Leaves, dirtySpace]
  cases (scan (dirtyRange max copyFails) space.1 found).exit with
  | none => exact Balanced.bracket hNew hWalk
  | some status =>
      dsimp only
      rw [hold, if_neg hNew]
      exact ⟨space.2, hWalk⟩

/-- GET_DIRTY_PAGES is well nested when it goes through all VA spaces, and only then. -/
theorem getDirtyPages_wellNested_iff (max : Nat) (copyFails : Nat → Bool)
    (spaces : List DriverSpace) :
    WellNested (getDirtyPages max copyFails spaces).events ↔
      (scan (dirtySpace max copyFails) spaces.zipIdx []).exit = none := by
  have hWalk := scan_leaves spaces.zipIdx [] fun space _ found =>
    dirtySpace_leaves max copyFails space found
  rw [Walk.Leaves] at hWalk
  cases hExit : (scan (dirtySpace max copyFails) spaces.zipIdx []).exit with
  | none =>
      rw [hExit] at hWalk
      exact iff_of_true (Balanced.bracket List.not_mem_nil hWalk) rfl
  | some status =>
      rw [hExit] at hWalk
      obtain ⟨i, hHeld⟩ := hWalk
      refine iff_of_false (fun hNested => ?_) (Option.some_ne_none status)
      rw [WellNested, getDirtyPages, List.cons_append, hold, if_neg List.not_mem_nil, hold_append,
        hHeld] at hNested
      cases hNested

theorem reportRange_events (max : Nat) (r : DriverRange) (found : List VaRange) :
    (reportRange max r found).events = [] := by
  unfold reportRange
  split_ifs <;> rfl

theorem getVaRanges_wellNested (max : Nat) (capable validArgs memory copies : Bool)
    (spaces : List DriverSpace) :
    WellNested (getVaRanges max capable validArgs memory copies spaces).events := by
  have hRange (space : DriverSpace × Nat) (found : List VaRange) :
      Balanced [.vaSpace space.2, .global] (scan (reportRange max) space.1 found).events := by
    refine scan_balanced _ _ fun r _ found => ?_
    rw [reportRange_events]
    exact balanced_nil _
  have hSpaces : Balanced [.global] (scan (reportSpace max) spaces.zipIdx []).events :=
    scan_balanced _ _ fun space _ found => Balanced.bracket (by simp) (hRange space found)
  unfold getVaRanges
  split_ifs
  · exact balanced_nil _
  · exact balanced_nil _
  · exact balanced_nil _
  · exact Balanced.bracket List.not_mem_nil hSpaces
  · exact Balanced.bracket List.not_mem_nil hSpaces

variable (args : PassOneArgs)

/-- The lock of the block is released before a copy or an allocation can fail. -/
theorem readPage_events (b : DriverBlock) (page : Nat) (found : PassOnePages) :
    (readPage args b page found).events = lockBlock b := by
  cases hHome : args.home page with
  | cpu =>
      simp only [readPage, hHome]
      split_ifs <;> rfl
  | gpu =>
      simp only [readPage, hHome]
      split_ifs <;> rfl
  | nowhere => simp only [readPage, hHome]

theorem readBlock_balanced (b : DriverBlock) (found : PassOnePages) (i : Nat) :
    Balanced [.vaSpace i, .global] (readBlock args b found).events := by
  have hWalk (pages : List Nat) :
      Balanced [.vaSpace i, .global] (scan (readPage args b) pages found).events := by
    refine scan_balanced _ _ fun page _ found => ?_
    rw [readPage_events]
    exact balanced_lockBlock b i
  simp only [readBlock]
  split_ifs
  · exact balanced_nil _
  · exact balanced_lockBlock b i
  · exact (balanced_lockBlock b i).append (hWalk _)
  · exact hWalk _

theorem readRange_balanced (r : DriverRange) (found : PassOnePages) (i : Nat) :
    Balanced [.vaSpace i, .global] (readRange args r found).events := by
  unfold readRange
  split_ifs
  · exact balanced_nil _
  · exact balanced_nil _
  · exact scan_balanced _ _ fun b _ found => readBlock_balanced args b found i

/-- The search ends with the VA space it found locked. -/
theorem findSpace_leaves (space : DriverSpace × Nat) (u : Unit) :
    (findSpace args space u).Leaves [.global]
      fun hit after => after = some [.vaSpace hit.2, .global] := by
  rw [Walk.Leaves, findSpace]
  split_ifs
  · rfl
  · exact balanced_pair (by simp)

/-- The first pass releases what it takes, whatever fails in it. -/
theorem passOne_wellNested (spaces : List DriverSpace) :
    WellNested (passOne args spaces).events := by
  have hSearch := scan_leaves spaces.zipIdx () fun space _ u => findSpace_leaves args space u
  rw [Walk.Leaves] at hSearch
  rw [passOne]
  cases hExit : (scan (findSpace args) spaces.zipIdx ()).exit with
  | none =>
      rw [hExit] at hSearch
      exact Balanced.bracket List.not_mem_nil hSearch
  | some space =>
      rw [hExit] at hSearch
      refine Balanced.bracket List.not_mem_nil ?_
      have hWalk := scan_balanced space.1 (⟨[], [], args.cap, fun _ => 2⟩ : PassOnePages)
        fun r _ found => readRange_balanced args r found space.2
      rw [Nesting.Balanced, hold_append, hold_append, hSearch, Option.bind_some, hWalk, Option.bind_some]
      exact if_pos rfl

end Balance

/-- Every lock is released once and in order exactly when GET_DIRTY_PAGES is not left
early. -/
theorem wellNested_iff (call : LockingCall) (spaces : List DriverSpace) :
    WellNested (call.events spaces) ↔ call.Runs spaces := by
  cases call with
  | getDirtyPages max copyFails =>
      rw [LockingCall.events, getDirtyPages_wellNested_iff, LockingCall.Runs]
      have hWalk := congrArg Prod.snd (getDirtyPages_deliver max copyFails spaces)
      dsimp only at hWalk
      rw [hWalk]
      have hAccepts (k : Nat) : dirtyAccepts max copyFails k = none ↔
          k < max ∧ copyFails k = false := by
        rw [dirtyAccepts]
        split_ifs <;> simp_all
      simp only [← hAccepts]
      rcases deliver_cases (dirtyAccepts max copyFails) (dirtyStarts spaces) with
        ⟨hAll, hEq⟩ | ⟨k, status, hk, -, hStop, hEq⟩
      · rw [hEq]
        exact iff_of_true rfl hAll
      · rw [hEq]
        refine iff_of_false (Option.some_ne_none status) fun h => ?_
        rw [h k hk] at hStop
        cases hStop
  | getVaRanges max capable validArgs memory copies =>
      exact iff_of_true (getVaRanges_wellNested max capable validArgs memory copies spaces) trivial
  | mtPass1 args => exact iff_of_true (passOne_wellNested args spaces) trivial
  | readPagesResidentEncryptedV2 args capable validArgs memory =>
      refine iff_of_true ?_ trivial
      rw [LockingCall.events, readPagesResidentEncryptedV2]
      split_ifs
      · exact balanced_nil _
      · exact balanced_nil _
      · exact balanced_nil _
      · exact passOne_wellNested _ spaces

/-- One dirty block too many for the buffer. -/
theorem not_wellNested_fullBuffer :
    ¬WellNested ((LockingCall.getDirtyPages 2 fun _ => false).events threeDirty) := by
  decide

end FlashCkpt.Uvm
