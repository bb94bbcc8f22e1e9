import FlashCkpt.Restore.InApp
import FlashCkpt.Library.Transition
import Mathlib.Logic.Function.Basic

/-! The allocation table of the gate under the threads of the application. `gate_record_alloc`
runs behind a real allocation and `gate_mark_freed` before the real free, without a lock; each
access to a shared word is a step of its own. -/
namespace FlashCkpt.Gate

open Transition
open Restore (gateAllocMax)

/-- `CKPT_ALLOC_FLAG_FREED`. -/
def flagFreed : Nat := 2

/-- `ckpt_alloc_entry_t`. -/
structure EntryWords where
  va : Nat
  size : Nat
  flags : Nat
  pad : Nat
  deriving DecidableEq, Repr

def EntryWords.Unflagged (e : EntryWords) : Prop := e.flags &&& flagFreed = 0

instance (e : EntryWords) : Decidable e.Unflagged := inferInstanceAs (Decidable (_ = _))

/-- The words of the gate that the two functions use. -/
structure GateWords where
  userVa : Nat
  userSize : Nat
  count : Nat
  table : Nat → EntryWords

/-- The arguments of `gate_record_alloc`. -/
structure Buffer where
  va : Nat
  size : Nat
  deriving DecidableEq, Repr

/-- The next access of `gate_record_alloc`. -/
inductive RecordAt where
  | largest
  | userVa
  | userSize
  | count
  | va (i : Nat)
  | size (i : Nat)
  | flags (i : Nat)
  | pad (i : Nat)
  | publish (i : Nat)
  deriving DecidableEq, Repr

/-- The next access of `gate_mark_freed`, or the real free behind it. -/
inductive FreeAt where
  | count
  | va (i : Nat)
  | flags (i : Nat)
  | load (i : Nat)
  | store (i word : Nat)
  | release
  deriving DecidableEq, Repr

/-- A call of one of the allocation hooks, or of one of the free hooks. -/
inductive HookAt where
  | out
  | record (a : Buffer) (at' : RecordAt)
  | free (va : Nat) (at' : FreeAt)
  deriving DecidableEq, Repr

/-- Who has an address: nobody, the call that has allocated it, the application with the number
of the allocation among those returned to it, or the call that frees it. -/
inductive Owner where
  | nobody
  | recording (thread : Nat)
  | held (id : Nat)
  | freeing (thread id : Nat)
  deriving DecidableEq, Repr

/-- The gate, the threads, the addresses of the device and the allocations returned so far. -/
structure Recorder where
  gate : GateWords
  place : Nat → HookAt
  owner : Nat → Owner
  returned : List Buffer

/-- A gate without entries, whatever its other words are. -/
def Recorder.init (userVa : Nat) (table : Nat → EntryWords) : Recorder :=
  ⟨⟨userVa, 0, 0, table⟩, fun _ => .out, fun _ => .nobody, []⟩

def GateWords.put (g : GateWords) (i : Nat) (e : EntryWords) : GateWords :=
  { g with table := Function.update g.table i e }

@[simp] theorem GateWords.put_self (g : GateWords) (i : Nat) (e : EntryWords) :
    (g.put i e).table i = e := Function.update_self ..

theorem GateWords.put_of_ne (g : GateWords) {i k : Nat} (e : EntryWords) (h : k ≠ i) :
    (g.put i e).table k = g.table k := Function.update_of_ne h ..

@[simp] theorem GateWords.put_count (g : GateWords) (i : Nat) (e : EntryWords) :
    (g.put i e).count = g.count := rfl

/-- One access of `gate_record_alloc`; `none` is its return. -/
def GateWords.recordAlloc (g : GateWords) (a : Buffer) : RecordAt → GateWords × Option RecordAt
  | .largest => (g, some (if g.userSize < a.size then .userVa else .count))
  | .userVa => ({ g with userVa := a.va }, some .userSize)
  | .userSize => ({ g with userSize := a.size }, some .count)
  | .count => (g, if g.count < gateAllocMax then some (.va g.count) else none)
  | .va i => (g.put i { g.table i with va := a.va }, some (.size i))
  | .size i => (g.put i { g.table i with size := a.size }, some (.flags i))
  | .flags i => (g.put i { g.table i with flags := 0 }, some (.pad i))
  | .pad i => (g.put i { g.table i with pad := 0 }, some (.publish i))
  | .publish i => ({ g with count := i + 1 }, none)

/-- The loop of `gate_mark_freed` with `n` entries left, from the last one on. -/
def FreeAt.below : (n : Nat) → FreeAt
  | 0 => .release
  | n + 1 => .va n

/-- One access of `gate_mark_freed`. -/
def GateWords.markFreed (g : GateWords) (va : Nat) : FreeAt → GateWords × FreeAt
  | .count => (g, .below g.count)
  | .va i => (g, if (g.table i).va = va then .flags i else .below i)
  | .flags i => (g, if (g.table i).Unflagged then .load i else .below i)
  | .load i => (g, .store i ((g.table i).flags ||| flagFreed))
  | .store i word => (g.put i { g.table i with flags := word }, .release)
  | .release => (g, .release)

/-- A real allocation that succeeds, a free of an allocation by its number, the next access of a
thread, and the real free with its outcome. -/
inductive HookLabel where
  | malloc (thread va size : Nat)
  | free (thread va : Nat)
  | step (thread : Nat)
  | release (thread : Nat) (ok : Bool)
  deriving DecidableEq, Repr

namespace Recorder

variable (s : Recorder)

def go (thread : Nat) (p : HookAt) : Recorder := { s with place := Function.update s.place thread p }

def give (va : Nat) (o : Owner) : Recorder := { s with owner := Function.update s.owner va o }

/-- The application gets its allocation. -/
def finish (thread : Nat) (a : Buffer) : Recorder :=
  { (s.go thread .out).give a.va (.held s.returned.length) with returned := s.returned ++ [a] }

end Recorder

/-- An address that is allocated is not null and not that of an allocation which exists, and the
application frees what it holds. -/
def nextHook (s : Recorder) : HookLabel → Option Recorder
  | .malloc thread va size =>
      if s.place thread = .out ∧ va ≠ 0 ∧ s.owner va = .nobody then
        some ((s.go thread (.record ⟨va, size⟩ .largest)).give va (.recording thread))
      else none
  | .free thread va =>
      match s.owner va with
      | .held id =>
          if s.place thread = .out then some ((s.go thread (.free va .count)).give va (.freeing thread id))
          else none
      | _ => none
  | .step thread =>
      match s.place thread with
      | .out => none
      | .record a p =>
          let g := s.gate.recordAlloc a p
          match g.2 with
          | some p' => some ({ s with gate := g.1 }.go thread (.record a p'))
          | none => some ({ s with gate := g.1 }.finish thread a)
      | .free _ .release => none
      | .free va p =>
          let g := s.gate.markFreed va p
          some ({ s with gate := g.1 }.go thread (.free va g.2))
  | .release thread ok =>
      match s.place thread with
      | .free va .release =>
          match s.owner va with
          | .freeing _ id =>
              some ((s.go thread .out).give va (if ok then .nobody else .held id))
          | _ => none
      | _ => none

def GateWords.entry (g : GateWords) (i : Nat) : Buffer := ⟨(g.table i).va, (g.table i).size⟩

/-- The entry of an allocation, up to the capacity of the table. -/
def GateWords.Lists (g : GateWords) (va id : Nat) : Prop :=
  id < gateAllocMax → id < g.count ∧ (g.table id).va = va ∧ (g.table id).Unflagged

/-- The entries are the allocations returned, in their order. The unflagged ones are those that
the application holds, and some of those that are being freed. -/
structure Recorder.Tracks (s : Recorder) : Prop where
  entries : (List.range s.gate.count).map s.gate.entry = s.returned.take gateAllocMax
  held : ∀ va id, s.owner va = .held id → s.gate.Lists va id
  unflagged : ∀ i < s.gate.count, (s.gate.table i).Unflagged →
    s.owner (s.gate.table i).va = .held i ∨ ∃ thread, s.owner (s.gate.table i).va = .freeing thread i

/-- Entries stay, with their addresses and sizes. -/
structure GateWords.Grows (g g' : GateWords) : Prop where
  count : g.count ≤ g'.count
  entries : ∀ i < g.count, g'.entry i = g.entry i

/-- Between the load of `count` and the store to it. -/
def HookAt.Appends : HookAt → Prop
  | .record _ (.va _) | .record _ (.size _) | .record _ (.flags _) | .record _ (.pad _)
  | .record _ (.publish _) => True
  | _ => False

/-- `count` is loaded for an append when no other thread is about to store it, and the real free
succeeds. -/
def Recorder.Alone (s : Recorder) : HookLabel → Prop
  | .step thread => (∃ a, s.place thread = .record a .count) → ∀ other, ¬(s.place other).Appends
  | .release _ ok => ok = true
  | _ => True

/-- What a thread in `gate_record_alloc` knows of its entry. -/
def RecordAt.Knows (g : GateWords) (a : Buffer) : RecordAt → Prop
  | .largest | .userVa | .userSize | .count => True
  | .va i => i = g.count ∧ i < gateAllocMax
  | .size i => (i = g.count ∧ i < gateAllocMax) ∧ (g.table i).va = a.va
  | .flags i => (i = g.count ∧ i < gateAllocMax) ∧ g.entry i = a
  | .pad i | .publish i => (i = g.count ∧ i < gateAllocMax) ∧ g.entry i = a ∧ (g.table i).Unflagged

/-- What a thread that frees the allocation `id` knows: its entry has not been passed, and at the
end it is marked. -/
def FreeAt.Knows (g : GateWords) (va id : Nat) : FreeAt → Prop
  | .count => g.Lists va id
  | .va i => i < g.count ∧ g.Lists va id ∧ (id < gateAllocMax → id ≤ i)
  | .flags i => i < g.count ∧ g.Lists va id ∧ (id < gateAllocMax → id ≤ i) ∧ (g.table i).va = va
  | .load i => i = id ∧ i < g.count ∧ g.Lists va id
  | .store i word => i = id ∧ i < g.count ∧ g.Lists va id ∧ word &&& flagFreed ≠ 0
  | .release => id < gateAllocMax →
      id < g.count ∧ (g.table id).va = va ∧ ¬(g.table id).Unflagged

def HookAt.Stands (g : GateWords) (owner : Nat → Owner) (thread : Nat) : HookAt → Prop
  | .out => True
  | .record a p => owner a.va = .recording thread ∧ p.Knows g a
  | .free va p => ∃ id, owner va = .freeing thread id ∧ p.Knows g va id

structure Recorder.Inv (s : Recorder) : Prop where
  tracks : s.Tracks
  stands : ∀ thread, (s.place thread).Stands s.gate s.owner thread
  single : ∀ first second, (s.place first).Appends → (s.place second).Appends → first = second

/-- What an access leaves of the entries, apart from the flags of one of them. -/
structure GateWords.Frame (j : Nat) (g g' : GateWords) : Prop where
  count : g.count ≤ g'.count
  entries : ∀ i < g.count, g'.entry i = g.entry i
  flags : ∀ i < g.count, i ≠ j → (g'.table i).flags = (g.table i).flags
  marks : ∀ i < g.count, (g'.table i).Unflagged → (g.table i).Unflagged

theorem GateWords.frame_refl (j : Nat) (g : GateWords) : g.Frame j g :=
  ⟨Nat.le_refl _, fun _ _ => rfl, fun _ _ _ => rfl, fun _ _ h => h⟩

theorem GateWords.Frame.grows {j : Nat} {g g' : GateWords} (h : g.Frame j g') : g.Grows g' :=
  ⟨h.count, h.entries⟩

theorem GateWords.Frame.va {j i : Nat} {g g' : GateWords} (h : g.Frame j g') (hi : i < g.count) :
    (g'.table i).va = (g.table i).va := congrArg Buffer.va (h.entries i hi)

theorem GateWords.Frame.lists {j va id : Nat} {g g' : GateWords} (h : g.Frame j g')
    (hId : id < gateAllocMax → id ≠ j) (hLists : g.Lists va id) : g'.Lists va id := by
  intro hMax
  obtain ⟨hCount, hVa, hFlags⟩ := hLists hMax
  refine ⟨Nat.lt_of_lt_of_le hCount h.count, (h.va hCount).trans hVa, ?_⟩
  rw [EntryWords.Unflagged, h.flags id hCount (hId hMax)]
  exact hFlags

/-- Another entry that changes is of no concern to a thread that frees. -/
theorem FreeAt.Knows.frame {j va id : Nat} {g g' : GateWords} {p : FreeAt} (hKnows : p.Knows g va id)
    (h : g.Frame j g') (hId : id < gateAllocMax → id ≠ j) : p.Knows g' va id := by
  have hBelow : ∀ {i}, i < g.count → i < g'.count := fun hi => Nat.lt_of_lt_of_le hi h.count
  cases p with
  | count => exact h.lists hId hKnows
  | va i => exact ⟨hBelow hKnows.1, h.lists hId hKnows.2.1, hKnows.2.2⟩
  | flags i =>
      obtain ⟨hCount, hLists, hLe, hVa⟩ := hKnows
      exact ⟨hBelow hCount, h.lists hId hLists, hLe, (h.va hCount).trans hVa⟩
  | load i => exact ⟨hKnows.1, hBelow hKnows.2.1, h.lists hId hKnows.2.2⟩
  | store i word =>
      obtain ⟨hSame, hCount, hLists, hFlags⟩ := hKnows
      exact ⟨hSame, hBelow hCount, h.lists hId hLists, hFlags⟩
  | release =>
      intro hMax
      obtain ⟨hCount, hVa, hFlags⟩ := hKnows hMax
      exact ⟨hBelow hCount, (h.va hCount).trans hVa, fun hUnflagged => hFlags (h.marks id hCount hUnflagged)⟩

theorem FreeAt.knows_below {g : GateWords} {va id n : Nat} (hCount : n ≤ g.count)
    (hLists : g.Lists va id) (hId : id < gateAllocMax → id < n) : (FreeAt.below n).Knows g va id := by
  cases n with
  | zero => exact fun hMax => absurd (hId hMax) (Nat.not_lt_zero id)
  | succ n => exact ⟨hCount, hLists, fun hMax => Nat.le_of_lt_succ (hId hMax)⟩

theorem freed_of_or (word : Nat) : (word ||| flagFreed) &&& flagFreed ≠ 0 := by
  have hBit : (word ||| flagFreed) &&& flagFreed = flagFreed := by
    apply Nat.eq_of_testBit_eq
    intro i
    rw [Nat.testBit_and, Nat.testBit_or]
    cases flagFreed.testBit i <;> simp
  rw [hBit]
  decide

/-- An access of `gate_mark_freed` for an allocation whose entry alone is unflagged with the
address. -/
theorem GateWords.markFreed_knows {g : GateWords} {va id : Nat} {p : FreeAt} (hKnows : p.Knows g va id)
    (hUnique : ∀ i < g.count, (g.table i).Unflagged → (g.table i).va = va → i = id) :
    (g.markFreed va p).2.Knows (g.markFreed va p).1 va id ∧ g.Frame id (g.markFreed va p).1 ∧
      (g.markFreed va p).1.count = g.count ∧ (g.markFreed va p).1.table g.count = g.table g.count := by
  cases p with
  | count =>
      refine ⟨FreeAt.knows_below (Nat.le_refl _) hKnows fun hMax => (hKnows hMax).1, frame_refl _ _, ?_⟩
      exact ⟨rfl, rfl⟩
  | va i =>
      obtain ⟨hCount, hLists, hLe⟩ := hKnows
      refine ⟨?_, frame_refl _ _, rfl, rfl⟩
      rw [markFreed]
      dsimp only
      split
      · rename_i hVa
        exact ⟨hCount, hLists, hLe, hVa⟩
      · rename_i hVa
        refine FreeAt.knows_below hCount.le hLists fun hMax => lt_of_le_of_ne (hLe hMax) ?_
        rintro rfl
        exact hVa (hLists hMax).2.1
  | flags i =>
      obtain ⟨hCount, hLists, hLe, hVa⟩ := hKnows
      refine ⟨?_, frame_refl _ _, rfl, rfl⟩
      rw [markFreed]
      dsimp only
      split
      · rename_i hUnflagged
        exact ⟨hUnique i hCount hUnflagged hVa, hCount, hLists⟩
      · rename_i hFlagged
        refine FreeAt.knows_below hCount.le hLists fun hMax => lt_of_le_of_ne (hLe hMax) ?_
        rintro rfl
        exact hFlagged (hLists hMax).2.2
  | load i =>
      obtain ⟨hSame, hCount, hLists⟩ := hKnows
      exact ⟨⟨hSame, hCount, hLists, freed_of_or _⟩, frame_refl _ _, rfl, rfl⟩
  | store i word =>
      obtain ⟨rfl, hCount, hLists, hFlags⟩ := hKnows
      rw [markFreed]
      refine ⟨fun hMax => ⟨hCount, ?_, ?_⟩, ⟨Nat.le_refl _, fun k _ => ?_, fun k _ hk => ?_, fun k _ hk => ?_⟩, rfl,
        put_of_ne g _ (Nat.ne_of_gt hCount)⟩
      · rw [put_self]
        exact (hLists hMax).2.1
      · rw [put_self]
        exact hFlags
      · rw [GateWords.entry, GateWords.entry]
        by_cases hSame : k = i
        · rw [hSame, put_self]
        · rw [put_of_ne g _ hSame]
      · rw [put_of_ne g _ hk]
      · by_cases hSame : k = i
        · rw [hSame, put_self] at hk
          exact absurd hk hFlags
        · rwa [put_of_ne g _ hSame] at hk
  | release => exact ⟨hKnows, frame_refl _ _, rfl, rfl⟩

/-- The entries that are listed do not see a write behind them. -/
theorem GateWords.frame_put (g : GateWords) (e : EntryWords) : g.Frame g.count (g.put g.count e) := by
  have hOther : ∀ i < g.count, (g.put g.count e).table i = g.table i :=
    fun i hi => put_of_ne g e (Nat.ne_of_lt hi)
  refine ⟨Nat.le_refl _, fun i hi => ?_, fun i hi _ => ?_, fun i hi hUnflagged => ?_⟩
  · rw [GateWords.entry, GateWords.entry, hOther i hi]
  · rw [hOther i hi]
  · rwa [hOther i hi] at hUnflagged

/-- An access of `gate_record_alloc` before its last. -/
theorem GateWords.recordAlloc_knows {g : GateWords} {a : Buffer} {p p' : RecordAt}
    (hKnows : p.Knows g a) (hNext : (g.recordAlloc a p).2 = some p') :
    p'.Knows (g.recordAlloc a p).1 a ∧ g.Frame g.count (g.recordAlloc a p).1 ∧
      (g.recordAlloc a p).1.count = g.count := by
  cases p with
  | largest =>
      cases hNext
      refine ⟨?_, frame_refl _ _, rfl⟩
      dsimp only [recordAlloc]
      split <;> trivial
  | userVa =>
      cases hNext
      exact ⟨trivial, ⟨Nat.le_refl _, fun _ _ => rfl, fun _ _ _ => rfl, fun _ _ h => h⟩, rfl⟩
  | userSize =>
      cases hNext
      exact ⟨trivial, ⟨Nat.le_refl _, fun _ _ => rfl, fun _ _ _ => rfl, fun _ _ h => h⟩, rfl⟩
  | count =>
      obtain ⟨hRoom, hNext⟩ := Option.ite_none_right_eq_some.mp hNext
      cases hNext
      exact ⟨⟨rfl, hRoom⟩, frame_refl _ _, rfl⟩
  | va i =>
      cases hNext
      obtain ⟨rfl, hMax⟩ := hKnows
      exact ⟨⟨⟨rfl, hMax⟩, by rw [recordAlloc, put_self]⟩, g.frame_put _, rfl⟩
  | size i =>
      cases hNext
      obtain ⟨⟨rfl, hMax⟩, hVa⟩ := hKnows
      exact ⟨⟨⟨rfl, hMax⟩, by rw [recordAlloc, GateWords.entry, put_self, hVa]⟩, g.frame_put _, rfl⟩
  | flags i =>
      cases hNext
      obtain ⟨⟨rfl, hMax⟩, hEntry⟩ := hKnows
      refine ⟨⟨⟨rfl, hMax⟩, ?_, ?_⟩, g.frame_put _, rfl⟩
      · rw [recordAlloc, GateWords.entry, put_self]
        exact hEntry
      · rw [recordAlloc, put_self]
        exact Nat.zero_and _
  | pad i =>
      cases hNext
      obtain ⟨⟨rfl, hMax⟩, hEntry, hUnflagged⟩ := hKnows
      refine ⟨⟨⟨rfl, hMax⟩, ?_, ?_⟩, g.frame_put _, rfl⟩
      · rw [recordAlloc, GateWords.entry, put_self]
        exact hEntry
      · rw [recordAlloc, put_self]
        exact hUnflagged
  | publish i => cases hNext

/-- At its end the table is full, or one more entry is listed. -/
theorem GateWords.recordAlloc_done {g : GateWords} {a : Buffer} {p : RecordAt} (hKnows : p.Knows g a)
    (hDone : (g.recordAlloc a p).2 = none) :
    gateAllocMax ≤ g.count ∧ (g.recordAlloc a p).1 = g ∨
      (g.recordAlloc a p).1 = { g with count := g.count + 1 } ∧ g.count < gateAllocMax ∧
        g.entry g.count = a ∧ (g.table g.count).Unflagged := by
  cases p with
  | count =>
      left
      rw [recordAlloc] at hDone
      dsimp only at hDone
      split at hDone
      · cases hDone
      · rename_i hFull
        exact ⟨Nat.le_of_not_lt hFull, rfl⟩
  | publish i =>
      right
      obtain ⟨⟨rfl, hMax⟩, hEntry, hUnflagged⟩ := hKnows
      exact ⟨rfl, hMax, hEntry, hUnflagged⟩
  | _ => cases hDone

/-- A thread that does not append knows nothing of the entry behind the last. -/
theorem RecordAt.Knows.frame {g g' : GateWords} {a : Buffer} {p : RecordAt} (h : p.Knows g a)
    (hSame : (HookAt.record a p).Appends → g'.count = g.count ∧ g'.table g.count = g.table g.count) :
    p.Knows g' a := by
  cases p with
  | largest | userVa | userSize | count => trivial
  | va i => exact ⟨h.1.trans (hSame trivial).1.symm, h.2⟩
  | size i =>
      obtain ⟨hCount, hTable⟩ := hSame trivial
      obtain ⟨⟨rfl, hMax⟩, hVa⟩ := h
      exact ⟨⟨hCount.symm, hMax⟩, by rw [hTable, hVa]⟩
  | flags i =>
      obtain ⟨hCount, hTable⟩ := hSame trivial
      obtain ⟨⟨rfl, hMax⟩, hEntry⟩ := h
      exact ⟨⟨hCount.symm, hMax⟩, by rw [GateWords.entry, hTable]; exact hEntry⟩
  | pad i | publish i =>
      obtain ⟨hCount, hTable⟩ := hSame trivial
      obtain ⟨⟨rfl, hMax⟩, hEntry, hUnflagged⟩ := h
      exact ⟨⟨hCount.symm, hMax⟩, by rw [GateWords.entry, hTable]; exact hEntry, by rwa [hTable]⟩

/-- The entry of the allocation that a thread frees. -/
theorem FreeAt.Knows.entry {g : GateWords} {va id : Nat} {p : FreeAt} (h : p.Knows g va id)
    (hMax : id < gateAllocMax) : id < g.count ∧ (g.table id).va = va := by
  have hOf : g.Lists va id → id < g.count ∧ (g.table id).va = va :=
    fun hLists => ⟨(hLists hMax).1, (hLists hMax).2.1⟩
  cases p with
  | count => exact hOf h
  | va i | flags i => exact hOf h.2.1
  | load i => exact hOf h.2.2
  | store i word => exact hOf h.2.2.1
  | release => exact ⟨(h hMax).1, (h hMax).2.1⟩

/-- An access of `gate_record_alloc` up to the load of `count` leaves the entries alone. -/
theorem GateWords.recordAlloc_table {g : GateWords} {a : Buffer} {p : RecordAt}
    (h : ¬(HookAt.record a p).Appends) :
    (g.recordAlloc a p).1.count = g.count ∧ (g.recordAlloc a p).1.table = g.table := by
  cases p with
  | largest | userVa | userSize | count => exact ⟨rfl, rfl⟩
  | _ => exact (h trivial).elim

section Steps

variable {s t : Recorder}

/-- What another thread knows, behind a change of the gate. -/
theorem HookAt.Stands.frame {j other : Nat} {g : GateWords} {p : HookAt}
    (h : p.Stands s.gate s.owner other) (hFrame : s.gate.Frame j g)
    (hId : ∀ va id, s.owner va = .freeing other id → id < s.gate.count → (s.gate.table id).va = va → id ≠ j)
    (hNext : p.Appends → g.count = s.gate.count ∧ g.table s.gate.count = s.gate.table s.gate.count) :
    p.Stands g s.owner other := by
  cases p with
  | out => trivial
  | record a p => exact ⟨h.1, h.2.frame hNext⟩
  | free va p =>
      obtain ⟨id, hOwner, hKnows⟩ := h
      refine ⟨id, hOwner, hKnows.frame hFrame fun hMax => ?_⟩
      obtain ⟨hCount, hVa⟩ := hKnows.entry hMax
      exact hId va id hOwner hCount hVa

/-- An address that is not the thread's own changes hands. -/
theorem HookAt.Stands.give {va other : Nat} {g : GateWords} {owner : Nat → Owner} {p : HookAt} (o : Owner)
    (h : p.Stands g owner other) (hRecording : owner va ≠ .recording other)
    (hFreeing : ∀ id, owner va ≠ .freeing other id) :
    p.Stands g (Function.update owner va o) other := by
  cases p with
  | out => trivial
  | record a p =>
      refine ⟨?_, h.2⟩
      rw [Function.update_of_ne (by rintro rfl; exact hRecording h.1)]
      exact h.1
  | free va' p =>
      obtain ⟨id, hOwner, hKnows⟩ := h
      refine ⟨id, ?_, hKnows⟩
      rw [Function.update_of_ne (by rintro rfl; exact hFreeing id hOwner)]
      exact hOwner

/-- A thread has moved. -/
theorem Recorder.Inv.moved (h : s.Inv) {thread : Nat} {p : HookAt}
    (hPlace : t.place = Function.update s.place thread p) (hTracks : t.Tracks)
    (hSelf : p.Stands t.gate t.owner thread)
    (hOthers : ∀ other, other ≠ thread → (s.place other).Stands t.gate t.owner other)
    (hSingle : p.Appends → ∀ other, other ≠ thread → ¬(s.place other).Appends) : t.Inv where
  tracks := hTracks
  stands := by
    intro other
    rw [hPlace]
    by_cases hSame : other = thread
    · rw [hSame, Function.update_self]
      exact hSelf
    · rw [Function.update_of_ne hSame]
      exact hOthers other hSame
  single := by
    intro first second hFirst hSecond
    rw [hPlace] at hFirst hSecond
    by_contra hNe
    by_cases hf : first = thread
    · subst hf
      rw [Function.update_self] at hFirst
      rw [Function.update_of_ne (Ne.symm hNe)] at hSecond
      exact hSingle hFirst second (Ne.symm hNe) hSecond
    · rw [Function.update_of_ne hf] at hFirst
      by_cases hs : second = thread
      · subst hs
        rw [Function.update_self] at hSecond
        exact hSingle hSecond first hf hFirst
      · rw [Function.update_of_ne hs] at hSecond
        exact hNe (h.single first second hFirst hSecond)

/-- An address that changes hands keeps the table right if its entry is then the right one. -/
theorem Recorder.Tracks.give (h : s.Tracks) {va : Nat} {o : Owner}
    (hEntry : ∀ i < s.gate.count, (s.gate.table i).Unflagged → (s.gate.table i).va = va →
      o = .held i ∨ ∃ thread, o = .freeing thread i)
    (hHeld : ∀ id, o = .held id → s.gate.Lists va id) : (s.give va o).Tracks where
  entries := h.entries
  held := by
    intro va' id hOwner
    dsimp only [Recorder.give] at hOwner ⊢
    by_cases hSame : va' = va
    · subst hSame
      rw [Function.update_self] at hOwner
      exact hHeld id hOwner
    · rw [Function.update_of_ne hSame] at hOwner
      exact h.held va' id hOwner
  unflagged := by
    intro i hi hUnflagged
    dsimp only [Recorder.give] at hi hUnflagged ⊢
    by_cases hSame : (s.gate.table i).va = va
    · rw [hSame, Function.update_self]
      exact hEntry i hi hUnflagged hSame
    · rw [Function.update_of_ne hSame]
      exact h.unflagged i hi hUnflagged

/-- A change of the entry of an allocation that is not held. -/
theorem Recorder.Tracks.frame (h : s.Tracks) {j : Nat} {g : GateWords} (hFrame : s.gate.Frame j g)
    (hCount : g.count = s.gate.count)
    (hId : ∀ va id, s.owner va = .held id → id < s.gate.count → (s.gate.table id).va = va → id ≠ j) :
    Recorder.Tracks { s with gate := g } where
  entries := by
    dsimp only
    rw [hCount, ← h.entries]
    exact List.map_congr_left fun i hi => hFrame.entries i (List.mem_range.mp hi)
  held := by
    intro va id hOwner
    have hLists := h.held va id hOwner
    exact hFrame.lists (fun hMax => hId va id hOwner (hLists hMax).1 (hLists hMax).2.1) hLists
  unflagged := by
    intro i hi hUnflagged
    dsimp only at hi hUnflagged ⊢
    rw [hCount] at hi
    rw [hFrame.va hi]
    exact h.unflagged i hi (hFrame.marks i hi hUnflagged)

theorem Recorder.Tracks.count_eq (h : s.Tracks) : s.gate.count = min gateAllocMax s.returned.length := by
  have hLength := congrArg List.length h.entries
  rwa [List.length_map, List.length_range, List.length_take] at hLength

/-- Whose an address is that has an unflagged entry. -/
theorem Recorder.Tracks.owner_of (h : s.Tracks) {i va : Nat} (hi : i < s.gate.count)
    (hUnflagged : (s.gate.table i).Unflagged) (hVa : (s.gate.table i).va = va) :
    s.owner va = .held i ∨ ∃ thread, s.owner va = .freeing thread i := hVa ▸ h.unflagged i hi hUnflagged

/-- An allocation. -/
theorem Recorder.Inv.malloc (h : s.Inv) {thread va size : Nat} (hFree : s.owner va = .nobody) :
    ((s.go thread (.record ⟨va, size⟩ .largest)).give va (.recording thread)).Inv := by
  have hTracks : (s.go thread (.record ⟨va, size⟩ .largest)).Tracks :=
    ⟨h.tracks.entries, h.tracks.held, h.tracks.unflagged⟩
  refine h.moved rfl (hTracks.give ?_ fun id hHeld => (nomatch hHeld)) ?_ ?_ fun hAppends => hAppends.elim
  · intro i hi hUnflagged hVa
    rcases h.tracks.owner_of hi hUnflagged hVa with hHeld | ⟨other, hFreeing⟩
    · cases hFree.symm.trans hHeld
    · cases hFree.symm.trans hFreeing
  · exact ⟨Function.update_self .., trivial⟩
  · intro other _
    exact (h.stands other).give _ (by rw [hFree]; exact Owner.noConfusion) fun id => by
      rw [hFree]
      exact Owner.noConfusion

/-- A free that begins. -/
theorem Recorder.Inv.free (h : s.Inv) {thread va id : Nat} (hHeld : s.owner va = .held id) :
    ((s.go thread (.free va .count)).give va (.freeing thread id)).Inv := by
  have hTracks : (s.go thread (.free va .count)).Tracks :=
    ⟨h.tracks.entries, h.tracks.held, h.tracks.unflagged⟩
  refine h.moved rfl (hTracks.give ?_ fun id hHeld => (nomatch hHeld)) ?_ ?_ fun hAppends => hAppends.elim
  · intro i hi hUnflagged hVa
    rcases h.tracks.owner_of hi hUnflagged hVa with hOwner | ⟨other, hOwner⟩
    · cases hHeld.symm.trans hOwner
      exact .inr ⟨thread, rfl⟩
    · cases hHeld.symm.trans hOwner
  · exact ⟨id, Function.update_self .., h.tracks.held va id hHeld⟩
  · intro other _
    exact (h.stands other).give _ (by rw [hHeld]; exact Owner.noConfusion) fun id => by
      rw [hHeld]
      exact Owner.noConfusion

/-- The real free. -/
theorem Recorder.Inv.release (h : s.Inv) {thread va : Nat} (hPlace : s.place thread = .free va .release) :
    ((s.go thread .out).give va .nobody).Inv := by
  have hTracks : (s.go thread .out).Tracks := ⟨h.tracks.entries, h.tracks.held, h.tracks.unflagged⟩
  have hStands := h.stands thread
  rw [hPlace] at hStands
  obtain ⟨id, hOwner, hFlagged⟩ := hStands
  refine h.moved rfl (hTracks.give ?_ fun id hHeld => (nomatch hHeld)) trivial ?_
    fun hAppends => hAppends.elim
  · intro i hi hUnflagged hVa
    exfalso
    rcases h.tracks.owner_of hi hUnflagged hVa with hHeld | ⟨other, hFreeing⟩
    · cases hOwner.symm.trans hHeld
    · cases hOwner.symm.trans hFreeing
      have hMax : s.gate.count ≤ gateAllocMax := h.tracks.count_eq.trans_le (Nat.min_le_left _ _)
      exact (hFlagged (Nat.lt_of_lt_of_le hi hMax)).2.2 hUnflagged
  · intro other hOther
    refine (h.stands other).give _ (by rw [hOwner]; exact Owner.noConfusion) fun id => ?_
    rw [hOwner]
    intro hSame
    cases hSame
    exact hOther rfl

/-- An access of a thread that frees. -/
theorem Recorder.Inv.markFreed (h : s.Inv) {thread va : Nat} {p : FreeAt}
    (hPlace : s.place thread = .free va p) :
    ({ s with gate := (s.gate.markFreed va p).1 }.go thread
        (.free va (s.gate.markFreed va p).2)).Inv ∧
      s.gate.Grows (s.gate.markFreed va p).1 := by
  have hStands := h.stands thread
  rw [hPlace] at hStands
  obtain ⟨id, hOwner, hKnows⟩ := hStands
  have hUnique : ∀ i < s.gate.count, (s.gate.table i).Unflagged → (s.gate.table i).va = va → i = id := by
    intro i hi hUnflagged hVa
    rcases h.tracks.owner_of hi hUnflagged hVa with hHeld | ⟨other, hFreeing⟩
    · cases hOwner.symm.trans hHeld
    · cases hOwner.symm.trans hFreeing
      rfl
  obtain ⟨hKnows', hFrame, hCount, hNext⟩ := GateWords.markFreed_knows hKnows hUnique
  have hMax : s.gate.count ≤ gateAllocMax := h.tracks.count_eq.trans_le (Nat.min_le_left _ _)
  -- another address has another entry
  have hOther : ∀ va' id', s.owner va' ≠ .freeing thread id → id' < s.gate.count →
      (s.gate.table id').va = va' → id' ≠ id := by
    rintro va' id' hNot hLt hVa rfl
    rw [← hVa, (hKnows.entry (Nat.lt_of_lt_of_le hLt hMax)).2] at hNot
    exact hNot hOwner
  have hTracks := h.tracks.frame hFrame hCount fun va' id' hHeld =>
    hOther va' id' (by rw [hHeld]; exact Owner.noConfusion)
  refine ⟨h.moved rfl ⟨hTracks.entries, hTracks.held, hTracks.unflagged⟩ ⟨id, hOwner, hKnows'⟩ ?_
    fun hAppends => hAppends.elim, hFrame.grows⟩
  intro other hNe
  refine (h.stands other).frame hFrame (fun va' id' hFreeing => hOther va' id' ?_) fun _ => ⟨hCount, hNext⟩
  rw [hFreeing]
  intro hSame
  cases hSame
  exact hNe rfl

/-- An append begins with the load of `count`. -/
theorem GateWords.recordAlloc_appends {g : GateWords} {a : Buffer} {p p' : RecordAt}
    (hNext : (g.recordAlloc a p).2 = some p') (hAppends : (HookAt.record a p').Appends) :
    p = .count ∨ (HookAt.record a p).Appends := by
  cases p with
  | largest =>
      cases hNext
      split at hAppends <;> exact hAppends.elim
  | userVa | userSize =>
      cases hNext
      exact hAppends.elim
  | count => exact .inl rfl
  | _ => exact .inr trivial

/-- An access of a thread that records, before its last. -/
theorem Recorder.Inv.record (h : s.Inv) {thread : Nat} {a : Buffer} {p p' : RecordAt}
    (hPlace : s.place thread = .record a p) (hNext : (s.gate.recordAlloc a p).2 = some p')
    (hAlone : p = .count → ∀ other, ¬(s.place other).Appends) :
    ({ s with gate := (s.gate.recordAlloc a p).1 }.go thread (.record a p')).Inv ∧
      s.gate.Grows (s.gate.recordAlloc a p).1 := by
  have hStands := h.stands thread
  rw [hPlace] at hStands
  obtain ⟨hOwner, hKnows⟩ := hStands
  obtain ⟨hKnows', hFrame, hCount⟩ := GateWords.recordAlloc_knows hKnows hNext
  have hSingle : (HookAt.record a p).Appends → ∀ other, other ≠ thread → ¬(s.place other).Appends :=
    fun hAppends other hNe hOther => hNe (h.single other thread hOther (hPlace ▸ hAppends))
  have hTracks := h.tracks.frame hFrame hCount fun _ _ _ hLt _ => Nat.ne_of_lt hLt
  refine ⟨h.moved rfl ⟨hTracks.entries, hTracks.held, hTracks.unflagged⟩ ⟨hOwner, hKnows'⟩ ?_ ?_,
    hFrame.grows⟩
  · intro other hNe
    refine (h.stands other).frame hFrame (fun _ _ _ hLt _ => Nat.ne_of_lt hLt) fun hOther => ?_
    obtain ⟨hSame, hTable⟩ := GateWords.recordAlloc_table fun hAppends => hSingle hAppends other hNe hOther
    exact ⟨hSame, congrFun hTable _⟩
  · intro hAppends other hNe
    rcases GateWords.recordAlloc_appends hNext hAppends with hLoads | hAppends
    · exact hAlone hLoads other
    · exact hSingle hAppends other hNe

/-- The count is stored: one more entry is listed. -/
theorem GateWords.frame_publish (j : Nat) (g : GateWords) : g.Frame j { g with count := g.count + 1 } :=
  ⟨Nat.le_succ _, fun _ _ => rfl, fun _ _ _ => rfl, fun _ _ h => h⟩

/-- The entry behind the last is listed, and its allocation is held from then on. -/
theorem Recorder.Tracks.publish (h : s.Tracks) {a : Buffer} (hMax : s.gate.count < gateAllocMax)
    (hEntry : s.gate.entry s.gate.count = a) (hUnflagged : (s.gate.table s.gate.count).Unflagged)
    (hFresh : ∀ i < s.gate.count, (s.gate.table i).Unflagged → (s.gate.table i).va ≠ a.va) (thread : Nat) :
    ({ s with gate := { s.gate with count := s.gate.count + 1 } }.finish thread a).Tracks := by
  have hVa : (s.gate.table s.gate.count).va = a.va := congrArg Buffer.va hEntry
  have hLength : s.returned.length = s.gate.count := by
    have hCount := h.count_eq
    omega
  refine ⟨?_, fun va id hHeld => ?_, fun i hi hOpen => ?_⟩
  · change (List.range (s.gate.count + 1)).map s.gate.entry = (s.returned ++ [a]).take gateAllocMax
    have hBefore := h.entries
    rw [List.take_of_length_le (by omega)] at hBefore
    rw [List.range_succ, List.map_append, hBefore, List.map_singleton, hEntry,
      List.take_of_length_le (by rw [List.length_append, List.length_singleton]; omega)]
  · dsimp only [Recorder.finish, Recorder.give, Recorder.go] at hHeld ⊢
    by_cases hSame : va = a.va
    · subst hSame
      rw [Function.update_self, hLength] at hHeld
      cases hHeld
      exact fun _ => ⟨Nat.lt_succ_self _, hVa, hUnflagged⟩
    · rw [Function.update_of_ne hSame] at hHeld
      intro hMaxId
      obtain ⟨hLt, hRest⟩ := h.held va id hHeld hMaxId
      exact ⟨Nat.lt_succ_of_lt hLt, hRest⟩
  · dsimp only [Recorder.finish, Recorder.give, Recorder.go] at hi hOpen ⊢
    rcases Nat.lt_succ_iff_lt_or_eq.mp hi with hLt | rfl
    · rw [Function.update_of_ne (hFresh i hLt hOpen)]
      exact h.unflagged i hLt hOpen
    · rw [hVa, Function.update_self, hLength]
      exact .inl rfl

/-- The last access of a thread that records. -/
theorem Recorder.Inv.finish (h : s.Inv) {thread : Nat} {a : Buffer} {p : RecordAt}
    (hPlace : s.place thread = .record a p) (hDone : (s.gate.recordAlloc a p).2 = none) :
    ({ s with gate := (s.gate.recordAlloc a p).1 }.finish thread a).Inv ∧
      s.gate.Grows (s.gate.recordAlloc a p).1 := by
  have hStands := h.stands thread
  rw [hPlace] at hStands
  obtain ⟨hOwner, hKnows⟩ := hStands
  -- the address had no unflagged entry
  have hFresh : ∀ i < s.gate.count, (s.gate.table i).Unflagged → (s.gate.table i).va ≠ a.va := by
    intro i hi hUnflagged hVa
    rcases h.tracks.owner_of hi hUnflagged hVa with hHeld | ⟨other, hFreeing⟩
    · cases hOwner.symm.trans hHeld
    · cases hOwner.symm.trans hFreeing
  have hGive : ∀ other, other ≠ thread → ∀ g : GateWords, (s.place other).Stands g s.owner other →
      (s.place other).Stands g (Function.update s.owner a.va (.held s.returned.length)) other := by
    intro other hNe g hStands
    refine hStands.give _ ?_ fun id => by rw [hOwner]; exact Owner.noConfusion
    rw [hOwner]
    intro hSame
    cases hSame
    exact hNe rfl
  rcases GateWords.recordAlloc_done hKnows hDone with ⟨hFull, hGate⟩ | ⟨hGate, hMax, hEntry, hUnflagged⟩
  · rw [hGate]
    have hLength := h.tracks.count_eq
    have hKept : Recorder.Tracks { s.go thread .out with returned := s.returned ++ [a] } := by
      refine ⟨?_, h.tracks.held, h.tracks.unflagged⟩
      dsimp only [Recorder.go]
      rw [h.tracks.entries, List.take_append_of_le_length (by omega)]
    have hTracks : Recorder.Tracks ({ s.go thread .out with returned := s.returned ++ [a] }.give a.va
        (.held s.returned.length)) := by
      refine hKept.give (fun i hi hUnflagged hVa => (hFresh i hi hUnflagged hVa).elim) ?_
      rintro id hId hMax
      cases hId
      omega
    refine ⟨h.moved rfl ⟨hTracks.entries, hTracks.held, hTracks.unflagged⟩ trivial ?_
      fun hAppends => hAppends.elim, (GateWords.frame_refl 0 _).grows⟩
    exact fun other hNe => hGive other hNe _ (h.stands other)
  · rw [hGate]
    have hFrame := s.gate.frame_publish s.gate.count
    have hAppends : (s.place thread).Appends := by
      rw [hPlace]
      cases p with
      | count =>
          have hSame := congrArg GateWords.count hGate
          exact absurd hSame (Nat.ne_of_lt (Nat.lt_succ_self _))
      | publish i => trivial
      | _ => cases hDone
    refine ⟨h.moved rfl ?_ trivial ?_ fun hAppends => hAppends.elim, hFrame.grows⟩
    · exact h.tracks.publish hMax hEntry hUnflagged hFresh thread
    · intro other hNe
      refine hGive other hNe _ ((h.stands other).frame hFrame (fun _ _ _ hLt _ => Nat.ne_of_lt hLt) ?_)
      exact fun hOther => (hNe (h.single other thread hOther hAppends)).elim

/-- A step that meets the condition keeps the table right. -/
theorem Recorder.Inv.next (h : s.Inv) {label : HookLabel} (hAlone : s.Alone label)
    (hNext : nextHook s label = some t) : t.Inv ∧ s.gate.Grows t.gate := by
  cases label with
  | malloc thread va size =>
      obtain ⟨⟨_, _, hFree⟩, hSome⟩ := Option.ite_none_right_eq_some.mp hNext
      cases hSome
      exact ⟨h.malloc hFree, (GateWords.frame_refl 0 _).grows⟩
  | free thread va =>
      rw [nextHook] at hNext
      cases hOwner : s.owner va with
      | held id =>
          rw [hOwner] at hNext
          obtain ⟨_, hSome⟩ := Option.ite_none_right_eq_some.mp hNext
          cases hSome
          exact ⟨h.free hOwner, (GateWords.frame_refl 0 _).grows⟩
      | _ =>
          rw [hOwner] at hNext
          cases hNext
  | step thread =>
      rw [nextHook] at hNext
      cases hPlace : s.place thread with
      | out =>
          rw [hPlace] at hNext
          cases hNext
      | record a p =>
          rw [hPlace] at hNext
          dsimp only at hNext
          cases hDone : (s.gate.recordAlloc a p).2 with
          | some p' =>
              rw [hDone] at hNext
              cases hNext
              refine h.record hPlace hDone fun hLoads => hAlone ⟨a, ?_⟩
              rw [hPlace, hLoads]
          | none =>
              rw [hDone] at hNext
              cases hNext
              exact h.finish hPlace hDone
      | free va p =>
          rw [hPlace] at hNext
          cases p with
          | release => cases hNext
          | _ =>
              cases hNext
              exact h.markFreed hPlace
  | release thread ok =>
      rw [nextHook] at hNext
      obtain rfl : ok = true := hAlone
      cases hPlace : s.place thread with
      | free va p =>
          rw [hPlace] at hNext
          cases p with
          | release =>
              dsimp only at hNext
              cases hOwner : s.owner va with
              | freeing other id =>
                  rw [hOwner] at hNext
                  cases hNext
                  exact ⟨h.release hPlace, (GateWords.frame_refl 0 _).grows⟩
              | _ =>
                  rw [hOwner] at hNext
                  cases hNext
          | _ => cases hNext
      | _ =>
          rw [hPlace] at hNext
          cases hNext

end Steps

theorem Recorder.inv_init (userVa : Nat) (table : Nat → EntryWords) : (Recorder.init userVa table).Inv where
  tracks := ⟨rfl, fun _ _ hHeld => (nomatch hHeld), fun i hi => absurd hi (Nat.not_lt_zero i)⟩
  stands := fun _ => trivial
  single := fun _ _ hFirst => hFirst.elim

/-- In every run in which appends do not overlap and the real frees succeed, the table lists the
allocations, and its unflagged entries are those that are live. -/
theorem tracks_along (userVa : Nat) (table : Nat → EntryWords) {labels : List HookLabel}
    (h : Along nextHook Recorder.Alone (.init userVa table) labels) :
    Along nextHook (fun s label => ∀ t, nextHook s label = some t → t.Tracks ∧ s.gate.Grows t.gate)
      (.init userVa table) labels := by
  refine along_of_invariant (fun s label t hAlone (hInv : s.Inv) hNext => (hInv.next hAlone hNext).1) ?_
    labels _ (Recorder.inv_init userVa table) h
  intro s label t hAlone hInv _ t' hNext
  obtain ⟨hInv', hGrows⟩ := hInv.next hAlone hNext
  exact ⟨hInv'.tracks, hGrows⟩

def HookLabel.thread : HookLabel → Nat
  | .malloc thread _ _ | .free thread _ | .step thread | .release thread _ => thread

def HookLabel.fails : HookLabel → Bool
  | .release _ ok => !ok
  | _ => false

/-- The other threads stay where they are. -/
theorem nextHook_place {s t : Recorder} {label : HookLabel} (hNext : nextHook s label = some t)
    {other : Nat} (hOther : other ≠ label.thread) : t.place other = s.place other := by
  have hGo : ∀ p : HookAt, Function.update s.place label.thread p other = s.place other :=
    fun p => Function.update_of_ne hOther ..
  cases label with
  | malloc thread va size =>
      obtain ⟨_, hSome⟩ := Option.ite_none_right_eq_some.mp hNext
      cases hSome
      exact hGo _
  | free thread va =>
      rw [nextHook] at hNext
      split at hNext
      · obtain ⟨_, hSome⟩ := Option.ite_none_right_eq_some.mp hNext
        cases hSome
        exact hGo _
      · cases hNext
  | step thread =>
      rw [nextHook] at hNext
      split at hNext
      · cases hNext
      · dsimp only at hNext
        split at hNext <;> cases hNext <;> exact hGo _
      · cases hNext
      · cases hNext
        exact hGo _
  | release thread ok =>
      rw [nextHook] at hNext
      split at hNext
      · split at hNext
        · cases hNext
          exact hGo _
        · cases hNext
      · cases hNext

/-- The runs of one thread meet the condition if its frees succeed. -/
theorem alone_of_one_thread {thread : Nat} {labels : List HookLabel}
    (hLabels : ∀ label ∈ labels, label.thread = thread ∧ label.fails = false) {s : Recorder}
    (hOut : ∀ other, other ≠ thread → s.place other = .out) : Along nextHook Recorder.Alone s labels := by
  induction labels generalizing s with
  | nil => trivial
  | cons label rest ih =>
      obtain ⟨⟨hThread, hFails⟩, hRest⟩ := List.forall_mem_cons.mp hLabels
      intro t hNext
      refine ⟨?_, ih hRest fun other hNe => ?_⟩
      · cases label with
        | step actor =>
            obtain rfl : actor = thread := hThread
            rintro ⟨a, hPlace⟩ other hAppends
            by_cases hSame : other = actor
            · rw [hSame, hPlace] at hAppends
              exact hAppends
            · rw [hOut other hSame] at hAppends
              exact hAppends
        | release actor ok => simpa [HookLabel.fails, Recorder.Alone] using hFails
        | _ => trivial
      · rw [nextHook_place hNext (hThread.symm ▸ hNe)]
        exact hOut other hNe

/-- One thread allocates, frees, and gets the same address again. -/
def reusedAddress : List HookLabel :=
  .malloc 0 0x1000 0x2000 :: List.replicate 9 (.step 0) ++ .free 0 0x1000 :: List.replicate 5 (.step 0) ++
    .release 0 true :: .malloc 0 0x1000 0x1000 :: List.replicate 7 (.step 0)

theorem tracks_along_reusedAddress :
    ((execute nextHook (.init 0 fun _ => ⟨0, 0, 0, 0⟩) reusedAddress).map fun s =>
      ((List.range s.gate.count).map s.gate.table, s.owner 0x1000)) =
        some ([⟨0x1000, 0x2000, 2, 0⟩, ⟨0x1000, 0x1000, 0, 0⟩], .held 1) ∧
    Along nextHook (fun s label => ∀ t, nextHook s label = some t → t.Tracks ∧ s.gate.Grows t.gate)
      (.init 0 fun _ => ⟨0, 0, 0, 0⟩) reusedAddress :=
  ⟨by decide +kernel, tracks_along 0 _
    (@alone_of_one_thread 0 reusedAddress (by decide) _ fun _ _ => rfl)⟩

/-- Two threads load the same count, and the second one writes over the entry of the first. -/
def lostEntry : List HookLabel :=
  .malloc 0 0x1000 0x1000 :: List.replicate 4 (.step 0) ++ .malloc 1 0x2000 0x1000 ::
    List.replicate 2 (.step 1) ++ List.replicate 5 (.step 0) ++ List.replicate 5 (.step 1)

theorem not_tracks_along_lostEntry :
    ¬ ∀ (userVa : Nat) (table : Nat → EntryWords) (labels : List HookLabel),
      Along nextHook (fun s label => ∀ t, nextHook s label = some t → t.Tracks ∧ s.gate.Grows t.gate)
        (.init userVa table) labels := by
  intro h
  have hWords : (execute nextHook (.init 0 fun _ => ⟨0, 0, 0, 0⟩) lostEntry).map
      (fun s => (s.gate.count, s.returned)) = some (1, [⟨0x1000, 0x1000⟩, ⟨0x2000, 0x1000⟩]) := by
    decide +kernel
  obtain ⟨s, hRun, hWords⟩ := Option.map_eq_some_iff.mp hWords
  obtain ⟨hCount, hReturned⟩ := Prod.mk.inj hWords
  have hTracks : Along nextHook (fun s label => ∀ t, nextHook s label = some t → t.Tracks)
      (.init 0 fun _ => ⟨0, 0, 0, 0⟩) lostEntry :=
    (h 0 _ lostEntry).imp fun _ _ _ hOk _ t hNext => (hOk t hNext).1
  have hEntries := (hTracks.last (by decide) hRun).count_eq
  rw [hCount, hReturned] at hEntries
  exact absurd hEntries (by decide)

end FlashCkpt.Gate
