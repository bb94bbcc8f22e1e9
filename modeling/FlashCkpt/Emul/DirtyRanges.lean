import FlashCkpt.Emul.GcrChunks

/-! The dirty set of GCR between its rounds. The insertions take the lock of the set one by
one; `snapshot_to` takes it once to copy the ranges into its static buffer and once more
to clear the set, and then hands out what the buffer holds. -/
namespace FlashCkpt.Emul.Gcr

open Transition RangeSet

/-- Where a thread is in `snapshot_to`, with the number of ranges it copied. -/
inductive Snapshot where
  | outside
  | copied (n : Nat)
  | cleared (n : Nat)
  deriving DecidableEq, Repr

def Snapshot.count : Snapshot → Nat
  | .outside => 0
  | .copied n | .cleared n => n

/-- The set and the buffer `s_buf` that all rounds share, with what has been handed out
and inserted since the start. -/
structure Collector where
  set : Ranges Nat
  buffer : List (Range Nat)
  snapshot : Nat → Snapshot
  handed : List (Range Nat)
  inserted : List (Range Nat)

def Collector.init : Collector := ⟨.empty, [], fun _ => .outside, [], []⟩

/-- One locked section of `add_and_merge_dirty_address` or `snapshot_to`, or the copy out
of the buffer, by some thread. -/
inductive Access where
  | insert (start stop : Nat)
  | snapshot (thread : Nat)
  | clear (thread : Nat)
  | handOut (thread : Nat)

/-- The entry of one thread is written. -/
def setAt {α : Type} (f : Nat → α) (thread : Nat) (value : α) : Nat → α :=
  fun t => if t = thread then value else f t

@[simp] theorem setAt_self {α : Type} (f : Nat → α) (thread : Nat) (value : α) :
    setAt f thread value thread = value := if_pos rfl

theorem setAt_of_ne {α : Type} (f : Nat → α) {thread t : Nat} (value : α) (h : t ≠ thread) :
    setAt f thread value t = f t := if_neg h

/-- `gcr_snapshot_dirty_set` writes the first ranges of the set over those of the buffer. -/
def Collector.fill (c : Collector) : List (Range Nat) :=
  c.set.list.take maxRanges ++ c.buffer.drop (c.set.list.take maxRanges).length

def nextAccess (c : Collector) : Access → Option Collector
  | .insert start stop =>
      some { c with set := c.set.insert start stop, inserted := c.inserted ++ [⟨start, stop⟩] }
  | .snapshot thread =>
      match c.snapshot thread with
      | .outside => some { c with
          buffer := c.fill
          snapshot := setAt c.snapshot thread (.copied (c.set.list.take maxRanges).length) }
      | _ => none
  | .clear thread =>
      match c.snapshot thread with
      | .copied n =>
          some { c with set := .empty, snapshot := setAt c.snapshot thread (.cleared n) }
      | _ => none
  | .handOut thread =>
      match c.snapshot thread with
      | .cleared n => some { c with
          snapshot := setAt c.snapshot thread .outside
          handed := c.handed ++ c.buffer.take n }
      | _ => none

/-- The ranges handed out, those that the rounds under way have in the buffer, and the set
have the bytes inserted so far. -/
def Collector.Complete (c : Collector) : Prop :=
  ∀ addr, Covered c.inserted addr ↔ Covered c.handed addr ∨
    (∃ thread, Covered (c.buffer.take (c.snapshot thread).count) addr) ∨ c.set.Has addr

/-- A snapshot is taken with no other thread in `snapshot_to` and of a set that fits into
the buffer; between the snapshot and the clear no new byte comes into the set. -/
def Collector.Quiet (c : Collector) : Access → Prop
  | .insert start stop => (∃ thread n, c.snapshot thread = .copied n) →
      ∀ addr, start ≤ addr → addr < stop → c.set.Has addr
  | .snapshot _ => (∀ thread, c.snapshot thread = .outside) ∧ c.set.list.length ≤ maxRanges
  | .clear _ | .handOut _ => True

/-- One thread at most is in `snapshot_to`. Before it clears the set it has all of it in
the buffer. -/
structure Collector.Inv (c : Collector) : Prop where
  complete : c.Complete
  one : ∀ t t', c.snapshot t ≠ .outside → c.snapshot t' ≠ .outside → t = t'
  held : ∀ t n, c.snapshot t = .copied n →
    ∀ addr, c.set.Has addr ↔ Covered (c.buffer.take n) addr

theorem Collector.inv_init : Collector.init.Inv where
  complete := by simp [Complete, init, Ranges.Has, Ranges.empty]
  one := fun _ _ h => absurd rfl h
  held := fun _ _ h => Snapshot.noConfusion h

/-- The buffered ranges are those of the one thread in `snapshot_to`. -/
theorem Collector.Inv.buffered {c : Collector} (h : c.Inv) {thread : Nat}
    (hIn : c.snapshot thread ≠ .outside) (addr : Nat) :
    (∃ t, Covered (c.buffer.take (c.snapshot t).count) addr) ↔
      Covered (c.buffer.take (c.snapshot thread).count) addr := by
  refine ⟨?_, fun hCovered => ⟨thread, hCovered⟩⟩
  rintro ⟨t, hCovered⟩
  by_cases hOut : c.snapshot t = .outside
  · rw [hOut] at hCovered
    simp [Snapshot.count] at hCovered
  · rwa [h.one t thread hOut hIn] at hCovered

theorem Collector.Inv.insert {c : Collector} (h : c.Inv) {start stop : Nat}
    (hQuiet : c.Quiet (.insert start stop)) :
    Inv { c with set := c.set.insert start stop, inserted := c.inserted ++ [⟨start, stop⟩] } where
  complete := by
    intro addr
    dsimp only
    rw [covered_append, h.complete addr, Ranges.has_insert]
    simp only [covered_cons, covered_nil, Range.Covers, or_false]
    constructor
    · rintro ((hHanded | hBuffered | hSet) | hNew)
      · exact .inl hHanded
      · exact .inr (.inl hBuffered)
      · exact .inr (.inr (.inr hSet))
      · exact .inr (.inr (.inl hNew))
    · rintro (hHanded | hBuffered | hNew | hSet)
      · exact .inl (.inl hHanded)
      · exact .inl (.inr (.inl hBuffered))
      · exact .inr hNew
      · exact .inl (.inr (.inr hSet))
  one := h.one
  held := by
    intro t n hCopied addr
    rw [← h.held t n hCopied addr, Ranges.has_insert]
    refine ⟨?_, .inr⟩
    rintro (⟨hLow, hHigh⟩ | hSet)
    · exact hQuiet ⟨t, n, hCopied⟩ addr hLow hHigh
    · exact hSet

/-- The only thread that is not outside. -/
theorem setAt_one {f : Nat → Snapshot} {thread : Nat} (h : ∀ t, t ≠ thread → f t = .outside)
    (value : Snapshot) (t t' : Nat) (ht : setAt f thread value t ≠ .outside)
    (ht' : setAt f thread value t' ≠ .outside) : t = t' := by
  have hThread : ∀ u, setAt f thread value u ≠ .outside → u = thread := by
    intro u hu
    by_contra hNe
    exact hu ((setAt_of_ne f value hNe).trans (h u hNe))
  rw [hThread t ht, hThread t' ht']

theorem Collector.Inv.others {c : Collector} (h : c.Inv) {thread : Nat}
    (hIn : c.snapshot thread ≠ .outside) : ∀ t, t ≠ thread → c.snapshot t = .outside := by
  intro t hNe
  by_contra hOut
  exact hNe (h.one t thread hOut hIn)

/-- What is buffered after one thread's entry is written and no other thread is inside. -/
theorem buffered_setAt {f : Nat → Snapshot} {thread : Nat}
    (hOthers : ∀ t, t ≠ thread → f t = .outside) (value : Snapshot) (buffer : List (Range Nat))
    (addr : Nat) :
    (∃ t, Covered (buffer.take (setAt f thread value t).count) addr) ↔
      Covered (buffer.take value.count) addr := by
  constructor
  · rintro ⟨t, hCovered⟩
    by_cases hSame : t = thread
    · rwa [hSame, setAt_self] at hCovered
    · rw [setAt_of_ne f value hSame, hOthers t hSame] at hCovered
      simp [Snapshot.count] at hCovered
  · intro hCovered
    exact ⟨thread, by rwa [setAt_self]⟩

/-- No other thread than the one whose entry is written has copied. -/
theorem copied_setAt {f : Nat → Snapshot} {thread : Nat}
    (hOthers : ∀ t, t ≠ thread → f t = .outside) {value : Snapshot} {t n : Nat}
    (h : setAt f thread value t = .copied n) : value = .copied n := by
  by_cases hSame : t = thread
  · rwa [hSame, setAt_self] at h
  · rw [setAt_of_ne f value hSame, hOthers t hSame] at h
    cases h

theorem nextAccess_clear {c d : Collector} {thread : Nat}
    (h : nextAccess c (.clear thread) = some d) : ∃ n, c.snapshot thread = .copied n ∧
      d = { c with set := .empty, snapshot := setAt c.snapshot thread (.cleared n) } := by
  rw [nextAccess] at h
  cases hPhase : c.snapshot thread with
  | copied n =>
      rw [hPhase] at h
      exact ⟨n, rfl, (Option.some.inj h).symm⟩
  | outside | cleared n => simp [hPhase] at h

theorem nextAccess_handOut {c d : Collector} {thread : Nat}
    (h : nextAccess c (.handOut thread) = some d) : ∃ n, c.snapshot thread = .cleared n ∧
      d = { c with
        snapshot := setAt c.snapshot thread .outside
        handed := c.handed ++ c.buffer.take n } := by
  rw [nextAccess] at h
  cases hPhase : c.snapshot thread with
  | cleared n =>
      rw [hPhase] at h
      exact ⟨n, rfl, (Option.some.inj h).symm⟩
  | outside | copied n => simp [hPhase] at h

/-- The snapshot has the set in the buffer. -/
theorem Collector.Inv.snapshot {c d : Collector} (h : c.Inv) {thread : Nat}
    (hQuiet : c.Quiet (.snapshot thread)) (hNext : nextAccess c (.snapshot thread) = some d) :
    d.Inv := by
  obtain ⟨hOutside, hFits⟩ := hQuiet
  rw [nextAccess, hOutside thread] at hNext
  cases hNext
  have hTake : c.fill.take (c.set.list.take maxRanges).length = c.set.list := by
    rw [Collector.fill, List.take_left, List.take_of_length_le hFits]
  refine ⟨fun addr => ?_, setAt_one (fun t _ => hOutside t) _, ?_⟩
  · dsimp only
    rw [h.complete addr, buffered_setAt (fun t _ => hOutside t), Snapshot.count, hTake]
    have hNone : ¬∃ t, Covered (c.buffer.take (c.snapshot t).count) addr := by
      rintro ⟨t, hCovered⟩
      rw [hOutside t] at hCovered
      simp [Snapshot.count] at hCovered
    simp [hNone, Ranges.Has]
  · intro t n hCopied addr
    cases copied_setAt (fun t _ => hOutside t) hCopied
    dsimp only
    rw [hTake]
    exact Iff.rfl

/-- What the clear erases is in the buffer. -/
theorem Collector.Inv.clear {c d : Collector} (h : c.Inv) {thread : Nat}
    (hNext : nextAccess c (.clear thread) = some d) : d.Inv := by
  obtain ⟨n, hPhase, rfl⟩ := nextAccess_clear hNext
  have hIn : c.snapshot thread ≠ .outside := by simp [hPhase]
  refine ⟨fun addr => ?_, setAt_one (h.others hIn) _, ?_⟩
  · dsimp only
    rw [h.complete addr, h.buffered hIn, buffered_setAt (h.others hIn),
      h.held thread n hPhase addr, hPhase]
    simp [Snapshot.count, Ranges.Has, Ranges.empty]
  · intro t m hCopied
    cases copied_setAt (h.others hIn) hCopied

theorem Collector.Inv.handOut {c d : Collector} (h : c.Inv) {thread : Nat}
    (hNext : nextAccess c (.handOut thread) = some d) : d.Inv := by
  obtain ⟨n, hPhase, rfl⟩ := nextAccess_handOut hNext
  have hIn : c.snapshot thread ≠ .outside := by simp [hPhase]
  refine ⟨fun addr => ?_, setAt_one (h.others hIn) _, ?_⟩
  · dsimp only
    rw [h.complete addr, h.buffered hIn, buffered_setAt (h.others hIn), hPhase, covered_append]
    simp [Snapshot.count, or_assoc]
  · intro t m hCopied
    cases copied_setAt (h.others hIn) hCopied

/-- The step lemma. -/
theorem Collector.Inv.next {c d : Collector} (h : c.Inv) {access : Access} (hQuiet : c.Quiet access)
    (hNext : nextAccess c access = some d) : d.Inv := by
  cases access with
  | insert start stop =>
      cases hNext
      exact h.insert hQuiet
  | snapshot thread => exact h.snapshot hQuiet hNext
  | clear thread => exact h.clear hNext
  | handOut thread => exact h.handOut hNext

/-- The run lemma: in every run of quiet steps nothing that was inserted is lost. -/
theorem complete_of_quiet (accesses : List Access)
    (hQuiet : Along nextAccess Collector.Quiet .init accesses) :
    Along nextAccess (fun c access => ∀ d, nextAccess c access = some d → d.Complete) .init
      accesses :=
  along_of_invariant (fun _ _ _ hQuiet (h : Collector.Inv _) hNext => h.next hQuiet hNext)
    (fun _ _ _ hQuiet h _ _ hNext => (h.next hQuiet hNext).complete) accesses .init
    Collector.inv_init hQuiet

/-- A page is marked, and a round takes it. -/
def oneRound : List Access := [.insert 4096 8192, .snapshot 0, .clear 0, .handOut 0]

theorem complete_oneRound :
    Along nextAccess (fun c access => ∀ d, nextAccess c access = some d → d.Complete) .init
      oneRound := by
  apply complete_of_quiet oneRound
  refine along_cons rfl ?_ (along_cons rfl ?_ (along_cons rfl trivial (along_cons rfl trivial trivial)))
  · rintro ⟨thread, n, hCopied⟩
    cases hCopied
  · exact ⟨fun _ => rfl, by decide⟩

/-- Another thread marks a page between the snapshot and the clear. -/
def markedInWindow : List Access := [.snapshot 0, .insert 4096 8192, .clear 0]

/-- The page is in no range that was handed out, in no buffer and not in the set. -/
theorem not_complete_markedInWindow :
    ¬ ∀ accesses, Along nextAccess (fun c access => ∀ d, nextAccess c access = some d → d.Complete)
      .init accesses := by
  intro h
  have hComplete := (((h markedInWindow) _ rfl).2 _ rfl).2 _ rfl |>.1 _ rfl
  have hLost := (hComplete 4096).mp ⟨⟨4096, 8192⟩, by decide, by decide⟩
  rcases hLost with ⟨_, hMem, _⟩ | ⟨thread, _, hMem, _⟩ | ⟨_, hMem, _⟩
  · cases hMem
  · cases List.mem_of_mem_take hMem
  · cases hMem

end FlashCkpt.Emul.Gcr
