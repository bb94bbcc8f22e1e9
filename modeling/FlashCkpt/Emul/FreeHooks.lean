import FlashCkpt.Emul.Rounds

/-! The free hooks against the rounds. A hook that has found no round in flight retires the
record and frees the memory in later steps, and does not look at what a round that begins
between them lists. -/
namespace FlashCkpt.Emul

open Transition

variable {Flags : Type}

/-- The ranges that a thread in `do_stop_and_copy` copies. -/
def Place.ranges : Place → List Region
  | .stop (.clear _ ranges) | .stop (.copy _ ranges) | .stop (.sweep ranges)
  | .stop (.bump ranges) | .stop (.clearPhase ranges) | .stop (.clearRequested ranges)
  | .stop (.finish ranges) => ranges
  | _ => []

/-- The memory is on the list of a round that has not ended. -/
def Listed (s : Machine Flags) (l : Region) : Prop :=
  l ∈ s.core.snap ∨ ∃ t, l ∈ (s.place t).ranges

/-- The memory that a thread behind `wait_until_ckpt_idle` is about to free. -/
def Place.released : Place → Option Region
  | .freeing .retire r | .freeing (.drop _) r | .freeing .realFree r => some r
  | _ => none

/-- A real free meets no memory that a round has listed. -/
def FreesApart (s : Machine Flags) : Label → Prop
  | .step t _ => ∀ r, s.place t = .freeing .realFree r → ∀ l, Listed s l → r.Apart l
  | _ => True

/-- A thread is about to take the snapshot of a round. -/
def Place.lists : Place → Bool
  | .stop (.snapshot _) | .phase1 .snapshot => true
  | _ => false

/-- A round lists no memory that a thread behind its wait is about to free. -/
def ListsApart (lib : Lib Flags) (s : Machine Flags) : Label → Prop
  | .step t _ => (s.place t).lists = true → ∀ t' r, (s.place t').released = some r →
      ∀ l ∈ lib.list s.core.tracked, r.Apart l
  | _ => True

/-- No thread behind its wait is about to free memory that is listed. -/
def Spared (s : Machine Flags) : Prop :=
  ∀ t r, (s.place t).released = some r → ∀ l, Listed s l → r.Apart l

variable {lib : Lib Flags} {cfg : Settings} {kind : Kind} {most : Option Nat}
  {s s' : Machine Flags} {c c' : Core Flags} {chance : Chance} {p p' : Place}

/-- With the flag clear no round has listed anything. -/
theorem Machine.Held.not_listed (h : s.Held kind most) (hFlag : s.core.inFlight = false)
    (l : Region) : ¬Listed s l := by
  rintro (hSnap | ⟨t, hRange⟩)
  · obtain ⟨t, hAt⟩ := h.somewhere
    obtain ⟨⟨stage, hReached⟩, _⟩ := hAt.facts
    rw [hReached.snap hFlag] at hSnap
    cases hSnap
  · cases hPlace : s.place t with
    | stop stop =>
        have hAt := h.at_inside (t := t) (by rw [hPlace]; rfl)
        rw [hPlace] at hAt hRange
        have hStage := hAt.2.1.inFlight
        rw [hFlag] at hStage
        cases stop with
        | readId | setInFlight _ => cases hRange
        | _ => cases hStage
    | _ =>
        rw [hPlace] at hRange
        cases hRange

theorem ranges_of_outside (h : p.inside = false) : p.ranges = [] := by
  cases p <;> first | rfl | cases h

/-- A step keeps the lists of the rounds, but for a snapshot. -/
structure Lists (lib : Lib Flags) (c : Core Flags) (p : Place) (c' : Core Flags) (p' : Place) :
    Prop where
  snap : ∀ l ∈ c'.snap, l ∈ c.snap ∨ p.lists = true ∧ l ∈ lib.list c.tracked
  ranges : ∀ l ∈ p'.ranges, l ∈ p.ranges ∨ p.lists = true ∧ l ∈ lib.list c.tracked

theorem lists_of_same (hSnap : c'.snap = c.snap) (hRanges : p'.ranges = p.ranges ∨ p'.ranges = []) :
    Lists lib c p c' p' where
  snap := fun _ hl => .inl (hSnap ▸ hl)
  ranges := by
    intro l hl
    rcases hRanges with hSame | hNone
    · exact .inl (hSame ▸ hl)
    · rw [hNone] at hl
      cases hl

theorem genKey_snap (rid : Nat) (c : Core Flags) : (c.genKey rid).snap = c.snap := by
  rw [Core.genKey]
  split <;> rfl

theorem lists_doStopAndCopy (lib : Lib Flags) (pages : Nat) (c : Core Flags) (stop : Stop) :
    Lists lib c (.stop stop) (doStopAndCopy lib pages c stop).1
      (doStopAndCopy lib pages c stop).2 := by
  cases stop with
  | readId | setInFlight _ | setPhase _ => exact lists_of_same rfl (.inr rfl)
  | genKey rid => exact lists_of_same (genKey_snap rid c) (.inr rfl)
  | snapshot rid => exact ⟨fun _ => .inl, fun _ hl => .inr ⟨rfl, hl⟩⟩
  | finish ranges =>
      refine ⟨fun _ hl => ?_, fun _ hl => ?_⟩
      · cases hl
      · cases hl
  | _ => exact lists_of_same rfl (.inl rfl)

theorem lists_doPhase1 (lib : Lib Flags) (created : Bool) (c : Core Flags) (phase1 : Phase1) :
    Lists lib c (.phase1 phase1) (doPhase1 lib created c phase1).1
      (doPhase1 lib created c phase1).2 := by
  cases phase1 with
  | genKey rid => exact lists_of_same (genKey_snap rid c) (.inr rfl)
  | snapshot =>
      refine ⟨fun _ hl => .inr ⟨rfl, hl⟩, fun _ hl => ?_⟩
      cases hl
  | create => cases created <;> exact lists_of_same rfl (.inr rfl)
  | _ => exact lists_of_same rfl (.inr rfl)

theorem lists_doPhase34 {phase34 : Phase34} (hNext : doPhase34 c phase34 = some (c', p')) :
    Lists lib c (.phase34 phase34) c' p' := by
  cases phase34 with
  | join =>
      obtain ⟨b, -, -, rfl, rfl⟩ := doPhase34_join hNext
      exact lists_of_same rfl (.inr rfl)
  | finish =>
      cases hNext
      refine ⟨fun _ hl => ?_, fun _ hl => ?_⟩
      · cases hl
      · cases hl
  | _ =>
      cases hNext
      exact lists_of_same rfl (.inr rfl)

theorem lists_advance (hNext : advance lib cfg chance c p = some (c', p')) :
    Lists lib c p c' p' := by
  cases p with
  | out => cases hNext
  | trigger trigger =>
      have hEq : maybeCheckpoint lib.kind cfg chance.elapsed c trigger = (c', p') :=
        Option.some.inj hNext
      rcases maybeCheckpoint_cases lib.kind cfg chance.elapsed c trigger with
        ⟨hSame, hOut⟩ | ⟨_, _, _, hEnter⟩ | ⟨_, _, _, hEnter⟩ | ⟨_, _, hEnter⟩
      · rw [hEq] at hSame hOut
        exact lists_of_same hSame.snap (.inr (ranges_of_outside hOut))
      · cases hEq.symm.trans hEnter
        exact lists_of_same rfl (.inr rfl)
      · cases hEq.symm.trans hEnter
        exact lists_of_same rfl (.inr rfl)
      · cases hEq.symm.trans hEnter
        exact lists_of_same rfl (.inr rfl)
  | stop stop =>
      simp only [advance, Option.ite_none_right_eq_some, Option.some.injEq] at hNext
      have h := lists_doStopAndCopy lib chance.pages c stop
      rwa [hNext.2] at h
  | phase1 phase1 =>
      have h := lists_doPhase1 lib chance.created c phase1
      rwa [Option.some.inj hNext] at h
  | phase34 phase34 => exact lists_doPhase34 hNext
  | freeing freeing r =>
      obtain ⟨hSame, hOut⟩ := freeHook_cases hNext
      exact lists_of_same hSame.snap (.inr (ranges_of_outside hOut))
  | handler handler =>
      obtain ⟨hSame, hOut⟩ := handle_cases lib.kind cfg c handler
      rw [Option.some.inj hNext] at hSame hOut
      exact lists_of_same hSame.snap (.inr (ranges_of_outside hOut))

/-- A thread gets behind its wait with the flag clear. -/
theorem released_advance (hNext : advance lib cfg chance c p = some (c', p')) {r : Region}
    (hReleased : p'.released = some r) :
    p.released = some r ∨ c.inFlight = false ∧ p.lists = false := by
  have hSyncs : p.syncs = true → p.released = some r ∨ c.inFlight = false ∧ p.lists = false := by
    intro h
    have hStays := advance_syncs h hNext
    cases p' <;> first | cases hReleased | cases hStays
  cases p with
  | freeing freeing r' =>
      cases freeing with
      | test =>
          cases hNext
          cases hFlag : c.inFlight with
          | false => exact .inr ⟨rfl, rfl⟩
          | true =>
              rw [hFlag] at hReleased
              cases hReleased
      | waiting =>
          simp only [advance, freeHook, Option.ite_none_left_eq_some] at hNext
          exact .inr ⟨Bool.eq_false_iff.mpr hNext.1, rfl⟩
      | realFree =>
          cases hNext
          cases hReleased
      | _ =>
          cases hNext
          exact .inl hReleased
  | handler handler =>
      have h := handle_place lib.kind cfg c handler
      rw [Option.some.inj hNext] at h
      rcases h with hOut | ⟨q, hHandler⟩
      · obtain rfl : p' = .out := hOut
        cases hReleased
      · obtain rfl : p' = .handler q := hHandler
        cases hReleased
  | _ => exact hSyncs rfl

theorem listed_update {t : Nat} {l : Region} (h : Listed ⟨c, Function.update s.place t p⟩ l) :
    l ∈ c.snap ∨ l ∈ p.ranges ∨ ∃ t', l ∈ (s.place t').ranges := by
  rcases h with hSnap | ⟨t', hRange⟩
  · exact .inl hSnap
  · dsimp only at hRange
    by_cases hSame : t' = t
    · rw [hSame, Function.update_self] at hRange
      exact .inr (.inl hRange)
    · rw [Function.update_of_ne hSame] at hRange
      exact .inr (.inr ⟨t', hRange⟩)

/-- The step lemma. -/
theorem Spared.next (h : Spared s) (hHeld : s.Held kind most) {label : Label}
    (hLists : ListsApart lib s label) (hNext : nextStep lib cfg s label = some s') :
    Spared s' := by
  intro t r hReleased l hListed
  cases effect_of_next hNext with
  | start u p hOut hStarts =>
      have hRanges : p.ranges = [] := by cases hStarts <;> rfl
      have hNone : p.released = none := by cases hStarts <;> rfl
      have hOld : Listed s l := by
        rcases listed_update hListed with hSnap | hRange | hRange
        · exact .inl hSnap
        · rw [hRanges] at hRange
          cases hRange
        · exact .inr hRange
      dsimp only at hReleased
      by_cases hSame : t = u
      · rw [hSame, Function.update_self, hNone] at hReleased
        cases hReleased
      · rw [Function.update_of_ne hSame] at hReleased
        exact h t r hReleased l hOld
  | tracked x => exact h t r hReleased l hListed
  | copied b _ => exact h t r hReleased l hListed
  | step u chance c p hStep =>
      have hKeeps := lists_advance hStep
      have hOld : Listed s l ∨ (s.place u).lists = true ∧ l ∈ lib.list s.core.tracked := by
        rcases listed_update hListed with hSnap | hRange | hRange
        · exact (hKeeps.snap l hSnap).imp_left .inl
        · exact (hKeeps.ranges l hRange).imp_left fun h => .inr ⟨u, h⟩
        · exact .inl (.inr hRange)
      have hBefore : (s.place t).released = some r ∨
          s.core.inFlight = false ∧ (s.place u).lists = false := by
        dsimp only at hReleased
        by_cases hSame : t = u
        · rw [hSame, Function.update_self] at hReleased
          exact hSame ▸ released_advance hStep hReleased
        · rw [Function.update_of_ne hSame] at hReleased
          exact .inl hReleased
      rcases hBefore with hBefore | ⟨hFlag, hNot⟩
      · rcases hOld with hOld | ⟨hHere, hNew⟩
        · exact h t r hBefore l hOld
        · exact hLists hHere t r hBefore l hNew
      · rcases hOld with hOld | ⟨hHere, _⟩
        · exact (hHeld.not_listed hFlag l hOld).elim
        · rw [hNot] at hHere
          cases hHere

theorem Spared.freesApart (h : Spared s) (label : Label) : FreesApart s label := by
  cases label with
  | step t chance => exact fun r hPlace l hListed => h t r (by rw [hPlace]; rfl) l hListed
  | _ => trivial

theorem spared_init : Spared (Machine.init : Machine Flags) := by
  intro t r hReleased
  cases hReleased

theorem no_limit (m : Nat) (h : none = some m) : m < 2 ^ 31 := by cases h

theorem not_limited (s : Machine Flags) (label : Label) : Limited none s label := by
  cases label with
  | step t chance => exact fun _ _ m h => by cases h
  | _ => trivial

/-- In every run in which threads enter rounds alone and no round lists memory that a thread
is about to free, no listed memory is freed. -/
theorem freesApart_of_listsApart (lib : Lib Flags) (cfg : Settings) (labels : List Label)
    (hApart : Along (nextStep lib cfg)
      (fun s label => Alone s label ∧ ListsApart lib s label) .init labels) :
    Along (nextStep lib cfg) FreesApart .init labels := by
  have hStep : ∀ s label s', (Alone s label ∧ ListsApart lib s label) →
      s.Held lib.kind none ∧ Spared s → nextStep lib cfg s label = some s' →
      s'.Held lib.kind none ∧ Spared s' := by
    intro s label s' hOk h hNext
    exact ⟨h.1.next no_limit hOk.1 (not_limited s label) hNext, h.2.next h.1 hOk.2 hNext⟩
  exact along_of_invariant hStep (fun _ label _ _ h _ => h.2.freesApart label) labels .init
    ⟨Machine.held_init lib.kind none, spared_init⟩ hApart

theorem not_freesApart_of_listed {labels : List Label} {t : Nat} {r l : Region}
    (hRun : execute (nextStep lib cfg) .init labels = some s)
    (hFree : s.place t = .freeing .realFree r) (hListed : Listed s l) (hMeets : ¬r.Apart l) :
    ¬Along (nextStep lib cfg) FreesApart .init (labels ++ [.step t chance]) := by
  intro h
  have hNext : nextStep lib cfg s (.step t chance) =
      some ⟨s.core, Function.update s.place t .out⟩ := by
    rw [nextStep, hFree]
    rfl
  exact hMeets ((h.reached hRun _ hNext).1 r hFree l hListed)

/-- An allocation of a page. -/
def page : Region := ⟨0x200000, 0x1000⟩

/-- A thread begins a round, and goes on for some accesses. -/
def beginsRound (accesses : Nat) : List Label :=
  requests 0 ++ List.replicate (1 + accesses) (.step 0 due)

/-- Another thread allocates, and the first one lists its page in Phase 1. -/
def listsPage : List Label := .record 1 page :: beginsRound 4

/-- The run is one of PHOS up to its snapshot. -/
theorem freesApart_listsPage : Along (nextStep Phos.lib twoThreads) FreesApart .init listsPage := by
  have hOk : ∀ {s : Machine PhosFlags}, s.place 0 ≠ .trigger .phaseIdle →
      s.place 0 ≠ .trigger .phaseDone → (s.place 0).lists = false →
      Alone s (.step 0 due) ∧ ListsApart Phos.lib s (.step 0 due) := by
    intro s hIdle hDone hNot
    refine ⟨alone_of_place hIdle hDone, fun h => ?_⟩
    rw [hNot] at h
    cases h
  apply freesApart_of_listsApart Phos.lib twoThreads _
  refine along_cons rfl ⟨trivial, trivial⟩ (along_cons rfl ⟨trivial, trivial⟩ ?_)
  iterate 8 refine along_cons rfl (hOk (by decide) (by decide) rfl) ?_
  refine along_cons rfl ⟨fun _ t' hNe => ?_, fun h => by cases h⟩ ?_
  · iterate 9 refine (congrArg Place.exposed (Function.update_of_ne hNe _ _)).trans ?_
    rfl
  iterate 3 refine along_cons rfl (hOk (by decide) (by decide) rfl) ?_
  refine along_cons rfl ⟨alone_of_place (by decide) (by decide), fun _ t' r hReleased => ?_⟩ trivial
  exfalso
  by_cases hSame : t' = 0
  · rw [hSame] at hReleased
    cases hReleased
  · iterate 13
      replace hReleased :=
        (congrArg Place.released (Function.update_of_ne hSame _ _)).symm.trans hReleased
    cases hReleased

/-- The other thread finds no round in flight when it frees the page. The round lists the
page before the thread calls the real free. -/
def passesWait (accesses retires : Nat) : List Label :=
  .record 0 page :: .mark 0 page :: .free 1 page :: .step 1 due ::
    beginsRound accesses ++ List.replicate retires (.step 1 due)

theorem not_freesApart_passesWait :
    (¬ ∀ labels, Along (nextStep Gcr.lib twoThreads) FreesApart .init labels) ∧
      ¬ ∀ labels, Along (nextStep Phos.lib twoThreads) FreesApart .init labels := by
  have hMeets : ¬page.Apart page := by decide
  constructor
  · intro h
    have hEnd : (execute (nextStep Gcr.lib twoThreads) .init (passesWait 5 2)).map
        (fun s => (s.place 0, s.place 1)) =
          some (.stop (.clear 0 [page]), .freeing .realFree page) := by decide +kernel
    obtain ⟨s, hRun, hPlaces⟩ := Option.map_eq_some_iff.mp hEnd
    obtain ⟨hRound, hFree⟩ := Prod.mk.inj hPlaces
    have hListed : Listed s page := .inr ⟨0, by rw [hRound]; exact List.mem_singleton_self page⟩
    exact not_freesApart_of_listed hRun hFree hListed hMeets (h (passesWait 5 2 ++ [.step 1 due]))
  · intro h
    have hEnd : (execute (nextStep Phos.lib twoThreads) .init (passesWait 4 1)).map
        (fun s => (s.core.snap, s.place 1)) = some ([page], .freeing .realFree page) := by
      decide +kernel
    obtain ⟨s, hRun, hPlaces⟩ := Option.map_eq_some_iff.mp hEnd
    obtain ⟨hRound, hFree⟩ := Prod.mk.inj hPlaces
    have hListed : Listed s page := .inl (by rw [hRound]; exact List.mem_singleton_self page)
    exact not_freesApart_of_listed hRun hFree hListed hMeets (h (passesWait 4 1 ++ [.step 1 due]))

end FlashCkpt.Emul
