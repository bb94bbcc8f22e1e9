import FlashCkpt.Emul.Machine

/-! Threads that wait in `wait_until_ckpt_idle`. The flag they wait for is cleared by a
thread inside a round only, and a round of PHOS goes on in a later synchronise call. -/
namespace FlashCkpt.Emul

open Transition

variable {Flags : Type}

/-- In the loop of `wait_until_ckpt_idle`. -/
def Place.waits : Place → Bool
  | .freeing .waiting _ => true
  | _ => false

/-- Every application thread waits for the flag, which no thread can clear. -/
structure Deadlocked (lib : Lib Flags) (cfg : Settings) (s : Machine Flags) : Prop where
  inFlight : s.core.inFlight = true
  waits : ∀ t < cfg.threads, (s.place t).waits = true
  stuck : ∀ labels s', execute (nextStep lib cfg) s labels = some s' → s'.core.inFlight = true

/-- A free finds the flag clear, or some other application thread does not wait. -/
def LeavesOne (cfg : Settings) (s : Machine Flags) : Label → Prop
  | .step t _ => ∀ r, s.place t = .freeing .test r → s.core.inFlight = true →
      ∃ t' < cfg.threads, t' ≠ t ∧ (s.place t').waits = false
  | _ => True

/-- The application threads run the hooks, and the other numbers the handlers. -/
structure Apps (cfg : Settings) (s : Machine Flags) : Prop where
  hooks : ∀ t < cfg.threads, ∀ p, s.place t ≠ .handler p
  handlers : ∀ t, cfg.threads ≤ t → s.place t = .out ∨ ∃ p, s.place t = .handler p

/-- Every application thread waits. -/
def Blocked (cfg : Settings) (s : Machine Flags) : Prop :=
  s.core.inFlight = true ∧ ∀ t < cfg.threads, (s.place t).waits = true

variable {lib : Lib Flags} {cfg : Settings} {s s' : Machine Flags} {c : Core Flags}
  {chance : Chance} {p : Place}

theorem apps_init : Apps cfg (Machine.init : Machine Flags) where
  hooks := fun _ _ _ h => Place.noConfusion h
  handlers := fun _ _ => .inl rfl

theorem handle_inFlight (kind : Kind) (cfg : Settings) (c : Core Flags) (h : Handler) :
    (handle kind cfg c h).1.inFlight = c.inFlight := by
  cases h with
  | startTest => cases kind <;> rfl
  | _ => rfl

/-- A thread in a hook stays in it or leaves it. It comes into the loop from a test that
finds the flag set. -/
theorem advance_hook (hPlace : ∀ h, p ≠ .handler h) {p' : Place} {c' : Core Flags}
    (hNext : advance lib cfg chance c p = some (c', p')) :
    (∀ h, p' ≠ .handler h) ∧
      (p'.waits = true → c.inFlight = true ∧ c'.inFlight = true ∧ ∃ r, p = .freeing .test r) := by
  have hSyncs : p.syncs = true → (∀ h, p' ≠ .handler h) ∧
      (p'.waits = true → c.inFlight = true ∧ c'.inFlight = true ∧ ∃ r, p = .freeing .test r) := by
    intro h
    have hStays := advance_syncs h hNext
    cases p' <;>
      first | exact ⟨fun _ h => Place.noConfusion h, fun h => Bool.noConfusion h⟩ | cases hStays
  cases p with
  | freeing freeing r =>
      cases freeing with
      | test =>
          cases hNext
          refine ⟨fun _ h => Place.noConfusion h, fun hWaits => ?_⟩
          cases hFlag : c.inFlight with
          | true => exact ⟨rfl, rfl, r, rfl⟩
          | false =>
              rw [hFlag] at hWaits
              cases hKind : lib.kind <;> simp [hKind, Kind.afterWait, Place.waits] at hWaits
      | waiting =>
          simp only [advance, freeHook, Option.ite_none_left_eq_some] at hNext
          cases hNext.2
          refine ⟨fun _ h => Place.noConfusion h, fun hWaits => ?_⟩
          cases hKind : lib.kind <;> simp [hKind, Kind.afterWait, Place.waits] at hWaits
      | _ =>
          cases hNext
          exact ⟨fun _ h => Place.noConfusion h, fun h => Bool.noConfusion h⟩
  | handler h => exact (hPlace h rfl).elim
  | _ => exact hSyncs rfl

/-- A handler runs on, and leaves the flag alone. -/
theorem advance_handler (hPlace : p = .out ∨ ∃ h, p = .handler h) {p' : Place} {c' : Core Flags}
    (hNext : advance lib cfg chance c p = some (c', p')) :
    (p' = .out ∨ ∃ h, p' = .handler h) ∧ c'.inFlight = c.inFlight := by
  rcases hPlace with rfl | ⟨h, rfl⟩
  · cases hNext
  · have hPlace := handle_place lib.kind cfg c h
    have hFlag := handle_inFlight lib.kind cfg c h
    rw [Option.some.inj hNext] at hPlace hFlag
    exact ⟨hPlace, hFlag⟩

theorem Apps.update {t : Nat} (h : Apps cfg s) (hHook : t < cfg.threads → ∀ q, p ≠ .handler q)
    (hHandler : cfg.threads ≤ t → p = .out ∨ ∃ q, p = .handler q) :
    Apps cfg ⟨c, Function.update s.place t p⟩ where
  hooks := by
    intro t' hApp q
    dsimp only
    by_cases hSame : t' = t
    · rw [hSame, Function.update_self]
      exact hHook (hSame ▸ hApp) q
    · rw [Function.update_of_ne hSame]
      exact h.hooks t' hApp q
  handlers := by
    intro t' hOther
    dsimp only
    by_cases hSame : t' = t
    · rw [hSame, Function.update_self]
      exact hHandler (hSame ▸ hOther)
    · rw [Function.update_of_ne hSame]
      exact h.handlers t' hOther

theorem Apps.next {label : Label} (h : Apps cfg s) (hNext : nextStep lib cfg s label = some s') :
    Apps cfg s' := by
  cases effect_of_next hNext with
  | start t p _ hStarts =>
      cases hStarts with
      | sync hApp | free hApp r =>
          exact h.update (fun _ _ h => Place.noConfusion h)
            fun hOther => absurd hApp (Nat.not_lt.mpr hOther)
      | signal hOther q =>
          exact h.update (fun hApp => absurd hApp (Nat.not_lt.mpr hOther)) fun _ => .inr ⟨q, rfl⟩
  | tracked x => exact ⟨h.hooks, h.handlers⟩
  | copied b _ => exact ⟨h.hooks, h.handlers⟩
  | step t chance c p hStep =>
      exact h.update (fun hApp => (advance_hook (h.hooks t hApp) hStep).1)
        fun hOther => (advance_handler (h.handlers t hOther) hStep).1

theorem Apps.run (h : Apps cfg s) {labels : List Label}
    (hRun : execute (nextStep lib cfg) s labels = some s') : Apps cfg s' :=
  invariant_execute (fun _ _ _ (h : Apps cfg _) hNext => h.next hNext) labels s s' h hRun

/-- A thread that waits stays there while the flag is set. -/
theorem advance_waits (hWaits : p.waits = true) (hFlag : c.inFlight = true) :
    advance lib cfg chance c p = none := by
  cases p with
  | freeing freeing r =>
      cases freeing with
      | waiting => exact if_pos hFlag
      | _ => cases hWaits
  | _ => cases hWaits

/-- When every application thread waits, the others leave the flag as it is. -/
theorem Blocked.next {label : Label} (h : Blocked cfg s) (hApps : Apps cfg s)
    (hNext : nextStep lib cfg s label = some s') : Blocked cfg s' := by
  have hKeep : ∀ t, cfg.threads ≤ t → ∀ p, ∀ t' < cfg.threads,
      (Function.update s.place t p t').waits = true := by
    intro t hOther p t' hApp
    rw [Function.update_of_ne (Nat.ne_of_lt (hApp.trans_le hOther))]
    exact h.2 t' hApp
  cases effect_of_next hNext with
  | start t p hOut hStarts =>
      cases hStarts with
      | sync hApp | free hApp r =>
          have hWaits := h.2 t hApp
          rw [hOut] at hWaits
          cases hWaits
      | signal hOther q => exact ⟨h.1, hKeep t hOther _⟩
  | tracked x => exact h
  | copied b _ => exact h
  | step t chance c p hStep =>
      by_cases hApp : t < cfg.threads
      · rw [advance_waits (h.2 t hApp) h.1] at hStep
        cases hStep
      · have hOther := Nat.not_lt.mp hApp
        exact ⟨(advance_handler (hApps.handlers t hOther) hStep).2.trans h.1, hKeep t hOther p⟩

/-- All wait only after a free that found the flag set and no other thread left. -/
theorem Blocked.of_next {label : Label} (hApps : Apps cfg s)
    (hNext : nextStep lib cfg s label = some s') (h : Blocked cfg s') :
    Blocked cfg s ∨ ¬LeavesOne cfg s label := by
  obtain ⟨hFlag', hWaits⟩ := h
  have hOthers : ∀ {t c p}, s' = ⟨c, Function.update s.place t p⟩ →
      ∀ t' < cfg.threads, t' ≠ t → (s.place t').waits = true := by
    rintro t c p rfl t' hApp hNe
    have h := hWaits t' hApp
    dsimp only at h
    rwa [Function.update_of_ne hNe] at h
  cases effect_of_next hNext with
  | start t p hOut hStarts =>
      cases hStarts with
      | sync hApp | free hApp r =>
          have h := hWaits t hApp
          dsimp only at h
          rw [Function.update_self] at h
          cases h
      | signal hOther q =>
          exact .inl ⟨hFlag', fun t' hApp =>
            hOthers rfl t' hApp (Nat.ne_of_lt (hApp.trans_le hOther))⟩
  | tracked x => exact .inl ⟨hFlag', hWaits⟩
  | copied b _ => exact .inl ⟨hFlag', hWaits⟩
  | step t chance c p hStep =>
      by_cases hApp : t < cfg.threads
      · have h := hWaits t hApp
        dsimp only at h
        rw [Function.update_self] at h
        obtain ⟨hFlag, _, r, hTest⟩ := (advance_hook (hApps.hooks t hApp) hStep).2 h
        refine .inr fun hLeaves => ?_
        obtain ⟨t', hApp', hNe, hNot⟩ := hLeaves r hTest hFlag
        rw [hOthers rfl t' hApp' hNe] at hNot
        cases hNot
      · have hOther := Nat.not_lt.mp hApp
        refine .inl ⟨?_, fun t' hApp =>
          hOthers rfl t' hApp (Nat.ne_of_lt (hApp.trans_le hOther))⟩
        rw [← (advance_handler (hApps.handlers t hOther) hStep).2]
        exact hFlag'

/-- The last thread that comes to wait. -/
theorem blocked_of_not_leavesOne {label : Label} (hNext : nextStep lib cfg s label = some s')
    (h : ¬LeavesOne cfg s label) : Blocked cfg s' := by
  cases label with
  | step t chance =>
      simp only [LeavesOne, not_forall, not_exists, not_and, Bool.not_eq_false] at h
      obtain ⟨r, hTest, hFlag, hAll⟩ := h
      rw [nextStep, hTest, advance, freeHook, hFlag] at hNext
      cases hNext
      refine ⟨hFlag, fun t' hApp => ?_⟩
      dsimp only
      by_cases hSame : t' = t
      · rw [hSame, Function.update_self]
        rfl
      · rw [Function.update_of_ne hSame]
        exact hAll t' hApp hSame
  | _ => exact (h trivial).elim

/-- Threads that all wait do so for ever. -/
theorem Blocked.deadlocked (h : Blocked cfg s) (hApps : Apps cfg s) : Deadlocked lib cfg s where
  inFlight := h.1
  waits := h.2
  stuck := fun labels s' hRun => (invariant_execute
    (fun _ _ _ (h : Apps cfg _ ∧ Blocked cfg _) hNext => ⟨h.1.next hNext, h.2.next h.1 hNext⟩)
    labels s s' ⟨hApps, h⟩ hRun).2.1

theorem not_blocked_init : ¬Blocked cfg (Machine.init : Machine Flags) :=
  fun h => Bool.noConfusion h.1

/-- In every run, no state is a deadlock if and only if each free leaves a thread that does
not wait. -/
theorem deadlockFree_along_iff (lib : Lib Flags) (cfg : Settings) (labels : List Label) :
    Along (nextStep lib cfg)
        (fun s label => ∀ s', nextStep lib cfg s label = some s' → ¬Deadlocked lib cfg s') .init
        labels ↔
      Along (nextStep lib cfg) (LeavesOne cfg) .init labels := by
  have hInit : Apps cfg (Machine.init : Machine Flags) ∧ ¬Blocked cfg (Machine.init : Machine Flags) :=
    ⟨apps_init, not_blocked_init⟩
  constructor
  · have hStep : ∀ s label s', (∀ s', nextStep lib cfg s label = some s' → ¬Deadlocked lib cfg s') →
        Apps cfg s ∧ ¬Blocked cfg s → nextStep lib cfg s label = some s' →
        Apps cfg s' ∧ ¬Blocked cfg s' := by
      intro s label s' hFree h hNext
      refine ⟨h.1.next hNext, fun hBlocked => ?_⟩
      exact hFree s' hNext (hBlocked.deadlocked (h.1.next hNext))
    refine along_of_invariant hStep ?_ labels _ hInit
    intro s label s' hFree h hNext
    by_contra hLeaves
    exact hFree s' hNext ((blocked_of_not_leavesOne hNext hLeaves).deadlocked (h.1.next hNext))
  · have hStep : ∀ s label s', LeavesOne cfg s label → Apps cfg s ∧ ¬Blocked cfg s →
        nextStep lib cfg s label = some s' → Apps cfg s' ∧ ¬Blocked cfg s' := by
      intro s label s' hLeaves h hNext
      refine ⟨h.1.next hNext, fun hBlocked => ?_⟩
      rcases hBlocked.of_next h.1 hNext with hOld | hNot
      · exact h.2 hOld
      · exact hNot hLeaves
    refine along_of_invariant hStep ?_ labels _ hInit
    intro s label s' hLeaves h hNext s'' hNext'' hDeadlocked
    exact (hStep s label s'' hLeaves h hNext'').2 ⟨hDeadlocked.inFlight, hDeadlocked.waits⟩

theorem oneRound_small : 1 < 2 ^ 31 := by decide

/-- A single thread, and one round when its delay is over. -/
def oneThread : Settings := ⟨1, 1, oneRound_small, some 0x1000000, false, true, false⟩

/-- The thread allocates, synchronises, takes the round through Phase 1, and frees. -/
def syncThenFree : List Label :=
  .record 0 ⟨0x200000, 0x1000⟩ :: .sync 0 :: List.replicate 16 (.step 0 ⟨true, true, 0⟩) ++
    [.free 0 ⟨0x200000, 0x1000⟩, .step 0 ⟨true, true, 0⟩]

/-- It waits for a flag that only its own next synchronise call would clear. -/
theorem not_deadlockFree_syncThenFree :
    ¬ ∀ labels, Along (nextStep Phos.lib oneThread)
      (fun s label => ∀ s', nextStep Phos.lib oneThread s label = some s' →
        ¬Deadlocked Phos.lib oneThread s') .init labels := by
  intro h
  have hEnd : (execute (nextStep Phos.lib oneThread) .init syncThenFree).map
      (fun s => (s.core.inFlight, (s.place 0).waits)) = some (true, true) := by decide +kernel
  obtain ⟨s, hRun, hEnd⟩ := Option.map_eq_some_iff.mp hEnd
  obtain ⟨hFlag, hWaits⟩ := Prod.mk.inj hEnd
  apply (h syncThenFree).last (List.cons_ne_nil _ _) hRun
  have hBlocked : Blocked oneThread s := by
    refine ⟨hFlag, fun t hApp => ?_⟩
    obtain rfl : t = 0 := Nat.lt_one_iff.mp hApp
    exact hWaits
  exact hBlocked.deadlocked (apps_init.run hRun)

end FlashCkpt.Emul
