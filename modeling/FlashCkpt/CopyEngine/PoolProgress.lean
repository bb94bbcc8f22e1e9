import FlashCkpt.CopyEngine.IvBudget

/-! The pool does not come to a standstill. A thread that waits for entries, for an idle channel or
for a token waits for threads that can go on and for the engine. A control entry is released by
the push behind it, so that nobody may wait for the channel in between. -/
namespace FlashCkpt.CopyEngine

open Channel Tally Transition

variable {m : Nat} {Iv : Type}

namespace Channel

/-- Some entry waits for a push that is not yet queued. -/
def Trailing (n : Nat) (c : Channel Iv) : Prop :=
  ∃ e ∈ c.unretired n, c.queuedValue < e.trackingSemaphoreValue

/-- No entry waits for more than the next push. -/
def Bounded (n : Nat) (c : Channel Iv) : Prop :=
  ∀ e ∈ c.unretired n, e.trackingSemaphoreValue ≤ c.queuedValue + 1

section Drain

variable {csl : Csl Iv} {n claimed : Nat} {taken : Multiset Nat} {c : Channel Iv}

theorem exists_engineStep (csl : Csl Iv) (h : c.engine.get ≠ c.cpuPut) :
    ∃ c', c.engineStep csl n = some c' := by
  rw [engineStep, if_neg h]
  dsimp only
  split
  · exact ⟨_, rfl⟩
  · split <;> exact ⟨_, rfl⟩

/-- The engine's steps on a channel by itself. -/
def engineNext (csl : Csl Iv) (n : Nat) (c : Channel Iv) (_ : Unit) : Option (Channel Iv) :=
  c.engineStep csl n

/-- The engine comes to the end of the entry it is at. -/
theorem engine_finishes_entry (csl : Csl Iv) (hInv : c.Inv n claimed taken)
    (hSome : c.engine.get ≠ c.cpuPut) :
    CanReach (engineNext csl n) (fun _ => True) c fun c' =>
      (∃ engine, c' = { c with engine := engine }) ∧ c'.Inv n claimed taken ∧
        (c'.unfinished n).length + 1 = (c.unfinished n).length := by
  generalize hLeft : (c.gpfifoEntries c.engine.get).records.length - c.engine.done = left
  induction left generalizing c with
  | zero =>
      obtain ⟨c', hStep⟩ := exists_engineStep (n := n) csl hSome
      have hTaken : engineNext csl n c () = some c' := hStep
      have hInv' := hInv.engineStep hStep
      refine .step trivial hTaken (.here ⟨System.engineStep_engine hStep, hInv', ?_⟩)
      rw [engineStep, if_neg hSome] at hStep
      dsimp only at hStep
      rw [List.getElem?_eq_none (by omega)] at hStep
      rw [hInv.unfinished_cons hSome]
      dsimp only at hStep
      split at hStep <;> cases hStep <;> rfl
  | succ left ih =>
      have hDone : c.engine.done < (c.gpfifoEntries c.engine.get).records.length := by omega
      obtain ⟨c', hStep⟩ := exists_engineStep (n := n) csl hSome
      have hTaken : engineNext csl n c () = some c' := hStep
      have hInv' := hInv.engineStep hStep
      obtain ⟨engine, rfl⟩ := System.engineStep_engine hStep
      have hNext : engine.get = c.engine.get ∧ engine.done = c.engine.done + 1 := by
        rw [engineStep, if_neg hSome] at hStep
        dsimp only at hStep
        rw [List.getElem?_eq_getElem hDone] at hStep
        cases hStep
        exact ⟨rfl, rfl⟩
      have hLess : (c.gpfifoEntries engine.get).records.length - engine.done = left := by
        rw [hNext.1, hNext.2]
        omega
      have hSame : ({ c with engine := engine } : Channel Iv).unfinished n = c.unfinished n := by
        rw [unfinished, unfinished, hNext.1]
      refine .step trivial hTaken ((ih hInv' (hNext.1 ▸ hSome) hLess).bind fun c'' h => .here ?_)
      obtain ⟨⟨engine', rfl⟩, hInv'', hLength⟩ := h
      exact ⟨⟨engine', rfl⟩, hInv'', hSame ▸ hLength⟩

/-- The engine comes to the end of all that is queued. -/
theorem engine_finishes (csl : Csl Iv) (hInv : c.Inv n claimed taken) :
    CanReach (engineNext csl n) (fun _ => True) c fun c' =>
      (∃ engine, c' = { c with engine := engine }) ∧ c'.Inv n claimed taken ∧ c'.unfinished n = [] := by
  generalize hLength : (c.unfinished n).length = length
  induction length generalizing c with
  | zero => exact .here ⟨⟨c.engine, rfl⟩, hInv, List.length_eq_zero_iff.mp hLength⟩
  | succ length ih =>
      have hSome : c.engine.get ≠ c.cpuPut := by
        intro hNone
        rw [unfinished, hNone, GetPutRing.contents_self] at hLength
        cases hLength
      refine (engine_finishes_entry csl hInv hSome).bind fun c' h => ?_
      obtain ⟨⟨engine, rfl⟩, hInv', hOne⟩ := h
      refine (ih hInv' (by omega)).bind fun c'' h => .here ?_
      obtain ⟨⟨engine', rfl⟩, hInv'', hNone⟩ := h
      exact ⟨⟨engine', rfl⟩, hInv'', hNone⟩

/-- All entries are retired once the semaphore has the last value. -/
theorem retire_all {completedValue maxToComplete : Nat} (hInv : c.Inv n claimed taken)
    (hSeen : completedValue ≤ c.engine.releasedValue)
    (hAll : ∀ e ∈ c.unretired n, e.trackingSemaphoreValue ≤ completedValue)
    (hEnough : c.pendingGpfifos n ≤ maxToComplete) :
    (retire n completedValue maxToComplete c).pendingGpfifos n = 0 := by
  induction maxToComplete generalizing c with
  | zero => exact Nat.le_zero.mp hEnough
  | succ maxToComplete ih =>
      rw [retire_succ]
      split
      · next hNone => rw [pendingGpfifos, hNone, GetPutRing.pending_self]
      · next hSome =>
          have hCons := hInv.unretired_cons hSome
          have hFirst := hAll _ (hCons ▸ List.mem_cons_self)
          rw [if_neg (Nat.not_lt.mpr hFirst)]
          have hPending := hInv.pending_retireOne hSome
          refine ih (hInv.retireOne hSome (Nat.le_trans hFirst hSeen)) hSeen (fun e he => ?_) (by omega)
          exact hAll e (hCons ▸ List.mem_cons_of_mem _ he)

end Drain

section Values

variable {n claimed : Nat} {taken : Multiset Nat} {c c' : Channel Iv}

theorem bounded_congr (hRing : c'.unretired n = c.unretired n) (hQueued : c'.queuedValue = c.queuedValue)
    (h : c.Bounded n) : c'.Bounded n := by
  rw [Bounded, hRing, hQueued]
  exact h

theorem trailing_congr (hRing : c'.unretired n = c.unretired n) (hQueued : c'.queuedValue = c.queuedValue)
    (h : c'.Trailing n) : c.Trailing n := by
  rwa [Trailing, hRing, hQueued] at h

/-- Rotations leave the ring alone. -/
theorem rotateChannelIvs_ring (csl : Csl Iv) (n limit limitMin : Nat)
    (answer : CslOperation → CslStatus) (c : Channel Iv) :
    (c.rotateChannelIvs csl limit limitMin answer).2.unretired n = c.unretired n ∧
      (c.rotateChannelIvs csl limit limitMin answer).2.queuedValue = c.queuedValue :=
  rotateChannelIvs_keeps csl (P := fun c' => c'.unretired n = c.unretired n ∧
    c'.queuedValue = c.queuedValue) ⟨rfl, rfl⟩ fun _ _ h => h

end Values

end Channel

section Change

variable {cfg : Config} {csl : Csl Iv} {version claimed : Nat} {taken : Multiset Nat}
  {before after : Option (Nat × Multiset Nat)} {c c' : Channel Iv} {a : Action m}

/-- An entry that waits for a push is that of a control submission, and the end of any push is what
it waits for. -/
theorem Change.values (h : Change cfg csl version a before c after c')
    (hInv : c.Inv cfg.numGpfifoEntries (claimed + entriesOf before) taken)
    (hBounded : c.Bounded cfg.numGpfifoEntries) :
    c'.Bounded cfg.numGpfifoEntries ∧
      (c'.Trailing cfg.numGpfifoEntries →
        c.Trailing cfg.numGpfifoEntries ∧ (∀ readBack, a ≠ .endPush readBack) ∨ a = .writeCtrl) := by
  have hSame : c'.unretired cfg.numGpfifoEntries = c.unretired cfg.numGpfifoEntries →
      c'.queuedValue = c.queuedValue → (∀ readBack, a ≠ .endPush readBack) →
      c'.Bounded cfg.numGpfifoEntries ∧
        (c'.Trailing cfg.numGpfifoEntries →
          c.Trailing cfg.numGpfifoEntries ∧ (∀ readBack, a ≠ .endPush readBack) ∨ a = .writeCtrl) :=
    fun hRing hQueued hNot => ⟨bounded_congr hRing hQueued hBounded,
      fun hTrailing => .inl ⟨trailing_congr hRing hQueued hTrailing, hNot⟩⟩
  cases h with
  | claim target hClaim =>
      rw [tryClaim, Option.ite_none_right_eq_some] at hClaim
      cases hClaim.2
      exact hSame rfl rfl fun _ h => by cases h
  | @check count retryIfBusy answer checked _ _ hCheck =>
      rcases checkIvs_eq hCheck with rfl | ⟨-, rfl⟩
      · exact hSame rfl rfl fun _ h => by cases h
      · have hKept := rotateChannelIvs_ring csl cfg.numGpfifoEntries cfg.ivRotationLimit
          cfg.ivRemainingLimitMin answer c
        exact hSame hKept.1 hKept.2 fun _ h => by cases h
  | begin hTake =>
      rw [takePushInfo] at hTake
      split at hTake <;> cases hTake
      exact hSame rfl rfl fun _ h => by cases h
  | write op => exact hSame rfl rfl fun _ h => by cases h
  | ctrl =>
      have hClaimed : c.Inv cfg.numGpfifoEntries (claimed + 1 + 1) taken := hInv
      refine ⟨fun e he => ?_, fun _ => .inr rfl⟩
      rw [writeCtrlGpfifo, hClaimed.unretired_submit, List.mem_append, List.mem_singleton] at he
      rcases he with he | rfl
      · exact hBounded e he
      · exact Nat.le_refl _
  | @endPush info c readBack =>
      have hSealed : (c.sealPush csl cfg.numGpfifoEntries cfg.confComputing readBack version).Inv
          cfg.numGpfifoEntries (claimed + 1) taken := hInv.sealPush _ _ _
      have hSealedRing : (c.sealPush csl cfg.numGpfifoEntries cfg.confComputing readBack version).unretired
          cfg.numGpfifoEntries = c.unretired cfg.numGpfifoEntries := by
        cases cfg.confComputing <;> cases readBack <;> rfl
      have hValues : ∀ e ∈ (c.endPush csl cfg.numGpfifoEntries cfg.confComputing readBack version
          info).unretired cfg.numGpfifoEntries, e.trackingSemaphoreValue ≤ c.queuedValue + 1 := by
        intro e he
        change e ∈ ((c.sealPush csl cfg.numGpfifoEntries cfg.confComputing readBack version).submit
          cfg.numGpfifoEntries _).unretired cfg.numGpfifoEntries at he
        rw [hSealed.unretired_submit, hSealedRing, List.mem_append, List.mem_singleton] at he
        rcases he with he | rfl
        · exact hBounded e he
        · exact Nat.le_refl _
      refine ⟨fun e he => Nat.le_succ_of_le (hValues e he), ?_⟩
      rintro ⟨e, he, hLess⟩
      exact absurd (hValues e he) (Nat.not_le.mpr hLess)
  | release => exact hSame rfl rfl fun _ h => by cases h

end Change

section Ready

variable (cfg : Config) (csl : Csl Iv)

/-- What a place needs for its thread to go on by itself or once others have gone on. -/
def Place.Ready (channels : Fin m → Channel Iv) : Place m → Prop
  | .reserved c entries checked =>
      (entries = 1 ∨ entries = 2) ∧ (checked = false → cfg.confComputing = true) ∧
        (cfg.confComputing = true → entries = 2 → checked = true →
          (channels c).ivsSuffice csl cfg.ivRotationLimit = true)
  | .ctrlWritten c checked =>
      (checked = false → cfg.confComputing = true) ∧
        (cfg.confComputing = true → (channels c).ivsSuffice csl cfg.ivRotationLimit = true)
  | .reserveAll taken _ => taken ≤ m
  | .waiting seen _ => seen ≤ m
  | _ => True

/-- The thread ends with a push that releases the entries before it. -/
def Place.trails (c : Fin m) : Place m → Bool
  | .ctrlWritten c' _ => c' = c
  | .pushing c' _ => c' = c
  | _ => false

theorem Place.holding_of_trails {c : Fin m} {p : Place m} (h : p.trails c = true) :
    p.holding ≠ none := by
  cases p <;> first | exact Option.some_ne_none _ | cases h

variable {cfg csl} {p p' : Place m} {pool pool' : Pool m Iv} {a : Action m}

theorem ivsSuffice_congr {c c' : Channel Iv} (h : c'.csl = c.csl) (limit : Nat) :
    c'.ivsSuffice csl limit = c.ivsSuffice csl limit := by
  rw [ivsSuffice, ivsSuffice, h]

theorem Place.Ready.congr {channels channels' : Fin m → Channel Iv} (h : p.Ready cfg csl channels)
    (hSame : cfg.confComputing = true → ∀ c, p.holds c = 1 → (channels' c).csl = (channels c).csl) :
    p.Ready cfg csl channels' := by
  cases p with
  | reserved c entries checked =>
      refine ⟨h.1, h.2.1, fun hCc hTwo hChecked => ?_⟩
      rw [ivsSuffice_congr (hSame hCc c (if_pos rfl))]
      exact h.2.2 hCc hTwo hChecked
  | ctrlWritten c checked =>
      refine ⟨h.1, fun hCc => ?_⟩
      rw [ivsSuffice_congr (hSame hCc c (if_pos rfl))]
      exact h.2 hCc
  | reserveAll taken next => exact h
  | waiting seen next => exact h
  | _ => trivial

theorem Request.numGpfifoEntries_cases (r : Request m) :
    r.numGpfifoEntries = 1 ∨ r.numGpfifoEntries = 2 := by
  cases r with
  | any => exact .inl rfl
  | on c => exact .inl rfl
  | ctrl c => exact .inr rfl

/-- A control submission goes on only with IVs that suffice for its push. -/
theorem checkIvs_suffice (hRotate : ∀ iv, cfg.ivRotationLimit < csl.remaining (csl.rotate iv))
    {answer : CslOperation → CslStatus} {c c' : Channel Iv}
    (h : checkIvs cfg csl true answer c = some (.goOn, c')) :
    c'.ivsSuffice csl cfg.ivRotationLimit = true := by
  rw [checkIvs] at h
  split at h
  · next hSuffice =>
      cases h
      exact hSuffice
  · rw [Option.ite_none_right_eq_some] at h
    obtain ⟨-, h⟩ := h
    obtain ⟨hChecked, rfl⟩ := Prod.mk.inj (Option.some.inj h)
    rw [rotateChannelIvs_fst] at hChecked
    rw [rotateChannelIvs_snd, ivsSuffice, Bool.and_eq_true, decide_eq_true_eq, decide_eq_true_eq]
    have hOk : (c.rotateBelowLimit csl cfg.ivRotationLimit answer).1 = .ok := by
      split at hChecked
      · next hIf =>
          split at hIf
          · cases hIf
          · exact hIf
      all_goals cases hChecked
    have hLeft : ∀ op, cfg.ivRotationLimit + 1 ≤
        csl.remaining ((c.rotateBelowLimit csl cfg.ivRotationLimit answer).2.csl op) :=
      rotateBelowLimit_ok hRotate (Nat.le_refl _) hOk
    exact ⟨hLeft .encrypt, hLeft .decrypt⟩

theorem Acts.ready (hRotate : ∀ iv, cfg.ivRotationLimit < csl.remaining (csl.rotate iv))
    (h : Acts cfg csl pool p a p' pool') (hReady : p.Ready cfg csl pool.channels) :
    p'.Ready cfg csl pool'.channels := by
  cases h with
  | lockRotation => exact Nat.zero_le m
  | downAll hTaken => exact hTaken
  | startWait => exact Nat.zero_le m
  | seenIdle hSeen => exact hSeen
  | @claimOpen r c channel hCc hClaim =>
      refine ⟨r.numGpfifoEntries_cases, fun hNot => absurd hNot.symm Bool.false_ne_true, ?_⟩
      intro hOther
      exact absurd (hCc.symm.trans hOther) Bool.false_ne_true
  | @claimLocked r c channel hCc hFree hClaim =>
      exact ⟨r.numGpfifoEntries_cases, fun _ => hCc, fun _ _ hNot => absurd hNot Bool.false_ne_true⟩
  | goOnReserved hCheck =>
      refine ⟨hReady.1, fun hOther => absurd hOther.symm Bool.false_ne_true, fun _ hTwo _ => ?_⟩
      rw [hTwo] at hCheck
      rw [Pool.setChannel_self]
      exact checkIvs_suffice hRotate hCheck
  | againReserved =>
      exact ⟨hReady.1, hReady.2.1, fun _ _ hAgain => absurd hAgain Bool.false_ne_true⟩
  | goOnCtrl hCheck =>
      have hSuffice := hReady.2 (hReady.1 rfl)
      rw [checkIvs, if_pos hSuffice] at hCheck
      cases hCheck
      refine ⟨fun hAgain => absurd hAgain.symm Bool.false_ne_true, fun _ => ?_⟩
      rw [Pool.setChannel_self]
      exact hSuffice
  | againCtrl hCheck =>
      rw [checkIvs, if_pos (hReady.2 (hReady.1 rfl))] at hCheck
      cases hCheck
  | writeCtrl =>
      refine ⟨fun hNot => ?_, fun hCc => ?_⟩
      · rwa [Bool.not_eq_false'] at hNot
      · rw [Pool.setChannel_self]
        exact hReady.2.2 hCc rfl rfl
  | _ => trivial

/-- A thread with a push to come keeps it to the end of the push. -/
theorem Acts.trails (h : Acts cfg csl pool p a p' pool') (hReady : p.Ready cfg csl pool.channels)
    (hFail : a = .fail → ∀ c checked, p ≠ .ctrlWritten c checked)
    (hEnd : ∀ readBack, a ≠ .endPush readBack) {c : Fin m} (hTrails : p.trails c = true) :
    p'.trails c = true := by
  cases h with
  | goOnCtrl => exact hTrails
  | againCtrl => exact hTrails
  | failedCtrl hCheck =>
      -- What its push needs is there from the first check on.
      rw [checkIvs, if_pos (hReady.2 (hReady.1 rfl))] at hCheck
      cases hCheck
  | failCtrl => exact absurd rfl (hFail rfl _ _)
  | beginCtrl => exact hTrails
  | write => exact hTrails
  | endPush => exact absurd rfl (hEnd _)
  | _ => cases hTrails

theorem Acts.of_writeCtrl (h : Acts cfg csl pool p .writeCtrl p' pool') :
    ∃ c checked, p' = .ctrlWritten c checked := by
  cases h
  exact ⟨_, _, rfl⟩

end Ready

/-- A control submission that fails once its first entry is written leaves an entry that no push of
its own releases: the source takes such a failure for fatal. -/
def Label.KeepsTrail {T : Type} (s : System T m Iv) : Label T m → Prop
  | .thread t .fail => ∀ c checked, s.place t ≠ .ctrlWritten c checked
  | _ => True

/-- Each thread can go on in turn, and an entry that waits for a push has a thread to make it. -/
structure System.Calm {T : Type} (cfg : Config) (csl : Csl Iv) (s : System T m Iv) : Prop where
  ready : ∀ t, (s.place t).Ready cfg csl s.pool.channels
  bounded : ∀ c, (s.pool.channels c).Bounded cfg.numGpfifoEntries
  trailed : ∀ c, (s.pool.channels c).Trailing cfg.numGpfifoEntries →
    ∃ t, (s.place t).trails c = true

namespace System

variable {T : Type} {cfg : Config} {csl : Csl Iv} {s s' : System T m Iv}

theorem calm_start (ivs : Fin m → CslOperation → Iv) : (start cfg T m ivs).Calm cfg csl := by
  have hEmpty : ∀ c, ((start cfg T m ivs).pool.channels c).unretired cfg.numGpfifoEntries = [] :=
    fun c => GetPutRing.contents_self _ _ _
  refine ⟨fun _ => trivial, fun c e he => ?_, ?_⟩
  · rw [hEmpty c] at he
    cases he
  · rintro c ⟨e, he, -⟩
    rw [hEmpty c] at he
    cases he

/-- A step that only changes how far a channel has come. -/
theorem Calm.next_channel (h : s.Calm cfg csl) {c : Fin m} {channel : Channel Iv}
    (hCsl : channel.csl = (s.pool.channels c).csl)
    (hQueued : channel.queuedValue = (s.pool.channels c).queuedValue)
    (hRing : channel.unretired cfg.numGpfifoEntries <:+
      (s.pool.channels c).unretired cfg.numGpfifoEntries) :
    ({ s with pool := s.pool.setChannel c channel } : System T m Iv).Calm cfg csl := by
  have hUpdate : ∀ c', ((s.pool.setChannel c channel).channels c').csl = (s.pool.channels c').csl ∧
      ((s.pool.setChannel c channel).channels c').queuedValue = (s.pool.channels c').queuedValue ∧
      ((s.pool.setChannel c channel).channels c').unretired cfg.numGpfifoEntries <:+
        (s.pool.channels c').unretired cfg.numGpfifoEntries := by
    intro c'
    by_cases hSame : c' = c
    · subst hSame
      rw [Pool.setChannel_self]
      exact ⟨hCsl, hQueued, hRing⟩
    · rw [show (s.pool.setChannel c channel).channels c' = s.pool.channels c' from
        Function.update_of_ne hSame _ _]
      exact ⟨rfl, rfl, List.suffix_refl _⟩
  refine ⟨fun t => (h.ready t).congr fun _ c' _ => (hUpdate c').1, fun c' e he => ?_, ?_⟩
  · have hBound := h.bounded c' e ((hUpdate c').2.2.subset he)
    exact (hUpdate c').2.1.symm ▸ hBound
  · rintro c' ⟨e, he, hLess⟩
    exact h.trailed c' ⟨e, (hUpdate c').2.2.subset he, (hUpdate c').2.1 ▸ hLess⟩

variable [Fintype T] [DecidableEq T]

theorem Calm.next_thread (hRotate : ∀ iv, cfg.ivRotationLimit < csl.remaining (csl.rotate iv))
    (hInv : s.Inv cfg) (h : s.Calm cfg csl) {t : T} {a : Action m} {p : Place m} {pool : Pool m Iv}
    (hAct : act cfg csl (s.place t) s.pool a = some (p, pool))
    (hInv' : (⟨Function.update s.place t p, pool⟩ : System T m Iv).Inv cfg)
    (hKeeps : Label.KeepsTrail s (.thread t a)) :
    (⟨Function.update s.place t p, pool⟩ : System T m Iv).Calm cfg csl := by
  have hFail : a = .fail → ∀ c checked, s.place t ≠ .ctrlWritten c checked := by
    rintro rfl
    exact hKeeps
  have hActs := acts_of_act hAct
  have hEffect := hActs.effect
  have hValues : ∀ c, (pool.channels c).Bounded cfg.numGpfifoEntries ∧
      ((pool.channels c).Trailing cfg.numGpfifoEntries →
        (s.pool.channels c).Trailing cfg.numGpfifoEntries ∧
            ((∀ readBack, a ≠ .endPush readBack) ∨ (s.place t).trails c = false) ∨
          p.trails c = true) := by
    intro c
    cases hEffect with
    | quiet hChannels hVersion hHolding hSeen =>
        rw [hChannels]
        refine ⟨h.bounded c, fun hTrailing => .inl ⟨hTrailing, .inl ?_⟩⟩
        rintro readBack rfl
        cases hPlace : s.place t <;> rw [hPlace] at hAct <;> cases hAct
        rw [hPlace] at hHolding
        cases hHolding
    | @change c₀ before after channel hChange hOld hNew hChannels hVersion hPlace =>
        rw [hChannels]
        by_cases hSame : c = c₀
        · subst hSame
          have hRing := hInv.ring c
          rw [sum_eq_others_add (fun p : Place m => p.claims c) s.place t, claims_eq hOld] at hRing
          obtain ⟨hBounded, hTrailing⟩ := hChange.values hRing (h.bounded c)
          rw [Function.update_self]
          refine ⟨hBounded, fun hTrails => (hTrailing hTrails).imp (fun h => ⟨h.1, .inl h.2⟩) ?_⟩
          rintro rfl
          obtain ⟨c', checked, rfl⟩ := hActs.of_writeCtrl
          cases after with
          | none => cases hNew
          | some held =>
              have hChannel : c' = c := congrArg Holding.channel (Option.some.inj hNew)
              exact decide_eq_true hChannel
        · rw [Function.update_of_ne hSame]
          refine ⟨h.bounded c, fun hTrailing => .inl ⟨hTrailing, .inr ?_⟩⟩
          cases hPlace : s.place t with
          | ctrlWritten c' checked =>
              rw [hPlace] at hOld
              cases before with
              | none => cases hOld
              | some held =>
                  have hChannel : c' = c₀ := congrArg Holding.channel (Option.some.inj hOld)
                  exact decide_eq_false fun hThis => hSame (hThis.symm.trans hChannel)
          | pushing c' info =>
              rw [hPlace] at hOld
              cases before with
              | none => cases hOld
              | some held =>
                  have hChannel : c' = c₀ := congrArg Holding.channel (Option.some.inj hOld)
                  exact decide_eq_false fun hThis => hSame (hThis.symm.trans hChannel)
          | _ => rfl
    | rotated next status hOld hNew hPool =>
        subst hPool
        have hSame : ((s.pool.rotateKey csl status).channels c).unretired cfg.numGpfifoEntries =
            (s.pool.channels c).unretired cfg.numGpfifoEntries ∧
            ((s.pool.rotateKey csl status).channels c).queuedValue = (s.pool.channels c).queuedValue := by
          rw [Pool.rotateKey]
          split <;> exact ⟨rfl, rfl⟩
        refine ⟨bounded_congr hSame.1 hSame.2 (h.bounded c), fun hTrailing => .inl ⟨?_, .inr ?_⟩⟩
        · exact trailing_congr hSame.1 hSame.2 hTrailing
        · rw [hOld]
          rfl
  refine ⟨fun u => ?_, fun c => (hValues c).1, fun c hTrailing => ?_⟩
  · change (Function.update s.place t p u).Ready cfg csl pool.channels
    by_cases hSame : u = t
    · subst hSame
      rw [Function.update_self]
      exact hActs.ready hRotate (h.ready u)
    · rw [Function.update_of_ne hSame]
      refine (h.ready u).congr fun hCc c hHolds => ?_
      rw [hInv.others_same hCc hInv' hEffect hSame hHolds]
  · rcases (hValues c).2 hTrailing with ⟨hBefore, hEnd⟩ | hHere
    · obtain ⟨u, hu⟩ := h.trailed c hBefore
      refine ⟨u, ?_⟩
      change (Function.update s.place t p u).trails c = true
      by_cases hSame : u = t
      · subst hSame
        rw [Function.update_self]
        rcases hEnd with hEnd | hNot
        · exact hActs.trails (h.ready u) hFail hEnd hu
        · rw [hu] at hNot
          cases hNot
      · rwa [Function.update_of_ne hSame]
    · refine ⟨t, ?_⟩
      change (Function.update s.place t p t).trails c = true
      rwa [Function.update_self]

theorem Calm.next (hRotate : ∀ iv, cfg.ivRotationLimit < csl.remaining (csl.rotate iv))
    (hInv : s.Inv cfg) (hInv' : s'.Inv cfg) (h : s.Calm cfg csl) {label : Label T m}
    (hKeeps : label.KeepsTrail s) (hNext : s.next cfg csl label = some s') : s'.Calm cfg csl := by
  cases label with
  | thread t a =>
      rw [System.next, Option.map_eq_some_iff] at hNext
      obtain ⟨⟨p, pool⟩, hAct, rfl⟩ := hNext
      exact h.next_thread hRotate hInv hAct hInv' hKeeps
  | updateProgress c completedValue maxToComplete =>
      rw [System.next, Option.ite_none_right_eq_some] at hNext
      obtain ⟨hSeen, hNext⟩ := hNext
      cases hNext
      refine h.next_channel ?_ ?_ ((hInv.ring c).retire_splits hSeen maxToComplete).1
      · change (retire _ _ _ _).csl = _
        rw [retire_frame]
      · change (retire _ _ _ _).queuedValue = _
        rw [retire_frame]
  | engine c =>
      rw [System.next, Option.map_eq_some_iff] at hNext
      obtain ⟨channel, hStep, rfl⟩ := hNext
      obtain ⟨engine, rfl⟩ := engineStep_engine hStep
      exact h.next_channel rfl rfl (List.suffix_refl _)

end System

end FlashCkpt.CopyEngine
