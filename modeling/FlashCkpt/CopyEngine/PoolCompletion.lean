import FlashCkpt.CopyEngine.PoolProgress

/-! A schedule that ends all that is under way: pushes first, then reservations, then rotations
of the key, then the threads that wait for the mutex or for a token. -/
namespace FlashCkpt.CopyEngine

open Channel Tally Transition

variable {m : Nat} {Iv T : Type}

/-- Steps that neither start anything nor give up, with an RM that does what it is asked. -/
def Action.Finishes : Action m → Prop
  | .reserve _ => False
  | .rotateKey => False
  | .waitFailed => False
  | .giveUp => False
  | .fail => False
  | .rotate status => status = .ok
  | .checkIvs answer => answer = fun _ => .ok
  | _ => True

def Label.Finishes : Label T m → Prop
  | .thread _ a => a.Finishes
  | _ => True

/-- Steps that a thread has before it at most. -/
def Place.weight : Place m → Nat
  | .idle => 0
  | .releasing _ _ => 1
  | .pushing _ _ => 1
  | .ctrlWritten _ checked => if checked then 2 else 3
  | .reserved _ entries checked => if checked then 2 * entries else 2 * entries + 1
  | .claiming _ => 6
  | .down _ => 7
  | .releaseAll left _ => 8 + left
  | .waiting seen _ => 9 + m + (m - seen)
  | .reserveAll taken _ => 10 + 2 * m + (m - taken)
  | .rotating _ => 11 + 3 * m

namespace System

variable [Fintype T] [DecidableEq T] {cfg : Config} {csl : Csl Iv} {s : System T m Iv}

/-- The state with another state of a channel. -/
def withChannel (s : System T m Iv) (c : Fin m) (channel : Channel Iv) : System T m Iv :=
  { s with pool := s.pool.setChannel c channel }

omit [Fintype T] [DecidableEq T] in
theorem withChannel_self (s : System T m Iv) (c : Fin m) (channel : Channel Iv) :
    (s.withChannel c channel).pool.channels c = channel := Pool.setChannel_self s.pool c channel

omit [Fintype T] [DecidableEq T] in
theorem withChannel_again (s : System T m Iv) (c : Fin m) (channel channel' : Channel Iv) :
    (s.withChannel c channel).withChannel c channel' = s.withChannel c channel' := by
  simp only [withChannel, Pool.setChannel, Function.update_idem]

omit [Fintype T] in
theorem next_engine {c : Fin m} {channel : Channel Iv}
    (h : (s.pool.channels c).engineStep csl cfg.numGpfifoEntries = some channel) :
    s.next cfg csl (.engine c) = some (s.withChannel c channel) := by
  rw [System.next, h]
  rfl

omit [Fintype T] in
theorem next_updateProgress {c : Fin m} {completedValue : Nat} (maxToComplete : Nat)
    (h : completedValue ≤ (s.pool.channels c).engine.releasedValue) :
    s.next cfg csl (.updateProgress c completedValue maxToComplete) =
      some (s.withChannel c
        (retire cfg.numGpfifoEntries completedValue maxToComplete (s.pool.channels c))) :=
  if_pos h

/-- What holds of the states on the way. -/
def Live (cfg : Config) (csl : Csl Iv) (s : System T m Iv) : Prop := s.Inv cfg ∧ s.Calm cfg csl

/-- Some thread comes a step nearer to its end, after others if need be. -/
def Advances (cfg : Config) (csl : Csl Iv) (s : System T m Iv) : Prop :=
  CanReach (next cfg csl) Label.Finishes s fun s' => s'.Live cfg csl ∧
    ∑ t, (s'.place t).weight < ∑ t, (s.place t).weight

/-- RM rotates what it is asked to, so that the check of an idle channel lets the thread go on. -/
theorem checkIvs_ok (cfg : Config) (csl : Csl Iv) (retryIfBusy : Bool) {channel : Channel Iv}
    (hIdle : channel.pendingGpfifos cfg.numGpfifoEntries = 0) :
    ∃ channel', checkIvs cfg csl retryIfBusy (fun _ => .ok) channel = some (.goOn, channel') := by
  have hTry : ∀ (c : Channel Iv) asked op, (c.tryRotateIv csl asked .ok op).1 = .ok := by
    intro c asked op
    rw [tryRotateIv]
    split <;> rfl
  have hBelow : (channel.rotateBelowLimit csl cfg.ivRotationLimit fun _ => .ok).1 = .ok := by
    rw [rotateBelowLimit, if_pos (hTry _ _ _)]
    exact hTry _ _ _
  have hRotated : (channel.rotateChannelIvs csl cfg.ivRotationLimit cfg.ivRemainingLimitMin
      fun _ => .ok).1 = .ok := by
    rw [rotateChannelIvs_fst, hBelow]
    rfl
  rw [checkIvs, if_pos hIdle]
  split
  · exact ⟨_, rfl⟩
  · dsimp only
    rw [hRotated]
    exact ⟨_, rfl⟩

section Schedule

variable (hValid : cfg.Valid) (hRotate : ∀ iv, cfg.ivRotationLimit < csl.remaining (csl.rotate iv))
include hValid hRotate

theorem live_next {label : Label T m} {s' : System T m Iv} (hOk : label.Finishes)
    (h : s.Live cfg csl) (hNext : s.next cfg csl label = some s') : s'.Live cfg csl := by
  have hInv' := h.1.next hValid hNext
  refine ⟨hInv', h.2.next hRotate h.1 hInv' ?_ hNext⟩
  cases label with
  | thread t a => cases a <;> trivial
  | _ => trivial

/-- A step of a thread that brings it nearer to its end. -/
theorem advance (h : s.Live cfg csl) {t : T} {p p' : Place m} {pool : Pool m Iv} (ht : s.place t = p)
    (a : Action m) (hOk : a.Finishes) (hAct : act cfg csl p s.pool a = some (p', pool))
    (hLess : p'.weight < p.weight) : s.Advances cfg csl := by
  subst ht
  have hNext : s.next cfg csl (.thread t a) = some ⟨Function.update s.place t p', pool⟩ := by
    rw [System.next, hAct]
    rfl
  have hLabel : (Label.thread t a : Label T m).Finishes := hOk
  exact .step hLabel hNext (.here ⟨live_next hValid hRotate hLabel h hNext,
    sum_update_lt (fun p : Place m => p.weight) s.place hLess⟩)

/-- A channel with no entry that waits for a push comes to be idle, the threads where they are. -/
theorem drain (h : s.Live cfg csl) (c : Fin m)
    (hTrailing : ¬(s.pool.channels c).Trailing cfg.numGpfifoEntries) :
    CanReach (next cfg csl) Label.Finishes s fun s' => s'.Live cfg csl ∧ s'.place = s.place ∧
      (s'.pool.channels c).pendingGpfifos cfg.numGpfifoEntries = 0 ∧
      s'.pool.pushSem = s.pool.pushSem ∧ s'.pool.pushLocks = s.pool.pushLocks := by
  -- The engine works off the channel.
  have hEngine : CanReach (next cfg csl) Label.Finishes s fun s' => ∃ channel,
      s' = s.withChannel c channel ∧
      (∃ engine, channel = { s.pool.channels c with engine := engine }) ∧
      channel.unfinished cfg.numGpfifoEntries = [] := by
    obtain ⟨labels, channel, -, hRun, hEngine, -, hNone⟩ := engine_finishes csl (h.1.ring c)
    have hRelated : ∀ (channel : Channel Iv) (s' : System T m Iv) (label : Unit) (channel' : Channel Iv),
        s' = s.withChannel c channel → True →
        engineNext csl cfg.numGpfifoEntries channel label = some channel' →
        ∃ t', s'.next cfg csl (.engine c) = some t' ∧ t' = s.withChannel c channel' := by
      rintro channel _ label channel' rfl - hStep
      refine ⟨_, next_engine ?_, withChannel_again s c channel channel'⟩
      rw [withChannel_self]
      exact hStep
    have hStart : s = s.withChannel c (s.pool.channels c) := by
      rw [withChannel, Pool.setChannel, Function.update_eq_self]
    obtain ⟨s', hRun', hs'⟩ := execute_related (f := fun _ => Label.engine c) hRelated labels hStart
      (fun _ _ => trivial) hRun
    refine ⟨_, s', ?_, hRun', channel, hs', hEngine, hNone⟩
    intro label hLabel
    obtain ⟨_, -, rfl⟩ := List.mem_map.mp hLabel
    trivial
  have hLive := hEngine.keep
    (fun s label t (hOk : label.Finishes) h hNext => live_next hValid hRotate hOk h hNext) h
  refine hLive.bind fun s' hs' => ?_
  obtain ⟨⟨channel, rfl, ⟨engine, hChannel⟩, hNone⟩, hLive'⟩ := hs'
  -- What it has worked off is retired.
  have hRing := hLive'.1.ring c
  rw [withChannel_self] at hRing
  have hReleased := numbered_nil hRing.numbered hNone
  have hAll : ∀ e ∈ channel.unretired cfg.numGpfifoEntries,
      e.trackingSemaphoreValue ≤ channel.engine.releasedValue := by
    intro e he
    rw [hReleased]
    rw [hChannel] at he ⊢
    by_contra hLess
    exact hTrailing ⟨e, he, Nat.not_le.mp hLess⟩
  have hIdle := retire_all hRing (Nat.le_refl channel.engine.releasedValue) hAll (Nat.le_refl _)
  have hSeen : channel.engine.releasedValue ≤
      ((s.withChannel c channel).pool.channels c).engine.releasedValue := by
    rw [withChannel_self]
  have hNext : (s.withChannel c channel).next cfg csl (.updateProgress c channel.engine.releasedValue
      (channel.pendingGpfifos cfg.numGpfifoEntries)) = _ := next_updateProgress _ hSeen
  rw [withChannel_self, withChannel_again] at hNext
  refine .step (by trivial) hNext (.here ⟨live_next hValid hRotate (by trivial) hLive' hNext, rfl, ?_,
    rfl, rfl⟩)
  rw [withChannel_self]
  exact hIdle

/-- A thread goes on when a channel is idle. -/
theorem advances_drained (h : s.Live cfg csl) (c : Fin m)
    (hTrailing : ¬(s.pool.channels c).Trailing cfg.numGpfifoEntries)
    (hThen : ∀ s' : System T m Iv, s'.Live cfg csl → s'.place = s.place →
      (s'.pool.channels c).pendingGpfifos cfg.numGpfifoEntries = 0 →
      s'.pool.pushLocks = s.pool.pushLocks → s'.Advances cfg csl) : s.Advances cfg csl := by
  refine (drain hValid hRotate h c hTrailing).bind fun s' hs' => ?_
  obtain ⟨hLive, hPlace, hIdle, -, hLocks⟩ := hs'
  have hAdvances := hThen s' hLive hPlace hIdle hLocks
  rwa [Advances, hPlace] at hAdvances

/-- A push ends or begins behind its control entry, or claimed entries are given back. -/
theorem advances_of_push (h : s.Live cfg csl) {t : T}
    (ht : (∃ c, (s.place t).trails c = true) ∨ ∃ c entries, s.place t = .releasing c entries) :
    s.Advances cfg csl := by
  rcases ht with ⟨c, ht⟩ | ⟨c, entries, ht⟩
  · cases hPlace : s.place t with
    | pushing c' info =>
        exact advance hValid hRotate h hPlace (.endPush false) trivial rfl Nat.one_pos
    | ctrlWritten c' checked =>
        cases checked with
        | true =>
            obtain ⟨info, channel, hTake⟩ := h.1.exists_push_info (t := t) (c := c') (by rw [hPlace]; rfl)
            have hAct : act cfg csl (.ctrlWritten c' true) s.pool .begin =
                some (.pushing c' info, s.pool.setChannel c' channel) := by
              simp only [act, hTake, Option.map_some]
            exact advance hValid hRotate h hPlace .begin trivial hAct (Nat.lt_succ_self 1)
        | false =>
            have hReady := h.2.ready t
            rw [hPlace] at hReady
            have hAct : act cfg csl (.ctrlWritten c' false) s.pool (.checkIvs fun _ => .ok) =
                some (.ctrlWritten c' true, s.pool.setChannel c' (s.pool.channels c')) := by
              simp only [act, checkIvs, if_pos (hReady.2 (hReady.1 rfl)), Option.map_some]
            exact advance hValid hRotate h hPlace (.checkIvs fun _ => .ok) rfl hAct
              (Nat.lt_succ_self 2)
    | _ =>
        rw [hPlace] at ht
        cases ht
  · exact advance hValid hRotate h ht .release trivial rfl Nat.one_pos

/-- A reservation goes on to its push. -/
theorem advances_of_reserved (h : s.Live cfg csl)
    (hTrails : ∀ t c, (s.place t).trails c = false) {t : T} {c : Fin m} {entries : Nat} {checked : Bool}
    (ht : s.place t = .reserved c entries checked) : s.Advances cfg csl := by
  have hReady := h.2.ready t
  rw [ht] at hReady
  cases checked with
  | true =>
      rcases hReady.1 with rfl | rfl
      · obtain ⟨info, channel, hTake⟩ := h.1.exists_push_info (t := t) (c := c) (by rw [ht]; rfl)
        have hAct : act cfg csl (.reserved c 1 true) s.pool .begin =
            some (.pushing c info, s.pool.setChannel c channel) := by
          simp only [act, hTake, Option.map_some]
        exact advance hValid hRotate h ht .begin trivial hAct (Nat.lt_succ_self 1)
      · refine advance hValid hRotate h ht .writeCtrl trivial rfl ?_
        cases cfg.confComputing
        · exact (by decide : 2 < 4)
        · exact (by decide : 3 < 4)
  | false =>
      have hTrailing : ¬(s.pool.channels c).Trailing cfg.numGpfifoEntries := by
        intro hTrailing
        obtain ⟨u, hu⟩ := h.2.trailed c hTrailing
        rw [hTrails u c] at hu
        cases hu
      refine advances_drained hValid hRotate h c hTrailing fun s' hLive hPlace hIdle _ => ?_
      obtain ⟨channel, hCheck⟩ := checkIvs_ok cfg csl (entries = 2) hIdle
      have hAct : act cfg csl (.reserved c entries false) s'.pool (.checkIvs fun _ => .ok) =
          some (.reserved c entries true, s'.pool.setChannel c channel) := by
        simp only [act, hCheck, Option.map_some]
      exact advance hValid hRotate hLive (hPlace ▸ ht) (.checkIvs fun _ => .ok) rfl hAct
        (Nat.lt_succ_self _)

/-- A reservation finds a channel once nobody holds one. -/
theorem advances_of_claiming (h : s.Live cfg csl) (hSome : 0 < m)
    (hNone : ∀ t, (s.place t).holding = none) {t : T} {r : Request m} (ht : s.place t = .claiming r) :
    s.Advances cfg csl := by
  obtain ⟨c, hAdmits⟩ : ∃ c, r.admits c = true := by
    cases r with
    | any => exact ⟨⟨0, hSome⟩, rfl⟩
    | on c => exact ⟨c, decide_eq_true rfl⟩
    | ctrl c => exact ⟨c, decide_eq_true rfl⟩
  have hTrailing : ¬(s.pool.channels c).Trailing cfg.numGpfifoEntries := by
    intro hTrailing
    obtain ⟨u, hu⟩ := h.2.trailed c hTrailing
    exact Place.holding_of_trails hu (hNone u)
  refine advances_drained hValid hRotate h c hTrailing fun s' hLive hPlace hIdle hLocks => ?_
  have hClaims : ∑ u, (s'.place u).claims c = 0 := by
    refine Finset.sum_eq_zero fun u _ => ?_
    rw [hPlace, Place.claims, hNone u]
  have hRing := hLive.1.ring c
  rw [hClaims] at hRing
  have hBound : cfg.numGpfifoEntries < 2 ^ 32 :=
    Nat.lt_of_le_of_lt (Nat.le_of_dvd (Nat.two_pow_pos 31) hValid.power) (by decide)
  have hAvailable := hRing.available hBound
  have hRoom := hValid.room
  have hEntries : r.numGpfifoEntries ≤ 2 := by
    cases r <;> first | exact Nat.le_succ 1 | exact Nat.le_refl 2
  have hEnough : r.numGpfifoEntries ≤
      (s'.pool.channels c).availableGpfifoEntries cfg.numGpfifoEntries := by omega
  have hFree : (cfg.confComputing && s'.pool.pushLocks c) = false := by
    cases hCc : cfg.confComputing
    · rfl
    · have hLock := hLive.1.locks hCc c
      rw [Finset.sum_eq_zero fun u _ => by rw [hPlace, Place.holds, hNone u]] at hLock
      cases hBit : s'.pool.pushLocks c
      · rfl
      · rw [hBit] at hLock
        cases hLock
  have hClaim : ∃ pool, claimChannel cfg s'.pool r c = some pool := by
    rw [claimChannel, hAdmits, hFree, tryClaim, if_pos hEnough]
    exact ⟨_, rfl⟩
  obtain ⟨pool, hClaim⟩ := hClaim
  have hAct : act cfg csl (.claiming r) s'.pool (.claim c) =
      some (.reserved c r.numGpfifoEntries (!cfg.confComputing), pool) := by
    simp only [act, hClaim, Option.map_some]
  refine advance hValid hRotate hLive (hPlace ▸ ht) (.claim c) trivial hAct ?_
  cases cfg.confComputing
  · change 2 * r.numGpfifoEntries < 6
    omega
  · change 2 * r.numGpfifoEntries + 1 < 6
    omega

/-- Nobody but the threads that rotate the key has tokens. -/
def Unclaimed (s : System T m Iv) : Prop :=
  (∀ t, (s.place t).holding = none) ∧ ∀ t r, s.place t ≠ .claiming r

omit hValid hRotate [Fintype T] [DecidableEq T] in
theorem Unclaimed.not_trailing (hUnclaimed : s.Unclaimed) (h : s.Calm cfg csl) (c : Fin m) :
    ¬(s.pool.channels c).Trailing cfg.numGpfifoEntries := by
  intro hTrailing
  obtain ⟨u, hu⟩ := h.trailed c hTrailing
  exact Place.holding_of_trails hu (hUnclaimed.1 u)

omit hValid hRotate [Fintype T] [DecidableEq T] in
theorem Unclaimed.tokens_eq_zero (hUnclaimed : s.Unclaimed) {t : T}
    (ht : (s.place t).rotates = 0) : (s.place t).tokens = 0 := by
  have hHolding := hUnclaimed.1 t
  have hClaiming := hUnclaimed.2 t
  cases hPlace : s.place t with
  | claiming r => exact absurd hPlace (hClaiming r)
  | idle => rfl
  | rotating next => rfl
  | down r => rfl
  | reserveAll taken next =>
      rw [hPlace] at ht
      cases ht
  | waiting seen next =>
      rw [hPlace] at ht
      cases ht
  | releaseAll left next =>
      rw [hPlace] at ht
      cases ht
  | _ =>
      rw [hPlace] at hHolding
      cases hHolding

/-- A rotation of the key goes on: it has the mutex, and no other thread keeps a token from it. -/
theorem advances_of_rotates (h : s.Live cfg csl) (hUnclaimed : s.Unclaimed) {t : T}
    (ht : (s.place t).rotates = 1) : s.Advances cfg csl := by
  have hReady := h.2.ready t
  cases hPlace : s.place t with
  | releaseAll left next =>
      cases left with
      | zero =>
          refine advance hValid hRotate h hPlace .unlockRotation trivial rfl ?_
          cases next with
          | none => exact (by decide : 0 < 8)
          | some r => exact (by decide : 7 < 8)
      | succ left => exact advance hValid hRotate h hPlace .up trivial rfl (Nat.lt_succ_self _)
  | waiting seen next =>
      rw [hPlace] at hReady
      rcases Nat.lt_or_eq_of_le hReady with hSeen | hSeen
      · refine advances_drained hValid hRotate h ⟨seen, hSeen⟩ (hUnclaimed.not_trailing h.2 _)
          fun s' hLive hSame hIdle _ => ?_
        have hAct : act cfg csl (.waiting seen next) s'.pool .seenIdle =
            some (.waiting (seen + 1) next, s'.pool) := by
          simp only [act, dif_pos hSeen, if_pos hIdle]
        refine advance hValid hRotate hLive (hSame ▸ hPlace) .seenIdle trivial hAct ?_
        change 9 + m + (m - (seen + 1)) < 9 + m + (m - seen)
        omega
      · have hAct : act cfg csl (.waiting seen next) s.pool (.rotate .ok) =
            some (.releaseAll m (afterRotation next .ok), s.pool.rotateKey csl .ok) := by
          simp only [act, if_pos hSeen]
        refine advance hValid hRotate h hPlace (.rotate .ok) rfl hAct ?_
        change 8 + m < 9 + m + (m - seen)
        omega
  | reserveAll taken next =>
      rw [hPlace] at hReady
      rcases Nat.lt_or_eq_of_le hReady with hTaken | hTaken
      · -- All tokens that are not this thread's are free.
        have hCc : cfg.confComputing = true := h.1.secure t (by rw [hPlace]; rfl)
        have hTokens := h.1.tokens hCc
        have hOthers : others (fun p : Place m => p.tokens) s.place t = 0 := by
          refine Finset.sum_eq_zero fun u hu => hUnclaimed.tokens_eq_zero ?_
          have hTwo := add_le_sum (fun p : Place m => p.rotates) s.place (Finset.ne_of_mem_erase hu)
          have hOne := Bool.toNat_le s.pool.rotationMutex
          rw [h.1.mutex, ht] at hTwo
          omega
        rw [sum_eq_others_add (fun p : Place m => p.tokens) s.place t, hOthers, hPlace] at hTokens
        have hSem : s.pool.pushSem ≠ 0 := by
          change s.pool.pushSem + (0 + taken) = m at hTokens
          omega
        have hAct : act cfg csl (.reserveAll taken next) s.pool .down =
            some (.reserveAll (taken + 1) next, { s.pool with pushSem := s.pool.pushSem - 1 }) := by
          simp only [act, if_pos hTaken, Pool.downSem, if_neg hSem, Option.map_some]
        refine advance hValid hRotate h hPlace .down trivial hAct ?_
        change 10 + 2 * m + (m - (taken + 1)) < 10 + 2 * m + (m - taken)
        omega
      · have hAct : act cfg csl (.reserveAll taken next) s.pool .startWait =
            some (.waiting 0 next, s.pool) := by
          simp only [act, if_pos hTaken]
        refine advance hValid hRotate h hPlace .startWait trivial hAct ?_
        change 9 + m + (m - 0) < 10 + 2 * m + (m - taken)
        omega
  | _ =>
      rw [hPlace] at ht
      cases ht

/-- With nobody in the pool the mutex and the tokens are free. -/
theorem advances_of_waiting (h : s.Live cfg csl) (hSome : 0 < m) (hUnclaimed : s.Unclaimed)
    (hNone : ∀ t, (s.place t).rotates = 0) {t : T} (ht : s.place t ≠ .idle) : s.Advances cfg csl := by
  have hHolding := hUnclaimed.1 t
  have hRotates := hNone t
  cases hPlace : s.place t with
  | idle => exact absurd hPlace ht
  | rotating next =>
      have hFree : s.pool.rotationMutex = false := by
        have hMutex := h.1.mutex
        rw [Finset.sum_eq_zero fun u _ => hNone u] at hMutex
        cases hBit : s.pool.rotationMutex
        · rfl
        · rw [hBit] at hMutex
          cases hMutex
      have hAct : ∃ p pool, act cfg csl (.rotating next) s.pool (.lockRotation false) = some (p, pool) ∧
          p.weight < 11 + 3 * m := by
        simp only [act, hFree, Bool.false_eq_true, if_false]
        refine ⟨_, _, rfl, ?_⟩
        split
        · change 10 + 2 * m + (m - 0) < 11 + 3 * m
          omega
        · change 8 + 0 < 11 + 3 * m
          omega
      obtain ⟨p, pool, hAct, hLess⟩ := hAct
      exact advance hValid hRotate h hPlace (.lockRotation false) trivial hAct hLess
  | down r =>
      have hCc : cfg.confComputing = true := h.1.secure t (by rw [hPlace]; rfl)
      have hTokens := h.1.tokens hCc
      rw [Finset.sum_eq_zero fun u _ => hUnclaimed.tokens_eq_zero (hNone u)] at hTokens
      have hSem : s.pool.pushSem ≠ 0 := by omega
      have hAct : act cfg csl (.down r) s.pool .down =
          some (.claiming r, { s.pool with pushSem := s.pool.pushSem - 1 }) := by
        simp only [act, Pool.downSem, if_neg hSem, Option.map_some]
      exact advance hValid hRotate h hPlace .down trivial hAct (Nat.lt_succ_self 6)
  | claiming r => exact absurd hPlace (hUnclaimed.2 t r)
  | reserveAll taken next =>
      rw [hPlace] at hRotates
      cases hRotates
  | waiting seen next =>
      rw [hPlace] at hRotates
      cases hRotates
  | releaseAll left next =>
      rw [hPlace] at hRotates
      cases hRotates
  | _ =>
      rw [hPlace] at hHolding
      cases hHolding

/-- As long as some thread is under way, one of them comes nearer to its end. -/
theorem advances (h : s.Live cfg csl) (hSome : 0 < m) {t : T} (ht : s.place t ≠ .idle) :
    s.Advances cfg csl := by
  by_cases hPush : ∃ t, (∃ c, (s.place t).trails c = true) ∨ ∃ c entries, s.place t = .releasing c entries
  · obtain ⟨u, hu⟩ := hPush
    exact advances_of_push hValid hRotate h hu
  rw [not_exists] at hPush
  have hTrails : ∀ t c, (s.place t).trails c = false := fun u c =>
    Bool.eq_false_iff.mpr fun hu => hPush u (.inl ⟨c, hu⟩)
  by_cases hReserved : ∃ t c entries checked, s.place t = .reserved c entries checked
  · obtain ⟨u, c, entries, checked, hu⟩ := hReserved
    exact advances_of_reserved hValid hRotate h hTrails hu
  have hNone : ∀ t, (s.place t).holding = none := by
    intro u
    cases hPlace : s.place u with
    | reserved c entries checked => exact absurd ⟨u, c, entries, checked, hPlace⟩ hReserved
    | releasing c entries => exact absurd (.inr ⟨c, entries, hPlace⟩) (hPush u)
    | ctrlWritten c checked =>
        have hu := hTrails u c
        rw [hPlace] at hu
        exact absurd hu (by simp [Place.trails])
    | pushing c info =>
        have hu := hTrails u c
        rw [hPlace] at hu
        exact absurd hu (by simp [Place.trails])
    | _ => rfl
  by_cases hClaiming : ∃ t r, s.place t = .claiming r
  · obtain ⟨u, r, hu⟩ := hClaiming
    exact advances_of_claiming hValid hRotate h hSome hNone hu
  have hUnclaimed : s.Unclaimed := ⟨hNone, fun u r hu => hClaiming ⟨u, r, hu⟩⟩
  by_cases hRotates : ∃ t, (s.place t).rotates = 1
  · obtain ⟨u, hu⟩ := hRotates
    exact advances_of_rotates hValid hRotate h hUnclaimed hu
  refine advances_of_waiting hValid hRotate h hSome hUnclaimed (fun u => ?_) ht
  cases hPlace : s.place u with
  | reserveAll taken next => exact absurd ⟨u, by rw [hPlace]; rfl⟩ hRotates
  | waiting seen next => exact absurd ⟨u, by rw [hPlace]; rfl⟩ hRotates
  | releaseAll left next => exact absurd ⟨u, by rw [hPlace]; rfl⟩ hRotates
  | _ => rfl

theorem live_finishes (h : s.Live cfg csl) (hSome : 0 < m) :
    CanReach (next cfg csl) Label.Finishes s fun s' => ∀ t, s'.place t = .idle := by
  generalize hWeight : ∑ t, (s.place t).weight = weight
  induction weight using Nat.strong_induction_on generalizing s with
  | _ weight ih =>
      by_cases hAll : ∀ t, s.place t = .idle
      · exact .here hAll
      · rw [not_forall] at hAll
        obtain ⟨t, ht⟩ := hAll
        refine (advances hValid hRotate h hSome ht).bind fun s' hs' => ?_
        exact ih _ (hWeight ▸ hs'.2) hs'.1 rfl

end Schedule

/-- Whatever the threads have done, all that is under way can come to its end without a failure and
without new work: no thread waits for one that waits for it. -/
theorem no_standstill (hValid : cfg.Valid) (hSome : 0 < m)
    (hRotate : ∀ iv, cfg.ivRotationLimit < csl.remaining (csl.rotate iv))
    (ivs : Fin m → CslOperation → Iv) {labels : List (Label T m)}
    (hKeeps : Along (next cfg csl) Label.KeepsTrail (start cfg T m ivs) labels)
    (hRun : execute (next cfg csl) (start cfg T m ivs) labels = some s) :
    CanReach (next cfg csl) Label.Finishes s fun s' => ∀ t, s'.place t = .idle := by
  have hStep : ∀ (s : System T m Iv) (label : Label T m) (s' : System T m Iv), label.KeepsTrail s →
      s.Live cfg csl → s.next cfg csl label = some s' → s'.Live cfg csl := by
    intro s label s' hKeeps h hNext
    have hInv' := h.1.next hValid hNext
    exact ⟨hInv', h.2.next hRotate h.1 hInv' hKeeps hNext⟩
  exact live_finishes hValid hRotate
    (invariant_along hStep labels _ s ⟨inv_start hValid ivs, calm_start ivs⟩ hKeeps hRun) hSome

/-- One thread has pushed half of its work, and the other has the mutex and waits for the token. -/
theorem no_standstill_small :
    CanReach (next smallConfig countingCsl) Label.Finishes
      (reached ((pushOnce 0).take 8 ++ (rotateOnce 1).take 2)) fun s' => ∀ t, s'.place t = .idle := by
  have hKeeps : ∀ label ∈ (pushOnce 0).take 8 ++ (rotateOnce 1).take 2,
      ∀ s : System (Fin 2) 1 Nat, label.KeepsTrail s := by
    intro label hLabel s
    fin_cases hLabel <;> trivial
  have hAlong : Along (next smallConfig countingCsl) Label.KeepsTrail
      (start smallConfig (Fin 2) 1 fun _ _ => 0) ((pushOnce 0).take 8 ++ (rotateOnce 1).take 2) :=
    (along_of_forall hKeeps _).imp fun s _ _ hLabel _ => hLabel s
  refine no_standstill smallConfig_valid Nat.one_pos (fun iv => ?_) (fun _ _ => 0) hAlong
    (execute_reached (by decide))
  change 4 < 15 - (iv / 16 + 1) * 16 % 16
  omega

end System

end FlashCkpt.CopyEngine
