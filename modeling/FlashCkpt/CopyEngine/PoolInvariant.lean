import FlashCkpt.CopyEngine.PoolSteps

/-! The invariant of a pool: each token, lock, claim and push info is with the pool or with one
thread, and a thread that waits for the channels to rotate the key is alone in the pool. -/
namespace FlashCkpt.CopyEngine

open Channel Tally

variable {m : Nat} {Iv : Type}

section Change

variable {cfg : Config} {csl : Csl Iv} {version : Nat} {before after : Option (Nat × Multiset Nat)}
  {c c' : Channel Iv} {a : Action m}

def entriesOf (held : Option (Nat × Multiset Nat)) : Nat := (held.map (·.1)).getD 0

def infosOf (held : Option (Nat × Multiset Nat)) : Multiset Nat := (held.map (·.2)).getD 0

/-- A check of the IVs either leaves the channel alone or finds it idle and rotates. -/
theorem checkIvs_eq {retryIfBusy : Bool} {answer : CslOperation → CslStatus} {checked : Checked}
    (h : checkIvs cfg csl retryIfBusy answer c = some (checked, c')) :
    c' = c ∨ c.pendingGpfifos cfg.numGpfifoEntries = 0 ∧
      c' = (c.rotateChannelIvs csl cfg.ivRotationLimit cfg.ivRemainingLimitMin answer).2 := by
  rw [checkIvs] at h
  split at h
  · cases h
    exact .inl rfl
  · rw [Option.ite_none_right_eq_some] at h
    obtain ⟨hIdle, hRotated⟩ := h
    cases hRotated
    exact .inr ⟨hIdle, rfl⟩

/-- The ring of a channel, with what the other threads claimed and took of it. -/
theorem Change.inv (h : Change cfg csl version a before c after c') (hValid : cfg.Valid)
    {claimed : Nat} {taken : Multiset Nat} (hOthers : Multiset.card taken ≤ claimed)
    (hInv : c.Inv cfg.numGpfifoEntries (claimed + entriesOf before) (taken + infosOf before)) :
    c'.Inv cfg.numGpfifoEntries (claimed + entriesOf after) (taken + infosOf after) := by
  have hBound : cfg.numGpfifoEntries < 2 ^ 32 :=
    Nat.lt_of_le_of_lt (Nat.le_of_dvd (Nat.two_pow_pos 31) hValid.power) (by decide)
  cases h with
  | claim target hClaim => exact hInv.claim hBound hClaim
  | check hCheck =>
      rcases checkIvs_eq hCheck with rfl | ⟨-, rfl⟩
      · exact hInv
      · refine rotateChannelIvs_keeps csl hInv ?_
        exact fun c op h => ⟨h.put, h.get, h.engineGet, h.claims, h.room, h.finished, h.numbered, h.infos⟩
  | begin hTake =>
      have hCard : Multiset.card (taken + infosOf (some (1, 0))) < claimed + 1 := by
        change Multiset.card (taken + 0) < claimed + 1
        rw [Multiset.add_zero]
        omega
      obtain ⟨info, channel, hTaken, hNext⟩ := hInv.takePushInfo hCard
      cases hTake.symm.trans hTaken
      rwa [infosOf, Option.map_some, Option.getD_some, Multiset.add_zero] at hNext
  | write op => exact hInv.logOperation version op
  | ctrl => exact hInv.writeCtrlGpfifo
  | endPush readBack =>
      change Channel.Inv _ claimed (taken + 0) _
      rw [Multiset.add_zero]
      exact hInv.endPush cfg.confComputing readBack version
  | release => exact hInv.release

/-- The operations of a push are the channel's until the push ends. -/
theorem Change.writing (h : Change cfg csl version a before c after c')
    (hBefore : infosOf before = 0 → c.writing = []) (hAfter : infosOf after = 0) : c'.writing = [] := by
  cases h with
  | claim target hClaim =>
      rw [tryClaim, Option.ite_none_right_eq_some] at hClaim
      cases hClaim.2
      exact hBefore rfl
  | check hCheck =>
      rcases checkIvs_eq hCheck with rfl | ⟨-, rfl⟩
      · exact hBefore rfl
      · exact rotateChannelIvs_keeps csl (P := fun c => c.writing = []) (hBefore rfl) fun _ _ h => h
  | begin hTake => exact absurd hAfter (Multiset.singleton_ne_zero _)
  | write op => exact absurd hAfter (Multiset.singleton_ne_zero _)
  | ctrl => exact hBefore rfl
  | endPush readBack => rfl
  | release => exact hBefore rfl

/-- A thread that holds nothing of a channel does not write to its ring. -/
theorem Change.pending (h : Change cfg csl version a none c after c') :
    c'.pendingGpfifos cfg.numGpfifoEntries = c.pendingGpfifos cfg.numGpfifoEntries := by
  cases h with
  | claim target hClaim =>
      rw [tryClaim, Option.ite_none_right_eq_some] at hClaim
      cases hClaim.2
      rfl

end Change

section Shares

variable {p : Place m} {c : Fin m} {held : Option (Nat × Multiset Nat)}

theorem claims_eq (h : p.holding = onChannel c held) : p.claims c = entriesOf held := by
  rw [Place.claims, h]
  cases held with
  | none => rfl
  | some held => exact if_pos rfl

theorem infos_eq (h : p.holding = onChannel c held) : p.infos c = infosOf held := by
  rw [Place.infos, h]
  cases held with
  | none => rfl
  | some held => exact if_pos rfl

theorem claims_eq_zero {c' : Fin m} (h : p.holding = onChannel c held) (hNe : c' ≠ c) :
    p.claims c' = 0 := by
  rw [Place.claims, h]
  cases held with
  | none => rfl
  | some held => exact if_neg (Ne.symm hNe)

theorem infos_eq_zero {c' : Fin m} (h : p.holding = onChannel c held) (hNe : c' ≠ c) :
    p.infos c' = 0 := by
  rw [Place.infos, h]
  cases held with
  | none => rfl
  | some held => exact if_neg (Ne.symm hNe)

theorem claims_of_holding {p' : Place m} (h : p'.holding = p.holding) (c : Fin m) :
    p'.claims c = p.claims c := by rw [Place.claims, Place.claims, h]

theorem infos_of_holding {p' : Place m} (h : p'.holding = p.holding) (c : Fin m) :
    p'.infos c = p.infos c := by rw [Place.infos, Place.infos, h]

/-- A thread has one push info at most for each claimed entry. -/
theorem card_infos_le (p : Place m) (c : Fin m) : Multiset.card (p.infos c) ≤ p.claims c := by
  have hOwn : ∀ held : Holding m, p.holding = some held → Multiset.card held.infos ≤ held.entries := by
    intro held hHeld
    cases p <;> cases hHeld <;> simp
  rw [Place.infos, Place.claims]
  cases hHeld : p.holding with
  | none => exact Nat.le_refl _
  | some held =>
      dsimp only
      split
      · exact hOwn held hHeld
      · exact Nat.le_refl _

end Shares

section Ring

variable {cfg : Config} {csl : Csl Iv} {p p' : Place m} {pool pool' : Pool m Iv} {a : Action m}

theorem Effect.inv (h : Effect cfg csl a p pool p' pool') (hValid : cfg.Valid) (c : Fin m)
    {claimed : Nat} {taken : Multiset Nat} (hOthers : Multiset.card taken ≤ claimed)
    (hInv : (pool.channels c).Inv cfg.numGpfifoEntries (claimed + p.claims c) (taken + p.infos c)) :
    (pool'.channels c).Inv cfg.numGpfifoEntries (claimed + p'.claims c) (taken + p'.infos c) := by
  cases h with
  | quiet hChannels hVersion hHolding hSeen =>
      rw [hChannels, claims_of_holding hHolding, infos_of_holding hHolding]
      exact hInv
  | change c₀ hChange hOld hNew hChannels hVersion hPlace =>
      rw [hChannels]
      by_cases hSame : c = c₀
      · subst hSame
        rw [claims_eq hOld, infos_eq hOld] at hInv
        rw [claims_eq hNew, infos_eq hNew, Function.update_self]
        exact hChange.inv hValid hOthers hInv
      · rw [claims_eq_zero hOld hSame, infos_eq_zero hOld hSame] at hInv
        rw [claims_eq_zero hNew hSame, infos_eq_zero hNew hSame, Function.update_of_ne hSame]
        exact hInv
  | rotated next status hOld hNew hPool =>
      subst hOld hNew hPool
      rw [Pool.rotateKey]
      split
      · exact ⟨hInv.put, hInv.get, hInv.engineGet, hInv.claims, hInv.room, hInv.finished, hInv.numbered,
          hInv.infos⟩
      · exact hInv

theorem Effect.writing (h : Effect cfg csl a p pool p' pool') (c : Fin m)
    (hBefore : p.infos c = 0 → (pool.channels c).writing = []) (hAfter : p'.infos c = 0) :
    (pool'.channels c).writing = [] := by
  cases h with
  | quiet hChannels hVersion hHolding hSeen =>
      rw [hChannels]
      exact hBefore (infos_of_holding hHolding c ▸ hAfter)
  | change c₀ hChange hOld hNew hChannels hVersion hPlace =>
      rw [hChannels]
      by_cases hSame : c = c₀
      · subst hSame
        rw [infos_eq hOld] at hBefore
        rw [infos_eq hNew] at hAfter
        rw [Function.update_self]
        exact hChange.writing hBefore hAfter
      · rw [Function.update_of_ne hSame]
        exact hBefore (infos_eq_zero hOld hSame)
  | rotated next status hOld hNew hPool =>
      subst hOld hNew hPool
      have hWriting := hBefore rfl
      rw [Pool.rotateKey]
      split
      · exact hWriting
      · exact hWriting

/-- A thread that holds no entries leaves the rings alone. -/
theorem Effect.pending (h : Effect cfg csl a p pool p' pool') (hNone : p.holding = none) (c : Fin m) :
    (pool'.channels c).pendingGpfifos cfg.numGpfifoEntries =
      (pool.channels c).pendingGpfifos cfg.numGpfifoEntries := by
  cases h with
  | quiet hChannels hVersion hHolding hSeen => rw [hChannels]
  | change c₀ hChange hOld hNew hChannels hVersion hPlace =>
      rw [hNone, eq_comm, onChannel, Option.map_eq_none_iff] at hOld
      subst hOld
      rw [hChannels]
      by_cases hSame : c = c₀
      · subst hSame
        rw [Function.update_self, hChange.pending]
      · rw [Function.update_of_ne hSame]
  | rotated next status hOld hNew hPool =>
      subst hPool
      rw [Pool.rotateKey]
      split <;> rfl

end Ring

/-- What holds of the threads and the pool together. -/
structure System.Inv {T : Type} [Fintype T] (cfg : Config) (s : System T m Iv) : Prop where
  tokens : cfg.confComputing = true → s.pool.pushSem + ∑ t, (s.place t).tokens = m
  mutex : ∑ t, (s.place t).rotates = s.pool.rotationMutex.toNat
  locks : cfg.confComputing = true → ∀ c, ∑ t, (s.place t).holds c = (s.pool.pushLocks c).toNat
  secure : ∀ t, (s.place t).secure = true → cfg.confComputing = true
  ring : ∀ c, (s.pool.channels c).Inv cfg.numGpfifoEntries (∑ t, (s.place t).claims c)
    (∑ t, (s.place t).infos c)
  writing : ∀ c, (∀ t, (s.place t).infos c = 0) → (s.pool.channels c).writing = []
  idle : ∀ t seen next, s.place t = .waiting seen next → ∀ c : Fin m, c < seen →
    (s.pool.channels c).pendingGpfifos cfg.numGpfifoEntries = 0

namespace System

variable {T : Type} [Fintype T] {cfg : Config} {csl : Csl Iv} {s s' : System T m Iv}

theorem inv_start (hValid : cfg.Valid) (ivs : Fin m → CslOperation → Iv) :
    (start cfg T m ivs).Inv cfg where
  tokens := fun _ => by
    change m + ∑ t : T, 0 = m
    rw [Finset.sum_const_zero, Nat.add_zero]
  mutex := Finset.sum_const_zero
  locks := fun _ _ => Finset.sum_const_zero
  secure := nofun
  ring := fun c => by
    change (Channel.create _ _).Inv _ (∑ t : T, 0) (∑ t : T, 0)
    rw [Finset.sum_const_zero, Finset.sum_const_zero]
    exact inv_create (Nat.lt_of_lt_of_le (by decide) hValid.room) _
  writing := fun _ _ => rfl
  idle := nofun

section Shared

variable (h : s.Inv cfg)
include h

theorem Inv.waiting_secure {t : T} {seen : Nat} {next : Option (Request m)}
    (ht : s.place t = .waiting seen next) : cfg.confComputing = true :=
  h.secure t (by rw [ht]; rfl)

/-- A step that only changes how far a channel has come. -/
theorem Inv.next_channel {c : Fin m} {channel : Channel Iv}
    (hRing : ∀ claimed taken, (s.pool.channels c).Inv cfg.numGpfifoEntries claimed taken →
      channel.Inv cfg.numGpfifoEntries claimed taken)
    (hWriting : channel.writing = (s.pool.channels c).writing)
    (hIdle : (s.pool.channels c).pendingGpfifos cfg.numGpfifoEntries = 0 →
      channel.pendingGpfifos cfg.numGpfifoEntries = 0) :
    ({ s with pool := s.pool.setChannel c channel } : System T m Iv).Inv cfg := by
  refine ⟨h.tokens, h.mutex, h.locks, h.secure, fun c' => ?_, fun c' hNone => ?_, ?_⟩
  · change (Function.update s.pool.channels c channel c').Inv _ _ _
    by_cases hSame : c' = c
    · subst hSame
      rw [Function.update_self]
      exact hRing _ _ (h.ring c')
    · rw [Function.update_of_ne hSame]
      exact h.ring c'
  · change (Function.update s.pool.channels c channel c').writing = []
    by_cases hSame : c' = c
    · subst hSame
      rw [Function.update_self, hWriting]
      exact h.writing c' hNone
    · rw [Function.update_of_ne hSame]
      exact h.writing c' hNone
  · intro t seen next ht c' hc'
    change (Function.update s.pool.channels c channel c').pendingGpfifos _ = 0
    have hOld := h.idle t seen next ht c' hc'
    by_cases hSame : c' = c
    · subst hSame
      rw [Function.update_self]
      exact hIdle hOld
    · rw [Function.update_of_ne hSame]
      exact hOld

end Shared

variable [DecidableEq T]

/-- The other threads have one push info at most for each entry they claimed. -/
theorem card_others_le (s : System T m Iv) (t : T) (c : Fin m) :
    Multiset.card (others (fun p : Place m => p.infos c) s.place t) ≤
      others (fun p : Place m => p.claims c) s.place t := by
  rw [others, others, Multiset.card_sum]
  exact Finset.sum_le_sum fun u _ => card_infos_le _ _

section Reachable

variable (h : s.Inv cfg)
include h

/-- There is a push info for a thread that holds an entry. -/
theorem Inv.exists_push_info {t : T} {c : Fin m} (ht : (s.place t).holding = some ⟨c, 1, 0⟩) :
    ∃ info channel, (s.pool.channels c).takePushInfo = some (info, channel) := by
  have hOwn : (s.place t).holding = onChannel c (some (1, 0)) := ht
  have hRing := h.ring c
  have hOthers := s.card_others_le t c
  rw [sum_eq_others_add (fun p : Place m => p.claims c) s.place t, claims_eq hOwn,
    sum_eq_others_add (fun p : Place m => p.infos c) s.place t, infos_eq hOwn] at hRing
  obtain ⟨info, channel, hTake, -⟩ := hRing.takePushInfo (by
    change Multiset.card (_ + 0) < _ + 1
    rw [Multiset.add_zero]
    exact Nat.lt_succ_of_le hOthers)
  exact ⟨info, channel, hTake⟩

/-- With confidential computing a channel is with one thread at most. -/
theorem Inv.one_holder (hCc : cfg.confComputing = true) {t t' : T} {c : Fin m}
    (ht : (s.place t).holds c = 1) (ht' : (s.place t').holds c = 1) : t = t' := by
  by_contra hNe
  have hTwo := add_le_sum (fun p : Place m => p.holds c) s.place (Ne.symm hNe)
  have hOne := Bool.toNat_le (s.pool.pushLocks c)
  rw [h.locks hCc c] at hTwo
  omega

/-- A thread with all tokens leaves none to the others. -/
theorem Inv.no_tokens (hCc : cfg.confComputing = true) {t t' : T} (hAll : (s.place t).tokens = m)
    (hNe : t' ≠ t) : (s.place t').tokens = 0 := by
  have hTwo := add_le_sum (fun p : Place m => p.tokens) s.place hNe
  have hTokens := h.tokens hCc
  omega

theorem Inv.no_holding (hCc : cfg.confComputing = true) {t t' : T} (hAll : (s.place t).tokens = m)
    (hNe : t' ≠ t) : (s.place t').holding = none := by
  cases hHeld : (s.place t').holding with
  | none => rfl
  | some held =>
      have hTokens := h.no_tokens hCc hAll hNe
      rw [Place.tokens_of_holding hHeld] at hTokens
      cases hTokens

/-- Nothing is written to the channels while a thread waits for them. -/
theorem Inv.waiting_writing {t : T} {seen : Nat} {next : Option (Request m)}
    (ht : s.place t = .waiting seen next) (c : Fin m) : (s.pool.channels c).writing = [] := by
  refine h.writing c fun t' => ?_
  by_cases hSame : t' = t
  · rw [hSame, ht]
    rfl
  · rw [Place.infos, h.no_holding (h.waiting_secure ht) (by rw [ht]; rfl) hSame]

theorem Inv.next_thread (hValid : cfg.Valid) {t : T} {a : Action m} {p : Place m} {pool : Pool m Iv}
    (hAct : act cfg csl (s.place t) s.pool a = some (p, pool)) :
    (⟨Function.update s.place t p, pool⟩ : System T m Iv).Inv cfg := by
  have hMutex : (s.place t).rotates ≤ s.pool.rotationMutex.toNat :=
    h.mutex ▸ le_sum (fun p : Place m => p.rotates) s.place t
  have hActs := acts_of_act hAct
  have hConserved := hActs.conserved hMutex fun hCc c =>
    h.locks hCc c ▸ le_sum (fun p : Place m => p.holds c) s.place t
  have hEffect := hActs.effect
  refine ⟨fun hCc => ?_, ?_, fun hCc c => ?_, fun u hu => ?_, fun c => ?_, fun c hNone => ?_, ?_⟩
  · have hOld := h.tokens hCc
    have hStep := hConserved.tokens hCc
    rw [sum_eq_others_add (fun p : Place m => p.tokens) s.place t] at hOld
    change pool.pushSem + ∑ u, (Function.update s.place t p u).tokens = m
    rw [sum_update (fun p : Place m => p.tokens)]
    omega
  · have hOld := h.mutex
    have hStep := hConserved.mutex
    rw [sum_eq_others_add (fun p : Place m => p.rotates) s.place t] at hOld
    change ∑ u, (Function.update s.place t p u).rotates = pool.rotationMutex.toNat
    rw [sum_update (fun p : Place m => p.rotates)]
    omega
  · have hOld := h.locks hCc c
    have hStep := hConserved.locks hCc c
    rw [sum_eq_others_add (fun p : Place m => p.holds c) s.place t] at hOld
    change ∑ u, (Function.update s.place t p u).holds c = (pool.pushLocks c).toNat
    rw [sum_update (fun p : Place m => p.holds c)]
    omega
  · change (Function.update s.place t p u).secure = true at hu
    by_cases hSame : u = t
    · rw [hSame, Function.update_self] at hu
      exact (hConserved.secure hu).elim (h.secure t) id
    · rw [Function.update_of_ne hSame] at hu
      exact h.secure u hu
  · have hRing := h.ring c
    rw [sum_eq_others_add (fun p : Place m => p.claims c) s.place t,
      sum_eq_others_add (fun p : Place m => p.infos c) s.place t] at hRing
    change (pool.channels c).Inv _ (∑ u, (Function.update s.place t p u).claims c)
      (∑ u, (Function.update s.place t p u).infos c)
    rw [sum_update (fun p : Place m => p.claims c), sum_update (fun p : Place m => p.infos c)]
    exact hEffect.inv hValid c (s.card_others_le t c) hRing
  · have hAfter := hNone t
    change (Function.update s.place t p t).infos c = 0 at hAfter
    rw [Function.update_self] at hAfter
    refine hEffect.writing c (fun hBefore => h.writing c fun u => ?_) hAfter
    by_cases hSame : u = t
    · rw [hSame, hBefore]
    · have hu := hNone u
      change (Function.update s.place t p u).infos c = 0 at hu
      rwa [Function.update_of_ne hSame] at hu
  · intro u seen next hu c hc
    change Function.update s.place t p u = .waiting seen next at hu
    change (pool.channels c).pendingGpfifos _ = 0
    by_cases hSame : u = t
    · -- The thread itself has just seen one channel more idle.
      rw [hSame, Function.update_self] at hu
      cases hEffect with
      | quiet hChannels hVersion hHolding hSeen =>
          rw [hChannels]
          rcases hSeen seen next hu with rfl | ⟨earlier, hEarlier, rfl, hOld, hIdle⟩
          · exact absurd hc (Nat.not_lt_zero _)
          · rcases Nat.lt_or_eq_of_le (Nat.le_of_lt_succ hc) with hLow | hLast
            · exact h.idle t earlier next hOld c hLow
            · have hChannel : c = ⟨earlier, hEarlier⟩ := Fin.ext hLast
              rw [hChannel]
              exact hIdle
      | change c₀ hChange hOld hNew hChannels hVersion hPlace => exact absurd hu (hPlace seen next)
      | rotated next' status hOld hNew hPool =>
          rw [hNew] at hu
          cases hu
    · -- Another thread holds no entries.
      rw [Function.update_of_ne hSame] at hu
      have hAll : (s.place u).tokens = m := by rw [hu]; rfl
      rw [hEffect.pending (h.no_holding (h.waiting_secure hu) hAll (Ne.symm hSame)) c]
      exact h.idle u seen next hu c hc

end Reachable

theorem retire_idle {n completedValue maxToComplete : Nat} {c : Channel Iv}
    (h : c.gpuGet = c.cpuPut) : retire n completedValue maxToComplete c = c := by
  cases maxToComplete with
  | zero => rfl
  | succ maxToComplete => rw [retire_succ, if_pos h]

/-- A step of the engine leaves the driver's side alone. -/
theorem engineStep_engine {n : Nat} {c c' : Channel Iv} (h : c.engineStep csl n = some c') :
    ∃ engine, c' = { c with engine := engine } := by
  rw [engineStep, Option.ite_none_left_eq_some] at h
  obtain ⟨-, h⟩ := h
  dsimp only at h
  split at h
  · cases h
    exact ⟨_, rfl⟩
  · split at h <;> cases h <;> exact ⟨_, rfl⟩

theorem Inv.next (hValid : cfg.Valid) (h : s.Inv cfg) {label : Label T m}
    (hNext : s.next cfg csl label = some s') : s'.Inv cfg := by
  cases label with
  | thread t a =>
      rw [System.next, Option.map_eq_some_iff] at hNext
      obtain ⟨⟨p, pool⟩, hAct, rfl⟩ := hNext
      exact h.next_thread hValid hAct
  | updateProgress c completedValue maxToComplete =>
      rw [System.next, Option.ite_none_right_eq_some] at hNext
      obtain ⟨hSeen, hNext⟩ := hNext
      cases hNext
      refine h.next_channel (fun _ _ hRing => hRing.retire hSeen maxToComplete) ?_ ?_
      · change (retire _ _ _ _).writing = _
        rw [retire_frame]
      · intro hIdle
        change (retire _ _ _ _).pendingGpfifos _ = 0
        rw [pendingGpfifos, GetPutRing.pending_eq_zero (h.ring c).get] at hIdle
        rw [retire_idle hIdle, pendingGpfifos, hIdle, GetPutRing.pending_self]
  | engine c =>
      rw [System.next, Option.map_eq_some_iff] at hNext
      obtain ⟨channel, hStep, rfl⟩ := hNext
      have hRing : ∀ claimed taken, (s.pool.channels c).Inv cfg.numGpfifoEntries claimed taken →
          channel.Inv cfg.numGpfifoEntries claimed taken := fun _ _ hRing => hRing.engineStep hStep
      obtain ⟨engine, rfl⟩ := engineStep_engine hStep
      exact h.next_channel hRing rfl id

theorem inv_run (hValid : cfg.Valid) (ivs : Fin m → CslOperation → Iv) {labels : List (Label T m)}
    (hRun : Transition.execute (System.next cfg csl) (start cfg T m ivs) labels = some s) : s.Inv cfg :=
  Transition.invariant_execute (fun _ _ _ h hNext => h.next hValid hNext) labels _ s
    (inv_start hValid ivs) hRun

end System

end FlashCkpt.CopyEngine
