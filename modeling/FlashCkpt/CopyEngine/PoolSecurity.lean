import FlashCkpt.CopyEngine.PoolInvariant

/-! Key rotation across the threads: the engine's keys and IVs stay those that the CPU keeps, as
IVs are rotated on an idle locked channel and the key while one thread has all tokens. -/
namespace FlashCkpt.CopyEngine

open Channel Tally

variable {m : Nat} {Iv : Type} [Preorder Iv]

section Change

variable {cfg : Config} {csl : Csl Iv} {version : Nat} {before after : Option (Nat × Multiset Nat)}
  {c c' : Channel Iv} {claimed : Nat} {taken : Multiset Nat} {a : Action m}

omit [Preorder Iv] in
theorem Channel.Inv.unfinished_idle {n : Nat} (h : c.Inv n claimed taken)
    (hIdle : c.pendingGpfifos n = 0) : c.unfinished n = [] := by
  have hLength := h.finished.length_le
  rw [unretired, GetPutRing.contents_length] at hLength
  exact List.length_eq_zero_iff.mp (Nat.le_zero.mp (hIdle ▸ hLength))

/-- What a thread does to a channel that it holds alone keeps both sides together. -/
theorem Change.sealed (h : Change cfg csl version a before c after c') (hRises : csl.Rises)
    (hInv : c.Inv cfg.numGpfifoEntries (claimed + entriesOf before) taken)
    (hQuiet : ∀ count, before = some (count, 0) → c.writing = [])
    (hSealed : c.Sealed csl cfg.numGpfifoEntries version) :
    c'.Sealed csl cfg.numGpfifoEntries version := by
  cases h with
  | claim target hClaim =>
      rw [tryClaim, Option.ite_none_right_eq_some] at hClaim
      cases hClaim.2
      exact ⟨hSealed.idle, hSealed.follows, hSealed.versions, hSealed.key, hSealed.agreed, hSealed.past,
        hSealed.once⟩
  | check hCheck =>
      rcases checkIvs_eq hCheck with rfl | ⟨hIdle, rfl⟩
      · exact hSealed
      · exact hSealed.rotateChannelIvs hRises (hInv.unfinished_idle hIdle) (hQuiet _ rfl) _ _ _
  | begin hTake =>
      rw [takePushInfo] at hTake
      split at hTake <;> cases hTake
      exact ⟨hSealed.idle, hSealed.follows, hSealed.versions, hSealed.key, hSealed.agreed, hSealed.past,
        hSealed.once⟩
  | write op => exact hSealed.logOperation op
  | ctrl =>
      have hClaimed : c.Inv cfg.numGpfifoEntries (claimed + 1 + 1) taken := hInv
      exact hSealed.writeCtrlGpfifo hClaimed (hQuiet _ rfl)
  | endPush readBack => exact hSealed.endPush hInv cfg.confComputing readBack _
  | release =>
      exact ⟨hSealed.idle, hSealed.follows, hSealed.versions, hSealed.key, hSealed.agreed, hSealed.past,
        hSealed.once⟩

omit [Preorder Iv] in
theorem Change.slots (h : Change cfg csl version a before c after c') (hValid : cfg.Valid)
    (hCc : cfg.confComputing = true)
    (hInv : c.Inv cfg.numGpfifoEntries (claimed + entriesOf before) taken)
    (hSlots : c.Slots cfg.numGpfifoEntries) : c'.Slots cfg.numGpfifoEntries := by
  cases h with
  | claim target hClaim =>
      rw [tryClaim, Option.ite_none_right_eq_some] at hClaim
      cases hClaim.2
      exact ⟨hSlots.notifier, hSlots.queued, hSlots.released⟩
  | check hCheck =>
      rcases checkIvs_eq hCheck with rfl | ⟨hIdle, rfl⟩
      · exact hSlots
      · exact hSlots.rotateChannelIvs _ _ _
  | begin hTake =>
      rw [takePushInfo] at hTake
      split at hTake <;> cases hTake
      exact ⟨hSlots.notifier, hSlots.queued, hSlots.released⟩
  | write op => exact hSlots.logOperation op
  | ctrl =>
      have hClaimed : c.Inv cfg.numGpfifoEntries (claimed + 1 + 1) taken := hInv
      exact hSlots.writeCtrlGpfifo hClaimed
  | endPush readBack =>
      rw [hCc]
      exact hSlots.endPush hValid.power hInv readBack _
  | release => exact ⟨hSlots.notifier, hSlots.queued, hSlots.released⟩

end Change

/-- Every channel holds what its engine takes, under the version of the pool's key. -/
structure System.Secure {T : Type} (cfg : Config) (csl : Csl Iv) (s : System T m Iv) : Prop where
  isSealed : ∀ c, (s.pool.channels c).Sealed csl cfg.numGpfifoEntries s.pool.version
  slots : ∀ c, (s.pool.channels c).Slots cfg.numGpfifoEntries

namespace System

variable {T : Type} {cfg : Config} {csl : Csl Iv} {s s' : System T m Iv}

theorem secure_start (ivs : Fin m → CslOperation → Iv) : (start cfg T m ivs).Secure cfg csl where
  isSealed := fun _ => sealed_create _ _
  slots := fun _ => slots_create _ _

theorem Secure.set_channel (h : s.Secure cfg csl) {place : T → Place m} {c : Fin m} {channel : Channel Iv}
    {pool : Pool m Iv} (hChannels : pool.channels = Function.update s.pool.channels c channel)
    (hVersion : pool.version = s.pool.version)
    (hSealed : channel.Sealed csl cfg.numGpfifoEntries s.pool.version)
    (hSlots : channel.Slots cfg.numGpfifoEntries) : (⟨place, pool⟩ : System T m Iv).Secure cfg csl := by
  refine ⟨fun c' => ?_, fun c' => ?_⟩
  · change (pool.channels c').Sealed csl _ pool.version
    rw [hChannels, hVersion]
    by_cases hSame : c' = c
    · subst hSame
      rwa [Function.update_self]
    · rw [Function.update_of_ne hSame]
      exact h.isSealed c'
  · change (pool.channels c').Slots _
    rw [hChannels]
    by_cases hSame : c' = c
    · subst hSame
      rwa [Function.update_self]
    · rw [Function.update_of_ne hSame]
      exact h.slots c'

variable [Fintype T] [DecidableEq T]

omit [Preorder Iv] in
/-- No push is written to a channel that a thread holds without a push of its own. -/
theorem Inv.quiet (h : s.Inv cfg) (hCc : cfg.confComputing = true) {t : T} {c : Fin m} {count : Nat}
    (hHeld : (s.place t).holding = some ⟨c, count, 0⟩) : (s.pool.channels c).writing = [] := by
  refine h.writing c fun u => ?_
  by_cases hSame : u = t
  · rw [hSame, Place.infos, hHeld]
    exact ite_self 0
  · rw [Place.infos]
    cases hOther : (s.place u).holding with
    | none => rfl
    | some held =>
        refine if_neg fun hChannel => hSame ?_
        have hu := Place.holds_self hOther
        rw [hChannel] at hu
        exact h.one_holder hCc hu (Place.holds_self hHeld)

theorem Secure.next (hValid : cfg.Valid) (hCc : cfg.confComputing = true) (hRises : csl.Rises)
    (hInv : s.Inv cfg) (h : s.Secure cfg csl) {label : Label T m}
    (hNext : s.next cfg csl label = some s') : s'.Secure cfg csl := by
  cases label with
  | thread t a =>
      rw [System.next, Option.map_eq_some_iff] at hNext
      obtain ⟨⟨p, pool⟩, hAct, rfl⟩ := hNext
      cases (acts_of_act hAct).effect with
      | quiet hChannels hVersion hHolding hSeen =>
          refine ⟨fun c => ?_, fun c => ?_⟩
          · change (pool.channels c).Sealed csl _ pool.version
            rw [hChannels, hVersion]
            exact h.isSealed c
          · change (pool.channels c).Slots _
            rw [hChannels]
            exact h.slots c
      | change c hChange hOld hNew hChannels hVersion hPlace =>
          have hRing := hInv.ring c
          rw [sum_eq_others_add (fun p : Place m => p.claims c) s.place t, claims_eq hOld] at hRing
          refine h.set_channel hChannels hVersion (hChange.sealed hRises hRing ?_ (h.isSealed c))
            (hChange.slots hValid hCc hRing (h.slots c))
          rintro count rfl
          exact hInv.quiet hCc hOld
      | rotated next status hOld hNew hPool =>
          have hIdle : ∀ c, (s.pool.channels c).unfinished cfg.numGpfifoEntries = [] := fun c =>
            (hInv.ring c).unfinished_idle (hInv.idle t m next hOld c c.isLt)
          have hWriting := hInv.waiting_writing hOld
          subst hPool
          rcases eq_or_ne status .ok with hOk | hOther
          · rw [Pool.rotateKey, if_pos hOk]
            exact ⟨fun c => (h.isSealed c).rekey (hIdle c) (hWriting c),
              fun c => ⟨(h.slots c).notifier, (h.slots c).queued, (h.slots c).released⟩⟩
          · rw [Pool.rotateKey, if_neg hOther]
            exact ⟨h.isSealed, h.slots⟩
  | updateProgress c completedValue maxToComplete =>
      rw [System.next, Option.ite_none_right_eq_some] at hNext
      cases hNext.2
      exact h.set_channel rfl rfl ((h.isSealed c).retire _ _) ((h.slots c).retire _ _)
  | engine c =>
      rw [System.next, Option.map_eq_some_iff] at hNext
      obtain ⟨channel, hStep, rfl⟩ := hNext
      exact h.set_channel rfl rfl ((h.isSealed c).engineStep hRises (hInv.ring c) hStep)
        ((h.slots c).engineStep (hInv.ring c) hStep)

theorem secure_run (hValid : cfg.Valid) (hCc : cfg.confComputing = true) (hRises : csl.Rises)
    (ivs : Fin m → CslOperation → Iv) {labels : List (Label T m)}
    (hRun : Transition.execute (System.next cfg csl) (start cfg T m ivs) labels = some s) :
    s.Secure cfg csl := by
  have hStep : ∀ (s : System T m Iv) label t, s.Inv cfg ∧ s.Secure cfg csl →
      s.next cfg csl label = some t → t.Inv cfg ∧ t.Secure cfg csl :=
    fun _ _ _ h hNext => ⟨h.1.next hValid hNext, h.2.next hValid hCc hRises h.1 hNext⟩
  exact (Transition.invariant_execute hStep labels _ s ⟨inv_start hValid ivs, secure_start ivs⟩ hRun).2

end System

end FlashCkpt.CopyEngine
