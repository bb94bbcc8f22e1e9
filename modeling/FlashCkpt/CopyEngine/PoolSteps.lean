import FlashCkpt.CopyEngine.Pool

/-! What a thread holds at each place, and what a step of it does to the pool. -/
namespace FlashCkpt.CopyEngine

open Channel

variable {m : Nat} {Iv : Type}

section Steps

/-- The steps of a thread, each with what it takes. -/
inductive Acts (cfg : Config) (csl : Csl Iv) (pool : Pool m Iv) :
    Place m → Action m → Place m → Pool m Iv → Prop where
  | reserveOpen {r : Request m} (hCc : cfg.confComputing = false) :
      Acts cfg csl pool .idle (.reserve r) (.claiming r) pool
  | reserveDown {r : Request m} (hCc : cfg.confComputing = true)
      (hKey : cfg.keyRotationEnabled = false) : Acts cfg csl pool .idle (.reserve r) (.down r) pool
  | reserveRotating {r : Request m} (hCc : cfg.confComputing = true)
      (hKey : cfg.keyRotationEnabled = true) :
      Acts cfg csl pool .idle (.reserve r) (.rotating (some r)) pool
  | rotateKey (hCc : cfg.confComputing = true) (hKey : cfg.keyRotationEnabled = true) :
      Acts cfg csl pool .idle .rotateKey (.rotating none) pool
  | lockRotation {next : Option (Request m)} {pending : Bool} (hFree : pool.rotationMutex = false)
      (hDue : (next.isNone || pending) = true) :
      Acts cfg csl pool (.rotating next) (.lockRotation pending) (.reserveAll 0 next)
        { pool with rotationMutex := true }
  | skipRotation {next : Option (Request m)} {pending : Bool} (hFree : pool.rotationMutex = false)
      (hDue : (next.isNone || pending) = false) :
      Acts cfg csl pool (.rotating next) (.lockRotation pending) (.releaseAll 0 next)
        { pool with rotationMutex := true }
  | downAll {taken : Nat} {next : Option (Request m)} (hTaken : taken < m) (hSem : pool.pushSem ≠ 0) :
      Acts cfg csl pool (.reserveAll taken next) .down (.reserveAll (taken + 1) next)
        { pool with pushSem := pool.pushSem - 1 }
  | downOne {r : Request m} (hSem : pool.pushSem ≠ 0) :
      Acts cfg csl pool (.down r) .down (.claiming r) { pool with pushSem := pool.pushSem - 1 }
  | startWait {next : Option (Request m)} :
      Acts cfg csl pool (.reserveAll m next) .startWait (.waiting 0 next) pool
  | seenIdle {seen : Nat} {next : Option (Request m)} (hSeen : seen < m)
      (hIdle : (pool.channels ⟨seen, hSeen⟩).pendingGpfifos cfg.numGpfifoEntries = 0) :
      Acts cfg csl pool (.waiting seen next) .seenIdle (.waiting (seen + 1) next) pool
  | waitFailed {seen : Nat} {next : Option (Request m)} (hSeen : seen < m) :
      Acts cfg csl pool (.waiting seen next) .waitFailed (.releaseAll m none) pool
  | rotate {next : Option (Request m)} {status : CslStatus} :
      Acts cfg csl pool (.waiting m next) (.rotate status)
        (.releaseAll m (afterRotation next status)) (pool.rotateKey csl status)
  | up {left : Nat} {next : Option (Request m)} :
      Acts cfg csl pool (.releaseAll (left + 1) next) .up (.releaseAll left next) pool.upSem
  | unlockIdle :
      Acts cfg csl pool (.releaseAll 0 none) .unlockRotation .idle { pool with rotationMutex := false }
  | unlockDown {r : Request m} :
      Acts cfg csl pool (.releaseAll 0 (some r)) .unlockRotation (.down r)
        { pool with rotationMutex := false }
  | claimOpen {r : Request m} {c : Fin m} {channel : Channel Iv} (hCc : cfg.confComputing = false)
      (hClaim : (pool.channels c).tryClaim cfg.numGpfifoEntries r.numGpfifoEntries = some channel) :
      Acts cfg csl pool (.claiming r) (.claim c) (.reserved c r.numGpfifoEntries true)
        (pool.setChannel c channel)
  | claimLocked {r : Request m} {c : Fin m} {channel : Channel Iv} (hCc : cfg.confComputing = true)
      (hFree : pool.pushLocks c = false)
      (hClaim : (pool.channels c).tryClaim cfg.numGpfifoEntries r.numGpfifoEntries = some channel) :
      Acts cfg csl pool (.claiming r) (.claim c) (.reserved c r.numGpfifoEntries false)
        ((pool.setChannel c channel).lock c)
  | giveUpOpen {r : Request m} (hCc : cfg.confComputing = false) :
      Acts cfg csl pool (.claiming r) .giveUp .idle pool
  | giveUpToken {r : Request m} (hCc : cfg.confComputing = true) :
      Acts cfg csl pool (.claiming r) .giveUp .idle pool.upSem
  | goOnReserved {c : Fin m} {entries : Nat} {answer : CslOperation → CslStatus} {channel : Channel Iv}
      (hCheck : checkIvs cfg csl (entries = 2) answer (pool.channels c) = some (.goOn, channel)) :
      Acts cfg csl pool (.reserved c entries false) (.checkIvs answer) (.reserved c entries true) (pool.setChannel c channel)
  | againReserved {c : Fin m} {entries : Nat} {answer : CslOperation → CslStatus} {channel : Channel Iv}
      (hCheck : checkIvs cfg csl (entries = 2) answer (pool.channels c) = some (.again, channel)) :
      Acts cfg csl pool (.reserved c entries false) (.checkIvs answer) (.reserved c entries false) (pool.setChannel c channel)
  | failedReserved {c : Fin m} {entries : Nat} {answer : CslOperation → CslStatus} {channel : Channel Iv}
      (hCheck : checkIvs cfg csl (entries = 2) answer (pool.channels c) = some (.failed, channel)) :
      Acts cfg csl pool (.reserved c entries false) (.checkIvs answer) (.releasing c entries) (pool.setChannel c channel)
  | goOnCtrl {c : Fin m} {answer : CslOperation → CslStatus} {channel : Channel Iv}
      (hCheck : checkIvs cfg csl false answer (pool.channels c) = some (.goOn, channel)) :
      Acts cfg csl pool (.ctrlWritten c false) (.checkIvs answer) (.ctrlWritten c true) (pool.setChannel c channel)
  | againCtrl {c : Fin m} {answer : CslOperation → CslStatus} {channel : Channel Iv}
      (hCheck : checkIvs cfg csl false answer (pool.channels c) = some (.again, channel)) :
      Acts cfg csl pool (.ctrlWritten c false) (.checkIvs answer) (.ctrlWritten c false) (pool.setChannel c channel)
  | failedCtrl {c : Fin m} {answer : CslOperation → CslStatus} {channel : Channel Iv}
      (hCheck : checkIvs cfg csl false answer (pool.channels c) = some (.failed, channel)) :
      Acts cfg csl pool (.ctrlWritten c false) (.checkIvs answer) (.releasing c 1) (pool.setChannel c channel)
  | failReserved {c : Fin m} {entries : Nat} {checked : Bool} :
      Acts cfg csl pool (.reserved c entries checked) .fail (.releasing c entries) pool
  | failCtrl {c : Fin m} {checked : Bool} :
      Acts cfg csl pool (.ctrlWritten c checked) .fail (.releasing c 1) pool
  | beginReserved {c : Fin m} {info : Nat} {channel : Channel Iv}
      (hTake : (pool.channels c).takePushInfo = some (info, channel)) :
      Acts cfg csl pool (.reserved c 1 true) .begin (.pushing c info) (pool.setChannel c channel)
  | beginCtrl {c : Fin m} {info : Nat} {channel : Channel Iv}
      (hTake : (pool.channels c).takePushInfo = some (info, channel)) :
      Acts cfg csl pool (.ctrlWritten c true) .begin (.pushing c info) (pool.setChannel c channel)
  | write {c : Fin m} {info : Nat} {op : CslOperation} (hCc : cfg.confComputing = true) :
      Acts cfg csl pool (.pushing c info) (.write op) (.pushing c info)
        (pool.setChannel c ((pool.channels c).logOperation csl pool.version op))
  | writeCtrl {c : Fin m} :
      Acts cfg csl pool (.reserved c 2 true) .writeCtrl (.ctrlWritten c (!cfg.confComputing))
        (pool.setChannel c ((pool.channels c).writeCtrlGpfifo cfg.numGpfifoEntries))
  | endPush {c : Fin m} {info : Nat} {readBack : Bool} :
      Acts cfg csl pool (.pushing c info) (.endPush readBack) .idle
        ((pool.setChannel c ((pool.channels c).endPush csl cfg.numGpfifoEntries cfg.confComputing
          readBack pool.version info)).unlock cfg.confComputing c)
  | release {c : Fin m} {entries : Nat} :
      Acts cfg csl pool (.releasing c entries) .release .idle
        ((pool.setChannel c ((pool.channels c).release entries)).unlock cfg.confComputing c)

variable {cfg : Config} {csl : Csl Iv} {p p' : Place m} {pool pool' : Pool m Iv} {a : Action m}

/-- A thread has no other steps. -/
theorem acts_of_act (h : act cfg csl p pool a = some (p', pool')) : Acts cfg csl pool p a p' pool' := by
  cases a with
  | reserve r =>
      cases p <;> simp only [act, reduceCtorEq, Option.some.injEq, Prod.mk.injEq] at h
      obtain ⟨rfl, rfl⟩ := h
      cases hCc : cfg.confComputing
      · exact .reserveOpen hCc
      · cases hKey : cfg.keyRotationEnabled
        · exact .reserveDown hCc hKey
        · exact .reserveRotating hCc hKey
  | rotateKey =>
      cases p <;> simp only [act, reduceCtorEq, Option.ite_none_right_eq_some, Option.some.injEq,
        Prod.mk.injEq, Bool.and_eq_true] at h
      obtain ⟨⟨hCc, hKey⟩, rfl, rfl⟩ := h
      exact .rotateKey hCc hKey
  | lockRotation pending =>
      cases p <;> simp only [act, reduceCtorEq, Option.ite_none_left_eq_some, Option.some.injEq,
        Prod.mk.injEq, Bool.not_eq_true] at h
      obtain ⟨hFree, rfl, rfl⟩ := h
      split
      · next hDue => exact .lockRotation hFree hDue
      · next hDue => exact .skipRotation hFree (eq_false_of_ne_true hDue)
  | down =>
      cases p <;> simp only [act, reduceCtorEq, Option.ite_none_right_eq_some, Option.map_eq_some_iff,
        Prod.mk.injEq, Pool.downSem, Option.ite_none_left_eq_some, Option.some.injEq] at h
      · obtain ⟨hTaken, _, ⟨hSem, rfl⟩, rfl, rfl⟩ := h
        exact .downAll hTaken hSem
      · obtain ⟨_, ⟨hSem, rfl⟩, rfl, rfl⟩ := h
        exact .downOne hSem
  | startWait =>
      cases p <;> simp only [act, reduceCtorEq, Option.ite_none_right_eq_some, Option.some.injEq,
        Prod.mk.injEq] at h
      obtain ⟨rfl, rfl, rfl⟩ := h
      exact .startWait
  | seenIdle =>
      cases p with
      | waiting seen next =>
          simp only [act] at h
          split at h
          · next hSeen =>
              rw [Option.ite_none_right_eq_some, Option.some.injEq, Prod.mk.injEq] at h
              obtain ⟨hIdle, rfl, rfl⟩ := h
              exact .seenIdle hSeen hIdle
          · cases h
      | _ => cases h
  | waitFailed =>
      cases p <;> simp only [act, reduceCtorEq, Option.ite_none_right_eq_some, Option.some.injEq,
        Prod.mk.injEq] at h
      obtain ⟨hSeen, rfl, rfl⟩ := h
      exact .waitFailed hSeen
  | rotate status =>
      cases p <;> simp only [act, reduceCtorEq, Option.ite_none_right_eq_some, Option.some.injEq,
        Prod.mk.injEq] at h
      obtain ⟨rfl, rfl, rfl⟩ := h
      exact .rotate
  | up =>
      cases p with
      | releaseAll left next =>
          cases left <;> cases h
          exact .up
      | _ => cases h
  | unlockRotation =>
      cases p with
      | releaseAll left next =>
          cases left <;> cases next <;> cases h
          · exact .unlockIdle
          · exact .unlockDown
      | _ => cases h
  | claim c =>
      cases p <;> simp only [act, reduceCtorEq, Option.map_eq_some_iff, Prod.mk.injEq, claimChannel,
        Option.ite_none_right_eq_some] at h
      obtain ⟨_, ⟨hFree, channel, hClaim, rfl⟩, rfl, rfl⟩ := h
      cases hCc : cfg.confComputing
      · exact .claimOpen hCc hClaim
      · rw [hCc, Bool.true_and, Bool.and_eq_true, Bool.not_eq_true'] at hFree
        exact .claimLocked hCc hFree.2 hClaim
  | giveUp =>
      cases p <;> simp only [act, reduceCtorEq, Option.some.injEq, Prod.mk.injEq] at h
      obtain ⟨rfl, rfl⟩ := h
      cases hCc : cfg.confComputing
      · exact .giveUpOpen hCc
      · exact .giveUpToken hCc
  | checkIvs answer =>
      cases p with
      | reserved c entries checked =>
          cases checked <;> simp only [act, reduceCtorEq, Option.map_eq_some_iff, Prod.mk.injEq] at h
          obtain ⟨⟨checked, channel⟩, hCheck, rfl, rfl⟩ := h
          cases checked
          · exact .goOnReserved hCheck
          · exact .againReserved hCheck
          · exact .failedReserved hCheck
      | ctrlWritten c checked =>
          cases checked <;> simp only [act, reduceCtorEq, Option.map_eq_some_iff, Prod.mk.injEq] at h
          obtain ⟨⟨checked, channel⟩, hCheck, rfl, rfl⟩ := h
          cases checked
          · exact .goOnCtrl hCheck
          · exact .againCtrl hCheck
          · exact .failedCtrl hCheck
      | _ => cases h
  | fail =>
      cases p <;> simp only [act, reduceCtorEq, Option.some.injEq, Prod.mk.injEq] at h <;>
        obtain ⟨rfl, rfl⟩ := h
      · exact .failReserved
      · exact .failCtrl
  | begin =>
      simp only [act] at h
      split at h
      · simp only [Option.map_eq_some_iff, Prod.mk.injEq] at h
        obtain ⟨⟨info, channel⟩, hTake, rfl, rfl⟩ := h
        exact .beginReserved hTake
      · simp only [Option.map_eq_some_iff, Prod.mk.injEq] at h
        obtain ⟨⟨info, channel⟩, hTake, rfl, rfl⟩ := h
        exact .beginCtrl hTake
      · cases h
  | write op =>
      cases p <;> simp only [act, reduceCtorEq, Option.ite_none_right_eq_some, Option.some.injEq,
        Prod.mk.injEq] at h
      obtain ⟨hCc, rfl, rfl⟩ := h
      exact .write hCc
  | writeCtrl =>
      simp only [act] at h
      split at h
      · cases h
        exact .writeCtrl
      · cases h
  | endPush readBack =>
      cases p <;> simp only [act, reduceCtorEq, Option.some.injEq, Prod.mk.injEq] at h
      obtain ⟨rfl, rfl⟩ := h
      exact .endPush
  | release =>
      cases p <;> simp only [act, reduceCtorEq, Option.some.injEq, Prod.mk.injEq] at h
      obtain ⟨rfl, rfl⟩ := h
      exact .release

end Steps

/-- The entries of a channel that a thread claimed, with the push info of its push. -/
structure Holding (m : Nat) where
  channel : Fin m
  entries : Nat
  infos : Multiset Nat

namespace Place

def tokens : Place m → Nat
  | .idle => 0
  | .rotating _ => 0
  | .reserveAll taken _ => taken
  | .waiting _ _ => m
  | .releaseAll left _ => left
  | .down _ => 0
  | .claiming _ => 1
  | .reserved _ _ _ => 1
  | .ctrlWritten _ _ => 1
  | .pushing _ _ => 1
  | .releasing _ _ => 1

/-- The thread has the mutex of the key rotation. -/
def rotates : Place m → Nat
  | .reserveAll _ _ => 1
  | .waiting _ _ => 1
  | .releaseAll _ _ => 1
  | _ => 0

/-- Places that are reached with confidential computing only. -/
def secure : Place m → Bool
  | .rotating _ => true
  | .reserveAll _ _ => true
  | .waiting _ _ => true
  | .releaseAll _ _ => true
  | .down _ => true
  | _ => false

def holding : Place m → Option (Holding m)
  | .reserved c entries _ => some ⟨c, entries, 0⟩
  | .ctrlWritten c _ => some ⟨c, 1, 0⟩
  | .pushing c info => some ⟨c, 1, {info}⟩
  | .releasing c entries => some ⟨c, entries, 0⟩
  | _ => none

def holds (c : Fin m) (p : Place m) : Nat :=
  match p.holding with
  | none => 0
  | some held => if held.channel = c then 1 else 0

def claims (c : Fin m) (p : Place m) : Nat :=
  match p.holding with
  | none => 0
  | some held => if held.channel = c then held.entries else 0

def infos (c : Fin m) (p : Place m) : Multiset Nat :=
  match p.holding with
  | none => 0
  | some held => if held.channel = c then held.infos else 0

theorem tokens_of_holding {p : Place m} {held : Holding m} (h : p.holding = some held) :
    p.tokens = 1 := by
  cases p <;> first | rfl | cases h

theorem holds_self {p : Place m} {held : Holding m} (h : p.holding = some held) :
    p.holds held.channel = 1 := by
  rw [holds, h]
  exact if_pos rfl

end Place

section Conserved

variable {cfg : Config} {csl : Csl Iv} {p p' : Place m} {pool pool' : Pool m Iv} {a : Action m}

/-- Tokens, the mutex and the locks only pass between the pool and the thread. -/
structure Conserved (confComputing : Bool) (p : Place m) (pool : Pool m Iv) (p' : Place m)
    (pool' : Pool m Iv) : Prop where
  tokens : confComputing = true → pool'.pushSem + p'.tokens = pool.pushSem + p.tokens
  mutex : p'.rotates + pool.rotationMutex.toNat = p.rotates + pool'.rotationMutex.toNat
  locks : confComputing = true → ∀ c,
    p'.holds c + (pool.pushLocks c).toNat = p.holds c + (pool'.pushLocks c).toNat
  secure : p'.secure = true → p.secure = true ∨ confComputing = true

theorem conserved_unlock {confComputing : Bool} {held : Holding m} (hHeld : p.holding = some held)
    (hNone : p'.holding = none) (hTokens : p'.tokens = 0) (hOld : p.rotates = 0) (hNew : p'.rotates = 0)
    (hSecure : p'.secure = false)
    (hLocks : confComputing = true → ∀ c, p.holds c ≤ (pool.pushLocks c).toNat)
    {channels : Fin m → Channel Iv} :
    Conserved confComputing p pool p'
      (({ pool with channels := channels } : Pool m Iv).unlock confComputing held.channel) := by
  refine ⟨?_, ?_, ?_, ?_⟩
  · rintro rfl
    rw [hTokens, Place.tokens_of_holding hHeld]
    rfl
  · rw [hOld, hNew]
    cases confComputing <;> rfl
  · rintro rfl c
    have hLock := hLocks rfl c
    rw [Place.holds, hNone]
    rw [Place.holds, hHeld] at hLock ⊢
    change 0 + _ = _ + (Function.update pool.pushLocks held.channel false c).toNat
    by_cases hSame : held.channel = c
    · subst hSame
      rw [Function.update_self]
      simp only [if_true] at hLock ⊢
      have := Bool.toNat_le (pool.pushLocks held.channel)
      simp only [Bool.toNat_false]
      omega
    · rw [Function.update_of_ne (Ne.symm hSame)]
      simp only [hSame, if_false]
  · intro h
    rw [hSecure] at h
    cases h

theorem Acts.conserved (h : Acts cfg csl pool p a p' pool')
    (hMutex : p.rotates ≤ pool.rotationMutex.toNat)
    (hLocks : cfg.confComputing = true → ∀ c, p.holds c ≤ (pool.pushLocks c).toNat) :
    Conserved cfg.confComputing p pool p' pool' := by
  have hUnlock : ∀ {next : Place m}, p.rotates = 1 → next.rotates = 0 →
      next.rotates + pool.rotationMutex.toNat = p.rotates + false.toNat := by
    intro next hOld hNew
    have hHeld : pool.rotationMutex.toNat = 1 := Nat.le_antisymm (Bool.toNat_le _) (hOld ▸ hMutex)
    rw [hOld, hNew, hHeld]
    rfl
  have hOpen : ∀ {q : Prop}, false = true → q := fun h => absurd h Bool.false_ne_true
  cases h with
  | reserveOpen hCc =>
      rw [hCc]
      exact ⟨hOpen, rfl, hOpen, hOpen⟩
  | reserveDown hCc => exact ⟨fun _ => rfl, rfl, fun _ _ => rfl, fun _ => .inr hCc⟩
  | reserveRotating hCc => exact ⟨fun _ => rfl, rfl, fun _ _ => rfl, fun _ => .inr hCc⟩
  | rotateKey hCc => exact ⟨fun _ => rfl, rfl, fun _ _ => rfl, fun _ => .inr hCc⟩
  | lockRotation hFree =>
      refine ⟨fun _ => rfl, ?_, fun _ _ => rfl, fun _ => .inl rfl⟩
      rw [hFree]
      rfl
  | skipRotation hFree =>
      refine ⟨fun _ => rfl, ?_, fun _ _ => rfl, fun _ => .inl rfl⟩
      rw [hFree]
      rfl
  | @downAll taken next hTaken hSem =>
      refine ⟨fun _ => ?_, rfl, fun _ _ => rfl, fun _ => .inl rfl⟩
      change pool.pushSem - 1 + (taken + 1) = pool.pushSem + taken
      omega
  | downOne hSem =>
      refine ⟨fun _ => ?_, rfl, fun _ _ => rfl, fun _ => .inl rfl⟩
      change pool.pushSem - 1 + 1 = pool.pushSem + 0
      omega
  | rotate =>
      rw [Pool.rotateKey]
      split <;> exact ⟨fun _ => rfl, rfl, fun _ _ => rfl, fun _ => .inl rfl⟩
  | @up left next =>
      refine ⟨fun _ => ?_, rfl, fun _ _ => rfl, fun _ => .inl rfl⟩
      change pool.pushSem + 1 + left = pool.pushSem + (left + 1)
      omega
  | unlockIdle => exact ⟨fun _ => rfl, hUnlock rfl rfl, fun _ _ => rfl, hOpen⟩
  | unlockDown => exact ⟨fun _ => rfl, hUnlock rfl rfl, fun _ _ => rfl, fun _ => .inl rfl⟩
  | claimOpen hCc =>
      rw [hCc]
      exact ⟨hOpen, rfl, hOpen, hOpen⟩
  | @claimLocked r c channel hCc hFree hClaim =>
      refine ⟨fun _ => rfl, rfl, fun _ c' => ?_, hOpen⟩
      change (if c = c' then 1 else 0) + (pool.pushLocks c').toNat =
        0 + (Function.update pool.pushLocks c true c').toNat
      by_cases hSame : c = c'
      · subst hSame
        rw [if_pos rfl, hFree, Function.update_self]
        rfl
      · rw [if_neg hSame, Function.update_of_ne (Ne.symm hSame)]
  | giveUpOpen hCc =>
      rw [hCc]
      exact ⟨hOpen, rfl, hOpen, hOpen⟩
  | @endPush c info =>
      have hHeld : (Place.pushing c info).holding = some ⟨c, 1, {info}⟩ := rfl
      refine conserved_unlock hHeld ?_ ?_ ?_ ?_ ?_ hLocks <;> rfl
  | @release c entries =>
      have hHeld : (Place.releasing c entries).holding = some ⟨c, entries, 0⟩ := rfl
      refine conserved_unlock hHeld ?_ ?_ ?_ ?_ ?_ hLocks <;> rfl
  | startWait => exact ⟨fun _ => rfl, rfl, fun _ _ => rfl, fun _ => .inl rfl⟩
  | seenIdle => exact ⟨fun _ => rfl, rfl, fun _ _ => rfl, fun _ => .inl rfl⟩
  | waitFailed => exact ⟨fun _ => rfl, rfl, fun _ _ => rfl, fun _ => .inl rfl⟩
  | _ => exact ⟨fun _ => rfl, rfl, fun _ _ => rfl, hOpen⟩

end Conserved

section Effects

variable {cfg : Config} {csl : Csl Iv} {p p' : Place m} {pool pool' : Pool m Iv} {a : Action m}

/-- What a thread that holds some entries and a push info of a channel, or nothing, does to the
channel. -/
inductive Change (cfg : Config) (csl : Csl Iv) (version : Nat) :
    Action m → Option (Nat × Multiset Nat) → Channel Iv → Option (Nat × Multiset Nat) → Channel Iv →
      Prop where
  | claim {count : Nat} {c c' : Channel Iv} (target : Fin m)
      (hClaim : c.tryClaim cfg.numGpfifoEntries count = some c') :
      Change cfg csl version (.claim target) none c (some (count, 0)) c'
  | check {count : Nat} {retryIfBusy : Bool} {answer : CslOperation → CslStatus} {checked : Checked}
      {c c' : Channel Iv} (hCheck : checkIvs cfg csl retryIfBusy answer c = some (checked, c')) :
      Change cfg csl version (.checkIvs answer) (some (count, 0)) c (some (count, 0)) c'
  | begin {info : Nat} {c c' : Channel Iv} (hTake : c.takePushInfo = some (info, c')) :
      Change cfg csl version .begin (some (1, 0)) c (some (1, {info})) c'
  | write {info : Nat} {c : Channel Iv} (op : CslOperation) :
      Change cfg csl version (.write op) (some (1, {info})) c (some (1, {info}))
        (c.logOperation csl version op)
  | ctrl {c : Channel Iv} :
      Change cfg csl version .writeCtrl (some (2, 0)) c (some (1, 0))
        (c.writeCtrlGpfifo cfg.numGpfifoEntries)
  | endPush {info : Nat} {c : Channel Iv} (readBack : Bool) :
      Change cfg csl version (.endPush readBack) (some (1, {info})) c none
        (c.endPush csl cfg.numGpfifoEntries cfg.confComputing readBack version info)
  | release {count : Nat} {c : Channel Iv} :
      Change cfg csl version .release (some (count, 0)) c none (c.release count)

/-- A holding on a channel. -/
def onChannel (c : Fin m) : Option (Nat × Multiset Nat) → Option (Holding m) :=
  Option.map fun held => ⟨c, held.1, held.2⟩

/-- What a step of a thread does to the channels. -/
inductive Effect (cfg : Config) (csl : Csl Iv) (a : Action m) (p : Place m) (pool : Pool m Iv)
    (p' : Place m) (pool' : Pool m Iv) : Prop where
  | quiet (hChannels : pool'.channels = pool.channels) (hVersion : pool'.version = pool.version)
      (hHolding : p'.holding = p.holding)
      (hSeen : ∀ seen next, p' = .waiting seen next → seen = 0 ∨ ∃ earlier, ∃ h : earlier < m,
        seen = earlier + 1 ∧ p = .waiting earlier next ∧
          (pool.channels ⟨earlier, h⟩).pendingGpfifos cfg.numGpfifoEntries = 0)
  | change (c : Fin m) {before after : Option (Nat × Multiset Nat)} {channel : Channel Iv}
      (hChange : Change cfg csl pool.version a before (pool.channels c) after channel)
      (hOld : p.holding = onChannel c before) (hNew : p'.holding = onChannel c after)
      (hChannels : pool'.channels = Function.update pool.channels c channel)
      (hVersion : pool'.version = pool.version) (hPlace : ∀ seen next, p' ≠ .waiting seen next)
  | rotated (next : Option (Request m)) (status : CslStatus) (hOld : p = .waiting m next)
      (hNew : p' = .releaseAll m (afterRotation next status))
      (hPool : pool' = pool.rotateKey csl status)

theorem Pool.unlock_channels (confComputing : Bool) (c : Fin m) :
    (pool.unlock confComputing c).channels = pool.channels := by
  cases confComputing <;> rfl

theorem Pool.unlock_version (confComputing : Bool) (c : Fin m) :
    (pool.unlock confComputing c).version = pool.version := by
  cases confComputing <;> rfl

/-- A step that neither changes a channel nor comes to wait for one. -/
theorem Effect.of_quiet (hChannels : pool'.channels = pool.channels)
    (hVersion : pool'.version = pool.version) (hHolding : p'.holding = p.holding)
    (hPlace : ∀ seen next, p' ≠ .waiting seen next) : Effect cfg csl a p pool p' pool' :=
  .quiet hChannels hVersion hHolding fun seen next h => absurd h (hPlace seen next)

theorem Acts.effect (h : Acts cfg csl pool p a p' pool') : Effect cfg csl a p pool p' pool' := by
  cases h with
  | startWait =>
      refine .quiet rfl rfl rfl fun seen next hPlace => .inl ?_
      cases hPlace
      rfl
  | @seenIdle seen next hSeen hIdle =>
      refine .quiet rfl rfl rfl fun seen' next' hPlace => .inr ⟨seen, hSeen, ?_⟩
      cases hPlace
      exact ⟨rfl, rfl, hIdle⟩
  | rotate => exact .rotated _ _ rfl rfl rfl
  | claimOpen _ hClaim => exact .change _ (.claim _ hClaim) rfl rfl rfl rfl fun _ _ h => by cases h
  | claimLocked _ _ hClaim => exact .change _ (.claim _ hClaim) rfl rfl rfl rfl fun _ _ h => by cases h
  | goOnReserved hCheck => exact .change _ (.check hCheck) rfl rfl rfl rfl fun _ _ h => by cases h
  | againReserved hCheck => exact .change _ (.check hCheck) rfl rfl rfl rfl fun _ _ h => by cases h
  | failedReserved hCheck => exact .change _ (.check hCheck) rfl rfl rfl rfl fun _ _ h => by cases h
  | goOnCtrl hCheck => exact .change _ (.check hCheck) rfl rfl rfl rfl fun _ _ h => by cases h
  | againCtrl hCheck => exact .change _ (.check hCheck) rfl rfl rfl rfl fun _ _ h => by cases h
  | failedCtrl hCheck => exact .change _ (.check hCheck) rfl rfl rfl rfl fun _ _ h => by cases h
  | beginReserved hTake => exact .change _ (.begin hTake) rfl rfl rfl rfl fun _ _ h => by cases h
  | beginCtrl hTake => exact .change _ (.begin hTake) rfl rfl rfl rfl fun _ _ h => by cases h
  | write => exact .change _ (.write _) rfl rfl rfl rfl fun _ _ h => by cases h
  | writeCtrl => exact .change _ .ctrl rfl rfl rfl rfl fun _ _ h => by cases h
  | endPush =>
      exact .change _ (.endPush _) rfl rfl (Pool.unlock_channels _ _) (Pool.unlock_version _ _)
        fun _ _ h => by cases h
  | release =>
      exact .change _ .release rfl rfl (Pool.unlock_channels _ _) (Pool.unlock_version _ _)
        fun _ _ h => by cases h
  | _ => exact .of_quiet rfl rfl rfl fun _ _ h => by cases h

end Effects

end FlashCkpt.CopyEngine
