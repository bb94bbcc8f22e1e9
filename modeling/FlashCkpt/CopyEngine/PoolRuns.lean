import FlashCkpt.CopyEngine.PoolSecurity

/-! What the pool guarantees in every run: the accounts of a ring, that entries are retired
after the engine, that pushes and key rotations exclude each other, and that every operation
of the engine can be opened with what the CPU keeps. -/
namespace FlashCkpt.CopyEngine

open Channel Tally Transition

variable {m : Nat} {Iv T : Type} [Fintype T] [DecidableEq T] {cfg : Config} {csl : Csl Iv}

/-- Messages counted in epochs of sixteen, as RM counts them in epochs of a larger size. -/
def countingCsl : Csl Nat where
  increment iv := iv + 1
  rotate iv := (iv / 16 + 1) * 16
  rekey _ := 0
  remaining iv := 15 - iv % 16

theorem countingCsl_rises : countingCsl.Rises where
  increment := Nat.lt_succ_self
  rotate := fun iv => by
    change iv < (iv / 16 + 1) * 16
    omega

def smallConfig : Config := ⟨4, true, true, 4, 4⟩

theorem smallConfig_valid : smallConfig.Valid := ⟨by decide, by decide⟩

/-- A thread reserves a channel and pushes once, with one operation of its own. -/
def pushOnce (t : Fin 2) : List (Label (Fin 2) 1) :=
  [.thread t (.reserve (.on ⟨0, Nat.one_pos⟩)), .thread t (.lockRotation false),
    .thread t .unlockRotation, .thread t .down, .thread t (.claim ⟨0, Nat.one_pos⟩),
    .thread t (.checkIvs fun _ => .ok), .thread t .begin, .thread t (.write .decrypt),
    .thread t (.endPush true)]

/-- The engine does the three operations of a push and releases the semaphore. -/
def workOff : List (Label (Fin 2) 1) := List.replicate 4 (.engine ⟨0, Nat.one_pos⟩)

/-- A thread rotates the key of an idle pool. -/
def rotateOnce (t : Fin 2) : List (Label (Fin 2) 1) :=
  [.thread t .rotateKey, .thread t (.lockRotation false), .thread t .down, .thread t .startWait,
    .thread t .seenIdle, .thread t (.rotate .ok), .thread t .up, .thread t .unlockRotation]

/-- The state that a run of the small pool leads to. -/
def reached (labels : List (Label (Fin 2) 1)) : System (Fin 2) 1 Nat :=
  (execute (System.next smallConfig countingCsl) (System.start smallConfig (Fin 2) 1 fun _ _ => 0)
    labels).getD (System.start smallConfig (Fin 2) 1 fun _ _ => 0)

theorem execute_reached {labels : List (Label (Fin 2) 1)}
    (h : (execute (System.next smallConfig countingCsl)
      (System.start smallConfig (Fin 2) 1 fun _ _ => 0) labels).isSome = true) :
    execute (System.next smallConfig countingCsl) (System.start smallConfig (Fin 2) 1 fun _ _ => 0)
      labels = some (reached labels) := by
  obtain ⟨s, hs⟩ := Option.isSome_iff_exists.mp h
  rw [reached, hs]
  rfl

namespace System

variable {s s' : System T m Iv}

/-- The claims, the pending entries and those that are free make up the ring but for one entry, no
count goes below zero, and each push info is free, with one push or with one pending entry, so
that there is one for each push that is reserved. -/
theorem gpfifo_accounts (hValid : cfg.Valid) (ivs : Fin m → CslOperation → Iv)
    {labels : List (Label T m)} (hRun : execute (next cfg csl) (start cfg T m ivs) labels = some s)
    (c : Fin m) :
    (s.pool.channels c).availableGpfifoEntries cfg.numGpfifoEntries +
        (∑ t, (s.place t).claims c + (s.pool.channels c).pendingGpfifos cfg.numGpfifoEntries) + 1 =
      cfg.numGpfifoEntries ∧
    ((s.pool.channels c).availablePushInfos : Multiset Nat) + ∑ t, (s.place t).infos c +
        pushInfos ((s.pool.channels c).unretired cfg.numGpfifoEntries) =
      Multiset.range cfg.numGpfifoEntries ∧
    ∀ t, s.place t = .reserved c 1 true ∨ s.place t = .ctrlWritten c true →
      (s.pool.channels c).takePushInfo.isSome = true := by
  have hInv := inv_run hValid ivs hRun
  have hRing := hInv.ring c
  have hBound : cfg.numGpfifoEntries < 2 ^ 32 :=
    Nat.lt_of_le_of_lt (Nat.le_of_dvd (Nat.two_pow_pos 31) hValid.power) (by decide)
  refine ⟨?_, hRing.infos, fun t ht => ?_⟩
  · have hRoom := hRing.room
    rw [hRing.available hBound]
    omega
  · have hHeld : (s.place t).holding = some ⟨c, 1, 0⟩ := by
      rcases ht with ht | ht <;> rw [ht] <;> rfl
    obtain ⟨info, channel, hTake⟩ := hInv.exists_push_info hHeld
    rw [hTake]
    rfl

theorem gpfifo_accounts_small :
    ((reached (pushOnce 0)).pool.channels 0).availableGpfifoEntries 4 +
        (∑ t, ((reached (pushOnce 0)).place t).claims 0 +
          ((reached (pushOnce 0)).pool.channels 0).pendingGpfifos 4) + 1 = 4 :=
  (gpfifo_accounts smallConfig_valid (fun _ _ => 0) (execute_reached (by decide)) 0).1

theorem numbered_nil {released queued : Nat} {entries : List (Entry Iv)}
    (h : Numbered released entries queued) (hNil : entries = []) : released = queued := by
  subst hNil
  exact h

/-- What is retired the engine has finished, its push infos go back, and a caller that is told of no
pending entry finds the engine through with all that was queued. -/
theorem retired_finished (hValid : cfg.Valid) (ivs : Fin m → CslOperation → Iv)
    {labels : List (Label T m)} (hRun : execute (next cfg csl) (start cfg T m ivs) labels = some s)
    (c : Fin m) {completedValue : Nat} (maxToComplete : Nat)
    (hSeen : completedValue ≤ (s.pool.channels c).engine.releasedValue) :
    ∃ retired,
      (s.pool.channels c).unretired cfg.numGpfifoEntries = retired ++
        ((s.pool.channels c).updateProgressWithMax cfg.numGpfifoEntries completedValue
          maxToComplete).1.unretired cfg.numGpfifoEntries ∧
      (s.pool.channels c).unfinished cfg.numGpfifoEntries <:+
        ((s.pool.channels c).updateProgressWithMax cfg.numGpfifoEntries completedValue
          maxToComplete).1.unretired cfg.numGpfifoEntries ∧
      ((((s.pool.channels c).updateProgressWithMax cfg.numGpfifoEntries completedValue
          maxToComplete).1.availablePushInfos : List Nat) : Multiset Nat) =
        (s.pool.channels c).availablePushInfos + pushInfos retired ∧
      (((s.pool.channels c).updateProgressWithMax cfg.numGpfifoEntries completedValue
          maxToComplete).2 = 0 →
        (s.pool.channels c).unfinished cfg.numGpfifoEntries = [] ∧
          (s.pool.channels c).engine.releasedValue = (s.pool.channels c).queuedValue) := by
  have hRing := (inv_run hValid ivs hRun).ring c
  have hRetired := hRing.retire hSeen maxToComplete
  obtain ⟨⟨retired, hSplit⟩, hUnfinished⟩ := hRing.retire_splits hSeen maxToComplete
  refine ⟨retired, hSplit.symm, hUnfinished, ?_, fun hNone => ?_⟩
  · have hBefore := hRing.infos
    rw [← hSplit, pushInfos_append, ← add_assoc, ← hRetired.infos] at hBefore
    have hSame := add_right_cancel hBefore
    rw [add_right_comm] at hSame
    exact (add_right_cancel hSame).symm
  · have hAll : (s.pool.channels c).unfinished cfg.numGpfifoEntries = [] := by
      rw [← List.length_eq_zero_iff]
      refine Nat.le_zero.mp (Nat.le_trans hUnfinished.length_le (Nat.le_of_eq ?_))
      rw [unretired, GetPutRing.contents_length]
      exact hNone
    exact ⟨hAll, numbered_nil hRing.numbered hAll⟩

theorem retired_finished_small :
    ∃ retired, ((reached (pushOnce 0 ++ workOff)).pool.channels 0).unretired 4 = retired ++
      (((reached (pushOnce 0 ++ workOff)).pool.channels 0).updateProgressWithMax 4 1 8).1.unretired 4 :=
  (retired_finished smallConfig_valid (fun _ _ => 0) (execute_reached (by decide)) 0 8
    (by decide)).imp fun _ h => h.1

/-- One thread at most rotates the key, and one at most has a channel, whose lock is set as long.
A thread that waits for the channels has all tokens, so that no other one has a channel, and at
the end of its wait the engine has nothing to do on any of them. -/
theorem rotation_excludes (hValid : cfg.Valid) (ivs : Fin m → CslOperation → Iv)
    {labels : List (Label T m)} (hRun : execute (next cfg csl) (start cfg T m ivs) labels = some s) :
    (∀ t t', (s.place t).rotates = 1 → (s.place t').rotates = 1 → t = t') ∧
    (cfg.confComputing = true → ∀ c,
      (∀ t t', (s.place t).holds c = 1 → (s.place t').holds c = 1 → t = t') ∧
        (s.pool.pushLocks c = true ↔ ∃ t, (s.place t).holds c = 1)) ∧
    ∀ t seen next, s.place t = .waiting seen next →
      s.pool.pushSem = 0 ∧ (∀ t', t' ≠ t → (s.place t').tokens = 0) ∧
      ∀ c, s.pool.pushLocks c = false ∧ (s.pool.channels c).writing = [] ∧
        (c < seen → (s.pool.channels c).unfinished cfg.numGpfifoEntries = [] ∧
          (s.pool.channels c).engine.releasedValue = (s.pool.channels c).queuedValue) := by
  have hInv := inv_run hValid ivs hRun
  have hHolds : ∀ (p : Place m) c, p.holds c ≤ 1 := by
    intro p c
    rw [Place.holds]
    split
    · exact Nat.zero_le 1
    · split <;> decide
  have hLock : cfg.confComputing = true → ∀ c,
      s.pool.pushLocks c = true ↔ ∃ t, (s.place t).holds c = 1 := by
    intro hCc c
    have hLocks := hInv.locks hCc c
    constructor
    · intro hSet
      rw [hSet] at hLocks
      obtain ⟨t, ht⟩ := exists_of_pos (fun p : Place m => p.holds c) s.place
        (Nat.lt_of_lt_of_eq Nat.one_pos hLocks.symm)
      exact ⟨t, Nat.le_antisymm (hHolds _ c) ht⟩
    · rintro ⟨t, ht⟩
      have hLe := le_sum (fun p : Place m => p.holds c) s.place t
      rw [hLocks, ht] at hLe
      cases hBit : s.pool.pushLocks c
      · rw [hBit] at hLe
        exact absurd hLe (by decide)
      · rfl
  refine ⟨fun t t' ht ht' => ?_, fun hCc c => ⟨fun t t' => hInv.one_holder hCc, hLock hCc c⟩, ?_⟩
  · by_contra hNe
    have hTwo := add_le_sum (fun p : Place m => p.rotates) s.place (Ne.symm hNe)
    have hOne := Bool.toNat_le s.pool.rotationMutex
    rw [hInv.mutex, ht, ht'] at hTwo
    omega
  · intro t seen next ht
    have hCc := hInv.waiting_secure ht
    have hAll : (s.place t).tokens = m := by rw [ht]; rfl
    have hTokens := hInv.tokens hCc
    have hOwn := le_sum (fun p : Place m => p.tokens) s.place t
    refine ⟨by omega, fun t' hNe => hInv.no_tokens hCc hAll hNe, fun c => ?_⟩
    refine ⟨?_, hInv.waiting_writing ht c, fun hSeen => ?_⟩
    · rw [← Bool.not_eq_true, hLock hCc c]
      rintro ⟨t', ht'⟩
      have hNone : (s.place t').holding = none := by
        by_cases hSame : t' = t
        · rw [hSame, ht]
          rfl
        · exact hInv.no_holding hCc hAll hSame
      rw [Place.holds, hNone] at ht'
      cases ht'
    · have hUnfinished := (hInv.ring c).unfinished_idle (hInv.idle t seen next ht c hSeen)
      exact ⟨hUnfinished, numbered_nil (hInv.ring c).numbered hUnfinished⟩

theorem rotation_excludes_small :
    (reached ((rotateOnce 1).take 5)).pool.pushSem = 0 :=
  have hRun := execute_reached (show (execute (next smallConfig countingCsl)
    (start smallConfig (Fin 2) 1 fun _ _ => 0) ((rotateOnce 1).take 5)).isSome = true by decide)
  ((rotation_excludes smallConfig_valid (fun _ _ => 0) hRun).2.2 1 1 none (by decide)).1

/-- Every operation that the engine does takes the key and the IV that the CPU keeps for it, and no
IV is taken twice under a key in one direction. -/
theorem operations_open [Preorder Iv] (hValid : cfg.Valid) (hCc : cfg.confComputing = true)
    (hRises : csl.Rises) (ivs : Fin m → CslOperation → Iv) {labels : List (Label T m)}
    (hRun : execute (next cfg csl) (start cfg T m ivs) labels = some s) (c : Fin m) :
    (∀ u ∈ (s.pool.channels c).engine.used, u.iv = u.record.iv ∧ u.key = u.record.keyVersion) ∧
    ((s.pool.channels c).engine.used.map fun u => (u.record.operation, u.key, u.iv)).Nodup :=
  have hSealed := (secure_run hValid hCc hRises ivs hRun).isSealed c
  ⟨hSealed.agreed, hSealed.once⟩

/-- Two pushes with a rotation of the key between them. -/
theorem operations_open_small :
    ((reached (pushOnce 0 ++ workOff ++ [.updateProgress 0 1 8] ++ rotateOnce 1 ++ pushOnce 0 ++
      workOff)).pool.channels 0).engine.used.map (fun u => (u.record.operation, u.key, u.iv)) |>.Nodup :=
  (operations_open smallConfig_valid rfl countingCsl_rises (fun _ _ => 0)
    (execute_reached (by decide)) 0).2

/-- The slot of a value of the tracking semaphore holds the IV of its payload from the end of its push
until the engine has released the next value: the ring of the IVs is never overrun. -/
theorem payload_slots [Preorder Iv] (hValid : cfg.Valid) (hCc : cfg.confComputing = true)
    (hRises : csl.Rises) (ivs : Fin m → CslOperation → Iv) {labels : List (Label T m)}
    (hRun : execute (next cfg csl) (start cfg T m ivs) labels = some s) (c : Fin m) :
    (∀ r, (s.pool.channels c).engine.payload = some r →
      (s.pool.channels c).semaphoreIvs
        ((s.pool.channels c).engine.releasedValue % cfg.numGpfifoEntries) = r.iv) ∧
    ∀ e ∈ (s.pool.channels c).unfinished cfg.numGpfifoEntries, e.type = .normal →
      ∃ r, e.records.getLast? = some r ∧ (s.pool.channels c).semaphoreIvs
        (e.trackingSemaphoreValue % cfg.numGpfifoEntries) = r.iv :=
  have hSlots := (secure_run hValid hCc hRises ivs hRun).slots c
  ⟨hSlots.released, hSlots.queued⟩

theorem payload_slots_small :
    ∃ r, ((reached (pushOnce 0 ++ workOff)).pool.channels 0).engine.payload = some r ∧
      ((reached (pushOnce 0 ++ workOff)).pool.channels 0).semaphoreIvs
        (((reached (pushOnce 0 ++ workOff)).pool.channels 0).engine.releasedValue % 4) = r.iv := by
  obtain ⟨r, hr⟩ := Option.isSome_iff_exists.mp
    (show ((reached (pushOnce 0 ++ workOff)).pool.channels 0).engine.payload.isSome = true by decide)
  exact ⟨r, hr, (payload_slots smallConfig_valid rfl countingCsl_rises (fun _ _ => 0)
    (execute_reached (by decide)) 0).1 r hr⟩

end System

end FlashCkpt.CopyEngine
