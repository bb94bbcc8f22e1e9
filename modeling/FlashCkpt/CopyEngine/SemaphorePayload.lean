import FlashCkpt.CopyEngine.CslSession
import FlashCkpt.Library.TicketRing

/-! The IVs of the payloads of the tracking semaphore. The driver keeps one for each entry of
the ring, and the slot of the value that is in memory must outlive the pushes that are queued. -/
namespace FlashCkpt.CopyEngine.Channel

open GetPutRing TicketRing

variable {Iv : Type}

/-- The IV of each payload that is in memory or will be written is in the slot of its value. -/
structure Slots (n : Nat) (c : Channel Iv) : Prop where
  notifier : c.lastPushedNotifier = 2 * c.queuedValue % 2 ^ 32
  queued : ∀ e ∈ c.unfinished n, e.type = .normal → ∃ r, e.records.getLast? = some r ∧
    c.semaphoreIvs (e.trackingSemaphoreValue % n) = r.iv
  released : ∀ r, c.engine.payload = some r → c.semaphoreIvs (c.engine.releasedValue % n) = r.iv

variable {csl : Csl Iv} {n claimed keyVersion : Nat} {taken : Multiset Nat} {c : Channel Iv}

theorem slots_create (n : Nat) (ivs : CslOperation → Iv) : (create n ivs).Slots n where
  notifier := rfl
  queued := by
    intro e he
    rw [unfinished, create, contents_self] at he
    cases he
  released := nofun

theorem Slots.logOperation (h : c.Slots n) (op : CslOperation) :
    (c.logOperation csl keyVersion op).Slots n := ⟨h.notifier, h.queued, h.released⟩

theorem Slots.retire (h : c.Slots n) (completedValue maxToComplete : Nat) :
    (Channel.retire n completedValue maxToComplete c).Slots n := by
  rw [retire_frame]
  exact ⟨h.notifier, h.queued, h.released⟩

/-- The index wraps around with the notifier, as the size of the ring divides its range. -/
theorem Slots.ivIndex (h : c.Slots n) (hSize : n ∣ 2 ^ 31) :
    (c.lastPushedNotifier + 2) % 2 ^ 32 / 2 % n = (c.queuedValue + 1) % n := by
  have hNext : (c.lastPushedNotifier + 2) % 2 ^ 32 = 2 * ((c.queuedValue + 1) % 2 ^ 31) := by
    rw [h.notifier, Nat.mod_add_mod, ← Nat.mul_mod_mul_left]
    rfl
  rw [hNext, Nat.mul_div_cancel_left _ Nat.two_pos, Nat.mod_mod_of_dvd _ hSize]

/-- The next slot is free: the values that are in use are less than a round apart. -/
theorem Inv.slot_free (h : c.Inv n (claimed + 1) taken) {v : Nat} (hLow : c.engine.releasedValue ≤ v)
    (hHigh : v ≤ c.queuedValue) : v % n ≠ (c.queuedValue + 1) % n := by
  have hRoom := h.room
  have hPending := h.pending_engine
  have hQueued := h.numbered.le.2
  rw [unfinished, contents_length] at hQueued
  intro hSame
  have := eq_of_slot_eq hSame.symm (by omega) (by omega)
  omega

theorem encryptPayload_semaphoreIvs (csl : Csl Iv) (n keyVersion : Nat) (c : Channel Iv) :
    (c.encryptPayload csl n keyVersion).semaphoreIvs =
      Function.update c.semaphoreIvs ((c.lastPushedNotifier + 2) % 2 ^ 32 / 2 % n)
        (csl.increment (c.csl .decrypt)) := by
  have hIv : (c.logOperation csl keyVersion .decrypt).csl .decrypt = csl.increment (c.csl .decrypt) := by
    simp [Channel.logOperation]
  rw [← hIv]
  rfl

theorem Slots.endPush (h : c.Slots n) (hSize : n ∣ 2 ^ 31) (hInv : c.Inv n (claimed + 1) taken)
    (readBack : Bool) (info : Nat) : (c.endPush csl n true readBack keyVersion info).Slots n := by
  -- The push that is read back has one operation more before the payload's.
  obtain ⟨c', hInv', h', hFields⟩ : ∃ c' : Channel Iv, c'.Inv n (claimed + 1) taken ∧ c'.Slots n ∧
      c.endPush csl n true readBack keyVersion info = c'.endPush csl n true false keyVersion info := by
    cases readBack
    · exact ⟨c, hInv, h, rfl⟩
    · exact ⟨_, hInv.logOperation keyVersion .decrypt, h.logOperation .decrypt, rfl⟩
  rw [hFields]
  have hIndex := h'.ivIndex hSize
  have hSealed : (c'.sealPush csl n true false keyVersion).Inv n (claimed + 1) taken :=
    hInv'.sealPush true false keyVersion
  have hUnfinished := hSealed.unfinished_submit
    ⟨.normal, c'.queuedValue + 1, info, (c'.sealPush csl n true false keyVersion).writing⟩
  have hIvs : (c'.endPush csl n true false keyVersion info).semaphoreIvs =
      Function.update c'.semaphoreIvs ((c'.queuedValue + 1) % n)
        (csl.increment (c'.csl .decrypt)) := by
    rw [← hIndex]
    change (c'.encryptPayload csl n keyVersion).semaphoreIvs = _
    rw [encryptPayload_semaphoreIvs]
  have hQueued := hInv'.numbered.le.1
  refine ⟨?_, ?_, ?_⟩
  · change (c'.lastPushedNotifier + 2) % 2 ^ 32 = 2 * (c'.queuedValue + 1) % 2 ^ 32
    rw [h'.notifier, Nat.mod_add_mod]
    rfl
  · intro e he hNormal
    change e ∈ ((c'.sealPush csl n true false keyVersion).submit n _).unfinished n at he
    rw [hUnfinished, List.mem_append, List.mem_singleton] at he
    rw [hIvs]
    rcases he with he | rfl
    · obtain ⟨r, hLast, hSlot⟩ := h'.queued e he hNormal
      obtain ⟨hLow, hHigh⟩ := hInv'.numbered.lt he
      refine ⟨r, hLast, ?_⟩
      rw [Function.update_of_ne (hInv'.slot_free hLow.le (hHigh hNormal)), hSlot]
    · refine ⟨_, List.getLast?_concat, ?_⟩
      rw [Function.update_self]
      rfl
  · intro r hr
    change c'.engine.payload = some r at hr
    rw [hIvs]
    change Function.update c'.semaphoreIvs _ _ (c'.engine.releasedValue % n) = r.iv
    rw [Function.update_of_ne (hInv'.slot_free (Nat.le_refl _) hQueued)]
    exact h'.released r hr

theorem Slots.writeCtrlGpfifo (h : c.Slots n) (hInv : c.Inv n (claimed + 1) taken) :
    (c.writeCtrlGpfifo n).Slots n := by
  refine ⟨h.notifier, ?_, h.released⟩
  intro e he hNormal
  rw [Channel.writeCtrlGpfifo, hInv.unfinished_submit, List.mem_append, List.mem_singleton] at he
  rcases he with he | rfl
  · exact h.queued e he hNormal
  · cases hNormal

theorem Slots.engineStep (h : c.Slots n) (hInv : c.Inv n claimed taken) {c' : Channel Iv}
    (hStep : c.engineStep csl n = some c') : c'.Slots n := by
  rw [Channel.engineStep, Option.ite_none_left_eq_some] at hStep
  obtain ⟨hSome, hStep⟩ := hStep
  have hQueued := h.queued
  rw [hInv.unfinished_cons hSome] at hQueued
  dsimp only at hStep
  split at hStep
  · cases hStep
    exact ⟨h.notifier, h.queued, h.released⟩
  · cases hType : (c.gpfifoEntries c.engine.get).type <;> rw [hType] at hStep <;> cases hStep
    · refine ⟨h.notifier, fun e he => hQueued e (List.mem_cons_of_mem _ he), ?_⟩
      intro r hr
      obtain ⟨r', hLast, hSlot⟩ := hQueued _ List.mem_cons_self hType
      cases hLast.symm.trans hr
      exact hSlot
    · exact ⟨h.notifier, fun e he => hQueued e (List.mem_cons_of_mem _ he), h.released⟩

theorem Slots.rotateChannelIvs (h : c.Slots n) (limit limitMin : Nat)
    (answer : CslOperation → CslStatus) : (c.rotateChannelIvs csl limit limitMin answer).2.Slots n :=
  rotateChannelIvs_keeps csl h fun _ _ h => ⟨h.notifier, h.queued, h.released⟩

end FlashCkpt.CopyEngine.Channel
