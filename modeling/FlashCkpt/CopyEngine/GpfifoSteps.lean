import FlashCkpt.CopyEngine.Gpfifo

/-! What each operation on a channel keeps of its ring. -/
namespace FlashCkpt.CopyEngine.Channel

open GetPutRing

variable {Iv : Type} {csl : Csl Iv} {n claimed : Nat} {taken : Multiset Nat} {c : Channel Iv}

theorem inv_create (hSize : 0 < n) (ivs : CslOperation → Iv) : (create n ivs).Inv n 0 0 where
  put := hSize
  get := hSize
  engineGet := hSize
  claims := rfl
  room := by
    change pending n 0 0 + 0 < n
    rwa [pending_self]
  finished := List.suffix_refl _
  numbered := by
    change Numbered 0 (contents _ n 0 0) 0
    rw [contents_self]
    rfl
  infos := by
    change _ + 0 + pushInfos (contents _ n 0 0) = _
    rw [contents_self, pushInfos_nil, Multiset.add_zero, Multiset.add_zero]
    rfl

section Retire

/-- The channel with its first entry retired. -/
def retireOne (n : Nat) (c : Channel Iv) : Channel Iv :=
  { c with
    availablePushInfos :=
      match (c.gpfifoEntries c.gpuGet).type with
      | .normal => c.availablePushInfos ++ [(c.gpfifoEntries c.gpuGet).pushInfo]
      | .control => c.availablePushInfos
    gpuGet := (c.gpuGet + 1) % n }

theorem Inv.unretired_cons (h : c.Inv n claimed taken) (hSome : c.gpuGet ≠ c.cpuPut) :
    c.unretired n = c.gpfifoEntries c.gpuGet :: (c.retireOne n).unretired n :=
  contents_get h.get h.put hSome c.gpfifoEntries

theorem Inv.pending_retireOne (h : c.Inv n claimed taken) (hSome : c.gpuGet ≠ c.cpuPut) :
    (c.retireOne n).pendingGpfifos n + 1 = c.pendingGpfifos n :=
  pending_get h.get h.put hSome

/-- An entry whose value the semaphore has is one the engine has finished. -/
theorem Inv.retireOne (h : c.Inv n claimed taken) (hSome : c.gpuGet ≠ c.cpuPut)
    (hCompleted : (c.gpfifoEntries c.gpuGet).trackingSemaphoreValue ≤ c.engine.releasedValue) :
    (c.retireOne n).Inv n claimed taken where
  put := h.put
  get := succ_mod_lt h.get
  engineGet := h.engineGet
  claims := h.claims
  room := by
    have := h.room
    have := h.pending_retireOne hSome
    omega
  finished := by
    have hSuffix := h.finished
    rw [h.unretired_cons hSome, List.suffix_cons_iff] at hSuffix
    rcases hSuffix with hAll | hRest
    · have hFirst : c.gpfifoEntries c.gpuGet ∈ c.unfinished n := by
        rw [hAll]
        exact List.mem_cons_self
      exact absurd hCompleted (Nat.not_le.mpr (h.numbered.lt hFirst).1)
    · exact hRest
  numbered := h.numbered
  infos := by
    have hInfos := h.infos
    rw [h.unretired_cons hSome, pushInfos_cons] at hInfos
    rw [← hInfos]
    cases hType : (c.gpfifoEntries c.gpuGet).type
    · have hAvailable : (c.retireOne n).availablePushInfos =
          c.availablePushInfos ++ [(c.gpfifoEntries c.gpuGet).pushInfo] := by
        simp only [Channel.retireOne, hType]
      rw [hAvailable, ← Multiset.coe_add, Multiset.coe_singleton, add_right_comm, add_assoc, add_assoc,
        add_assoc]
      congr 1
      rw [← add_assoc, add_comm taken, add_assoc]
    · have hAvailable : (c.retireOne n).availablePushInfos = c.availablePushInfos := by
        simp only [Channel.retireOne, hType]
      rw [hAvailable, zero_add]

theorem retire_succ {completedValue maxToComplete : Nat} :
    retire n completedValue (maxToComplete + 1) c =
      if c.gpuGet = c.cpuPut then c
      else if completedValue < (c.gpfifoEntries c.gpuGet).trackingSemaphoreValue then c
      else retire n completedValue maxToComplete (c.retireOne n) := rfl

/-- Retiring changes nothing but what is retired. -/
theorem retire_frame (n completedValue maxToComplete : Nat) (c : Channel Iv) :
    retire n completedValue maxToComplete c =
      { c with
        availablePushInfos := (retire n completedValue maxToComplete c).availablePushInfos
        gpuGet := (retire n completedValue maxToComplete c).gpuGet } := by
  induction maxToComplete generalizing c with
  | zero => rfl
  | succ maxToComplete ih =>
      rw [retire_succ]
      split
      · rfl
      · split
        · rfl
        · rw [ih (c.retireOne n)]
          rfl

theorem Inv.retire {completedValue : Nat} (hSeen : completedValue ≤ c.engine.releasedValue)
    (h : c.Inv n claimed taken) (maxToComplete : Nat) :
    (retire n completedValue maxToComplete c).Inv n claimed taken := by
  induction maxToComplete generalizing c with
  | zero => exact h
  | succ maxToComplete ih =>
      rw [retire_succ]
      split
      · exact h
      · next hSome =>
          split
          · exact h
          · next hCompleted =>
              exact ih hSeen (h.retireOne hSome (Nat.le_trans (Nat.not_lt.mp hCompleted) hSeen))

/-- Only entries that the engine finished are retired. -/
theorem Inv.retire_splits {completedValue : Nat} (hSeen : completedValue ≤ c.engine.releasedValue)
    (h : c.Inv n claimed taken) (maxToComplete : Nat) :
    (Channel.retire n completedValue maxToComplete c).unretired n <:+ c.unretired n ∧
      c.unfinished n <:+ (Channel.retire n completedValue maxToComplete c).unretired n := by
  refine ⟨?_, ?_⟩
  · induction maxToComplete generalizing c with
    | zero => exact List.suffix_refl _
    | succ maxToComplete ih =>
        rw [retire_succ]
        split
        · exact List.suffix_refl _
        · next hSome =>
            split
            · exact List.suffix_refl _
            · next hCompleted =>
                refine (ih (c := c.retireOne n) hSeen
                  (h.retireOne hSome (Nat.le_trans (Nat.not_lt.mp hCompleted) hSeen))).trans ?_
                rw [h.unretired_cons hSome]
                exact List.suffix_cons _ _
  · have hFinished := (h.retire hSeen maxToComplete).finished
    have hSame : (Channel.retire n completedValue maxToComplete c).unfinished n = c.unfinished n := by
      rw [retire_frame]
      rfl
    rwa [hSame] at hFinished

end Retire

section Claim

theorem subU32_of_le {a b : Nat} (hLe : b ≤ a) (hBound : a < 2 ^ 32) : subU32 a b = a - b := by
  rw [subU32, Nat.mod_eq_of_lt (a := b) (Nat.lt_of_le_of_lt hLe hBound)]
  omega

/-- Neither subtraction goes below zero. -/
theorem Inv.available (h : c.Inv n claimed taken) (hBound : n < 2 ^ 32) :
    c.availableGpfifoEntries n = n - 1 - claimed - c.pendingGpfifos n := by
  have hRoom := h.room
  have hSentinel : subU32 n 1 = n - 1 := subU32_of_le (by omega) hBound
  have hClaimed : subU32 (n - 1) claimed = n - 1 - claimed := subU32_of_le (by omega) (by omega)
  rw [availableGpfifoEntries, h.claims, hSentinel, hClaimed, subU32_of_le (by omega) (by omega)]

theorem Inv.claim (h : c.Inv n claimed taken) (hBound : n < 2 ^ 32) {count : Nat} {c' : Channel Iv}
    (hClaim : c.tryClaim n count = some c') : c'.Inv n (claimed + count) taken := by
  rw [tryClaim, h.available hBound, Option.ite_none_right_eq_some, Option.some_inj] at hClaim
  obtain ⟨hCount, rfl⟩ := hClaim
  have hRoom := h.room
  exact
    { put := h.put
      get := h.get
      engineGet := h.engineGet
      claims := congrArg (· + count) h.claims
      room := by
        change c.pendingGpfifos n + (claimed + count) < n
        omega
      finished := h.finished
      numbered := h.numbered
      infos := h.infos }

theorem Inv.release {count : Nat} (h : c.Inv n (claimed + count) taken) :
    (c.release count).Inv n claimed taken where
  put := h.put
  get := h.get
  engineGet := h.engineGet
  claims := by
    change c.currentGpfifoCount - count = claimed
    rw [h.claims, Nat.add_sub_cancel]
  room := Nat.lt_of_le_of_lt (Nat.add_le_add_left (Nat.le_add_right _ _) _) h.room
  finished := h.finished
  numbered := h.numbered
  infos := h.infos

/-- There is a push info for every push that holds a claim. -/
theorem Inv.takePushInfo (h : c.Inv n claimed taken) (hTaken : Multiset.card taken < claimed) :
    ∃ info c', c.takePushInfo = some (info, c') ∧ c'.Inv n claimed (taken + {info}) := by
  have hCard := congrArg Multiset.card h.infos
  rw [Multiset.card_add, Multiset.card_add, Multiset.card_range, Multiset.coe_card] at hCard
  have hPending : Multiset.card (pushInfos (c.unretired n)) ≤ c.pendingGpfifos n :=
    Nat.le_trans (card_pushInfos_le _) (Nat.le_of_eq (contents_length _ _ _ _))
  have hRoom := h.room
  cases hInfos : c.availablePushInfos with
  | nil =>
      rw [hInfos, List.length_nil] at hCard
      omega
  | cons info rest =>
      refine ⟨info, { c with availablePushInfos := rest }, by rw [Channel.takePushInfo, hInfos], ?_⟩
      exact
        { put := h.put
          get := h.get
          engineGet := h.engineGet
          claims := h.claims
          room := h.room
          finished := h.finished
          numbered := h.numbered
          infos := by
            have hAll := h.infos
            rw [hInfos, ← Multiset.cons_coe, ← Multiset.singleton_add] at hAll
            rw [← hAll]
            change ((rest : List Nat) : Multiset Nat) + (taken + {info}) + pushInfos (c.unretired n) = _
            rw [add_comm taken, ← add_assoc, add_comm ({info} : Multiset Nat)] }

end Claim

section Submit

theorem Inv.logOperation (h : c.Inv n claimed taken) (keyVersion : Nat) (op : CslOperation) :
    (c.logOperation csl keyVersion op).Inv n claimed taken :=
  ⟨h.put, h.get, h.engineGet, h.claims, h.room, h.finished, h.numbered, h.infos⟩

theorem Inv.sealPush (h : c.Inv n claimed taken) (confComputing readBack : Bool) (keyVersion : Nat) :
    (c.sealPush csl n confComputing readBack keyVersion).Inv n claimed taken := by
  cases confComputing
  · exact h
  · cases readBack
    · exact ⟨h.put, h.get, h.engineGet, h.claims, h.room, h.finished, h.numbered, h.infos⟩
    · exact ⟨h.put, h.get, h.engineGet, h.claims, h.room, h.finished, h.numbered, h.infos⟩

theorem sealPush_queuedValue (confComputing readBack : Bool) (keyVersion : Nat) :
    (c.sealPush csl n confComputing readBack keyVersion).queuedValue = c.queuedValue := by
  cases confComputing <;> cases readBack <;> rfl

variable (entry : Entry Iv)

theorem Inv.unretired_submit (h : c.Inv n (claimed + 1) taken) :
    (c.submit n entry).unretired n = c.unretired n ++ [entry] :=
  contents_put h.get h.put (Nat.lt_of_le_of_lt (Nat.add_le_add_left (Nat.le_add_left _ _) _) h.room)
    c.gpfifoEntries entry

/-- The engine has no more to finish than the driver has to retire. -/
theorem Inv.pending_engine (h : c.Inv n claimed taken) :
    pending n c.engine.get c.cpuPut ≤ c.pendingGpfifos n := by
  have hLength := h.finished.length_le
  rwa [unfinished, unretired, contents_length, contents_length] at hLength

theorem Inv.unfinished_submit (h : c.Inv n (claimed + 1) taken) :
    (c.submit n entry).unfinished n = c.unfinished n ++ [entry] := by
  refine contents_put h.engineGet h.put ?_ c.gpfifoEntries entry
  have hRoom := h.room
  have hPending := h.pending_engine
  omega

/-- An entry that carries on the numbering takes the place of a claim. -/
theorem Inv.submit (h : c.Inv n (claimed + 1) taken) {queued : Nat}
    (hNumbered : Numbered c.queuedValue [entry] queued) {taken' : Multiset Nat}
    (hTaken : taken = taken' + pushInfos [entry]) :
    ({ c.submit n entry with queuedValue := queued, writing := [] } : Channel Iv).Inv n claimed taken' where
  put := succ_mod_lt h.put
  get := h.get
  engineGet := h.engineGet
  claims := by
    change c.currentGpfifoCount - 1 = claimed
    rw [h.claims, Nat.add_sub_cancel]
  room := by
    have hRoom := h.room
    have hPut := pending_put h.get h.put
      (Nat.lt_of_le_of_lt (Nat.add_le_add_left (Nat.le_add_left 1 claimed) _) h.room)
    change pending n c.gpuGet ((c.cpuPut + 1) % n) + claimed < n
    change pending n c.gpuGet c.cpuPut + (claimed + 1) < n at hRoom
    omega
  finished := by
    obtain ⟨finished, hFinished⟩ := h.finished
    refine ⟨finished, ?_⟩
    change finished ++ (c.submit n entry).unfinished n = (c.submit n entry).unretired n
    rw [h.unfinished_submit, h.unretired_submit, ← List.append_assoc, hFinished]
  numbered := by
    change Numbered c.engine.releasedValue ((c.submit n entry).unfinished n) queued
    rw [h.unfinished_submit]
    exact h.numbered.append hNumbered
  infos := by
    have hInfos := h.infos
    change (c.availablePushInfos : Multiset Nat) + taken' + pushInfos ((c.submit n entry).unretired n) = _
    rw [h.unretired_submit, pushInfos_append, ← hInfos, hTaken]
    rw [add_comm (pushInfos (c.unretired n)), ← add_assoc, ← add_assoc]

theorem Inv.endPush {info : Nat} (h : c.Inv n (claimed + 1) (taken + {info}))
    (confComputing readBack : Bool) (keyVersion : Nat) :
    (c.endPush csl n confComputing readBack keyVersion info).Inv n claimed taken := by
  refine (h.sealPush confComputing readBack keyVersion).submit _ ?_ ?_
  · rw [sealPush_queuedValue]
    exact ⟨rfl, rfl⟩
  · simp [pushInfos]

theorem Inv.writeCtrlGpfifo (h : c.Inv n (claimed + 1) taken) :
    (c.writeCtrlGpfifo n).Inv n claimed taken := by
  let entry : Entry Iv := ⟨.control, c.queuedValue + 1, 0, []⟩
  have hNumbered : Numbered c.queuedValue [entry] c.queuedValue := ⟨rfl, rfl⟩
  have hTaken : taken = taken + pushInfos [entry] := (Multiset.add_zero taken).symm
  obtain ⟨hPut, hGet, hEngine, hClaims, hRoom, hFinished, hNumbered, hInfos⟩ :=
    h.submit _ hNumbered hTaken
  exact ⟨hPut, hGet, hEngine, hClaims, hRoom, hFinished, hNumbered, hInfos⟩

end Submit

section Engine

theorem Inv.unfinished_cons (h : c.Inv n claimed taken) (hSome : c.engine.get ≠ c.cpuPut) :
    c.unfinished n = c.gpfifoEntries c.engine.get ::
      contents c.gpfifoEntries n ((c.engine.get + 1) % n) c.cpuPut :=
  contents_get h.engineGet h.put hSome c.gpfifoEntries

theorem Inv.engineStep (h : c.Inv n claimed taken) {c' : Channel Iv}
    (hStep : c.engineStep csl n = some c') : c'.Inv n claimed taken := by
  rw [Channel.engineStep, Option.ite_none_left_eq_some] at hStep
  obtain ⟨hSome, hStep⟩ := hStep
  have hFinished := h.finished
  have hNumbered := h.numbered
  rw [h.unfinished_cons hSome] at hFinished hNumbered
  dsimp only at hStep
  split at hStep
  · cases hStep
    exact ⟨h.put, h.get, h.engineGet, h.claims, h.room, h.finished, h.numbered, h.infos⟩
  · cases hType : (c.gpfifoEntries c.engine.get).type with
    | normal =>
        obtain ⟨hValue, hRest⟩ := hNumbered
        rw [hType] at hStep hRest
        cases hStep
        refine ⟨h.put, h.get, succ_mod_lt h.engineGet, h.claims, h.room,
          (List.suffix_cons _ _).trans hFinished, ?_, h.infos⟩
        change Numbered (c.gpfifoEntries c.engine.get).trackingSemaphoreValue _ _
        rw [hValue]
        exact hRest
    | control =>
        obtain ⟨-, hRest⟩ := hNumbered
        rw [hType] at hStep hRest
        cases hStep
        exact ⟨h.put, h.get, succ_mod_lt h.engineGet, h.claims, h.room,
          (List.suffix_cons _ _).trans hFinished, hRest, h.infos⟩

end Engine

end FlashCkpt.CopyEngine.Channel
