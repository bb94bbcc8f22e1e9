import FlashCkpt.CopyEngine.PoolRuns
import Mathlib.Tactic.FinCases

/-! The messages that are left to a channel. IVs are rotated before a push when few are left, and a
rotation that RM puts off is let pass only as long as a whole push fits: no push runs out of
messages. -/
namespace FlashCkpt.CopyEngine

open Channel Tally Transition

variable {m : Nat} {Iv : Type}

/-- Each message takes one of those that are left, and a rotation leaves enough for a push. -/
structure Csl.Counts (csl : Csl Iv) (limitMin : Nat) : Prop where
  increment : ∀ iv, 0 < csl.remaining iv → csl.remaining (csl.increment iv) + 1 = csl.remaining iv
  rotate : ∀ iv, limitMin ≤ csl.remaining (csl.rotate iv)

/-- The operations of one kind in the push that is being written. -/
def Channel.written (c : Channel Iv) (op : CslOperation) : Nat :=
  c.writing.countP fun r => r.operation = op

section Check

variable {cfg : Config} {csl : Csl Iv} {c c' : Channel Iv}

theorem rotateIv_csl (csl : Csl Iv) (c : Channel Iv) (op : CslOperation) :
    (c.rotateIv csl op).csl = Function.update c.csl op (csl.rotate (c.csl op)) := rfl

theorem logOperation_csl (csl : Csl Iv) (c : Channel Iv) (keyVersion : Nat) (op : CslOperation) :
    (c.logOperation csl keyVersion op).csl = Function.update c.csl op (csl.increment (c.csl op)) := rfl

section Rotation

variable {limitMin : Nat} (hRotate : ∀ iv, limitMin ≤ csl.remaining (csl.rotate iv))
include hRotate

/-- A rotation that is tried leaves enough messages where there were enough. -/
theorem tryRotateIv_keeps (asked : Bool) (answer : CslStatus) (op other : CslOperation)
    (h : limitMin ≤ csl.remaining (c.csl other)) :
    limitMin ≤ csl.remaining ((c.tryRotateIv csl asked answer op).2.csl other) := by
  rw [tryRotateIv]
  split
  · dsimp only
    split
    · rw [rotateIv_csl]
      by_cases hSame : other = op
      · rw [hSame, Function.update_self]
        exact hRotate _
      · rwa [Function.update_of_ne hSame]
    · exact h
  · exact h

/-- A rotation that RM makes leaves enough of them. -/
theorem tryRotateIv_ok {asked : Bool} {answer : CslStatus} {op : CslOperation}
    (hOk : (c.tryRotateIv csl asked answer op).1 = .ok)
    (h : asked = false → limitMin ≤ csl.remaining (c.csl op)) :
    limitMin ≤ csl.remaining ((c.tryRotateIv csl asked answer op).2.csl op) := by
  rw [tryRotateIv] at hOk ⊢
  cases asked with
  | false => exact h rfl
  | true =>
      rw [if_pos rfl] at hOk ⊢
      change answer = .ok at hOk
      change limitMin ≤ csl.remaining ((if answer = .ok then c.rotateIv csl op else c).csl op)
      rw [if_pos hOk, rotateIv_csl, Function.update_self]
      exact hRotate _

theorem rotateBelowLimit_ok {limit : Nat} (hLimit : limitMin ≤ limit + 1)
    {answer : CslOperation → CslStatus} (hOk : (c.rotateBelowLimit csl limit answer).1 = .ok)
    (op : CslOperation) : limitMin ≤ csl.remaining ((c.rotateBelowLimit csl limit answer).2.csl op) := by
  have hEnough : ∀ op, decide (csl.remaining (c.csl op) ≤ limit) = false →
      limitMin ≤ csl.remaining (c.csl op) := by
    intro op hNot
    rw [decide_eq_false_iff_not] at hNot
    omega
  rw [rotateBelowLimit] at hOk ⊢
  split at hOk
  · next hFirst =>
      rw [if_pos hFirst]
      have hEncrypt := tryRotateIv_ok hRotate hFirst (hEnough .encrypt)
      have hDecrypt := tryRotateIv_ok hRotate hOk fun hNot =>
        tryRotateIv_keeps hRotate _ _ _ _ (hEnough .decrypt hNot)
      cases op with
      | encrypt => exact tryRotateIv_keeps hRotate _ _ _ _ hEncrypt
      | decrypt => exact hDecrypt
  · next hFirst => exact absurd hOk hFirst

theorem rotateBelowLimit_keeps {limit : Nat} (answer : CslOperation → CslStatus) (op : CslOperation)
    (h : limitMin ≤ csl.remaining (c.csl op)) :
    limitMin ≤ csl.remaining ((c.rotateBelowLimit csl limit answer).2.csl op) := by
  have hFirst := tryRotateIv_keeps hRotate (decide (csl.remaining (c.csl .encrypt) ≤ limit))
    (answer .encrypt) .encrypt op h
  rw [rotateBelowLimit]
  split
  · exact tryRotateIv_keeps hRotate _ _ _ _ hFirst
  · exact hFirst

end Rotation

/-- A rotation that is let pass leaves enough messages for a push in both directions. -/
theorem checkIvs_leaves (hCounts : csl.Counts cfg.ivRemainingLimitMin)
    (hLimit : cfg.ivRemainingLimitMin ≤ cfg.ivRotationLimit) {retryIfBusy : Bool}
    {answer : CslOperation → CslStatus} (h : checkIvs cfg csl retryIfBusy answer c = some (.goOn, c'))
    (op : CslOperation) : cfg.ivRemainingLimitMin ≤ csl.remaining (c'.csl op) := by
  rw [checkIvs] at h
  split at h
  · next hSuffice =>
      cases h
      rw [ivsSuffice, Bool.and_eq_true, decide_eq_true_eq, decide_eq_true_eq] at hSuffice
      cases op <;> omega
  · rw [Option.ite_none_right_eq_some] at h
    obtain ⟨-, h⟩ := h
    obtain ⟨hChecked, rfl⟩ := Prod.mk.inj (Option.some.inj h)
    rw [rotateChannelIvs_fst] at hChecked
    rw [rotateChannelIvs_snd]
    by_cases hFew : (c.rotateBelowLimit csl cfg.ivRotationLimit answer).1 = .stateInUse ∧
        (csl.remaining (c.csl .encrypt) < cfg.ivRemainingLimitMin ∨
          csl.remaining (c.csl .decrypt) < cfg.ivRemainingLimitMin)
    · rw [if_pos hFew] at hChecked
      cases hChecked
    · rw [if_neg hFew] at hChecked
      cases hStatus : (c.rotateBelowLimit csl cfg.ivRotationLimit answer).1 with
      | ok => exact rotateBelowLimit_ok hCounts.rotate (by omega) hStatus op
      | stateInUse =>
          -- RM was busy: what the channel had is enough.
          refine rotateBelowLimit_keeps hCounts.rotate answer op ?_
          rw [hStatus, eq_self, true_and, not_or, Nat.not_lt, Nat.not_lt] at hFew
          cases op with
          | encrypt => exact hFew.1
          | decrypt => exact hFew.2
      | insufficientResources =>
          rw [hStatus] at hChecked
          cases hChecked
      | error =>
          rw [hStatus] at hChecked
          cases hChecked

end Check

section Budget

variable (cfg : Config) (csl : Csl Iv)

/-- What is left to a channel that a thread is about to push to or pushes to. -/
def Place.Budget (channels : Fin m → Channel Iv) : Place m → Prop
  | .reserved c _ true => ∀ op, cfg.ivRemainingLimitMin ≤ csl.remaining ((channels c).csl op)
  | .ctrlWritten c true => ∀ op, cfg.ivRemainingLimitMin ≤ csl.remaining ((channels c).csl op)
  | .pushing c _ => ∀ op, (channels c).written op + 2 ≤ cfg.ivRemainingLimitMin ∧
      cfg.ivRemainingLimitMin ≤ csl.remaining ((channels c).csl op) + (channels c).written op
  | _ => True

/-- A push leaves room for the two operations of its end. -/
def Label.Fits {T : Type} (s : System T m Iv) : Label T m → Prop
  | .thread t (.write op) => ∀ c info, s.place t = .pushing c info →
      (s.pool.channels c).written op + 2 < cfg.ivRemainingLimitMin
  | _ => True

variable {cfg csl} {p p' : Place m} {pool pool' : Pool m Iv} {a : Action m}

theorem Place.Budget.congr {channels channels' : Fin m → Channel Iv} (h : p.Budget cfg csl channels)
    (hSame : ∀ c, p.holds c = 1 →
      (channels' c).csl = (channels c).csl ∧ (channels' c).writing = (channels c).writing) :
    p.Budget cfg csl channels' := by
  cases p with
  | reserved c entries checked =>
      cases checked
      · trivial
      · intro op
        rw [(hSame c (if_pos rfl)).1]
        exact h op
  | ctrlWritten c checked =>
      cases checked
      · trivial
      · intro op
        rw [(hSame c (if_pos rfl)).1]
        exact h op
  | pushing c info =>
      intro op
      rw [written, (hSame c (if_pos rfl)).1, (hSame c (if_pos rfl)).2]
      exact h op
  | _ => trivial

theorem written_logOperation (csl : Csl Iv) (c : Channel Iv) (keyVersion : Nat) (op other : CslOperation) :
    (c.logOperation csl keyVersion op).written other =
      c.written other + if op = other then 1 else 0 := by
  rw [written, logOperation, List.countP_append, written]
  by_cases hSame : op = other <;> simp [hSame]

theorem Acts.budget (h : Acts cfg csl pool p a p' pool') (hCc : cfg.confComputing = true)
    (hCounts : csl.Counts cfg.ivRemainingLimitMin)
    (hLimit : cfg.ivRemainingLimitMin ≤ cfg.ivRotationLimit) (hTwo : 2 ≤ cfg.ivRemainingLimitMin)
    (hQuiet : ∀ c count, p.holding = some ⟨c, count, 0⟩ → (pool.channels c).writing = [])
    (hFits : ∀ op c info, a = .write op → p = .pushing c info →
      (pool.channels c).written op + 2 < cfg.ivRemainingLimitMin)
    (hBudget : p.Budget cfg csl pool.channels) : p'.Budget cfg csl pool'.channels := by
  have hBegin : ∀ {c : Fin m} {info : Nat} {channel : Channel Iv},
      (pool.channels c).takePushInfo = some (info, channel) → (pool.channels c).writing = [] →
      (∀ op, cfg.ivRemainingLimitMin ≤ csl.remaining ((pool.channels c).csl op)) →
      (Place.pushing c info).Budget cfg csl (pool.setChannel c channel).channels := by
    intro c info channel hTake hWriting hLeft op
    rw [takePushInfo] at hTake
    split at hTake <;> cases hTake
    rw [Pool.setChannel_self]
    have hNone : (pool.channels c).written op = 0 := by rw [written, hWriting]; rfl
    change (pool.channels c).written op + 2 ≤ _ ∧ _ ≤ _ + (pool.channels c).written op
    rw [hNone]
    exact ⟨hTwo, hLeft op⟩
  have hChecked : ∀ {c : Fin m} {retryIfBusy : Bool} {answer : CslOperation → CslStatus}
      {channel : Channel Iv},
      checkIvs cfg csl retryIfBusy answer (pool.channels c) = some (.goOn, channel) → ∀ op,
        cfg.ivRemainingLimitMin ≤ csl.remaining (((pool.setChannel c channel).channels c).csl op) := by
    intro c retryIfBusy answer channel hCheck op
    rw [Pool.setChannel_self]
    exact checkIvs_leaves hCounts hLimit hCheck op
  cases h with
  | claimOpen hOpen => exact absurd (hOpen.symm.trans hCc) Bool.false_ne_true
  | goOnReserved hCheck => exact hChecked hCheck
  | goOnCtrl hCheck => exact hChecked hCheck
  | beginReserved hTake => exact hBegin hTake (hQuiet _ _ rfl) hBudget
  | beginCtrl hTake => exact hBegin hTake (hQuiet _ _ rfl) hBudget
  | @write c info op =>
      have hFit := hFits op c info rfl rfl
      intro other
      obtain ⟨hRoom, hLeft⟩ := hBudget other
      rw [Pool.setChannel_self, written_logOperation, logOperation_csl]
      by_cases hSame : op = other
      · subst hSame
        have hOne := hCounts.increment ((pool.channels c).csl op) (by omega)
        simp only [if_true, Function.update_self]
        omega
      · rw [if_neg hSame, Function.update_of_ne (Ne.symm hSame), Nat.add_zero]
        exact ⟨hRoom, hLeft⟩
  | writeCtrl =>
      rw [hCc]
      trivial
  | _ => trivial

end Budget

namespace System

variable {T : Type} [Fintype T] [DecidableEq T] {cfg : Config} {csl : Csl Iv} {s s' : System T m Iv}

/-- The channels that another thread holds are not those that the step is about. -/
theorem Inv.others_same (hInv : s.Inv cfg) (hCc : cfg.confComputing = true) {t u : T} {a : Action m} {p : Place m}
    {pool : Pool m Iv} (hInv' : (⟨Function.update s.place t p, pool⟩ : System T m Iv).Inv cfg)
    (hEffect : Effect cfg csl a (s.place t) s.pool p pool) (hNe : u ≠ t) {c : Fin m}
    (hHolds : (s.place u).holds c = 1) : pool.channels c = s.pool.channels c := by
  cases hEffect with
  | quiet hChannels hVersion hHolding hSeen => rw [hChannels]
  | @change c₀ before after channel hChange hOld hNew hChannels hVersion hPlace =>
      have hOther : c ≠ c₀ := by
        rintro rfl
        cases before with
        | some held => exact hNe (hInv.one_holder hCc hHolds (Place.holds_self hOld))
        | none =>
            cases after with
            | none => cases hChange
            | some held =>
                have hThis : (Function.update s.place t p t).holds c = 1 := by
                  rw [Function.update_self]
                  exact Place.holds_self hNew
                have hThat : (Function.update s.place t p u).holds c = 1 := by
                  rwa [Function.update_of_ne hNe]
                exact hNe (hInv'.one_holder hCc hThat hThis)
      rw [hChannels, Function.update_of_ne hOther]
  | rotated next status hOld hNew hPool =>
      have hAll : (s.place t).tokens = m := by rw [hOld]; rfl
      rw [Place.holds, hInv.no_holding hCc hAll hNe] at hHolds
      cases hHolds

theorem budget_next (hCc : cfg.confComputing = true) (hCounts : csl.Counts cfg.ivRemainingLimitMin)
    (hLimit : cfg.ivRemainingLimitMin ≤ cfg.ivRotationLimit) (hTwo : 2 ≤ cfg.ivRemainingLimitMin)
    {label : Label T m} (hFits : label.Fits cfg s) (hInv : s.Inv cfg) (hInv' : s'.Inv cfg)
    (h : ∀ t, (s.place t).Budget cfg csl s.pool.channels)
    (hNext : s.next cfg csl label = some s') (t : T) : (s'.place t).Budget cfg csl s'.pool.channels := by
  cases label with
  | thread u a =>
      rw [System.next, Option.map_eq_some_iff] at hNext
      obtain ⟨⟨p, pool⟩, hAct, rfl⟩ := hNext
      have hActs := acts_of_act hAct
      change (Function.update s.place u p t).Budget cfg csl pool.channels
      by_cases hSame : t = u
      · subst hSame
        rw [Function.update_self]
        refine hActs.budget hCc hCounts hLimit hTwo (fun c count hHeld => hInv.quiet hCc hHeld) ?_
          (h t)
        rintro op c info rfl hPlace
        exact hFits c info hPlace
      · rw [Function.update_of_ne hSame]
        refine (h t).congr fun c hHolds => ?_
        rw [hInv.others_same hCc hInv' hActs.effect hSame hHolds]
        exact ⟨rfl, rfl⟩
  | updateProgress c completedValue maxToComplete =>
      rw [System.next, Option.ite_none_right_eq_some] at hNext
      cases hNext.2
      refine (h t).congr fun c' _ => ?_
      change (Function.update s.pool.channels c (retire _ _ _ _) c').csl = _ ∧
        (Function.update s.pool.channels c (retire _ _ _ _) c').writing = _
      by_cases hSame : c' = c
      · rw [hSame, Function.update_self, retire_frame]
        exact ⟨rfl, rfl⟩
      · rw [Function.update_of_ne hSame]
        exact ⟨rfl, rfl⟩
  | engine c =>
      rw [System.next, Option.map_eq_some_iff] at hNext
      obtain ⟨channel, hStep, rfl⟩ := hNext
      refine (h t).congr fun c' _ => ?_
      change (Function.update s.pool.channels c channel c').csl = _ ∧
        (Function.update s.pool.channels c channel c').writing = _
      by_cases hSame : c' = c
      · rw [hSame, Function.update_self]
        obtain ⟨engine, rfl⟩ := engineStep_engine hStep
        exact ⟨rfl, rfl⟩
      · rw [Function.update_of_ne hSame]
        exact ⟨rfl, rfl⟩

/-- A push that leaves room for the operations of its end never asks RM for an IV when no message is
left, neither for an operation of its own nor at its end. -/
theorem push_within_messages (hValid : cfg.Valid) (hCc : cfg.confComputing = true)
    (hCounts : csl.Counts cfg.ivRemainingLimitMin)
    (hLimit : cfg.ivRemainingLimitMin ≤ cfg.ivRotationLimit) (hTwo : 2 ≤ cfg.ivRemainingLimitMin)
    (ivs : Fin m → CslOperation → Iv) {labels : List (Label T m)}
    (hFits : Along (next cfg csl) (Label.Fits cfg) (start cfg T m ivs) labels)
    (hRun : execute (next cfg csl) (start cfg T m ivs) labels = some s) {t : T} {c : Fin m} {info : Nat}
    (ht : s.place t = .pushing c info) :
    2 ≤ csl.remaining ((s.pool.channels c).csl .decrypt) ∧
      ∀ op, (s.pool.channels c).written op + 2 < cfg.ivRemainingLimitMin →
        0 < csl.remaining ((s.pool.channels c).csl op) := by
  have hBudget : ∀ t, (s.place t).Budget cfg csl s.pool.channels := by
    have hStep : ∀ (s : System T m Iv) (label : Label T m) (s' : System T m Iv), label.Fits cfg s →
        (s.Inv cfg ∧ ∀ t, (s.place t).Budget cfg csl s.pool.channels) →
        s.next cfg csl label = some s' →
        s'.Inv cfg ∧ ∀ t, (s'.place t).Budget cfg csl s'.pool.channels := by
      intro s label s' hFits h hNext
      have hInv' := h.1.next hValid hNext
      exact ⟨hInv', budget_next hCc hCounts hLimit hTwo hFits h.1 hInv' h.2 hNext⟩
    exact (invariant_along hStep labels _ s ⟨inv_start hValid ivs, fun _ => trivial⟩ hFits hRun).2
  have hPlace := hBudget t
  rw [ht] at hPlace
  refine ⟨?_, fun op hRoom => ?_⟩
  · obtain ⟨hRoom, hLeft⟩ := hPlace .decrypt
    omega
  · have hLeft := (hPlace op).2
    omega

theorem countingCsl_counts : countingCsl.Counts 4 where
  increment := fun iv h => by
    change 0 < 15 - iv % 16 at h
    change 15 - (iv + 1) % 16 + 1 = 15 - iv % 16
    omega
  rotate := fun iv => by
    change 4 ≤ 15 - (iv / 16 + 1) * 16 % 16
    omega

theorem push_within_messages_small :
    2 ≤ countingCsl.remaining
      (((reached ((pushOnce 0).take 7)).pool.channels 0).csl .decrypt) := by
  have hRun := execute_reached (show (execute (next smallConfig countingCsl)
    (start smallConfig (Fin 2) 1 fun _ _ => 0) ((pushOnce 0).take 7)).isSome = true by decide)
  have hFits : ∀ label ∈ (pushOnce 0).take 7, ∀ s : System (Fin 2) 1 Nat, label.Fits smallConfig s := by
    intro label hLabel s
    fin_cases hLabel <;> trivial
  have hAlong : Along (next smallConfig countingCsl) (Label.Fits smallConfig)
      (start smallConfig (Fin 2) 1 fun _ _ => 0) ((pushOnce 0).take 7) :=
    (along_of_forall hFits _).imp fun s _ _ hLabel _ => hLabel s
  exact (push_within_messages smallConfig_valid rfl countingCsl_counts (by decide) (by decide)
    (fun _ _ => 0) hAlong hRun (t := 0) (c := 0) (by decide : _ = Place.pushing 0 0)).1

end System

end FlashCkpt.CopyEngine
