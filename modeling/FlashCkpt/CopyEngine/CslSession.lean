import FlashCkpt.CopyEngine.GpfifoSteps
import Mathlib.Order.Basic

/-! The session keys of a channel. The driver takes the IVs of the operations in the order in
which it writes them, and the engine takes its own as it works: both sides agree as long as
nothing is outstanding when they are rotated. -/
namespace FlashCkpt.CopyEngine

open GetPutRing

variable {Iv : Type}

/-- Each message and each rotation leads to an IV that was not there before. -/
structure Csl.Rises [Preorder Iv] (csl : Csl Iv) : Prop where
  increment : ∀ iv, iv < csl.increment iv
  rotate : ∀ iv, iv < csl.rotate iv

/-- The records hold the IVs of their messages, from one state of the counters to another. -/
def Follows (csl : Csl Iv) :
    (CslOperation → Iv) → List (Record Iv) → (CslOperation → Iv) → Prop
  | ivs, [], ivs' => ivs = ivs'
  | ivs, r :: rest, ivs' =>
      r.iv = csl.increment (ivs r.operation) ∧
        Follows csl (Function.update ivs r.operation r.iv) rest ivs'

theorem Follows.append_one {csl : Csl Iv} {ivs ivs' : CslOperation → Iv} {records : List (Record Iv)}
    (h : Follows csl ivs records ivs') (op : CslOperation) (keyVersion : Nat) :
    Follows csl ivs (records ++ [⟨op, csl.increment (ivs' op), keyVersion⟩])
      (Function.update ivs' op (csl.increment (ivs' op))) := by
  induction records generalizing ivs with
  | nil =>
      cases h
      exact ⟨rfl, rfl⟩
  | cons r rest ih => exact ⟨h.1, ih h.2⟩

namespace Channel

/-- `NV_OK`, `NV_ERR_STATE_IN_USE`, `NV_ERR_INSUFFICIENT_RESOURCES` and the other errors of RM. -/
inductive CslStatus where
  | ok
  | stateInUse
  | insufficientResources
  | error
  deriving DecidableEq, Repr

section Rotation

variable (csl : Csl Iv)

/-- `nvUvmInterfaceCslRotateIv` of both sides. -/
def rotateIv (op : CslOperation) (c : Channel Iv) : Channel Iv :=
  { c with
    csl := Function.update c.csl op (csl.rotate (c.csl op))
    engine := { c.engine with
      ivs := Function.update c.engine.ivs op (csl.rotate (c.engine.ivs op)) } }

/-- A rotation that is asked for, with RM's answer. -/
def tryRotateIv (asked : Bool) (answer : CslStatus) (op : CslOperation) (c : Channel Iv) :
    CslStatus × Channel Iv :=
  if asked then (answer, if answer = .ok then c.rotateIv csl op else c) else (.ok, c)

/-- No direction has so few messages left that its IV has to be rotated. -/
def ivsSuffice (limit : Nat) (c : Channel Iv) : Bool :=
  limit < csl.remaining (c.csl .encrypt) && limit < csl.remaining (c.csl .decrypt)

/-- The rotations that a channel with few messages left asks for. -/
def rotateBelowLimit (limit : Nat) (answer : CslOperation → CslStatus) (c : Channel Iv) :
    CslStatus × Channel Iv :=
  let rotateEncryption : Bool := csl.remaining (c.csl .encrypt) ≤ limit
  let rotateDecryption : Bool := csl.remaining (c.csl .decrypt) ≤ limit
  let first := c.tryRotateIv csl rotateEncryption (answer .encrypt) .encrypt
  if first.1 = .ok then first.2.tryRotateIv csl rotateDecryption (answer .decrypt) .decrypt
  else first

/-- `uvm_conf_computing_rotate_channel_ivs_below_limit_internal` once the channel is idle. -/
def rotateChannelIvs (limit limitMin : Nat) (answer : CslOperation → CslStatus) (c : Channel Iv) :
    CslStatus × Channel Iv :=
  let rotated := c.rotateBelowLimit csl limit answer
  if rotated.1 = .stateInUse ∧
      (csl.remaining (c.csl .encrypt) < limitMin ∨ csl.remaining (c.csl .decrypt) < limitMin) then
    (.insufficientResources, rotated.2)
  else rotated

theorem rotateChannelIvs_fst (limit limitMin : Nat) (answer : CslOperation → CslStatus)
    (c : Channel Iv) :
    (c.rotateChannelIvs csl limit limitMin answer).1 =
      if (c.rotateBelowLimit csl limit answer).1 = .stateInUse ∧
          (csl.remaining (c.csl .encrypt) < limitMin ∨ csl.remaining (c.csl .decrypt) < limitMin) then
        .insufficientResources
      else (c.rotateBelowLimit csl limit answer).1 := by
  rw [rotateChannelIvs]
  split <;> rfl

theorem rotateChannelIvs_snd (limit limitMin : Nat) (answer : CslOperation → CslStatus)
    (c : Channel Iv) :
    (c.rotateChannelIvs csl limit limitMin answer).2 = (c.rotateBelowLimit csl limit answer).2 := by
  rw [rotateChannelIvs]
  split <;> rfl

/-- What `nvUvmInterfaceCslRotateKey` does to a channel. -/
def rekey (c : Channel Iv) : Channel Iv :=
  { c with
    csl := fun op => csl.rekey (c.csl op)
    engine := { c.engine with
      ivs := fun op => csl.rekey (c.engine.ivs op)
      key := c.engine.key + 1 } }

/-- A property that each rotation keeps, the two of them keep. -/
theorem rotateChannelIvs_keeps {P : Channel Iv → Prop} {limit limitMin : Nat}
    {answer : CslOperation → CslStatus} {c : Channel Iv} (hc : P c)
    (hRotate : ∀ c op, P c → P (rotateIv csl op c)) :
    P (c.rotateChannelIvs csl limit limitMin answer).2 := by
  have hTry : ∀ (c : Channel Iv) asked answer op, P c → P (c.tryRotateIv csl asked answer op).2 := by
    intro c asked answer op hc
    rw [tryRotateIv]
    split
    · dsimp only
      split
      · exact hRotate c op hc
      · exact hc
    · exact hc
  rw [rotateChannelIvs_snd, rotateBelowLimit]
  split
  · exact hTry _ _ _ _ (hTry _ _ _ _ hc)
  · exact hTry _ _ _ _ hc

end Rotation

/-- The operations of submitted entries that the engine has yet to do. -/
def outstanding (n : Nat) (c : Channel Iv) : List (Record Iv) :=
  match c.unfinished n with
  | [] => []
  | e :: rest => e.records.drop c.engine.done ++ rest.flatMap (·.records)

section Outstanding

variable {n : Nat} {c : Channel Iv}

theorem outstanding_of_idle (h : c.unfinished n = []) : c.outstanding n = [] := by
  rw [outstanding, h]

/-- The operations of an entry come after those of the entries before it. -/
theorem outstanding_submit (hIdle : c.unfinished n = [] → c.engine.done = 0) {entry : Entry Iv}
    (hUnfinished : (c.submit n entry).unfinished n = c.unfinished n ++ [entry]) :
    (c.submit n entry).outstanding n = c.outstanding n ++ entry.records := by
  rw [outstanding, outstanding, hUnfinished]
  cases hList : c.unfinished n with
  | nil =>
      change entry.records.drop c.engine.done ++ [] = [] ++ entry.records
      rw [hIdle hList, List.drop_zero, List.append_nil, List.nil_append]
  | cons first rest =>
      change first.records.drop c.engine.done ++ (rest ++ [entry]).flatMap (·.records) = _
      rw [List.flatMap_append, List.flatMap_singleton, List.append_assoc]

end Outstanding

/-- What the CPU keeps is what the engine took and will take, and no IV is taken twice under one
key. -/
structure Sealed [Preorder Iv] (csl : Csl Iv) (n keyVersion : Nat) (c : Channel Iv) : Prop where
  idle : c.unfinished n = [] → c.engine.done = 0
  follows : Follows csl c.engine.ivs (c.outstanding n ++ c.writing) c.csl
  versions : ∀ r ∈ c.outstanding n ++ c.writing, r.keyVersion = keyVersion
  key : c.engine.key = keyVersion
  agreed : ∀ u ∈ c.engine.used, u.iv = u.record.iv ∧ u.key = u.record.keyVersion
  past : ∀ u ∈ c.engine.used,
    u.key < c.engine.key ∨ u.key = c.engine.key ∧ u.iv ≤ c.engine.ivs u.record.operation
  once : (c.engine.used.map fun u => (u.record.operation, u.key, u.iv)).Nodup

section Sealed

variable [Preorder Iv] {csl : Csl Iv} {n keyVersion claimed : Nat} {taken : Multiset Nat} {c : Channel Iv}

theorem sealed_create (n : Nat) (ivs : CslOperation → Iv) : (create n ivs).Sealed csl n 0 := by
  have hNone : (create n ivs).outstanding n ++ (create n ivs).writing = [] := by
    rw [outstanding, unfinished, create, contents_self]
    rfl
  refine ⟨fun _ => rfl, ?_, ?_, rfl, fun _ h => absurd h List.not_mem_nil,
    fun _ h => absurd h List.not_mem_nil, List.nodup_nil⟩
  · rw [hNone]
    rfl
  · rw [hNone]
    exact fun _ h => absurd h List.not_mem_nil

theorem Sealed.logOperation (h : c.Sealed csl n keyVersion) (op : CslOperation) :
    (c.logOperation csl keyVersion op).Sealed csl n keyVersion := by
  refine ⟨h.idle, ?_, ?_, h.key, h.agreed, h.past, h.once⟩
  · change Follows csl c.engine.ivs (c.outstanding n ++ (c.writing ++ [_])) _
    rw [← List.append_assoc]
    exact h.follows.append_one op keyVersion
  · intro r hr
    change r ∈ c.outstanding n ++ (c.writing ++ [_]) at hr
    rw [← List.append_assoc, List.mem_append, List.mem_singleton] at hr
    rcases hr with hr | rfl
    · exact h.versions r hr
    · rfl

theorem Sealed.sealPush (h : c.Sealed csl n keyVersion) (confComputing readBack : Bool) :
    (c.sealPush csl n confComputing readBack keyVersion).Sealed csl n keyVersion := by
  have hPayload : ∀ {c : Channel Iv}, c.Sealed csl n keyVersion →
      (c.encryptPayload csl n keyVersion).Sealed csl n keyVersion := by
    intro c h
    obtain ⟨hIdle, hFollows, hVersions, hKey, hAgreed, hPast, hOnce⟩ := h.logOperation .decrypt
    exact ⟨hIdle, hFollows, hVersions, hKey, hAgreed, hPast, hOnce⟩
  cases confComputing
  · exact h
  · cases readBack
    · exact hPayload h
    · exact hPayload (h.logOperation .decrypt)

theorem Sealed.submit_writing (h : c.Sealed csl n keyVersion) {entry : Entry Iv} {queued : Nat}
    (hUnfinished : (c.submit n entry).unfinished n = c.unfinished n ++ [entry])
    (hRecords : entry.records = c.writing) :
    ({ c.submit n entry with queuedValue := queued, writing := [] } : Channel Iv).Sealed csl n
      keyVersion := by
  have hOutstanding : ({ c.submit n entry with queuedValue := queued, writing := [] } :
      Channel Iv).outstanding n ++ [] = c.outstanding n ++ c.writing := by
    rw [List.append_nil, ← hRecords]
    exact outstanding_submit h.idle hUnfinished
  refine ⟨?_, ?_, ?_, h.key, h.agreed, h.past, h.once⟩
  · intro hNone
    change (c.submit n entry).unfinished n = [] at hNone
    rw [hUnfinished, List.append_eq_nil_iff] at hNone
    exact h.idle hNone.1
  · exact hOutstanding ▸ h.follows
  · exact fun r hr => h.versions r (hOutstanding ▸ hr)

theorem Sealed.endPush (h : c.Sealed csl n keyVersion) (hInv : c.Inv n (claimed + 1) taken)
    (confComputing readBack : Bool) (info : Nat) :
    (c.endPush csl n confComputing readBack keyVersion info).Sealed csl n keyVersion :=
  (h.sealPush confComputing readBack).submit_writing
    ((hInv.sealPush confComputing readBack keyVersion).unfinished_submit _) rfl

theorem Sealed.writeCtrlGpfifo (h : c.Sealed csl n keyVersion) (hInv : c.Inv n (claimed + 1) taken)
    (hIdle : c.writing = []) : (c.writeCtrlGpfifo n).Sealed csl n keyVersion := by
  have hSubmitted : ({ c.submit n ⟨.control, c.queuedValue + 1, 0, []⟩ with
      queuedValue := c.queuedValue, writing := [] } : Channel Iv).Sealed csl n keyVersion :=
    h.submit_writing (hInv.unfinished_submit _) hIdle.symm
  obtain ⟨hDone, hFollows, hVersions, hKey, hAgreed, hPast, hOnce⟩ := hSubmitted
  refine ⟨hDone, ?_, ?_, hKey, hAgreed, hPast, hOnce⟩
  · change Follows csl c.engine.ivs (_ ++ c.writing) c.csl
    rw [hIdle]
    exact hFollows
  · change ∀ r ∈ _ ++ c.writing, r.keyVersion = keyVersion
    rw [hIdle]
    exact hVersions

theorem Sealed.retire (h : c.Sealed csl n keyVersion) (completedValue maxToComplete : Nat) :
    (retire n completedValue maxToComplete c).Sealed csl n keyVersion := by
  rw [retire_frame]
  exact ⟨h.idle, h.follows, h.versions, h.key, h.agreed, h.past, h.once⟩

/-- The engine takes the IV that the CPU kept for the operation, one that it never took before. -/
theorem Sealed.use (h : c.Sealed csl n keyVersion) (hRises : csl.Rises) {record : Record Iv}
    (hRecord : record.iv = csl.increment (c.engine.ivs record.operation))
    (hVersion : record.keyVersion = keyVersion) {ivs : CslOperation → Iv}
    (hIvs : ivs = Function.update c.engine.ivs record.operation record.iv) {use : Use Iv}
    (hUse : use = ⟨record, c.engine.key, record.iv⟩) :
    (∀ u ∈ c.engine.used ++ [use], u.iv = u.record.iv ∧ u.key = u.record.keyVersion) ∧
      (∀ u ∈ c.engine.used ++ [use],
        u.key < c.engine.key ∨ u.key = c.engine.key ∧ u.iv ≤ ivs u.record.operation) ∧
      ((c.engine.used ++ [use]).map fun u => (u.record.operation, u.key, u.iv)).Nodup := by
  have hRise : c.engine.ivs record.operation < record.iv := hRecord ▸ hRises.increment _
  refine ⟨?_, ?_, ?_⟩
  · intro u hu
    rw [List.mem_append, List.mem_singleton] at hu
    rcases hu with hu | rfl
    · exact h.agreed u hu
    · rw [hUse]
      exact ⟨rfl, h.key.trans hVersion.symm⟩
  · intro u hu
    rw [List.mem_append, List.mem_singleton] at hu
    rcases hu with hu | rfl
    · refine (h.past u hu).imp_right fun hPast => ⟨hPast.1, hPast.2.trans ?_⟩
      rw [hIvs]
      by_cases hSame : u.record.operation = record.operation
      · rw [hSame, Function.update_self]
        exact hRise.le
      · rw [Function.update_of_ne hSame]
    · rw [hUse, hIvs]
      exact .inr ⟨rfl, by rw [Function.update_self]⟩
  · rw [List.map_append, List.nodup_append]
    refine ⟨h.once, List.nodup_singleton _, ?_⟩
    rintro _ hu _ hNew rfl
    obtain ⟨u, hu, hSame⟩ := List.mem_map.mp hu
    rw [List.map_singleton, List.mem_singleton, hUse] at hNew
    rw [hNew, Prod.mk.injEq, Prod.mk.injEq] at hSame
    obtain ⟨hOperation, hKey, hIv⟩ := hSame
    rcases h.past u hu with hLow | ⟨-, hLow⟩
    · exact absurd hKey (Nat.ne_of_lt hLow)
    · rw [hOperation, hIv] at hLow
      exact absurd hRise (not_lt_of_ge hLow)

/-- The engine has gone on to what it has yet to do. -/
theorem of_engine {engine : Engine Iv} {records : List (Record Iv)}
    (hIdle : ({ c with engine := engine } : Channel Iv).unfinished n = [] → engine.done = 0)
    (hOutstanding : ({ c with engine := engine } : Channel Iv).outstanding n = records)
    (hFollows : Follows csl engine.ivs (records ++ c.writing) c.csl)
    (hVersions : ∀ r ∈ records ++ c.writing, r.keyVersion = keyVersion)
    (hKey : engine.key = keyVersion)
    (hAgreed : ∀ u ∈ engine.used, u.iv = u.record.iv ∧ u.key = u.record.keyVersion)
    (hPast : ∀ u ∈ engine.used,
      u.key < engine.key ∨ u.key = engine.key ∧ u.iv ≤ engine.ivs u.record.operation)
    (hOnce : (engine.used.map fun u => (u.record.operation, u.key, u.iv)).Nodup) :
    ({ c with engine := engine } : Channel Iv).Sealed csl n keyVersion := by
  subst hOutstanding
  exact ⟨hIdle, hFollows, hVersions, hKey, hAgreed, hPast, hOnce⟩

theorem Sealed.engineStep (h : c.Sealed csl n keyVersion) (hRises : csl.Rises)
    (hInv : c.Inv n claimed taken) {c' : Channel Iv} (hStep : c.engineStep csl n = some c') :
    c'.Sealed csl n keyVersion := by
  rw [Channel.engineStep, Option.ite_none_left_eq_some] at hStep
  obtain ⟨hSome, hStep⟩ := hStep
  have hCons := hInv.unfinished_cons hSome
  have hFollows := h.follows
  have hVersions := h.versions
  rw [outstanding, hCons] at hFollows hVersions
  dsimp only at hStep
  split at hStep
  · next record hRecord =>
      cases hStep
      obtain ⟨hDone, hGet⟩ := List.getElem?_eq_some_iff.mp hRecord
      have hDrop := List.drop_eq_getElem_cons hDone
      rw [hGet] at hDrop
      simp only [hDrop, List.cons_append] at hFollows hVersions
      have hVersion := hVersions record List.mem_cons_self
      obtain ⟨hAgreed, hPast, hOnce⟩ := h.use hRises hFollows.1 hVersion rfl rfl
      have hOutstanding : ∀ c' : Channel Iv, c'.unfinished n = c.unfinished n →
          c'.engine.done = c.engine.done + 1 → c'.outstanding n =
            (c.gpfifoEntries c.engine.get).records.drop (c.engine.done + 1) ++
              (contents c.gpfifoEntries n ((c.engine.get + 1) % n) c.cpuPut).flatMap (·.records) := by
        intro c' hSame hNext
        rw [outstanding, hSame, hCons, hNext]
      rw [← hFollows.1]
      exact of_engine (fun hNone => absurd (hCons.symm.trans hNone) (List.cons_ne_nil _ _))
        (hOutstanding _ rfl rfl) hFollows.2 (fun r hr => hVersions r (List.mem_cons_of_mem _ hr))
        h.key hAgreed hPast hOnce
  · next hLast =>
      have hDrop : (c.gpfifoEntries c.engine.get).records.drop c.engine.done = [] :=
        List.drop_eq_nil_of_le (List.getElem?_eq_none_iff.mp hLast)
      simp only [hDrop, List.nil_append] at hFollows hVersions
      have hOutstanding : ∀ c' : Channel Iv,
          c'.unfinished n = contents c.gpfifoEntries n ((c.engine.get + 1) % n) c.cpuPut →
          c'.engine.done = 0 → c'.outstanding n =
            (contents c.gpfifoEntries n ((c.engine.get + 1) % n) c.cpuPut).flatMap (·.records) := by
        intro c' hSame hNext
        rw [outstanding, hSame, hNext]
        cases contents c.gpfifoEntries n ((c.engine.get + 1) % n) c.cpuPut <;> rfl
      cases hType : (c.gpfifoEntries c.engine.get).type <;> rw [hType] at hStep <;> cases hStep
      · exact of_engine (fun _ => rfl) (hOutstanding _ rfl rfl) hFollows hVersions h.key h.agreed
          h.past h.once
      · exact of_engine (fun _ => rfl) (hOutstanding _ rfl rfl) hFollows hVersions h.key h.agreed
          h.past h.once

/-- With nothing outstanding both sides are at the same message. -/
theorem Sealed.synchronised (h : c.Sealed csl n keyVersion) (hIdle : c.unfinished n = [])
    (hWriting : c.writing = []) : c.engine.ivs = c.csl := by
  have hFollows := h.follows
  rwa [outstanding_of_idle hIdle, hWriting] at hFollows

theorem Sealed.rotateIv (h : c.Sealed csl n keyVersion) (hRises : csl.Rises)
    (hIdle : c.unfinished n = []) (hWriting : c.writing = []) (op : CslOperation) :
    (c.rotateIv csl op).Sealed csl n keyVersion := by
  have hSame := h.synchronised hIdle hWriting
  have hNone : (c.rotateIv csl op).outstanding n ++ (c.rotateIv csl op).writing = [] := by
    rw [outstanding_of_idle (c := c.rotateIv csl op) hIdle]
    exact hWriting
  refine ⟨h.idle, ?_, ?_, h.key, h.agreed, ?_, h.once⟩
  · rw [hNone]
    change Function.update c.engine.ivs op _ = Function.update c.csl op _
    rw [hSame]
  · rw [hNone]
    nofun
  · intro u hu
    refine (h.past u hu).imp_right fun hPast => ⟨hPast.1, hPast.2.trans ?_⟩
    change _ ≤ Function.update c.engine.ivs op _ u.record.operation
    by_cases hOp : u.record.operation = op
    · rw [hOp, Function.update_self]
      exact (hRises.rotate _).le
    · rw [Function.update_of_ne hOp]

/-- The rotation of the IVs of an idle channel. -/
theorem Sealed.rotateChannelIvs (h : c.Sealed csl n keyVersion) (hRises : csl.Rises)
    (hIdle : c.unfinished n = []) (hWriting : c.writing = []) (limit limitMin : Nat)
    (answer : CslOperation → CslStatus) :
    (c.rotateChannelIvs csl limit limitMin answer).2.Sealed csl n keyVersion := by
  refine (rotateChannelIvs_keeps csl
    (P := fun c => c.Sealed csl n keyVersion ∧ c.unfinished n = [] ∧ c.writing = [])
    ⟨h, hIdle, hWriting⟩ ?_).1
  exact fun c op h => ⟨h.1.rotateIv hRises h.2.1 h.2.2 op, h.2⟩

theorem Sealed.rekey (h : c.Sealed csl n keyVersion) (hIdle : c.unfinished n = [])
    (hWriting : c.writing = []) : (c.rekey csl).Sealed csl n (keyVersion + 1) := by
  have hSame := h.synchronised hIdle hWriting
  have hNone : (c.rekey csl).outstanding n ++ (c.rekey csl).writing = [] := by
    rw [outstanding_of_idle (c := c.rekey csl) hIdle]
    exact hWriting
  refine ⟨h.idle, ?_, ?_, congrArg (· + 1) h.key, h.agreed, ?_, h.once⟩
  · rw [hNone]
    change (fun op => csl.rekey (c.engine.ivs op)) = fun op => csl.rekey (c.csl op)
    rw [hSame]
  · rw [hNone]
    nofun
  · intro u hu
    refine .inl ?_
    change u.key < c.engine.key + 1
    rcases h.past u hu with hLow | ⟨hEq, -⟩ <;> omega

end Sealed

end Channel

end FlashCkpt.CopyEngine
