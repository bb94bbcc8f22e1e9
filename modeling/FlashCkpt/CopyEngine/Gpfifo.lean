import FlashCkpt.Library.GetPutRing
import Mathlib.Data.Multiset.Range
import Mathlib.Algebra.Order.BigOperators.Group.List
import Mathlib.Algebra.Order.Group.Multiset

/-! A channel of a copy engine. The driver claims entries of its GPFIFO, writes pushes to
them and retires the entries whose value of the tracking semaphore it has seen; the engine
works through them in order. With confidential computing the CPU keeps the IV of each
cryptographic operation that a push makes the engine do. -/
namespace FlashCkpt.CopyEngine

open GetPutRing

/-- `UVM_GPFIFO_ENTRY_TYPE_NORMAL` and `UVM_GPFIFO_ENTRY_TYPE_CONTROL`. -/
inductive EntryType where
  | normal
  | control
  deriving DecidableEq, Repr

/-- `UvmCslOperation`, seen from the CPU: the engine decrypts what the CPU encrypts. -/
inductive CslOperation where
  | encrypt
  | decrypt
  deriving DecidableEq, Repr

/-- What RM does to an IV: the next message of either side, a rotation, a new key, and the
messages that are left. -/
structure Csl (Iv : Type) where
  increment : Iv → Iv
  rotate : Iv → Iv
  rekey : Iv → Iv
  remaining : Iv → Nat

/-- An operation in a push, with what the CPU keeps for it. -/
structure Record (Iv : Type) where
  operation : CslOperation
  iv : Iv
  keyVersion : Nat
  deriving DecidableEq, Repr

/-- `uvm_gpfifo_entry_t`, with the operations of its push. -/
structure Entry (Iv : Type) where
  type : EntryType
  trackingSemaphoreValue : Nat
  pushInfo : Nat
  records : List (Record Iv)
  deriving DecidableEq, Repr

/-- An operation the engine did: the key and the IV it took, and what the CPU keeps for it. -/
structure Use (Iv : Type) where
  record : Record Iv
  key : Nat
  iv : Iv
  deriving DecidableEq, Repr

/-- The engine's side of a channel: the entry it is at, how many of the entry's operations it
has done, the value of the tracking semaphore, what seals that value in unprotected memory,
and its keys. -/
structure Engine (Iv : Type) where
  get : Nat
  done : Nat
  releasedValue : Nat
  payload : Option (Record Iv)
  ivs : CslOperation → Iv
  key : Nat
  used : List (Use Iv)

/-- `uvm_channel_t`. `writing` holds the operations of the push that is being written. -/
structure Channel (Iv : Type) where
  gpfifoEntries : Nat → Entry Iv
  cpuPut : Nat
  gpuGet : Nat
  currentGpfifoCount : Nat
  availablePushInfos : List Nat
  queuedValue : Nat
  lastPushedNotifier : Nat
  semaphoreIvs : Nat → Iv
  csl : CslOperation → Iv
  writing : List (Record Iv)
  engine : Engine Iv

variable {Iv : Type}

/-- `channel_create`. -/
def Channel.create (n : Nat) (csl : CslOperation → Iv) : Channel Iv where
  gpfifoEntries := fun _ => ⟨.normal, 0, 0, []⟩
  cpuPut := 0
  gpuGet := 0
  currentGpfifoCount := 0
  availablePushInfos := List.range n
  queuedValue := 0
  lastPushedNotifier := 0
  semaphoreIvs := fun _ => csl .decrypt
  csl := csl
  writing := []
  engine := ⟨0, 0, 0, none, csl, 0, []⟩

namespace Channel

section Driver

variable (csl : Csl Iv) (n : Nat) (c : Channel Iv)

/-- The loop of `uvm_channel_update_progress_with_max`. -/
def retire (n completedValue : Nat) : Nat → Channel Iv → Channel Iv
  | 0, c => c
  | maxToComplete + 1, c =>
      if c.gpuGet = c.cpuPut then c
      else
        let entry := c.gpfifoEntries c.gpuGet
        if completedValue < entry.trackingSemaphoreValue then c
        else
          retire n completedValue maxToComplete
            { c with
              availablePushInfos :=
                match entry.type with
                | .normal => c.availablePushInfos ++ [entry.pushInfo]
                | .control => c.availablePushInfos
              gpuGet := (c.gpuGet + 1) % n }

def pendingGpfifos : Nat := pending n c.gpuGet c.cpuPut

/-- `uvm_channel_update_progress_with_max`, with the number of pending entries. -/
def updateProgressWithMax (completedValue maxToComplete : Nat) : Channel Iv × Nat :=
  let c' := retire n completedValue maxToComplete c
  (c', c'.pendingGpfifos n)

/-- Subtraction of `NvU32` values. -/
def subU32 (a b : Nat) : Nat := (a + 2 ^ 32 - b % 2 ^ 32) % 2 ^ 32

/-- `channel_get_available_gpfifo_entries`. -/
def availableGpfifoEntries : Nat :=
  subU32 (subU32 (subU32 n 1) c.currentGpfifoCount) (c.pendingGpfifos n)

/-- `try_claim_channel_locked`. -/
def tryClaim (numGpfifoEntries : Nat) : Option (Channel Iv) :=
  if numGpfifoEntries ≤ c.availableGpfifoEntries n then
    some { c with currentGpfifoCount := c.currentGpfifoCount + numGpfifoEntries }
  else none

/-- `channel_get_available_push_info_index`. -/
def takePushInfo : Option (Nat × Channel Iv) :=
  match c.availablePushInfos with
  | [] => none
  | info :: rest => some (info, { c with availablePushInfos := rest })

/-- An operation of the push that is being written: `uvm_conf_computing_log_gpu_encryption` or
`uvm_conf_computing_cpu_encrypt`, with the engine's method. -/
def logOperation (keyVersion : Nat) (op : CslOperation) : Channel Iv :=
  let iv := csl.increment (c.csl op)
  { c with
    csl := Function.update c.csl op iv
    writing := c.writing ++ [⟨op, iv, keyVersion⟩] }

/-- `channel_semaphore_gpu_encrypt_payload`. -/
def encryptPayload (keyVersion : Nat) : Channel Iv :=
  let ivIndex := (c.lastPushedNotifier + 2) % 2 ^ 32 / 2 % n
  let logged := c.logOperation csl keyVersion .decrypt
  { logged with
    semaphoreIvs := Function.update c.semaphoreIvs ivIndex (logged.csl .decrypt)
    lastPushedNotifier := (c.lastPushedNotifier + 2) % 2 ^ 32 }

/-- The operations that the end of a push adds to it: `encrypt_push` for a push that is read
back, and the semaphore's payload. -/
def sealPush (confComputing readBack : Bool) (keyVersion : Nat) : Channel Iv :=
  if confComputing then
    let c := if readBack then c.logOperation csl keyVersion .decrypt else c
    c.encryptPayload csl n keyVersion
  else c

/-- An entry is written at `cpu_put`, out of those that were claimed. -/
def submit (entry : Entry Iv) : Channel Iv :=
  { c with
    gpfifoEntries := Function.update c.gpfifoEntries c.cpuPut entry
    cpuPut := (c.cpuPut + 1) % n
    currentGpfifoCount := c.currentGpfifoCount - 1 }

/-- `uvm_channel_end_push`. -/
def endPush (confComputing readBack : Bool) (keyVersion pushInfo : Nat) : Channel Iv :=
  let sealed := c.sealPush csl n confComputing readBack keyVersion
  { sealed.submit n ⟨.normal, c.queuedValue + 1, pushInfo, sealed.writing⟩ with
    queuedValue := c.queuedValue + 1
    writing := [] }

/-- `write_ctrl_gpfifo`. -/
def writeCtrlGpfifo : Channel Iv :=
  c.submit n ⟨.control, c.queuedValue + 1, 0, []⟩

/-- `uvm_channel_release`. -/
def release (numGpfifoEntries : Nat) : Channel Iv :=
  { c with currentGpfifoCount := c.currentGpfifoCount - numGpfifoEntries }

/-- The engine does the next operation of the entry it is at, or is through with the entry and
releases the semaphore. -/
def engineStep : Option (Channel Iv) :=
  if c.engine.get = c.cpuPut then none
  else
    let entry := c.gpfifoEntries c.engine.get
    match entry.records[c.engine.done]? with
    | some record =>
        let iv := csl.increment (c.engine.ivs record.operation)
        some { c with engine := { c.engine with
          ivs := Function.update c.engine.ivs record.operation iv
          used := c.engine.used ++ [⟨record, c.engine.key, iv⟩]
          done := c.engine.done + 1 } }
    | none =>
        let next : Engine Iv := { c.engine with get := (c.engine.get + 1) % n, done := 0 }
        match entry.type with
        | .normal =>
            some { c with engine := { next with
              releasedValue := entry.trackingSemaphoreValue
              payload := entry.records.getLast? } }
        | .control => some { c with engine := next }

end Driver

/-- The entries the engine has not finished. -/
def unfinished (n : Nat) (c : Channel Iv) : List (Entry Iv) :=
  contents c.gpfifoEntries n c.engine.get c.cpuPut

/-- The entries the driver has not retired. -/
def unretired (n : Nat) (c : Channel Iv) : List (Entry Iv) :=
  contents c.gpfifoEntries n c.gpuGet c.cpuPut

end Channel

/-- The push infos of the normal entries. -/
def pushInfos (entries : List (Entry Iv)) : Multiset Nat :=
  ((entries.filter fun e => e.type = .normal).map (·.pushInfo) : List Nat)

/-- The values of the entries go up by one with each normal one, and a control entry carries the
value of the next normal one. -/
def Numbered : Nat → List (Entry Iv) → Nat → Prop
  | released, [], queued => released = queued
  | released, e :: rest, queued =>
      e.trackingSemaphoreValue = released + 1 ∧
        Numbered (match e.type with | .normal => released + 1 | .control => released) rest queued

/-- What holds of a channel of which some entries are claimed and some push infos are taken. -/
structure Channel.Inv (n claimed : Nat) (taken : Multiset Nat) (c : Channel Iv) : Prop where
  put : c.cpuPut < n
  get : c.gpuGet < n
  engineGet : c.engine.get < n
  claims : c.currentGpfifoCount = claimed
  room : c.pendingGpfifos n + claimed < n
  finished : c.unfinished n <:+ c.unretired n
  numbered : Numbered c.engine.releasedValue (c.unfinished n) c.queuedValue
  infos : (c.availablePushInfos : Multiset Nat) + taken + pushInfos (c.unretired n) = Multiset.range n

section Lists

theorem pushInfos_nil : pushInfos ([] : List (Entry Iv)) = 0 := rfl

theorem pushInfos_cons (e : Entry Iv) (rest : List (Entry Iv)) :
    pushInfos (e :: rest) =
      (match e.type with | .normal => {e.pushInfo} | .control => 0) + pushInfos rest := by
  cases hType : e.type <;> simp [pushInfos, hType]

theorem pushInfos_append (first second : List (Entry Iv)) :
    pushInfos (first ++ second) = pushInfos first + pushInfos second := by
  simp [pushInfos]

theorem card_pushInfos_le (entries : List (Entry Iv)) :
    Multiset.card (pushInfos entries) ≤ entries.length := by
  simpa [pushInfos] using List.length_filter_le _ entries

theorem Numbered.append {released middle queued : Nat} {first second : List (Entry Iv)}
    (h : Numbered released first middle) (hSecond : Numbered middle second queued) :
    Numbered released (first ++ second) queued := by
  induction first generalizing released with
  | nil =>
      cases h
      exact hSecond
  | cons e rest ih => exact ⟨h.1, ih h.2⟩

theorem Numbered.le {released queued : Nat} {entries : List (Entry Iv)}
    (h : Numbered released entries queued) :
    released ≤ queued ∧ queued ≤ released + entries.length := by
  induction entries generalizing released with
  | nil =>
      cases h
      exact ⟨Nat.le_refl _, Nat.le_refl _⟩
  | cons e rest ih =>
      have hRest := ih h.2
      rw [List.length_cons]
      cases hType : e.type <;> rw [hType] at hRest <;> simp only at hRest <;> omega

/-- The semaphore has not the value of any entry the engine has not finished. -/
theorem Numbered.lt {released queued : Nat} {entries : List (Entry Iv)}
    (h : Numbered released entries queued) {e : Entry Iv} (he : e ∈ entries) :
    released < e.trackingSemaphoreValue ∧
      (e.type = .normal → e.trackingSemaphoreValue ≤ queued) := by
  induction entries generalizing released with
  | nil => cases he
  | cons first rest ih =>
      obtain ⟨hValue, hRest⟩ := h
      rcases List.mem_cons.mp he with rfl | he
      · refine ⟨by omega, fun hNormal => ?_⟩
        rw [hNormal] at hRest
        have := hRest.le
        simp only at this
        omega
      · obtain ⟨hLow, hHigh⟩ := ih hRest he
        refine ⟨?_, hHigh⟩
        cases hType : first.type <;> rw [hType] at hLow <;> simp only at hLow <;> omega

end Lists

end FlashCkpt.CopyEngine
