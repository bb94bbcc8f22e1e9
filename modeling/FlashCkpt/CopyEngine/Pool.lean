import FlashCkpt.CopyEngine.SemaphorePayload
import FlashCkpt.Library.Tally
import FlashCkpt.Library.Transition

/-! A pool of channels and the threads that push to it. Without confidential computing several
threads may have pushes on one channel. With it a thread takes a token of the pool's semaphore
and locks a channel until its push ends, and a thread that rotates the key takes all tokens. -/
namespace FlashCkpt.CopyEngine

open Channel

/-- What a pool is set up with. -/
structure Config where
  numGpfifoEntries : Nat
  confComputing : Bool
  keyRotationEnabled : Bool
  ivRotationLimit : Nat
  ivRemainingLimitMin : Nat

/-- The size that `channel_pool_num_gpfifo_entries` asks for: a power of two with room for the
sentinel and the two entries of a control submission. -/
structure Config.Valid (cfg : Config) : Prop where
  room : 3 ≤ cfg.numGpfifoEntries
  power : cfg.numGpfifoEntries ∣ 2 ^ 31

variable {m : Nat} {Iv : Type}

/-- `uvm_channel_pool_t`. -/
structure Pool (m : Nat) (Iv : Type) where
  channels : Fin m → Channel Iv
  pushSem : Nat
  pushLocks : Fin m → Bool
  rotationMutex : Bool
  version : Nat

/-- What is reserved: one entry of any channel or of a given one, or the two entries of
`uvm_channel_write_ctrl_gpfifo`. -/
inductive Request (m : Nat) where
  | any
  | on (c : Fin m)
  | ctrl (c : Fin m)
  deriving DecidableEq

def Request.numGpfifoEntries : Request m → Nat
  | .any => 1
  | .on _ => 1
  | .ctrl _ => 2

def Request.admits (c : Fin m) : Request m → Bool
  | .any => true
  | .on c' => c' = c
  | .ctrl c' => c' = c

/-- Where a thread is. A rotation of the key is followed by the reservation it was made for, if
it was made for one. -/
inductive Place (m : Nat) where
  | idle
  /-- At the mutex of the key rotation. -/
  | rotating (next : Option (Request m))
  /-- In `channel_pool_reserve_all_channels`. -/
  | reserveAll (taken : Nat) (next : Option (Request m))
  /-- In `channel_pool_rotate_key_locked`, the channels up to `seen` idle. -/
  | waiting (seen : Nat) (next : Option (Request m))
  /-- In `channel_pool_release_all_channels`. -/
  | releaseAll (left : Nat) (next : Option (Request m))
  /-- At `uvm_down` of the semaphore. -/
  | down (r : Request m)
  /-- Looking for a channel with free entries. -/
  | claiming (r : Request m)
  /-- With claimed entries, before or after the rotation of the IVs. -/
  | reserved (c : Fin m) (entries : Nat) (checked : Bool)
  /-- Between the control entry and the push that follows it. -/
  | ctrlWritten (c : Fin m) (checked : Bool)
  | pushing (c : Fin m) (info : Nat)
  /-- About to give the claimed entries back. -/
  | releasing (c : Fin m) (entries : Nat)
  deriving DecidableEq

inductive Action (m : Nat) where
  | reserve (r : Request m)
  | rotateKey
  | lockRotation (pending : Bool)
  | down
  | startWait
  | seenIdle
  | waitFailed
  | rotate (status : CslStatus)
  | up
  | unlockRotation
  | claim (c : Fin m)
  | giveUp
  | checkIvs (answer : CslOperation → CslStatus)
  | fail
  | begin
  | write (op : CslOperation)
  | writeCtrl
  | endPush (readBack : Bool)
  | release

namespace Pool

variable (pool : Pool m Iv)

def setChannel (c : Fin m) (channel : Channel Iv) : Pool m Iv :=
  { pool with channels := Function.update pool.channels c channel }

theorem setChannel_self (c : Fin m) (channel : Channel Iv) :
    (pool.setChannel c channel).channels c = channel := by
  simp only [setChannel, Function.update_self]

/-- `uvm_down` of the pool's semaphore, when a token is there. -/
def downSem : Option (Pool m Iv) :=
  if pool.pushSem = 0 then none else some { pool with pushSem := pool.pushSem - 1 }

def upSem : Pool m Iv := { pool with pushSem := pool.pushSem + 1 }

/-- `lock_channel_for_push`. -/
def lock (c : Fin m) : Pool m Iv :=
  { pool with pushLocks := Function.update pool.pushLocks c true }

/-- `unlock_channel_for_push`. -/
def unlock (confComputing : Bool) (c : Fin m) : Pool m Iv :=
  if confComputing then
    { pool.upSem with pushLocks := Function.update pool.pushLocks c false }
  else pool

/-- `uvm_conf_computing_rotate_pool_key`, with RM's answer. -/
def rotateKey (csl : Csl Iv) (status : CslStatus) : Pool m Iv :=
  if status = .ok then
    { pool with
      channels := fun c => (pool.channels c).rekey csl
      version := pool.version + 1 }
  else pool

end Pool

section Threads

variable (cfg : Config) (csl : Csl Iv)

/-- `try_claim_channel`, or `test_claim_and_lock_channel` of a channel that is not locked. -/
def claimChannel (pool : Pool m Iv) (r : Request m) (c : Fin m) : Option (Pool m Iv) :=
  if r.admits c && !(cfg.confComputing && pool.pushLocks c) then
    ((pool.channels c).tryClaim cfg.numGpfifoEntries r.numGpfifoEntries).map fun channel =>
      if cfg.confComputing then (pool.setChannel c channel).lock c else pool.setChannel c channel
  else none

/-- How a check of the IVs ends. -/
inductive Checked where
  | goOn
  | again
  | failed

/-- `uvm_conf_computing_rotate_channel_ivs_below_limit`: nothing is done while the messages
suffice, else the channel has to be idle. A busy RM is asked again or the rotation put off. -/
def checkIvs (retryIfBusy : Bool) (answer : CslOperation → CslStatus) (channel : Channel Iv) :
    Option (Checked × Channel Iv) :=
  if channel.ivsSuffice csl cfg.ivRotationLimit then some (.goOn, channel)
  else if channel.pendingGpfifos cfg.numGpfifoEntries = 0 then
    let rotated := channel.rotateChannelIvs csl cfg.ivRotationLimit cfg.ivRemainingLimitMin answer
    some (match rotated.1 with
      | .ok => .goOn
      | .stateInUse => if retryIfBusy then .again else .goOn
      | .insufficientResources => .failed
      | .error => .failed, rotated.2)
  else none

/-- What follows the rotation of the key: the reservation if RM rotated it or was busy. -/
def afterRotation (next : Option (Request m)) : CslStatus → Option (Request m)
  | .ok => next
  | .stateInUse => next
  | .insufficientResources => none
  | .error => none

/-- A step of a thread. -/
def act (place : Place m) (pool : Pool m Iv) : Action m → Option (Place m × Pool m Iv)
  | .reserve r =>
      match place with
      | .idle =>
          some (if cfg.confComputing then
              if cfg.keyRotationEnabled then .rotating (some r) else .down r
            else .claiming r, pool)
      | _ => none
  | .rotateKey =>
      match place with
      | .idle =>
          if cfg.confComputing && cfg.keyRotationEnabled then some (.rotating none, pool) else none
      | _ => none
  | .lockRotation pending =>
      match place with
      | .rotating next =>
          if pool.rotationMutex then none
          else
            some (if next.isNone || pending then .reserveAll 0 next else .releaseAll 0 next,
              { pool with rotationMutex := true })
      | _ => none
  | .down =>
      match place with
      | .reserveAll taken next =>
          if taken < m then pool.downSem.map fun pool' => (.reserveAll (taken + 1) next, pool') else none
      | .down r => pool.downSem.map fun pool' => (.claiming r, pool')
      | _ => none
  | .startWait =>
      match place with
      | .reserveAll taken next => if taken = m then some (.waiting 0 next, pool) else none
      | _ => none
  | .seenIdle =>
      match place with
      | .waiting seen next =>
          if h : seen < m then
            if (pool.channels ⟨seen, h⟩).pendingGpfifos cfg.numGpfifoEntries = 0 then
              some (.waiting (seen + 1) next, pool)
            else none
          else none
      | _ => none
  | .waitFailed =>
      match place with
      | .waiting seen _ => if seen < m then some (.releaseAll m none, pool) else none
      | _ => none
  | .rotate status =>
      match place with
      | .waiting seen next =>
          if seen = m then
            some (.releaseAll m (afterRotation next status), pool.rotateKey csl status)
          else none
      | _ => none
  | .up =>
      match place with
      | .releaseAll (left + 1) next => some (.releaseAll left next, pool.upSem)
      | _ => none
  | .unlockRotation =>
      match place with
      | .releaseAll 0 next =>
          some (match next with | none => .idle | some r => .down r,
            { pool with rotationMutex := false })
      | _ => none
  | .claim c =>
      match place with
      | .claiming r =>
          (claimChannel cfg pool r c).map fun pool' =>
            (.reserved c r.numGpfifoEntries (!cfg.confComputing), pool')
      | _ => none
  | .giveUp =>
      match place with
      | .claiming _ => some (.idle, if cfg.confComputing then pool.upSem else pool)
      | _ => none
  | .checkIvs answer =>
      match place with
      | .reserved c entries false =>
          -- A control submission cannot wait once its first entry is written, so it asks again.
          (checkIvs cfg csl (entries = 2) answer (pool.channels c)).map fun (checked, channel) =>
            (match checked with
              | .goOn => .reserved c entries true
              | .again => .reserved c entries false
              | .failed => .releasing c entries, pool.setChannel c channel)
      | .ctrlWritten c false =>
          (checkIvs cfg csl false answer (pool.channels c)).map fun (checked, channel) =>
            (match checked with
              | .goOn => .ctrlWritten c true
              | .again => .ctrlWritten c false
              | .failed => .releasing c 1, pool.setChannel c channel)
      | _ => none
  | .fail =>
      match place with
      | .reserved c entries _ => some (.releasing c entries, pool)
      | .ctrlWritten c _ => some (.releasing c 1, pool)
      | _ => none
  | .begin =>
      match place with
      | .reserved c 1 true =>
          (pool.channels c).takePushInfo.map fun (info, channel) =>
            (.pushing c info, pool.setChannel c channel)
      | .ctrlWritten c true =>
          (pool.channels c).takePushInfo.map fun (info, channel) =>
            (.pushing c info, pool.setChannel c channel)
      | _ => none
  | .write op =>
      match place with
      | .pushing c info =>
          if cfg.confComputing then
            some (.pushing c info,
              pool.setChannel c ((pool.channels c).logOperation csl pool.version op))
          else none
      | _ => none
  | .writeCtrl =>
      match place with
      | .reserved c 2 true =>
          some (.ctrlWritten c (!cfg.confComputing),
            pool.setChannel c ((pool.channels c).writeCtrlGpfifo cfg.numGpfifoEntries))
      | _ => none
  | .endPush readBack =>
      match place with
      | .pushing c info =>
          some (.idle,
            (pool.setChannel c ((pool.channels c).endPush csl cfg.numGpfifoEntries cfg.confComputing
              readBack pool.version info)).unlock cfg.confComputing c)
      | _ => none
  | .release =>
      match place with
      | .releasing c entries =>
          some (.idle,
            (pool.setChannel c ((pool.channels c).release entries)).unlock cfg.confComputing c)
      | _ => none

end Threads

/-- The threads and the pool. -/
structure System (T : Type) (m : Nat) (Iv : Type) where
  place : T → Place m
  pool : Pool m Iv

/-- A step of a thread, of any caller of `uvm_channel_update_progress_with_max`, which has read
the semaphore before, or of the engine. -/
inductive Label (T : Type) (m : Nat) where
  | thread (t : T) (a : Action m)
  | updateProgress (c : Fin m) (completedValue maxToComplete : Nat)
  | engine (c : Fin m)

namespace System

variable {T : Type} [DecidableEq T] (cfg : Config) (csl : Csl Iv) (s : System T m Iv)

def next : Label T m → Option (System T m Iv)
  | .thread t a =>
      (act cfg csl (s.place t) s.pool a).map fun (place, pool) =>
        ⟨Function.update s.place t place, pool⟩
  | .updateProgress c completedValue maxToComplete =>
      if completedValue ≤ (s.pool.channels c).engine.releasedValue then
        let channel := ((s.pool.channels c).updateProgressWithMax cfg.numGpfifoEntries completedValue
          maxToComplete).1
        some { s with pool := s.pool.setChannel c channel }
      else none
  | .engine c =>
      ((s.pool.channels c).engineStep csl cfg.numGpfifoEntries).map fun channel =>
        { s with pool := s.pool.setChannel c channel }

/-- All threads idle, with a token for each channel. -/
def start (T : Type) (m : Nat) (ivs : Fin m → CslOperation → Iv) : System T m Iv where
  place := fun _ => .idle
  pool :=
    { channels := fun c => Channel.create cfg.numGpfifoEntries (ivs c)
      pushSem := m
      pushLocks := fun _ => false
      rotationMutex := false
      version := 0 }

end System

end FlashCkpt.CopyEngine
