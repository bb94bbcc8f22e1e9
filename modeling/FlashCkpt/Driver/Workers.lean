import FlashCkpt.Library.Components
import FlashCkpt.Library.PingPong
import FlashCkpt.Library.Shares
import FlashCkpt.Driver.Capture

/-! The workers of the multi-threaded captures. Each has a slice of the run list and two slots:
while the copy engine encrypts a run into the DMA buffer of one slot, the worker hands over what
lies in the other. A turn is a call of the worker with what it returns, or the end of a
submission on the device; the assignments behind a call belong to its turn. -/
namespace FlashCkpt.Driver

open ByteImage Crypto Image PingPong

/-- A run as the workers read it: `rl_s`, the frame recorded there, `rl_b`. -/
structure Transfer where
  start : Nat
  source : Frame
  bytes : Nat
  deriving DecidableEq, Repr

/-- `gpu_pages[rl_s].gpu_buf_offset`. -/
def Transfer.offset (t : Transfer) : Nat := t.start * pageSize

/-- `rl_s` and `rl_b` of runs that begin with the given record. -/
def transfersFrom : Nat → List (Run Nat) → List Transfer
  | _, [] => []
  | k, run :: rest =>
      ⟨k, run.first, run.pages.length * pageSize⟩ :: transfersFrom (k + run.pages.length) rest

/-- A push to the copy engine: what it encrypts into the buffer of which slot, the IV and the
key version logged for it, and the ciphertext with its tag once the device is done. -/
structure Submission where
  slot : Bool
  source : Frame
  bytes : Nat
  iv : Bytes
  fresh : UInt8
  keyVersion : Nat
  result : Option (Bytes × Bytes)
  deriving DecidableEq, Repr

/-- `act`, `pu`, `s_rs`, `s_rb`, `s_ti` of a slot, and its DMA buffer. -/
structure Slot where
  act : Bool
  push : Nat
  rs : Nat
  rb : Nat
  ti : Nat
  iv : Bytes
  fresh : UInt8
  keyVersion : Nat
  buffer : Bytes
  tag : Bytes
  deriving DecidableEq, Repr

/-- Where a worker is: in iteration `i` it waits for the slot, copies to the caller or submits
the next run; behind `w_drain` it waits and copies for a slot. -/
inductive Stage where
  | start
  | wait (i : Nat)
  | copy (i : Nat)
  | submit (i : Nat)
  | drainWait (c : Bool)
  | drainCopy (c : Bool)
  | ended
  deriving DecidableEq, Repr

structure Worker where
  sliceStart : Nat
  sliceCount : Nat
  cryptoMetaBase : Nat
  stage : Stage
  slots : Bool → Slot
  plainBuf : Bytes
  status : Status
  localNt : Nat
  numTransfers : Nat
  pushes : List Submission

/-- The inputs that all workers share. -/
structure Job where
  transfers : List Transfer
  userGpuBuf : Bool
  isCiphertext : Bool

inductive Turn where
  | alloc (plain : Bool) (first second : Status)
  | wait (result decrypted : Status) (plain : Bytes)
  | copy (copied : Nat)
  | submit (begun : Status) (iv : Bytes) (fresh : UInt8) (keyVersion : Nat)
  | device (push : Nat) (cipher tag : Bytes)

/-- What the workers fill together: `crypto_meta_buf` and the caller's GPU buffer. -/
structure HandOver where
  metas : Nat → CryptoMeta
  writes : List Write

inductive Effect where
  | none
  | store (ti : Nat) (entry : CryptoMeta)
  | copy (w : Write)

def Effect.apply : Effect → HandOver → HandOver
  | .none, h => h
  | .store ti entry, h => { h with metas := Function.update h.metas ti entry }
  | .copy w, h => { h with writes := h.writes ++ [w] }

/-- The ciphertext and the tag in the buffers of a slot. -/
def Slot.fill (s : Slot) (cipher tag : Bytes) : Slot :=
  { s with buffer := cipher ++ s.buffer.drop cipher.length, tag := tag }

def Slot.entry (s : Slot) : CryptoMeta := ⟨s.rb, s.iv, s.fresh, s.tag, s.keyVersion⟩

namespace Worker

variable (job : Job) (w : Worker)

/-- `act[c] = 0`. -/
def release (c : Bool) : Worker :=
  { w with slots := Function.update w.slots c { w.slots c with act := false } }

/-- `w_drain`: the slots in order, those without a submission skipped. -/
def drain : Worker :=
  { w with stage :=
      if (w.slots false).act then .drainWait false
      else if (w.slots true).act then .drainWait true
      else .ended }

/-- `goto w_drain`. -/
def fail (status : Status) : Worker := { w with status := status }.drain

/-- The head of the loop. -/
def iterate (i : Nat) : Worker :=
  if i < w.sliceCount then
    { w with stage := if (w.slots (lane i)).act then .wait i else .submit i }
  else w.drain

def allocate (plain : Bool) (first second : Status) : Worker :=
  if !job.isCiphertext && !plain then { w with status := .noMemory, stage := .ended }
  else if first ≠ .ok then { w with status := first, stage := .ended }
  else if second ≠ .ok then { w with status := second, stage := .ended }
  else w.iterate 0

/-- `uvm_push_wait` returns without an error only behind the device, and a decryption fills as
many bytes as it is given. -/
def mayReturn (c : Bool) (result decrypted : Status) (plain : Bytes) : Bool :=
  result ≠ .ok ||
    ((w.pushes[(w.slots c).push]?.bind Submission.result).isSome &&
      (decrypted ≠ .ok || plain.length = (w.slots c).rb))

/-- The entry of a ciphertext, or its decryption. -/
def receive (c : Bool) (decrypted : Status) (plain : Bytes) : Worker × Effect :=
  if job.isCiphertext then (w, .store (w.slots c).ti (w.slots c).entry)
  else if decrypted = .ok then ({ w with plainBuf := plain }, .none)
  else ({ w with status := decrypted }, .none)

/-- What is copied to the caller. -/
def outgoing (c : Bool) : Bytes :=
  (if job.isCiphertext then (w.slots c).buffer else w.plainBuf).take (w.slots c).rb

def copyOut (c : Bool) (copied : Nat) : Effect :=
  if job.userGpuBuf then .copy ⟨(w.slots c).rs * pageSize, (w.outgoing job c).take copied⟩
  else .none

def copyFails (c : Bool) (copied : Nat) : Bool := job.userGpuBuf && copied < (w.slots c).rb

/-- The submission of a run. -/
def push (c : Bool) (t : Transfer) (iv : Bytes) (fresh : UInt8) (keyVersion : Nat) : Worker :=
  { w with
    slots := Function.update w.slots c { w.slots c with
      act := true, push := w.pushes.length, rs := t.start, rb := t.bytes
      ti := if job.isCiphertext then w.localNt else (w.slots c).ti
      iv := iv, fresh := fresh, keyVersion := keyVersion }
    localNt := if job.isCiphertext then w.localNt + 1 else w.localNt
    numTransfers := if job.isCiphertext then w.numTransfers + 1 else w.numTransfers
    pushes := w.pushes ++ [⟨c, t.source, t.bytes, iv, fresh, keyVersion, none⟩] }

/-- The device ends a submission: ciphertext and tag lie in the buffers of its slot. -/
def deviceEnds (k : Nat) (cipher tag : Bytes) : Option Worker :=
  match w.pushes[k]? with
  | some sub =>
      if sub.result = none ∧ cipher.length = sub.bytes then some { w with
        pushes := w.pushes.set k { sub with result := some (cipher, tag) }
        slots := Function.update w.slots sub.slot ((w.slots sub.slot).fill cipher tag) }
      else none
  | none => none

/-- The wait in the loop. -/
def waitTurn (i : Nat) (result decrypted : Status) (plain : Bytes) : Worker × Effect :=
  if result ≠ .ok then (w.fail result, .none)
  else
    let received := w.receive job (lane i) decrypted plain
    (if received.1.status = .ok then { received.1 with stage := .copy i } else received.1.drain,
      received.2)

/-- The wait behind `w_drain`, which hands nothing over behind an error. -/
def drainTurn (c : Bool) (result decrypted : Status) (plain : Bytes) : Worker × Effect :=
  let status := if w.status = .ok then result else w.status
  if status = .ok then
    let received := w.receive job c decrypted plain
    (if received.1.status = .ok then { received.1 with stage := .drainCopy c }
      else (received.1.release c).drain, received.2)
  else (({ w with status := status }.release c).drain, .none)

/-- `lm_mt_worker_fn`. -/
def step (turn : Turn) : Option (Worker × Effect) :=
  match turn, w.stage with
  | .device k cipher tag, _ => (w.deviceEnds k cipher tag).map fun w' => (w', .none)
  | .alloc plain first second, .start => some (w.allocate job plain first second, .none)
  | .wait result decrypted plain, .wait i =>
      if w.mayReturn (lane i) result decrypted plain then
        some (w.waitTurn job i result decrypted plain)
      else none
  | .copy copied, .copy i =>
      let c := lane i
      some (if w.copyFails job c copied then w.fail .invalidArgument
        else { w.release c with stage := .submit i }, w.copyOut job c copied)
  | .submit begun iv fresh keyVersion, .submit i =>
      if begun ≠ .ok then some (w.fail begun, .none)
      else (job.transfers[w.sliceStart + i]?).map fun t =>
        ((w.push job (lane i) t iv fresh keyVersion).iterate (i + 1), .none)
  | .wait result decrypted plain, .drainWait c =>
      if w.mayReturn c result decrypted plain then
        some (w.drainTurn job c result decrypted plain)
      else none
  | .copy copied, .drainCopy c =>
      some ((({ w with status :=
          if w.copyFails job c copied then .invalidArgument else w.status }).release c).drain,
        w.copyOut job c copied)
  | _, _ => none

@[simp] theorem release_act (c : Bool) : ((w.release c).slots c).act = false := by
  rw [release]
  dsimp only
  rw [Function.update_self]

@[simp] theorem drain_status : w.drain.status = w.status := rfl

@[simp] theorem iterate_status (i : Nat) : (w.iterate i).status = w.status := by
  rw [iterate]
  split <;> rfl

theorem deviceEnds_status {k : Nat} {cipher tag : Bytes} {w w' : Worker}
    (h : w.deviceEnds k cipher tag = some w') : w'.status = w.status ∧ w'.stage = w.stage := by
  rw [deviceEnds] at h
  split at h
  · split at h
    · cases h
      exact ⟨rfl, rfl⟩
    · cases h
  · cases h

/-- The ways a worker takes a turn. -/
inductive Took : Worker → Effect → Prop where
  | device (k : Nat) (cipher tag : Bytes) (w' : Worker) (hEnds : w.deviceEnds k cipher tag = some w') :
      Took w' .none
  | alloc (plain : Bool) (first second : Status) (hStage : w.stage = .start) :
      Took (w.allocate job plain first second) .none
  | wait (i : Nat) (result decrypted : Status) (plain : Bytes) (hStage : w.stage = .wait i)
      (hReturns : w.mayReturn (lane i) result decrypted plain = true) :
      Took (w.waitTurn job i result decrypted plain).1 (w.waitTurn job i result decrypted plain).2
  | copyFails (i copied : Nat) (hStage : w.stage = .copy i)
      (hFails : w.copyFails job (lane i) copied = true) :
      Took (w.fail .invalidArgument) (w.copyOut job (lane i) copied)
  | copy (i copied : Nat) (hStage : w.stage = .copy i)
      (hCopied : w.copyFails job (lane i) copied = false) :
      Took { w.release (lane i) with stage := .submit i } (w.copyOut job (lane i) copied)
  | submitFails (i : Nat) (begun : Status) (hStage : w.stage = .submit i) (hBegun : begun ≠ .ok) :
      Took (w.fail begun) .none
  | submit (i : Nat) (t : Transfer) (iv : Bytes) (fresh : UInt8) (keyVersion : Nat)
      (hStage : w.stage = .submit i) (hRun : job.transfers[w.sliceStart + i]? = some t) :
      Took ((w.push job (lane i) t iv fresh keyVersion).iterate (i + 1)) .none
  | drainWait (c : Bool) (result decrypted : Status) (plain : Bytes) (hStage : w.stage = .drainWait c)
      (hReturns : w.mayReturn c result decrypted plain = true) :
      Took (w.drainTurn job c result decrypted plain).1 (w.drainTurn job c result decrypted plain).2
  | drainCopy (c : Bool) (copied : Nat) (hStage : w.stage = .drainCopy c) :
      Took (({ w with status := if w.copyFails job c copied then .invalidArgument else w.status }
        ).release c).drain (w.copyOut job c copied)

/-- All that a turn does. -/
theorem took_of_step {turn : Turn} {w' : Worker} {e : Effect}
    (h : w.step job turn = some (w', e)) : w.Took job w' e := by
  unfold step at h
  split at h
  · rename_i k cipher tag
    obtain ⟨w'', hEnds, hSame⟩ := Option.map_eq_some_iff.mp h
    cases hSame
    exact .device k cipher tag w' hEnds
  · rename_i plain first second hStage
    cases h
    exact .alloc plain first second hStage
  · rename_i result decrypted plain i hStage
    split at h
    · rename_i hReturns
      have hPair := Option.some.inj h
      obtain rfl : _ = w' := congrArg Prod.fst hPair
      obtain rfl : _ = e := congrArg Prod.snd hPair
      exact .wait i result decrypted plain hStage hReturns
    · cases h
  · rename_i copied i hStage
    cases h
    dsimp only
    split
    · rename_i hFails
      exact .copyFails i copied hStage hFails
    · rename_i hCopied
      exact .copy i copied hStage (Bool.not_eq_true _ ▸ hCopied)
  · rename_i begun iv fresh keyVersion i hStage
    split at h
    · rename_i hBegun
      cases h
      exact .submitFails i begun hStage hBegun
    · obtain ⟨t, hRun, hSame⟩ := Option.map_eq_some_iff.mp h
      cases hSame
      exact .submit i t iv fresh keyVersion hStage hRun
  · rename_i result decrypted plain c hStage
    split at h
    · rename_i hReturns
      have hPair := Option.some.inj h
      obtain rfl : _ = w' := congrArg Prod.fst hPair
      obtain rfl : _ = e := congrArg Prod.snd hPair
      exact .drainWait c result decrypted plain hStage hReturns
    · cases h
  · rename_i copied c hStage
    cases h
    exact .drainCopy c copied hStage
  · cases h

end Worker

def Submission.entry (sub : Submission) (tag : Bytes) : CryptoMeta :=
  ⟨sub.bytes, sub.iv, sub.fresh, tag, sub.keyVersion⟩

/-- The submission encrypts this run into the buffer of this slot. -/
structure Submission.Of (sub : Submission) (t : Transfer) (c : Bool) : Prop where
  slot : sub.slot = c
  source : sub.source = t.source
  bytes : sub.bytes = t.bytes
  length : ∀ cipher tag, sub.result = some (cipher, tag) → cipher.length = sub.bytes

/-- The run with its submission has reached the caller: the entry that says how it was
encrypted, and the bytes in the part of the buffer that belongs to the run. -/
structure Delivered (job : Job) (h : HandOver) (r : Nat) (t : Transfer) (sub : Submission) :
    Prop where
  encrypted : ∃ cipher tag, sub.result = some (cipher, tag) ∧ cipher.length = t.bytes ∧
    (job.isCiphertext = true → h.metas r = sub.entry tag ∧
      (job.userGpuBuf = true → Landed h.writes ⟨t.offset, cipher⟩))
  copied : job.userGpuBuf = true → ∃ data, data.length = t.bytes ∧ Landed h.writes ⟨t.offset, data⟩

/-- Runs lie apart in the GPU buffer. -/
def Job.Apart (job : Job) : Prop :=
  ∀ (r r' : Nat) (t t' : Transfer), r ≠ r' → job.transfers[r]? = some t →
    job.transfers[r']? = some t' →
      t.offset + t.bytes ≤ t'.offset ∨ t'.offset + t'.bytes ≤ t.offset

/-- The effect is about runs of these numbers only, and copies go to a buffer. -/
def Effect.Within (job : Job) (own : Nat → Prop) : Effect → Prop
  | .none => True
  | .store ti _ => own ti
  | .copy v => job.userGpuBuf = true ∧ ∃ r t, own r ∧ job.transfers[r]? = some t ∧
      v.off = t.offset ∧ v.bytes.length ≤ t.bytes

/-- The slot is filled by this submission of this run. -/
structure Slot.Carries (s : Slot) (t : Transfer) (sub : Submission) : Prop where
  rs : s.rs = t.start
  rb : s.rb = t.bytes
  iv : s.iv = sub.iv
  fresh : s.fresh = sub.fresh
  keyVersion : s.keyVersion = sub.keyVersion
  result : ∀ cipher tag, sub.result = some (cipher, tag) →
    s.buffer.take s.rb = cipher ∧ s.tag = tag

/-- What a worker has submitted so far, beside its slots and what was handed over: submission
`j` is that of run `start + j`, and it lies in its slot unless the run has been delivered. -/
structure Core (job : Job) (h : HandOver) (start : Nat) (slots : Bool → Slot)
    (pushes : List Submission) (localNt numTransfers : Nat) : Prop where
  counted : job.isCiphertext = true →
    localNt = start + pushes.length ∧ numTransfers = pushes.length
  pushed : ∀ j sub, pushes[j]? = some sub →
    ∃ t, job.transfers[start + j]? = some t ∧ sub.Of t (lane j)
  loaded : ∀ c, (slots c).act = true → lane (slots c).push = c ∧
    (job.isCiphertext = true → (slots c).ti = start + (slots c).push) ∧
    ∃ t sub, pushes[(slots c).push]? = some sub ∧
      job.transfers[start + (slots c).push]? = some t ∧ (slots c).Carries t sub
  settled : ∀ j sub t, pushes[j]? = some sub → job.transfers[start + j]? = some t →
    ((slots (lane j)).act = true ∧ (slots (lane j)).push = j) ∨
      Delivered job h (start + j) t sub

/-- Before the first submission the slots are empty. -/
theorem core_nil (job : Job) (h : HandOver) {start localNt : Nat} {slots : Bool → Slot}
    (hEmpty : ∀ c, (slots c).act = false) (hLocal : localNt = start) :
    Core job h start slots [] localNt 0 where
  counted := fun _ => ⟨hLocal, rfl⟩
  pushed := by
    intro j sub hSub
    cases hSub
  loaded := fun c hAct => absurd hAct (Bool.eq_false_iff.mp (hEmpty c))
  settled := by
    intro j sub t hSub
    cases hSub

/-- The submission in the slot has ended, and its entry is stored or its bytes are decrypted. -/
def Received (job : Job) (h : HandOver) (s : Slot) (pushes : List Submission) (plainBuf : Bytes) :
    Prop :=
  (∃ sub, pushes[s.push]? = some sub ∧ sub.result ≠ none) ∧
    (job.isCiphertext = true → h.metas s.ti = s.entry) ∧
    (job.isCiphertext = false → plainBuf.length = s.rb)

section Frame

variable {job : Job} {h : HandOver} {own : Nat → Prop} {e : Effect}

theorem Effect.Within.mono {own' : Nat → Prop} (hWithin : e.Within job own)
    (hMono : ∀ r, own r → own' r) : e.Within job own' := by
  cases e with
  | none => trivial
  | store ti _ => exact hMono ti hWithin
  | copy v =>
      obtain ⟨hBuf, r, t, hOwn, hRest⟩ := hWithin
      exact ⟨hBuf, r, t, hMono r hOwn, hRest⟩

/-- Effects on other runs leave a delivered one as it is. -/
theorem Delivered.apply (hApart : job.Apart) (hWithin : e.Within job own) {r : Nat} {t : Transfer}
    {sub : Submission} (hRun : job.transfers[r]? = some t) (hOther : ¬own r)
    (hDelivered : Delivered job h r t sub) : Delivered job (e.apply h) r t sub := by
  cases e with
  | none => exact hDelivered
  | store ti entry =>
      have hNe : r ≠ ti := fun hSame => hOther (hSame ▸ hWithin)
      obtain ⟨⟨cipher, tag, hResult, hLength, hCipher⟩, hCopied⟩ := hDelivered
      refine ⟨⟨cipher, tag, hResult, hLength, fun hMode => ?_⟩, hCopied⟩
      obtain ⟨hEntry, hLanded⟩ := hCipher hMode
      exact ⟨(Function.update_of_ne hNe ..).trans hEntry, hLanded⟩
  | copy v =>
      obtain ⟨-, r', t', hOwn, hRun', hOff, hBytes⟩ := hWithin
      have hNe : r' ≠ r := fun hSame => hOther (hSame ▸ hOwn)
      have hDisjoint : ∀ data : Bytes, data.length = t.bytes → v.Disjoint ⟨t.offset, data⟩ := by
        intro data hData
        have hRuns := hApart r' r t' t hNe hRun' hRun
        simp only [Write.Disjoint, Write.stop, hOff, hData]
        omega
      obtain ⟨⟨cipher, tag, hResult, hLength, hCipher⟩, hCopied⟩ := hDelivered
      refine ⟨⟨cipher, tag, hResult, hLength, fun hMode => ?_⟩, fun hBuf => ?_⟩
      · obtain ⟨hEntry, hLanded⟩ := hCipher hMode
        exact ⟨hEntry, fun hBuf => (hLanded hBuf).concat (hDisjoint cipher hLength)⟩
      · obtain ⟨data, hData, hLanded⟩ := hCopied hBuf
        exact ⟨data, hData, hLanded.concat (hDisjoint data hData)⟩

variable {start localNt numTransfers : Nat} {slots : Bool → Slot} {pushes : List Submission}

theorem Core.apply (hApart : job.Apart) (hWithin : e.Within job own)
    (hCore : Core job h start slots pushes localNt numTransfers)
    (hOwn : ∀ j < pushes.length, own (start + j) →
      (slots (lane j)).act = true ∧ (slots (lane j)).push = j) :
    Core job (e.apply h) start slots pushes localNt numTransfers := by
  refine ⟨hCore.counted, hCore.pushed, hCore.loaded, fun j sub t hSub hRun => ?_⟩
  by_cases hMine : own (start + j)
  · exact .inl (hOwn j (List.getElem?_eq_some_iff.mp hSub).1 hMine)
  · rcases hCore.settled j sub t hSub hRun with hLies | hDelivered
    · exact .inl hLies
    · exact .inr (hDelivered.apply hApart hWithin hRun hMine)

theorem Received.apply {s : Slot} {plainBuf : Bytes} (hWithin : e.Within job own)
    (hOther : job.isCiphertext = true → ¬own s.ti) (h' : Received job h s pushes plainBuf) :
    Received job (e.apply h) s pushes plainBuf := by
  obtain ⟨hEnded, hEntry, hPlain⟩ := h'
  refine ⟨hEnded, fun hMode => ?_, hPlain⟩
  cases e with
  | none => exact hEntry hMode
  | store ti entry =>
      have hNe : s.ti ≠ ti := fun hSame => hOther hMode (hSame ▸ hWithin)
      exact (Function.update_of_ne hNe ..).trans (hEntry hMode)
  | copy v => exact hEntry hMode

end Frame

section Slots

variable {job : Job} {h : HandOver} {start localNt numTransfers : Nat} {slots : Bool → Slot}
variable {pushes : List Submission}

/-- A slot is free again when its run is delivered. -/
theorem Core.release (hCore : Core job h start slots pushes localNt numTransfers) {c : Bool}
    (hDelivered : ∀ sub t, pushes[(slots c).push]? = some sub →
      job.transfers[start + (slots c).push]? = some t →
        Delivered job h (start + (slots c).push) t sub) :
    Core job h start (Function.update slots c { slots c with act := false }) pushes localNt
      numTransfers := by
  refine ⟨hCore.counted, hCore.pushed, fun d hAct => ?_, fun j sub t hSub hRun => ?_⟩
  · by_cases hSame : d = c
    · subst hSame
      rw [Function.update_self] at hAct
      cases hAct
    · rw [Function.update_of_ne hSame] at hAct ⊢
      exact hCore.loaded d hAct
  · rcases hCore.settled j sub t hSub hRun with ⟨hAct, hPush⟩ | hDone
    · by_cases hSame : lane j = c
      · right
        rw [hSame] at hPush
        subst hPush
        exact hDelivered sub t hSub hRun
      · left
        rw [Function.update_of_ne hSame]
        exact ⟨hAct, hPush⟩
    · exact .inr hDone

variable {cipher tag : Bytes}

/-- A submission that has not ended lies in its slot. -/
theorem Core.lies (hCore : Core job h start slots pushes localNt numTransfers) {k : Nat}
    {sub : Submission} (hSub : pushes[k]? = some sub) (hNone : sub.result = none) :
    (slots (lane k)).act = true ∧ (slots (lane k)).push = k := by
  obtain ⟨t, hRun, -⟩ := hCore.pushed k sub hSub
  rcases hCore.settled k sub t hSub hRun with hLies | ⟨⟨_, _, hResult, _⟩, _⟩
  · exact hLies
  · rw [hNone] at hResult
    cases hResult

theorem update_fill (c d : Bool) :
    Function.update slots d ((slots d).fill cipher tag) c =
      if c = d then (slots c).fill cipher tag else slots c := by
  rw [Function.update_apply]
  split
  · rename_i hSame
    rw [hSame]
  · rfl

theorem update_fill_act (c d : Bool) :
    (Function.update slots d ((slots d).fill cipher tag) c).act = (slots c).act := by
  rw [update_fill]
  split <;> rfl

theorem update_fill_push (c d : Bool) :
    (Function.update slots d ((slots d).fill cipher tag) c).push = (slots c).push := by
  rw [update_fill]
  split <;> rfl

theorem Core.ends (hCore : Core job h start slots pushes localNt numTransfers) {k : Nat}
    {sub : Submission} (hSub : pushes[k]? = some sub) (hNone : sub.result = none)
    (hLength : cipher.length = sub.bytes) :
    Core job h start (Function.update slots (lane k) ((slots (lane k)).fill cipher tag))
      (pushes.set k { sub with result := some (cipher, tag) }) localNt numTransfers := by
  obtain ⟨t, hRun, hOf⟩ := hCore.pushed k sub hSub
  obtain ⟨-, hPush⟩ := hCore.lies hSub hNone
  have hHere : (pushes.set k { sub with result := some (cipher, tag) })[k]? =
      some { sub with result := some (cipher, tag) } :=
    List.getElem?_set_self (List.getElem?_eq_some_iff.mp hSub).1
  have hElse : ∀ {j : Nat}, j ≠ k →
      (pushes.set k { sub with result := some (cipher, tag) })[j]? = pushes[j]? :=
    fun hNe => List.getElem?_set_ne (Ne.symm hNe)
  refine ⟨fun hMode => ?_, fun j sub' hSub' => ?_, fun c hAct => ?_,
    fun j sub' t' hSub' hRun' => ?_⟩
  · rw [List.length_set]
    exact hCore.counted hMode
  · by_cases hSame : j = k
    · subst hSame
      cases hHere.symm.trans hSub'
      refine ⟨t, hRun, hOf.slot, hOf.source, hOf.bytes, fun cipher' tag' hResult => ?_⟩
      cases hResult
      exact hLength
    · rw [hElse hSame] at hSub'
      exact hCore.pushed j sub' hSub'
  · rw [update_fill_act] at hAct
    obtain ⟨hLane, hTi, t', sub', hSub', hRun', hCarries⟩ := hCore.loaded c hAct
    rw [update_fill_push]
    by_cases hSame : c = lane k
    · subst hSame
      rw [update_fill, if_pos rfl]
      rw [hPush] at hSub' hRun' hTi ⊢
      cases hSub.symm.trans hSub'
      refine ⟨rfl, hTi, t', _, hHere, hRun', hCarries.rs, hCarries.rb, hCarries.iv, hCarries.fresh,
        hCarries.keyVersion, fun cipher' tag' hResult => ?_⟩
      cases hResult
      refine ⟨List.take_left' ?_, rfl⟩
      cases hRun.symm.trans hRun'
      exact hLength.trans (hOf.bytes.trans hCarries.rb.symm)
    · rw [update_fill, if_neg hSame]
      have hNe : (slots c).push ≠ k := fun hSamePush => hSame (hSamePush ▸ hLane).symm
      exact ⟨hLane, hTi, t', sub', by rw [hElse hNe, hSub'], hRun', hCarries⟩
  · rw [update_fill_act, update_fill_push]
    by_cases hSame : j = k
    · subst hSame
      exact .inl (hCore.lies hSub hNone)
    · rw [hElse hSame] at hSub'
      exact hCore.settled j sub' t' hSub' hRun'

theorem Received.ends (hCore : Core job h start slots pushes localNt numTransfers) {k : Nat}
    {sub new : Submission} (hSub : pushes[k]? = some sub) (hNone : sub.result = none) {c : Bool}
    {plainBuf : Bytes} (hReceived : Received job h (slots c) pushes plainBuf) :
    Received job h (Function.update slots (lane k) ((slots (lane k)).fill cipher tag) c)
      (pushes.set k new) plainBuf := by
  obtain ⟨⟨sub', hSub', hEnded⟩, hRest⟩ := hReceived
  have hNe : (slots c).push ≠ k := by
    intro hSame
    rw [hSame, hSub] at hSub'
    cases hSub'
    exact hEnded hNone
  have hOther : c ≠ lane k := by
    intro hSame
    rw [hSame] at hNe
    exact hNe (hCore.lies hSub hNone).2
  rw [update_fill, if_neg hOther]
  exact ⟨⟨sub', by rw [List.getElem?_set_ne (Ne.symm hNe), hSub'], hEnded⟩, hRest⟩

end Slots

namespace Worker

/-- What holds at a stage as long as nothing has failed. -/
def At (job : Job) (h : HandOver) (w : Worker) : Stage → Prop
  | .start => w.pushes = [] ∧ ∀ c, (w.slots c).act = false
  | .wait i => w.pushes.length = i ∧ i < w.sliceCount ∧ (w.slots (lane i)).act = true
  | .copy i => w.pushes.length = i ∧ i < w.sliceCount ∧ (w.slots (lane i)).act = true ∧
      Received job h (w.slots (lane i)) w.pushes w.plainBuf
  | .submit i => w.pushes.length = i ∧ i < w.sliceCount ∧ (w.slots (lane i)).act = false
  | .drainWait c => w.pushes.length = w.sliceCount ∧ (w.slots c).act = true
  | .drainCopy c => w.pushes.length = w.sliceCount ∧ (w.slots c).act = true ∧
      Received job h (w.slots c) w.pushes w.plainBuf
  | .ended => w.pushes.length = w.sliceCount ∧ ∀ c, (w.slots c).act = false

structure Good (job : Job) (h : HandOver) (w : Worker) : Prop where
  core : Core job h w.sliceStart w.slots w.pushes w.localNt w.numTransfers
  stage : w.At job h w.stage

/-- Behind an error a worker only drains. -/
def Quiet (w : Worker) : Prop := (∃ c, w.stage = .drainWait c) ∨ w.stage = .ended

section Parts

variable {job : Job} {h : HandOver} {w : Worker}

theorem quiet_drain : w.drain.Quiet := by
  rw [Quiet, drain]
  dsimp only
  split
  · exact .inl ⟨false, rfl⟩
  · split
    · exact .inl ⟨true, rfl⟩
    · exact .inr rfl

theorem good_drain (hCore : Core job h w.sliceStart w.slots w.pushes w.localNt w.numTransfers)
    (hLength : w.pushes.length = w.sliceCount) : w.drain.Good job h := by
  refine ⟨hCore, ?_⟩
  rw [drain]
  dsimp only
  split
  · rename_i hFirst
    exact ⟨hLength, hFirst⟩
  · rename_i hFirst
    split
    · rename_i hSecond
      exact ⟨hLength, hSecond⟩
    · rename_i hSecond
      refine ⟨hLength, fun c => ?_⟩
      cases c with
      | false => exact Bool.not_eq_true _ ▸ hFirst
      | true => exact Bool.not_eq_true _ ▸ hSecond

theorem good_iterate {i : Nat}
    (hCore : Core job h w.sliceStart w.slots w.pushes w.localNt w.numTransfers)
    (hLength : w.pushes.length = i) (hLe : i ≤ w.sliceCount) : (w.iterate i).Good job h := by
  rw [iterate]
  split
  · rename_i hLt
    refine ⟨hCore, ?_⟩
    dsimp only
    split
    · rename_i hAct
      exact ⟨hLength, hLt, hAct⟩
    · rename_i hAct
      exact ⟨hLength, hLt, Bool.not_eq_true _ ▸ hAct⟩
  · exact good_drain hCore (by omega)

theorem core_push (hCore : Core job h w.sliceStart w.slots w.pushes w.localNt w.numTransfers)
    {t : Transfer} (hRun : job.transfers[w.sliceStart + w.pushes.length]? = some t)
    (hFree : (w.slots (lane w.pushes.length)).act = false) (iv : Bytes) (fresh : UInt8)
    (keyVersion : Nat) {w' : Worker}
    (hPush : w' = w.push job (lane w.pushes.length) t iv fresh keyVersion) :
    Core job h w'.sliceStart w'.slots w'.pushes w'.localNt w'.numTransfers := by
  subst hPush
  have hOld : ∀ {j : Nat} {sub : Submission}, w.pushes[j]? = some sub → ∀ new : Submission,
      (w.pushes ++ [new])[j]? = some sub := by
    intro j sub hSub new
    rw [List.getElem?_append_left (List.getElem?_eq_some_iff.mp hSub).1, hSub]
  have hNew : ∀ {j : Nat} {sub new : Submission}, (w.pushes ++ [new])[j]? = some sub →
      w.pushes[j]? = some sub ∨ (j = w.pushes.length ∧ sub = new) := by
    intro j sub new hSub
    rcases Nat.lt_trichotomy j w.pushes.length with hLt | rfl | hGt
    · rw [List.getElem?_append_left hLt] at hSub
      exact .inl hSub
    · rw [List.getElem?_concat_length] at hSub
      exact .inr ⟨rfl, (Option.some.inj hSub).symm⟩
    · rw [List.getElem?_eq_none (by simp; omega)] at hSub
      cases hSub
  refine ⟨fun hMode => ?_, fun j sub hSub => ?_, fun c hAct => ?_, fun j sub t' hSub hRun' => ?_⟩
  · obtain ⟨hLocal, hCount⟩ := hCore.counted hMode
    simp only [push, hMode, if_true, List.length_append, List.length_singleton]
    omega
  · rcases hNew hSub with hSub | ⟨rfl, rfl⟩
    · exact hCore.pushed j sub hSub
    · exact ⟨t, hRun, rfl, rfl, rfl, fun _ _ hResult => (Option.some_ne_none _ hResult.symm).elim⟩
  · by_cases hSame : c = lane w.pushes.length
    · subst hSame
      rw [push]
      dsimp only
      rw [Function.update_self]
      refine ⟨rfl, fun hMode => ?_, t, _, List.getElem?_concat_length, hRun, ?_⟩
      · dsimp only
        rw [if_pos hMode]
        exact (hCore.counted hMode).1
      · exact ⟨rfl, rfl, rfl, rfl, rfl, fun _ _ hResult => (Option.some_ne_none _ hResult.symm).elim⟩
    · simp only [push, Function.update_of_ne hSame] at hAct ⊢
      obtain ⟨hLane, hTi, t', sub, hSub, hRun', hCarries⟩ := hCore.loaded c hAct
      exact ⟨hLane, hTi, t', sub, hOld hSub _, hRun', hCarries⟩
  · rcases hNew hSub with hSub | ⟨rfl, rfl⟩
    · rcases hCore.settled j sub t' hSub hRun' with ⟨hAct, hPush⟩ | hDone
      · have hOther : lane j ≠ lane w.pushes.length := by
          intro hSame
          rw [hSame, hFree] at hAct
          cases hAct
        left
        simp only [push, Function.update_of_ne hOther]
        exact ⟨hAct, hPush⟩
      · exact .inr hDone
    · left
      rw [push]
      dsimp only
      rw [Function.update_self]
      exact ⟨rfl, rfl⟩

/-- The end of a submission fills its own slot. -/
theorem Good.deviceEnds (hGood : w.Good job h) {k : Nat} {cipher tag : Bytes} {w' : Worker}
    (hEnds : w.deviceEnds k cipher tag = some w') : w'.Good job h := by
  rw [Worker.deviceEnds] at hEnds
  split at hEnds
  case h_2 => cases hEnds
  case h_1 sub hSub =>
    split at hEnds
    case isFalse => cases hEnds
    case isTrue hOpen =>
      obtain ⟨hNone, hLength⟩ := hOpen
      obtain ⟨hCore, hStage⟩ := hGood
      obtain ⟨t, hRun, hOf⟩ := hCore.pushed k sub hSub
      cases hEnds
      have hEnds : Core job h w.sliceStart
          (Function.update w.slots (lane k) ((w.slots (lane k)).fill cipher tag))
          (w.pushes.set k { sub with result := some (cipher, tag) }) w.localNt w.numTransfers :=
        hCore.ends hSub hNone hLength
      rw [← hOf.slot] at hEnds
      refine ⟨hEnds, ?_⟩
      have hAct : ∀ c, (Function.update w.slots sub.slot ((w.slots sub.slot).fill cipher tag) c).act =
          (w.slots c).act := fun c => update_fill_act c sub.slot
      have hReceived : ∀ c, Received job h (w.slots c) w.pushes w.plainBuf →
          Received job h (Function.update w.slots sub.slot ((w.slots sub.slot).fill cipher tag) c)
            (w.pushes.set k { sub with result := some (cipher, tag) }) w.plainBuf := by
        intro c
        rw [hOf.slot]
        exact Received.ends hCore hSub hNone
      cases hAt : w.stage with
      | start =>
          rw [hAt] at hStage
          rw [hStage.1] at hSub
          cases hSub
      | wait i =>
          rw [hAt] at hStage
          exact ⟨List.length_set.trans hStage.1, hStage.2.1, (hAct _).trans hStage.2.2⟩
      | copy i =>
          rw [hAt] at hStage
          exact ⟨List.length_set.trans hStage.1, hStage.2.1, (hAct _).trans hStage.2.2.1,
            hReceived _ hStage.2.2.2⟩
      | submit i =>
          rw [hAt] at hStage
          exact ⟨List.length_set.trans hStage.1, hStage.2.1, (hAct _).trans hStage.2.2⟩
      | drainWait c =>
          rw [hAt] at hStage
          exact ⟨List.length_set.trans hStage.1, (hAct _).trans hStage.2⟩
      | drainCopy c =>
          rw [hAt] at hStage
          exact ⟨List.length_set.trans hStage.1, (hAct _).trans hStage.2.1, hReceived _ hStage.2.2⟩
      | ended =>
          rw [hAt] at hStage
          exact ⟨List.length_set.trans hStage.1, fun c => (hAct c).trans (hStage.2 c)⟩

end Parts

section Turns

variable {job : Job} {h : HandOver} {w : Worker}

/-- The number of the run in a slot. -/
def runIn (w : Worker) (c : Bool) : Nat := w.sliceStart + (w.slots c).push

/-- The runs of the slice. -/
def Owns (w : Worker) (r : Nat) : Prop := w.sliceStart ≤ r ∧ r < w.sliceStart + w.sliceCount

theorem mayReturn_ok {c : Bool} {decrypted : Status} {plain : Bytes} {result : Status}
    (hReturns : w.mayReturn c result decrypted plain = true) (hResult : result = .ok) :
    (∃ sub, w.pushes[(w.slots c).push]? = some sub ∧ sub.result ≠ none) ∧
      (decrypted = .ok → plain.length = (w.slots c).rb) := by
  simp only [mayReturn, hResult, ne_eq, not_true, decide_false, Bool.false_or, Bool.and_eq_true,
    Option.isSome_iff_exists, Option.bind_eq_some_iff, Bool.or_eq_true, decide_eq_true_eq] at hReturns
  obtain ⟨⟨result, sub, hSub, hEnded⟩, hPlain⟩ := hReturns
  refine ⟨⟨sub, hSub, ?_⟩, fun hOk => hPlain.resolve_left (not_not_intro hOk)⟩
  rw [hEnded]
  nofun

theorem receive_within {c : Bool} {decrypted : Status} {plain : Bytes}
    (hCore : Core job h w.sliceStart w.slots w.pushes w.localNt w.numTransfers)
    (hAct : (w.slots c).act = true) :
    (w.receive job c decrypted plain).2.Within job (· = w.runIn c) := by
  rw [receive]
  split
  · rename_i hMode
    exact (hCore.loaded c hAct).2.1 hMode
  · split <;> trivial

theorem good_receive (hApart : job.Apart) {c : Bool} {decrypted : Status} {plain : Bytes}
    (hCore : Core job h w.sliceStart w.slots w.pushes w.localNt w.numTransfers)
    (hAct : (w.slots c).act = true) (hReturns : w.mayReturn c .ok decrypted plain = true)
    {w' : Worker} {e : Effect} (hReceive : w.receive job c decrypted plain = (w', e))
    (hOk : w'.status = .ok) :
    Core job (e.apply h) w.sliceStart w.slots w.pushes w.localNt w.numTransfers ∧
      Received job (e.apply h) (w.slots c) w.pushes w'.plainBuf := by
  obtain ⟨hEnded, hPlain⟩ := mayReturn_ok hReturns rfl
  have hWithin : (w.receive job c decrypted plain).2.Within job (· = w.runIn c) :=
    receive_within hCore hAct
  rw [hReceive] at hWithin
  refine ⟨hCore.apply hApart hWithin fun j _ hj => ?_, hEnded, fun hMode => ?_, fun hMode => ?_⟩
  · have hSame : j = (w.slots c).push := Nat.add_left_cancel hj
    rw [hSame, (hCore.loaded c hAct).1]
    exact ⟨hAct, rfl⟩
  · rw [receive, if_pos hMode] at hReceive
    cases hReceive
    exact Function.update_self ..
  · rw [receive, if_neg (by rw [hMode]; decide)] at hReceive
    split at hReceive
    · rename_i hDecrypted
      cases hReceive
      exact hPlain hDecrypted
    · rename_i hDecrypted
      cases hReceive
      exact absurd hOk hDecrypted

/-- What is copied has the size of the run, and is the ciphertext of its submission. -/
theorem outgoing_of_received {c : Bool}
    (hReceived : Received job h (w.slots c) w.pushes w.plainBuf) {t : Transfer} {sub : Submission}
    (hSub : w.pushes[(w.slots c).push]? = some sub) (hOf : sub.Of t c)
    (hCarries : (w.slots c).Carries t sub) : ∃ cipher tag, sub.result = some (cipher, tag) ∧
      cipher.length = t.bytes ∧ (w.slots c).tag = tag ∧ (w.outgoing job c).length = t.bytes ∧
      (job.isCiphertext = true → w.outgoing job c = cipher) := by
  obtain ⟨⟨sub', hSub', hEnded⟩, -, hPlain⟩ := hReceived
  cases hSub.symm.trans hSub'
  obtain ⟨⟨cipher, tag⟩, hResult⟩ := Option.ne_none_iff_exists'.mp hEnded
  obtain ⟨hBuffer, hTag⟩ := hCarries.result cipher tag hResult
  have hLength : cipher.length = t.bytes := (hOf.length cipher tag hResult).trans hOf.bytes
  refine ⟨cipher, tag, hResult, hLength, hTag, ?_, fun hMode => ?_⟩
  · rw [outgoing]
    cases hMode : job.isCiphertext with
    | true => rw [if_pos rfl, hBuffer, hLength]
    | false =>
        rw [if_neg (by decide), List.length_take, hPlain hMode, Nat.min_self, hCarries.rb]
  · rw [outgoing, if_pos hMode, hBuffer]

theorem copyOut_within {c : Bool} {copied : Nat}
    (hCore : Core job h w.sliceStart w.slots w.pushes w.localNt w.numTransfers)
    (hAct : (w.slots c).act = true) : (w.copyOut job c copied).Within job (· = w.runIn c) := by
  obtain ⟨-, -, t, sub, -, hRun, hCarries⟩ := hCore.loaded c hAct
  rw [copyOut]
  split
  · rename_i hBuf
    refine ⟨hBuf, _, t, rfl, hRun, congrArg (· * pageSize) hCarries.rs, ?_⟩
    dsimp only
    rw [outgoing, List.take_take, List.length_take, ← hCarries.rb]
    omega
  · trivial

theorem delivered_copyOut {c : Bool} {copied : Nat}
    (hReceived : Received job h (w.slots c) w.pushes w.plainBuf)
    (hCopied : w.copyFails job c copied = false)
    (hTi : job.isCiphertext = true → (w.slots c).ti = w.runIn c) {t : Transfer} {sub : Submission}
    (hSub : w.pushes[(w.slots c).push]? = some sub) (hOf : sub.Of t c)
    (hCarries : (w.slots c).Carries t sub) :
    Delivered job ((w.copyOut job c copied).apply h) (w.runIn c) t sub := by
  obtain ⟨cipher, tag, hResult, hLength, hTag, hOutgoing, hCipher⟩ :=
    outgoing_of_received hReceived hSub hOf hCarries
  have hWhole : job.userGpuBuf = true → ((w.copyOut job c copied).apply h).writes =
      h.writes ++ [⟨t.offset, w.outgoing job c⟩] := by
    intro hBuf
    have hAll : t.bytes ≤ copied := by
      simpa [copyFails, hBuf, hCarries.rb] using hCopied
    rw [copyOut, if_pos hBuf, List.take_of_length_le (by omega), hCarries.rs]
    rfl
  have hMetas : ((w.copyOut job c copied).apply h).metas = h.metas := by
    rw [copyOut]
    split <;> rfl
  refine ⟨⟨cipher, tag, hResult, hLength, fun hMode => ⟨?_, fun hBuf => ?_⟩⟩, fun hBuf => ?_⟩
  · rw [hMetas, ← hTi hMode, hReceived.2.1 hMode, Slot.entry, Submission.entry, hTag, hCarries.rb,
      hCarries.iv, hCarries.fresh, hCarries.keyVersion, hOf.bytes]
  · rw [hWhole hBuf, hCipher hMode]
    exact landed_last _ _
  · refine ⟨w.outgoing job c, hOutgoing, ?_⟩
    rw [hWhole hBuf]
    exact landed_last _ _

theorem core_copied (hApart : job.Apart) {c : Bool} {copied : Nat}
    (hCore : Core job h w.sliceStart w.slots w.pushes w.localNt w.numTransfers)
    (hAct : (w.slots c).act = true) (hReceived : Received job h (w.slots c) w.pushes w.plainBuf)
    (hCopied : w.copyFails job c copied = false) :
    Core job ((w.copyOut job c copied).apply h) w.sliceStart (w.release c).slots w.pushes w.localNt
      w.numTransfers := by
  obtain ⟨hLane, hTi, t, sub, hSub, hRun, hCarries⟩ := hCore.loaded c hAct
  apply Core.release
  · apply hCore.apply hApart (copyOut_within hCore hAct)
    intro j _ hj
    have hSame : j = (w.slots c).push := Nat.add_left_cancel hj
    rw [hSame, hLane]
    exact ⟨hAct, rfl⟩
  · intro sub' t' hSub' hRun'
    cases hSub.symm.trans hSub'
    cases hRun.symm.trans hRun'
    obtain ⟨t'', hRun'', hOf⟩ := hCore.pushed _ _ hSub
    cases hRun.symm.trans hRun''
    rw [hLane] at hOf
    exact delivered_copyOut hReceived hCopied hTi hSub hOf hCarries

/-- Whatever is received, only the scratch buffer and the status of the worker change. -/
theorem receive_eq (job : Job) (w : Worker) (c : Bool) (decrypted : Status) (plain : Bytes) :
    ∃ plainBuf status e, w.receive job c decrypted plain =
      ({ w with plainBuf := plainBuf, status := status }, e) ∧
      (status = .ok → w.status = .ok) := by
  rw [receive]
  split
  · exact ⟨w.plainBuf, w.status, _, rfl, id⟩
  · split
    · exact ⟨plain, w.status, _, rfl, id⟩
    · rename_i hDecrypted
      exact ⟨w.plainBuf, decrypted, _, rfl, fun hOk => absurd hOk hDecrypted⟩

theorem owns_runIn {c : Bool}
    (hCore : Core job h w.sliceStart w.slots w.pushes w.localNt w.numTransfers)
    (hAct : (w.slots c).act = true) (hLe : w.pushes.length ≤ w.sliceCount) :
    w.Owns (w.runIn c) := by
  obtain ⟨-, -, t, sub, hSub, -⟩ := hCore.loaded c hAct
  have hLt := (List.getElem?_eq_some_iff.mp hSub).1
  exact ⟨Nat.le_add_right _ _, Nat.add_lt_add_left (by omega) _⟩

/-- What a worker receives is of its own slice. -/
theorem receive_owned {c : Bool} {decrypted : Status} {plain : Bytes}
    (hCore : Core job h w.sliceStart w.slots w.pushes w.localNt w.numTransfers)
    (hAct : (w.slots c).act = true) (hLe : w.pushes.length ≤ w.sliceCount) :
    (w.receive job c decrypted plain).2.Within job w.Owns := by
  apply (receive_within hCore hAct).mono
  rintro r rfl
  exact owns_runIn hCore hAct hLe

/-- What a turn of a worker that has not failed leads to. -/
structure Leads (job : Job) (h : HandOver) (w w' : Worker) (e : Effect) : Prop where
  good : w'.status = .ok → w'.Good job (e.apply h)
  quiet : w'.status ≠ .ok → w'.Quiet
  within : e.Within job w.Owns

theorem leads_fail {status : Status} {e : Effect} (hStatus : status ≠ .ok)
    (hWithin : e.Within job w.Owns) : Leads job h w (w.fail status) e :=
  ⟨fun hOk => absurd hOk hStatus, fun _ => quiet_drain, hWithin⟩

theorem leads_alloc (hGood : w.Good job h) (hOk : w.status = .ok) (hStage : w.stage = .start)
    (plain : Bool) (first second : Status) :
    Leads job h w (w.allocate job plain first second) .none := by
  have hEnded : ∀ status, status ≠ .ok →
      Leads job h w { w with status := status, stage := .ended } .none := fun _ hStatus =>
    ⟨fun hOk => absurd hOk hStatus, fun _ => .inr rfl, trivial⟩
  rw [allocate]
  split
  · exact hEnded _ (by decide)
  · split
    · rename_i hFirst
      exact hEnded _ hFirst
    · split
      · rename_i hSecond
        exact hEnded _ hSecond
      · obtain ⟨hCore, hAt⟩ := hGood
        rw [hStage] at hAt
        have hIterate := good_iterate hCore (congrArg List.length hAt.1) (Nat.zero_le _)
        refine ⟨fun _ => hIterate, fun hStatus => ?_, trivial⟩
        exact absurd ((w.iterate_status 0).trans hOk) hStatus

theorem leads_wait (hApart : job.Apart) (hGood : w.Good job h) {i : Nat}
    (hStage : w.stage = .wait i) {result decrypted : Status} {plain : Bytes}
    (hReturns : w.mayReturn (lane i) result decrypted plain = true) :
    Leads job h w (w.waitTurn job i result decrypted plain).1
      (w.waitTurn job i result decrypted plain).2 := by
  obtain ⟨hCore, hAt⟩ := hGood
  rw [hStage] at hAt
  obtain ⟨hLength, hLt, hAct⟩ := hAt
  rw [waitTurn]
  split
  · rename_i hResult
    exact leads_fail hResult trivial
  · rename_i hResult
    rw [not_not.mp hResult] at hReturns
    obtain ⟨plainBuf, status, e, hReceive, -⟩ := receive_eq job w (lane i) decrypted plain
    have hOwns : (w.receive job (lane i) decrypted plain).2.Within job w.Owns :=
      receive_owned hCore hAct (by omega)
    rw [hReceive] at hOwns ⊢
    dsimp only at hOwns ⊢
    split
    · rename_i hOk
      obtain ⟨hCore', hReceived⟩ := good_receive hApart hCore hAct hReturns hReceive hOk
      exact ⟨fun _ => ⟨hCore', hLength, hLt, hAct, hReceived⟩, fun hNot => absurd hOk hNot, hOwns⟩
    · rename_i hNot
      exact ⟨fun hOk => absurd hOk hNot, fun _ => quiet_drain, hOwns⟩

theorem leads_copy (hApart : job.Apart) (hGood : w.Good job h) (hOk : w.status = .ok) {i : Nat}
    (copied : Nat) (hStage : w.stage = .copy i) (hCopied : w.copyFails job (lane i) copied = false) :
    Leads job h w { w.release (lane i) with stage := .submit i } (w.copyOut job (lane i) copied) := by
  obtain ⟨hCore, hAt⟩ := hGood
  rw [hStage] at hAt
  obtain ⟨hLength, hLt, hAct, hReceived⟩ := hAt
  refine ⟨fun _ => ⟨core_copied hApart hCore hAct hReceived hCopied, hLength, hLt, ?_⟩,
    fun hNot => absurd hOk hNot, ?_⟩
  · exact w.release_act (lane i)
  · apply (copyOut_within hCore hAct).mono
    rintro r rfl
    exact owns_runIn hCore hAct (by omega)

theorem leads_submit (hGood : w.Good job h) (hOk : w.status = .ok) {i : Nat}
    (hStage : w.stage = .submit i) {t : Transfer} (iv : Bytes) (fresh : UInt8) (keyVersion : Nat)
    (hRun : job.transfers[w.sliceStart + i]? = some t) :
    Leads job h w ((w.push job (lane i) t iv fresh keyVersion).iterate (i + 1)) .none := by
  obtain ⟨hCore, hAt⟩ := hGood
  rw [hStage] at hAt
  obtain ⟨rfl, hLt, hFree⟩ := hAt
  have hPushed := core_push hCore hRun hFree iv fresh keyVersion rfl
  refine ⟨fun _ => good_iterate hPushed ?_ hLt, fun hNot => ?_, trivial⟩
  · rw [push, List.length_append, List.length_singleton]
  · rw [iterate_status] at hNot
    exact absurd hOk hNot

theorem leads_drainWait (hApart : job.Apart) (hGood : w.Good job h) (hOk : w.status = .ok)
    {c : Bool} (hStage : w.stage = .drainWait c) {result decrypted : Status} {plain : Bytes}
    (hReturns : w.mayReturn c result decrypted plain = true) :
    Leads job h w (w.drainTurn job c result decrypted plain).1
      (w.drainTurn job c result decrypted plain).2 := by
  obtain ⟨hCore, hAt⟩ := hGood
  rw [hStage] at hAt
  obtain ⟨hLength, hAct⟩ := hAt
  rw [drainTurn]
  dsimp only
  rw [if_pos hOk]
  split
  · rename_i hResult
    rw [hResult] at hReturns
    obtain ⟨plainBuf, status, e, hReceive, -⟩ := receive_eq job w c decrypted plain
    have hOwns : (w.receive job c decrypted plain).2.Within job w.Owns :=
      receive_owned hCore hAct (by omega)
    rw [hReceive] at hOwns ⊢
    dsimp only at hOwns ⊢
    split
    · rename_i hOk
      obtain ⟨hCore', hReceived⟩ := good_receive hApart hCore hAct hReturns hReceive hOk
      exact ⟨fun _ => ⟨hCore', hLength, hAct, hReceived⟩, fun hNot => absurd hOk hNot, hOwns⟩
    · rename_i hNot
      exact ⟨fun hOk => absurd hOk hNot, fun _ => quiet_drain, hOwns⟩
  · rename_i hNot
    exact ⟨fun hOk => absurd hOk hNot, fun _ => quiet_drain, trivial⟩

theorem leads_drainCopy (hApart : job.Apart) (hGood : w.Good job h) (hOk : w.status = .ok) {c : Bool}
    (copied : Nat) (hStage : w.stage = .drainCopy c) :
    Leads job h w (({ w with status := if w.copyFails job c copied then .invalidArgument
      else w.status }).release c).drain (w.copyOut job c copied) := by
  obtain ⟨hCore, hAt⟩ := hGood
  rw [hStage] at hAt
  obtain ⟨hLength, hAct, hReceived⟩ := hAt
  have hOwns : (w.copyOut job c copied).Within job w.Owns := by
    apply (copyOut_within hCore hAct).mono
    rintro r rfl
    exact owns_runIn hCore hAct (by omega)
  cases hFails : w.copyFails job c copied with
  | true => exact ⟨nofun, fun _ => quiet_drain, hOwns⟩
  | false =>
      have hCopied := core_copied hApart hCore hAct hReceived hFails
      exact ⟨fun _ => good_drain hCopied hLength, fun hNot => absurd hOk hNot, hOwns⟩

theorem Took.leads (hApart : job.Apart) (hGood : w.Good job h) (hOk : w.status = .ok) {w' : Worker}
    {e : Effect} (hTook : w.Took job w' e) : Leads job h w w' e := by
  cases hTook with
  | device k cipher tag w' hEnds =>
      refine ⟨fun _ => hGood.deviceEnds hEnds, fun hNot => ?_, trivial⟩
      rw [(deviceEnds_status hEnds).1] at hNot
      exact absurd hOk hNot
  | alloc plain first second hStage => exact leads_alloc hGood hOk hStage plain first second
  | wait i result decrypted plain hStage hReturns => exact leads_wait hApart hGood hStage hReturns
  | copyFails i copied hStage hFails =>
      obtain ⟨hCore, hAt⟩ := hGood
      rw [hStage] at hAt
      obtain ⟨hLength, hLt, hAct, -⟩ := hAt
      apply leads_fail (by decide)
      apply (copyOut_within hCore hAct).mono
      rintro r rfl
      exact owns_runIn hCore hAct (by omega)
  | copy i copied hStage hCopied => exact leads_copy hApart hGood hOk copied hStage hCopied
  | submitFails i begun hStage hBegun => exact leads_fail hBegun trivial
  | submit i t iv fresh keyVersion hStage hRun =>
      exact leads_submit hGood hOk hStage iv fresh keyVersion hRun
  | drainWait c result decrypted plain hStage hReturns =>
      exact leads_drainWait hApart hGood hOk hStage hReturns
  | drainCopy c copied hStage => exact leads_drainCopy hApart hGood hOk copied hStage

/-- Behind an error a worker hands nothing over any more. -/
theorem Took.quiet (hNot : w.status ≠ .ok) (hQuiet : w.Quiet) {w' : Worker} {e : Effect}
    (hTook : w.Took job w' e) : w'.status ≠ .ok ∧ w'.Quiet ∧ e = .none := by
  have hStages : ∀ {stage : Stage}, w.stage = stage → (∃ c, stage = .drainWait c) ∨ stage = .ended :=
    fun hStage => hStage ▸ hQuiet
  cases hTook with
  | device k cipher tag w' hEnds =>
      obtain ⟨hStatus, hStage⟩ := deviceEnds_status hEnds
      rw [Quiet, hStatus, hStage]
      exact ⟨hNot, hQuiet, rfl⟩
  | drainWait c result decrypted plain hStage hReturns =>
      rw [drainTurn]
      dsimp only
      rw [if_neg hNot, if_neg hNot]
      exact ⟨hNot, quiet_drain, rfl⟩
  | alloc plain first second hStage => simpa using hStages hStage
  | wait i result decrypted plain hStage hReturns => simpa using hStages hStage
  | copyFails i copied hStage hFails => simpa using hStages hStage
  | copy i copied hStage hCopied => simpa using hStages hStage
  | submitFails i begun hStage hBegun => simpa using hStages hStage
  | submit i t iv fresh keyVersion hStage hRun => simpa using hStages hStage
  | drainCopy c copied hStage => simpa using hStages hStage

/-- The slice of a worker stays the same. -/
theorem Took.slice {w' : Worker} {e : Effect} (hTook : w.Took job w' e) :
    w'.sliceStart = w.sliceStart ∧ w'.sliceCount = w.sliceCount := by
  have hIterate : ∀ (v : Worker) (i : Nat), (v.iterate i).sliceStart = v.sliceStart ∧
      (v.iterate i).sliceCount = v.sliceCount := by
    intro v i
    rw [iterate]
    split <;> exact ⟨rfl, rfl⟩
  cases hTook with
  | device k cipher tag w' hEnds =>
      rw [Worker.deviceEnds] at hEnds
      split at hEnds
      · split at hEnds
        · cases hEnds
          exact ⟨rfl, rfl⟩
        · cases hEnds
      · cases hEnds
  | alloc plain first second hStage =>
      rw [allocate]
      split
      · exact ⟨rfl, rfl⟩
      · split
        · exact ⟨rfl, rfl⟩
        · split
          · exact ⟨rfl, rfl⟩
          · exact hIterate w 0
  | wait i result decrypted plain hStage hReturns =>
      obtain ⟨plainBuf, status, e, hReceive, -⟩ := receive_eq job w (lane i) decrypted plain
      rw [waitTurn, hReceive]
      split
      · exact ⟨rfl, rfl⟩
      · dsimp only
        split <;> exact ⟨rfl, rfl⟩
  | copyFails i copied hStage hFails => exact ⟨rfl, rfl⟩
  | copy i copied hStage hCopied => exact ⟨rfl, rfl⟩
  | submitFails i begun hStage hBegun => exact ⟨rfl, rfl⟩
  | submit i t iv fresh keyVersion hStage hRun => exact hIterate _ _
  | drainWait c result decrypted plain hStage hReturns =>
      obtain ⟨plainBuf, status, e, hReceive, -⟩ := receive_eq job w c decrypted plain
      rw [drainTurn, hReceive]
      dsimp only
      split
      · split
        · split <;> exact ⟨rfl, rfl⟩
        · exact ⟨rfl, rfl⟩
      · exact ⟨rfl, rfl⟩
  | drainCopy c copied hStage => exact ⟨rfl, rfl⟩

theorem Good.pushes_le (hGood : w.Good job h) : w.pushes.length ≤ w.sliceCount := by
  obtain ⟨-, hAt⟩ := hGood
  cases hStage : w.stage with
  | start =>
      rw [hStage] at hAt
      rw [hAt.1]
      exact Nat.zero_le _
  | wait i => rw [hStage] at hAt; exact hAt.1 ▸ Nat.le_of_lt hAt.2.1
  | copy i => rw [hStage] at hAt; exact hAt.1 ▸ Nat.le_of_lt hAt.2.1
  | submit i => rw [hStage] at hAt; exact hAt.1 ▸ Nat.le_of_lt hAt.2.1
  | drainWait c => rw [hStage] at hAt; exact Nat.le_of_eq hAt.1
  | drainCopy c => rw [hStage] at hAt; exact Nat.le_of_eq hAt.1
  | ended => rw [hStage] at hAt; exact Nat.le_of_eq hAt.1

/-- Effects on the runs of other slices. -/
theorem Good.apply (hApart : job.Apart) (hGood : w.Good job h) {own : Nat → Prop} {e : Effect}
    (hWithin : e.Within job own) (hOther : ∀ r, w.Owns r → ¬own r) : w.Good job (e.apply h) := by
  have hLe := hGood.pushes_le
  obtain ⟨hCore, hAt⟩ := hGood
  have hReceived : ∀ c, (w.slots c).act = true → Received job h (w.slots c) w.pushes w.plainBuf →
      Received job (e.apply h) (w.slots c) w.pushes w.plainBuf := by
    intro c hAct hReceived
    apply hReceived.apply hWithin
    intro hMode
    rw [(hCore.loaded c hAct).2.1 hMode]
    exact hOther _ (owns_runIn hCore hAct hLe)
  refine ⟨hCore.apply hApart hWithin fun j hj hMine => ?_, ?_⟩
  · exact absurd hMine (hOther _ ⟨Nat.le_add_right _ _, by omega⟩)
  · cases hStage : w.stage with
    | copy i =>
        rw [hStage] at hAt
        exact ⟨hAt.1, hAt.2.1, hAt.2.2.1, hReceived _ hAt.2.2.1 hAt.2.2.2⟩
    | drainCopy c =>
        rw [hStage] at hAt
        exact ⟨hAt.1, hAt.2.1, hReceived _ hAt.2.1 hAt.2.2⟩
    | start => rw [hStage] at hAt; exact hAt
    | wait i => rw [hStage] at hAt; exact hAt
    | submit i => rw [hStage] at hAt; exact hAt
    | drainWait c => rw [hStage] at hAt; exact hAt
    | ended => rw [hStage] at hAt; exact hAt

end Turns

end Worker

end FlashCkpt.Driver
