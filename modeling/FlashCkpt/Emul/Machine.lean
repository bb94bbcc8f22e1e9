import FlashCkpt.Emul.DirtyRanges
import FlashCkpt.Emul.PhosCounters
import Mathlib.Logic.Function.Basic

/-! The process under either emulator: application threads in the hooks, signal handlers
and the background thread of PHOS, which share plain flags. Each access to a shared flag
and each section under a lock is one step. -/
namespace FlashCkpt.Emul

open Transition RangeSet

inductive Kind where
  | gcr | phos
  deriving DecidableEq, Repr

/-- `g_ckpt_phase`: 0, 1 and 2. -/
inductive CkptPhase where
  | idle | running | done
  deriving DecidableEq, Repr

/-- What the hooks keep under their own locks: the table, and the dirty set of GCR. -/
structure Tracked (Flags : Type) where
  table : Table Flags
  dirty : Ranges Nat

/-- What the two libraries do each in its own way. -/
structure Lib (Flags : Type) where
  kind : Kind
  shim : Shim Flags
  retire : (inFlight : Bool) → Nat → Table Flags → Table Flags
  mark : Region → Tracked Flags → Tracked Flags
  list : Tracked Flags → List Region
  clear : Tracked Flags → Tracked Flags
  sweep : Table Flags → Table Flags

/-- A dirty range as a region. -/
def Region.ofRange (r : Range Nat) : Region := ⟨r.start, r.stop - r.start⟩

namespace Gcr

/-- A round lists the ranges of the dirty set. -/
def lib : Lib GcrFlags where
  kind := .gcr
  shim := gcr
  retire := retireAlloc
  mark r x := { x with dirty := x.dirty.insert r.va (r.va + r.size) }
  list x := (x.dirty.list.take maxRanges).map .ofRange
  clear x := { x with dirty := .empty }
  sweep := sweepPendingDrops

end Gcr

namespace Phos

def setDirty (dirty : Bool) (e : Alloc PhosFlags) : Alloc PhosFlags :=
  { e with flags := { e.flags with dirtyThisRound := dirty } }

/-- `mark_dirty_va`. -/
def markDirtyVa (addr : Nat) (t : Table PhosFlags) : Table PhosFlags :=
  t.updateAt (setDirty true) addr

/-- `snapshot_live_allocs` clears the flag of each entry that it lists. -/
def clearDirty (t : Table PhosFlags) : Table PhosFlags :=
  { t with allocs := t.allocs.map fun e => if e.alive then setDirty false e else e }

def lib : Lib PhosFlags where
  kind := .phos
  shim := phos
  retire _ := Table.retireAlloc
  mark r x := { x with table := markDirtyVa r.va x.table }
  list x := (snapshotLiveAllocs x.table.allocs).map fun snap => snap.toRegion
  clear x := { x with table := clearDirty x.table }
  sweep := id

end Phos

/-- The settings that the threads read. The number of rounds is a positive `int`. -/
structure Settings where
  threads : Nat
  roundsMax : Nat
  small : roundsMax < 2 ^ 31
  image : Option Nat
  waitSignal : Bool
  delay : Bool
  interval : Bool

/-- Before each access of `maybe_checkpoint`. -/
inductive Trigger where
  | roundsDone
  | firstSync | firstSyncSet
  | roundZero | requestedZero | startSignaled | requestZero
  | laterRound | requestedLater | phaseLater | requestLater
  | requested | phaseIdle | phaseDone
  deriving DecidableEq, Repr

/-- Before each access of `do_stop_and_copy`, with the round id and the ranges it holds. -/
inductive Stop where
  | readId
  | setInFlight (rid : Nat)
  | setPhase (rid : Nat)
  | genKey (rid : Nat)
  | snapshot (rid : Nat)
  | clear (rid : Nat) (ranges : List Region)
  | copy (rid : Nat) (ranges : List Region)
  | sweep (ranges : List Region)
  | bump (ranges : List Region)
  | clearPhase (ranges : List Region)
  | clearRequested (ranges : List Region)
  | finish (ranges : List Region)
  deriving DecidableEq, Repr

/-- Before each access of `do_phase1`, and behind the last one. -/
inductive Phase1 where
  | readId
  | setInFlight (rid : Nat)
  | genKey (rid : Nat)
  | snapshot | setPhase | create | leave
  deriving DecidableEq, Repr

/-- Before each access of `do_phase34`. -/
inductive Phase34 where
  | join | bump | clearPhase | clearRequested | finish
  deriving DecidableEq, Repr

/-- In the hook of a free: before the first test of `wait_until_ckpt_idle`, in its loop,
before the two sections of `retire_alloc`, and before the real call. -/
inductive Freeing where
  | test | waiting | retire | drop (deferred : Bool) | realFree
  deriving DecidableEq, Repr

/-- Before each access of the two signal handlers. -/
inductive Handler where
  | startTest | startSet
  | requested | phase | round | request
  deriving DecidableEq, Repr

/-- Where a thread is. A handler that interrupts a thread is a thread of its own. -/
inductive Place where
  | out
  | trigger (p : Trigger)
  | stop (p : Stop)
  | phase1 (p : Phase1)
  | phase34 (p : Phase34)
  | freeing (p : Freeing) (r : Region)
  | handler (p : Handler)
  deriving DecidableEq, Repr

inductive Entered where
  | phase1 | phase34
  deriving DecidableEq, Repr

/-- The shared state. `snap` is kept until the round ends, which is after `g_snap` is freed.
The last fields are the history: the phases of PHOS entered, the round ids used, the keys
made with the counters encrypted under each, and the rounds that have ended. -/
structure Core (Flags : Type) where
  roundId : Nat
  inFlight : Bool
  phase : CkptPhase
  requested : Bool
  firstSyncSeen : Bool
  startSignaled : Bool
  tracked : Tracked Flags
  snap : List Region
  created : Nat
  running : Nat → Bool
  bgThread : Option Nat
  joined : List Nat
  entered : List Entered
  used : List Nat
  keys : Nat
  counters : List (Nat × Nat)
  completed : Nat

structure Machine (Flags : Type) where
  core : Core Flags
  place : Nat → Place

/-- What a step meets: whether the time for the next round has come, whether
`pthread_create` succeeds, and the number of pages of the round. -/
structure Chance where
  elapsed : Bool
  created : Bool
  pages : Nat
  deriving DecidableEq, Repr

inductive Label where
  | sync (t : Nat)
  | free (t : Nat) (r : Region)
  | record (t : Nat) (r : Region)
  | mark (t : Nat) (r : Region)
  | signal (t : Nat) (start : Bool)
  | step (t : Nat) (chance : Chance)
  | copied (b : Nat)
  deriving DecidableEq, Repr

variable {Flags : Type}

def Core.init : Core Flags where
  roundId := 0
  inFlight := false
  phase := .idle
  requested := false
  firstSyncSeen := false
  startSignaled := false
  tracked := ⟨State.init.table, .empty⟩
  snap := []
  created := 0
  running _ := false
  bgThread := none
  joined := []
  entered := []
  used := []
  keys := 0
  counters := []
  completed := 0

def Machine.init : Machine Flags := ⟨.init, fun _ => .out⟩

/-- `maybe_checkpoint`. -/
def maybeCheckpoint (kind : Kind) (cfg : Settings) (elapsed : Bool) (c : Core Flags) :
    Trigger → Core Flags × Place
  | .roundsDone => (c, if cfg.roundsMax ≤ c.roundId then .out else .trigger .firstSync)
  | .firstSync => (c, .trigger (if c.firstSyncSeen then .roundZero else .firstSyncSet))
  | .firstSyncSet => ({ c with firstSyncSeen := true }, .trigger .roundZero)
  | .roundZero => (c, .trigger (if c.roundId = 0 then .requestedZero else .laterRound))
  | .requestedZero =>
      (c, .trigger (if c.requested then .laterRound
        else if cfg.waitSignal then .startSignaled
        else if cfg.delay && elapsed then .requestZero else .laterRound))
  | .startSignaled => (c, .trigger (if c.startSignaled then .requestZero else .laterRound))
  | .requestZero => ({ c with requested := true }, .trigger .laterRound)
  | .laterRound =>
      (c, .trigger (if 0 < c.roundId ∧ cfg.interval = true then .requestedLater else .requested))
  | .requestedLater => (c, .trigger (if c.requested then .requested else .phaseLater))
  | .phaseLater =>
      (c, .trigger (if c.phase = .idle ∧ elapsed = true then .requestLater else .requested))
  | .requestLater => ({ c with requested := true }, .trigger .requested)
  | .requested =>
      (c, if c.requested then .trigger .phaseIdle else
        match kind with
        | .gcr => .out
        | .phos => .trigger .phaseDone)
  | .phaseIdle =>
      match kind with
      | .gcr => if c.phase = .idle then (c, .stop .readId) else (c, .out)
      | .phos =>
          if c.phase = .idle then ({ c with entered := c.entered ++ [.phase1] }, .phase1 .readId)
          else (c, .trigger .phaseDone)
  | .phaseDone =>
      if c.phase = .done then ({ c with entered := c.entered ++ [.phase34] }, .phase34 .join)
      else (c, .out)

/-- `ckpt_crypto_gen_key` in round 0. -/
def Core.genKey (rid : Nat) (c : Core Flags) : Core Flags :=
  if rid = 0 then { c with keys := c.keys + 1 } else c

/-- `iv_base`. -/
def ivBase (rid : Nat) : Nat := Gcr.wrap (rid * 2 ^ 32)

/-- `copy_and_encrypt_ranges` counts the pages from the base of the round. -/
def Core.encrypt (rid pages : Nat) (c : Core Flags) : Core Flags :=
  { c with
    counters := c.counters ++ (List.range' (ivBase rid) pages).map fun iv => (c.keys, iv) }

/-- The round ends: threads that wait may go on. -/
def Core.finish (c : Core Flags) : Core Flags :=
  { c with inFlight := false, snap := [], completed := c.completed + 1 }

/-- `do_stop_and_copy`. -/
def doStopAndCopy (lib : Lib Flags) (pages : Nat) (c : Core Flags) : Stop → Core Flags × Place
  | .readId => ({ c with used := c.used ++ [c.roundId] }, .stop (.setInFlight c.roundId))
  | .setInFlight rid => ({ c with inFlight := true }, .stop (.setPhase rid))
  | .setPhase rid => ({ c with phase := .running }, .stop (.genKey rid))
  | .genKey rid => (c.genKey rid, .stop (.snapshot rid))
  | .snapshot rid => (c, .stop (.clear rid (lib.list c.tracked)))
  | .clear rid ranges => ({ c with tracked := lib.clear c.tracked }, .stop (.copy rid ranges))
  | .copy rid ranges => (c.encrypt rid pages, .stop (.sweep ranges))
  | .sweep ranges =>
      ({ c with tracked := { c.tracked with table := lib.sweep c.tracked.table } },
        .stop (.bump ranges))
  | .bump ranges => ({ c with roundId := c.roundId + 1 }, .stop (.clearPhase ranges))
  | .clearPhase ranges => ({ c with phase := .idle }, .stop (.clearRequested ranges))
  | .clearRequested ranges => ({ c with requested := false }, .stop (.finish ranges))
  | .finish _ => (c.finish, .out)

/-- `do_phase1`. The result of `pthread_create` is not looked at. -/
def doPhase1 (lib : Lib Flags) (created : Bool) (c : Core Flags) : Phase1 → Core Flags × Place
  | .readId => ({ c with used := c.used ++ [c.roundId] }, .phase1 (.setInFlight c.roundId))
  | .setInFlight rid => ({ c with inFlight := true }, .phase1 (.genKey rid))
  | .genKey rid => (c.genKey rid, .phase1 .snapshot)
  | .snapshot =>
      ({ c with snap := lib.list c.tracked, tracked := lib.clear c.tracked }, .phase1 .setPhase)
  | .setPhase => ({ c with phase := .running }, .phase1 .create)
  | .create =>
      (if created then
        { c with
          created := c.created + 1
          running := Function.update c.running c.created true
          bgThread := some c.created }
        else c, .phase1 .leave)
  | .leave => (c, .out)

/-- `do_phase34`. The join waits for the background thread. -/
def doPhase34 (c : Core Flags) : Phase34 → Option (Core Flags × Place)
  | .join =>
      match c.bgThread with
      | none => none
      | some b =>
          if c.running b then none
          else some ({ c with joined := c.joined ++ [b] }, .phase34 .bump)
  | .bump => some ({ c with roundId := c.roundId + 1 }, .phase34 .clearPhase)
  | .clearPhase => some ({ c with phase := .idle }, .phase34 .clearRequested)
  | .clearRequested => some ({ c with requested := false }, .phase34 .finish)
  | .finish => some (c.finish, .out)

/-- Behind `wait_until_ckpt_idle`: `retire_alloc` of GCR reads the flag once more. -/
def Kind.afterWait : Kind → Freeing
  | .gcr => .retire
  | .phos => .drop false

/-- The hooks of the frees. A thread that waits goes on when it finds the flag clear. -/
def freeHook (lib : Lib Flags) (c : Core Flags) (r : Region) : Freeing → Option (Core Flags × Place)
  | .test => some (c, .freeing (if c.inFlight then .waiting else lib.kind.afterWait) r)
  | .waiting => if c.inFlight then none else some (c, .freeing lib.kind.afterWait r)
  | .retire => some (c, .freeing (.drop c.inFlight) r)
  | .drop deferred =>
      some ({ c with tracked :=
          { c.tracked with table := lib.retire deferred r.va c.tracked.table } },
        .freeing .realFree r)
  | .realFree => some (c, .out)

/-- `sigusr1_start` and `sigusr2_trigger`. GCR exchanges the start flag in one access. -/
def handle (kind : Kind) (cfg : Settings) (c : Core Flags) : Handler → Core Flags × Place
  | .startTest =>
      match kind with
      | .gcr => ({ c with startSignaled := true }, .out)
      | .phos => (c, if c.startSignaled then .out else .handler .startSet)
  | .startSet => ({ c with startSignaled := true }, .out)
  | .requested => (c, if c.requested then .out else .handler .phase)
  | .phase => (c, if c.phase = .idle then .handler .round else .out)
  | .round => (c, if c.roundId < cfg.roundsMax then .handler .request else .out)
  | .request => ({ c with requested := true }, .out)

/-- The next access of a thread. A round of GCR has fewer than `2 ^ 32` pages. -/
def advance (lib : Lib Flags) (cfg : Settings) (chance : Chance) (c : Core Flags) :
    Place → Option (Core Flags × Place)
  | .out => none
  | .trigger p => some (maybeCheckpoint lib.kind cfg chance.elapsed c p)
  | .stop p => if chance.pages < 2 ^ 32 then some (doStopAndCopy lib chance.pages c p) else none
  | .phase1 p => some (doPhase1 lib chance.created c p)
  | .phase34 p => doPhase34 c p
  | .freeing p r => freeHook lib c r p
  | .handler p => some (handle lib.kind cfg c p)

/-- Phase 2 ends. -/
def Core.copied (b : Nat) (c : Core Flags) : Core Flags :=
  { c with running := Function.update c.running b false, phase := .done }

/-- A call by an application thread that is in no hook; the other numbers are handlers. -/
def nextStep (lib : Lib Flags) (cfg : Settings) (s : Machine Flags) :
    Label → Option (Machine Flags)
  | .sync t =>
      if t < cfg.threads ∧ s.place t = .out then
        some { s with place := Function.update s.place t (.trigger .roundsDone) }
      else none
  | .free t r =>
      if t < cfg.threads ∧ s.place t = .out then
        some { s with place := Function.update s.place t (.freeing .test r) }
      else none
  | .record t r =>
      if t < cfg.threads ∧ s.place t = .out then
        some { s with core.tracked.table :=
          (lib.shim.recordAlloc cfg.image r.va r.size s.core.tracked.table).2 }
      else none
  | .mark t r =>
      if t < cfg.threads ∧ s.place t = .out then
        some { s with core.tracked := lib.mark r s.core.tracked }
      else none
  | .signal t start =>
      if cfg.threads ≤ t ∧ s.place t = .out then
        some { s with place :=
          Function.update s.place t (.handler (if start then .startTest else .requested)) }
      else none
  | .step t chance => (advance lib cfg chance s.core (s.place t)).map fun (core, p) =>
      ⟨core, Function.update s.place t p⟩
  | .copied b => if s.core.running b then some { s with core := s.core.copied b } else none

/-- In no hook, or in that of a synchronise call. -/
def Place.syncs : Place → Bool
  | .out | .trigger _ | .stop _ | .phase1 _ | .phase34 _ => true
  | .freeing _ _ | .handler _ => false

variable {lib : Lib Flags} {cfg : Settings} {chance : Chance} {c c' : Core Flags} {p p' : Place}

theorem maybeCheckpoint_syncs (kind : Kind) (cfg : Settings) (elapsed : Bool) (c : Core Flags)
    (trigger : Trigger) : (maybeCheckpoint kind cfg elapsed c trigger).2.syncs = true := by
  cases trigger with
  | roundsDone | phaseDone =>
      dsimp only [maybeCheckpoint]
      split <;> rfl
  | requested | phaseIdle =>
      cases kind <;> dsimp only [maybeCheckpoint] <;> split <;> rfl
  | _ => rfl

theorem doPhase34_join (hNext : doPhase34 c .join = some (c', p')) :
    ∃ b, c.bgThread = some b ∧ c.running b = false ∧
      c' = { c with joined := c.joined ++ [b] } ∧ p' = .phase34 .bump := by
  simp only [doPhase34] at hNext
  split at hNext
  · cases hNext
  · rename_i b hThread
    split at hNext
    · cases hNext
    · rename_i hIdle
      cases hNext
      exact ⟨b, hThread, Bool.eq_false_iff.mpr hIdle, rfl, rfl⟩

theorem doPhase34_syncs {phase34 : Phase34} (hNext : doPhase34 c phase34 = some (c', p')) : p'.syncs = true := by
  cases phase34 with
  | join =>
      obtain ⟨b, -, -, -, rfl⟩ := doPhase34_join hNext
      rfl
  | _ =>
      cases hNext
      rfl

/-- A thread in a synchronise call stays in it or leaves it. -/
theorem advance_syncs (hPlace : p.syncs = true)
    (hNext : advance lib cfg chance c p = some (c', p')) : p'.syncs = true := by
  cases p with
  | out => cases hNext
  | trigger trigger =>
      have h := maybeCheckpoint_syncs lib.kind cfg chance.elapsed c trigger
      rwa [Option.some.inj hNext] at h
  | stop stop =>
      simp only [advance, Option.ite_none_right_eq_some, Option.some.injEq] at hNext
      have h : (doStopAndCopy lib chance.pages c stop).2.syncs = true := by cases stop <;> rfl
      rwa [hNext.2] at h
  | phase1 phase1 =>
      have h : (doPhase1 lib chance.created c phase1).2.syncs = true := by cases phase1 <;> rfl
      rwa [Option.some.inj hNext] at h
  | phase34 phase34 => exact doPhase34_syncs hNext
  | freeing | handler => cases hPlace

theorem handle_place (kind : Kind) (cfg : Settings) (c : Core Flags) (h : Handler) :
    (handle kind cfg c h).2 = .out ∨ ∃ h', (handle kind cfg c h).2 = .handler h' := by
  cases h with
  | startTest =>
      cases kind with
      | gcr => exact .inl rfl
      | phos =>
          dsimp only [handle]
          split
          · exact .inl rfl
          · exact .inr ⟨_, rfl⟩
  | startSet | request => exact .inl rfl
  | _ =>
      dsimp only [handle]
      split <;> first | exact .inl rfl | exact .inr ⟨_, rfl⟩

/-- Where a call or a signal begins. -/
inductive Starts (cfg : Settings) (t : Nat) : Place → Prop where
  | sync (app : t < cfg.threads) : Starts cfg t (.trigger .roundsDone)
  | free (app : t < cfg.threads) (r : Region) : Starts cfg t (.freeing .test r)
  | signal (other : cfg.threads ≤ t) (h : Handler) : Starts cfg t (.handler h)

/-- What a step does. -/
inductive Effect (lib : Lib Flags) (cfg : Settings) (s : Machine Flags) :
    Label → Machine Flags → Prop where
  | start {label : Label} (t : Nat) (p : Place) (out : s.place t = .out) (starts : Starts cfg t p) :
      Effect lib cfg s label { s with place := Function.update s.place t p }
  | tracked {label : Label} (x : Tracked Flags) :
      Effect lib cfg s label { s with core.tracked := x }
  | copied (b : Nat) (running : s.core.running b = true) :
      Effect lib cfg s (.copied b) { s with core := s.core.copied b }
  | step (t : Nat) (chance : Chance) (c : Core Flags) (p : Place)
      (next : advance lib cfg chance s.core (s.place t) = some (c, p)) :
      Effect lib cfg s (.step t chance) ⟨c, Function.update s.place t p⟩

theorem effect_of_next {lib : Lib Flags} {cfg : Settings} {s s' : Machine Flags} {label : Label}
    (h : nextStep lib cfg s label = some s') : Effect lib cfg s label s' := by
  cases label with
  | sync t =>
      simp only [nextStep, Option.ite_none_right_eq_some, Option.some.injEq] at h
      obtain ⟨⟨hApp, hOut⟩, rfl⟩ := h
      exact .start t _ hOut (.sync hApp)
  | free t r =>
      simp only [nextStep, Option.ite_none_right_eq_some, Option.some.injEq] at h
      obtain ⟨⟨hApp, hOut⟩, rfl⟩ := h
      exact .start t _ hOut (.free hApp r)
  | record t r | mark t r =>
      simp only [nextStep, Option.ite_none_right_eq_some, Option.some.injEq] at h
      obtain ⟨_, rfl⟩ := h
      exact .tracked _
  | signal t start =>
      simp only [nextStep, Option.ite_none_right_eq_some, Option.some.injEq] at h
      obtain ⟨⟨hOther, hOut⟩, rfl⟩ := h
      exact .start t _ hOut (.signal hOther _)
  | step t chance =>
      obtain ⟨⟨c, p⟩, hStep, rfl⟩ := Option.map_eq_some_iff.mp h
      exact .step t chance c p hStep
  | copied b =>
      simp only [nextStep, Option.ite_none_right_eq_some, Option.some.injEq] at h
      obtain ⟨hRunning, rfl⟩ := h
      exact .copied b hRunning

end FlashCkpt.Emul
