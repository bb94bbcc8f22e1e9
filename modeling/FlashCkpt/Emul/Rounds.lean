import FlashCkpt.Emul.Machine
import FlashCkpt.Library.CriticalSection

/-! The rounds of both emulators over all interleavings. The test of `g_ckpt_phase` at the
end of `maybe_checkpoint` keeps other threads out of a round only while the phase is one
that no test takes. -/
namespace FlashCkpt.Emul

open Transition CriticalSection

variable {Flags : Type}

/-- In `do_stop_and_copy`, `do_phase1` or `do_phase34`. -/
def Place.inside : Place → Bool
  | .stop _ | .phase1 _ | .phase34 _ => true
  | .out | .trigger _ | .freeing _ _ | .handler _ => false

/-- Inside, where the phase lets other threads in: between the test that was passed and the
store of 1, behind the store of 0, behind `pthread_create`, and in `do_phase34` before it
stores 0. -/
def Place.exposed : Place → Bool
  | .stop .readId | .stop (.setInFlight _) | .stop (.setPhase _) => true
  | .stop (.clearRequested _) | .stop (.finish _) => true
  | .phase1 .create => false
  | .phase1 _ | .phase34 _ => true
  | _ => false

/-- The phases of PHOS in turn. -/
def alternating (n : Nat) : List Entered :=
  (List.range n).map fun i => if i % 2 = 0 then .phase1 else .phase34

/-- One round at a time, with its own id and counters. -/
structure OneRound (cfg : Settings) (s : Machine Flags) : Prop where
  one : ∀ t t', (s.place t).inside = true → (s.place t').inside = true → t = t'
  alternates : s.core.entered = alternating s.core.entered.length
  joinedOnce : s.core.joined.Nodup
  joins : ∀ b ∈ s.core.joined, b < s.core.created
  joinedAll : s.core.created ≤ s.core.joined.length + 1
  ids : s.core.used.Nodup
  counters : s.core.counters.Nodup
  limit : s.core.completed ≤ cfg.roundsMax

/-- The thread is at a test of the phase that it passes. -/
def Machine.Passes (s : Machine Flags) (t : Nat) : Prop :=
  s.place t = .trigger .phaseIdle ∧ s.core.phase = .idle ∨
    s.place t = .trigger .phaseDone ∧ s.core.phase = .done

/-- A thread passes its test only while no other thread is where the phase lets threads in. -/
def Alone (s : Machine Flags) : Label → Prop
  | .step t _ => s.Passes t → ∀ t', t' ≠ t → (s.place t').exposed = false
  | _ => True

/-- A round begins only while fewer than so many rounds have ended, if there is a limit. -/
def Limited (most : Option Nat) (s : Machine Flags) : Label → Prop
  | .step t _ => s.place t = .trigger .phaseIdle → s.core.phase = .idle →
      ∀ m, most = some m → s.core.roundId < m
  | _ => True

/-- How far the round is: whether it has begun, has read its id, has encrypted its pages and
has counted up, the phases of it that were entered, the flags, and the id in use. -/
structure Stage where
  begun : Nat
  read : Nat
  copied : Nat
  ended : Nat
  entered : Nat
  inFlight : Bool
  phase : CkptPhase
  rid : Option Nat

namespace Stage

def idle : Stage := ⟨0, 0, 0, 0, 0, false, .idle, none⟩

def begin (entered : Nat) : Stage := { idle with begun := 1, entered := entered }

def identified (entered rid : Nat) : Stage := { begin entered with read := 1, rid := some rid }

def flagged (entered rid : Nat) : Stage := { identified entered rid with inFlight := true }

def taken (entered : Nat) (phase : CkptPhase) : Stage :=
  { begin entered with read := 1, inFlight := true, phase := phase }

def counted (phase : CkptPhase) : Stage :=
  { idle with ended := 1, inFlight := true, phase := phase }

end Stage

def Stop.stage : Stop → Stage
  | .readId => .begin 0
  | .setInFlight rid => .identified 0 rid
  | .setPhase rid => .flagged 0 rid
  | .genKey rid | .snapshot rid | .clear rid _ | .copy rid _ =>
      { Stage.flagged 0 rid with phase := .running }
  | .sweep _ | .bump _ => { Stage.taken 0 .running with copied := 1 }
  | .clearPhase _ => .counted .running
  | .clearRequested _ | .finish _ => .counted .idle

def Phase1.stage : Phase1 → Stage
  | .readId => .begin 1
  | .setInFlight rid => .identified 1 rid
  | .genKey rid => .flagged 1 rid
  | .snapshot | .setPhase => .taken 1 .idle
  | .create | .leave => .taken 1 .running

def Phase34.stage : Phase34 → Stage
  | .join | .bump => .taken 2 .done
  | .clearPhase => .counted .done
  | .clearRequested | .finish => .counted .idle

def Kind.phases : Kind → Nat
  | .gcr => 0
  | .phos => 2

/-- The shared state at a stage. Under a limit on the rounds the counters do not wrap. -/
structure Reached (kind : Kind) (most : Option Nat) (stage : Stage) (c : Core Flags) : Prop where
  limit : ∀ m, most = some m → c.roundId + stage.begun ≤ m
  used : c.used = List.range (c.roundId + stage.read)
  counters : most ≠ none → c.counters.Nodup
  below : most ≠ none → ∀ p ∈ c.counters, p.2 < (c.roundId + stage.copied) * 2 ^ 32
  /-- PHOS does not count by rounds. -/
  uncounted : kind = .phos → c.counters = []
  completed : c.completed + stage.ended = c.roundId
  entered : c.entered = alternating (kind.phases * c.roundId + stage.entered)
  inFlight : c.inFlight = stage.inFlight
  snap : c.inFlight = false → c.snap = []
  phase : c.phase = stage.phase
  rid : ∀ rid, stage.rid = some rid → rid = c.roundId

/-- Every background thread was joined. -/
def Joined (c : Core Flags) : Prop :=
  c.joined = List.range c.created ∧ ∀ b, c.running b = false

/-- All but the last one were, which may still run. -/
def Pending (c : Core Flags) (live : Bool) : Prop :=
  ∃ n, c.joined = List.range n ∧ c.created = n + 1 ∧ c.bgThread = some n ∧
    ∀ b, c.running b = (live && b == n)

/-- Between the phases of PHOS. Without a thread the round never goes on. -/
def Midway (kind : Kind) (most : Option Nat) (c : Core Flags) : Prop :=
  Reached kind most (.taken 1 .running) c ∧ Joined c ∨
    ∃ live, Reached kind most (.taken 1 (if live then .running else .done)) c ∧ Pending c live

/-- What holds of the shared state while a thread is at a place and no other is inside. -/
def At (kind : Kind) (most : Option Nat) : Place → Core Flags → Prop
  | .stop p, c => kind = .gcr ∧ Reached kind most p.stage c ∧ Joined c
  | .phase1 .leave, c => kind = .phos ∧ Midway kind most c
  | .phase1 p, c => kind = .phos ∧ Reached kind most p.stage c ∧ Joined c
  | .phase34 .join, c => kind = .phos ∧ Reached kind most Phase34.join.stage c ∧ Pending c false
  | .phase34 p, c => kind = .phos ∧ Reached kind most p.stage c ∧ Joined c
  | .out, c | .trigger _, c | .freeing _ _, c | .handler _, c =>
      Reached kind most .idle c ∧ Joined c ∨ kind = .phos ∧ Midway kind most c

variable {kind : Kind} {most : Option Nat} {cfg : Settings} {c : Core Flags}

theorem alternating_succ (n : Nat) : alternating (n + 1) =
    alternating n ++ [if n % 2 = 0 then .phase1 else .phase34] := by
  rw [alternating, List.range_succ, List.map_append]
  rfl

theorem length_alternating (n : Nat) : (alternating n).length = n := by simp [alternating]

/-- The first counter of a round; the product does not wrap. -/
theorem ivBase_eq {rid : Nat} (h : rid < 2 ^ 31) : ivBase rid = rid * 2 ^ 32 := by
  rw [ivBase, Gcr.wrap]
  exact Nat.mod_eq_of_lt (by omega)

/-- The first counters of the round lie behind all others. -/
theorem Reached.encrypt {rid : Nat} {stage : Stage} (hKind : kind = .gcr)
    (hSmall : ∀ m, most = some m → m < 2 ^ 31)
    (h : Reached kind most stage c) (hBegun : stage.begun = 1) (hCopied : stage.copied = 0)
    (hRid : stage.rid = some rid) {pages : Nat} (hPages : pages < 2 ^ 32) :
    Reached kind most { stage with copied := 1, rid := none } (c.encrypt rid pages) := by
  have hNew : most ≠ none → ∀ p ∈ (List.range' (ivBase rid) pages).map fun iv => (c.keys, iv),
      c.roundId * 2 ^ 32 ≤ p.2 ∧ p.2 < (c.roundId + 1) * 2 ^ 32 := by
    intro hMost p hp
    obtain ⟨m, hMost⟩ := Option.ne_none_iff_exists'.mp hMost
    have hId := h.rid rid hRid
    have hLimit := h.limit m hMost
    have hBound := hSmall m hMost
    have hBase : ivBase rid = c.roundId * 2 ^ 32 := by
      rw [ivBase_eq (by omega), hId]
    obtain ⟨iv, hIv, rfl⟩ := List.mem_map.mp hp
    have hRange := List.mem_range'_1.mp hIv
    dsimp only
    omega
  have hOld : most ≠ none → ∀ p ∈ c.counters, p.2 < c.roundId * 2 ^ 32 := by
    intro hMost p hp
    have hBelow := h.below hMost p hp
    rwa [hCopied] at hBelow
  have hBehind : ∀ n, n < c.roundId * 2 ^ 32 → n < (c.roundId + 1) * 2 ^ 32 :=
    fun n hn => hn.trans_le (Nat.mul_le_mul_right _ (Nat.le_succ _))
  refine { h with counters := ?_, below := ?_, uncounted := ?_, rid := ?_ }
  · intro hMost
    refine List.Nodup.append (h.counters hMost) ?_ ?_
    · exact List.Nodup.map (fun _ _ hEq => (Prod.mk.inj hEq).2) (List.nodup_range' ..)
    · intro p hp hp'
      have hLow := (hNew hMost p hp').1
      have hHigh := hOld hMost p hp
      omega
  · intro hMost p hp
    rcases List.mem_append.mp hp with hp | hp
    · exact hBehind _ (hOld hMost p hp)
    · exact (hNew hMost p hp).2
  · rw [hKind]
    exact fun hPhos => Kind.noConfusion hPhos
  · intro _ h
    cases h

/-- The round reads its id. -/
theorem Reached.identify {entered : Nat} (h : Reached kind most (.begin entered) c) :
    Reached kind most (.identified entered c.roundId) { c with used := c.used ++ [c.roundId] } where
  limit := h.limit
  used := by
    dsimp only [Stage.identified]
    rw [h.used, List.range_succ]
    rfl
  counters := h.counters
  below := h.below
  uncounted := h.uncounted
  completed := h.completed
  entered := h.entered
  inFlight := h.inFlight
  snap := h.snap
  phase := h.phase
  rid := fun _ hRid => (Option.some.inj hRid).symm

theorem Reached.flag {entered rid : Nat} (h : Reached kind most (.identified entered rid) c) :
    Reached kind most (.flagged entered rid) { c with inFlight := true } :=
  { h with inFlight := rfl, snap := fun hFlag => Bool.noConfusion hFlag }

theorem Reached.genKey {stage : Stage} (h : Reached kind most stage c) (rid : Nat) :
    Reached kind most stage (c.genKey rid) := by
  rw [Core.genKey]
  split
  · exact { h with }
  · exact h

/-- The round id is counted up. -/
theorem Reached.bump {stage : Stage} (h : Reached kind most stage c) (hBegun : stage.begun = 1)
    (hRead : stage.read = 1) (hEnded : stage.ended = 0) (hFlag : stage.inFlight = true)
    (hEntered : stage.entered = kind.phases)
    (hCopied : stage.copied = 1 ∨ kind = .phos) :
    Reached kind most (.counted stage.phase) { c with roundId := c.roundId + 1 } where
  limit := hBegun ▸ h.limit
  used := hRead ▸ h.used
  counters := h.counters
  below := by
    intro hMost p hp
    rcases hCopied with hCopied | hPhos
    · have hBelow := h.below hMost p hp
      rwa [hCopied] at hBelow
    · rw [h.uncounted hPhos] at hp
      cases hp
  uncounted := h.uncounted
  completed := by
    have hCompleted := h.completed
    rw [hEnded] at hCompleted
    exact congrArg Nat.succ hCompleted
  entered := by
    have hAll := h.entered
    rw [hEntered, ← Nat.mul_succ] at hAll
    exact hAll
  inFlight := h.inFlight.trans hFlag
  snap := h.snap
  phase := h.phase
  rid := fun _ hRid => by cases hRid

/-- The flag is cleared at the end. -/
theorem Reached.finish (h : Reached kind most (.counted .idle) c) :
    Reached kind most .idle c.finish :=
  { h with
    completed := h.completed
    inFlight := rfl
    snap := fun _ => rfl
    rid := h.rid }

theorem Joined.genKey (h : Joined c) (rid : Nat) : Joined (c.genKey rid) := by
  rw [Core.genKey]
  split <;> exact h

theorem at_doStopAndCopy (lib : Lib Flags) (hSmall : ∀ m, most = some m → m < 2 ^ 31) {pages : Nat} (hPages : pages < 2 ^ 32) {p : Stop}
    (h : At kind most (.stop p) c) :
    At kind most (doStopAndCopy lib pages c p).2 (doStopAndCopy lib pages c p).1 := by
  obtain ⟨hKind, hReached, hJoined⟩ := h
  cases p with
  | readId => exact ⟨hKind, hReached.identify, hJoined⟩
  | setInFlight rid => exact ⟨hKind, hReached.flag, hJoined⟩
  | setPhase rid => exact ⟨hKind, { hReached with phase := rfl }, hJoined⟩
  | genKey rid => exact ⟨hKind, hReached.genKey rid, hJoined.genKey rid⟩
  | snapshot rid => exact ⟨hKind, hReached, hJoined⟩
  | clear rid ranges => exact ⟨hKind, { hReached with }, hJoined⟩
  | copy rid ranges => exact ⟨hKind, hReached.encrypt hKind hSmall rfl rfl rfl hPages, hJoined⟩
  | sweep ranges => exact ⟨hKind, { hReached with }, hJoined⟩
  | bump ranges =>
      exact ⟨hKind, hReached.bump rfl rfl rfl rfl (by rw [hKind]; rfl) (.inl rfl), hJoined⟩
  | clearPhase ranges => exact ⟨hKind, { hReached with phase := rfl }, hJoined⟩
  | clearRequested ranges => exact ⟨hKind, { hReached with }, hJoined⟩
  | finish ranges => exact .inl ⟨hReached.finish, hJoined⟩

theorem at_doPhase1 (lib : Lib Flags) (created : Bool) {p : Phase1} (h : At kind most (.phase1 p) c) :
    At kind most (doPhase1 lib created c p).2 (doPhase1 lib created c p).1 := by
  cases p with
  | readId =>
      obtain ⟨hKind, hReached, hJoined⟩ := h
      exact ⟨hKind, hReached.identify, hJoined⟩
  | setInFlight rid =>
      obtain ⟨hKind, hReached, hJoined⟩ := h
      exact ⟨hKind, hReached.flag, hJoined⟩
  | genKey rid =>
      obtain ⟨hKind, hReached, hJoined⟩ := h
      exact ⟨hKind, { hReached.genKey rid with rid := fun _ hRid => by cases hRid }, hJoined.genKey rid⟩
  | snapshot =>
      obtain ⟨hKind, hReached, hJoined⟩ := h
      refine ⟨hKind, { hReached with snap := ?_ }, hJoined⟩
      intro hClear
      cases hReached.inFlight.symm.trans hClear
  | setPhase =>
      obtain ⟨hKind, hReached, hJoined⟩ := h
      exact ⟨hKind, { hReached with phase := rfl }, hJoined⟩
  | create =>
      obtain ⟨hKind, hReached, hJoined, hRunning⟩ := h
      refine ⟨hKind, ?_⟩
      cases created with
      | false => exact .inl ⟨hReached, hJoined, hRunning⟩
      | true =>
          refine .inr ⟨true, { hReached with }, c.created, hJoined, rfl, rfl, ?_⟩
          intro b
          dsimp only [doPhase1]
          by_cases hSame : b = c.created
          · simp [hSame]
          · simp [hSame, hRunning b]
  | leave => exact .inr h

theorem at_doPhase34 {c' : Core Flags} {p : Phase34} {place : Place}
    (h : At kind most (.phase34 p) c) (hNext : doPhase34 c p = some (c', place)) :
    At kind most place c' := by
  cases p with
  | join =>
      obtain ⟨hKind, hReached, n, hJoined, hCreated, hThread, hRunning⟩ := h
      rw [doPhase34, hThread] at hNext
      simp only [hRunning n, Bool.false_and, Bool.false_eq_true, if_false] at hNext
      cases hNext
      refine ⟨hKind, { hReached with }, ?_, fun b => (hRunning b).trans (Bool.false_and _)⟩
      dsimp only
      rw [hJoined, hCreated, List.range_succ]
  | bump =>
      obtain ⟨hKind, hReached, hJoined⟩ := h
      cases hNext
      exact ⟨hKind, hReached.bump rfl rfl rfl rfl (by rw [hKind]; rfl) (.inr hKind), hJoined⟩
  | clearPhase =>
      obtain ⟨hKind, hReached, hJoined⟩ := h
      cases hNext
      exact ⟨hKind, { hReached with phase := rfl }, hJoined⟩
  | clearRequested =>
      obtain ⟨hKind, hReached, hJoined⟩ := h
      cases hNext
      exact ⟨hKind, { hReached with }, hJoined⟩
  | finish =>
      obtain ⟨hKind, hReached, hJoined⟩ := h
      cases hNext
      exact .inl ⟨hReached.finish, hJoined⟩

/-- The shared states agree in all that the rounds depend on. -/
structure Same (c c' : Core Flags) : Prop where
  roundId : c'.roundId = c.roundId
  inFlight : c'.inFlight = c.inFlight
  phase : c'.phase = c.phase
  snap : c'.snap = c.snap
  created : c'.created = c.created
  running : c'.running = c.running
  bgThread : c'.bgThread = c.bgThread
  joined : c'.joined = c.joined
  entered : c'.entered = c.entered
  used : c'.used = c.used
  counters : c'.counters = c.counters
  completed : c'.completed = c.completed

variable {c' : Core Flags}

theorem Same.refl (c : Core Flags) : Same c c :=
  ⟨rfl, rfl, rfl, rfl, rfl, rfl, rfl, rfl, rfl, rfl, rfl, rfl⟩

theorem Reached.same {stage : Stage} (h : Reached kind most stage c) (hSame : Same c c') :
    Reached kind most stage c' where
  limit := hSame.roundId ▸ h.limit
  used := by rw [hSame.used, hSame.roundId, h.used]
  counters := hSame.counters ▸ h.counters
  below := by
    rw [hSame.counters, hSame.roundId]
    exact h.below
  uncounted := hSame.counters ▸ h.uncounted
  completed := by rw [hSame.completed, hSame.roundId, h.completed]
  entered := by rw [hSame.entered, hSame.roundId, h.entered]
  inFlight := hSame.inFlight.trans h.inFlight
  snap := by
    rw [hSame.inFlight, hSame.snap]
    exact h.snap
  phase := hSame.phase.trans h.phase
  rid := hSame.roundId ▸ h.rid

theorem Joined.same (h : Joined c) (hSame : Same c c') : Joined c' := by
  rw [Joined, hSame.joined, hSame.created, hSame.running]
  exact h

theorem Pending.same {live : Bool} (h : Pending c live) (hSame : Same c c') : Pending c' live := by
  rw [Pending, hSame.joined, hSame.created, hSame.bgThread, hSame.running]
  exact h

theorem Midway.same (h : Midway kind most c) (hSame : Same c c') : Midway kind most c' := by
  rcases h with ⟨hReached, hJoined⟩ | ⟨live, hReached, hPending⟩
  · exact .inl ⟨hReached.same hSame, hJoined.same hSame⟩
  · exact .inr ⟨live, hReached.same hSame, hPending.same hSame⟩

theorem at_same {p : Place} (h : At kind most p c) (hSame : Same c c') : At kind most p c' := by
  cases p with
  | stop p => exact ⟨h.1, h.2.1.same hSame, h.2.2.same hSame⟩
  | phase1 p =>
      cases p with
      | leave => exact ⟨h.1, h.2.same hSame⟩
      | _ => exact ⟨h.1, h.2.1.same hSame, h.2.2.same hSame⟩
  | phase34 p =>
      cases p with
      | join => exact ⟨h.1, h.2.1.same hSame, h.2.2.same hSame⟩
      | _ => exact ⟨h.1, h.2.1.same hSame, h.2.2.same hSame⟩
  | _ =>
      rcases h with ⟨hReached, hJoined⟩ | ⟨hKind, hMidway⟩
      · exact .inl ⟨hReached.same hSame, hJoined.same hSame⟩
      · exact .inr ⟨hKind, hMidway.same hSame⟩

/-- Outside all places are alike. -/
theorem at_outside (p p' : Place) (c : Core Flags) (hp : p.inside = false)
    (hp' : p'.inside = false) (h : At kind most p c) : At kind most p' c := by
  have hOut : At kind most .out c := by
    cases p <;> first | exact h | cases hp
  cases p' <;> first | exact hOut | cases hp'

theorem Joined.not_running (h : Joined c) {b : Nat} (hRunning : c.running b = true) : False := by
  rw [h.2 b] at hRunning
  cases hRunning

/-- The background thread that ends is the last one. -/
theorem Midway.copied (h : Midway kind most c) {b : Nat} (hRunning : c.running b = true) :
    Midway kind most (c.copied b) := by
  rcases h with ⟨_, hJoined⟩ | ⟨live, hReached, n, hJoined, hCreated, hThread, hOnly⟩
  · exact (hJoined.not_running hRunning).elim
  · rw [hOnly b, Bool.and_eq_true, beq_iff_eq] at hRunning
    obtain ⟨rfl, rfl⟩ := hRunning
    refine .inr ⟨false, { hReached with phase := rfl }, b, hJoined, hCreated, hThread, ?_⟩
    intro b'
    dsimp only [Core.copied]
    by_cases hSame : b' = b
    · simp [hSame]
    · simp [hSame, hOnly b']

theorem at_copied {p : Place} (h : At kind most p c) {b : Nat} (hRunning : c.running b = true) :
    At kind most p (c.copied b) := by
  cases p with
  | stop p => exact (h.2.2.not_running hRunning).elim
  | phase1 p =>
      cases p with
      | leave => exact ⟨h.1, h.2.copied hRunning⟩
      | _ => exact (h.2.2.not_running hRunning).elim
  | phase34 p =>
      cases p with
      | join =>
          obtain ⟨_, _, _, _, _, _, hOnly⟩ := h
          rw [hOnly b] at hRunning
          cases hRunning
      | _ => exact (h.2.2.not_running hRunning).elim
  | _ =>
      rcases h with ⟨_, hJoined⟩ | ⟨hKind, hMidway⟩
      · exact (hJoined.not_running hRunning).elim
      · exact .inr ⟨hKind, hMidway.copied hRunning⟩

/-- What a step of `maybe_checkpoint` does: a request at most, or the first access of a
round or a phase. -/
theorem maybeCheckpoint_cases (kind : Kind) (cfg : Settings) (elapsed : Bool) (c : Core Flags)
    (p : Trigger) :
    (Same c (maybeCheckpoint kind cfg elapsed c p).1 ∧
        (maybeCheckpoint kind cfg elapsed c p).2.inside = false) ∨
      (p = .phaseIdle ∧ c.phase = .idle ∧ kind = .gcr ∧
        maybeCheckpoint kind cfg elapsed c p = (c, .stop .readId)) ∨
      (p = .phaseIdle ∧ c.phase = .idle ∧ kind = .phos ∧ maybeCheckpoint kind cfg elapsed c p =
        ({ c with entered := c.entered ++ [.phase1] }, .phase1 .readId)) ∨
      (p = .phaseDone ∧ c.phase = .done ∧ maybeCheckpoint kind cfg elapsed c p =
        ({ c with entered := c.entered ++ [.phase34] }, .phase34 .join)) := by
  cases p with
  | roundsDone =>
      refine .inl ⟨.refl c, ?_⟩
      dsimp only [maybeCheckpoint]
      split <;> rfl
  | firstSyncSet | requestZero | requestLater =>
      exact .inl ⟨⟨rfl, rfl, rfl, rfl, rfl, rfl, rfl, rfl, rfl, rfl, rfl, rfl⟩, rfl⟩
  | requested =>
      refine .inl ⟨.refl c, ?_⟩
      cases kind <;> dsimp only [maybeCheckpoint] <;> split <;> rfl
  | phaseIdle =>
      by_cases hIdle : c.phase = .idle
      · cases kind with
        | gcr => exact .inr (.inl ⟨rfl, hIdle, rfl, if_pos hIdle⟩)
        | phos => exact .inr (.inr (.inl ⟨rfl, hIdle, rfl, if_pos hIdle⟩))
      · refine .inl ?_
        cases kind <;> simp only [maybeCheckpoint, if_neg hIdle] <;> exact ⟨.refl c, rfl⟩
  | phaseDone =>
      by_cases hDone : c.phase = .done
      · exact .inr (.inr (.inr ⟨rfl, hDone, if_pos hDone⟩))
      · refine .inl ?_
        simp only [maybeCheckpoint, if_neg hDone]
        exact ⟨.refl c, rfl⟩
  | _ => exact .inl ⟨.refl c, rfl⟩

/-- With the phase 0 no round is under way. -/
theorem At.idle (h : At kind most .out c) (hIdle : c.phase = .idle) :
    Reached kind most .idle c ∧ Joined c := by
  rcases h with hIdle | ⟨_, ⟨hReached, _⟩ | ⟨live, hReached, _⟩⟩
  · exact hIdle
  · cases hReached.phase.symm.trans hIdle
  · cases live <;> cases hReached.phase.symm.trans hIdle

/-- With the phase 2 the background thread is over and not joined. -/
theorem At.done (h : At kind most .out c) (hDone : c.phase = .done) :
    kind = .phos ∧ Reached kind most (.taken 1 .done) c ∧ Pending c false := by
  rcases h with ⟨hReached, _⟩ | ⟨hKind, ⟨hReached, _⟩ | ⟨live, hReached, hPending⟩⟩
  · cases hReached.phase.symm.trans hDone
  · cases hReached.phase.symm.trans hDone
  · cases live with
    | true => cases hReached.phase.symm.trans hDone
    | false => exact ⟨hKind, hReached, hPending⟩

theorem Reached.begin (h : Reached kind most .idle c)
    (hLimit : ∀ m, most = some m → c.roundId < m) :
    Reached kind most (.begin 0) c :=
  { h with limit := hLimit }

theorem Reached.enter {stage : Stage} (h : Reached kind most stage c) (hKind : kind = .phos)
    {phase : Entered} (hPhase : phase = if stage.entered % 2 = 0 then .phase1 else .phase34) :
    Reached kind most { stage with entered := stage.entered + 1 }
      { c with entered := c.entered ++ [phase] } := by
  refine { h with entered := ?_ }
  have hParity : (kind.phases * c.roundId + stage.entered) % 2 = stage.entered % 2 := by
    rw [hKind]
    simp only [Kind.phases]
    omega
  dsimp only
  rw [h.entered, ← Nat.add_assoc, alternating_succ, hParity, hPhase]

/-- Where the phase keeps other threads out it is 1. -/
theorem At.running {p : Place} (h : At kind most p c) (hIn : p.inside = true)
    (hClosed : p.exposed = false) : c.phase = .running := by
  cases p with
  | stop p =>
      cases p <;> first | exact h.2.1.phase | cases hClosed
  | phase1 p =>
      cases p <;> first | exact h.2.1.phase | cases hClosed
  | phase34 p => cases hClosed
  | _ => cases hIn

theorem freeHook_cases {lib : Lib Flags} {r : Region} {p : Freeing} {place : Place}
    (h : freeHook lib c r p = some (c', place)) : Same c c' ∧ place.inside = false := by
  cases p with
  | waiting =>
      simp only [freeHook] at h
      split at h
      · cases h
      · cases h
        exact ⟨.refl c, rfl⟩
  | _ =>
      cases h
      exact ⟨⟨rfl, rfl, rfl, rfl, rfl, rfl, rfl, rfl, rfl, rfl, rfl, rfl⟩, rfl⟩

theorem handle_cases (kind : Kind) (cfg : Settings) (c : Core Flags) (p : Handler) :
    Same c (handle kind cfg c p).1 ∧ (handle kind cfg c p).2.inside = false := by
  cases p with
  | startTest =>
      cases kind with
      | gcr => exact ⟨⟨rfl, rfl, rfl, rfl, rfl, rfl, rfl, rfl, rfl, rfl, rfl, rfl⟩, rfl⟩
      | phos =>
          refine ⟨.refl c, ?_⟩
          dsimp only [handle]
          split <;> rfl
  | startSet | request =>
      exact ⟨⟨rfl, rfl, rfl, rfl, rfl, rfl, rfl, rfl, rfl, rfl, rfl, rfl⟩, rfl⟩
  | _ =>
      refine ⟨.refl c, ?_⟩
      dsimp only [handle]
      split <;> rfl

/-- The invariant of the machine. -/
def Machine.Held (kind : Kind) (most : Option Nat) (s : Machine Flags) : Prop :=
  CriticalSection.Held Place.inside (At kind most) s.place s.core

theorem Machine.held_init (kind : Kind) (most : Option Nat) :
    (Machine.init : Machine Flags).Held kind most where
  one := fun _ _ h => Bool.noConfusion h
  here := by
    refine fun _ _ => .inl ⟨?_, rfl, fun _ => rfl⟩
    exact {
      limit := fun _ _ => Nat.zero_le _
      used := rfl
      counters := fun _ => List.nodup_nil
      below := fun _ _ hp => absurd hp List.not_mem_nil
      uncounted := fun _ => rfl
      completed := rfl
      entered := by cases kind <;> rfl
      inFlight := rfl
      snap := fun _ => rfl
      phase := rfl
      rid := fun _ h => by cases h }

variable {lib : Lib Flags} {s s' : Machine Flags}

/-- A thread that the phase lets in finds no other one inside. -/
theorem Machine.Held.alone (h : s.Held kind most) {t : Nat}
    (hExposed : ∀ t', t' ≠ t → (s.place t').exposed = false) (hPhase : s.core.phase ≠ .running) :
    ∀ t', t' ≠ t → (s.place t').inside = false :=
  h.none_inside fun t' hNe hIn hAt => hPhase (hAt.running hIn (hExposed t' hNe))

/-- A thread steps to a place that is inside, or from one. -/
theorem Machine.Held.step_alone (h : s.Held kind most) {t : Nat} {c : Core Flags} {p : Place}
    (hOthers : ∀ t', t' ≠ t → (s.place t').inside = false)
    (hAt : At kind most (s.place t) s.core → At kind most p c) :
    Machine.Held kind most ⟨c, Function.update s.place t p⟩ :=
  CriticalSection.Held.step_alone at_outside hOthers (hAt (h.here t hOthers))

theorem Machine.Held.step_outside (h : s.Held kind most) {t : Nat} {c : Core Flags} {p : Place}
    (hFrom : (s.place t).inside = false) (hTo : p.inside = false) (hSame : Same s.core c) :
    Machine.Held kind most ⟨c, Function.update s.place t p⟩ :=
  CriticalSection.Held.step_outside h at_outside hFrom hTo fun _ hAt => at_same hAt hSame

/-- A thread that passes its last test of the phase is alone, and begins a round below the
limit or goes on with the one under way. -/
theorem Machine.Held.trigger (h : s.Held kind most) {t : Nat} {chance : Chance} {trigger : Trigger}
    (hPlace : s.place t = .trigger trigger) (hAlone : Alone s (.step t chance))
    (hLimited : Limited most s (.step t chance)) {p : Place}
    (hNext : maybeCheckpoint kind cfg chance.elapsed s.core trigger = (c, p)) :
    Machine.Held kind most ⟨c, Function.update s.place t p⟩ := by
  rcases maybeCheckpoint_cases kind cfg chance.elapsed s.core trigger with
    ⟨hSame, hOut⟩ | ⟨rfl, hIdle, hKind, hEnter⟩ | ⟨rfl, hIdle, hKind, hEnter⟩ |
    ⟨rfl, hDone, hEnter⟩
  · rw [hNext] at hSame hOut
    exact h.step_outside (by rw [hPlace]; rfl) hOut hSame
  · have hExposed := hAlone (.inl ⟨hPlace, hIdle⟩)
    have hLimit := hLimited hPlace hIdle
    cases hNext.symm.trans hEnter
    refine h.step_alone (h.alone hExposed (by simp [hIdle])) fun hAt => ?_
    rw [hPlace] at hAt
    obtain ⟨hReached, hJoined⟩ := At.idle hAt hIdle
    exact ⟨hKind, hReached.begin hLimit, hJoined⟩
  · have hExposed := hAlone (.inl ⟨hPlace, hIdle⟩)
    have hLimit := hLimited hPlace hIdle
    cases hNext.symm.trans hEnter
    refine h.step_alone (h.alone hExposed (by simp [hIdle])) fun hAt => ?_
    rw [hPlace] at hAt
    obtain ⟨hReached, hJoined⟩ := At.idle hAt hIdle
    exact ⟨hKind, (hReached.begin hLimit).enter hKind rfl, hJoined⟩
  · have hExposed := hAlone (.inr ⟨hPlace, hDone⟩)
    cases hNext.symm.trans hEnter
    refine h.step_alone (h.alone hExposed (by simp [hDone])) fun hAt => ?_
    rw [hPlace] at hAt
    obtain ⟨hKind, hReached, hPending⟩ := At.done hAt hDone
    exact ⟨hKind, hReached.enter hKind rfl, hPending⟩

theorem Machine.Held.advance (h : s.Held lib.kind most) (hSmall : ∀ m, most = some m → m < 2 ^ 31)
    {t : Nat} {chance : Chance} (hAlone : Alone s (.step t chance))
    (hLimited : Limited most s (.step t chance)) {p : Place}
    (hNext : advance lib cfg chance s.core (s.place t) = some (c, p)) :
    Machine.Held lib.kind most ⟨c, Function.update s.place t p⟩ := by
  cases hPlace : s.place t with
  | out =>
      rw [hPlace] at hNext
      cases hNext
  | trigger trigger =>
      rw [hPlace, Emul.advance, Option.some.injEq] at hNext
      exact h.trigger hPlace hAlone hLimited hNext
  | stop stop =>
      have hIn : (s.place t).inside = true := by rw [hPlace]; rfl
      refine h.step_alone (h.others hIn) fun hAt => ?_
      rw [hPlace] at hAt hNext
      simp only [Emul.advance] at hNext
      split at hNext
      · next hPages =>
          have hStep := at_doStopAndCopy lib hSmall hPages hAt
          rwa [Option.some.inj hNext] at hStep
      · cases hNext
  | phase1 phase1 =>
      have hIn : (s.place t).inside = true := by rw [hPlace]; rfl
      refine h.step_alone (h.others hIn) fun hAt => ?_
      rw [hPlace] at hAt hNext
      have hStep := at_doPhase1 lib chance.created hAt
      rwa [Option.some.inj hNext] at hStep
  | phase34 phase34 =>
      have hIn : (s.place t).inside = true := by rw [hPlace]; rfl
      refine h.step_alone (h.others hIn) fun hAt => ?_
      rw [hPlace] at hAt hNext
      exact at_doPhase34 hAt hNext
  | freeing freeing r =>
      rw [hPlace] at hNext
      obtain ⟨hSame, hOut⟩ := freeHook_cases hNext
      exact h.step_outside (by rw [hPlace]; rfl) hOut hSame
  | handler handler =>
      rw [hPlace, Emul.advance, Option.some.injEq] at hNext
      obtain ⟨hSame, hOut⟩ := handle_cases lib.kind cfg s.core handler
      rw [hNext] at hSame hOut
      exact h.step_outside (by rw [hPlace]; rfl) hOut hSame

/-- The step lemma. -/
theorem Machine.Held.next (h : s.Held lib.kind most) (hSmall : ∀ m, most = some m → m < 2 ^ 31)
    {label : Label} (hAlone : Alone s label) (hLimited : Limited most s label)
    (hNext : nextStep lib cfg s label = some s') : s'.Held lib.kind most := by
  cases effect_of_next hNext with
  | start t p hOut hStarts =>
      exact h.step_outside (by rw [hOut]; rfl) (by cases hStarts <;> rfl) (.refl _)
  | tracked x =>
      exact h.of_same fun p hAt =>
        at_same hAt ⟨rfl, rfl, rfl, rfl, rfl, rfl, rfl, rfl, rfl, rfl, rfl, rfl⟩
  | copied b hRunning => exact h.of_same fun p hAt => at_copied hAt hRunning
  | step t chance c p hStep => exact h.advance hSmall hAlone hLimited hStep

/-- At every place some stage is reached, and one background thread at most is not joined. -/
theorem At.facts {p : Place} (h : At kind most p c) :
    (∃ stage, Reached kind most stage c) ∧ (Joined c ∨ ∃ live, Pending c live) := by
  have hMidway : Midway kind most c →
      (∃ stage, Reached kind most stage c) ∧ (Joined c ∨ ∃ live, Pending c live) := by
    rintro (⟨hReached, hJoined⟩ | ⟨live, hReached, hPending⟩)
    · exact ⟨⟨_, hReached⟩, .inl hJoined⟩
    · exact ⟨⟨_, hReached⟩, .inr ⟨live, hPending⟩⟩
  cases p with
  | stop p => exact ⟨⟨_, h.2.1⟩, .inl h.2.2⟩
  | phase1 p =>
      cases p with
      | leave => exact hMidway h.2
      | _ => exact ⟨⟨_, h.2.1⟩, .inl h.2.2⟩
  | phase34 p =>
      cases p with
      | join => exact ⟨⟨_, h.2.1⟩, .inr ⟨false, h.2.2⟩⟩
      | _ => exact ⟨⟨_, h.2.1⟩, .inl h.2.2⟩
  | _ =>
      rcases h with ⟨hReached, hJoined⟩ | ⟨_, hMid⟩
      · exact ⟨⟨_, hReached⟩, .inl hJoined⟩
      · exact hMidway hMid

/-- Some thread is at a place that the shared state depends on. -/
theorem Machine.Held.somewhere (h : s.Held kind most) : ∃ t, At kind most (s.place t) s.core := by
  by_cases hIn : ∃ t, (s.place t).inside = true
  · obtain ⟨t, hIn⟩ := hIn
    exact ⟨t, h.at_inside hIn⟩
  · refine ⟨0, h.here 0 fun t' _ => ?_⟩
    rw [← Bool.not_eq_true]
    exact fun hIn' => hIn ⟨t', hIn'⟩

theorem Machine.Held.oneRound (h : s.Held kind (some cfg.roundsMax)) : OneRound cfg s := by
  obtain ⟨t, hAt⟩ := h.somewhere
  obtain ⟨⟨stage, hReached⟩, hThreads⟩ := hAt.facts
  obtain ⟨n, hJoined, hCreated, hLast⟩ : ∃ n, s.core.joined = List.range n ∧
      n ≤ s.core.created ∧ s.core.created ≤ n + 1 := by
    rcases hThreads with ⟨hJoined, _⟩ | ⟨live, n, hJoined, hCreated, _⟩
    · exact ⟨_, hJoined, Nat.le_refl _, Nat.le_succ _⟩
    · exact ⟨n, hJoined, by omega, by omega⟩
  refine ⟨h.one, ?_, ?_, ?_, ?_, ?_, hReached.counters (Option.some_ne_none _), ?_⟩
  · rw [hReached.entered, length_alternating]
  · rw [hJoined]
    exact List.nodup_range
  · intro b hb
    rw [hJoined, List.mem_range] at hb
    omega
  · rwa [hJoined, List.length_range]
  · rw [hReached.used]
    exact List.nodup_range
  · have hLimit := hReached.limit _ rfl
    have hCompleted := hReached.completed
    omega

theorem Settings.roundsMax_small (cfg : Settings) (m : Nat) (h : some cfg.roundsMax = some m) :
    m < 2 ^ 31 := Option.some.inj h ▸ cfg.small

/-- In every run in which threads enter alone and below the limit there is one round at a
time. -/
theorem oneRound_of_alone (lib : Lib Flags) (cfg : Settings) (labels : List Label)
    (hAlone : Along (nextStep lib cfg)
      (fun s label => Alone s label ∧ Limited (some cfg.roundsMax) s label) .init labels) :
    Along (nextStep lib cfg)
      (fun s label => ∀ s', nextStep lib cfg s label = some s' → OneRound cfg s') .init labels :=
  along_of_invariant
    (fun _ _ _ hOk (h : Machine.Held lib.kind (some cfg.roundsMax) _) hNext =>
      h.next cfg.roundsMax_small hOk.1 hOk.2 hNext)
    (fun _ _ _ hOk h _ _ hNext => (h.next cfg.roundsMax_small hOk.1 hOk.2 hNext).oneRound)
    labels .init (Machine.held_init lib.kind _) hAlone

theorem threeRounds_small : 3 < 2 ^ 31 := by decide

/-- Three rounds, each triggered by its delay, with an image of 16 MB. -/
def twoThreads : Settings := ⟨2, 3, threeRounds_small, some 0x1000000, false, true, true⟩

/-- The time for a round has come, threads can be created, and a round has one page. -/
def due : Chance := ⟨true, true, 1⟩

/-- A thread goes from its synchronise hook to the test of the phase and requests round 0,
or finds it requested. -/
def requests (t : Nat) : List Label := .sync t :: List.replicate 8 (.step t due)

def findsRequested (t : Nat) : List Label := .sync t :: List.replicate 6 (.step t due)

/-- Two threads pass the test of the phase before either of them stores 1. -/
def bothPass : List Label := requests 0 ++ findsRequested 1 ++ [.step 0 due, .step 1 due]

theorem not_oneRound_bothPass :
    (¬ ∀ labels, Along (nextStep Gcr.lib twoThreads) (fun s label => ∀ s',
        nextStep Gcr.lib twoThreads s label = some s' → OneRound twoThreads s') .init labels) ∧
      ¬ ∀ labels, Along (nextStep Phos.lib twoThreads) (fun s label => ∀ s',
        nextStep Phos.lib twoThreads s label = some s' → OneRound twoThreads s') .init labels := by
  constructor
  · intro h
    have hOne := ((h bothPass).last (List.cons_ne_nil _ _) rfl).one 0 1 rfl rfl
    cases hOne
  · intro h
    have hOne := ((h bothPass).last (List.cons_ne_nil _ _) rfl).one 0 1 rfl rfl
    cases hOne

theorem alone_of_place {t : Nat} {chance : Chance} (hIdle : s.place t ≠ .trigger .phaseIdle)
    (hDone : s.place t ≠ .trigger .phaseDone) : Alone s (.step t chance) := by
  rintro (⟨h, _⟩ | ⟨h, _⟩)
  · exact absurd h hIdle
  · exact absurd h hDone

theorem limited_of_place {t : Nat} {chance : Chance} (hIdle : s.place t ≠ .trigger .phaseIdle) :
    Limited most s (.step t chance) := fun h => absurd h hIdle

theorem oneRound_requests :
    Along (nextStep Phos.lib twoThreads) (fun s label => ∀ s',
      nextStep Phos.lib twoThreads s label = some s' → OneRound twoThreads s') .init
      (requests 0 ++ [.step 0 due]) := by
  refine oneRound_of_alone Phos.lib twoThreads _ (along_cons rfl ⟨trivial, trivial⟩ ?_)
  iterate 8
    refine along_cons rfl ⟨alone_of_place (by decide) (by decide), limited_of_place (by decide)⟩ ?_
  refine along_cons rfl ⟨fun _ t' hNe => ?_, fun _ _ m hm => ?_⟩ trivial
  · iterate 9 refine (congrArg Place.exposed (Function.update_of_ne hNe _ _)).trans ?_
    rfl
  · cases hm
    decide

end FlashCkpt.Emul
