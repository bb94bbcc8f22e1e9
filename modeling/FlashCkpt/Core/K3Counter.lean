import FlashCkpt.Core.Options
import FlashCkpt.Crypto.Pages
import Mathlib.Data.List.Nodup
import Mathlib.Data.List.Range

/-! The `k3` key and IV counter of `ckpt_core`. The key is reloaded from
`ckpt_k3.key` in the output directory, the counter is a local variable of
`main` and starts at zero in every run. -/
namespace FlashCkpt.Core

open ByteImage (Bytes)
open Crypto

def chunk2MB : Nat := 2 * 1024 * 1024

/-- The buffers of one `range_capture_t`. -/
structure Capture where
  cpuBuf : Bytes
  gpuBuf : Bytes
  deriving DecidableEq, Repr

inductive BatchOutcome where
  | ok | mallocFails | cryptoFails
  deriving DecidableEq, Repr

structure Batch where
  caps : List Capture
  encryptThreads : Int
  online : Int
  outcome : BatchOutcome
  deriving DecidableEq, Repr

/-- `k3_iv_counter` and the pages handed out so far in this run. -/
structure Session where
  counter : Nat
  handed : List Handed
  deriving DecidableEq, Repr

/-- `total_pages` is a 32-bit number. -/
def totalPages (bytes chunk : Nat) : Nat := bytes / chunk % 2 ^ 32

/-- The common body of the two batch functions: the counter advances only when
every page was encrypted; the result says whether the call succeeded. -/
def encryptBatch (key plain : Bytes) (chunk : Nat) (b : Batch) (s : Session) : Session × Bool :=
  let pages := totalPages plain.length chunk
  if pages = 0 then (s, true)
  else
    match b.outcome with
    | .mallocFails => (s, false)
    | .cryptoFails =>
        ({ s with
            handed := s.handed ++
              encryptPages key plain pages chunk s.counter b.encryptThreads b.online }, false)
    | .ok =>
        ({ counter := s.counter + pages,
           handed := s.handed ++
             encryptPages key plain pages chunk s.counter b.encryptThreads b.online }, true)

/-- The two batch functions: all captured bytes in chunks of the given size, or
the CPU bytes in 4 KB pages. -/
inductive BatchKind where
  | captures (chunkSize : Nat)
  | cpuPages
  deriving DecidableEq, Repr

def BatchKind.chunk : BatchKind → Nat
  | .captures chunkSize => if chunkSize = 0 then cryptoPageSize else chunkSize
  | .cpuPages => cryptoPageSize

def BatchKind.gathered : BatchKind → List Capture → Bytes
  | .captures _, caps => (caps.map fun c => c.cpuBuf ++ c.gpuBuf).flatten
  | .cpuPages, caps => (caps.map fun c => c.cpuBuf).flatten

def encryptCapturesBatch (key : Bytes) (chunkSize : Nat) (b : Batch) (s : Session) :
    Session × Bool :=
  encryptBatch key (BatchKind.gathered (.captures chunkSize) b.caps)
    (BatchKind.chunk (.captures chunkSize)) b s

def encryptCpuPagesBatch (key : Bytes) (b : Batch) (s : Session) : Session × Bool :=
  encryptBatch key (BatchKind.gathered .cpuPages b.caps) (BatchKind.chunk .cpuPages) b s

def BatchKind.encrypt (key : Bytes) : BatchKind → Batch → Session → Session × Bool
  | .captures chunkSize => encryptCapturesBatch key chunkSize
  | .cpuPages => encryptCpuPagesBatch key

/-- What one run meets. A batch is `none` when an earlier step of the run fails,
so that the call is not reached. -/
structure RunInput where
  options : Options
  started : Bool
  generated : Option Bytes
  saved : Bool
  gateOpens : Bool
  dynamic : Option Batch
  staticRanges : Option Batch
  base : Option Batch
  delta : Option Batch
  deriving DecidableEq, Repr

/-- The `k3` calls of `main` in order. With `--encrypted` the main path leaves
GPU and CPU pages to the driver, except that the legacy delta path runs its
batch on an empty region list. -/
def k3Calls (r : RunInput) : List (BatchKind × Option Batch) :=
  let o := r.options
  match o.mode with
  | .strawman | .precopyBaseline => []
  | .stunCopy =>
      if o.encryptK3 then [(.captures cryptoPageSize, r.dynamic)]
      else if o.useEncryptedIoctl then [(.cpuPages, r.dynamic)]
      else []
  | .mainPath =>
      if o.useEncryptedIoctl then
        match r.delta with
        | some b =>
            if o.deltaLegacy && b.caps.isEmpty then
              [(if o.encryptK3 then .captures cryptoPageSize else .cpuPages, some b)]
            else []
        | none => []
      else
        (if o.staticImg then [(.captures chunk2MB, r.staticRanges)] else []) ++
        (if o.encryptK3 then
          [(.captures cryptoPageSize, r.base), (.captures cryptoPageSize, r.delta)] else [])

def runCalls (key : Bytes) : List (BatchKind × Option Batch) → Session → Session
  | [], s => s
  | (_, none) :: _, s => s
  | (kind, some b) :: rest, s =>
      match kind.encrypt key b s with
      | (s', true) => runCalls key rest s'
      | (s', false) => s'

/-- A key file which is long enough is reused. -/
def loadKey : Option Bytes → Option Bytes
  | none => none
  | some bytes => if keySize ≤ bytes.length then some (bytes.take keySize) else none

/-- The key of a run, and the key file it leaves. -/
def runKey (file : Option Bytes) (r : RunInput) : Option Bytes × Option Bytes :=
  if !(r.started && r.options.valid && r.options.needK3) then (none, file)
  else
    match loadKey file with
    | some key => (some key, file)
    | none =>
        match r.generated with
        | none => (none, file)
        | some key => (some key, if r.saved then some key else file)

/-- The pages one run hands to AES-GCM: its counter starts at zero. -/
def runPages (r : RunInput) (key : Bytes) : List Handed :=
  if r.gateOpens then (runCalls key (k3Calls r) ⟨0, []⟩).handed else []

/-- What happens in the output directory: runs, and changes of the key file by others. -/
inductive Event where
  | run (r : RunInput)
  | replaceKey (file : Option Bytes)
  deriving DecidableEq, Repr

/-- Everything encrypted under a `k3` key over the life of the directory. -/
def history : Option Bytes → List Event → List Handed
  | _, [] => []
  | _, .replaceKey file :: rest => history file rest
  | file, .run r :: rest =>
      ((runKey file r).1.map (runPages r)).getD [] ++ history (runKey file r).2 rest

/-- No key and IV serve two plaintexts, and no IV is handed out twice under a key. -/
structure NoncesUnique (pages : List Handed) : Prop where
  onePlaintext : ∀ a ∈ pages, ∀ b ∈ pages, a.key = b.key → a.iv = b.iv → a.plain = b.plain
  distinct : (pages.map fun p => (p.key, p.iv)).Nodup

/-- Some batch that the run reaches holds at least one chunk. -/
def encryptsChunk : List (BatchKind × Option Batch) → Bool
  | [] => false
  | (_, none) :: _ => false
  | (kind, some b) :: rest =>
      if totalPages (kind.gathered b.caps).length kind.chunk = 0 then encryptsChunk rest
      else b.outcome != .mallocFails

/-- The key each run was given and whether the run encrypts a chunk under it. -/
def k3Runs : Option Bytes → List Event → List (Bytes × Bool)
  | _, [] => []
  | _, .replaceKey file :: rest => k3Runs file rest
  | file, .run r :: rest =>
      ((runKey file r).1.map fun key => (key, r.gateOpens && encryptsChunk (k3Calls r))).toList ++
        k3Runs (runKey file r).2 rest

theorem BatchKind.encrypt_eq (key : Bytes) (kind : BatchKind) (b : Batch) (s : Session) :
    kind.encrypt key b s = encryptBatch key (kind.gathered b.caps) kind.chunk b s := by
  cases kind <;> rfl

/-- A batch takes the next counter values, one for each page it hands out, and
leaves the counter behind them when it succeeds. -/
theorem encryptBatch_pairs (key plain : Bytes) (chunk : Nat) (b : Batch) (s : Session) :
    ∃ n, n < 2 ^ 32 ∧
      (encryptBatch key plain chunk b s).1.handed.map (fun p => (p.key, p.iv)) =
        s.handed.map (fun p => (p.key, p.iv)) ++
          (List.range' s.counter n).map (fun c => (key, buildIv c)) ∧
      (totalPages plain.length chunk = 0 → n = 0 ∧ encryptBatch key plain chunk b s = (s, true)) ∧
      (totalPages plain.length chunk ≠ 0 → (0 < n ↔ b.outcome ≠ .mallocFails)) ∧
      ((encryptBatch key plain chunk b s).2 = true →
        (encryptBatch key plain chunk b s).1.counter = s.counter + n) := by
  have hLt : totalPages plain.length chunk < 2 ^ 32 := Nat.mod_lt _ (Nat.two_pow_pos 32)
  by_cases hZero : totalPages plain.length chunk = 0
  · exact ⟨0, Nat.two_pow_pos 32, by simp [encryptBatch, hZero]⟩
  · have hPairs := encryptPages_pairs key plain (totalPages plain.length chunk) chunk s.counter
      b.encryptThreads b.online
    cases hOutcome : b.outcome with
    | mallocFails =>
        refine ⟨0, Nat.two_pow_pos 32, ?_⟩
        simp [encryptBatch, hZero, hOutcome]
    | cryptoFails =>
        refine ⟨totalPages plain.length chunk, hLt, ?_⟩
        simp [encryptBatch, hZero, hOutcome, hPairs, Nat.pos_of_ne_zero]
    | ok =>
        refine ⟨totalPages plain.length chunk, hLt, ?_⟩
        simp [encryptBatch, hZero, hOutcome, hPairs, Nat.pos_of_ne_zero]

/-- The pages of a run carry its key and the counter values from the current
one on, without gaps, and there are some exactly when the run reaches a chunk. -/
theorem runCalls_pairs (key : Bytes) (calls : List (BatchKind × Option Batch)) (s : Session) :
    ∃ n, n ≤ calls.length * 2 ^ 32 ∧ (0 < n ↔ encryptsChunk calls = true) ∧
      (runCalls key calls s).handed.map (fun p => (p.key, p.iv)) =
        s.handed.map (fun p => (p.key, p.iv)) ++
          (List.range' s.counter n).map fun c => (key, buildIv c) := by
  induction calls generalizing s with
  | nil => exact ⟨0, Nat.zero_le _, by simp [runCalls, encryptsChunk]⟩
  | cons call rest ih =>
      obtain ⟨kind, batch⟩ := call
      cases batch with
      | none => exact ⟨0, Nat.zero_le _, by simp [runCalls, encryptsChunk]⟩
      | some b =>
          obtain ⟨n, hLt, hPairs, hNone, hSome, hCounter⟩ :=
            encryptBatch_pairs key (kind.gathered b.caps) kind.chunk b s
          have hMore : (rest.length + 1) * 2 ^ 32 = rest.length * 2 ^ 32 + 2 ^ 32 :=
            Nat.succ_mul _ _
          by_cases hZero : totalPages (kind.gathered b.caps).length kind.chunk = 0
          · obtain ⟨m, hLe, hPos, hRest⟩ := ih s
            refine ⟨m, ?_, ?_, ?_⟩
            · rw [List.length_cons, hMore]
              exact Nat.le_add_right_of_le hLe
            · simpa [encryptsChunk, hZero] using hPos
            · simpa [runCalls, BatchKind.encrypt_eq, (hNone hZero).2] using hRest
          · have hChunk : encryptsChunk ((kind, some b) :: rest) = true ↔
                b.outcome ≠ .mallocFails := by
              simp [encryptsChunk, hZero]
            rw [hChunk, ← hSome hZero, List.length_cons, hMore]
            cases hResult : encryptBatch key (kind.gathered b.caps) kind.chunk b s with
            | mk s' ok =>
                rw [hResult] at hPairs hCounter
                cases ok with
                | false =>
                    refine ⟨n, Nat.le_add_left_of_le hLt.le, Iff.rfl, ?_⟩
                    simpa [runCalls, BatchKind.encrypt_eq, hResult] using hPairs
                | true =>
                    obtain ⟨m, hLe, _, hRest⟩ := ih s'
                    have hAll : 0 < n := (hSome hZero).mpr (by
                      intro hMalloc
                      simp [encryptBatch, hZero, hMalloc] at hResult)
                    refine ⟨n + m, ?_, ?_, ?_⟩
                    · rw [Nat.add_comm n m]
                      exact Nat.add_le_add hLe hLt.le
                    · exact ⟨fun _ => hAll, fun _ => Nat.add_pos_left hAll m⟩
                    · simp only [runCalls, BatchKind.encrypt_eq, hResult]
                      rw [hRest, hPairs, hCounter rfl, List.append_assoc, ← List.map_append,
                        List.range'_append_1]

theorem k3Calls_length (r : RunInput) : (k3Calls r).length ≤ 3 := by
  unfold k3Calls
  dsimp only
  split
  · exact Nat.zero_le _
  · exact Nat.zero_le _
  · split
    · simp
    · split <;> simp
  · split
    · split
      · split <;> simp
      · exact Nat.zero_le _
    · split <;> split <;> simp

/-- The key and IV pairs of a run which hands out `n` pages under the key. -/
def nonceSpan (run : Bytes × Nat) : List (Bytes × Bytes) :=
  (List.range' 0 run.2).map fun c => (run.1, buildIv c)

theorem runPages_pairs (r : RunInput) (key : Bytes) :
    ∃ n, n ≤ 2 ^ 64 ∧ (0 < n ↔ (r.gateOpens && encryptsChunk (k3Calls r)) = true) ∧
      (runPages r key).map (fun p => (p.key, p.iv)) = nonceSpan (key, n) := by
  cases hGate : r.gateOpens with
  | false => exact ⟨0, Nat.zero_le _, by simp [runPages, hGate, nonceSpan]⟩
  | true =>
      obtain ⟨n, hLe, hPos, hPairs⟩ := runCalls_pairs key (k3Calls r) ⟨0, []⟩
      refine ⟨n, ?_, by simpa using hPos, by simpa [runPages, hGate, nonceSpan] using hPairs⟩
      calc n ≤ (k3Calls r).length * 2 ^ 32 := hLe
        _ ≤ 3 * 2 ^ 32 := Nat.mul_le_mul_right _ (k3Calls_length r)
        _ ≤ 2 ^ 64 := by decide

/-- The life of the directory is the concatenation of the spans of its runs. -/
theorem history_pairs (file : Option Bytes) (events : List Event) :
    ∃ spans : List (Bytes × Nat),
      spans.map (fun x => (x.1, decide (0 < x.2))) = k3Runs file events ∧
      (∀ x ∈ spans, x.2 ≤ 2 ^ 64) ∧
      (history file events).map (fun p => (p.key, p.iv)) = (spans.map nonceSpan).flatten := by
  induction events generalizing file with
  | nil => exact ⟨[], by simp [k3Runs, history]⟩
  | cons event rest ih =>
      cases event with
      | replaceKey file' => simpa [k3Runs, history] using ih file'
      | run r =>
          obtain ⟨spans, hRuns, hBound, hPairs⟩ := ih (runKey file r).2
          cases hKey : (runKey file r).1 with
          | none =>
              exact ⟨spans, by simpa [k3Runs, hKey] using hRuns, hBound,
                by simpa [history, hKey] using hPairs⟩
          | some key =>
              obtain ⟨n, hLe, hPos, hPages⟩ := runPages_pairs r key
              refine ⟨(key, n) :: spans, ?_, ?_, ?_⟩
              · rw [List.map_cons, hRuns]
                simp [k3Runs, hKey, hPos]
              · intro x hx
                rcases List.mem_cons.mp hx with rfl | hx
                · exact hLe
                · exact hBound x hx
              · simp [history, hKey, hPages, hPairs]

theorem nonceSpan_nodup {run : Bytes × Nat} (h : run.2 ≤ 2 ^ 64) : (nonceSpan run).Nodup := by
  refine (List.nodup_range' 1).map_on ?_
  intro a ha b hb hEq
  rw [List.mem_range'_1] at ha hb
  exact buildIv_injective (by omega) (by omega) (Prod.mk.inj hEq).2

/-- Two spans start at the same counter: they meet unless the keys differ or
one of them is empty. -/
theorem nonceSpan_disjoint_iff (a b : Bytes × Nat) :
    List.Disjoint (nonceSpan a) (nonceSpan b) ↔ (a.1 = b.1 → ¬ (0 < a.2 ∧ 0 < b.2)) := by
  constructor
  · rintro hDisjoint hKey ⟨ha, hb⟩
    refine hDisjoint (a := (a.1, buildIv 0)) ?_ ?_
    · exact List.mem_map.mpr ⟨0, by simpa [List.mem_range'_1] using ha, rfl⟩
    · exact List.mem_map.mpr ⟨0, by simpa [List.mem_range'_1] using hb, by rw [hKey]⟩
  · intro hKeys pair ha hb
    obtain ⟨c, hc, rfl⟩ := List.mem_map.mp ha
    obtain ⟨d, hd, hEq⟩ := List.mem_map.mp hb
    rw [List.mem_range'_1] at hc hd
    exact hKeys (Prod.mk.inj hEq).1.symm ⟨by omega, by omega⟩

theorem NoncesUnique.of_distinct {pages : List Handed}
    (h : (pages.map fun p => (p.key, p.iv)).Nodup) : NoncesUnique pages := by
  refine ⟨?_, h⟩
  intro a ha b hb hKey hIv
  have hSame : a = b := List.inj_on_of_nodup_map h ha hb (by rw [hKey, hIv])
  rw [hSame]

/-- The IVs of a directory's life are unique exactly when no two runs under one
key both encrypt a chunk: the key outlives the run, its counter does not. -/
theorem noncesUnique_iff (file : Option Bytes) (events : List Event) :
    NoncesUnique (history file events) ↔
      (k3Runs file events).Pairwise fun a b => a.1 = b.1 → ¬ (a.2 = true ∧ b.2 = true) := by
  obtain ⟨spans, hRuns, hBound, hPairs⟩ := history_pairs file events
  have hNodup : ((history file events).map fun p => (p.key, p.iv)).Nodup ↔
      spans.Pairwise fun a b => a.1 = b.1 → ¬ (0 < a.2 ∧ 0 < b.2) := by
    rw [hPairs, List.nodup_flatten, List.pairwise_map]
    simp only [nonceSpan_disjoint_iff]
    refine ⟨fun h => h.2, fun h => ⟨?_, h⟩⟩
    intro span hSpan
    obtain ⟨run, hRun, rfl⟩ := List.mem_map.mp hSpan
    exact nonceSpan_nodup (hBound run hRun)
  rw [← hRuns, List.pairwise_map]
  simp only [decide_eq_true_eq]
  exact ⟨fun h => hNodup.mp h.distinct, fun h => .of_distinct (hNodup.mpr h)⟩

/-- A stun-copy run with `--encrypt-k3` that captures one GPU page. -/
def stunRun (page : Bytes) : RunInput where
  options := { encryptK3 := true, stunCopy := true }
  started := true
  generated := none
  saved := false
  gateOpens := true
  dynamic := some ⟨[⟨[], page⟩], 0, 1, .ok⟩
  staticRanges := none
  base := none
  delta := none

/-- Two such runs in a directory whose key file exists. -/
def twoStunRuns : List Event :=
  [.run (stunRun (List.replicate 4096 0)), .run (stunRun (List.replicate 4096 1))]

theorem runPages_stunRun (key page : Bytes) (h : page.length = 4096) :
    runPages (stunRun page) key = [⟨0, key, buildIv 0, page⟩] := by
  have hPages : totalPages page.length 4096 = 1 := by
    rw [h]
    rfl
  have hTake : page.take 4096 = page := List.take_of_length_le h.le
  simp [runPages, stunRun, k3Calls, Options.mode, runCalls, BatchKind.encrypt,
    encryptCapturesBatch, encryptBatch, BatchKind.gathered, BatchKind.chunk, cryptoPageSize,
    hPages, hTake, encryptPages_eq]

/-- The second run encrypts another page under the key and IV of the first. -/
theorem not_noncesUnique_twoStunRuns :
    ¬ ∀ (file : Option Bytes) (events : List Event), NoncesUnique (history file events) := by
  intro h
  have hUnique := (h (some (List.replicate 32 7)) twoStunRuns).onePlaintext
  have hKey (page : Bytes) : runKey (some (List.replicate 32 7)) (stunRun page) =
      (some (List.replicate 32 7), some (List.replicate 32 7)) := rfl
  have hHistory : history (some (List.replicate 32 7)) twoStunRuns =
      [⟨0, List.replicate 32 7, buildIv 0, List.replicate 4096 0⟩,
       ⟨0, List.replicate 32 7, buildIv 0, List.replicate 4096 1⟩] := by
    simp only [twoStunRuns, history, hKey, Option.map_some, Option.getD_some]
    rw [runPages_stunRun _ _ List.length_replicate, runPages_stunRun _ _ List.length_replicate]
    rfl
  rw [hHistory] at hUnique
  have hSame := hUnique _ List.mem_cons_self _ (List.mem_cons_of_mem _ List.mem_cons_self) rfl rfl
  have hHead := congrArg List.head? hSame
  cases hHead

end FlashCkpt.Core
