import FlashCkpt.Agent.Classifier
import FlashCkpt.Core.Options
import FlashCkpt.Library.Transition

/-! The rounds of `ckpt_agent`. Each one runs `ckpt_core` on the same base, delta and
static image; what a round leaves on disk is, page by page, what the path of
`ckpt_core` it selects writes there. -/
namespace FlashCkpt.Agent

open Image Driver Restore Transition

inductive CkptMode where
  | p1d
  | p1e
  | v3
  | v3Static
  deriving DecidableEq, Repr

/-- `build_cmd`: the flags for `ckpt_core`, and whether it dumps the dirty addresses. -/
def buildCmd (mode : CkptMode) (isLearning isAdaptive : Bool) : Core.Options × Bool :=
  if isAdaptive then
    ({ stunCopy := true, useEncryptedIoctl := mode = .v3 || mode = .v3Static }, false)
  else
    (match mode with
      | .p1d => {}
      | .p1e => { precopyBaseline := true }
      | .v3 => { useEncryptedIoctl := true }
      | .v3Static => { useEncryptedIoctl := true, staticImg := true },
    isLearning)

section Images

variable {α : Type}

/-- The pages in the three files; there is no static image before the first capture. -/
structure Images (α : Type) where
  base : Nat → Option α
  delta : Nat → Option α
  static : Option (Nat → Option α)

/-- What a restore finds for a page: the static image, else the delta over the base. -/
def Images.restored (d : Images α) (useStatic : Bool) (p : Nat) : Option α :=
  match (if useStatic then d.static else none).bind fun img => img p with
  | some content => some content
  | none => (d.delta p).or (d.base p)

/-- The pages of a set, with their content. -/
def pick (set : Nat → Prop) [DecidablePred set] (content : Nat → α) (p : Nat) : Option α :=
  if set p then some (content p) else none

theorem pick_eq_some {set : Nat → Prop} [DecidablePred set] {content : Nat → α} {p : Nat} {c : α} :
    pick set content p = some c ↔ set p ∧ content p = c := by
  rw [pick]
  split <;> simp_all

end Images

/-- The allocation has bytes of the page. -/
def Touches (e : GateAlloc) (p : Nat) : Prop :=
  e.va < (p + 1) * pageSize ∧ p * pageSize < e.va + e.size

instance (e : GateAlloc) (p : Nat) : Decidable (Touches e p) := inferInstanceAs (Decidable (_ ∧ _))

/-- A range of an H2D allocation, set apart with `--static-img`. -/
def staticRange (f : Filter) (r : VaRange) : Bool :=
  f.staticImg && match f.allocs.find? fun a => a.va ≤ r.va && r.va + r.size ≤ a.va + a.size with
    | none => false
    | some a => a.h2d

def gateDirtyMax : Nat := 8187

/-- What a round meets: the allocation table as `ckpt_core` reads it, those of its entries
that are in use when the application copies the base image and at the boundary, the
managed ranges, the dirty blocks in the order of GET_DIRTY_PAGES, and the content of the
pages when they are copied into the static and the base image, and at the boundary. A
round that fails leaves some images and some dump. -/
structure Round (α : Type) where
  table : List GateAlloc
  userVa : Nat
  userSize : Nat
  recorded : List GateAlloc
  live : List GateAlloc
  ranges : List VaRange
  blocks : List VaRange
  baselineBytes : Nat
  emitted : Nat → α
  captured : Nat → α
  boundary : Nat → α
  failed : Option (Images α × Option (List Nat))

namespace Round

variable {α : Type} (r : Round α) (o : Core.Options)

def filter : Filter := ⟨r.table, r.userVa, r.userSize, o.staticImg⟩

def filt : List VaRange := r.ranges.filter (r.filter o).keeps

def staticFilt : List VaRange := r.ranges.filter (staticRange (r.filter o))

def Filtered (p : Nat) : Prop := ∃ v ∈ r.filt o, v.Has p

instance (p : Nat) : Decidable (r.Filtered o p) := inferInstanceAs (Decidable (∃ v ∈ _, _))

def InStatic (p : Nat) : Prop := ∃ v ∈ r.staticFilt o, v.Has p

instance (p : Nat) : Decidable (r.InStatic o p) := inferInstanceAs (Decidable (∃ v ∈ _, _))

def Recorded (p : Nat) : Prop := ∃ e ∈ r.recorded, Touches e p

instance (p : Nat) : Decidable (r.Recorded p) := inferInstanceAs (Decidable (∃ e ∈ _, _))

def Live (p : Nat) : Prop := ∃ e ∈ r.live, Touches e p

instance (p : Nat) : Decidable (r.Live p) := inferInstanceAs (Decidable (∃ e ∈ _, _))

/-- GET_DIRTY_PAGES with room for one address for each 64 KB, and one more. -/
def dirtyStarts (bytes : Nat) : List Nat :=
  (r.blocks.map VaRange.first).take
    (if 0 < bytes then bytes / (filterPages * pageSize) + 1 else 65536)

/-- The fused delta: the dirty pages of all managed ranges, from the first user range to
the last one. -/
def InFused (p : Nat) : Prop :=
  ((∃ v ∈ r.filt o, v.first ≤ p) ∧ ∃ v ∈ r.filt o, p < v.first + v.count) ∧
    (∃ v ∈ r.ranges, v.Has p) ∧ ∃ b ∈ r.blocks, b.Has p

instance (p : Nat) : Decidable (r.InFused o p) := inferInstanceAs (Decidable ((_ ∧ _) ∧ _ ∧ _))

def filtBytes : Nat := ((r.filt o).map VaRange.size).sum

/-- The legacy delta: 2 MB from each dirty address whose first 64 KB the filter keeps. -/
def legacyRanges : List (Nat × Nat) :=
  mergeStarts (((r.dirtyStarts (r.filtBytes o)).filter fun s =>
    (r.filter o).keeps ⟨s, filterPages, filterPages_pos⟩).mergeSort fun a b => a ≤ b)

def InDelta (p : Nat) : Prop :=
  if o.useEncryptedIoctl && !o.deltaLegacy then r.InFused o p else InRanges (r.legacyRanges o) p

instance (p : Nat) : Decidable (r.InDelta o p) := inferInstanceAs (Decidable (ite _ _ _))

/-- The delta of the precopy baseline: the 2 MB pages of the dirty addresses that lie in
one allocation, as far as the table in the gate has room for their runs. -/
def chunkRanges : List (Nat × Nat) :=
  (mergeStarts (((((r.dirtyStarts r.baselineBytes).map chunkOf).mergeSort
    fun a b => a ≤ b).dedup).filter fun c => r.table.any fun e =>
      e.va ≤ c * pageSize && (c + blockPages) * pageSize ≤ e.va + e.size)).take gateDirtyMax

/-- The static image after the round: it is captured once. -/
def staticAfter (static : Option (Nat → Option α)) : Option (Nat → Option α) :=
  if static.isNone ∧ r.staticFilt o ≠ [] then some (pick (r.InStatic o) r.emitted) else static

end Round

section Core

variable {α : Type}

/-- What `ckpt_core` leaves on disk when it exits with 0. -/
def core (o : Core.Options) (ranges : List (Nat × Nat)) (r : Round α) (d : Images α) : Images α :=
  match o.mode with
  | .strawman => ⟨pick r.Live r.boundary, fun _ => none, d.static⟩
  | .precopyBaseline =>
      ⟨pick r.Recorded r.captured, pick (InRanges r.chunkRanges) r.boundary, d.static⟩
  | .stunCopy => ⟨pick (InRanges ranges) r.boundary, fun _ => none, d.static⟩
  | .mainPath =>
      ⟨pick (r.Filtered o) r.captured, pick (r.InDelta o) r.boundary,
        r.staticAfter o d.static⟩

/-- The dirty addresses, dumped on the way of the legacy delta only. -/
def coreDump (o : Core.Options) (dumpDirty : Bool) (r : Round α) (dump : Option (List Nat)) :
    Option (List Nat) :=
  if dumpDirty ∧ o.mode = .mainPath ∧ ¬(o.useEncryptedIoctl && !o.deltaLegacy) ∧
      r.dirtyStarts (r.filtBytes o) ≠ [] then some (r.dirtyStarts (r.filtBytes o))
  else dump

end Core

/-- The command line of the agent, the entries the table had when it started, and whether
`CKPT_DELTA_LEGACY` is set. -/
structure Config where
  mode : CkptMode
  learnRounds : Nat
  nAllocs : Nat
  deltaLegacy : Bool

structure State (α : Type) where
  round : Nat
  classified : Bool
  classifier : Classifier
  dump : Option (List Nat)
  ranges : List (Nat × Nat)
  images : Images α

namespace State

variable {α : Type} (cfg : Config) (s : State α)

def isLearning : Bool :=
  0 < cfg.learnRounds && s.round + 1 ≤ cfg.learnRounds && !s.classified

def isAdaptive : Bool := s.classified && 0 < cfg.learnRounds

def options : Core.Options :=
  { (buildCmd cfg.mode (s.isLearning cfg) (s.isAdaptive cfg)).1 with
    deltaLegacy := cfg.deltaLegacy }

/-- One turn of the checkpoint loop. -/
def next (r : Round α) : State α :=
  let o := s.options cfg
  match r.failed with
  | some (images, dump) => { s with round := s.round + 1, dump := dump, images := images }
  | none =>
      let dump := coreDump o (buildCmd cfg.mode (s.isLearning cfg) (s.isAdaptive cfg)).2 r s.dump
      let after := { s with
        round := s.round + 1
        dump := dump
        images := core o s.ranges r s.images }
      if s.isLearning cfg then
        let pc := dump.elim s.classifier (classifierUpdate s.classifier)
        if cfg.learnRounds ≤ s.round + 1 then
          { after with
            classified := true
            classifier := pc
            ranges := classifierWriteRanges pc (r.table.take cfg.nAllocs) }
        else { after with classifier := pc }
      else after

end State

/-- The images determine the content, at the boundary, of every page of every live
allocation. -/
def Determined {α : Type} (cfg : Config) (images : Images α) (r : Round α) : Prop :=
  ∀ p, r.Live p → images.restored (cfg.mode = .v3Static) p = some (r.boundary p)

/-- After every round that succeeds. -/
def Restorable {α : Type} (cfg : Config) : State α → List (Round α) → Prop :=
  Along (fun s r => some (s.next cfg r)) fun s r =>
    r.failed = none → Determined cfg (s.next cfg r).images r

/-- The static image a restore looks at after the round. -/
def staticNow {α : Type} (cfg : Config) (s : State α) (r : Round α) : Option (Nat → Option α) :=
  if cfg.mode = .v3Static then
    if (s.options cfg).mode = .mainPath then r.staticAfter (s.options cfg) s.images.static
    else s.images.static
  else none

/-- Every page of a live allocation is as it was when the static image was captured, if it
is in there. Otherwise the path of the round has it: an adaptive round in the ranges file,
the others in the delta, or in the base image with the content it has at the boundary. -/
def Kept {α : Type} (cfg : Config) (s : State α) (r : Round α) : Prop :=
  ∀ p, r.Live p →
    match (staticNow cfg s r).bind fun img => img p with
    | some content => content = r.boundary p
    | none =>
        match (s.options cfg).mode with
        | .strawman => True
        | .precopyBaseline =>
            InRanges r.chunkRanges p ∨ r.Recorded p ∧ r.captured p = r.boundary p
        | .stunCopy => InRanges s.ranges p
        | .mainPath =>
            r.InDelta (s.options cfg) p ∨
              r.Filtered (s.options cfg) p ∧ r.captured p = r.boundary p

section Step

variable {α : Type} {cfg : Config} {s : State α} {r : Round α}

theorem next_images (h : r.failed = none) :
    (s.next cfg r).images = core (s.options cfg) s.ranges r s.images := by
  rw [State.next, h]
  dsimp only
  split
  · split
    · rfl
    · rfl
  · rfl

theorem or_pick {first second : Nat → Prop} [DecidablePred first] [DecidablePred second]
    (later earlier : Nat → α) (p : Nat) :
    (pick first later p).or (pick second earlier p) = some (later p) ↔
      first p ∨ second p ∧ earlier p = later p := by
  rw [pick]
  split
  · rename_i hFirst
    simp [hFirst]
  · rename_i hNot
    rw [Option.none_or, pick_eq_some, or_iff_right hNot]

/-- The images of a round that succeeds determine the pages exactly when it keeps them. -/
theorem determined_iff (h : r.failed = none) :
    Determined cfg (s.next cfg r).images r ↔ Kept cfg s r := by
  rw [next_images h]
  refine forall₂_congr fun p hLive => ?_
  have hStatic : (if decide (cfg.mode = .v3Static) = true then
      (core (s.options cfg) s.ranges r s.images).static else none) = staticNow cfg s r := by
    simp only [staticNow, core, decide_eq_true_eq]
    split
    · cases (s.options cfg).mode <;> rfl
    · rfl
  rw [Images.restored, hStatic]
  cases (staticNow cfg s r).bind fun img => img p with
  | some content => exact Option.some_inj
  | none =>
      dsimp only
      cases hMode : (s.options cfg).mode with
      | strawman =>
          simp only [core, hMode, Option.none_or, pick_eq_some, and_true]
          exact iff_of_true hLive trivial
      | precopyBaseline =>
          simp only [core, hMode]
          exact or_pick r.boundary r.captured p
      | stunCopy =>
          simp only [core, hMode, Option.none_or, pick_eq_some, and_true]
      | mainPath =>
          simp only [core, hMode]
          exact or_pick r.boundary r.captured p

/-- After the learning rounds the ranges file is what the classifier wrote at their end. -/
def Classified (cfg : Config) (s : State α) : Prop :=
  s.classified = true → ∃ table : List GateAlloc,
    s.ranges = classifierWriteRanges s.classifier (table.take cfg.nAllocs)

theorem Classified.next (h : Classified cfg s) : Classified cfg (s.next cfg r) := by
  rw [State.next]
  cases r.failed with
  | some failed => exact h
  | none =>
      dsimp only
      split
      · split
        · exact fun _ => ⟨r.table, rfl⟩
        · rename_i hLearning _
          intro hClassified
          have hNot : s.classified = true := hClassified
          rw [State.isLearning, hNot, Bool.not_true, Bool.and_false] at hLearning
          exact absurd hLearning Bool.false_ne_true
      · exact h

/-- An adaptive round copies the 2 MB pages that were dirty in a learning round, and those
of the allocations that were there without H2D flag at the end of the learning rounds. -/
theorem adaptive_ranges {start : State α} (hStart : start.classified = false)
    {rounds : List (Round α)}
    (h : execute (fun s r => some (s.next cfg r)) start rounds = some s)
    (hAdaptive : s.isAdaptive cfg = true) :
    ∃ table : List GateAlloc, ∀ p, InRanges s.ranges p ↔
      ∃ va ∈ dynamicVas s.classifier (table.take cfg.nAllocs), va ≤ p ∧ p < va + blockPages := by
  have hAlong : Along (fun (s : State α) r => some (s.next cfg r)) (fun _ _ => True) start rounds :=
    along_of_forall (fun _ _ => trivial) start
  have hInv : Classified cfg s := by
    refine invariant_along ?_ rounds start s ?_ hAlong h
    · intro s r t _ hs ht
      cases ht
      exact hs.next
    · exact fun hTrue => absurd (hStart.symm.trans hTrue) Bool.false_ne_true
  rw [State.isAdaptive, Bool.and_eq_true] at hAdaptive
  obtain ⟨table, hRanges⟩ := hInv hAdaptive.1
  refine ⟨table, fun p => ?_⟩
  rw [hRanges, inRanges_classifierWriteRanges]

end Step

/-- In every run of the agent, each round that succeeds leaves images that determine the
live pages exactly when each of them keeps its pages. -/
theorem restorable_iff {α : Type} (cfg : Config) (s : State α) (rounds : List (Round α)) :
    Restorable cfg s rounds ↔
      Along (fun s r => some (s.next cfg r)) (fun s r => r.failed = none → Kept cfg s r)
        s rounds :=
  along_congr (fun _ _ => forall_congr' determined_iff) s rounds

/-- 2 MB of weights and 2 MB of KV cache, both on the GPU, with nothing written. -/
def weightsAndCache : Round Unit where
  table := [⟨512 * pageSize, 512 * pageSize, true⟩, ⟨1024 * pageSize, 512 * pageSize, false⟩]
  userVa := 0
  userSize := 0
  recorded := [⟨512 * pageSize, 512 * pageSize, true⟩, ⟨1024 * pageSize, 512 * pageSize, false⟩]
  live := [⟨512 * pageSize, 512 * pageSize, true⟩, ⟨1024 * pageSize, 512 * pageSize, false⟩]
  ranges := [⟨512, 512, blockPages_pos⟩, ⟨1024, 512, blockPages_pos⟩]
  blocks := []
  baselineBytes := 0
  emitted := fun _ => ()
  captured := fun _ => ()
  boundary := fun _ => ()
  failed := none

def freshAgent : State Unit where
  round := 0
  classified := false
  classifier := []
  dump := none
  ranges := []
  images := ⟨fun _ => none, fun _ => none, none⟩

def learnOnce : Config := ⟨.v3, 1, 2, false⟩

theorem weightsAndCache_lost : ¬InRanges (freshAgent.next learnOnce weightsAndCache).ranges 512 := by
  have hRanges : (freshAgent.next learnOnce weightsAndCache).ranges =
      classifierWriteRanges [] weightsAndCache.table := rfl
  rw [hRanges, inRanges_classifierWriteRanges]
  rintro ⟨va, hMem, hLow, -⟩
  rw [mem_dynamicVas _ _ (by decide)] at hMem
  have hCache : va ∈ allocChunks ⟨1024 * pageSize, 512 * pageSize, false⟩ := by
    simpa [weightsAndCache] using hMem
  rw [show allocChunks ⟨1024 * pageSize, 512 * pageSize, false⟩ = [1024] by decide,
    List.mem_singleton] at hCache
  omega

/-- The adaptive round after one learning round drops the weights from the base image. -/
theorem not_restorable_weightsAndCache :
    ¬Restorable learnOnce freshAgent [weightsAndCache, weightsAndCache] := by
  intro h
  have hAdaptive := ((h _ rfl).2 _ rfl).1 rfl
  rw [determined_iff rfl] at hAdaptive
  have hPage : weightsAndCache.Live 512 := by decide
  exact weightsAndCache_lost (hAdaptive 512 hPage)

end FlashCkpt.Agent
