import FlashCkpt.Library.Transition
import FlashCkpt.Image.Captured

/-! The capture of ioctl 115 beside a running application. Pass 1 classifies one
page at a time under the lock of its block, copies a CPU page at once and only
records where a GPU page lies; pass 2 copies from the recorded addresses when no
lock is held any more. Pages move, are populated and are written in between. -/
namespace FlashCkpt.Driver

open Transition Image Crypto

inductive Aperture where
  | vid
  | sys
  deriving DecidableEq, Repr

/-- `uvm_gpu_phys_address_t` of a page of the captured GPU. -/
structure Frame where
  aperture : Aperture
  address : Nat
  deriving DecidableEq, Repr

/-- The frame this many pages behind another one. -/
def Frame.behind (f : Frame) (k : Nat) : Frame := ⟨f.aperture, f.address + k * pageSize⟩

/-- Where a page lies. A page may be duplicated on CPU and GPU; one on another
GPU than the captured one is neither on the CPU nor on that GPU. -/
inductive Place (Content : Type) where
  | absent
  | cpu (content : Content)
  | gpu (frame : Frame)
  | both (content : Content) (frame : Frame)
  | other (content : Content)
  deriving DecidableEq, Repr

/-- Where a page is made resident. -/
inductive Dest where
  | cpu
  | gpu (frame : Frame)
  | both (frame : Frame)
  | other
  deriving DecidableEq, Repr

/-- Why it is. The service of a GPU fault on a tracked block records a write
fault, as it maps all pages of the block on that GPU for writing; the other
causes do not. -/
inductive Cause where
  | gpuFault
  | cpuFault
  | eviction
  | migrateCall
  deriving DecidableEq, Repr

def Cause.marks : Cause → Bool
  | .gpuFault => true
  | _ => false

section Places

variable {Content : Type}

def Place.frame : Place Content → Option Frame
  | .gpu f | .both _ f => some f
  | _ => none

def Place.present : Place Content → Bool
  | .absent => false
  | _ => true

def Place.isOther : Place Content → Bool
  | .other _ => true
  | _ => false

def Dest.frame : Dest → Option Frame
  | .gpu f | .both f => some f
  | _ => none

def Dest.place (content : Content) : Dest → Place Content
  | .cpu => .cpu content
  | .gpu f => .gpu f
  | .both f => .both content f
  | .other => .other content

/-- The content of a page; one that was never populated reads as zeros. -/
def Place.content (zero : Content) (frames : Frame → Content) : Place Content → Content
  | .absent => zero
  | .cpu c | .both c _ | .other c => c
  | .gpu f => frames f

/-- What pass 1 finds: the CPU copy, else the frame on the captured GPU. -/
inductive Found (Content : Type) where
  | cpu (content : Content)
  | gpu (frame : Frame)
  | nothing
  deriving DecidableEq, Repr

def Place.found : Place Content → Found Content
  | .cpu c | .both c _ => .cpu c
  | .gpu f => .gpu f
  | .absent | .other _ => .nothing

end Places

section Runs

variable {Page : Type}

/-- A run of the list `lm_mt_build_runs` makes: pages whose recorded frames follow
each other, transferred from the first one on. -/
structure Run (Page : Type) where
  first : Frame
  pages : List Page

/-- The inner loop, with the run so far and its last frame. -/
def growRun (run : Run Page) (last : Frame) : List (Page × Frame) → List (Run Page)
  | [] => [run]
  | (p, f) :: rest =>
      if f.address = last.address + pageSize ∧ f.aperture = run.first.aperture ∧
          run.pages.length * pageSize + pageSize ≤ dmaBufferSize then
        growRun ⟨run.first, run.pages ++ [p]⟩ f rest
      else run :: growRun ⟨f, [p]⟩ f rest

def buildRuns : List (Page × Frame) → List (Run Page)
  | [] => []
  | (p, f) :: rest => growRun ⟨f, [p]⟩ f rest

/-- The pages of a run with the frames they are copied from. -/
def Run.copies (run : Run Page) : List (Page × Frame) :=
  run.pages.zipIdx.map fun e => (e.1, run.first.behind e.2)

theorem Run.copies_snoc (first : Frame) (pages : List Page) (p : Page) :
    (Run.mk first (pages ++ [p])).copies =
      (Run.mk first pages).copies ++ [(p, first.behind pages.length)] := by
  simp [Run.copies, List.zipIdx_append]

theorem growRun_copies (run : Run Page) (last : Frame) (records : List (Page × Frame))
    (hPages : run.pages ≠ []) (hLast : last = run.first.behind (run.pages.length - 1)) :
    (growRun run last records).flatMap Run.copies = run.copies ++ records := by
  induction records generalizing run last with
  | nil => simp [growRun]
  | cons record rest ih =>
      obtain ⟨p, f⟩ := record
      have hCount : 0 < run.pages.length := List.length_pos_of_ne_nil hPages
      simp only [growRun]
      split
      · rename_i hNext
        have hFrame : f = run.first.behind run.pages.length := by
          obtain ⟨hAddress, hAperture, -⟩ := hNext
          obtain ⟨aperture, address⟩ := f
          subst hLast
          simp only [Frame.behind] at hAddress hAperture ⊢
          rw [hAddress, hAperture, Nat.add_assoc, ← Nat.succ_mul,
            show (run.pages.length - 1).succ = run.pages.length by omega]
        rw [ih ⟨run.first, run.pages ++ [p]⟩ f (by simp) (by simpa using hFrame),
          Run.copies_snoc, List.append_assoc, hFrame]
        rfl
      · rw [List.flatMap_cons, ih ⟨f, [p]⟩ f (by simp) (by simp [Frame.behind])]
        simp [Run.copies, Frame.behind]

/-- Every recorded page is copied from its own frame. -/
theorem buildRuns_copies (records : List (Page × Frame)) :
    (buildRuns records).flatMap Run.copies = records := by
  cases records with
  | nil => rfl
  | cons record rest =>
      obtain ⟨p, f⟩ := record
      rw [buildRuns, growRun_copies ⟨f, [p]⟩ f rest (by simp) (by simp [Frame.behind])]
      simp [Run.copies, Frame.behind]

end Runs

/-- How far the checkpoint is. -/
inductive Phase where
  | pass1
  | pass2
  | captured
  | quiesced
  deriving DecidableEq, Repr

/-- Memory and capture. `owner` is the reverse map of the memory manager, `todo`
what pass 1 has not classified, `pending` the recorded pages without a copy. -/
structure State (Page Block Content : Type) where
  place : Page → Place Content
  owner : Frame → Option Page
  frames : Frame → Content
  dirty : Block → Bool
  todo : List Page
  pending : List (Page × Frame)
  base : Page → Option Content
  phase : Phase

/-- A step of the application, of the driver under it, or of the checkpoint. -/
inductive Label (Page Content : Type) where
  | write (p : Page) (content : Content) (faults : Bool)
  | makeResident (p : Page) (dest : Dest) (cause : Cause)
  | reuse (f : Frame) (content : Content)
  | classify
  | buildRuns
  | copy (i : Nat)
  | finish
  | quiesce

section System

variable {Page Block Content : Type} [DecidableEq Page] [DecidableEq Block]
variable (blockOf : Page → Block) (zero : Content)

def State.content (s : State Page Block Content) (p : Page) : Content :=
  (s.place p).content zero s.frames

/-- The record of a write fault. -/
def State.mark (s : State Page Block Content) (b : Block) (marks : Bool) :
    State Page Block Content :=
  { s with dirty := fun b' => if b' = b then s.dirty b' || marks else s.dirty b' }

/-- The page moves to its new place, and a frame it leaves becomes free. -/
def State.settle (s : State Page Block Content) (p : Page) (dest : Dest) :
    State Page Block Content :=
  { s with
    place := fun q => if q = p then dest.place (s.content zero p) else s.place q
    owner := fun f => if dest.frame = some f then some p
      else if s.owner f = some p then none else s.owner f
    frames := fun f => if dest.frame = some f then s.content zero p else s.frames f }

/-- A write to a page that is populated; a duplicate on the CPU is dropped. -/
def State.store (s : State Page Block Content) (p : Page) (content : Content) :
    State Page Block Content :=
  match s.place p with
  | .gpu f | .both _ f =>
      { s with
        place := fun q => if q = p then .gpu f else s.place q
        frames := fun f' => if f' = f then content else s.frames f' }
  | .cpu _ => { s with place := fun q => if q = p then .cpu content else s.place q }
  | .other _ => { s with place := fun q => if q = p then .other content else s.place q }
  | .absent => s

/-- One page of pass 1. -/
def State.classifyNext (s : State Page Block Content) : Option (State Page Block Content) :=
  match s.todo with
  | [] => none
  | p :: rest =>
      some (match (s.place p).found with
        | .cpu c => { s with todo := rest, base := fun q => if q = p then some c else s.base q }
        | .gpu f => { s with todo := rest, pending := s.pending ++ [(p, f)] }
        | .nothing => { s with todo := rest })

/-- A frame may be handed to a page if it is free or the page has it already. -/
def State.canSettle (s : State Page Block Content) (p : Page) (dest : Dest) : Bool :=
  dest.frame.all fun f => s.owner f = none ∨ s.owner f = some p

def next (s : State Page Block Content) :
    Label Page Content → Option (State Page Block Content)
  | .write p content faults =>
      if s.phase ≠ .quiesced ∧ (s.place p).present then
        some ((s.store p content).mark (blockOf p) faults)
      else none
  | .makeResident p dest cause =>
      if s.phase ≠ .quiesced ∧ s.canSettle p dest then
        some ((s.settle zero p dest).mark (blockOf p) cause.marks)
      else none
  | .reuse f content =>
      if s.phase ≠ .quiesced ∧ s.owner f = none then
        some { s with frames := fun f' => if f' = f then content else s.frames f' }
      else none
  | .classify => if s.phase = .pass1 then s.classifyNext else none
  | .buildRuns =>
      if s.phase = .pass1 ∧ s.todo = [] then
        some { s with phase := .pass2, pending := (buildRuns s.pending).flatMap Run.copies }
      else none
  | .copy i =>
      if s.phase = .pass2 then
        s.pending[i]?.map fun e =>
          { s with
            pending := s.pending.eraseIdx i
            base := fun q => if q = e.1 then some (s.frames e.2) else s.base q }
      else none
  | .finish => if s.phase = .pass2 ∧ s.pending = [] then some { s with phase := .captured } else none
  | .quiesce => if s.phase = .captured then some { s with phase := .quiesced } else none

/-- What the dirty-only capture of the frozen memory holds of a page. -/
def State.delta (s : State Page Block Content) (p : Page) : Option Content :=
  if s.dirty (blockOf p) then
    match (s.place p).found with
    | .cpu c => some c
    | .gpu f => some (s.frames f)
    | .nothing => none
  else none

/-- The delta laid over the base image laid over zeros. -/
def State.restored (s : State Page Block Content) (p : Page) : Content :=
  (s.delta blockOf p).getD ((s.base p).getD zero)

/-- The memory at PREPARE_ALL and the span to capture: no page is classified, no
block is dirty, and frames belong to the pages that lie in them. -/
structure Start (Page Content : Type) where
  place : Page → Place Content
  owner : Frame → Option Page
  frames : Frame → Content
  span : List Page
  owned : ∀ p f, (place p).frame = some f → owner f = some p
  span_nodup : span.Nodup

variable (Block) in
def Start.state (x : Start Page Content) : State Page Block Content where
  place := x.place
  owner := x.owner
  frames := x.frames
  dirty := fun _ => false
  todo := x.span
  pending := []
  base := fun _ => none
  phase := .pass1

/-- Whenever the memory is frozen after the capture, base and delta together are
its content on the whole span. -/
def Consistent (x : Start Page Content) (labels : List (Label Page Content)) : Prop :=
  ∀ s, execute (next blockOf zero) (x.state Block) labels = some s → s.phase = .quiesced →
    ∀ p ∈ x.span, s.restored blockOf zero p = s.content zero p

/-- The frame is recorded for a page of a clean block that is not copied yet. -/
def State.Awaits (s : State Page Block Content) (q : Page) (f : Frame) : Prop :=
  (q, f) ∈ s.pending ∧ s.dirty (blockOf q) = false

/-- The condition on a step: a write without a fault goes to a block that is
marked already; no frame is handed to another page, or used for something else,
while it is awaited; and a page is not on another GPU when it is classified in a
clean block, or when the dirty-only capture looks for it. -/
def FramesKept (span : List Page) (s : State Page Block Content) : Label Page Content → Prop
  | .write p _ faults => faults = true ∨ s.dirty (blockOf p) = true
  | .makeResident p dest _ =>
      ∀ f, dest.frame = some f → ∀ q, s.Awaits blockOf q f → q = p
  | .reuse f _ => ∀ q, ¬s.Awaits blockOf q f
  | .classify => ∀ p rest, s.todo = p :: rest → s.dirty (blockOf p) = false →
      (s.place p).isOther = false
  | .quiesce => ∀ p ∈ span, s.dirty (blockOf p) = true → (s.place p).isOther = false
  | _ => True

/-- What holds of every page whose block is clean, whatever happens in the two
passes, with what this rests on. -/
structure Kept (span : List Page) (s : State Page Block Content) : Prop where
  owned : ∀ p f, (s.place p).frame = some f → s.owner f = some p
  empty : ∀ p, (s.place p).present = false → s.base p = none ∧ ∀ f, (p, f) ∉ s.pending
  fresh : ∀ p ∈ s.todo, s.base p = none
  nodup : s.todo.Nodup
  awaited : ∀ p f, s.Awaits blockOf p f →
    s.frames f = s.content zero p ∧ (s.owner f = none ∨ s.owner f = some p)
  taken : ∀ p ∈ span, p ∉ s.todo → s.dirty (blockOf p) = false →
    (∃ f, (p, f) ∈ s.pending) ∨ (s.base p).getD zero = s.content zero p
  classified : s.phase ≠ .pass1 → s.todo = []
  copied : s.phase = .captured ∨ s.phase = .quiesced → s.pending = []
  reachable : s.phase = .quiesced → ∀ p ∈ span, s.dirty (blockOf p) = true →
    (s.place p).isOther = false

omit [DecidableEq Page] [DecidableEq Block] in
theorem Start.kept (x : Start Page Content) :
    Kept blockOf zero x.span (x.state Block) where
  owned := x.owned
  empty := fun _ _ => ⟨rfl, fun _ h => by cases h⟩
  fresh := fun _ _ => rfl
  nodup := x.span_nodup
  awaited := fun _ _ h => by cases h.1
  taken := fun _ hp hNot => absurd hp hNot
  classified := fun h => absurd rfl h
  copied := fun h => by rcases h with h | h <;> cases h
  reachable := fun h => by cases h

variable {blockOf zero} {span : List Page} {s : State Page Block Content}

theorem Dest.place_frame (dest : Dest) (content : Content) :
    (dest.place content).frame = dest.frame := by
  cases dest <;> rfl

theorem Dest.place_present (dest : Dest) (content : Content) :
    (dest.place content).present = true := by
  cases dest <;> rfl

/-- A new place holds the content the page had. -/
theorem Dest.place_content (dest : Dest) (content : Content) {frames : Frame → Content}
    (h : ∀ f, dest.frame = some f → frames f = content) :
    (dest.place content).content zero frames = content := by
  cases dest with
  | gpu f => exact h f rfl
  | cpu => rfl
  | both f => rfl
  | other => rfl

/-- The content of a page depends on its own frame alone. -/
theorem Place.content_congr {place : Place Content} {frames frames' : Frame → Content}
    (h : ∀ f, place.frame = some f → frames' f = frames f) :
    place.content zero frames' = place.content zero frames := by
  cases place with
  | gpu f => exact h f rfl
  | absent => rfl
  | cpu c => rfl
  | both c f => rfl
  | other c => rfl

omit [DecidableEq Page] in
theorem mark_clean {b b' : Block} {marks : Bool} (h : (s.mark b marks).dirty b' = false) :
    s.dirty b' = false ∧ (b' = b → marks = false) := by
  simp only [State.mark] at h
  split at h
  · rename_i hSame
    rw [Bool.or_eq_false_iff] at h
    exact ⟨h.1, fun _ => h.2⟩
  · rename_i hOther
    exact ⟨h, fun hSame => absurd hSame hOther⟩

omit [DecidableEq Block] in
/-- Making a page resident changes no page's content. -/
theorem Kept.content_settle (h : Kept blockOf zero span s) {p : Page} {dest : Dest}
    (hFree : s.canSettle p dest = true) (q : Page) :
    (s.settle zero p dest).content zero q = s.content zero q := by
  simp only [State.content, State.settle]
  split
  · rename_i hSame
    subst hSame
    exact dest.place_content _ fun f hf => if_pos hf
  · rename_i hOther
    apply Place.content_congr
    intro f hf
    rw [if_neg]
    intro hDest
    have hOwner := h.owned q f hf
    simp only [State.canSettle, hDest, Option.all_some, hOwner, decide_eq_true_eq,
      reduceCtorEq, Option.some.injEq, false_or] at hFree
    exact hOther hFree

theorem Kept.makeResident (h : Kept blockOf zero span s) {p : Page} {dest : Dest} {marks : Bool}
    (hPhase : s.phase ≠ .quiesced) (hFree : s.canSettle p dest = true)
    (hOk : ∀ f, dest.frame = some f → ∀ q, s.Awaits blockOf q f → q = p) :
    Kept blockOf zero span ((s.settle zero p dest).mark (blockOf p) marks) where
  owned := by
    intro q f hf
    simp only [State.mark, State.settle] at hf ⊢
    split at hf
    · rename_i hSame
      rw [Dest.place_frame] at hf
      rw [if_pos hf, hSame]
    · rename_i hOther
      have hOwner := h.owned q f hf
      have hDest : dest.frame ≠ some f := by
        intro hDest
        simp only [State.canSettle, hDest, Option.all_some, hOwner, decide_eq_true_eq,
          reduceCtorEq, Option.some.injEq, false_or] at hFree
        exact hOther hFree
      rw [if_neg hDest, if_neg (by rw [hOwner]; simpa using hOther), hOwner]
  empty := by
    intro q hq
    simp only [State.mark, State.settle] at hq ⊢
    split at hq
    · rw [Dest.place_present] at hq
      cases hq
    · exact h.empty q hq
  fresh := h.fresh
  nodup := h.nodup
  awaited := by
    intro q f hAwaits
    obtain ⟨hMem, hClean⟩ := hAwaits
    have hBefore : s.Awaits blockOf q f := ⟨hMem, (mark_clean hClean).1⟩
    obtain ⟨hFrame, hOwner⟩ := h.awaited q f hBefore
    have hContent := h.content_settle hFree q
    simp only [State.content, State.mark] at hContent ⊢
    rw [hContent]
    simp only [State.settle]
    by_cases hDest : dest.frame = some f
    · have hSame := hOk f hDest q hBefore
      subst hSame
      rw [if_pos hDest, if_pos hDest]
      exact ⟨rfl, .inr rfl⟩
    · rw [if_neg hDest, if_neg hDest]
      refine ⟨hFrame, ?_⟩
      split
      · exact .inl rfl
      · exact hOwner
  taken := by
    intro q hq hTodo hClean
    have hContent := h.content_settle hFree q
    rcases h.taken q hq hTodo (mark_clean hClean).1 with hPending | hBase
    · exact .inl hPending
    · exact .inr (hBase.trans hContent.symm)
  classified := h.classified
  copied := h.copied
  reachable := fun hQuiesced => absurd hQuiesced hPhase

/-- What a write does: it changes the page, and the frame it lies in. -/
structure Stored (s t : State Page Block Content) (p : Page) : Prop where
  others : ∀ q, q ≠ p → t.place q = s.place q
  frame : (t.place p).frame = (s.place p).frame
  present : (t.place p).present = true
  frames : ∀ f, (s.place p).frame ≠ some f → t.frames f = s.frames f
  same : t.owner = s.owner ∧ t.dirty = s.dirty ∧ t.todo = s.todo ∧ t.pending = s.pending ∧
    t.base = s.base ∧ t.phase = s.phase

omit [DecidableEq Block] in
theorem stored_store {p : Page} (hPresent : (s.place p).present = true) (content : Content) :
    Stored s (s.store p content) p := by
  unfold State.store
  split
  · rename_i f hPlace
    refine ⟨fun q hq => if_neg hq, ?_, by simp [Place.present], ?_, ⟨rfl, rfl, rfl, rfl, rfl, rfl⟩⟩
    · simp [hPlace, Place.frame]
    · intro f' hf'
      rw [hPlace] at hf'
      exact if_neg fun hSame => hf' (congrArg some hSame.symm)
  · rename_i c f hPlace
    refine ⟨fun q hq => if_neg hq, ?_, by simp [Place.present], ?_, ⟨rfl, rfl, rfl, rfl, rfl, rfl⟩⟩
    · simp [hPlace, Place.frame]
    · intro f' hf'
      rw [hPlace] at hf'
      exact if_neg fun hSame => hf' (congrArg some hSame.symm)
  · rename_i c hPlace
    refine ⟨fun q hq => if_neg hq, ?_, by simp [Place.present], fun _ _ => rfl,
      ⟨rfl, rfl, rfl, rfl, rfl, rfl⟩⟩
    simp [hPlace, Place.frame]
  · rename_i c hPlace
    refine ⟨fun q hq => if_neg hq, ?_, by simp [Place.present], fun _ _ => rfl,
      ⟨rfl, rfl, rfl, rfl, rfl, rfl⟩⟩
    simp [hPlace, Place.frame]
  · rename_i hPlace
    rw [hPlace] at hPresent
    cases hPresent

omit [DecidableEq Page] [DecidableEq Block] in
/-- Another page keeps its content, as its frame is its own. -/
theorem Kept.content_stored (h : Kept blockOf zero span s) {t : State Page Block Content}
    {p : Page} (hStored : Stored s t p) {q : Page} (hOther : q ≠ p) :
    t.content zero q = s.content zero q := by
  rw [State.content, State.content, hStored.others q hOther]
  apply Place.content_congr
  intro f hf
  apply hStored.frames
  intro hOwn
  have hOwner := h.owned p f hOwn
  rw [h.owned q f hf, Option.some.injEq] at hOwner
  exact hOther hOwner

theorem Kept.write (h : Kept blockOf zero span s) {t : State Page Block Content} {p : Page}
    {faults : Bool} (hPhase : s.phase ≠ .quiesced) (hStored : Stored s t p)
    (hOk : faults = true ∨ s.dirty (blockOf p) = true) :
    Kept blockOf zero span (t.mark (blockOf p) faults) := by
  obtain ⟨hOwner, hDirty, hTodo, hPending, hBase, hPhaseEq⟩ := hStored.same
  -- a clean page is not the one that was written
  have hClean : ∀ q, (t.mark (blockOf p) faults).dirty (blockOf q) = false →
      q ≠ p ∧ s.dirty (blockOf q) = false := by
    intro q hq
    obtain ⟨hBefore, hMarks⟩ := mark_clean hq
    rw [hDirty] at hBefore
    refine ⟨?_, hBefore⟩
    rintro rfl
    rcases hOk with hFaults | hMarked
    · rw [hMarks rfl] at hFaults
      cases hFaults
    · rw [hBefore] at hMarked
      cases hMarked
  refine ⟨?_, ?_, ?_, ?_, ?_, ?_, ?_, ?_, fun hQuiesced => ?_⟩
  · intro q f hf
    show t.owner f = some q
    rw [hOwner]
    by_cases hSame : q = p
    · subst hSame
      exact h.owned q f (hStored.frame ▸ hf)
    · exact h.owned q f (hStored.others q hSame ▸ hf)
  · intro q hq
    by_cases hSame : q = p
    · subst hSame
      rw [show ((t.mark (blockOf q) faults).place q).present = true from hStored.present] at hq
      cases hq
    · rw [show (t.mark (blockOf p) faults).place q = s.place q from hStored.others q hSame] at hq
      show t.base q = none ∧ ∀ f, (q, f) ∉ t.pending
      rw [hBase, hPending]
      exact h.empty q hq
  · intro q hq
    show t.base q = none
    rw [hBase]
    exact h.fresh q (hTodo ▸ hq)
  · show t.todo.Nodup
    rw [hTodo]
    exact h.nodup
  · intro q f hAwaits
    obtain ⟨hNe, hBefore⟩ := hClean q hAwaits.2
    obtain ⟨hFrame, hOwn⟩ := h.awaited q f ⟨hPending ▸ hAwaits.1, hBefore⟩
    show t.frames f = t.content zero q ∧ (t.owner f = none ∨ t.owner f = some q)
    rw [hOwner, h.content_stored hStored hNe, hStored.frames]
    · exact ⟨hFrame, hOwn⟩
    · intro hWritten
      rw [h.owned p f hWritten] at hOwn
      rcases hOwn with hOwn | hOwn
      · cases hOwn
      · exact hNe (Option.some.inj hOwn).symm
  · intro q hq hNot hAfter
    obtain ⟨hNe, hBefore⟩ := hClean q hAfter
    show (∃ f, (q, f) ∈ t.pending) ∨ (t.base q).getD zero = t.content zero q
    rw [hPending, hBase, h.content_stored hStored hNe]
    exact h.taken q hq (hTodo ▸ hNot) hBefore
  · intro hNot
    show t.todo = []
    rw [hTodo]
    exact h.classified (hPhaseEq ▸ hNot)
  · intro hDone
    show t.pending = []
    rw [hPending]
    exact h.copied (hPhaseEq ▸ hDone)
  · exact absurd (hPhaseEq ▸ hQuiesced) hPhase

omit [DecidableEq Page] [DecidableEq Block] in
theorem Kept.reuse (h : Kept blockOf zero span s) {f : Frame} {content : Content}
    (hPhase : s.phase ≠ .quiesced) (hFree : s.owner f = none)
    (hOk : ∀ q, ¬s.Awaits blockOf q f) :
    Kept blockOf zero span
      { s with frames := fun f' => if f' = f then content else s.frames f' } := by
  have hContent : ∀ q, (s.place q).content zero (fun f' => if f' = f then content else s.frames f') =
      s.content zero q := by
    intro q
    apply Place.content_congr
    intro f' hf'
    rw [if_neg]
    rintro rfl
    rw [h.owned q f' hf'] at hFree
    cases hFree
  refine ⟨h.owned, h.empty, h.fresh, h.nodup, ?_, ?_, h.classified, h.copied,
    fun hQuiesced => absurd hQuiesced hPhase⟩
  · intro q f' hAwaits
    obtain ⟨hFrame, hOwner⟩ := h.awaited q f' hAwaits
    refine ⟨?_, hOwner⟩
    show (if f' = f then content else s.frames f') = (s.place q).content zero _
    rw [hContent, if_neg, hFrame]
    rintro rfl
    exact hOk q hAwaits
  · intro q hq hNot hClean
    rcases h.taken q hq hNot hClean with hPending | hBase
    · exact .inl hPending
    · exact .inr (hBase.trans (hContent q).symm)

theorem Place.found_cpu {place : Place Content} {c : Content} (h : place.found = .cpu c)
    (zero : Content) (frames : Frame → Content) :
    place.present = true ∧ place.content zero frames = c := by
  cases place with
  | cpu c' => exact ⟨rfl, Found.cpu.inj h⟩
  | both c' f => exact ⟨rfl, Found.cpu.inj h⟩
  | absent => cases h
  | gpu f => cases h
  | other c' => cases h

theorem Place.found_gpu {place : Place Content} {f : Frame} (h : place.found = .gpu f) :
    place = .gpu f := by
  cases place with
  | gpu f' => exact congrArg Place.gpu (Found.gpu.inj h)
  | absent => cases h
  | cpu c => cases h
  | both c f' => cases h
  | other c => cases h

theorem Place.found_nothing {place : Place Content} (h : place.found = .nothing)
    (hHere : place.isOther = false) : place = .absent := by
  cases place with
  | absent => rfl
  | other c => cases hHere
  | cpu c => cases h
  | both c f => cases h
  | gpu f => cases h

omit [DecidableEq Block] in
/-- The page in front is classified: what is recorded of it is its content, and what is recorded of
the others stays. -/
theorem Kept.advance (h : Kept blockOf zero span s) (hPhase : s.phase = .pass1) {p : Page}
    {rest : List Page} (hTodo : s.todo = p :: rest) {base : Page → Option Content}
    {pending : List (Page × Frame)}
    (hEmpty : ∀ q, (s.place q).present = false → base q = none ∧ ∀ f, (q, f) ∉ pending)
    (hBase : ∀ q, q ≠ p → base q = s.base q) (hPending : ∀ e ∈ s.pending, e ∈ pending)
    (hAwaited : ∀ q f, (q, f) ∈ pending → s.dirty (blockOf q) = false →
      s.frames f = s.content zero q ∧ (s.owner f = none ∨ s.owner f = some q))
    (hTaken : p ∈ span → s.dirty (blockOf p) = false →
      (∃ f, (p, f) ∈ pending) ∨ (base p).getD zero = s.content zero p) :
    Kept blockOf zero span { s with todo := rest, base := base, pending := pending } := by
  obtain ⟨hNotRest, hRest⟩ := List.nodup_cons.mp (hTodo ▸ h.nodup)
  have hDone : ¬(s.phase = .captured ∨ s.phase = .quiesced) := by simp [hPhase]
  refine ⟨h.owned, hEmpty, ?_, hRest, fun q f hAwaits => hAwaited q f hAwaits.1 hAwaits.2, ?_,
    fun hNot => absurd hPhase hNot, fun hEnd => absurd hEnd hDone, fun hEnd => absurd (.inr hEnd) hDone⟩
  · intro q hq
    have hNe : q ≠ p := fun hSame => hNotRest (hSame ▸ hq)
    exact (hBase q hNe).trans (h.fresh q (hTodo ▸ List.mem_cons_of_mem p hq))
  · intro q hq hNot hClean
    by_cases hSame : q = p
    · subst hSame
      exact hTaken hq hClean
    · have hBefore : q ∉ s.todo := by
        rw [hTodo, List.mem_cons, not_or]
        exact ⟨hSame, hNot⟩
      rcases h.taken q hq hBefore hClean with ⟨f, hWaits⟩ | hContent
      · exact .inl ⟨f, hPending _ hWaits⟩
      · right
        show (base q).getD zero = s.content zero q
        rw [hBase q hSame]
        exact hContent

omit [DecidableEq Block] in
theorem Kept.classify (h : Kept blockOf zero span s) {t : State Page Block Content}
    (hPhase : s.phase = .pass1) (hNext : s.classifyNext = some t)
    (hOk : ∀ p rest, s.todo = p :: rest → s.dirty (blockOf p) = false →
      (s.place p).isOther = false) : Kept blockOf zero span t := by
  unfold State.classifyNext at hNext
  split at hNext
  · cases hNext
  rename_i p rest hTodo
  have hFresh : s.base p = none := h.fresh p (hTodo ▸ List.mem_cons_self)
  cases hFound : (s.place p).found with
  | cpu c =>
      obtain ⟨hPresent, hContent⟩ := Place.found_cpu hFound zero s.frames
      simp only [hFound, Option.some.injEq] at hNext
      subst hNext
      refine h.advance hPhase hTodo ?_ (fun q hNe => if_neg hNe) (fun _ hWaits => hWaits)
        (fun q f hWaits hClean => h.awaited q f ⟨hWaits, hClean⟩) fun _ _ => ?_
      · intro q hq
        have hNe : q ≠ p := by
          rintro rfl
          rw [hPresent] at hq
          cases hq
        exact ⟨(if_neg hNe).trans (h.empty q hq).1, (h.empty q hq).2⟩
      · right
        rw [if_pos rfl]
        exact hContent.symm
  | gpu f =>
      have hPlace := Place.found_gpu hFound
      simp only [hFound, Option.some.injEq] at hNext
      subst hNext
      refine h.advance hPhase hTodo ?_ (fun _ _ => rfl) (fun _ => List.mem_append_left _) ?_
        fun _ _ => .inl ⟨f, List.mem_append_right _ List.mem_cons_self⟩
      · intro q hq
        refine ⟨(h.empty q hq).1, ?_⟩
        intro f' hMem
        rcases List.mem_append.mp hMem with hOld | hNew
        · exact (h.empty q hq).2 f' hOld
        · rw [List.mem_singleton, Prod.mk.injEq] at hNew
          rw [hNew.1, hPlace] at hq
          cases hq
      · intro q f' hWaits hClean
        rcases List.mem_append.mp hWaits with hOld | hNew
        · exact h.awaited q f' ⟨hOld, hClean⟩
        · rw [List.mem_singleton, Prod.mk.injEq] at hNew
          obtain ⟨rfl, rfl⟩ := hNew
          refine ⟨?_, .inr (h.owned q f' (by rw [hPlace]; rfl))⟩
          rw [State.content, hPlace]
          rfl
  | nothing =>
      simp only [hFound, Option.some.injEq] at hNext
      subst hNext
      refine h.advance hPhase hTodo h.empty (fun _ _ => rfl) (fun _ hWaits => hWaits)
        (fun q f hWaits hClean => h.awaited q f ⟨hWaits, hClean⟩) fun _ hClean => ?_
      right
      have hPlace := Place.found_nothing hFound (hOk p rest hTodo hClean)
      rw [hFresh, State.content, hPlace]
      rfl

omit [DecidableEq Block] in
theorem Kept.copy (h : Kept blockOf zero span s) {p : Page} {f : Frame} {i : Nat}
    (hPhase : s.phase = .pass2) (hMem : s.pending[i]? = some (p, f)) :
    Kept blockOf zero span
      { s with
        pending := s.pending.eraseIdx i
        base := fun q => if q = p then some (s.frames f) else s.base q } := by
  have hPending : (p, f) ∈ s.pending := List.mem_of_getElem? hMem
  have hFewer : ∀ e ∈ s.pending.eraseIdx i, e ∈ s.pending := fun e he => List.mem_of_mem_eraseIdx he
  have hTodo : s.todo = [] := h.classified (by simp [hPhase])
  refine ⟨h.owned, ?_, ?_, h.nodup, ?_, ?_, h.classified, ?_, ?_⟩
  · intro q hq
    have hNe : q ≠ p := by
      rintro rfl
      exact (h.empty q hq).2 f hPending
    exact ⟨(if_neg hNe).trans (h.empty q hq).1, fun f' hf' => (h.empty q hq).2 f' (hFewer _ hf')⟩
  · intro q hq
    rw [show s.todo = [] from hTodo] at hq
    cases hq
  · intro q f' hAwaits
    exact h.awaited q f' ⟨hFewer _ hAwaits.1, hAwaits.2⟩
  · intro q hq hNot hClean
    by_cases hSame : q = p
    · subst hSame
      right
      show (if q = q then some (s.frames f) else s.base q).getD zero = s.content zero q
      rw [if_pos rfl]
      exact (h.awaited q f ⟨hPending, hClean⟩).1
    · rcases h.taken q hq hNot hClean with ⟨f', hWaits⟩ | hBase
      · refine .inl ⟨f', ?_⟩
        rw [List.mem_eraseIdx_iff_getElem?]
        obtain ⟨j, hj⟩ := List.getElem?_of_mem hWaits
        refine ⟨j, ?_, hj⟩
        rintro rfl
        rw [hMem, Option.some.injEq, Prod.mk.injEq] at hj
        exact hSame hj.1.symm
      · right
        show (if q = p then some (s.frames f) else s.base q).getD zero = s.content zero q
        rw [if_neg hSame]
        exact hBase
  · intro hEnd
    simp [hPhase] at hEnd
  · intro hEnd
    simp [hPhase] at hEnd

theorem Kept.next (h : Kept blockOf zero span s) {label : Label Page Content}
    {t : State Page Block Content} (hOk : FramesKept blockOf span s label)
    (hNext : next blockOf zero s label = some t) : Kept blockOf zero span t := by
  cases label with
  | write p content faults =>
      simp only [Driver.next, Option.ite_none_right_eq_some, Option.some.injEq] at hNext
      obtain ⟨⟨hPhase, hPresent⟩, rfl⟩ := hNext
      exact h.write hPhase (stored_store hPresent content) hOk
  | makeResident p dest cause =>
      simp only [Driver.next, Option.ite_none_right_eq_some, Option.some.injEq] at hNext
      obtain ⟨⟨hPhase, hFree⟩, rfl⟩ := hNext
      exact h.makeResident hPhase hFree hOk
  | reuse f content =>
      simp only [Driver.next, Option.ite_none_right_eq_some, Option.some.injEq] at hNext
      obtain ⟨⟨hPhase, hFree⟩, rfl⟩ := hNext
      exact h.reuse hPhase hFree hOk
  | classify =>
      simp only [Driver.next, Option.ite_none_right_eq_some] at hNext
      exact h.classify hNext.1 hNext.2 hOk
  | buildRuns =>
      simp only [Driver.next, Option.ite_none_right_eq_some, Option.some.injEq] at hNext
      obtain ⟨⟨hPhase, hTodo⟩, rfl⟩ := hNext
      rw [buildRuns_copies]
      exact ⟨h.owned, h.empty, h.fresh, h.nodup, h.awaited, h.taken, fun _ => hTodo,
        fun hEnd => by simp at hEnd, fun hEnd => by simp at hEnd⟩
  | copy i =>
      simp only [Driver.next, Option.ite_none_right_eq_some, Option.map_eq_some_iff] at hNext
      obtain ⟨hPhase, ⟨p, f⟩, hMem, rfl⟩ := hNext
      exact h.copy hPhase hMem
  | finish =>
      simp only [Driver.next, Option.ite_none_right_eq_some, Option.some.injEq] at hNext
      obtain ⟨⟨hPhase, hPending⟩, rfl⟩ := hNext
      exact ⟨h.owned, h.empty, h.fresh, h.nodup, h.awaited, h.taken,
        fun _ => h.classified (by simp [hPhase]), fun _ => hPending, fun hEnd => by cases hEnd⟩
  | quiesce =>
      simp only [Driver.next, Option.ite_none_right_eq_some, Option.some.injEq] at hNext
      obtain ⟨hPhase, rfl⟩ := hNext
      exact ⟨h.owned, h.empty, h.fresh, h.nodup, h.awaited, h.taken,
        fun _ => h.classified (by simp [hPhase]), fun _ => h.copied (.inl hPhase), fun _ => hOk⟩

omit [DecidableEq Page] [DecidableEq Block] in
/-- In a frozen memory the delta has the pages of the dirty blocks and the base
those of the clean ones. -/
theorem Kept.restored (h : Kept blockOf zero span s) (hPhase : s.phase = .quiesced) {p : Page}
    (hp : p ∈ span) : s.restored blockOf zero p = s.content zero p := by
  have hTodo : s.todo = [] := h.classified (by simp [hPhase])
  have hPending : s.pending = [] := h.copied (.inr hPhase)
  cases hDirty : s.dirty (blockOf p) with
  | false =>
      simp only [State.restored, State.delta, hDirty, Bool.false_eq_true, if_false,
        Option.getD_none]
      rcases h.taken p hp (by simp [hTodo]) hDirty with ⟨f, hMem⟩ | hBase
      · rw [hPending] at hMem
        cases hMem
      · exact hBase
  | true =>
      have hHere := h.reachable hPhase p hp hDirty
      simp only [State.restored, State.delta, hDirty, if_true]
      cases hFound : (s.place p).found with
      | cpu c => exact (Place.found_cpu hFound zero s.frames).2.symm
      | gpu f =>
          rw [State.content, Place.found_gpu hFound]
          rfl
      | nothing =>
          have hPlace := Place.found_nothing hFound hHere
          rw [(h.empty p (by rw [hPlace]; rfl)).1, State.content, hPlace]
          rfl

/-- In every run that keeps the awaited frames, base and delta are the memory at
the quiesce point. -/
theorem consistent_of_framesKept (x : Start Page Content) (labels : List (Label Page Content))
    (hOk : Along (next blockOf zero) (FramesKept blockOf x.span) (x.state Block) labels) :
    Consistent blockOf zero x labels := by
  intro s hRun hPhase p hp
  have hKept : Kept blockOf zero x.span s :=
    invariant_along (fun _ _ _ hStep hBefore hNext => hBefore.next hStep hNext) labels _ _
      (x.kept blockOf zero) hOk hRun
  exact hKept.restored hPhase hp

end System

def frameAt (address : Nat) : Frame := ⟨.vid, address⟩

/-- The first page of one block on the GPU, that of the next one on the CPU. -/
def twoBlocks : Start Nat Nat where
  place := fun p => if p = 0 then .gpu (frameAt 0) else if p = 512 then .cpu 9 else .absent
  owner := fun f => if f = frameAt 0 then some 0 else none
  frames := fun _ => 7
  span := [0, 512]
  owned := by
    intro p f hf
    split at hf
    · rename_i hFirst
      rw [hFirst, if_pos (Option.some.inj hf).symm]
    · split at hf <;> cases hf
  span_nodup := by decide

/-- The GPU page moves before it is copied, and its frame is given to the other
page only afterwards. -/
def movesAside : List (Label Nat Nat) :=
  [.classify, .classify, .buildRuns, .makeResident 0 (.gpu (frameAt 4096)) .migrateCall, .copy 0,
    .makeResident 512 (.gpu (frameAt 0)) .gpuFault, .write 512 3 false, .finish, .quiesce]

theorem consistent_movesAside :
    (∃ s, execute (next (· / 512) 0) (twoBlocks.state Nat) movesAside = some s ∧
      s.phase = .quiesced) ∧ Consistent (· / 512) 0 twoBlocks movesAside := by
  refine ⟨⟨_, rfl, rfl⟩, consistent_of_framesKept twoBlocks movesAside ?_⟩
  simp [movesAside, Along, next, FramesKept, State.Awaits, State.classifyNext, State.mark,
    State.settle, State.store, State.canSettle, twoBlocks, Start.state, frameAt, Place.found,
    Place.isOther, Place.present, Dest.frame, Dest.place, Cause.marks, buildRuns, growRun,
    Run.copies, Frame.behind]

/-- The GPU page is evicted before it is copied, and the other page is faulted into
its frame. -/
def frameReused : List (Label Nat Nat) :=
  [.classify, .classify, .buildRuns, .makeResident 0 .cpu .eviction,
    .makeResident 512 (.gpu (frameAt 0)) .gpuFault, .copy 0, .finish, .quiesce]

theorem not_consistent_frameReused : ¬Consistent (· / 512) 0 twoBlocks frameReused := by
  intro h
  exact absurd (h _ rfl rfl 0 (by decide)) (by decide)

end FlashCkpt.Driver
