import FlashCkpt.Static.AllocTable

/-! The static image beside the runs that rely on it. A run leaves H2D ranges out of base
and delta by the flags it reads, and writes the image only when it finds none. -/
namespace FlashCkpt.Static

open Restore Transition

variable {α : Type}

/-- The pages a static image holds. The magic is there. -/
abbrev StaticFile (α : Type) := Nat → Option α

/-- Where the image on disk comes from: a run wrote it for the ranges it left out, with
the content of their pages then; or it is some other file, found at the start or left by
an emission that failed. -/
inductive Origin (α : Type) where
  | written (excluded : List VaRange) (memory : Nat → α)
  | other (file : StaticFile α)

def Origin.file : Origin α → StaticFile α
  | .written excluded memory => fun p =>
      if ∃ r ∈ excluded, r.Has p then some (memory p) else none
  | .other file => file

/-- A run with `--static-img`: the entries it counted, the ranges of the driver, the
content of the pages at its boundary, and what fails: GET_VA_RANGES, the emission of the
image, which leaves some file, or what comes after it. -/
structure StaticRun (α : Type) where
  nAllocs : Nat
  ranges : List VaRange
  boundary : Nat → α
  listed : Bool
  emission : Option (Option (StaticFile α))
  finishes : Bool

/-- The application with the content of its pages, and the static image on disk. -/
structure World (α : Type) where
  app : State
  memory : Nat → α
  image : Option (Origin α)

namespace StaticRun

variable (run : StaticRun α) (s : World α)

/-- The ranges left out of base and delta. -/
def excluded : List VaRange :=
  run.ranges.filter (Agent.staticRange (s.app.filter true run.nAllocs))

def kept : List VaRange := run.ranges.filter (s.app.filter true run.nAllocs).keeps

/-- `main` from the filter on: whether the run succeeds, and the image it leaves. -/
def exec : Bool × Option (Origin α) :=
  if !run.listed then (false, s.image)
  else if (run.kept s).isEmpty then (false, s.image)
  else match s.image with
    | some image => (run.finishes, some image)
    | none =>
        if (run.excluded s).isEmpty then (run.finishes, none)
        else match run.emission with
          | some left => (false, left.map .other)
          | none => (run.finishes, some (.written (run.excluded s) s.memory))

/-- Nothing fails in the run. -/
def Completes : Prop :=
  run.listed = true ∧ run.kept s ≠ [] ∧ run.finishes = true ∧
    (s.image = none → run.excluded s ≠ [] → run.emission = none)

end StaticRun

/-- What the application does, the content of its pages as it changes, and runs. -/
inductive Step (α : Type) where
  | app (event : Event)
  | write (memory : Nat → α)
  | run (run : StaticRun α)

def World.next (cfg : Config) (s : World α) : Step α → Option (World α)
  | .app event => (Static.next cfg s.app event).map fun app => { s with app := app }
  | .write memory => some { s with memory := memory }
  | .run run => some { s with memory := run.boundary, image := (run.exec s).2 }

/-- Each range that a successful run leaves out is in the image on disk, with the content
of its boundary. -/
def World.ExcludedSaved (s : World α) : Step α → Prop
  | .run run => (run.exec s).1 = true → ∀ r ∈ run.excluded s,
      ∃ image, (run.exec s).2 = some image ∧ ∀ p, r.Has p → image.file p = some (run.boundary p)
  | _ => True

/-- The pages left out do not change between the emission and the boundary. A run that
finds an image leaves out only pages that the run left out which wrote it, and which have
not changed since. -/
def World.StillSaved (s : World α) : Step α → Prop
  | .run run => run.Completes s → ∀ r ∈ run.excluded s, ∀ p, r.Has p →
      match s.image with
      | none => run.boundary p = s.memory p
      | some (.written excluded memory) => (∃ r ∈ excluded, r.Has p) ∧ run.boundary p = memory p
      | some (.other file) => file p = some (run.boundary p)
  | _ => True

section Runs

variable {run : StaticRun α} {s : World α}

theorem exec_fst : (run.exec s).1 = true ↔ run.Completes s := by
  rw [StaticRun.exec, StaticRun.Completes]
  cases run.listed with
  | false => simp
  | true =>
      by_cases hKept : run.kept s = []
      · simp [hKept]
      · cases s.image with
        | some image => simp [hKept]
        | none =>
            by_cases hExcluded : run.excluded s = []
            · simp [hKept, hExcluded]
            · cases run.emission with
              | none => simp [hKept, hExcluded]
              | some left => simp [hKept, hExcluded]

/-- After a run that succeeds the image is the one it found, or that of its own ranges. -/
theorem exec_snd (h : run.Completes s) (hExcluded : run.excluded s ≠ []) :
    (run.exec s).2 = some (s.image.getD (.written (run.excluded s) s.memory)) := by
  obtain ⟨hListed, hKept, -, hEmission⟩ := h
  rw [StaticRun.exec]
  cases hImage : s.image with
  | some image => simp [hListed, hKept]
  | none => simp [hListed, hKept, hExcluded, hEmission hImage hExcluded]

/-- The file of a run has the pages it left out. -/
theorem written_file {excluded : List VaRange} {memory : Nat → α} {p : Nat} {v : α} :
    (Origin.written excluded memory).file p = some v ↔
      (∃ r ∈ excluded, r.Has p) ∧ v = memory p := by
  simp only [Origin.file]
  split
  · rename_i hPage
    rw [and_iff_right hPage, Option.some.injEq, eq_comm]
  · rename_i hPage
    exact iff_of_false (nomatch ·) fun h => hPage h.1

theorem excludedSaved_iff (step : Step α) : s.ExcludedSaved step ↔ s.StillSaved step := by
  cases step with
  | app event => exact Iff.rfl
  | write memory => exact Iff.rfl
  | run run =>
      rw [World.ExcludedSaved, World.StillSaved, exec_fst]
      refine imp_congr_right fun hCompletes => forall₂_congr fun r hr => ?_
      rw [exec_snd hCompletes (List.ne_nil_of_mem hr)]
      simp only [Option.some.injEq, exists_eq_left']
      cases s.image with
      | none =>
          refine forall₂_congr fun p hp => ?_
          rw [Option.getD_none, written_file, and_iff_right ⟨r, hr, hp⟩]
      | some origin =>
          cases origin with
          | written excluded memory =>
              refine forall₂_congr fun p _ => ?_
              rw [Option.getD_some, written_file]
          | other file => exact Iff.rfl

/-- What runs leave out is saved if and only if it is still what the image was written
with, along every sequence of runs and of what the application does in between. -/
theorem excludedSaved_along_iff (cfg : Config) (s : World α) (steps : List (Step α)) :
    Along (World.next cfg) World.ExcludedSaved s steps ↔
      Along (World.next cfg) World.StillSaved s steps :=
  along_congr (fun _ => excludedSaved_iff) s steps

end Runs

/-- A model is loaded and saved; then a second one is loaded. -/
def lateLoad : List (Step Nat) :=
  [.app (.alloc 4096 4096), .app (.copy 4096 4096), .app (.alloc 8192 4096),
    .run ⟨2, [⟨1, 1, Nat.one_pos⟩, ⟨2, 1, Nat.one_pos⟩], fun _ => 7, true, none, true⟩,
    .app (.alloc 12288 4096), .app (.copy 12288 4096),
    .run ⟨3, [⟨1, 1, Nat.one_pos⟩, ⟨2, 1, Nat.one_pos⟩, ⟨3, 1, Nat.one_pos⟩], fun _ => 7, true, none,
      true⟩]

theorem not_excludedSaved_lateLoad :
    ¬Along (World.next ⟨false, true⟩) World.ExcludedSaved ⟨.init, fun _ => 7, none⟩ lateLoad := by
  intro h
  obtain ⟨-, h⟩ := h _ rfl
  obtain ⟨-, h⟩ := h _ rfl
  obtain ⟨-, h⟩ := h _ rfl
  obtain ⟨-, h⟩ := h _ rfl
  obtain ⟨-, h⟩ := h _ rfl
  obtain ⟨-, h⟩ := h _ rfl
  obtain ⟨hSaved, -⟩ := h _ rfl
  obtain ⟨image, hImage, hHas⟩ := hSaved rfl ⟨3, 1, Nat.one_pos⟩ (List.mem_filter.mpr ⟨by simp, by decide⟩)
  cases hImage
  obtain ⟨r, hr, hPage⟩ := (written_file.mp (hHas 3 (by decide))).1
  cases List.mem_singleton.mp hr
  exact absurd hPage (by decide)

end FlashCkpt.Static
