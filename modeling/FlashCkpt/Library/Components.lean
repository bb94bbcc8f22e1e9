import FlashCkpt.Library.Transition
import Mathlib.Algebra.BigOperators.Group.List.Basic

/-! Components that take turns in any order. A turn of a component depends on its own state
only, and has an effect on what they share. An invariant of each component holds along every
run when its own turns keep it, and the turns of the others do. -/
namespace Components

open Transition

variable {Local Turn Effect Shared : Type}

/-- What a component does on a turn, and what an effect does to the shared part. -/
structure Program (Local Turn Effect Shared : Type) where
  step : Local → Turn → Option (Local × Effect)
  apply : Effect → Shared → Shared

structure State (Local Shared : Type) where
  parts : List Local
  shared : Shared

/-- A label is the number of a component with its turn. -/
def next (program : Program Local Turn Effect Shared) (s : State Local Shared)
    (label : Nat × Turn) : Option (State Local Shared) :=
  match s.parts[label.1]? with
  | none => none
  | some part =>
      match program.step part label.2 with
      | none => none
      | some (part', effect) =>
          some ⟨s.parts.set label.1 part', program.apply effect s.shared⟩

/-- The invariant of every component, by its number. -/
def State.Holds (s : State Local Shared) (Inv : Nat → Local → Shared → Prop) : Prop :=
  ∀ (i : Nat) (part : Local), s.parts[i]? = some part → Inv i part s.shared

/-- Own turns keep the invariant, and so do the turns of the others. -/
structure Keeps (program : Program Local Turn Effect Shared)
    (Inv : Nat → Local → Shared → Prop) : Prop where
  own : ∀ i part shared turn part' effect, Inv i part shared →
    program.step part turn = some (part', effect) → Inv i part' (program.apply effect shared)
  others : ∀ i j part other shared turn other' effect, i ≠ j → Inv i part shared →
    Inv j other shared → program.step other turn = some (other', effect) →
      Inv i part (program.apply effect shared)

variable {program : Program Local Turn Effect Shared} {Inv : Nat → Local → Shared → Prop}
variable {s t : State Local Shared}

/-- All that a turn of the system does. -/
theorem next_eq_some {label : Nat × Turn} :
    next program s label = some t ↔ ∃ part part' effect, s.parts[label.1]? = some part ∧
      program.step part label.2 = some (part', effect) ∧
      t = ⟨s.parts.set label.1 part', program.apply effect s.shared⟩ := by
  rw [next]
  constructor
  · intro h
    split at h
    · cases h
    · rename_i part hPart
      split at h
      · cases h
      · rename_i part' effect hStep
        exact ⟨part, part', effect, hPart, hStep, (Option.some.inj h).symm⟩
  · rintro ⟨part, part', effect, hPart, hStep, rfl⟩
    simp only [hPart, hStep]

theorem Keeps.next (hKeeps : Keeps program Inv) {label : Nat × Turn} (h : s.Holds Inv)
    (hNext : next program s label = some t) : t.Holds Inv := by
  obtain ⟨part, part', effect, hPart, hStep, rfl⟩ := next_eq_some.mp hNext
  intro i other hOther
  dsimp only at hOther ⊢
  by_cases hSame : label.1 = i
  · subst hSame
    rw [List.getElem?_set_self (List.getElem?_eq_some_iff.mp hPart).1] at hOther
    cases hOther
    exact hKeeps.own _ _ _ _ _ _ (h _ _ hPart) hStep
  · rw [List.getElem?_set_ne hSame] at hOther
    exact hKeeps.others i label.1 _ _ _ _ _ _ (Ne.symm hSame) (h _ _ hOther) (h _ _ hPart) hStep

theorem Keeps.execute (hKeeps : Keeps program Inv) (labels : List (Nat × Turn)) (h : s.Holds Inv)
    (hRun : Transition.execute (Components.next program) s labels = some t) : t.Holds Inv :=
  invariant_execute (fun _ _ _ h hNext => hKeeps.next h hNext) labels s t h hRun

/-- What every effect keeps of the shared part, where the component meets its invariant. -/
theorem Keeps.shared {P : Shared → Prop} (hKeeps : Keeps program Inv)
    (hEffect : ∀ i part shared turn part' effect, Inv i part shared →
      program.step part turn = some (part', effect) → P shared → P (program.apply effect shared))
    (labels : List (Nat × Turn)) (h : s.Holds Inv) (hShared : P s.shared)
    (hRun : Transition.execute (Components.next program) s labels = some t) : P t.shared := by
  have hBoth : ∀ (s : State Local Shared) label t, s.Holds Inv ∧ P s.shared →
      Components.next program s label = some t → t.Holds Inv ∧ P t.shared := by
    rintro s label t ⟨h, hShared⟩ hNext
    refine ⟨hKeeps.next h hNext, ?_⟩
    obtain ⟨part, part', effect, hPart, hStep, rfl⟩ := next_eq_some.mp hNext
    exact hEffect _ _ _ _ _ _ (h _ _ hPart) hStep hShared
  exact (invariant_execute hBoth labels s t ⟨h, hShared⟩ hRun).2

theorem parts_length (labels : List (Nat × Turn))
    (hRun : execute (next program) s labels = some t) : t.parts.length = s.parts.length := by
  have hKept : ∀ (u : State Local Shared) label v, u.parts.length = s.parts.length →
      next program u label = some v → v.parts.length = s.parts.length := by
    intro u label v hu hNext
    obtain ⟨part, part', effect, -, -, rfl⟩ := next_eq_some.mp hNext
    rw [← hu]
    exact List.length_set
  exact invariant_execute hKept labels s t rfl hRun

theorem sum_set_lt {weight : Local → Nat} {parts : List Local} {i : Nat} {part part' : Local}
    (hPart : parts[i]? = some part) (hLess : weight part' < weight part) :
    ((parts.set i part').map weight).sum < (parts.map weight).sum := by
  induction parts generalizing i with
  | nil => cases hPart
  | cons first rest ih =>
      cases i with
      | zero =>
          cases hPart
          simpa using hLess
      | succ i =>
          have := ih hPart
          simpa using this

/-- Where a component that is not over always has a turn that brings it nearer to its end and
leaves it fine, the system has a run to the end. -/
theorem Keeps.exists_run (hKeeps : Keeps program Inv) {Fine Over : Local → Prop}
    (weight : Local → Nat)
    (hTurn : ∀ i part shared, Inv i part shared → Fine part → ¬Over part →
      ∃ turn part' effect, program.step part turn = some (part', effect) ∧ Fine part' ∧
        weight part' < weight part)
    (h : s.Holds Inv) (hFine : ∀ part ∈ s.parts, Fine part) :
    ∃ labels t, Transition.execute (Components.next program) s labels = some t ∧
      t.Holds Inv ∧ ∀ part ∈ t.parts, Fine part ∧ Over part := by
  generalize hTotal : (s.parts.map weight).sum = total
  induction total using Nat.strongRecOn generalizing s with
  | ind total ih =>
      by_cases hOver : ∀ part ∈ s.parts, Over part
      · exact ⟨[], s, rfl, h, fun part hPart => ⟨hFine part hPart, hOver part hPart⟩⟩
      · push Not at hOver
        obtain ⟨part, hMem, hPart⟩ := hOver
        obtain ⟨i, hi⟩ := List.getElem?_of_mem hMem
        obtain ⟨turn, part', effect, hStep, hFine', hLess⟩ :=
          hTurn i part s.shared (h i part hi) (hFine part hMem) hPart
        have hNext : Components.next program s (i, turn) =
            some ⟨s.parts.set i part', program.apply effect s.shared⟩ :=
          next_eq_some.mpr ⟨part, part', effect, hi, hStep, rfl⟩
        have hTotal' := sum_set_lt hi hLess
        rw [hTotal] at hTotal'
        have hAllFine : ∀ other ∈ s.parts.set i part', Fine other := by
          intro other hOther
          rcases List.mem_or_eq_of_mem_set hOther with hOld | rfl
          · exact hFine other hOld
          · exact hFine'
        obtain ⟨labels, t, hRun, hEnd⟩ := ih _ hTotal' (hKeeps.next h hNext) hAllFine rfl
        refine ⟨(i, turn) :: labels, t, ?_, hEnd⟩
        rw [execute_cons, hNext]
        exact hRun

end Components
