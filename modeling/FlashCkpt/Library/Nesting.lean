import Mathlib.Algebra.Order.Ring.Nat
import Mathlib.Data.List.Basic

/-! Locks taken and released by hand, as a list of events. The events are well nested
when every release is of the lock that was taken last and nothing is held at the end.
Loops that can be left in the middle collect the events of their turns. -/
namespace Nesting

universe u v w
variable {Lock : Type u} [DecidableEq Lock]

inductive Event (Lock : Type u) where
  | acquire (lock : Lock)
  | release (lock : Lock)
  deriving DecidableEq, Repr

/-- The locks held after the events, the last one first; none when a lock is taken that
is held, or one released that was not taken last. -/
def hold : List Lock → List (Event Lock) → Option (List Lock)
  | held, [] => some held
  | held, .acquire lock :: rest => if lock ∈ held then none else hold (lock :: held) rest
  | [], .release _ :: _ => none
  | last :: held, .release lock :: rest => if last = lock then hold held rest else none

def WellNested (events : List (Event Lock)) : Prop := hold [] events = some []

instance (events : List (Event Lock)) : Decidable (WellNested events) :=
  inferInstanceAs (Decidable (_ = _))

/-- The events leave the locks as they find them. -/
def Balanced (held : List Lock) (events : List (Event Lock)) : Prop := hold held events = some held

theorem hold_append (held : List Lock) (first second : List (Event Lock)) :
    hold held (first ++ second) = (hold held first).bind fun after => hold after second := by
  induction first generalizing held with
  | nil => rfl
  | cons event rest ih =>
      cases event with
      | acquire lock =>
          rw [List.cons_append, hold, hold]
          split
          · rfl
          · exact ih _
      | release lock =>
          cases held with
          | nil => rfl
          | cons last held =>
              rw [List.cons_append, hold, hold]
              split
              · exact ih _
              · rfl

theorem balanced_nil (held : List Lock) : Balanced held [] := rfl

theorem Balanced.append {held : List Lock} {first second : List (Event Lock)}
    (hFirst : Balanced held first) (hSecond : Balanced held second) :
    Balanced held (first ++ second) := by
  rw [Balanced, hold_append, hFirst]
  exact hSecond

/-- A lock held while balanced events happen. -/
theorem Balanced.bracket {held : List Lock} {lock : Lock} {events : List (Event Lock)}
    (hNew : lock ∉ held) (h : Balanced (lock :: held) events) :
    Balanced held (.acquire lock :: events ++ [.release lock]) := by
  rw [Balanced, List.cons_append, hold, if_neg hNew, hold_append, h]
  exact if_pos rfl

theorem balanced_pair {held : List Lock} {lock : Lock} (hNew : lock ∉ held) :
    Balanced held [.acquire lock, .release lock] :=
  Balanced.bracket hNew (balanced_nil _)

/-- What a loop, or a turn of it, leaves: its variables, the status with which it is left
for good, and what it did with the locks. -/
structure Walk (Lock : Type u) (σ : Type v) (Status : Type w) where
  acc : σ
  exit : Option Status
  events : List (Event Lock)

variable {σ : Type v} {Status : Type w}

/-- A loop over a list. -/
def scan {α : Type*} (turn : α → σ → Walk Lock σ Status) : List α → σ → Walk Lock σ Status
  | [], acc => ⟨acc, none, []⟩
  | a :: rest, acc =>
      let first := turn a acc
      match first.exit with
      | some _ => first
      | none =>
          let later := scan turn rest first.acc
          ⟨later.acc, later.exit, first.events ++ later.events⟩

variable {α : Type*} {turn : α → σ → Walk Lock σ Status}

omit [DecidableEq Lock] in
theorem scan_cons_exit {a : α} {rest : List α} {acc : σ} {status : Status}
    (h : (turn a acc).exit = some status) : scan turn (a :: rest) acc = turn a acc := by
  simp only [scan, h]

omit [DecidableEq Lock] in
theorem scan_cons_next {a : α} {rest : List α} {acc : σ} (h : (turn a acc).exit = none) :
    scan turn (a :: rest) acc =
      ⟨(scan turn rest (turn a acc).acc).acc, (scan turn rest (turn a acc).acc).exit,
        (turn a acc).events ++ (scan turn rest (turn a acc).acc).events⟩ := by
  simp only [scan, h]

/-- The locks held after a loop, or a turn of it: those held before, or what belongs to
the status with which it is left. -/
def Walk.Leaves (held : List Lock) (After : Status → Option (List Lock) → Prop)
    (walk : Walk Lock σ Status) : Prop :=
  match walk.exit with
  | none => Balanced held walk.events
  | some status => After status (hold held walk.events)

/-- A loop leaves what its turns leave. -/
theorem scan_leaves {held : List Lock} {After : Status → Option (List Lock) → Prop} (xs : List α)
    (acc : σ) (hTurn : ∀ a ∈ xs, ∀ acc, (turn a acc).Leaves held After) :
    (scan turn xs acc).Leaves held After := by
  induction xs generalizing acc with
  | nil => exact balanced_nil held
  | cons a rest ih =>
      have hFirst := hTurn a List.mem_cons_self acc
      cases hExit : (turn a acc).exit with
      | some status => rwa [scan_cons_exit hExit]
      | none =>
          have hRest := ih (turn a acc).acc fun b hb => hTurn b (List.mem_cons_of_mem a hb)
          simp only [Walk.Leaves, hExit] at hFirst
          simp only [Walk.Leaves, scan_cons_next hExit] at hRest ⊢
          cases hLater : (scan turn rest (turn a acc).acc).exit with
          | none =>
              rw [hLater] at hRest
              exact hFirst.append hRest
          | some status =>
              rw [hLater] at hRest
              rwa [hold_append, hFirst]

/-- A loop whose turns are balanced, those that leave it included. -/
theorem scan_balanced {held : List Lock} (xs : List α) (acc : σ)
    (h : ∀ a ∈ xs, ∀ acc, Balanced held (turn a acc).events) :
    Balanced held (scan turn xs acc).events := by
  have hSame (walk : Walk Lock σ Status) :
      walk.Leaves held (fun _ after => after = some held) ↔ Balanced held walk.events := by
    rw [Walk.Leaves]
    cases walk.exit <;> exact Iff.rfl
  exact (hSame _).mp (scan_leaves xs acc fun a ha acc => (hSame _).mpr (h a ha acc))

end Nesting
