import Mathlib.Algebra.Order.Ring.Nat
import Mathlib.Data.List.Basic

/-! Runs of a system given by a partial next-state function. A label that is
not enabled has no next state, so a run is a list of labels all of which were
enabled when they were taken. Every prefix of a run is a run: a statement about
the last state of all runs is a statement about every state reached. -/
namespace Transition

universe u v
variable {State : Type u} {Label : Type v}

/-- Take the labels in order, stopping at the first one that is not enabled. -/
def execute (next : State → Label → Option State) : State → List Label → Option State
  | s, [] => some s
  | s, label :: rest => (next s label).bind fun t => execute next t rest

/-- Every label that is taken is taken in a state that meets the condition. -/
def Along (next : State → Label → Option State) (ok : State → Label → Prop) :
    State → List Label → Prop
  | _, [] => True
  | s, label :: rest => ∀ t, next s label = some t → ok s label ∧ Along next ok t rest

theorem execute_cons (next : State → Label → Option State) (s : State)
    (label : Label) (rest : List Label) :
    execute next s (label :: rest) = (next s label).bind fun t => execute next t rest := rfl

theorem execute_append (next : State → Label → Option State) (s : State)
    (first second : List Label) :
    execute next s (first ++ second) =
      (execute next s first).bind fun t => execute next t second := by
  induction first generalizing s with
  | nil => rfl
  | cons label rest ih =>
      rw [List.cons_append, execute_cons, execute_cons, Option.bind_assoc]
      exact Option.bind_congr fun t _ => ih t

/-- The labels allowed lead to a state for which the statement holds. -/
def CanReach (next : State → Label → Option State) (ok : Label → Prop) (s : State)
    (Goal : State → Prop) : Prop :=
  ∃ labels t, (∀ label ∈ labels, ok label) ∧ execute next s labels = some t ∧ Goal t

section Possible

variable {next : State → Label → Option State} {ok : Label → Prop} {Goal : State → Prop}

theorem CanReach.here {s : State} (h : Goal s) : CanReach next ok s Goal :=
  ⟨[], s, nofun, rfl, h⟩

theorem CanReach.step {s t : State} {label : Label} (hOk : ok label)
    (hNext : next s label = some t) (h : CanReach next ok t Goal) : CanReach next ok s Goal := by
  obtain ⟨labels, u, hAll, hRun, hGoal⟩ := h
  refine ⟨label :: labels, u, ?_, ?_, hGoal⟩
  · intro l hl
    rcases List.mem_cons.mp hl with rfl | hl
    · exact hOk
    · exact hAll l hl
  · rw [execute_cons, hNext, Option.bind_some, hRun]

/-- One goal after the other. -/
theorem CanReach.bind {Middle : State → Prop} {s : State} (h : CanReach next ok s Middle)
    (hThen : ∀ t, Middle t → CanReach next ok t Goal) : CanReach next ok s Goal := by
  obtain ⟨labels, t, hAll, hRun, hMiddle⟩ := h
  obtain ⟨labels', u, hAll', hRun', hGoal⟩ := hThen t hMiddle
  refine ⟨labels ++ labels', u, ?_, ?_, hGoal⟩
  · intro l hl
    exact (List.mem_append.mp hl).elim (hAll l) (hAll' l)
  · rw [execute_append, hRun, Option.bind_some, hRun']

/-- What every step keeps holds where the goal is reached. -/
theorem CanReach.keep {Inv : State → Prop}
    (hStep : ∀ s label t, ok label → Inv s → next s label = some t → Inv t) {s : State}
    (h : CanReach next ok s Goal) (hs : Inv s) : CanReach next ok s fun t => Goal t ∧ Inv t := by
  obtain ⟨labels, t, hAll, hRun, hGoal⟩ := h
  refine ⟨labels, t, hAll, hRun, hGoal, ?_⟩
  clear hGoal
  induction labels generalizing s with
  | nil =>
      cases hRun
      exact hs
  | cons label rest ih =>
      rw [execute_cons, Option.bind_eq_some_iff] at hRun
      obtain ⟨middle, hNext, hRest⟩ := hRun
      exact ih (hStep s label middle (hAll label List.mem_cons_self) hs hNext)
        (fun l hl => hAll l (List.mem_cons_of_mem label hl)) hRest

end Possible

/-- A run of one system is matched by a run of another if every step is. -/
theorem execute_related {State' : Type u} {Label' : Type v} {next : State → Label → Option State}
    {next' : State' → Label' → Option State'} {R : State → State' → Prop} {f : Label → Label'}
    {ok : Label → Prop}
    (hStep : ∀ s s' label t, R s s' → ok label → next s label = some t →
      ∃ t', next' s' (f label) = some t' ∧ R t t')
    (labels : List Label) {s t : State} {s' : State'} (hs : R s s')
    (hAll : ∀ label ∈ labels, ok label) (ht : execute next s labels = some t) :
    ∃ t', execute next' s' (labels.map f) = some t' ∧ R t t' := by
  induction labels generalizing s s' with
  | nil =>
      cases ht
      exact ⟨s', rfl, hs⟩
  | cons label rest ih =>
      rw [execute_cons, Option.bind_eq_some_iff] at ht
      obtain ⟨middle, hNext, hRest⟩ := ht
      obtain ⟨middle', hNext', hRelated⟩ := hStep s s' label middle hs
        (hAll label List.mem_cons_self) hNext
      obtain ⟨t', hRun, ht'⟩ := ih hRelated (fun l hl => hAll l (List.mem_cons_of_mem label hl))
        hRest
      refine ⟨t', ?_, ht'⟩
      rw [List.map_cons, execute_cons, hNext', Option.bind_some, hRun]

/-- A run of one system is followed by one of another if every step is followed by some steps. -/
theorem execute_followed {State' : Type u} {Label' : Type v} {next : State → Label → Option State}
    {next' : State' → Label' → Option State'} {R : State → State' → Prop} {ok : Label → Prop}
    (hStep : ∀ s s' label t, R s s' → ok label → next s label = some t →
      ∃ labels' t', execute next' s' labels' = some t' ∧ R t t')
    (labels : List Label) {s t : State} {s' : State'} (hs : R s s')
    (hAll : ∀ label ∈ labels, ok label) (ht : execute next s labels = some t) :
    ∃ labels' t', execute next' s' labels' = some t' ∧ R t t' := by
  induction labels generalizing s s' with
  | nil =>
      cases ht
      exact ⟨[], s', rfl, hs⟩
  | cons label rest ih =>
      rw [execute_cons, Option.bind_eq_some_iff] at ht
      obtain ⟨middle, hNext, hRest⟩ := ht
      obtain ⟨first, middle', hFirst, hMiddle⟩ := hStep s s' label middle hs
        (hAll label List.mem_cons_self) hNext
      obtain ⟨more, t', hMore, ht'⟩ := ih hMiddle (fun l hl => hAll l (List.mem_cons_of_mem label hl))
        hRest
      refine ⟨first ++ more, t', ?_, ht'⟩
      rw [execute_append, hFirst, Option.bind_some, hMore]

/-- A system whose every step is enabled runs to the end. -/
theorem execute_total {next : State → Label → State} (s : State) (labels : List Label) :
    ∃ t, execute (fun s label => some (next s label)) s labels = some t := by
  induction labels generalizing s with
  | nil => exact ⟨s, rfl⟩
  | cons label rest ih => exact ih (next s label)

/-- A step that is taken, with what follows it. -/
theorem along_cons {next : State → Label → Option State} {ok : State → Label → Prop}
    {s t : State} {label : Label} {rest : List Label} (hNext : next s label = some t)
    (hOk : ok s label) (hRest : Along next ok t rest) : Along next ok s (label :: rest) := by
  intro t' hNext'
  cases hNext.symm.trans hNext'
  exact ⟨hOk, hRest⟩

/-- What is left of a run after its first labels. -/
theorem Along.reached {next : State → Label → Option State} {ok : State → Label → Prop}
    {s t : State} {labels rest : List Label} (h : Along next ok s (labels ++ rest))
    (ht : execute next s labels = some t) : Along next ok t rest := by
  induction labels generalizing s with
  | nil =>
      cases ht
      exact h
  | cons label labels ih =>
      rw [execute_cons, Option.bind_eq_some_iff] at ht
      obtain ⟨middle, hNext, hRest⟩ := ht
      exact ih (h middle hNext).2 hRest

/-- What holds after each step of a run holds of its last state. -/
theorem Along.last {next : State → Label → Option State} {P : State → Prop} {s t : State}
    {labels : List Label} (h : Along next (fun s label => ∀ t, next s label = some t → P t) s labels)
    (hNonempty : labels ≠ []) (ht : execute next s labels = some t) : P t := by
  induction labels generalizing s with
  | nil => exact (hNonempty rfl).elim
  | cons label rest ih =>
      rw [execute_cons, Option.bind_eq_some_iff] at ht
      obtain ⟨middle, hNext, hRest⟩ := ht
      obtain ⟨hHere, hAlong⟩ := h middle hNext
      by_cases hEmpty : rest = []
      · rw [hEmpty] at hRest
        cases hRest
        exact hHere _ hNext
      · exact ih hAlong hEmpty hRest

/-- A condition on the labels alone holds along a run when every label meets it. -/
theorem along_of_forall {next : State → Label → Option State} {ok : Label → Prop}
    {labels : List Label} (h : ∀ label ∈ labels, ok label) (s : State) :
    Along next (fun _ => ok) s labels := by
  induction labels generalizing s with
  | nil => trivial
  | cons label rest ih =>
      intro t _
      exact ⟨h label List.mem_cons_self, ih (fun l hl => h l (List.mem_cons_of_mem label hl)) t⟩

/-- Conditions that agree on every step agree along every run. -/
theorem along_congr {next : State → Label → Option State} {ok ok' : State → Label → Prop}
    (h : ∀ s label, ok s label ↔ ok' s label) (s : State) (labels : List Label) :
    Along next ok s labels ↔ Along next ok' s labels := by
  induction labels generalizing s with
  | nil => rfl
  | cons label rest ih =>
      refine forall₂_congr fun t _ => ?_
      rw [h s label, ih t]

/-- The run rule: what each allowed step preserves holds after every allowed run. -/
theorem invariant_along {next : State → Label → Option State}
    {ok : State → Label → Prop} {Inv : State → Prop}
    (hStep : ∀ s label t, ok s label → Inv s → next s label = some t → Inv t) :
    ∀ (labels : List Label) (s t : State), Inv s → Along next ok s labels →
      execute next s labels = some t → Inv t := by
  intro labels
  induction labels with
  | nil =>
      intro s t hs _ ht
      cases ht
      exact hs
  | cons label rest ih =>
      intro s t hs hOk ht
      rw [execute_cons, Option.bind_eq_some_iff] at ht
      obtain ⟨middle, hNext, hRest⟩ := ht
      obtain ⟨hLabel, hAlong⟩ := hOk middle hNext
      exact ih middle t (hStep s label middle hLabel hs hNext) hAlong hRest

/-- The run rule for what every step preserves. -/
theorem invariant_execute {next : State → Label → Option State} {Inv : State → Prop}
    (hStep : ∀ s label t, Inv s → next s label = some t → Inv t) (labels : List Label)
    (s t : State) (hs : Inv s) (ht : execute next s labels = some t) : Inv t :=
  invariant_along (fun s label t (_ : True) hs hNext => hStep s label t hs hNext) labels s t hs
    (along_of_forall (fun _ _ => trivial) s) ht

/-- A condition that follows from another one and an invariant holds along every run
along which the other one does. -/
theorem along_of_invariant {next : State → Label → Option State}
    {ok ok' : State → Label → Prop} {Inv : State → Prop}
    (hStep : ∀ s label t, ok s label → Inv s → next s label = some t → Inv t)
    (hOk : ∀ s label t, ok s label → Inv s → next s label = some t → ok' s label) :
    ∀ (labels : List Label) (s : State), Inv s → Along next ok s labels →
      Along next ok' s labels := by
  intro labels
  induction labels with
  | nil => exact fun _ _ _ => trivial
  | cons label rest ih =>
      intro s hs hAlong t hNext
      obtain ⟨hLabel, hRest⟩ := hAlong t hNext
      exact ⟨hOk s label t hLabel hs hNext, ih t (hStep s label t hLabel hs hNext) hRest⟩

/-- A weaker condition holds along every run along which a stronger one does. -/
theorem Along.imp {next : State → Label → Option State} {ok ok' : State → Label → Prop}
    {labels : List Label} {s : State} (h : Along next ok s labels)
    (hOk : ∀ s label t, ok s label → next s label = some t → ok' s label) :
    Along next ok' s labels :=
  along_of_invariant (fun _ _ _ _ (hTrue : True) _ => hTrue)
    (fun s label t hLabel _ hNext => hOk s label t hLabel hNext) labels s trivial h

/-- Conditions that agree wherever an invariant holds agree along every run. -/
theorem along_congr_of_invariant {next : State → Label → Option State}
    {ok ok' : State → Label → Prop} {Inv : State → Prop}
    (hStep : ∀ s label t, Inv s → next s label = some t → Inv t)
    (h : ∀ s label, Inv s → (ok s label ↔ ok' s label)) {s : State} (hs : Inv s)
    (labels : List Label) : Along next ok s labels ↔ Along next ok' s labels :=
  ⟨along_of_invariant (fun s label t _ => hStep s label t)
      (fun s label _ hOk hs _ => (h s label hs).mp hOk) labels s hs,
    along_of_invariant (fun s label t _ => hStep s label t)
      (fun s label _ hOk hs _ => (h s label hs).mpr hOk) labels s hs⟩

/-- Conditions that agree on every step taken where an invariant holds, if one of them keeps
the invariant. -/
theorem along_congr_of_kept {next : State → Label → Option State}
    {ok ok' : State → Label → Prop} {Inv : State → Prop}
    (hStep : ∀ s label t, ok' s label → Inv s → next s label = some t → Inv t)
    (h : ∀ s label t, Inv s → next s label = some t → (ok s label ↔ ok' s label)) {s : State}
    (hs : Inv s) (labels : List Label) : Along next ok s labels ↔ Along next ok' s labels :=
  ⟨along_of_invariant
      (fun s label t hOk hs hNext => hStep s label t ((h s label t hs hNext).mp hOk) hs hNext)
      (fun s label t hOk hs hNext => (h s label t hs hNext).mp hOk) labels s hs,
    along_of_invariant hStep (fun s label t hOk hs hNext => (h s label t hs hNext).mpr hOk) labels s hs⟩

end Transition
