import FlashCkpt.Library.Transition
import FlashCkpt.Library.WorkerPool

/-! Workers that go through a list of tasks each, on a state they share. A task that fails is
the last one of its worker. Where the tasks stand each on their own, the order in which the
workers take turns makes no difference to what is done. -/
namespace Crew

open Transition

variable {Task Out Shared : Type}

structure State (Task Out Shared : Type) where
  left : List (List Task)
  done : List Out
  failed : Bool
  shared : Shared

/-- The next task of a worker. `act` gives nothing for a task that fails. -/
def next (act : Task → Shared → Shared × Option Out) (s : State Task Out Shared) (worker : Nat) :
    Option (State Task Out Shared) :=
  match s.left[worker]? with
  | some (task :: rest) =>
      match act task s.shared with
      | (shared, some out) =>
          some { s with left := s.left.set worker rest, done := s.done ++ [out], shared := shared }
      | (shared, none) =>
          some { s with left := s.left.set worker [], failed := true, shared := shared }
  | _ => none

/-- All workers have come to their end. -/
def State.Over (s : State Task Out Shared) : Prop := s.left.flatten = []

/-- Tasks that do not disturb each other: `Ready` is what a task finds, `Done` what it leaves,
and `value` what it gives. -/
structure Independent (act : Task → Shared → Shared × Option Out) (Ready Done : Task → Shared → Prop)
    (value : Task → Option Out) (Keep : Shared → Prop) : Prop where
  value_eq : ∀ task s, Ready task s → (act task s).2 = value task
  done : ∀ task s, Ready task s → (value task).isSome = true → Done task (act task s).1
  ready_of_ne : ∀ task other s, task ≠ other → Ready other s → Ready task s →
    Ready task (act other s).1
  done_of_ne : ∀ task other s, task ≠ other → Ready other s → Done task s →
    Done task (act other s).1
  keep : ∀ task s, Ready task s → Keep s → Keep (act task s).1

section Runs

variable {act : Task → Shared → Shared × Option Out} {s t : State Task Out Shared}

/-- All that a turn does: one task is carried out, and when it fails its worker drops the rest. -/
theorem next_moves {worker : Nat} (h : next act s worker = some t) :
    ∃ task dropped, s.left.flatten.Perm (task :: dropped ++ t.left.flatten) ∧
      t.shared = (act task s.shared).1 ∧
      ((∃ out, (act task s.shared).2 = some out ∧ dropped = [] ∧ t.done = s.done ++ [out] ∧
          t.failed = s.failed) ∨
        ((act task s.shared).2 = none ∧ t.done = s.done ∧ t.failed = true)) := by
  rw [next] at h
  split at h
  · rename_i task rest hLeft
    split at h
    · rename_i shared out hAct
      cases h
      refine ⟨task, [], ?_, by rw [hAct], .inl ⟨out, by rw [hAct], rfl, rfl, rfl⟩⟩
      have hFront : s.left[worker]? = some ([task] ++ rest) := hLeft
      exact WorkerPool.flatten_perm_set hFront
    · rename_i shared hAct
      cases h
      refine ⟨task, rest, ?_, by rw [hAct], .inr ⟨by rw [hAct], rfl, rfl⟩⟩
      apply WorkerPool.flatten_perm_set
      rw [List.append_nil, hLeft]
  · cases h

/-- What is left shrinks with every turn. -/
theorem left_lt {worker : Nat} (h : next act s worker = some t) :
    t.left.flatten.length < s.left.flatten.length := by
  obtain ⟨task, dropped, hPerm, -, -⟩ := next_moves h
  rw [hPerm.length_eq, List.length_append, List.length_cons]
  omega

/-- A failure is not forgotten. -/
theorem failed_execute (turns : List Nat) (hFailed : s.failed = true)
    (hRun : execute (next act) s turns = some t) : t.failed = true := by
  have hStep : ∀ (u : State Task Out Shared) (worker : Nat) v, u.failed = true →
      next act u worker = some v → v.failed = true := by
    intro u worker v hu hNext
    obtain ⟨task, dropped, -, -, ⟨-, -, -, -, hKept⟩ | ⟨-, -, hNow⟩⟩ := next_moves hNext
    · exact hKept.trans hu
    · exact hNow
  exact invariant_execute hStep turns s t hFailed hRun

/-- What every task of the start keeps holds at the end. -/
theorem invariant_of_tasks {P : State Task Out Shared → Prop}
    (hKeep : ∀ (u v : State Task Out Shared) task, task ∈ s.left.flatten → P u →
      v.shared = (act task u.shared).1 →
      ((∃ out, (act task u.shared).2 = some out ∧ v.done = u.done ++ [out]) ∨ v.done = u.done) → P v)
    (turns : List Nat) (hStart : P s) (hRun : execute (next act) s turns = some t) : P t := by
  have hStep : ∀ (u : State Task Out Shared) (worker : Nat) v,
      u.left.flatten ⊆ s.left.flatten ∧ P u → next act u worker = some v →
      v.left.flatten ⊆ s.left.flatten ∧ P v := by
    rintro u worker v ⟨hLeft, hHolds⟩ hNext
    obtain ⟨task, dropped, hPerm, hShared, hCase⟩ := next_moves hNext
    refine ⟨fun other hOther => hLeft (hPerm.mem_iff.mpr (List.mem_append_right _ hOther)), ?_⟩
    apply hKeep u v task (hLeft (hPerm.mem_iff.mpr List.mem_cons_self)) hHolds hShared
    rcases hCase with ⟨out, hOut, -, hLog, -⟩ | ⟨-, hLog, -⟩
    · exact .inl ⟨out, hOut, hLog⟩
    · exact .inr hLog
  exact (invariant_execute hStep turns s t ⟨List.Subset.refl _, hStart⟩ hRun).2

/-- Some worker can go on as long as a task is left. -/
theorem exists_next (act : Task → Shared → Shared × Option Out) (h : ¬s.Over) : ∃ worker t, next act s worker = some t := by
  have hSome : ∃ tasks ∈ s.left, tasks ≠ [] := by
    by_contra hNone
    push Not at hNone
    exact h (List.flatten_eq_nil_iff.mpr hNone)
  obtain ⟨tasks, hMem, hTasks⟩ := hSome
  obtain ⟨worker, hWorker⟩ := List.getElem?_of_mem hMem
  obtain ⟨task, rest, rfl⟩ := List.exists_cons_of_ne_nil hTasks
  refine ⟨worker, ?_⟩
  simp only [next, hWorker]
  split
  · exact ⟨_, rfl⟩
  · exact ⟨_, rfl⟩

/-- The workers come to their end. -/
theorem exists_over (act : Task → Shared → Shared × Option Out) (s : State Task Out Shared) :
    ∃ turns t, execute (next act) s turns = some t ∧ t.Over := by
  generalize hLength : s.left.flatten.length = n
  induction n using Nat.strongRecOn generalizing s with
  | ind n ih =>
      by_cases hOver : s.Over
      · exact ⟨[], s, rfl, hOver⟩
      · obtain ⟨worker, middle, hNext⟩ := exists_next act hOver
        obtain ⟨turns, t, hRun, hEnd⟩ := ih _ (hLength ▸ left_lt hNext) middle rfl
        refine ⟨worker :: turns, t, ?_, hEnd⟩
        rw [execute_cons, hNext, Option.bind_some, hRun]

end Runs

section Independence

variable {act : Task → Shared → Shared × Option Out} {Ready Done : Task → Shared → Prop}
variable {value : Task → Option Out} {Keep : Shared → Prop}

/-- After some turns: the tasks that are not left are those that went through, in the order of
the log, unless one failed. -/
structure Inv (Ready Done : Task → Shared → Prop) (value : Task → Option Out) (Keep : Shared → Prop)
    (all : List Task) (failed : Bool) (s : State Task Out Shared) : Prop where
  subset : ∀ task ∈ s.left.flatten, task ∈ all
  nodup : s.left.flatten.Nodup
  ready : ∀ task ∈ s.left.flatten, Ready task s.shared
  keep : Keep s.shared
  through : s.failed = false → ∃ past : List Task, (past ++ s.left.flatten).Perm all ∧
    s.done.map some = past.map value ∧ ∀ task ∈ past, Done task s.shared
  calm : (∀ task ∈ all, (value task).isSome = true) → s.failed = failed

variable {all : List Task} {failed : Bool} {s t : State Task Out Shared}

theorem Inv.next (hIndep : Independent act Ready Done value Keep) (hAll : all.Nodup) {worker : Nat}
    (h : Inv Ready Done value Keep all failed s) (hNext : next act s worker = some t) :
    Inv Ready Done value Keep all failed t := by
  obtain ⟨task, dropped, hPerm, hShared, hCase⟩ := next_moves hNext
  have hTask : task ∈ s.left.flatten := hPerm.mem_iff.mpr List.mem_cons_self
  have hReady := h.ready task hTask
  have hValue := hIndep.value_eq task s.shared hReady
  have hStill : ∀ other ∈ t.left.flatten, other ∈ s.left.flatten :=
    fun other hOther => hPerm.mem_iff.mpr (List.mem_append_right _ hOther)
  have hNodup := hPerm.nodup_iff.mp h.nodup
  rw [List.nodup_append] at hNodup
  obtain ⟨-, hRest, hApart⟩ := hNodup
  refine ⟨fun other hOther => h.subset other (hStill other hOther), hRest, ?_, ?_, ?_, ?_⟩
  · intro other hOther
    rw [hShared]
    exact hIndep.ready_of_ne other task _ (hApart task List.mem_cons_self other hOther).symm hReady
      (h.ready other (hStill other hOther))
  · rw [hShared]
    exact hIndep.keep task _ hReady h.keep
  · intro hNot
    rcases hCase with ⟨out, hOut, rfl, hDone, hFailed⟩ | ⟨-, -, hFailed⟩
    · obtain ⟨past, hPast, hLog, hThrough⟩ := h.through (hFailed ▸ hNot)
      have hOther : ∀ other ∈ past, other ≠ task := by
        have hBoth := hPast.nodup_iff.mpr hAll
        rw [List.nodup_append] at hBoth
        exact fun other hMem => hBoth.2.2 other hMem task hTask
      rw [hValue] at hOut
      refine ⟨past ++ [task], ?_, ?_, ?_⟩
      · rw [List.append_assoc]
        exact (hPerm.symm.append_left past).trans hPast
      · rw [hDone, List.map_append, hLog, List.map_append, List.map_singleton, List.map_singleton,
          hOut]
      · intro other hMem
        rw [hShared]
        rcases List.mem_append.mp hMem with hOld | hNew
        · exact hIndep.done_of_ne other task _ (hOther other hOld) hReady (hThrough other hOld)
        · rw [List.mem_singleton.mp hNew]
          exact hIndep.done task _ hReady (by rw [hOut]; rfl)
    · rw [hFailed] at hNot
      cases hNot
  · intro hGood
    rcases hCase with ⟨-, -, -, -, hFailed⟩ | ⟨hOut, -, -⟩
    · rw [hFailed]
      exact h.calm hGood
    · have hSome := hGood task (h.subset task hTask)
      rw [← hValue, hOut] at hSome
      cases hSome

/-- Workers that start on tasks of their own. -/
theorem Inv.execute (hIndep : Independent act Ready Done value Keep) (turns : List Nat)
    (hNodup : s.left.flatten.Nodup) (hReady : ∀ task ∈ s.left.flatten, Ready task s.shared)
    (hKeep : Keep s.shared) (hFresh : s.done = [])
    (hRun : execute (Crew.next act) s turns = some t) :
    Inv Ready Done value Keep s.left.flatten s.failed t := by
  have hStart : Inv Ready Done value Keep s.left.flatten s.failed s := by
    refine ⟨fun _ h => h, hNodup, hReady, hKeep, fun _ => ⟨[], List.Perm.refl _, ?_, nofun⟩,
      fun _ => rfl⟩
    rw [hFresh]
    rfl
  exact invariant_execute (fun _ _ _ h hNext => h.next hIndep hNodup hNext) turns s t hStart hRun

/-- When all workers are at their end and none failed, every task went through once. -/
theorem Inv.over (h : Inv Ready Done value Keep all failed t) (hOver : t.Over)
    (hFine : t.failed = false) :
    t.done.Perm (all.filterMap value) ∧
      ∀ task ∈ all, (value task).isSome = true ∧ Done task t.shared := by
  obtain ⟨past, hPerm, hLog, hDone⟩ := h.through hFine
  rw [hOver, List.append_nil] at hPerm
  have hFilter : past.filterMap value = t.done := by
    have hIds := congrArg (List.filterMap id) hLog
    rw [List.filterMap_map, List.filterMap_map] at hIds
    simpa using hIds.symm
  refine ⟨?_, fun task hTask => ?_⟩
  · rw [← hFilter]
    exact hPerm.filterMap value
  · have hPast := hPerm.mem_iff.mpr hTask
    have hValue : value task ∈ t.done.map some := hLog ▸ List.mem_map_of_mem hPast
    obtain ⟨out, -, hOut⟩ := List.mem_map.mp hValue
    exact ⟨by rw [← hOut]; rfl, hDone task hPast⟩

end Independence

end Crew
