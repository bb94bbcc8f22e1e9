import Mathlib.Algebra.Order.Ring.Nat
import Mathlib.Data.List.Basic
import Mathlib.Data.List.Perm.Basic

/-! A queue and workers that empty it. An item is a list of tasks: a worker takes the item
at the front and carries out its tasks one after the other. Whatever the workers' turns
are, the tasks carried out and those still to come are the tasks that were put in. -/
namespace WorkerPool

universe u v
variable {Item : Type u} {Task : Type v}

/-- The queue, and what is left to each worker of the item it took. -/
structure Pool (Item : Type u) (Task : Type v) where
  queue : List Item
  workers : List (List Task)

namespace Pool

def start (count : Nat) : Pool Item Task := ⟨[], List.replicate count []⟩

variable (pool : Pool Item Task) (tasks : Item → List Task)

def push (item : Item) : Pool Item Task := { pool with queue := pool.queue ++ [item] }

/-- A worker without work takes the first item. -/
def pop (worker : Nat) : Option (Pool Item Task) :=
  match pool.queue, pool.workers[worker]? with
  | item :: rest, some [] => some ⟨rest, pool.workers.set worker (tasks item)⟩
  | _, _ => none

/-- A worker carries out its next task. -/
def work (worker : Nat) : Option (Task × Pool Item Task) :=
  match pool.workers[worker]? with
  | some (task :: more) => some (task, { pool with workers := pool.workers.set worker more })
  | _ => none

/-- The items put in and not finished. -/
def load : Nat := pool.queue.length + (pool.workers.filter fun left => !left.isEmpty).length

/-- Nothing is left to do. -/
def resting : Bool := pool.queue.isEmpty && pool.workers.all List.isEmpty

/-- The tasks still to come. -/
def pending : List Task := pool.workers.flatten ++ pool.queue.flatMap tasks

end Pool

/-- The front of what is left to a worker, beside all the rest. -/
theorem flatten_perm_set {workers : List (List Task)} {worker : Nat} {front left : List Task}
    (h : workers[worker]? = some (front ++ left)) :
    workers.flatten.Perm (front ++ (workers.set worker left).flatten) := by
  induction workers generalizing worker with
  | nil => cases h
  | cons first rest ih =>
      cases worker with
      | zero =>
          cases h
          simp only [List.set_cons_zero, List.flatten_cons, List.append_assoc]
          exact List.Perm.refl _
      | succ worker =>
          rw [List.set_cons_succ, List.flatten_cons, List.flatten_cons]
          refine ((ih h).append_left first).trans ?_
          rw [← List.append_assoc, ← List.append_assoc]
          exact List.perm_append_comm.append_right _

variable {pool pool' : Pool Item Task} {tasks : Item → List Task} {worker : Nat}

theorem pending_start (count : Nat) : (Pool.start count : Pool Item Task).pending tasks = [] := by
  simp [Pool.start, Pool.pending]

theorem pending_push (item : Item) :
    (pool.push item).pending tasks = pool.pending tasks ++ tasks item := by
  simp [Pool.push, Pool.pending]

/-- An item that is taken moves from the queue to the worker. -/
theorem pending_pop (h : pool.pop tasks worker = some pool') :
    (pool'.pending tasks).Perm (pool.pending tasks) := by
  rw [Pool.pop] at h
  split at h
  · rename_i item rest hQueue hWorker
    cases h
    obtain ⟨hLt, hIdle⟩ := List.getElem?_eq_some_iff.mp hWorker
    have hKept := List.set_getElem_self hLt
    rw [hIdle] at hKept
    have hTaken : (pool.workers.set worker (tasks item))[worker]? = some (tasks item ++ []) := by
      rw [List.getElem?_set_self hLt, List.append_nil]
    have hPerm := flatten_perm_set hTaken
    rw [List.set_set, hKept] at hPerm
    simp only [Pool.pending, hQueue, List.flatMap_cons]
    refine (hPerm.append_right _).trans ?_
    rw [← List.append_assoc]
    exact List.perm_append_comm.append_right _
  · cases h

/-- A task that is carried out is no longer to come. -/
theorem pending_work {task : Task} (h : pool.work worker = some (task, pool')) :
    (pool.pending tasks).Perm (task :: pool'.pending tasks) := by
  rw [Pool.work] at h
  split at h
  · rename_i more hWorker
    cases h
    have hPerm : pool.workers.flatten.Perm ([task] ++ (pool.workers.set worker more).flatten) :=
      flatten_perm_set hWorker
    exact hPerm.append_right _
  · cases h

theorem resting_iff : pool.resting = true ↔ pool.queue = [] ∧ ∀ left ∈ pool.workers, left = [] := by
  simp [Pool.resting]

theorem pending_resting (h : pool.resting = true) : pool.pending tasks = [] := by
  rw [resting_iff] at h
  rw [Pool.pending, h.1, List.flatMap_nil, List.append_nil, List.flatten_eq_nil_iff]
  exact h.2

/-- Nothing moves any more in a pool at rest. -/
theorem pop_resting (h : pool.resting = true) : pool.pop tasks worker = none := by
  rw [Pool.pop, (resting_iff.mp h).1]

theorem work_resting (h : pool.resting = true) : pool.work worker = none := by
  rw [Pool.work]
  split
  · rename_i task more hWorker
    exact nomatch (resting_iff.mp h).2 _ (List.mem_of_getElem? hWorker)
  · rfl

end WorkerPool
