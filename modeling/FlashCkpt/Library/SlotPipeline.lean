import FlashCkpt.Library.BoundedQueue
import FlashCkpt.Library.Transition
import FlashCkpt.Library.WorkerPool
import Mathlib.Algebra.BigOperators.Group.List.Basic
import Mathlib.Data.List.Count
import Mathlib.Data.List.Nodup
import Mathlib.Data.List.Perm.Basic

/-! A producer that fills the slots of a pool and hands them to workers through a bounded queue.
Pool and queue stand under a mutex each, and a thread that finds nothing there sleeps until it
is woken, by a signal or by chance, and then looks again. A slot goes from the pool to the
producer, to the queue, to a worker and back to the pool. -/
namespace SlotPipeline

open Transition BoundedQueue

variable {Task Seen Carry Payload Found : Type}

/-- What becomes of an item: the worker is done with it, fails on it, or drops it because of an
error that was shared. -/
inductive Fate where
  | done
  | failed
  | dropped
  deriving DecidableEq, Repr

/-- What the producer makes of a task, with what is carried on to the next one; what a worker
makes of an item; the bytes it counts; and whether the threads share an error. -/
structure Code (Task Seen Carry Payload Found : Type) where
  fill : Carry → Task → Seen → Option (Payload × Carry)
  fate : Bool → Payload → Found → Fate
  size : Payload → Nat
  shares : Bool
  blank : Payload

/-- The code with the tasks of a run and the sizes of pool, queue and crew. -/
structure Setup (Task Seen Carry Payload Found : Type) extends
    Code Task Seen Carry Payload Found where
  tasks : List Task
  carry : Carry
  slots : Nat
  capacity : Nat
  workers : Nat

/-- What goes through the queue, with the number of its task and its slot. -/
structure Item (Payload : Type) where
  ticket : Nat
  slot : Nat
  payload : Payload
  deriving DecidableEq, Repr

def Item.hold (item : Item Payload) : Nat × Nat := (item.ticket, item.slot)

inductive Producer (Payload : Type) where
  | loop
  | acquire
  | awaitsSlot
  | fills (slot : Nat)
  | givesBack (slot : Nat)
  | pushes (item : Item Payload)
  | awaitsRoom (item : Item Payload)
  | close
  | joins
  | ended
  deriving DecidableEq, Repr

inductive Place (Payload : Type) where
  | pop
  | awaitsItem
  | handles (item : Item Payload)
  | releases (item : Item Payload)
  | ended
  deriving DecidableEq, Repr

structure Worker (Payload : Type) where
  place : Place Payload
  bytes : Nat
  err : Bool
  deriving DecidableEq, Repr

/-- The shared state and the places of the threads, with the slots taken and given back so far,
each for its task, and the items put into the queue and taken out of it. -/
structure State (Carry Payload : Type) where
  pool : SlotPool
  queue : Queue (Item Payload)
  sharedErr : Bool
  err : Bool
  producer : Producer Payload
  ticket : Nat
  carry : Carry
  workers : List (Worker Payload)
  acquired : List (Nat × Nat)
  released : List (Nat × Nat)
  pushed : List (Item Payload)
  popped : List (Item Payload)

/-- A step of the producer, with the worker that its signal wakes; the end of its work on a
slot; a worker's turn at queue or pool; the end of its work on an item; a shared error; and a
thread that wakes by chance. -/
inductive Label (Seen Found : Type) where
  | produce (woken : Nat)
  | fill (seen : Seen)
  | turn (worker : Nat)
  | handle (worker : Nat) (found : Found)
  | share
  | wakeProducer
  | wakeWorker (worker : Nat)

def Producer.slotFreed : Producer Payload → Producer Payload
  | .awaitsSlot => .acquire
  | p => p

def Producer.roomMade : Producer Payload → Producer Payload
  | .awaitsRoom item => .pushes item
  | p => p

def Worker.asleep (w : Worker Payload) : Bool :=
  match w.place with
  | .awaitsItem => true
  | _ => false

def Worker.gone (w : Worker Payload) : Bool :=
  match w.place with
  | .ended => true
  | _ => false

def Worker.wake (w : Worker Payload) : Worker Payload :=
  if w.asleep then { w with place := .pop } else w

/-- A signal wakes one of the workers that sleep, if there is one. -/
def signal (workers : List (Worker Payload)) (woken : Nat) : Option (List (Worker Payload)) :=
  if workers.any Worker.asleep then
    workers[woken]?.bind fun w => if w.asleep then some (workers.set woken w.wake) else none
  else some workers

/-- A worker that finds nothing in the queue. -/
def Worker.rest (w : Worker Payload) (closed : Bool) : Worker Payload :=
  { w with place := if closed then .ended else .awaitsItem }

/-- A worker after its work on an item. -/
def Worker.finish (w : Worker Payload) (size : Nat) (item : Item Payload) : Fate → Worker Payload
  | .done => { w with place := .releases item, bytes := w.bytes + size }
  | .failed => { w with place := .releases item, err := true }
  | .dropped => { w with place := .releases item }

section System

variable (p : Setup Task Seen Carry Payload Found)

def start : State Carry Payload where
  pool := .init p.slots
  queue := .init ⟨0, 0, p.blank⟩ p.capacity
  sharedErr := false
  err := false
  producer := .loop
  ticket := 0
  carry := p.carry
  workers := List.replicate p.workers ⟨.pop, 0, false⟩
  acquired := []
  released := []
  pushed := []
  popped := []

def produce (s : State Carry Payload) (woken : Nat) : Option (State Carry Payload) :=
  match s.producer with
  | .loop => some { s with
      producer :=
        if s.ticket < p.tasks.length ∧ s.err = false ∧ s.sharedErr = false then .acquire
        else .close }
  | .acquire =>
      match s.pool.acquire with
      | none => some { s with producer := .awaitsSlot }
      | some (slot, pool) => some { s with
          pool := pool
          producer := .fills slot
          acquired := s.acquired ++ [(s.ticket, slot)] }
  | .givesBack slot => some { s with
      pool := s.pool.release slot
      err := true
      producer := .close
      released := s.released ++ [(s.ticket, slot)] }
  | .pushes item =>
      if s.queue.count = s.queue.capacity then some { s with producer := .awaitsRoom item }
      else (signal s.workers woken).map fun workers => { s with
        queue := s.queue.push item
        producer := .loop
        ticket := s.ticket + 1
        workers := workers
        pushed := s.pushed ++ [item] }
  | .close => some { s with
      queue := s.queue.close
      producer := .joins
      workers := s.workers.map Worker.wake }
  | .joins =>
      if s.workers.all Worker.gone then some { s with
        producer := .ended
        err := s.err || s.sharedErr || s.workers.any (·.err) }
      else none
  | .awaitsSlot | .fills _ | .awaitsRoom _ | .ended => none

def fill (s : State Carry Payload) (seen : Seen) : Option (State Carry Payload) :=
  match s.producer with
  | .fills slot =>
      p.tasks[s.ticket]?.map fun task =>
        match p.fill s.carry task seen with
        | none => { s with producer := .givesBack slot }
        | some (payload, carry) => { s with
            producer := .pushes ⟨s.ticket, slot, payload⟩
            carry := carry }
  | _ => none

def turn (s : State Carry Payload) (i : Nat) (w : Worker Payload) : Option (State Carry Payload) :=
  match w.place with
  | .pop =>
      if s.queue.count = 0 then
        some { s with workers := s.workers.set i (w.rest s.queue.closed) }
      else some { s with
        queue := s.queue.pop
        producer := s.producer.roomMade
        workers := s.workers.set i { w with place := .handles s.queue.front }
        popped := s.popped ++ [s.queue.front] }
  | .releases item => some { s with
      pool := s.pool.release item.slot
      producer := s.producer.slotFreed
      workers := s.workers.set i { w with place := .pop }
      released := s.released ++ [item.hold] }
  | .awaitsItem | .handles _ | .ended => none

def handle (s : State Carry Payload) (i : Nat) (w : Worker Payload) (found : Found) :
    Option (State Carry Payload) :=
  match w.place with
  | .handles item => some { s with
      workers := s.workers.set i
        (w.finish (p.size item.payload) item (p.fate s.sharedErr item.payload found)) }
  | _ => none

def next (s : State Carry Payload) : Label Seen Found → Option (State Carry Payload)
  | .produce woken => produce p s woken
  | .fill seen => fill p s seen
  | .turn i => s.workers[i]?.bind (turn s i)
  | .handle i found => s.workers[i]?.bind fun w => handle p s i w found
  | .share => if p.shares then some { s with sharedErr := true } else none
  | .wakeProducer => some { s with producer := s.producer.slotFreed.roomMade }
  | .wakeWorker i => s.workers[i]?.map fun w => { s with workers := s.workers.set i w.wake }

end System

def Producer.holds (ticket : Nat) : Producer Payload → List (Nat × Nat)
  | .fills slot | .givesBack slot => [(ticket, slot)]
  | .pushes item | .awaitsRoom item => [item.hold]
  | _ => []

def Place.holds : Place Payload → List (Nat × Nat)
  | .handles item | .releases item => [item.hold]
  | _ => []

/-- The slots that are with a thread or in the queue, each with its task. -/
def State.inFlight (s : State Carry Payload) : List (Nat × Nat) :=
  s.producer.holds s.ticket ++
    (s.queue.contents.map Item.hold ++ s.workers.flatMap fun w => w.place.holds)

/-- A slot is free or with one item, and one that was taken has been given back or is with an
item. -/
structure Owned (slots : Nat) (pool : SlotPool) (acquired released inFlight : List (Nat × Nat)) :
    Prop where
  apart : (pool.free ++ inFlight.map Prod.snd).Perm (List.range slots)
  paired : acquired.Perm (released ++ inFlight)

/-- What the queue holds are the items put in and not taken out yet. -/
structure Queued (capacity : Nat) (queue : Queue (Item Payload)) (pushed popped : List (Item Payload)) :
    Prop where
  turned : queue.Turned popped.length pushed.length
  capacity : queue.capacity = capacity
  fifo : pushed = popped ++ queue.contents

section Steps

variable {slots ticket slot : Nat} {pool pool' : SlotPool}
  {acquired released inFlight inFlight' : List (Nat × Nat)}

theorem Owned.passed (h : Owned slots pool acquired released inFlight)
    (hPerm : inFlight.Perm inFlight') : Owned slots pool acquired released inFlight' where
  apart := ((hPerm.map Prod.snd).symm.append_left _).trans h.apart
  paired := h.paired.trans (hPerm.append_left _)

theorem Owned.acquire (h : Owned slots pool acquired released inFlight)
    (hAcquire : pool.acquire = some (slot, pool'))
    (hPerm : inFlight'.Perm ((ticket, slot) :: inFlight)) :
    Owned slots pool' (acquired ++ [(ticket, slot)]) released inFlight' where
  apart := by
    have hApart := h.apart
    rw [(SlotPool.free_acquire hAcquire).1, List.append_assoc] at hApart
    exact ((hPerm.map Prod.snd).append_left _).trans hApart
  paired := by
    refine (h.paired.append_right _).trans ?_
    rw [List.append_assoc]
    exact (List.perm_append_comm.trans hPerm.symm).append_left _

theorem Owned.release (h : Owned slots pool acquired released inFlight)
    (hPerm : inFlight.Perm ((ticket, slot) :: inFlight')) :
    Owned slots (pool.release slot) acquired (released ++ [(ticket, slot)]) inFlight' where
  apart := by
    rw [SlotPool.free_release, List.append_assoc]
    exact ((hPerm.map Prod.snd).symm.append_left _).trans h.apart
  paired := by
    rw [List.append_assoc]
    exact h.paired.trans (hPerm.append_left _)

variable {capacity : Nat} {queue : Queue (Item Payload)} {pushed popped : List (Item Payload)}

theorem Queued.push (h : Queued capacity queue pushed popped) (hRoom : queue.count ≠ queue.capacity)
    (item : Item Payload) : Queued capacity (queue.push item) (pushed ++ [item]) popped := by
  have hLess : queue.count < queue.capacity := Nat.lt_of_le_of_ne h.turned.bound hRoom
  refine ⟨?_, h.capacity, ?_⟩
  · rw [List.length_append]
    exact h.turned.push hLess item
  · rw [Queue.contents_push h.turned hLess, ← List.append_assoc, ← h.fifo]

theorem Queued.pop (h : Queued capacity queue pushed popped) (hItem : queue.count ≠ 0) :
    Queued capacity queue.pop pushed (popped ++ [queue.front]) := by
  have hPos := Nat.pos_of_ne_zero hItem
  refine ⟨?_, h.capacity, ?_⟩
  · rw [List.length_append]
    exact h.turned.pop hPos
  · rw [List.append_assoc]
    exact h.fifo.trans (congrArg (popped ++ ·) (Queue.contents_pop h.turned hPos))

theorem Queued.close (h : Queued capacity queue pushed popped) :
    Queued capacity queue.close pushed popped :=
  ⟨h.turned.close, h.capacity, h.fifo⟩

end Steps

/-- One of several lists exchanged for another one. -/
theorem flatMap_perm_set {α β : Type} (f : α → List β) {l : List α} {i : Nat} {a : α} (b : α)
    (h : l[i]? = some a) : (f a ++ (l.set i b).flatMap f).Perm (f b ++ l.flatMap f) := by
  obtain ⟨hLess, -⟩ := List.getElem?_eq_some_iff.mp h
  have hOldAt : (l.map f)[i]? = some (f a ++ []) := by
    rw [List.getElem?_map, h, List.append_nil, Option.map_some]
  have hNewAt : ((l.set i b).map f)[i]? = some (f b ++ []) := by
    rw [List.getElem?_map, List.getElem?_set_self hLess, List.append_nil, Option.map_some]
  have hOld := WorkerPool.flatten_perm_set hOldAt
  have hNew := WorkerPool.flatten_perm_set hNewAt
  rw [List.map_set, List.set_set] at hNew
  rw [List.flatMap_def, List.flatMap_def, List.map_set]
  refine (hNew.append_left _).trans (List.Perm.trans ?_ (hOld.append_left _).symm)
  rw [← List.append_assoc, ← List.append_assoc]
  exact List.perm_append_comm.append_right _

theorem sum_map_set {α : Type} (f : α → Nat) {l : List α} {i : Nat} {a : α} (b : α)
    (h : l[i]? = some a) : f a + ((l.set i b).map f).sum = f b + (l.map f).sum := by
  have hLength := (flatMap_perm_set (fun x => List.replicate (f x) ()) b h).length_eq
  simpa [List.length_flatMap] using hLength

/-- The crew: nobody sleeps once the queue is closed, nobody is gone before, and an item that
waits has somebody who comes for it. -/
structure Manned (n : Nat) (workers : List (Worker Payload)) (closed : Bool) (count : Nat) : Prop where
  crew : workers.length = n
  asleep : ∀ w ∈ workers, w.asleep = true → closed = false
  gone : ∀ w ∈ workers, w.gone = true → closed = true ∧ count = 0
  awake : 0 < n → count ≠ 0 → ∃ w ∈ workers, w.asleep = false ∧ w.gone = false

section Crew

variable {n count count' i : Nat} {closed : Bool} {workers workers' : List (Worker Payload)}
  {w w' : Worker Payload}

@[simp] theorem Worker.asleep_wake (w : Worker Payload) : w.wake.asleep = false := by
  rw [Worker.wake]
  split
  · rfl
  · rename_i h
    exact Bool.eq_false_iff.mpr h

theorem Worker.wake_eq (h : w.asleep = false) : w.wake = w := by simp [Worker.wake, h]

@[simp] theorem Worker.gone_wake (w : Worker Payload) : w.wake.gone = w.gone := by
  obtain ⟨place, _, _⟩ := w
  cases place <;> rfl

theorem Worker.here_of_asleep (h : w.asleep = true) : w.gone = false := by
  obtain ⟨place, _, _⟩ := w
  cases place with
  | ended => cases h
  | _ => rfl

@[simp] theorem Worker.holds_wake (w : Worker Payload) : w.wake.place.holds = w.place.holds := by
  obtain ⟨place, _, _⟩ := w
  cases place <;> rfl

/-- A worker turns to something that it does not sleep over. -/
theorem Manned.busy (h : Manned n workers closed count) (hLess : i < workers.length)
    (hAwake : w'.asleep = false) (hHere : w'.gone = false) (hCount : count = 0 → count' = 0) :
    Manned n (workers.set i w') closed count' where
  crew := by rw [List.length_set, h.crew]
  asleep := by
    intro v hv hAsleep
    rcases List.mem_or_eq_of_mem_set hv with hOld | rfl
    · exact h.asleep v hOld hAsleep
    · rw [hAwake] at hAsleep
      cases hAsleep
  gone := by
    intro v hv hGone
    rcases List.mem_or_eq_of_mem_set hv with hOld | rfl
    · exact (h.gone v hOld hGone).imp_right hCount
    · rw [hHere] at hGone
      cases hGone
  awake := fun _ _ => ⟨w', List.mem_set hLess w', hAwake, hHere⟩

/-- A worker that finds nothing in the queue sleeps, or goes if there will be nothing. -/
theorem Manned.rest (h : Manned n workers closed 0) (w : Worker Payload) :
    Manned n (workers.set i (w.rest closed)) closed 0 where
  crew := by rw [List.length_set, h.crew]
  asleep := by
    intro v hv hAsleep
    rcases List.mem_or_eq_of_mem_set hv with hOld | rfl
    · exact h.asleep v hOld hAsleep
    · cases closed with
      | false => rfl
      | true => cases hAsleep
  gone := by
    intro v hv hGone
    rcases List.mem_or_eq_of_mem_set hv with hOld | rfl
    · exact h.gone v hOld hGone
    · cases closed with
      | false => cases hGone
      | true => exact ⟨rfl, rfl⟩
  awake := fun _ hItem => absurd rfl hItem

theorem Manned.wakes (h : Manned n workers closed count) (hWorker : workers[i]? = some w) :
    Manned n (workers.set i w.wake) closed count := by
  obtain ⟨hLess, hHere⟩ := List.getElem?_eq_some_iff.mp hWorker
  by_cases hAsleep : w.asleep = true
  · exact h.busy hLess w.asleep_wake (w.gone_wake.trans (Worker.here_of_asleep hAsleep)) id
  · rw [Worker.wake_eq (Bool.eq_false_iff.mpr hAsleep), ← hHere, List.set_getElem_self]
    exact h

/-- An item is put in, and a worker that sleeps is woken for it. -/
theorem Manned.push (h : Manned n workers false count) {woken : Nat}
    (hSignal : signal workers woken = some workers') : Manned n workers' false (count + 1) := by
  have hNone : ∀ v ∈ workers, v.gone = false := by
    intro v hv
    by_contra hGone
    cases (h.gone v hv (Bool.not_eq_false _ ▸ hGone)).1
  rw [signal] at hSignal
  split at hSignal
  · obtain ⟨w, hWorker, hWoken⟩ := Option.bind_eq_some_iff.mp hSignal
    split at hWoken
    · cases hWoken
      obtain ⟨hLess, hHere⟩ := List.getElem?_eq_some_iff.mp hWorker
      have hKept := h.wakes hWorker
      refine ⟨hKept.crew, hKept.asleep, ?_, fun _ _ => ⟨w.wake, List.mem_set hLess _, w.asleep_wake, ?_⟩⟩
      · intro v hv hGone
        cases (hKept.gone v hv hGone).1
      · rw [w.gone_wake]
        exact hNone w (List.mem_of_getElem? hWorker)
    · cases hWoken
  · rename_i hAwake
    cases hSignal
    refine ⟨h.crew, h.asleep, ?_, fun hPos _ => ?_⟩
    · intro v hv hGone
      cases (h.gone v hv hGone).1
    · obtain ⟨v, hv⟩ := List.exists_mem_of_length_pos (h.crew ▸ hPos)
      refine ⟨v, hv, ?_, hNone v hv⟩
      by_contra hAsleep
      exact hAwake (List.any_eq_true.mpr ⟨v, hv, Bool.not_eq_false _ ▸ hAsleep⟩)

theorem Manned.close (h : Manned n workers false count) :
    Manned n (workers.map Worker.wake) true count where
  crew := by rw [List.length_map, h.crew]
  asleep := by
    intro v hv hAsleep
    obtain ⟨w, -, rfl⟩ := List.mem_map.mp hv
    rw [w.asleep_wake] at hAsleep
    cases hAsleep
  gone := by
    intro v hv hGone
    obtain ⟨w, hw, rfl⟩ := List.mem_map.mp hv
    rw [w.gone_wake] at hGone
    cases (h.gone w hw hGone).1
  awake := by
    intro hPos hItem
    obtain ⟨w, hw, hAwake, hHere⟩ := h.awake hPos hItem
    exact ⟨w.wake, List.mem_map_of_mem hw, w.asleep_wake, w.gone_wake.trans hHere⟩

end Crew

/-- The queue is closed behind these places. -/
def Producer.closing : Producer Payload → Bool
  | .joins | .ended => true
  | _ => false

section Invariant

variable (p : Setup Task Seen Carry Payload Found)

/-- The place of the producer: it goes on as long as there are tasks, takes one slot for each,
and sleeps when no slot is free or the queue is full. -/
def ProducerAt (s : State Carry Payload) : Prop :=
  match s.producer with
  | .loop => s.acquired.length = s.ticket
  | .acquire => s.ticket < p.tasks.length ∧ s.acquired.length = s.ticket
  | .awaitsSlot => s.ticket < p.tasks.length ∧ s.acquired.length = s.ticket ∧ s.pool.nFree = 0
  | .fills _ | .givesBack _ => s.ticket < p.tasks.length ∧ s.acquired.length = s.ticket + 1
  | .pushes item =>
      s.ticket < p.tasks.length ∧ s.acquired.length = s.ticket + 1 ∧ item.ticket = s.ticket
  | .awaitsRoom item =>
      s.ticket < p.tasks.length ∧ s.acquired.length = s.ticket + 1 ∧ item.ticket = s.ticket ∧
        s.queue.count = s.queue.capacity
  | .close | .joins => True
  | .ended => ∀ w ∈ s.workers, w.gone = true

structure Inv (s : State Carry Payload) : Prop where
  owned : Owned p.slots s.pool s.acquired s.released s.inFlight
  queued : Queued p.capacity s.queue s.pushed s.popped
  tickets : s.acquired.map Prod.fst = List.range s.acquired.length
  sent : s.pushed.map Item.ticket = List.range s.ticket
  closed : s.queue.closed = s.producer.closing
  manned : Manned p.workers s.workers s.queue.closed s.queue.count
  producer : ProducerAt p s

theorem inv_start : Inv p (start p) where
  owned := by
    have hNone : (start p).inFlight = [] := by
      simp [start, State.inFlight, Producer.holds, Queue.contents, Queue.init, Place.holds]
    rw [hNone]
    refine ⟨?_, List.Perm.refl _⟩
    rw [List.map_nil, List.append_nil, start, SlotPool.free_init]
  queued := ⟨Queue.turned_init _ _, rfl, rfl⟩
  tickets := rfl
  sent := rfl
  closed := rfl
  manned := by
    refine ⟨List.length_replicate, ?_, ?_, fun _ hItem => absurd rfl hItem⟩
    · intro w _ _
      rfl
    · intro w hw hGone
      obtain rfl := List.eq_of_mem_replicate hw
      cases hGone
  producer := rfl

variable {p} {s t : State Carry Payload} {q : Producer Payload} {slot i : Nat} {w w' : Worker Payload}

/-- The producer takes a step on its own, and keeps the slot it has. -/
theorem Inv.goes (h : Inv p s) (hHolds : q.holds s.ticket = s.producer.holds s.ticket)
    (hClosing : q.closing = s.producer.closing) (hAt : ProducerAt p { s with producer := q }) :
    Inv p { s with producer := q } where
  owned := by
    have hOwned := h.owned
    rw [State.inFlight, ← hHolds] at hOwned
    exact hOwned
  queued := h.queued
  tickets := h.tickets
  sent := h.sent
  closed := h.closed.trans hClosing.symm
  manned := h.manned
  producer := hAt

/-- A flag of the producer, or what it carries, says nothing about the slots. -/
theorem Inv.noted (h : Inv p s) (sharedErr err : Bool) (carry : Carry) :
    Inv p { s with sharedErr := sharedErr, err := err, carry := carry } :=
  ⟨h.owned, h.queued, h.tickets, h.sent, h.closed, h.manned, h.producer⟩

theorem Inv.acquires {pool : SlotPool} (h : Inv p s) (hPlace : s.producer = .acquire)
    (hAcquire : s.pool.acquire = some (slot, pool)) :
    Inv p { s with
      pool := pool
      producer := .fills slot
      acquired := s.acquired ++ [(s.ticket, slot)] } := by
  obtain ⟨hMore, hLength⟩ : s.ticket < p.tasks.length ∧ s.acquired.length = s.ticket := by
    simpa only [ProducerAt, hPlace] using h.producer
  refine ⟨h.owned.acquire hAcquire ?_, h.queued, ?_, h.sent, ?_, h.manned, ?_⟩
  · rw [State.inFlight, State.inFlight, hPlace]
    exact List.Perm.refl _
  · rw [List.map_append, h.tickets, List.length_append, hLength]
    exact List.range_succ.symm
  · rw [h.closed, hPlace]
    rfl
  · exact ⟨hMore, by rw [List.length_append, hLength, List.length_singleton]⟩

theorem Inv.givesBack (h : Inv p s) (hPlace : s.producer = .givesBack slot) :
    Inv p { s with
      pool := s.pool.release slot
      err := true
      producer := .close
      released := s.released ++ [(s.ticket, slot)] } := by
  refine ⟨h.owned.release ?_, h.queued, h.tickets, h.sent, ?_, h.manned, trivial⟩
  · rw [State.inFlight, State.inFlight, hPlace]
    exact List.Perm.refl _
  · rw [h.closed, hPlace]
    rfl

theorem signal_holds {workers workers' : List (Worker Payload)} {woken : Nat}
    (h : signal workers woken = some workers') :
    (workers'.flatMap fun w => w.place.holds).Perm (workers.flatMap fun w => w.place.holds) := by
  rw [signal] at h
  split at h
  · obtain ⟨w, hWorker, hWoken⟩ := Option.bind_eq_some_iff.mp h
    split at hWoken
    · cases hWoken
      have hPerm := flatMap_perm_set (fun w : Worker Payload => w.place.holds) w.wake hWorker
      rw [w.holds_wake] at hPerm
      exact (List.perm_append_left_iff _).mp hPerm
    · cases hWoken
  · cases h
    exact List.Perm.refl _

theorem Inv.pushes {item : Item Payload} {workers : List (Worker Payload)} {woken : Nat}
    (h : Inv p s) (hPlace : s.producer = .pushes item) (hRoom : s.queue.count ≠ s.queue.capacity)
    (hSignal : signal s.workers woken = some workers) :
    Inv p { s with
      queue := s.queue.push item
      producer := .loop
      ticket := s.ticket + 1
      workers := workers
      pushed := s.pushed ++ [item] } := by
  obtain ⟨hMore, hLength, hTicket⟩ : s.ticket < p.tasks.length ∧
      s.acquired.length = s.ticket + 1 ∧ item.ticket = s.ticket := by
    simpa only [ProducerAt, hPlace] using h.producer
  have hOpen : s.queue.closed = false := by
    rw [h.closed, hPlace]
    rfl
  have hLess : s.queue.count < s.queue.capacity := Nat.lt_of_le_of_ne h.queued.turned.bound hRoom
  refine ⟨h.owned.passed ?_, h.queued.push hRoom item, h.tickets, ?_, hOpen, ?_, hLength⟩
  · simp only [State.inFlight, hPlace, Producer.holds, List.nil_append, List.map_append,
      Queue.contents_push h.queued.turned hLess, List.map_cons, List.map_nil, List.append_assoc]
    rw [← List.append_assoc, ← List.append_assoc]
    exact List.perm_append_comm.append (signal_holds hSignal).symm
  · rw [List.map_append, h.sent, List.map_singleton, hTicket]
    exact List.range_succ.symm
  · have hManned := h.manned
    rw [hOpen] at hManned
    rw [Queue.closed_push, hOpen]
    exact hManned.push hSignal

theorem Inv.closes (h : Inv p s) (hPlace : s.producer = .close) :
    Inv p { s with
      queue := s.queue.close
      producer := .joins
      workers := s.workers.map Worker.wake } := by
  have hOpen : s.queue.closed = false := by
    rw [h.closed, hPlace]
    rfl
  refine ⟨h.owned.passed ?_, h.queued.close, h.tickets, h.sent, rfl, ?_, trivial⟩
  · simp [State.inFlight, hPlace, Producer.holds, List.flatMap_map]
  · have hManned := h.manned
    rw [hOpen] at hManned
    exact hManned.close

@[simp] theorem holds_roomMade (q : Producer Payload) (ticket : Nat) :
    q.roomMade.holds ticket = q.holds ticket := by
  cases q <;> rfl

@[simp] theorem holds_slotFreed (q : Producer Payload) (ticket : Nat) :
    q.slotFreed.holds ticket = q.holds ticket := by
  cases q <;> rfl

@[simp] theorem closing_roomMade (q : Producer Payload) : q.roomMade.closing = q.closing := by
  cases q <;> rfl

@[simp] theorem closing_slotFreed (q : Producer Payload) : q.slotFreed.closing = q.closing := by
  cases q <;> rfl

/-- Woken by room in the queue, the producer looks again. -/
theorem ProducerAt.roomMade (h : ProducerAt p s) {queue : Queue (Item Payload)}
    {workers : List (Worker Payload)} (hGone : s.producer = .ended → ∀ w ∈ workers, w.gone = true)
    (popped : List (Item Payload)) :
    ProducerAt p { s with
      queue := queue
      producer := s.producer.roomMade
      workers := workers
      popped := popped } := by
  rw [ProducerAt] at h ⊢
  cases hPlace : s.producer with
  | awaitsRoom item =>
      rw [hPlace] at h
      exact ⟨h.1, h.2.1, h.2.2.1⟩
  | ended => exact hGone hPlace
  | _ =>
      rw [hPlace] at h
      exact h

/-- Woken by a free slot, the producer looks again. -/
theorem ProducerAt.slotFreed (h : ProducerAt p s) {pool : SlotPool} {workers : List (Worker Payload)}
    (hGone : s.producer = .ended → ∀ w ∈ workers, w.gone = true) (released : List (Nat × Nat)) :
    ProducerAt p { s with
      pool := pool
      producer := s.producer.slotFreed
      workers := workers
      released := released } := by
  rw [ProducerAt] at h ⊢
  cases hPlace : s.producer with
  | awaitsSlot =>
      rw [hPlace] at h
      exact ⟨h.1, h.2.1⟩
  | ended => exact hGone hPlace
  | _ =>
      rw [hPlace] at h
      exact h

/-- A worker that is here is not gone, so the producer is not over. -/
theorem Inv.not_over (h : Inv p s) (hWorker : s.workers[i]? = some w) (hHere : w.gone = false) :
    s.producer ≠ .ended := by
  intro hOver
  have hAll : ∀ w ∈ s.workers, w.gone = true := by
    simpa only [ProducerAt, hOver] using h.producer
  have hGone := hAll w (List.mem_of_getElem? hWorker)
  rw [hHere] at hGone
  cases hGone

/-- A worker takes a step on its own, and keeps the item it has. -/
theorem Inv.turns (h : Inv p s) (hWorker : s.workers[i]? = some w) (hHere : w.gone = false)
    (hHolds : w'.place.holds = w.place.holds)
    (hManned : Manned p.workers (s.workers.set i w') s.queue.closed s.queue.count) :
    Inv p { s with workers := s.workers.set i w' } := by
  refine ⟨h.owned.passed ?_, h.queued, h.tickets, h.sent, h.closed, hManned, ?_⟩
  · have hPerm := flatMap_perm_set (fun w : Worker Payload => w.place.holds) w' hWorker
    rw [hHolds] at hPerm
    exact ((((List.perm_append_left_iff _).mp hPerm).symm.append_left _).append_left _)
  · have hAt := h.producer
    have hNot := h.not_over hWorker hHere
    rw [ProducerAt] at hAt ⊢
    cases hPlace : s.producer with
    | ended => exact absurd hPlace hNot
    | _ =>
        rw [hPlace] at hAt
        exact hAt

theorem Inv.takes (h : Inv p s) (hWorker : s.workers[i]? = some w) (hPlace : w.place = .pop)
    (hItem : s.queue.count ≠ 0) :
    Inv p { s with
      queue := s.queue.pop
      producer := s.producer.roomMade
      workers := s.workers.set i { w with place := .handles s.queue.front }
      popped := s.popped ++ [s.queue.front] } := by
  obtain ⟨hLess, -⟩ := List.getElem?_eq_some_iff.mp hWorker
  have hHere : w.gone = false := by simp [Worker.gone, hPlace]
  refine ⟨h.owned.passed ?_, h.queued.pop hItem, h.tickets, h.sent, ?_, ?_,
    h.producer.roomMade (fun hOver => absurd hOver (h.not_over hWorker hHere)) _⟩
  · have hPerm := flatMap_perm_set (fun w : Worker Payload => w.place.holds)
      { w with place := .handles s.queue.front } hWorker
    simp only [hPlace, Place.holds, List.nil_append, List.singleton_append] at hPerm
    simp only [State.inFlight, holds_roomMade]
    rw [Queue.contents_pop h.queued.turned (Nat.pos_of_ne_zero hItem), List.map_cons,
      List.cons_append]
    exact (List.perm_middle.symm.trans (hPerm.symm.append_left _)).append_left _
  · rw [Queue.closed_pop, h.closed, closing_roomMade]
  · exact h.manned.busy hLess rfl rfl fun hZero => absurd hZero hItem

theorem Inv.releases {item : Item Payload} (h : Inv p s) (hWorker : s.workers[i]? = some w)
    (hPlace : w.place = .releases item) :
    Inv p { s with
      pool := s.pool.release item.slot
      producer := s.producer.slotFreed
      workers := s.workers.set i { w with place := .pop }
      released := s.released ++ [item.hold] } := by
  obtain ⟨hLess, -⟩ := List.getElem?_eq_some_iff.mp hWorker
  have hHere : w.gone = false := by simp [Worker.gone, hPlace]
  refine ⟨h.owned.release ?_, h.queued, h.tickets, h.sent, ?_, ?_,
    h.producer.slotFreed (fun hOver => absurd hOver (h.not_over hWorker hHere)) _⟩
  · have hPerm := flatMap_perm_set (fun w : Worker Payload => w.place.holds)
      { w with place := .pop } hWorker
    simp only [hPlace, Place.holds, List.nil_append, List.singleton_append] at hPerm
    simp only [State.inFlight, holds_slotFreed]
    rw [← List.append_assoc, ← List.append_assoc]
    exact (hPerm.symm.append_left _).trans List.perm_middle
  · rw [h.closed, closing_slotFreed]
  · exact h.manned.busy hLess rfl rfl id

theorem Inv.produces {woken : Nat} (h : Inv p s) (hNext : produce p s woken = some t) : Inv p t := by
  have hAt := h.producer
  rw [produce] at hNext
  split at hNext
  · rename_i hPlace
    cases hNext
    simp only [ProducerAt, hPlace] at hAt
    split
    · rename_i hLoop
      exact h.goes (by rw [hPlace]; rfl) (by rw [hPlace]; rfl) ⟨hLoop.1, hAt⟩
    · exact h.goes (by rw [hPlace]; rfl) (by rw [hPlace]; rfl) trivial
  · rename_i hPlace
    simp only [ProducerAt, hPlace] at hAt
    split at hNext
    · rename_i hNone
      cases hNext
      exact h.goes (by rw [hPlace]; rfl) (by rw [hPlace]; rfl)
        ⟨hAt.1, hAt.2, SlotPool.acquire_eq_none.mp hNone⟩
    · rename_i slot pool hSome
      cases hNext
      exact h.acquires hPlace hSome
  · rename_i slot hPlace
    cases hNext
    exact h.givesBack hPlace
  · rename_i item hPlace
    simp only [ProducerAt, hPlace] at hAt
    split at hNext
    · rename_i hFull
      cases hNext
      exact h.goes (by rw [hPlace]; rfl) (by rw [hPlace]; rfl) ⟨hAt.1, hAt.2.1, hAt.2.2, hFull⟩
    · rename_i hRoom
      obtain ⟨workers, hSignal, rfl⟩ := Option.map_eq_some_iff.mp hNext
      exact h.pushes hPlace hRoom hSignal
  · rename_i hPlace
    cases hNext
    exact h.closes hPlace
  · rename_i hPlace
    split at hNext
    · rename_i hGone
      cases hNext
      have hOver : Inv p { s with producer := .ended } :=
        h.goes (by rw [hPlace]; rfl) (by rw [hPlace]; rfl) (List.all_eq_true.mp hGone)
      exact hOver.noted s.sharedErr _ s.carry
    · cases hNext
  all_goals cases hNext

theorem Inv.fills {seen : Seen} (h : Inv p s) (hNext : fill p s seen = some t) : Inv p t := by
  have hAt := h.producer
  rw [fill] at hNext
  split at hNext
  · rename_i slot hPlace
    simp only [ProducerAt, hPlace] at hAt
    obtain ⟨task, -, hFilled⟩ := Option.map_eq_some_iff.mp hNext
    split at hFilled
    · subst hFilled
      exact h.goes (by rw [hPlace]; rfl) (by rw [hPlace]; rfl) hAt
    · rename_i payload carry hSome
      subst hFilled
      have hGoes : Inv p { s with producer := .pushes ⟨s.ticket, slot, payload⟩ } :=
        h.goes (by rw [hPlace]; rfl) (by rw [hPlace]; rfl) ⟨hAt.1, hAt.2, rfl⟩
      exact hGoes.noted s.sharedErr s.err carry
  · cases hNext

theorem Inv.turned (h : Inv p s) (hWorker : s.workers[i]? = some w) (hNext : turn s i w = some t) :
    Inv p t := by
  obtain ⟨hLess, -⟩ := List.getElem?_eq_some_iff.mp hWorker
  rw [turn] at hNext
  split at hNext
  · rename_i hPlace
    split at hNext
    · rename_i hNone
      cases hNext
      have hRest := h.manned
      rw [hNone] at hRest
      apply h.turns hWorker (by simp [Worker.gone, hPlace])
      · rw [Worker.rest, hPlace]
        cases s.queue.closed <;> rfl
      · rw [hNone]
        exact hRest.rest w
    · rename_i hItem
      cases hNext
      exact h.takes hWorker hPlace hItem
  · rename_i item hPlace
    cases hNext
    exact h.releases hWorker hPlace
  all_goals cases hNext

theorem Worker.holds_finish (w : Worker Payload) (size : Nat) (item : Item Payload) (fate : Fate) :
    (w.finish size item fate).place = .releases item := by
  cases fate <;> rfl

theorem Inv.handles {found : Found} (h : Inv p s) (hWorker : s.workers[i]? = some w)
    (hNext : handle p s i w found = some t) : Inv p t := by
  obtain ⟨hLess, -⟩ := List.getElem?_eq_some_iff.mp hWorker
  rw [handle] at hNext
  split at hNext
  · rename_i item hPlace
    cases hNext
    have hThen := w.holds_finish (p.size item.payload) item
      (p.fate s.sharedErr item.payload found)
    apply h.turns hWorker (by simp [Worker.gone, hPlace])
    · rw [hThen, hPlace]
      rfl
    · exact h.manned.busy hLess (by simp [Worker.asleep, hThen]) (by simp [Worker.gone, hThen]) id
  · cases hNext

theorem Inv.next {label : Label Seen Found} (h : Inv p s) (hNext : next p s label = some t) :
    Inv p t := by
  cases label with
  | produce woken => exact h.produces hNext
  | fill seen => exact h.fills hNext
  | turn i =>
      obtain ⟨w, hWorker, hTurn⟩ := Option.bind_eq_some_iff.mp hNext
      exact h.turned hWorker hTurn
  | handle i found =>
      obtain ⟨w, hWorker, hHandle⟩ := Option.bind_eq_some_iff.mp hNext
      exact h.handles hWorker hHandle
  | share =>
      rw [SlotPipeline.next] at hNext
      split at hNext
      · cases hNext
        exact h.noted true s.err s.carry
      · cases hNext
  | wakeProducer =>
      cases hNext
      have hOver : s.producer = .ended → ∀ w ∈ s.workers, w.gone = true := by
        intro hPlace
        simpa only [ProducerAt, hPlace] using h.producer
      apply h.goes
      · rw [holds_roomMade, holds_slotFreed]
      · rw [closing_roomMade, closing_slotFreed]
      · apply (h.producer.slotFreed hOver s.released).roomMade
        intro hPlace
        apply hOver
        cases hFreed : s.producer with
        | ended => rfl
        | _ =>
            dsimp only at hPlace
            rw [hFreed] at hPlace
            cases hPlace
  | wakeWorker i =>
      obtain ⟨w, hWorker, rfl⟩ := Option.map_eq_some_iff.mp hNext
      by_cases hAsleep : w.asleep = true
      · exact h.turns hWorker (Worker.here_of_asleep hAsleep) w.holds_wake (h.manned.wakes hWorker)
      · obtain ⟨hLess, hHere⟩ := List.getElem?_eq_some_iff.mp hWorker
        rw [Worker.wake_eq (Bool.eq_false_iff.mpr hAsleep), ← hHere, List.set_getElem_self]
        exact h

theorem inv_run {labels : List (Label Seen Found)}
    (hRun : execute (SlotPipeline.next p) (start p) labels = some t) : Inv p t :=
  invariant_execute (fun _ _ _ h hNext => h.next hNext) labels (start p) t (inv_start p) hRun

end Invariant

/-- What the threads never break: items leave the queue in the order they entered it, each once;
head, tail and count follow the items round the array; a slot is free or with one item; and
each slot that was taken is back once, or with the item it was taken for. -/
structure Kept (p : Setup Task Seen Carry Payload Found) (s : State Carry Payload) : Prop where
  fifo : s.pushed = s.popped ++ s.queue.contents
  once : s.pushed.map Item.ticket = List.range s.pushed.length
  head : s.queue.head = s.popped.length % p.capacity
  tail : s.queue.tail = s.pushed.length % p.capacity
  count : s.popped.length + s.queue.count = s.pushed.length
  bound : s.queue.count ≤ p.capacity
  slots : (s.pool.free ++ s.inFlight.map Prod.snd).Perm (List.range p.slots)
  single : (s.inFlight.map Prod.snd).Nodup
  paired : s.acquired.Perm (s.released ++ s.inFlight)
  tickets : (s.acquired.map Prod.fst).Nodup
  free : s.pool.nFree ≤ p.slots

/-- What is left at the end: nothing in the queue, and all slots are back. -/
structure Settled (p : Setup Task Seen Carry Payload Found) (s : State Carry Payload) : Prop where
  popped : s.popped = s.pushed
  inFlight : s.inFlight = []
  returned : s.released.Perm s.acquired
  free : s.pool.nFree = p.slots

section Results

variable {p : Setup Task Seen Carry Payload Found} {s t : State Carry Payload}

theorem Inv.free_length (h : Inv p s) : s.pool.nFree + s.inFlight.length = p.slots := by
  have hLength := h.owned.apart.length_eq
  rwa [List.length_append, SlotPool.free_length, List.length_map, List.length_range] at hLength

theorem Inv.kept (h : Inv p s) : Kept p s where
  fifo := h.queued.fifo
  once := by
    have hLength := congrArg List.length h.sent
    rw [List.length_map, List.length_range] at hLength
    rw [hLength, h.sent]
  head := h.queued.capacity ▸ h.queued.turned.head
  tail := h.queued.capacity ▸ h.queued.turned.tail
  count := h.queued.turned.count
  bound := h.queued.capacity ▸ h.queued.turned.bound
  slots := h.owned.apart
  single := (List.nodup_append.mp (h.owned.apart.nodup_iff.mpr List.nodup_range)).2.1
  paired := h.owned.paired
  tickets := h.tickets ▸ List.nodup_range
  free := by
    have := h.free_length
    omega

/-- Once all workers are gone the queue is empty. -/
theorem Inv.settled (h : Inv p s) (hWorkers : 0 < p.workers) (hOver : s.producer = .ended) :
    Settled p s := by
  have hGone : ∀ w ∈ s.workers, w.gone = true := by
    simpa only [ProducerAt, hOver] using h.producer
  have hEmpty : s.queue.contents = [] := by
    obtain ⟨w, hw⟩ := List.exists_mem_of_length_pos (h.manned.crew ▸ hWorkers)
    rw [← List.length_eq_zero_iff, Queue.contents_length]
    exact (h.manned.gone w hw (hGone w hw)).2
  have hIdle : (s.workers.flatMap fun w => w.place.holds) = [] := by
    rw [List.flatMap_eq_nil_iff]
    intro w hw
    have hHere := hGone w hw
    cases hPlace : w.place with
    | ended => rfl
    | _ => simp [Worker.gone, hPlace] at hHere
  have hNone : s.inFlight = [] := by
    rw [State.inFlight, hOver, hEmpty, hIdle]
    rfl
  have hFifo := h.queued.fifo
  have hPaired := h.owned.paired
  have hFree := h.free_length
  rw [hEmpty, List.append_nil] at hFifo
  rw [hNone, List.append_nil] at hPaired
  rw [hNone] at hFree
  exact ⟨hFifo.symm, hNone, hPaired.symm, hFree⟩

end Results

end SlotPipeline
