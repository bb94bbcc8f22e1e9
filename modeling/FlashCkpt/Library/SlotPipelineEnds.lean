import FlashCkpt.Library.SlotPipeline

/-! The threads of a slot pipeline come to their end. Each step that a thread takes makes what is
left less, and until the end some thread can go on without being woken by chance. -/
namespace SlotPipeline

open Transition BoundedQueue

variable {Task Seen Carry Payload Found : Type}

/-- The steps that no thread has to take. -/
def Label.chance : Label Seen Found → Bool
  | .share | .wakeProducer | .wakeWorker _ => true
  | _ => false

/-- How far the producer is from its end, within one pass of the loop. -/
def Producer.rank (workers : Nat) : Producer Payload → Nat
  | .ended => 0
  | .joins => 1
  | .close => workers + 2
  | .givesBack _ | .awaitsRoom _ => workers + 3
  | .pushes _ => workers + 4
  | .fills _ => workers + 5
  | .awaitsSlot => workers + 6
  | .acquire => workers + 7
  | .loop => workers + 8

def Worker.rank (w : Worker Payload) : Nat :=
  match w.place with
  | .ended => 0
  | .awaitsItem => 1
  | .pop => 2
  | .releases _ => 4
  | .handles _ => 5

/-- The steps that are left are no more than this, unless threads wake by chance. -/
def State.rank (p : Setup Task Seen Carry Payload Found) (s : State Carry Payload) : Nat :=
  11 * (p.tasks.length - s.ticket) + s.producer.rank p.workers + 5 * s.queue.count +
    (s.workers.map Worker.rank).sum

section Ending

variable {p : Setup Task Seen Carry Payload Found} {s t : State Carry Payload} {w : Worker Payload}
  {i : Nat}

theorem Worker.rank_wake (w : Worker Payload) : w.wake.rank ≤ w.rank + 1 := by
  obtain ⟨place, _, _⟩ := w
  cases place <;> simp [Worker.wake, Worker.asleep, Worker.rank]

theorem Worker.rank_rest (w : Worker Payload) (closed : Bool) : (w.rest closed).rank ≤ 1 := by
  cases closed <;> simp [Worker.rest, Worker.rank]

theorem rank_roomMade (q : Producer Payload) (n : Nat) : q.roomMade.rank n ≤ q.rank n + 1 := by
  cases q <;> simp [Producer.roomMade, Producer.rank]

theorem rank_slotFreed (q : Producer Payload) (n : Nat) : q.slotFreed.rank n ≤ q.rank n + 1 := by
  cases q <;> simp [Producer.slotFreed, Producer.rank]

theorem rank_signal {workers workers' : List (Worker Payload)} {woken : Nat}
    (h : signal workers woken = some workers') :
    (workers'.map Worker.rank).sum ≤ (workers.map Worker.rank).sum + 1 := by
  rw [signal] at h
  split at h
  · obtain ⟨w, hWorker, hWoken⟩ := Option.bind_eq_some_iff.mp h
    split at hWoken
    · cases hWoken
      have hSum := sum_map_set Worker.rank w.wake hWorker
      have hWake := w.rank_wake
      omega
    · cases hWoken
  · cases h
    exact Nat.le_succ _

theorem rank_wakeAll (workers : List (Worker Payload)) :
    ((workers.map Worker.wake).map Worker.rank).sum ≤
      (workers.map Worker.rank).sum + workers.length := by
  induction workers with
  | nil => exact Nat.le_refl _
  | cons w rest ih =>
      have hWake := w.rank_wake
      simp only [List.map_cons, List.sum_cons, List.length_cons]
      omega

theorem rank_produce {woken : Nat} (h : Inv p s) (hNext : produce p s woken = some t) :
    t.rank p < s.rank p := by
  have hAt := h.producer
  rw [produce] at hNext
  split at hNext <;> rename_i hPlace
  · cases hNext
    simp only [State.rank, hPlace]
    split <;> simp only [Producer.rank] <;> omega
  · split at hNext <;> cases hNext <;> simp only [State.rank, hPlace, Producer.rank] <;> omega
  · cases hNext
    simp only [State.rank, hPlace, Producer.rank]
    omega
  · simp only [ProducerAt, hPlace] at hAt
    split at hNext
    · cases hNext
      simp only [State.rank, hPlace, Producer.rank]
      omega
    · -- a task less, for an item more in the queue and a worker that is woken
      obtain ⟨workers, hSignal, rfl⟩ := Option.map_eq_some_iff.mp hNext
      have hWoken := rank_signal hSignal
      simp only [State.rank, hPlace, Producer.rank, Queue.count_push]
      omega
  · cases hNext
    have hAll := rank_wakeAll s.workers
    rw [h.manned.crew] at hAll
    simp only [State.rank, hPlace, Producer.rank, Queue.count_close]
    omega
  · split at hNext
    · cases hNext
      simp only [State.rank, hPlace, Producer.rank]
      omega
    · cases hNext
  all_goals cases hNext

theorem rank_fill {seen : Seen} (hNext : fill p s seen = some t) : t.rank p < s.rank p := by
  rw [fill] at hNext
  split at hNext
  · rename_i slot hPlace
    obtain ⟨task, -, hFilled⟩ := Option.map_eq_some_iff.mp hNext
    split at hFilled <;> subst hFilled <;> simp only [State.rank, hPlace, Producer.rank] <;> omega
  · cases hNext

theorem rank_turn (hWorker : s.workers[i]? = some w) (hNext : turn s i w = some t) :
    t.rank p < s.rank p := by
  rw [turn] at hNext
  split at hNext <;> rename_i hPlace
  · split at hNext <;> cases hNext
    · have hSum := sum_map_set Worker.rank (w.rest s.queue.closed) hWorker
      have hRest := w.rank_rest s.queue.closed
      have hPop : w.rank = 2 := by rw [Worker.rank, hPlace]
      simp only [State.rank]
      omega
    · have hSum := sum_map_set Worker.rank { w with place := .handles s.queue.front } hWorker
      have hRoom := rank_roomMade s.producer p.workers
      simp only [Worker.rank, hPlace] at hSum
      simp only [State.rank, Queue.count_pop]
      omega
  · cases hNext
    have hSum := sum_map_set Worker.rank { w with place := .pop } hWorker
    have hFreed := rank_slotFreed s.producer p.workers
    simp only [Worker.rank, hPlace] at hSum
    simp only [State.rank]
    omega
  all_goals cases hNext

theorem rank_handle {found : Found} (hWorker : s.workers[i]? = some w)
    (hNext : handle p s i w found = some t) : t.rank p < s.rank p := by
  rw [handle] at hNext
  split at hNext
  · rename_i item hPlace
    cases hNext
    have hSum := sum_map_set Worker.rank
      (w.finish (p.size item.payload) item (p.fate s.sharedErr item.payload found)) hWorker
    have hThen := w.holds_finish (p.size item.payload) item
      (p.fate s.sharedErr item.payload found)
    have hBusy : w.rank = 5 := by rw [Worker.rank, hPlace]
    have hDone : (w.finish (p.size item.payload) item
        (p.fate s.sharedErr item.payload found)).rank = 4 := by rw [Worker.rank, hThen]
    rw [hBusy, hDone] at hSum
    simp only [State.rank]
    omega
  · cases hNext

/-- Every step that a thread takes leads nearer to the end, and a step by chance takes one
back at most. -/
theorem rank_next {label : Label Seen Found} (h : Inv p s) (hNext : next p s label = some t) :
    t.rank p + (if label.chance then 0 else 1) ≤ s.rank p + (if label.chance then 1 else 0) := by
  cases label with
  | produce woken => exact rank_produce h hNext
  | fill seen => exact rank_fill hNext
  | turn i =>
      obtain ⟨w, hWorker, hTurn⟩ := Option.bind_eq_some_iff.mp hNext
      exact rank_turn hWorker hTurn
  | handle i found =>
      obtain ⟨w, hWorker, hHandle⟩ := Option.bind_eq_some_iff.mp hNext
      exact rank_handle hWorker hHandle
  | share =>
      rw [next] at hNext
      split at hNext
      · cases hNext
        exact Nat.le_succ _
      · cases hNext
  | wakeProducer =>
      cases hNext
      have hBoth : s.producer.slotFreed.roomMade.rank p.workers ≤ s.producer.rank p.workers + 1 := by
        cases s.producer <;> simp [Producer.slotFreed, Producer.roomMade, Producer.rank]
      simp only [State.rank, Label.chance, if_true]
      omega
  | wakeWorker i =>
      obtain ⟨w, hWorker, rfl⟩ := Option.map_eq_some_iff.mp hNext
      have hSum := sum_map_set Worker.rank w.wake hWorker
      have hWake := w.rank_wake
      simp only [State.rank, Label.chance, if_true]
      omega

theorem rank_execute (labels : List (Label Seen Found)) (h : Inv p s)
    (hRun : execute (next p) s labels = some t) :
    t.rank p + labels.countP (fun l => !l.chance) ≤ s.rank p + labels.countP Label.chance := by
  induction labels generalizing s with
  | nil =>
      cases hRun
      exact Nat.le_refl _
  | cons label rest ih =>
      rw [execute_cons, Option.bind_eq_some_iff] at hRun
      obtain ⟨middle, hNext, hRest⟩ := hRun
      have hStep := rank_next h hNext
      have hLater := ih (h.next hNext) hRest
      rw [List.countP_cons, List.countP_cons]
      cases hChance : label.chance with
      | false =>
          simp only [hChance, Bool.not_false, if_true, Bool.false_eq_true, if_false] at hStep ⊢
          omega
      | true =>
          simp only [hChance, Bool.not_true, if_true, Bool.false_eq_true, if_false] at hStep ⊢
          omega

theorem rank_start : (start p).rank p = 11 * p.tasks.length + 3 * p.workers + 8 := by
  simp [State.rank, start, Producer.rank, Worker.rank, Queue.init]
  omega

/-- A worker that is awake and not gone can go on. -/
theorem exists_turn [Nonempty Found] (hWorker : s.workers[i]? = some w) (hAwake : w.asleep = false)
    (hHere : w.gone = false) :
    ∃ label : Label Seen Found, label.chance = false ∧ (next p s label).isSome = true := by
  cases hPlace : w.place with
  | pop =>
      refine ⟨.turn i, rfl, ?_⟩
      rw [next, hWorker, Option.bind_some, turn, hPlace]
      dsimp only
      split <;> rfl
  | releases item =>
      refine ⟨.turn i, rfl, ?_⟩
      rw [next, hWorker, Option.bind_some, turn, hPlace]
      rfl
  | handles item =>
      obtain ⟨found⟩ := ‹Nonempty Found›
      refine ⟨.handle i found, rfl, ?_⟩
      rw [next, hWorker, Option.bind_some, handle, hPlace]
      rfl
  | awaitsItem => simp [Worker.asleep, hPlace] at hAwake
  | ended => simp [Worker.gone, hPlace] at hHere

/-- As long as the producer is not at its end some thread can go on. -/
theorem exists_next [Nonempty Seen] [Nonempty Found] (h : Inv p s) (hWorkers : 0 < p.workers)
    (hSlots : 0 < p.slots) (hCapacity : 0 < p.capacity) (hOver : s.producer ≠ .ended) :
    ∃ label : Label Seen Found, label.chance = false ∧ (next p s label).isSome = true := by
  have hAt := h.producer
  -- somebody comes for an item that waits
  have hComes : s.queue.count ≠ 0 →
      ∃ label : Label Seen Found, label.chance = false ∧ (next p s label).isSome = true := by
    intro hItem
    obtain ⟨w, hw, hAwake, hHere⟩ := h.manned.awake hWorkers hItem
    obtain ⟨i, hWorker⟩ := List.getElem?_of_mem hw
    exact exists_turn hWorker hAwake hHere
  cases hPlace : s.producer with
  | loop => exact ⟨.produce 0, rfl, by simp [next, produce, hPlace]⟩
  | acquire =>
      refine ⟨.produce 0, rfl, ?_⟩
      rw [next, produce, hPlace]
      dsimp only
      split <;> rfl
  | givesBack slot => exact ⟨.produce 0, rfl, by simp [next, produce, hPlace]⟩
  | close => exact ⟨.produce 0, rfl, by simp [next, produce, hPlace]⟩
  | ended => exact absurd hPlace hOver
  | fills slot =>
      obtain ⟨seen⟩ := ‹Nonempty Seen›
      rw [ProducerAt, hPlace] at hAt
      exact ⟨.fill seen, rfl, by simp [next, fill, hPlace, hAt.1]⟩
  | pushes item =>
      by_cases hFull : s.queue.count = s.queue.capacity
      · exact ⟨.produce 0, rfl, by simp [next, produce, hPlace, hFull]⟩
      · by_cases hAny : s.workers.any Worker.asleep = true
        · obtain ⟨w, hw, hAsleep⟩ := List.any_eq_true.mp hAny
          obtain ⟨i, hWorker⟩ := List.getElem?_of_mem hw
          exact ⟨.produce i, rfl, by simp [next, produce, hPlace, hFull, signal, hAny, hWorker, hAsleep]⟩
        · exact ⟨.produce 0, rfl, by simp [next, produce, hPlace, hFull, signal, hAny]⟩
  | awaitsRoom item =>
      rw [ProducerAt, hPlace] at hAt
      apply hComes
      rw [hAt.2.2.2, h.queued.capacity]
      exact Nat.ne_of_gt hCapacity
  | awaitsSlot =>
      rw [ProducerAt, hPlace] at hAt
      by_cases hItem : s.queue.count = 0
      · -- all slots are with workers
        have hLength := h.free_length
        have hEmpty : s.queue.contents = [] := by
          rw [← List.length_eq_zero_iff, Queue.contents_length, hItem]
        rw [hAt.2.2, Nat.zero_add, State.inFlight, hPlace, hEmpty] at hLength
        obtain ⟨hold, hMem⟩ := List.exists_mem_of_length_pos (hLength ▸ hSlots)
        obtain ⟨w, hw, hHolds⟩ := List.mem_flatMap.mp hMem
        obtain ⟨i, hWorker⟩ := List.getElem?_of_mem hw
        cases hWorks : w.place with
        | handles item =>
            exact exists_turn hWorker (by rw [Worker.asleep, hWorks]) (by rw [Worker.gone, hWorks])
        | releases item =>
            exact exists_turn hWorker (by rw [Worker.asleep, hWorks]) (by rw [Worker.gone, hWorks])
        | _ =>
            rw [hWorks] at hHolds
            cases hHolds
      · exact hComes hItem
  | joins =>
      by_cases hGone : s.workers.all Worker.gone = true
      · exact ⟨.produce 0, rfl, by simp [next, produce, hPlace, hGone]⟩
      · obtain ⟨w, hw, hHere⟩ : ∃ w ∈ s.workers, w.gone = false := by
          simpa using hGone
        obtain ⟨i, hWorker⟩ := List.getElem?_of_mem hw
        refine exists_turn hWorker (Bool.eq_false_iff.mpr fun hAsleep => ?_) hHere
        have hOpen := h.manned.asleep w hw hAsleep
        rw [h.closed, hPlace] at hOpen
        cases hOpen

end Ending

/-- The threads come to their end: some thread can go on until then, and of the steps that are
not taken by chance there are only so many. -/
structure Ends (p : Setup Task Seen Carry Payload Found) (labels : List (Label Seen Found))
    (s : State Carry Payload) : Prop where
  goes : s.producer ≠ .ended →
    ∃ label : Label Seen Found, label.chance = false ∧ (next p s label).isSome = true
  bounded : labels.countP (fun l => !l.chance) ≤
    11 * p.tasks.length + 3 * p.workers + 8 + labels.countP Label.chance

theorem ends_run [Nonempty Seen] [Nonempty Found] {p : Setup Task Seen Carry Payload Found}
    {labels : List (Label Seen Found)} {s : State Carry Payload} (hWorkers : 0 < p.workers)
    (hSlots : 0 < p.slots) (hCapacity : 0 < p.capacity)
    (hRun : execute (next p) (start p) labels = some s) : Ends p labels s where
  goes := exists_next (inv_run hRun) hWorkers hSlots hCapacity
  bounded := by
    have hRank := rank_execute labels (inv_start p) hRun
    rw [rank_start] at hRank
    omega

end SlotPipeline
