import FlashCkpt.Core.SlotPool

/-! The streaming pipeline with its locks and without. Where no error is shared, a run of the
threads of `StreamPlan.pipeline` is followed by one of `StreamPlan.next`, which captures and
queues a range in one step. So the file that the threads leave is the one of that model. -/
namespace FlashCkpt.Core

open ByteImage Transition BoundedQueue SlotPipeline
open Crypto Image

/-- What a writer has still to copy. -/
def writesLeft (w : Worker (Sections × RangeDesc)) : List Write :=
  match w.place with
  | .handles item => sectionWrites item.payload
  | _ => []

/-- What the main thread is at: between two ranges, with a range, or at its end. -/
def ProducerShows (plan : StreamPlan) (ticket carry curOff : Nat) (err : Bool) :
    Producer (Sections × RangeDesc) → Prop
  | .loop => carry = curOff
  | .acquire | .awaitsSlot | .fills _ | .givesBack _ => err = false ∧ carry = curOff
  | .pushes item | .awaitsRoom item => err = false ∧ ∃ c : StreamCapture,
      item.payload = (c.sections, c.sections.descAt curOff) ∧
        plan.ranges[ticket]? = some (c.sections.baseVa, c.sections.length) ∧
        carry = (c.sections.descAt curOff).stop
  | .close => plan.ranges.length ≤ ticket ∨ err = true
  | .joins | .ended => True

/-- The stream that a state of the threads stands for. -/
structure Shows (plan : StreamPlan) (s : State Nat (Sections × RangeDesc)) (t : Stream) : Prop where
  queue : t.pool.queue = s.queue.contents.map Item.payload
  workers : t.pool.workers = s.workers.map writesLeft
  captured : t.captured.length = s.ticket
  unshared : s.sharedErr = false
  healthy : t.sharedErr = false
  err : s.producer ≠ .ended → t.err = s.err
  closed : t.closed = s.queue.closed
  exit : t.exit = none ↔ s.producer ≠ .ended
  producer : ProducerShows plan s.ticket s.carry t.curOff s.err s.producer

theorem shows_start (plan : StreamPlan) (old : ImageFile) :
    Shows plan (SlotPipeline.start (plan.pipeline plan.writers)) (plan.start old) where
  queue := rfl
  workers := by
    rw [SlotPipeline.start, List.map_replicate]
    rfl
  captured := rfl
  unshared := rfl
  healthy := rfl
  err := fun _ => rfl
  closed := rfl
  exit := iff_of_true rfl (by simp [SlotPipeline.start])
  producer := rfl

theorem resolveWorkers_pos (threads : Option Int) : 0 < resolveWorkers threads := by
  rw [resolveWorkers]
  split
  · exact Nat.one_pos
  · split
    · decide
    · omega

/-- What the main thread queues is the capture it made. -/
theorem baselineWriter_fill {curOff carry : Nat} {range : Nat × Nat} {seen : Option StreamCapture}
    {payload : Sections × RangeDesc}
    (h : baselineWriter.fill curOff range seen = some (payload, carry)) :
    ∃ c : StreamCapture, payload = (c.sections, c.sections.descAt curOff) ∧
      range = (c.sections.baseVa, c.sections.length) ∧ carry = (c.sections.descAt curOff).stop := by
  cases seen with
  | none => cases h
  | some c =>
      simp only [baselineWriter, Option.ite_none_right_eq_some, Option.some.injEq, Prod.mk.injEq] at h
      obtain ⟨hSame, hPayload, hCarry⟩ := h
      exact ⟨c, hPayload.symm, hSame.symm, hCarry.symm⟩

section Frame

variable {plan : StreamPlan} {s s' : State Nat (Sections × RangeDesc)} {t : Stream}
  {w w' : Worker (Sections × RangeDesc)} {workers workers' : List (Worker (Sections × RangeDesc))}
  {i : Nat}

@[simp] theorem writesLeft_wake (w : Worker (Sections × RangeDesc)) :
    writesLeft w.wake = writesLeft w := by
  obtain ⟨place, _, _⟩ := w
  cases place <;> rfl

/-- A turn that leaves a writer with what it had to copy. -/
theorem map_set_writesLeft (hWorker : workers[i]? = some w) (hLeft : writesLeft w' = writesLeft w) :
    (workers.set i w').map writesLeft = workers.map writesLeft := by
  obtain ⟨hLess, rfl⟩ := List.getElem?_eq_some_iff.mp hWorker
  have hMapped : i < (workers.map writesLeft).length := by rwa [List.length_map]
  have hHere : (workers.map writesLeft)[i] = writesLeft workers[i] := List.getElem_map _
  rw [List.map_set, hLeft, ← hHere, List.set_getElem_self]

theorem map_signal_writesLeft {woken : Nat} (h : signal workers woken = some workers') :
    workers'.map writesLeft = workers.map writesLeft := by
  rw [signal] at h
  split at h
  · obtain ⟨w, hWorker, hWoken⟩ := Option.bind_eq_some_iff.mp h
    split at hWoken
    · cases hWoken
      exact map_set_writesLeft hWorker (writesLeft_wake w)
    · cases hWoken
  · cases h
    rfl

theorem ProducerShows.slotFreed {ticket carry curOff : Nat} {err : Bool}
    {q : Producer (Sections × RangeDesc)} (h : ProducerShows plan ticket carry curOff err q) :
    ProducerShows plan ticket carry curOff err q.slotFreed := by
  cases q <;> exact h

theorem ProducerShows.roomMade {ticket carry curOff : Nat} {err : Bool}
    {q : Producer (Sections × RangeDesc)} (h : ProducerShows plan ticket carry curOff err q) :
    ProducerShows plan ticket carry curOff err q.roomMade := by
  cases q <;> exact h

/-- A step that the stream does not show. -/
theorem Shows.stays (h : Shows plan s t) (hQueue : s'.queue = s.queue)
    (hWorkers : s'.workers.map writesLeft = s.workers.map writesLeft) (hTicket : s'.ticket = s.ticket)
    (hShared : s'.sharedErr = s.sharedErr) (hErr : s'.err = s.err)
    (hEnded : s'.producer = .ended ↔ s.producer = .ended)
    (hProducer : ProducerShows plan s.ticket s'.carry t.curOff s.err s'.producer) :
    Shows plan s' t where
  queue := by rw [h.queue, hQueue]
  workers := by rw [h.workers, hWorkers]
  captured := by rw [h.captured, hTicket]
  unshared := by rw [hShared, h.unshared]
  healthy := h.healthy
  err := fun hHere => by rw [h.err (fun hOver => hHere (hEnded.mpr hOver)), hErr]
  closed := by rw [h.closed, hQueue]
  exit := h.exit.trans (not_congr hEnded.symm)
  producer := by rwa [hTicket, hErr]

theorem ended_slotFreed {q : Producer (Sections × RangeDesc)} : q.slotFreed = .ended ↔ q = .ended := by
  cases q <;> simp [Producer.slotFreed]

theorem ended_roomMade {q : Producer (Sections × RangeDesc)} : q.roomMade = .ended ↔ q = .ended := by
  cases q <;> simp [Producer.roomMade]

end Frame

section Steps

variable {plan : StreamPlan} {s s' : State Nat (Sections × RangeDesc)} {t : Stream}
  {w w' : Worker (Sections × RangeDesc)} {i : Nat}

/-- Steps of the stream lead to what the threads are at now. -/
def Follows (plan : StreamPlan) (t : Stream) (s' : State Nat (Sections × RangeDesc)) : Prop :=
  ∃ events t', execute plan.next t events = some t' ∧ Shows plan s' t'

theorem Shows.follows (h : Shows plan s' t) : Follows plan t s' := ⟨[], t, rfl, h⟩

theorem follows_step (event : StreamEvent) {t' : Stream} (hNext : plan.next t event = some t')
    (h : Shows plan s' t') : Follows plan t s' :=
  ⟨[event], t', by rw [execute_cons, hNext, Option.bind_some, execute], h⟩

theorem Shows.inLoop (h : Shows plan s t) (hPlace : s.producer ≠ .ended)
    (hOpen : s.queue.closed = false) (hMore : s.ticket < plan.ranges.length) (hErr : s.err = false) :
    t.inLoop plan = true := by
  simp [Stream.inLoop, h.closed, hOpen, h.captured, hMore, h.err hPlace, hErr, h.healthy]

/-- A writer with something to copy has an item. -/
theorem writing_le (workers : List (Worker (Sections × RangeDesc))) :
    ((workers.map writesLeft).filter fun left => !left.isEmpty).length ≤
      (workers.flatMap fun w => w.place.holds).length := by
  induction workers with
  | nil => exact Nat.le_refl 0
  | cons w rest ih =>
      rw [List.map_cons, List.flatMap_cons, List.length_append, List.filter_cons]
      split
      · rename_i hLeft
        have hHolds : 0 < w.place.holds.length := by
          rw [writesLeft] at hLeft
          split at hLeft
          · rename_i item hPlace
            rw [hPlace]
            exact Nat.one_pos
          · cases hLeft
        rw [List.length_cons]
        omega
      · omega

/-- While the main thread has a slot, the items queued and being copied leave one free. -/
theorem Shows.slotFree (h : Shows plan s t) (hInv : SlotPipeline.Inv (plan.pipeline plan.writers) s)
    {hold : Nat × Nat} (hHolds : s.producer.holds s.ticket = [hold]) : t.slotFree plan = true := by
  have hSlots : s.pool.nFree + s.inFlight.length = 2 * plan.writers := hInv.free_length
  have hWriting := writing_le s.workers
  rw [State.inFlight, hHolds, List.length_append, List.length_append, List.length_map,
    List.length_singleton] at hSlots
  rw [Stream.slotFree, WorkerPool.Pool.load, h.queue, h.workers, List.length_map, decide_eq_true_eq]
  omega

theorem Shows.givesBack (h : Shows plan s t) (hInv : SlotPipeline.Inv (plan.pipeline plan.writers) s)
    {slot : Nat} (hPlace : s.producer = .givesBack slot) :
    Follows plan t { s with
      pool := s.pool.release slot
      err := true
      producer := .close
      released := s.released ++ [(s.ticket, slot)] } := by
  have hAt := hInv.producer
  have hShows := h.producer
  have hHere : s.producer ≠ .ended := by simp [hPlace]
  have hOpen : s.queue.closed = false := by
    rw [hInv.closed, hPlace]
    rfl
  rw [ProducerAt, hPlace] at hAt
  rw [hPlace] at hShows
  have hLoop := h.inLoop hHere hOpen hAt.1 hShows.1
  have hFree : t.slotFree plan = true := h.slotFree hInv (by rw [hPlace]; rfl)
  apply follows_step .captureFails (if_pos ⟨hLoop, hFree⟩)
  exact ⟨h.queue, h.workers, h.captured, h.unshared, h.healthy, fun _ => rfl, h.closed,
    h.exit.trans (iff_of_true hHere (by simp)), .inr rfl⟩

theorem Shows.pushes (h : Shows plan s t) (hInv : SlotPipeline.Inv (plan.pipeline plan.writers) s)
    {item : Item (Sections × RangeDesc)} (hPlace : s.producer = .pushes item)
    (hRoom : s.queue.count ≠ s.queue.capacity) {workers : List (Worker (Sections × RangeDesc))}
    {woken : Nat} (hSignal : signal s.workers woken = some workers) :
    Follows plan t { s with
      queue := s.queue.push item
      producer := .loop
      ticket := s.ticket + 1
      workers := workers
      pushed := s.pushed ++ [item] } := by
  have hAt := hInv.producer
  have hShows := h.producer
  have hHere : s.producer ≠ .ended := by simp [hPlace]
  have hOpen : s.queue.closed = false := by
    rw [hInv.closed, hPlace]
    rfl
  rw [ProducerAt, hPlace] at hAt
  rw [hPlace] at hShows
  obtain ⟨hErr, c, hItem, hRange, hCarry⟩ := hShows
  have hLoop := h.inLoop hHere hOpen hAt.1 hErr
  have hFree : t.slotFree plan = true := h.slotFree hInv (by rw [hPlace]; rfl)
  have hLess : s.queue.count < s.queue.capacity :=
    Nat.lt_of_le_of_ne hInv.queued.turned.bound hRoom
  rw [← h.captured] at hRange
  apply follows_step (.capture c) (if_pos ⟨hLoop, hFree, hRange⟩)
  refine ⟨?_, ?_, ?_, h.unshared, h.healthy, fun _ => h.err hHere, h.closed,
    h.exit.trans (iff_of_true hHere (by simp)), hCarry⟩
  · change t.pool.queue ++ [(c.sections, c.sections.descAt t.curOff)] = _
    rw [Queue.contents_push hInv.queued.turned hLess, List.map_append, h.queue, ← hItem,
      List.map_singleton]
  · exact h.workers.trans (map_signal_writesLeft hSignal).symm
  · change (t.captured ++ [c]).length = s.ticket + 1
    rw [List.length_append, h.captured, List.length_singleton]

theorem Shows.closes (h : Shows plan s t) (hInv : SlotPipeline.Inv (plan.pipeline plan.writers) s)
    (hPlace : s.producer = .close) :
    Follows plan t { s with
      queue := s.queue.close
      producer := .joins
      workers := s.workers.map Worker.wake } := by
  have hShows := h.producer
  have hHere : s.producer ≠ .ended := by simp [hPlace]
  have hOpen : t.closed = false := by
    rw [h.closed, hInv.closed, hPlace]
    rfl
  rw [hPlace] at hShows
  have hDone : t.inLoop plan = false := by
    rw [Stream.inLoop, h.captured, h.err hHere]
    rcases hShows with hAll | hErr
    · simp [Nat.not_lt.mpr hAll]
    · simp [hErr]
  apply follows_step .close (if_neg (by simp [hOpen, hDone]))
  refine ⟨?_, ?_, h.captured, h.unshared, h.healthy, fun _ => h.err hHere, rfl,
    h.exit.trans (iff_of_true hHere (by simp)), trivial⟩
  · rw [Queue.contents_close]
    exact h.queue
  · rw [List.map_map]
    refine h.workers.trans (List.map_congr_left fun w _ => ?_)
    exact (writesLeft_wake w).symm

/-- The writers are gone only when nothing is left to copy. -/
theorem Shows.resting (h : Shows plan s t) (hInv : SlotPipeline.Inv (plan.pipeline plan.writers) s)
    (hGone : ∀ w ∈ s.workers, w.gone = true) : t.pool.resting = true := by
  have hCrew : s.workers.length = plan.writers := hInv.manned.crew
  have hSome : 0 < s.workers.length := by
    rw [hCrew]
    exact resolveWorkers_pos plan.threads
  obtain ⟨w, hw⟩ := List.exists_mem_of_length_pos hSome
  have hEmpty : s.queue.contents = [] :=
    List.eq_nil_of_length_eq_zero (by rw [Queue.contents_length, (hInv.manned.gone w hw (hGone w hw)).2])
  rw [WorkerPool.resting_iff, h.queue, h.workers, hEmpty]
  refine ⟨rfl, ?_⟩
  intro left hLeft
  obtain ⟨v, hv, rfl⟩ := List.mem_map.mp hLeft
  have hOver := hGone v hv
  rw [Worker.gone] at hOver
  rw [writesLeft]
  split
  · rename_i item hPlace
    rw [hPlace] at hOver
    cases hOver
  · rfl

theorem Shows.joins (h : Shows plan s t) (hInv : SlotPipeline.Inv (plan.pipeline plan.writers) s)
    (hPlace : s.producer = .joins) (hGone : ∀ w ∈ s.workers, w.gone = true) (err : Bool) :
    Follows plan t { s with
      producer := .ended
      err := err } := by
  have hHere : s.producer ≠ .ended := by simp [hPlace]
  have hClosed : t.closed = true := by
    rw [h.closed, hInv.closed, hPlace]
    rfl
  have hExit : t.exit = none := h.exit.mpr hHere
  apply follows_step (.finish true true) (if_pos ⟨hClosed, h.resting hInv hGone, hExit⟩)
  exact ⟨h.queue, h.workers, h.captured, h.unshared, h.healthy, fun hNot => absurd rfl hNot, h.closed,
    iff_of_false (Option.some_ne_none _) (not_not_intro rfl), trivial⟩

theorem Shows.takes (h : Shows plan s t) (hInv : SlotPipeline.Inv (plan.pipeline plan.writers) s)
    (hWorker : s.workers[i]? = some w) (hPlace : w.place = .pop) (hItem : s.queue.count ≠ 0) :
    Follows plan t { s with
      queue := s.queue.pop
      producer := s.producer.roomMade
      workers := s.workers.set i { w with place := .handles s.queue.front }
      popped := s.popped ++ [s.queue.front] } := by
  have hQueue := Queue.contents_pop hInv.queued.turned (Nat.pos_of_ne_zero hItem)
  have hFront : t.pool.queue = s.queue.front.payload :: s.queue.pop.contents.map Item.payload := by
    rw [h.queue, hQueue, List.map_cons]
  have hIdle : t.pool.workers[i]? = some [] := by
    rw [h.workers, List.getElem?_map, hWorker, Option.map_some, writesLeft, hPlace]
  have hCopies : t.copies s.queue.front.payload = sectionWrites s.queue.front.payload := by
    rw [Stream.copies, h.healthy]
    rfl
  have hPop : t.pool.pop t.copies i = some ⟨s.queue.pop.contents.map Item.payload,
      t.pool.workers.set i (sectionWrites s.queue.front.payload)⟩ := by
    rw [WorkerPool.Pool.pop, hFront, hIdle, ← hCopies]
  apply follows_step (.pop i) (congrArg (Option.map _) hPop)
  refine ⟨rfl, ?_, h.captured, h.unshared, h.healthy,
    fun hHere => h.err fun hOver => hHere (ended_roomMade.mpr hOver), h.closed,
    h.exit.trans (not_congr ended_roomMade.symm), h.producer.roomMade⟩
  change t.pool.workers.set i _ = _
  rw [h.workers, List.map_set]
  rfl

/-- A writer copies what is left to it. -/
theorem execute_copies (plan : StreamPlan) (left : List Write) {t : Stream} (hWorker : t.pool.workers[i]? = some left) :
    ∃ data, execute plan.next t (List.replicate left.length (.copy i)) = some { t with
      pool := { t.pool with workers := t.pool.workers.set i [] }
      file := { t.file with data := data } } := by
  induction left generalizing t with
  | nil =>
      obtain ⟨hLess, hNone⟩ := List.getElem?_eq_some_iff.mp hWorker
      have hKept := List.set_getElem_self hLess
      rw [hNone] at hKept
      refine ⟨t.file.data, ?_⟩
      rw [hKept]
      rfl
  | cons first rest ih =>
      obtain ⟨hLess, -⟩ := List.getElem?_eq_some_iff.mp hWorker
      have hWork : t.pool.work i =
          some (first, { t.pool with workers := t.pool.workers.set i rest }) := by
        rw [WorkerPool.Pool.work, hWorker]
      have hNext : plan.next t (.copy i) = some { t with
          pool := { t.pool with workers := t.pool.workers.set i rest }
          file := { t.file with data := write t.file.data first } } := by
        rw [StreamPlan.next, hWork]
        rfl
      obtain ⟨data, hRest⟩ := @ih { t with
          pool := { t.pool with workers := t.pool.workers.set i rest }
          file := { t.file with data := write t.file.data first } }
        (List.getElem?_set_self hLess)
      refine ⟨data, ?_⟩
      rw [List.length_cons, List.replicate_succ, execute_cons, hNext, Option.bind_some, hRest]
      simp only [List.set_set]

theorem Shows.handles (h : Shows plan s t) (hWorker : s.workers[i]? = some w)
    (hLeft : writesLeft w' = []) : Follows plan t { s with workers := s.workers.set i w' } := by
  have hHere : t.pool.workers[i]? = some (writesLeft w) := by
    rw [h.workers, List.getElem?_map, hWorker, Option.map_some]
  obtain ⟨data, hCopies⟩ := execute_copies plan (writesLeft w) hHere
  refine ⟨_, _, hCopies, ⟨h.queue, ?_, h.captured, h.unshared, h.healthy, h.err, h.closed, h.exit,
    h.producer⟩⟩
  change t.pool.workers.set i [] = _
  rw [h.workers, List.map_set, hLeft]

theorem Shows.produces (h : Shows plan s t) (hInv : SlotPipeline.Inv (plan.pipeline plan.writers) s)
    {woken : Nat} (hNext : produce (plan.pipeline plan.writers) s woken = some s') :
    Follows plan t s' := by
  have hShows := h.producer
  rw [produce] at hNext
  split at hNext
  · rename_i hPlace
    cases hNext
    rw [hPlace] at hShows
    refine Shows.follows (h.stays rfl rfl rfl rfl rfl ?_ ?_)
    · rw [hPlace]
      split <;> simp
    · split
      · rename_i hLoop
        exact ⟨hLoop.2.1, hShows⟩
      · rename_i hEnd
        by_cases hMore : s.ticket < plan.ranges.length
        · have hErr : ¬s.err = false := fun hErr => hEnd ⟨hMore, hErr, h.unshared⟩
          exact .inr (Bool.not_eq_false _ ▸ hErr)
        · exact .inl (Nat.le_of_not_lt hMore)
  · rename_i hPlace
    rw [hPlace] at hShows
    split at hNext
    · cases hNext
      exact Shows.follows (h.stays rfl rfl rfl rfl rfl (by simp [hPlace]) hShows)
    · cases hNext
      exact Shows.follows (h.stays rfl rfl rfl rfl rfl (by simp [hPlace]) hShows)
  · rename_i slot hPlace
    cases hNext
    exact h.givesBack hInv hPlace
  · rename_i item hPlace
    rw [hPlace] at hShows
    split at hNext
    · cases hNext
      exact Shows.follows (h.stays rfl rfl rfl rfl rfl (by simp [hPlace]) hShows)
    · rename_i hRoom
      obtain ⟨workers, hSignal, rfl⟩ := Option.map_eq_some_iff.mp hNext
      exact h.pushes hInv hPlace hRoom hSignal
  · rename_i hPlace
    cases hNext
    exact h.closes hInv hPlace
  · rename_i hPlace
    split at hNext
    · rename_i hGone
      cases hNext
      exact h.joins hInv hPlace (List.all_eq_true.mp hGone) _
    · cases hNext
  all_goals cases hNext

theorem Shows.fills (h : Shows plan s t) {seen : Option StreamCapture}
    (hNext : fill (plan.pipeline plan.writers) s seen = some s') : Follows plan t s' := by
  have hShows := h.producer
  rw [fill] at hNext
  split at hNext
  · rename_i slot hPlace
    rw [hPlace] at hShows
    obtain ⟨range, hRange, hFilled⟩ := Option.map_eq_some_iff.mp hNext
    split at hFilled
    · subst hFilled
      exact Shows.follows (h.stays rfl rfl rfl rfl rfl (by simp [hPlace]) hShows)
    · rename_i payload carry hSome
      subst hFilled
      refine Shows.follows (h.stays rfl rfl rfl rfl rfl (by simp [hPlace]) ?_)
      obtain ⟨c, hPayload, rfl, hCarry⟩ := baselineWriter_fill hSome
      rw [hShows.2] at hPayload hCarry
      exact ⟨hShows.1, c, hPayload, hRange, hCarry⟩
  · cases hNext

theorem Shows.turned (h : Shows plan s t) (hInv : SlotPipeline.Inv (plan.pipeline plan.writers) s)
    (hWorker : s.workers[i]? = some w) (hNext : turn s i w = some s') : Follows plan t s' := by
  rw [turn] at hNext
  split at hNext
  · rename_i hPlace
    split at hNext
    · cases hNext
      refine Shows.follows (h.stays rfl (map_set_writesLeft hWorker ?_) rfl rfl rfl Iff.rfl h.producer)
      rw [Worker.rest, writesLeft, writesLeft, hPlace]
      cases s.queue.closed <;> rfl
    · rename_i hItem
      cases hNext
      exact h.takes hInv hWorker hPlace hItem
  · rename_i item hPlace
    cases hNext
    refine Shows.follows (h.stays rfl (map_set_writesLeft hWorker ?_) rfl rfl rfl ended_slotFreed
      h.producer.slotFreed)
    rw [writesLeft, writesLeft, hPlace]
  all_goals cases hNext

theorem Shows.next (h : Shows plan s t) (hInv : SlotPipeline.Inv (plan.pipeline plan.writers) s)
    {label : Label (Option StreamCapture) Unit} (hLabel : label ≠ .share)
    (hNext : SlotPipeline.next (plan.pipeline plan.writers) s label = some s') :
    Follows plan t s' := by
  cases label with
  | produce woken => exact h.produces hInv hNext
  | fill seen => exact h.fills hNext
  | turn i =>
      obtain ⟨w, hWorker, hTurn⟩ := Option.bind_eq_some_iff.mp hNext
      exact h.turned hInv hWorker hTurn
  | handle i found =>
      obtain ⟨w, hWorker, hHandle⟩ := Option.bind_eq_some_iff.mp hNext
      rw [handle] at hHandle
      split at hHandle
      · cases hHandle
        apply h.handles hWorker
        rw [writesLeft, Worker.holds_finish]
      · cases hHandle
  | share => exact absurd rfl hLabel
  | wakeProducer =>
      cases hNext
      exact Shows.follows (h.stays rfl rfl rfl rfl rfl (ended_roomMade.trans ended_slotFreed)
        h.producer.slotFreed.roomMade)
  | wakeWorker i =>
      obtain ⟨w, hWorker, rfl⟩ := Option.map_eq_some_iff.mp hNext
      exact Shows.follows (h.stays rfl (map_set_writesLeft hWorker (writesLeft_wake w)) rfl rfl rfl
        Iff.rfl h.producer)

end Steps

section Runs

variable {plan : StreamPlan} {labels : List (Label (Option StreamCapture) Unit)}
  {s : State Nat (Sections × RangeDesc)}

theorem pipeline_followed (old : ImageFile) (hLabels : ∀ label ∈ labels, label ≠ .share)
    (hRun : execute (SlotPipeline.next (plan.pipeline plan.writers))
      (SlotPipeline.start (plan.pipeline plan.writers)) labels = some s) :
    Follows plan (plan.start old) s := by
  have hStep : ∀ (s : State Nat (Sections × RangeDesc)) (t : Stream) label s',
      SlotPipeline.Inv (plan.pipeline plan.writers) s ∧ Shows plan s t → label ≠ .share →
      SlotPipeline.next (plan.pipeline plan.writers) s label = some s' →
      ∃ events t', execute plan.next t events = some t' ∧
        SlotPipeline.Inv (plan.pipeline plan.writers) s' ∧ Shows plan s' t' := by
    intro s t label s' hs hLabel hNext
    obtain ⟨events, t', hEvents, hShows⟩ := hs.2.next hs.1 hLabel hNext
    exact ⟨events, t', hEvents, hs.1.next hNext, hShows⟩
  obtain ⟨events, t, hEvents, -, hShows⟩ := execute_followed hStep labels
    ⟨SlotPipeline.inv_start _, shows_start plan old⟩ hLabels hRun
  exact ⟨events, t, hEvents, hShows⟩

/-- When the threads have come to their end, so has a run of the stream. -/
theorem pipeline_streamRun (old : ImageFile) (hLabels : ∀ label ∈ labels, label ≠ .share)
    (hRun : execute (SlotPipeline.next (plan.pipeline plan.writers))
      (SlotPipeline.start (plan.pipeline plan.writers)) labels = some s)
    (hEnded : s.producer = .ended) :
    ∃ run : StreamRun plan old, Shows plan s run.last := by
  obtain ⟨events, t, hEvents, hShows⟩ := pipeline_followed old hLabels hRun
  have hExit : t.exit ≠ none := fun hNone => hShows.exit.mp hNone hEnded
  exact ⟨⟨events, t, hEvents, hExit⟩, hShows⟩

end Runs

end FlashCkpt.Core
