import FlashCkpt.Image.IncDelta
import FlashCkpt.Library.Transition
import FlashCkpt.Library.WorkerPool
import Mathlib.Algebra.Order.BigOperators.Group.List
import Mathlib.Algebra.Order.Group.Nat

/-! The streaming pipeline of ckpt_core, for base images and deltas. The main thread captures
one range after the other and hands the captures to a pool of writers, which copy them into
the mapped file. Header and table are written when the writers have ended. The file is the
one an earlier run left: it is never truncated. -/
namespace FlashCkpt.Core

open ByteImage Crypto Image Transition WorkerPool

/-- `baseline_stream_resolve_workers`, with the value of CKPT_WRITER_THREADS. -/
def resolveWorkers (threads : Option Int) : Nat :=
  let n := threads.getD 4
  if n < 1 then 1 else if 16 < n then 16 else n.toNat

/-- `is_delta`. -/
inductive StreamFormat where
  | base
  | delta
  deriving DecidableEq, Repr

def StreamFormat.headerSize : StreamFormat → Nat
  | .base => fileHeaderSize
  | .delta => deltaHeaderSize

/-- `CKPT_V2_MAGIC` and `CKPT_INC_DELTA_MAGIC`. -/
def StreamFormat.magic : StreamFormat → Nat
  | .base => 0xC2C2C2C2
  | .delta => incDeltaMagic

def StreamFormat.version : StreamFormat → Nat
  | .base => 3
  | .delta => incDeltaVersion

/-- The ranges to capture, each with its base and its size, and the writers. -/
structure StreamPlan where
  format : StreamFormat
  ranges : List (Nat × Nat)
  threads : Option Int

def StreamPlan.writers (plan : StreamPlan) : Nat := resolveWorkers plan.threads

/-- The offset of the first range's data. -/
def StreamPlan.reserve (plan : StreamPlan) : Nat :=
  plan.format.headerSize + plan.ranges.length * rangeDescSize

/-- `baseline_worst_case_size`: the residency map, the pages and the metadata of a range. -/
def worstCaseRange (size : Nat) : Nat :=
  size / pageSize + size + size / pageSize * cryptoMetaSize

def StreamPlan.worstSize (plan : StreamPlan) : Nat :=
  plan.reserve + (plan.ranges.map fun r => worstCaseRange r.2).sum

/-- The file at the image path: what the readers take from its header, the descriptors the
header counts, and its bytes. -/
structure ImageFile where
  magic : Nat
  version : Nat
  descs : List RangeDesc
  data : ByteImage.Image
  size : Nat

/-- What `capture_range_encrypted` returns when it succeeds. -/
structure StreamCapture where
  sections : Sections
  pages : sections.resmap.length = sections.length / pageSize
  fits : sections.Fits

/-- An entry of `calloc`'s table. -/
def zeroDesc : RangeDesc := ⟨0, 0, 0, 0, 0, 0, 0, 0⟩

/-- `baseline_stream_t` with the file it maps, and the main thread: the captures it has made,
whose number is its loop variable, its `err`, and its exit code once it has one. -/
structure Stream where
  pool : Pool (Sections × RangeDesc) Write
  captured : List StreamCapture
  descs : List RangeDesc
  curOff : Nat
  sharedErr : Bool
  err : Bool
  closed : Bool
  file : ImageFile
  exit : Option Bool

/-- `baseline_stream_start`. -/
def StreamPlan.start (plan : StreamPlan) (old : ImageFile) : Stream where
  pool := .start plan.writers
  captured := []
  descs := List.replicate plan.ranges.length zeroDesc
  curOff := plan.reserve
  sharedErr := false
  err := false
  closed := false
  file := { old with size := max old.size plan.worstSize }
  exit := none

/-- What the main thread, a writer and the calls at the end do: a capture succeeds or fails,
the queue is closed, a writer takes an item or copies a section, and the stream is joined,
with the results of `msync` and `munmap`. -/
inductive StreamEvent where
  | capture (c : StreamCapture)
  | captureFails
  | close
  | pop (writer : Nat)
  | copy (writer : Nat)
  | finish (synced unmapped : Bool)

namespace Stream

variable (plan : StreamPlan) (s : Stream)

/-- The condition of the capture loop. -/
def inLoop : Bool :=
  !s.closed && s.captured.length < plan.ranges.length && !s.err && !s.sharedErr

/-- `capture_pool_acquire` does not wait: a slot of the staging buffers is free. -/
def slotFree : Bool := s.pool.load < 2 * plan.writers

/-- `baseline_stream_enqueue`. -/
def enqueue (c : StreamCapture) : Stream :=
  let desc := c.sections.descAt s.curOff
  { s with
    pool := s.pool.push (c.sections, desc)
    captured := s.captured ++ [c]
    descs := s.descs.set s.captured.length desc
    curOff := desc.stop }

/-- What a writer copies of an item: nothing once an error is shared. -/
def copies (item : Sections × RangeDesc) : List Write :=
  if s.sharedErr then [] else sectionWrites item

/-- `baseline_stream_join` behind the writers' end, and the exit of `main`. -/
def join (synced unmapped : Bool) : Stream :=
  let failed := s.sharedErr || !synced || !unmapped
  { s with
    file := if s.sharedErr then s.file else
      { s.file with
        magic := plan.format.magic, version := plan.format.version, descs := s.descs }
    exit := some (s.err || failed) }

end Stream

def StreamPlan.next (plan : StreamPlan) (s : Stream) : StreamEvent → Option Stream
  | .capture c =>
      if s.inLoop plan ∧ s.slotFree plan ∧
          plan.ranges[s.captured.length]? = some (c.sections.baseVa, c.sections.length) then
        some (s.enqueue c)
      else none
  | .captureFails =>
      if s.inLoop plan ∧ s.slotFree plan then some { s with err := true } else none
  | .close => if s.closed ∨ s.inLoop plan then none else some { s with closed := true }
  | .pop writer => (s.pool.pop s.copies writer).map fun pool => { s with pool := pool }
  | .copy writer =>
      (s.pool.work writer).map fun (copied, pool) =>
        { s with pool := pool, file := { s.file with data := write s.file.data copied } }
  | .finish synced unmapped =>
      if s.closed ∧ s.pool.resting ∧ s.exit = none then some (s.join plan synced unmapped)
      else none

/-- A run of the pipeline over an earlier file, until `main` has its exit code. -/
structure StreamRun (plan : StreamPlan) (old : ImageFile) where
  events : List StreamEvent
  last : Stream
  reached : execute plan.next (plan.start old) events = some last
  ended : last.exit ≠ none

/-- A run that ends with an error. -/
structure FailedRun (plan : StreamPlan) (old : ImageFile) extends StreamRun plan old where
  failed : last.exit = some true

/-- The readers take the file: they look at its magic. -/
def ImageFile.Accepted (format : StreamFormat) (f : ImageFile) : Prop := f.magic = format.magic

/-- The descriptor listed at this place is that of a capture, all of whose sections stand in
the file. -/
def Stream.Backed (s : Stream) (i : Nat) (d : RangeDesc) : Prop :=
  ∃ c, s.captured[i]? = some c ∧ StoredAt s.file.data s.file.size c.sections d

/-- The readers do not take the file, or each descriptor it lists is backed by data written
in full. -/
def Stream.LooksIncomplete (plan : StreamPlan) (s : Stream) : Prop :=
  ¬ s.file.Accepted plan.format ∨ ∀ i d, s.file.descs[i]? = some d → s.Backed i d

theorem imageSize_concat (ranges : List Sections) (r : Sections) (off : Nat) :
    imageSize (ranges ++ [r]) off = (r.descAt (imageSize ranges off)).stop := by
  induction ranges generalizing off with
  | nil => rfl
  | cons first rest ih => exact ih (first.descAt off).stop

theorem placed_concat (ranges : List Sections) (r : Sections) (off : Nat) :
    placed (ranges ++ [r]) off =
      placed ranges off ++ [(r, r.descAt (imageSize ranges off))] := by
  induction ranges generalizing off with
  | nil => rfl
  | cons first rest ih => exact congrArg (_ :: ·) (ih (first.descAt off).stop)

theorem placed_fst (ranges : List Sections) (off : Nat) :
    (placed ranges off).map Prod.fst = ranges := by
  induction ranges generalizing off with
  | nil => rfl
  | cons first rest ih => exact congrArg (first :: ·) (ih (first.descAt off).stop)

theorem placed_length (ranges : List Sections) (off : Nat) :
    (placed ranges off).length = ranges.length := by
  rw [← List.length_map, placed_fst]

/-- An order in which the writes were carried out. -/
def scheduleOf {order writes : List Write} (h : order.Perm writes) : Schedule where
  order given := if given = writes then order else given
  perm given := by
    split
    · rename_i hGiven
      rw [hGiven]
      exact h
    · exact List.Perm.refl _

theorem scheduleOf_order {order writes : List Write} (h : order.Perm writes) :
    (scheduleOf h).order writes = order := if_pos rfl

namespace Stream

variable {plan : StreamPlan} {old : ImageFile} {s t : Stream}

/-- The sections captured so far. -/
def sections (s : Stream) : List Sections := s.captured.map StreamCapture.sections

/-- The captures with the descriptors of their places in the file. -/
def table (plan : StreamPlan) (s : Stream) : List (Sections × RangeDesc) :=
  placed s.sections plan.reserve

@[simp] theorem sections_length (s : Stream) : s.sections.length = s.captured.length := by
  simp [sections]

@[simp] theorem table_length (plan : StreamPlan) (s : Stream) :
    (s.table plan).length = s.captured.length := by
  rw [table, placed_length, sections_length]

theorem table_getElem? (plan : StreamPlan) (s : Stream) (i : Nat) :
    ((s.table plan)[i]?).map Prod.fst = (s.captured[i]?).map StreamCapture.sections := by
  rw [← List.getElem?_map, table, placed_fst, sections, List.getElem?_map]

/-- What holds between two steps. The table has the descriptors of the captures and zeros
behind them, and what the writers copied and have still to copy are the sections of the
captures. -/
structure Inv (plan : StreamPlan) (old : ImageFile) (s : Stream) : Prop where
  planned : s.captured.map (fun c => (c.sections.baseVa, c.sections.length)) =
    plan.ranges.take s.captured.length
  inside : s.captured.length ≤ plan.ranges.length
  curOff : s.curOff = imageSize s.sections plan.reserve
  descs : s.descs = (s.table plan).map Prod.snd ++
    List.replicate (plan.ranges.length - s.captured.length) zeroDesc
  copied : ∃ order, s.file.data = writeAll old.data order ∧
    (order ++ s.pool.pending sectionWrites).Perm ((s.table plan).flatMap sectionWrites)
  healthy : s.sharedErr = false
  size : s.file.size = max old.size plan.worstSize
  stopped : s.err = true → s.captured.length < plan.ranges.length
  closed : s.closed = true → s.err = true ∨ s.captured.length = plan.ranges.length
  joined : s.exit ≠ none → s.closed = true ∧ s.pool.resting = true ∧
    s.file.magic = plan.format.magic ∧ s.file.version = plan.format.version ∧
    s.file.descs = s.descs

theorem inv_start (plan : StreamPlan) (old : ImageFile) : Inv plan old (plan.start old) where
  planned := rfl
  inside := Nat.zero_le _
  curOff := rfl
  descs := rfl
  copied := ⟨[], rfl, by rw [StreamPlan.start, pending_start]; exact List.Perm.refl _⟩
  healthy := rfl
  size := rfl
  stopped := (nomatch ·)
  closed := (nomatch ·)
  joined := fun h => absurd rfl h

/-- In the loop there is a range to capture, and nothing has failed or ended yet. -/
theorem inLoop_iff : s.inLoop plan = true ↔ s.closed = false ∧
    s.captured.length < plan.ranges.length ∧ s.err = false ∧ s.sharedErr = false := by
  simp [inLoop, and_assoc]

/-- What each step does. -/
theorem next_cases {event : StreamEvent} (h : plan.next s event = some t) :
    (∃ c, event = .capture c ∧ s.inLoop plan = true ∧
      plan.ranges[s.captured.length]? = some (c.sections.baseVa, c.sections.length) ∧
      t = s.enqueue c) ∨
    (event = .captureFails ∧ s.inLoop plan = true ∧ t = { s with err := true }) ∨
    (event = .close ∧ s.closed = false ∧ s.inLoop plan = false ∧
      t = { s with closed := true }) ∨
    (∃ writer pool, event = .pop writer ∧ s.pool.pop s.copies writer = some pool ∧
      t = { s with pool := pool }) ∨
    (∃ writer copied pool, event = .copy writer ∧ s.pool.work writer = some (copied, pool) ∧
      t = { s with pool := pool, file := { s.file with data := write s.file.data copied } }) ∨
    (∃ synced unmapped, event = .finish synced unmapped ∧ s.closed = true ∧
      s.pool.resting = true ∧ s.exit = none ∧ t = s.join plan synced unmapped) := by
  cases event with
  | capture c =>
      obtain ⟨⟨hLoop, -, hRange⟩, hNext⟩ := Option.ite_none_right_eq_some.mp h
      exact .inl ⟨c, rfl, hLoop, hRange, (Option.some.inj hNext).symm⟩
  | captureFails =>
      obtain ⟨⟨hLoop, -⟩, hNext⟩ := Option.ite_none_right_eq_some.mp h
      exact .inr (.inl ⟨rfl, hLoop, (Option.some.inj hNext).symm⟩)
  | close =>
      obtain ⟨hOver, hNext⟩ := Option.ite_none_left_eq_some.mp h
      rw [not_or, Bool.not_eq_true, Bool.not_eq_true] at hOver
      exact .inr (.inr (.inl ⟨rfl, hOver.1, hOver.2, (Option.some.inj hNext).symm⟩))
  | pop writer =>
      obtain ⟨pool, hPop, hNext⟩ := Option.map_eq_some_iff.mp h
      exact .inr (.inr (.inr (.inl ⟨writer, pool, rfl, hPop, hNext.symm⟩)))
  | copy writer =>
      obtain ⟨⟨copied, pool⟩, hWork, hNext⟩ := Option.map_eq_some_iff.mp h
      exact .inr (.inr (.inr (.inr (.inl ⟨writer, copied, pool, rfl, hWork, hNext.symm⟩))))
  | finish synced unmapped =>
      obtain ⟨⟨hClosed, hResting, hExit⟩, hNext⟩ := Option.ite_none_right_eq_some.mp h
      exact .inr (.inr (.inr (.inr (.inr
        ⟨synced, unmapped, rfl, hClosed, hResting, hExit, (Option.some.inj hNext).symm⟩))))

theorem table_enqueue (hOff : s.curOff = imageSize s.sections plan.reserve) (c : StreamCapture) :
    (s.enqueue c).table plan = s.table plan ++ [(c.sections, c.sections.descAt s.curOff)] := by
  rw [table, sections, enqueue, List.map_append]
  exact (placed_concat _ _ _).trans (by rw [hOff]; rfl)

/-- The descriptor of a capture replaces the first of the zeros. -/
theorem set_append_replicate {front : List RangeDesc} {n : Nat} (hLt : front.length < n)
    (d : RangeDesc) :
    (front ++ List.replicate (n - front.length) zeroDesc).set front.length d =
      (front ++ [d]) ++ List.replicate (n - (front.length + 1)) zeroDesc := by
  obtain ⟨k, hk⟩ : ∃ k, n - front.length = k + 1 := ⟨n - front.length - 1, by omega⟩
  rw [hk, show n - (front.length + 1) = k by omega, List.replicate_succ,
    List.set_append_right _ _ (Nat.le_refl _), Nat.sub_self, List.set_cons_zero,
    List.append_assoc, List.singleton_append]

theorem inv_enqueue (hInv : Inv plan old s) (hLoop : s.inLoop plan = true) {c : StreamCapture}
    (hRange : plan.ranges[s.captured.length]? = some (c.sections.baseVa, c.sections.length)) :
    Inv plan old (s.enqueue c) := by
  obtain ⟨hClosed, hLt, hErr, -⟩ := inLoop_iff.mp hLoop
  have hTable := table_enqueue hInv.curOff c
  have hLength : ((s.table plan).map Prod.snd).length = s.captured.length := by
    rw [List.length_map, table_length]
  refine ⟨?_, ?_, ?_, ?_, ?_, hInv.healthy, hInv.size, ?_, ?_, ?_⟩
  · simp only [enqueue, List.map_append, List.map_cons, List.map_nil, List.length_append,
      List.length_singleton]
    rw [hInv.planned, List.take_add_one, hRange]
    rfl
  · simp only [enqueue, List.length_append, List.length_singleton]
    exact hLt
  · simp only [enqueue, sections, List.map_append, List.map_cons, List.map_nil]
    rw [imageSize_concat, ← sections, ← hInv.curOff]
  · rw [hTable, List.map_append]
    simp only [enqueue, List.length_append, List.length_singleton]
    rw [hInv.descs, ← hLength, set_append_replicate (by rw [hLength]; exact hLt)]
    rfl
  · obtain ⟨order, hData, hPerm⟩ := hInv.copied
    refine ⟨order, hData, ?_⟩
    rw [hTable, List.flatMap_append]
    simp only [enqueue, pending_push]
    rw [← List.append_assoc]
    exact hPerm.append (by simp)
  · exact fun hFailed => Bool.noConfusion (hErr.symm.trans hFailed)
  · exact fun hOver => Bool.noConfusion (hClosed.symm.trans hOver)
  · exact fun hExit => Bool.noConfusion (hClosed.symm.trans (hInv.joined hExit).1)

theorem inv_join (hInv : Inv plan old s) (hClosed : s.closed = true)
    (hResting : s.pool.resting = true) (synced unmapped : Bool) :
    Inv plan old (s.join plan synced unmapped) := by
  have hFile : (s.join plan synced unmapped).file =
      { s.file with
        magic := plan.format.magic, version := plan.format.version, descs := s.descs } := by
    rw [join, hInv.healthy]
    rfl
  refine ⟨hInv.planned, hInv.inside, hInv.curOff, hInv.descs, ?_, hInv.healthy, ?_,
    hInv.stopped, hInv.closed, fun _ => ?_⟩
  · rw [hFile]
    exact hInv.copied
  · rw [hFile]
    exact hInv.size
  · rw [hFile]
    exact ⟨hClosed, hResting, rfl, rfl, rfl⟩

theorem inv_next {event : StreamEvent} (hInv : Inv plan old s)
    (hNext : plan.next s event = some t) : Inv plan old t := by
  rcases next_cases hNext with ⟨c, rfl, hLoop, hRange, rfl⟩ | ⟨rfl, hLoop, rfl⟩ |
    ⟨rfl, hOpen, hOver, rfl⟩ | ⟨writer, pool, rfl, hPop, rfl⟩ |
    ⟨writer, copied, pool, rfl, hWork, rfl⟩ | ⟨synced, unmapped, rfl, hClosed, hResting, -, rfl⟩
  · exact inv_enqueue hInv hLoop hRange
  · obtain ⟨hOpen, hLt, -, -⟩ := inLoop_iff.mp hLoop
    exact { hInv with
      stopped := fun _ => hLt
      closed := fun hClosed => Bool.noConfusion (hOpen.symm.trans hClosed) }
  · refine { hInv with closed := fun _ => ?_, joined := fun hExit => ?_ }
    · by_contra hEnd
      rw [not_or, Bool.not_eq_true] at hEnd
      have hLoop : s.inLoop plan = true :=
        inLoop_iff.mpr ⟨hOpen, Nat.lt_of_le_of_ne hInv.inside hEnd.2, hEnd.1, hInv.healthy⟩
      exact Bool.noConfusion (hOver.symm.trans hLoop)
    · exact Bool.noConfusion (hOpen.symm.trans (hInv.joined hExit).1)
  · obtain ⟨order, hData, hPerm⟩ := hInv.copied
    have hCopies : s.copies = sectionWrites := by
      funext item
      rw [copies, hInv.healthy]
      rfl
    rw [hCopies] at hPop
    refine { hInv with copied := ⟨order, hData, ?_⟩, joined := fun hExit => ?_ }
    · exact ((pending_pop hPop).append_left order).trans hPerm
    · exact absurd (hPop.symm.trans (pop_resting (hInv.joined hExit).2.1)) (Option.some_ne_none _)
  · obtain ⟨order, hData, hPerm⟩ := hInv.copied
    refine { hInv with copied := ⟨order ++ [copied], ?_, ?_⟩, joined := fun hExit => ?_ }
    · rw [writeAll, List.foldl_concat, ← writeAll, ← hData]
    · rw [List.append_assoc, List.singleton_append]
      exact ((pending_work hWork).symm.append_left order).trans hPerm
    · exact absurd (hWork.symm.trans (work_resting (hInv.joined hExit).2.1)) (Option.some_ne_none _)
  · exact inv_join hInv hClosed hResting synced unmapped

theorem err_next {event : StreamEvent} (hNext : plan.next s event = some t) :
    t.err = true ↔ s.err = true ∨ event = .captureFails := by
  rcases next_cases hNext with ⟨c, rfl, -, -, rfl⟩ | ⟨rfl, -, rfl⟩ | ⟨rfl, -, -, rfl⟩ |
    ⟨writer, pool, rfl, -, rfl⟩ | ⟨writer, copied, pool, rfl, -, rfl⟩ |
    ⟨synced, unmapped, rfl, -, -, -, rfl⟩
  · exact (or_iff_left (nomatch ·)).symm
  · exact iff_of_true rfl (.inr rfl)
  · exact (or_iff_left (nomatch ·)).symm
  · exact (or_iff_left (nomatch ·)).symm
  · exact (or_iff_left (nomatch ·)).symm
  · exact (or_iff_left (nomatch ·)).symm

/-- The main thread's `err` tells whether a capture failed. -/
theorem err_execute {events : List StreamEvent} (h : execute plan.next s events = some t) :
    t.err = true ↔ s.err = true ∨ .captureFails ∈ events := by
  induction events generalizing s with
  | nil =>
      cases h
      exact (or_iff_left List.not_mem_nil).symm
  | cons event rest ih =>
      rw [execute_cons, Option.bind_eq_some_iff] at h
      obtain ⟨middle, hNext, hRest⟩ := h
      rw [ih hRest, err_next hNext, List.mem_cons, or_assoc, @eq_comm _ event]

/-- The entries of the captured ranges. -/
theorem descs_getElem? (hInv : Inv plan old s) {i : Nat} (hLt : i < s.captured.length) :
    ∃ p ∈ s.table plan, s.descs[i]? = some p.2 ∧
      (s.captured[i]?).map StreamCapture.sections = some p.1 := by
  have hTable : i < (s.table plan).length := by rwa [table_length]
  refine ⟨(s.table plan)[i], List.getElem_mem hTable, ?_, ?_⟩
  · rw [hInv.descs, List.getElem?_append_left (by rwa [List.length_map, table_length]),
      List.getElem?_map, List.getElem?_eq_getElem hTable]
    rfl
  · rw [← table_getElem? plan, List.getElem?_eq_getElem hTable]
    rfl

theorem worstCaseRange_le (c : StreamCapture) :
    c.sections.resmap.length + c.sections.resmap.length * pageSize +
      c.sections.resmap.length * cryptoMetaSize ≤ worstCaseRange c.sections.length := by
  have hPages := Nat.div_mul_le_self c.sections.length pageSize
  rw [worstCaseRange, c.pages]
  omega

/-- The captures lie in the space that was mapped for the planned ranges. -/
theorem table_stop_worst (hInv : Inv plan old s) {p : Sections × RangeDesc}
    (hp : p ∈ s.table plan) : p.2.stop ≤ plan.worstSize := by
  have hFits : ∀ r ∈ s.sections, r.Fits := by
    intro r hr
    obtain ⟨c, -, rfl⟩ := List.mem_map.mp hr
    exact c.fits
  have hRanges : (s.captured.map fun c => worstCaseRange c.sections.length).sum ≤
      (plan.ranges.map fun r => worstCaseRange r.2).sum := by
    have hPlanned := congrArg (List.map fun r => worstCaseRange r.2) hInv.planned
    rw [List.map_map] at hPlanned
    rw [show (fun c : StreamCapture => worstCaseRange c.sections.length) =
      (fun r : Nat × Nat => worstCaseRange r.2) ∘
        fun c : StreamCapture => (c.sections.baseVa, c.sections.length) from rfl, hPlanned]
    exact ((List.take_sublist _ _).map _).sum_le_sum (by simp)
  have hWorst : worstCaseSize plan.reserve s.sections ≤
      plan.reserve + (s.captured.map fun c => worstCaseRange c.sections.length).sum := by
    rw [worstCaseSize, sections, List.map_map]
    exact Nat.add_le_add_left (List.sum_le_sum fun c _ => worstCaseRange_le c) _
  have hStop := placed_stop hFits hp
  rw [StreamPlan.worstSize]
  omega

theorem table_stop (hInv : Inv plan old s) {p : Sections × RangeDesc} (hp : p ∈ s.table plan) :
    p.2.stop ≤ s.file.size := by
  rw [hInv.size]
  exact Nat.le_trans (table_stop_worst hInv hp) (Nat.le_max_right _ _)

/-- At rest the sections of every capture stand in the file. -/
theorem stored (hInv : Inv plan old s) (hResting : s.pool.resting = true)
    {p : Sections × RangeDesc} (hp : p ∈ s.table plan) :
    StoredAt s.file.data s.file.size p.1 p.2 := by
  obtain ⟨order, hData, hPerm⟩ := hInv.copied
  rw [pending_resting hResting, List.append_nil] at hPerm
  have hStored := storedAt_writeAll (scheduleOf hPerm) old.data (fun q => table_stop hInv) hp
  rwa [← table, scheduleOf_order, ← hData] at hStored

/-- With all ranges captured, each descriptor of the table is backed. -/
theorem backed (hInv : Inv plan old s) (hResting : s.pool.resting = true)
    (hAll : s.captured.length = plan.ranges.length) {i : Nat} {d : RangeDesc}
    (hDesc : s.descs[i]? = some d) : s.Backed i d := by
  have hLt : i < s.captured.length := by
    have hLength : s.descs.length = s.captured.length := by
      simp [hInv.descs, hAll]
    rw [← hLength]
    exact (List.getElem?_eq_some_iff.mp hDesc).1
  obtain ⟨p, hp, hEntry, hCapture⟩ := descs_getElem? hInv hLt
  obtain ⟨c, hc, hSections⟩ := Option.map_eq_some_iff.mp hCapture
  cases hDesc.symm.trans hEntry
  refine ⟨c, hc, ?_⟩
  rw [hSections]
  exact stored hInv hResting hp

/-- The first range that was not captured has a descriptor of zeros, behind which there is
no capture. -/
theorem not_backed (hInv : Inv plan old s) (hLt : s.captured.length < plan.ranges.length) :
    s.descs[s.captured.length]? = some zeroDesc ∧ ∀ d, ¬ s.Backed s.captured.length d := by
  refine ⟨?_, fun d ⟨c, hc, _⟩ => ?_⟩
  · have hLength : ((s.table plan).map Prod.snd).length = s.captured.length := by
      rw [List.length_map, table_length]
    rw [hInv.descs, List.getElem?_append_right (Nat.le_of_eq hLength), hLength, Nat.sub_self,
      List.getElem?_replicate, if_pos (Nat.sub_pos_of_lt hLt)]
  · rw [List.getElem?_eq_none (Nat.le_refl _)] at hc
    cases hc

end Stream

namespace StreamRun

variable {plan : StreamPlan} {old : ImageFile} (run : StreamRun plan old)

theorem inv : Stream.Inv plan old run.last := by
  have hStep : ∀ s event t, True → Stream.Inv plan old s → plan.next s event = some t →
      Stream.Inv plan old t := fun _ _ _ _ hInv hNext => Stream.inv_next hInv hNext
  exact invariant_along hStep run.events _ _ (Stream.inv_start plan old)
    (along_of_forall (fun _ _ => trivial) _) run.reached

theorem err_iff : run.last.err = true ↔ .captureFails ∈ run.events := by
  rw [Stream.err_execute run.reached]
  exact or_iff_right (nomatch ·)

/-- After a run in which each capture succeeds, every range was captured. -/
theorem captured_length_iff :
    run.last.captured.length = plan.ranges.length ↔ .captureFails ∉ run.events := by
  obtain ⟨hClosed, -⟩ := run.inv.joined run.ended
  rw [← run.err_iff]
  refine ⟨fun hAll hErr => ?_, fun hErr => (run.inv.closed hClosed).resolve_left hErr⟩
  exact absurd hAll (Nat.ne_of_lt (run.inv.stopped hErr))

/-- Whatever failed, the file has a header and a table for all planned ranges. -/
theorem file_eq : run.last.file.Accepted plan.format ∧
    run.last.file.descs = run.last.descs ∧ run.last.file.descs.length = plan.ranges.length := by
  obtain ⟨-, -, hMagic, -, hDescs⟩ := run.inv.joined run.ended
  refine ⟨hMagic, hDescs, ?_⟩
  have := run.inv.inside
  rw [hDescs, run.inv.descs, List.length_append, List.length_map, Stream.table_length,
    List.length_replicate]
  omega

/-- Whatever the writers' turns were, the bytes are those of some order of all copies. -/
theorem exists_schedule : ∃ pool : Schedule, run.last.file.data =
    writeAll old.data (pool.order ((run.last.table plan).flatMap sectionWrites)) := by
  obtain ⟨order, hData, hPerm⟩ := run.inv.copied
  rw [pending_resting (run.inv.joined run.ended).2.1, List.append_nil] at hPerm
  exact ⟨scheduleOf hPerm, by rw [scheduleOf_order, hData]⟩

section Complete

variable (hAll : .captureFails ∉ run.events) (hPages : ∀ r ∈ plan.ranges, pageSize ∣ r.2)
include hAll

theorem descs_eq : run.last.file.descs = (run.last.table plan).map Prod.snd := by
  rw [run.file_eq.2.1, run.inv.descs, run.captured_length_iff.mpr hAll, Nat.sub_self,
    List.replicate_zero, List.append_nil]

theorem reserve_eq :
    plan.reserve = plan.format.headerSize + run.last.sections.length * rangeDescSize := by
  rw [StreamPlan.reserve, Stream.sections_length, run.captured_length_iff.mpr hAll]

include hPages

/-- The mapping is as large as the captures can make it. -/
theorem size_eq : run.last.file.size =
    max old.size (worstCaseSize plan.reserve run.last.sections) := by
  have hPlanned := run.inv.planned
  rw [run.captured_length_iff.mpr hAll, List.take_length] at hPlanned
  have hRange : ∀ c ∈ run.last.captured, worstCaseRange c.sections.length =
      c.sections.resmap.length + c.sections.resmap.length * pageSize +
        c.sections.resmap.length * cryptoMetaSize := by
    intro c hc
    have hMem : (c.sections.baseVa, c.sections.length) ∈ plan.ranges := by
      rw [← hPlanned]
      exact List.mem_map_of_mem (f := fun c : StreamCapture =>
        (c.sections.baseVa, c.sections.length)) hc
    rw [worstCaseRange, c.pages, Nat.div_mul_cancel (hPages _ hMem)]
  have hSizes : plan.ranges.map (fun r => worstCaseRange r.2) =
      run.last.captured.map fun c => c.sections.resmap.length +
        c.sections.resmap.length * pageSize + c.sections.resmap.length * cryptoMetaSize := by
    rw [← hPlanned, List.map_map]
    exact List.map_congr_left hRange
  rw [run.inv.size, StreamPlan.worstSize, hSizes, worstCaseSize, Stream.sections, List.map_map]
  rfl

/-- A run without a failed capture leaves the base image of the earlier model. -/
theorem refines_streamBaseline (hFormat : plan.format = .base) : ∃ pool : Schedule,
    (⟨run.last.file.version, run.last.file.descs, run.last.file.data, run.last.file.size⟩ :
      BaseFile) = streamBaseline 3 run.last.sections pool old.data old.size := by
  obtain ⟨pool, hData⟩ := run.exists_schedule
  have hVersion := (run.inv.joined run.ended).2.2.2.1
  have hReserve := run.reserve_eq hAll
  rw [hFormat] at hVersion hReserve
  refine ⟨pool, ?_⟩
  rw [hVersion, run.descs_eq hAll, hData, run.size_eq hAll hPages, Stream.table, hReserve]
  rfl

/-- So does a run for a delta. -/
theorem refines_writeDelta (hFormat : plan.format = .delta) : ∃ pool : Schedule,
    (⟨run.last.file.magic, run.last.file.version, run.last.file.descs, run.last.file.data,
      run.last.file.size⟩ : IncDelta) =
        writeDelta .streaming run.last.sections pool old.data old.size := by
  obtain ⟨pool, hData⟩ := run.exists_schedule
  obtain ⟨-, -, hMagic, hVersion, -⟩ := run.inv.joined run.ended
  have hReserve := run.reserve_eq hAll
  rw [hFormat] at hMagic hVersion hReserve
  refine ⟨pool, ?_⟩
  rw [hMagic, hVersion, run.descs_eq hAll, hData, run.size_eq hAll hPages, Stream.table, hReserve]
  rfl

end Complete

end StreamRun

/-- After a run that ended with an error the file does not look complete exactly when no
capture failed. -/
theorem FailedRun.looksIncomplete_iff {plan : StreamPlan} {old : ImageFile}
    (run : FailedRun plan old) :
    run.last.LooksIncomplete plan ↔ StreamEvent.captureFails ∉ run.events := by
  obtain ⟨hAccepted, hDescs, -⟩ := run.file_eq
  rw [← run.captured_length_iff, Stream.LooksIncomplete, or_iff_right (not_not.mpr hAccepted),
    hDescs]
  constructor
  · intro hBacked
    by_contra hNot
    obtain ⟨hZero, hNone⟩ :=
      Stream.not_backed run.inv (Nat.lt_of_le_of_ne run.inv.inside hNot)
    exact hNone _ (hBacked _ _ hZero)
  · exact fun hAll i d hDesc =>
      Stream.backed run.inv (run.inv.joined run.ended).2.1 hAll hDesc

section SecondFails

/-- Two ranges of one page. -/
def twoRanges : StreamPlan := ⟨.base, [(4096, 4096), (8192, 4096)], none⟩

/-- A page that lies nowhere. -/
def absentPage : StreamCapture where
  sections := ⟨4096, 4096, [2], [], [], []⟩
  pages := rfl
  fits := ⟨by decide, by decide⟩

/-- The first range is captured and copied, the capture of the second fails. -/
def secondFails : FailedRun twoRanges ⟨0, 0, [], fun _ => 0, 0⟩ where
  events := [.capture absentPage, .captureFails, .pop 0, .copy 0, .copy 0, .copy 0, .copy 0,
    .close, .finish true true]
  last := _
  reached := rfl
  ended := (nomatch ·)
  failed := rfl

theorem not_looksIncomplete_secondFails :
    StreamEvent.captureFails ∈ secondFails.events ∧
      ¬ secondFails.last.LooksIncomplete twoRanges := by
  refine ⟨.tail _ (.head _), fun h => ?_⟩
  obtain ⟨c, hc, -⟩ := (h.resolve_left fun hNot => hNot rfl) 1 zeroDesc rfl
  cases hc

end SecondFails

end FlashCkpt.Core
