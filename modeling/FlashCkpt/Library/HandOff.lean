import FlashCkpt.Library.PingPong
import Mathlib.Algebra.BigOperators.Group.List.Basic

/-! Two slots between two threads, under a mutex with a condition variable for each
direction. A thread that waits gives the mutex back and sleeps until it is woken, by a signal
or by chance, and then looks again. Between its turns in the mutex the producer fills the
buffer of its slot, and the consumer looks at the slot it has been given. -/
namespace HandOff

open Transition
open PingPong (lane lane_succ lane_succ_succ lane_succ_ne Side)

variable {Item Carry Desc Buffer Count : Type}

/-- The copies that fill the buffer of an item, and whether one that fails ends the work of
the producer; the description of an item, with what is carried on to the next one; how often
the consumer looks at a slot before the look that is counted, and what it counts. -/
structure Code (Item Carry Desc Count : Type) where
  copies : Item → Nat
  stops : Bool
  describe : Carry → Item → Desc
  advance : Carry → Item → Carry
  looks : Nat
  amount : Desc → Count

inductive Producer where
  | test
  | asleep
  | copying (left : Nat)
  | describe
  | raise
  | finish
  | joining
  deriving DecidableEq, Repr

inductive Consumer (Desc Buffer : Type) where
  | test
  | asleep
  | looking (seen : List (Desc × Buffer))
  | release
  | exited

/-- The shared slots and the places of the threads, with the items filled and emptied, all
that was handed over and all that was seen of it. -/
structure State (Carry Desc Buffer Count : Type) where
  ready : Bool → Bool
  slots : Bool → Desc
  buffers : Bool → Buffer
  done : Bool
  producer : Producer
  filled : Nat
  carry : Carry
  consumer : Consumer Desc Buffer
  emptied : Nat
  total : Count
  published : List (Desc × Buffer)
  drained : List (List (Desc × Buffer))

/-- A step of a thread; a copy of the producer, with what the buffer holds behind it, or one
that fails; and a thread that wakes by chance. -/
inductive Label (Buffer : Type) where
  | step (side : Side)
  | copy (buffer : Buffer)
  | fail
  | wake (side : Side)

/-- The thread sleeps, so a signal finds it. -/
def Producer.wake : Producer → Producer
  | .asleep => .test
  | p => p

def Consumer.wake : Consumer Desc Buffer → Consumer Desc Buffer
  | .asleep => .test
  | c => c

section System

variable [Add Count] (code : Code Item Carry Desc Count) (items : List Item)

/-- Where the loop of the producer goes on. -/
def loopTest (filled : Nat) : Producer := if filled < items.length then .test else .finish

def start (slots : Bool → Desc) (buffers : Bool → Buffer) (carry : Carry) (total : Count) :
    State Carry Desc Buffer Count where
  ready := fun _ => false
  slots := slots
  buffers := buffers
  done := false
  producer := loopTest items 0
  filled := 0
  carry := carry
  consumer := .test
  emptied := 0
  total := total
  published := []
  drained := []

/-- The producer has the mutex from the description of its item to the flag. -/
def produce (s : State Carry Desc Buffer Count) (item : Item) : Option (State Carry Desc Buffer Count) :=
  match s.producer with
  | .test =>
      some { s with
        producer := if s.ready (lane s.filled) then .asleep else .copying (code.copies item) }
  | .copying 0 => some { s with producer := .describe }
  | .describe => some { s with
      slots := Function.update s.slots (lane s.filled) (code.describe s.carry item)
      producer := .raise }
  | .raise => some { s with
      ready := Function.update s.ready (lane s.filled) true
      consumer := s.consumer.wake
      producer := loopTest items (s.filled + 1)
      filled := s.filled + 1
      carry := code.advance s.carry item
      published := s.published ++ [(s.slots (lane s.filled), s.buffers (lane s.filled))] }
  | _ => none

def consume (s : State Carry Desc Buffer Count) : Option (State Carry Desc Buffer Count) :=
  match s.consumer with
  | .test =>
      if s.producer = .raise then none
      else some { s with
        consumer :=
          if s.ready (lane s.emptied) then .looking [] else if s.done then .exited else .asleep }
  | .looking seen =>
      let look := (s.slots (lane s.emptied), s.buffers (lane s.emptied))
      if seen.length < code.looks then some { s with consumer := .looking (seen ++ [look]) }
      else some { s with
        consumer := .release
        total := s.total + code.amount look.1
        drained := s.drained ++ [seen ++ [look]] }
  | .release =>
      if s.producer = .raise then none
      else some { s with
        ready := Function.update s.ready (lane s.emptied) false
        producer := s.producer.wake
        consumer := .test
        emptied := s.emptied + 1 }
  | .asleep | .exited => none

def next (s : State Carry Desc Buffer Count) : Label Buffer → Option (State Carry Desc Buffer Count)
  | .step .producer =>
      if s.producer = .finish then
        some { s with done := true, consumer := s.consumer.wake, producer := .joining }
      else items[s.filled]?.bind (produce code items s)
  | .step .consumer => consume code s
  | .copy buffer =>
      match s.producer with
      | .copying (left + 1) => some { s with
          buffers := Function.update s.buffers (lane s.filled) buffer
          producer := .copying left }
      | _ => none
  | .fail =>
      match s.producer with
      | .copying (_ + 1) => if code.stops then some { s with producer := .finish } else none
      | _ => none
  | .wake .producer => if s.producer = .asleep then some { s with producer := .test } else none
  | .wake .consumer =>
      match s.consumer with
      | .asleep => some { s with consumer := .test }
      | _ => none

end System

/-- The descriptions of the items, from what is carried to the first of them. -/
def descriptions (code : Code Item Carry Desc Count) : Carry → List Item → List Desc
  | _, [] => []
  | carry, item :: rest => code.describe carry item :: descriptions code (code.advance carry item) rest

/-- What is carried behind the items. -/
def carried (code : Code Item Carry Desc Count) (carry : Carry) (items : List Item) : Carry :=
  items.foldl code.advance carry

/-- The flags are those of the slots with items that are filled and not emptied. -/
structure Lanes (ready : Bool → Bool) (filled emptied : Nat) : Prop where
  low : emptied ≤ filled
  high : filled ≤ emptied + 2
  first : ready (lane emptied) = decide (emptied < filled)
  second : ready (lane (emptied + 1)) = decide (emptied + 1 < filled)

/-- The items in the slots are as they were handed over. -/
def Kept (s : State Carry Desc Buffer Count) : Prop :=
  ∀ j, s.emptied ≤ j → j < s.filled → s.published[j]? = some (s.slots (lane j), s.buffers (lane j))

/-- What was handed over are the first items, in their order. -/
structure Handed (code : Code Item Carry Desc Count) (items : List Item) (start : Carry) (filled : Nat)
    (carry : Carry) (published : List (Desc × Buffer)) : Prop where
  count : published.length = filled
  bound : filled ≤ items.length
  carry : carry = carried code start (items.take filled)
  described : published.map Prod.fst = descriptions code start (items.take filled)

/-- The place of the producer: it works in a slot that is free, and sleeps when both are
taken. -/
def ProducerAt (code : Code Item Carry Desc Count) (items : List Item)
    (s : State Carry Desc Buffer Count) : Prop :=
  match s.producer with
  | .test => s.filled < items.length
  | .asleep => s.filled < items.length ∧ s.filled = s.emptied + 2
  | .copying _ | .describe => s.filled < items.length ∧ s.filled ≤ s.emptied + 1
  | .raise => s.filled < items.length ∧ s.filled ≤ s.emptied + 1 ∧
      ∀ item, items[s.filled]? = some item → s.slots (lane s.filled) = code.describe s.carry item
  | .finish | .joining => code.stops = false → s.filled = items.length

/-- The place of the consumer: it looks at a slot with an item, sleeps when there is none
and leaves when there will be none. -/
def ConsumerAt (code : Code Item Carry Desc Count) (s : State Carry Desc Buffer Count) : Prop :=
  match s.consumer with
  | .test => True
  | .asleep => s.filled = s.emptied ∧ s.done = false
  | .looking seen => s.emptied < s.filled ∧ seen.length ≤ code.looks ∧
      seen = List.replicate seen.length (s.slots (lane s.emptied), s.buffers (lane s.emptied))
  | .release => s.emptied < s.filled
  | .exited => s.filled = s.emptied ∧ s.done = true

/-- The items of which all has been seen. -/
def State.seen (s : State Carry Desc Buffer Count) : Nat :=
  match s.consumer with
  | .release => s.emptied + 1
  | _ => s.emptied

/-- Each was seen as it was handed over. -/
structure Logged [AddMonoid Count] (code : Code Item Carry Desc Count) (seen : Nat)
    (published : List (Desc × Buffer)) (drained : List (List (Desc × Buffer))) (total : Count) :
    Prop where
  drained : drained = (published.take seen).map (List.replicate (code.looks + 1))
  total : total = ((published.take seen).map fun d => code.amount d.1).sum

structure Inv [AddMonoid Count] (code : Code Item Carry Desc Count) (items : List Item)
    (carry : Carry) (s : State Carry Desc Buffer Count) : Prop where
  lanes : Lanes s.ready s.filled s.emptied
  kept : Kept s
  handed : Handed code items carry s.filled s.carry s.published
  producer : ProducerAt code items s
  done : s.done = decide (s.producer = .joining)
  consumer : ConsumerAt code s
  logged : Logged code s.seen s.published s.drained s.total

/-- The producer writes to its slot. -/
def Producer.works : Producer → Bool
  | .copying _ | .describe | .raise => true
  | _ => false

/-- What the two threads make of the items: each that is handed over is seen once, in its
turn, with its own description and buffer; nobody writes to a slot that has not been seen;
nothing is left behind; and one of the threads can always go on. -/
structure Delivers [AddMonoid Count] (code : Code Item Carry Desc Count) (items : List Item)
    (carry : Carry) (s : State Carry Desc Buffer Count) : Prop where
  published : s.published.map Prod.fst =
    descriptions code carry (items.take s.published.length)
  drained : s.drained = (s.published.take s.drained.length).map (List.replicate (code.looks + 1))
  refill : s.producer.works = true → ∀ j < s.published.length,
    lane j = lane s.published.length → j < s.drained.length
  exits : s.consumer = .exited → s.producer = .joining ∧ s.drained.length = s.published.length
  whole : code.stops = false → s.producer = .joining → s.published.length = items.length
  total : s.total = ((s.published.take s.drained.length).map fun d => code.amount d.1).sum
  awake : ¬(s.producer = .asleep ∧ s.consumer = .asleep)
  going : ¬(s.producer = .joining ∧ s.consumer = .exited) →
    ∃ label, (∀ side, label ≠ .wake side) ∧ (next code items s label).isSome = true

theorem descriptions_append (code : Code Item Carry Desc Count) (carry : Carry) (front back : List Item) :
    descriptions code carry (front ++ back) =
      descriptions code carry front ++ descriptions code (carried code carry front) back := by
  induction front generalizing carry with
  | nil => rfl
  | cons item rest ih =>
      rw [List.cons_append, descriptions, descriptions, ih, List.cons_append]
      rfl

theorem Lanes.push {ready : Bool → Bool} {filled emptied : Nat} (h : Lanes ready filled emptied)
    (hFree : filled ≤ emptied + 1) :
    Lanes (Function.update ready (lane filled) true) (filled + 1) emptied where
  low := Nat.le_succ_of_le h.low
  high := Nat.succ_le_succ hFree
  first := by
    rcases Nat.eq_or_lt_of_le h.low with rfl | hLess
    · simp
    · obtain rfl : filled = emptied + 1 := Nat.le_antisymm hFree hLess
      rw [Function.update_of_ne (lane_succ_ne emptied).symm, h.first, decide_eq_decide]
      omega
  second := by
    rcases Nat.eq_or_lt_of_le h.low with rfl | hLess
    · rw [Function.update_of_ne (lane_succ_ne emptied), h.second]
      simp
    · obtain rfl : filled = emptied + 1 := Nat.le_antisymm hFree hLess
      simp

theorem Lanes.pop {ready : Bool → Bool} {filled emptied : Nat} (h : Lanes ready filled emptied)
    (hFull : emptied < filled) :
    Lanes (Function.update ready (lane emptied) false) filled (emptied + 1) where
  low := hFull
  high := Nat.le_succ_of_le h.high
  first := by rw [Function.update_of_ne (lane_succ_ne emptied), h.second]
  second := by
    rw [lane_succ_succ, Function.update_self, eq_comm, decide_eq_false_iff_not]
    have := h.high
    omega

/-- The slot to be filled next is taken exactly if both are. -/
theorem Lanes.taken {ready : Bool → Bool} {filled emptied : Nat} (h : Lanes ready filled emptied) :
    ready (lane filled) = decide (filled = emptied + 2) := by
  have hCases : filled = emptied ∨ filled = emptied + 1 ∨ filled = emptied + 2 := by
    have := h.low
    have := h.high
    omega
  rcases hCases with rfl | rfl | rfl
  · rw [h.first, decide_eq_decide]
    omega
  · rw [h.second, decide_eq_decide]
    omega
  · rw [lane_succ_succ, h.first, decide_eq_decide]
    omega

/-- The slot of an item between the two counts is not the one that is filled next. -/
theorem lane_ne {filled emptied j : Nat} (hFree : filled ≤ emptied + 1) (hLow : emptied ≤ j)
    (hHigh : j < filled) : lane j ≠ lane filled := by
  obtain rfl : filled = j + 1 := by omega
  exact (lane_succ_ne j).symm

variable [AddMonoid Count] {code : Code Item Carry Desc Count} {items : List Item} {carry : Carry}
  {s t : State Carry Desc Buffer Count}

theorem loopTest_at {filled : Nat} (hBound : filled ≤ items.length) :
    (loopTest items filled = .test ∧ filled < items.length) ∨
      (loopTest items filled = .finish ∧ filled = items.length) := by
  rw [loopTest]
  split
  · rename_i h
    exact .inl ⟨rfl, h⟩
  · rename_i h
    exact .inr ⟨rfl, Nat.le_antisymm hBound (Nat.le_of_not_lt h)⟩

theorem inv_start (slots : Bool → Desc) (buffers : Bool → Buffer) :
    Inv code items carry (start items slots buffers carry (0 : Count)) where
  lanes := ⟨Nat.le_refl 0, Nat.zero_le 2, rfl, rfl⟩
  kept := fun j _ h => absurd h (Nat.not_lt_zero j)
  handed := ⟨rfl, Nat.zero_le _, rfl, rfl⟩
  producer := by
    rcases loopTest_at (Nat.zero_le items.length) with ⟨hTest, hMore⟩ | ⟨hFinish, hAll⟩
    · simpa only [ProducerAt, start, hTest] using hMore
    · simpa only [ProducerAt, start, hFinish] using fun _ => hAll
  done := by
    rcases loopTest_at (Nat.zero_le items.length) with ⟨hTest, _⟩ | ⟨hFinish, _⟩
    · simp [start, hTest]
    · simp [start, hFinish]
  consumer := trivial
  logged := ⟨rfl, rfl⟩

/-- The producer takes a step on its own. -/
theorem Inv.goes (h : Inv code items carry s) {p : Producer}
    (hPlace : ProducerAt code items { s with producer := p })
    (hDone : s.done = decide (p = .joining)) : Inv code items carry { s with producer := p } where
  lanes := h.lanes
  kept := h.kept
  handed := h.handed
  producer := hPlace
  done := hDone
  consumer := h.consumer
  logged := h.logged

/-- The consumer takes a step on its own. -/
theorem Inv.turns (h : Inv code items carry s) {c : Consumer Desc Buffer}
    (hPlace : ConsumerAt code { s with consumer := c })
    (hSeen : State.seen { s with consumer := c } = s.seen) :
    Inv code items carry { s with consumer := c } where
  lanes := h.lanes
  kept := h.kept
  handed := h.handed
  producer := h.producer
  done := h.done
  consumer := hPlace
  logged := hSeen ▸ h.logged

/-- The producer writes to the slot that it fills. -/
theorem Inv.writes (h : Inv code items carry s) (hFree : s.filled ≤ s.emptied + 1)
    {slots : Bool → Desc} {buffers : Bool → Buffer} {p : Producer}
    (hSlots : ∀ b, b ≠ lane s.filled → slots b = s.slots b)
    (hBuffers : ∀ b, b ≠ lane s.filled → buffers b = s.buffers b)
    (hPlace : ProducerAt code items { s with slots := slots, buffers := buffers, producer := p })
    (hDone : s.done = decide (p = .joining)) :
    Inv code items carry { s with slots := slots, buffers := buffers, producer := p } where
  lanes := h.lanes
  kept := by
    intro j hLow hHigh
    have hOther := lane_ne hFree hLow hHigh
    rw [h.kept j hLow hHigh]
    exact congrArg some (congrArg₂ Prod.mk (hSlots _ hOther).symm (hBuffers _ hOther).symm)
  handed := h.handed
  producer := hPlace
  done := hDone
  consumer := by
    have hAt := h.consumer
    rw [ConsumerAt] at hAt ⊢
    split <;> rename_i hConsumer <;> rw [hConsumer] at hAt
    · trivial
    · exact hAt
    · obtain ⟨hFull, hLooks, hSeen⟩ := hAt
      have hOther := lane_ne hFree (Nat.le_refl _) hFull
      refine ⟨hFull, hLooks, ?_⟩
      dsimp only
      rw [hSlots _ hOther, hBuffers _ hOther]
      exact hSeen
    · exact hAt
    · exact hAt
  logged := h.logged

omit [AddMonoid Count] in
theorem seen_wake (s : State Carry Desc Buffer Count) :
    State.seen { s with consumer := s.consumer.wake } = s.seen := by
  obtain ⟨_, _, _, _, _, _, _, c, _⟩ := s
  cases c <;> rfl

/-- A signal wakes the consumer, whatever has changed that it sleeps for. It is not gone as
long as the producer is not. -/
theorem Inv.wakes (h : Inv code items carry s) (hDone : s.done = false) {filled : Nat}
    (hFilled : s.filled ≤ filled) {u : State Carry Desc Buffer Count}
    (hu : u.consumer = s.consumer.wake ∧ u.filled = filled ∧ u.emptied = s.emptied ∧
      u.slots = s.slots ∧ u.buffers = s.buffers) : ConsumerAt code u := by
  obtain ⟨hWake, hCount, hEmptied, hSlots, hBuffers⟩ := hu
  have hAt := h.consumer
  rw [ConsumerAt] at hAt
  cases hPlace : s.consumer with
  | test | asleep =>
      have hWoken : u.consumer = .test := hWake.trans (congrArg Consumer.wake hPlace)
      rw [ConsumerAt, hWoken]
      trivial
  | looking seen =>
      have hWoken : u.consumer = .looking seen := hWake.trans (congrArg Consumer.wake hPlace)
      rw [hPlace] at hAt
      rw [ConsumerAt, hWoken, hCount, hEmptied, hSlots, hBuffers]
      exact ⟨Nat.lt_of_lt_of_le hAt.1 hFilled, hAt.2⟩
  | release =>
      have hWoken : u.consumer = .release := hWake.trans (congrArg Consumer.wake hPlace)
      rw [hPlace] at hAt
      rw [ConsumerAt, hWoken, hCount, hEmptied]
      exact Nat.lt_of_lt_of_le hAt hFilled
  | exited =>
      rw [hPlace] at hAt
      exact absurd (hDone.symm.trans hAt.2) Bool.false_ne_true

theorem Inv.seen_le (h : Inv code items carry s) : s.seen ≤ s.filled := by
  have hAt := h.consumer
  have hLow := h.lanes.low
  rw [ConsumerAt] at hAt
  rw [State.seen]
  split <;> rename_i hPlace
  · rw [hPlace] at hAt
    exact hAt
  · exact hLow

/-- The item is handed over. -/
theorem Inv.raise (h : Inv code items carry s) {item : Item} (hItem : items[s.filled]? = some item)
    (hRaise : s.producer = .raise) (hStep : produce code items s item = some t) :
    Inv code items carry t := by
  have hAt := h.producer
  rw [ProducerAt, hRaise] at hAt
  obtain ⟨hMore, hFree, hSlot⟩ := hAt
  have hTake : items.take (s.filled + 1) = items.take s.filled ++ [item] := by
    rw [List.take_add_one, hItem]
    rfl
  rw [produce, hRaise] at hStep
  cases hStep
  have hDone : s.done = false := h.done.trans (by rw [hRaise]; rfl)
  have hKeep : (s.published ++ [(s.slots (lane s.filled), s.buffers (lane s.filled))]).take s.seen =
      s.published.take s.seen :=
    List.take_append_of_le_length (h.handed.count.symm ▸ h.seen_le)
  exact
    { lanes := h.lanes.push hFree
      kept := by
        intro j hLow hHigh
        rcases Nat.lt_succ_iff_lt_or_eq.mp hHigh with hBefore | rfl
        · rw [← h.kept j hLow hBefore]
          exact List.getElem?_append_left (h.handed.count.symm ▸ hBefore)
        · dsimp only
          rw [List.getElem?_append_right (Nat.le_of_eq h.handed.count), h.handed.count, Nat.sub_self]
          rfl
      handed :=
        { count := by rw [List.length_append, h.handed.count, List.length_singleton]
          bound := hMore
          carry := by
            dsimp only
            rw [hTake, carried, List.foldl_append, h.handed.carry]
            rfl
          described := by
            rw [hTake, descriptions_append, List.map_append, h.handed.described, ← h.handed.carry,
              List.map_singleton, hSlot item hItem]
            rfl }
      producer := by
        rcases loopTest_at (Nat.succ_le_of_lt hMore) with ⟨hTest, hLess⟩ | ⟨hFinish, hAll⟩
        · simpa only [ProducerAt, hTest] using hLess
        · simpa only [ProducerAt, hFinish] using fun _ => hAll
      done := by
        dsimp only
        rcases loopTest_at (Nat.succ_le_of_lt hMore) with ⟨hTest, _⟩ | ⟨hFinish, _⟩
        · rw [hTest]
          exact hDone
        · rw [hFinish]
          exact hDone
      consumer := h.wakes hDone (Nat.le_succ _) ⟨rfl, rfl, rfl, rfl, rfl⟩
      logged := by
        have hLogged : Logged code s.seen
            (s.published ++ [(s.slots (lane s.filled), s.buffers (lane s.filled))]) s.drained s.total :=
          ⟨hKeep.symm ▸ h.logged.drained, hKeep.symm ▸ h.logged.total⟩
        rw [← seen_wake s] at hLogged
        exact hLogged }

/-- The producer sleeps only for the slot that is emptied next. -/
theorem Inv.release (h : Inv code items carry s) (hRelease : s.consumer = .release)
    (hRaise : s.producer ≠ .raise) :
    Inv code items carry { s with
      ready := Function.update s.ready (lane s.emptied) false
      producer := s.producer.wake
      consumer := .test
      emptied := s.emptied + 1 } := by
  have hFull := h.consumer
  rw [ConsumerAt, hRelease] at hFull
  have hSeen : s.seen = s.emptied + 1 := by rw [State.seen, hRelease]
  have hLogged := h.logged
  rw [hSeen] at hLogged
  have hAt := h.producer
  rw [ProducerAt] at hAt
  exact
    { lanes := h.lanes.pop hFull
      kept := fun j hLow hHigh => h.kept j (Nat.le_of_succ_le hLow) hHigh
      handed := h.handed
      producer := by
        cases hPlace : s.producer with
        | raise => exact (hRaise hPlace).elim
        | test =>
            rw [hPlace] at hAt
            exact hAt
        | asleep =>
            rw [hPlace] at hAt
            exact hAt.1
        | copying left | describe =>
            rw [hPlace] at hAt
            exact ⟨hAt.1, Nat.le_succ_of_le hAt.2⟩
        | finish | joining =>
            rw [hPlace] at hAt
            exact hAt
      done := by
        have hDone := h.done
        cases hPlace : s.producer <;> rw [hPlace] at hDone <;> exact hDone
      consumer := trivial
      logged := hLogged }

/-- The last look at a slot. -/
theorem Inv.tally (h : Inv code items carry s) {seen : List (Desc × Buffer)}
    (hLooking : s.consumer = .looking seen) (hLast : ¬seen.length < code.looks) :
    Inv code items carry { s with
      consumer := .release
      total := s.total + code.amount (s.slots (lane s.emptied))
      drained := s.drained ++ [seen ++ [(s.slots (lane s.emptied), s.buffers (lane s.emptied))]] } := by
  have hAt := h.consumer
  rw [ConsumerAt, hLooking] at hAt
  obtain ⟨hFull, hLooks, hSeen⟩ := hAt
  have hLength : seen.length = code.looks := Nat.le_antisymm hLooks (Nat.le_of_not_lt hLast)
  rw [hLength] at hSeen
  have hCount : s.seen = s.emptied := by rw [State.seen, hLooking]
  have hLogged := h.logged
  rw [hCount] at hLogged
  have hTake : s.published.take (s.emptied + 1) = s.published.take s.emptied ++
      [(s.slots (lane s.emptied), s.buffers (lane s.emptied))] := by
    rw [List.take_add_one, h.kept _ (Nat.le_refl _) hFull]
    rfl
  exact
    { lanes := h.lanes
      kept := h.kept
      handed := h.handed
      producer := h.producer
      done := h.done
      consumer := hFull
      logged :=
        { drained := by
            change _ = (s.published.take (s.emptied + 1)).map _
            rw [hTake, List.map_append, ← hLogged.drained, hSeen, ← List.replicate_succ',
              List.map_singleton]
          total := by
            change _ = ((s.published.take (s.emptied + 1)).map _).sum
            rw [hTake, List.map_append, List.sum_append, ← hLogged.total]
            simp } }

/-- The producer is done. -/
theorem Inv.finish (h : Inv code items carry s) (hFinish : s.producer = .finish) :
    Inv code items carry { s with
      done := true
      consumer := s.consumer.wake
      producer := .joining } where
  lanes := h.lanes
  kept := h.kept
  handed := h.handed
  producer := by
    have hAt := h.producer
    rw [ProducerAt, hFinish] at hAt
    exact hAt
  done := rfl
  consumer := h.wakes (h.done.trans (by rw [hFinish]; rfl)) (Nat.le_refl _) ⟨rfl, rfl, rfl, rfl, rfl⟩
  logged := by
    have hLogged := h.logged
    rw [← seen_wake s] at hLogged
    exact hLogged

theorem Inv.produce (h : Inv code items carry s) {item : Item} (hItem : items[s.filled]? = some item)
    (hStep : produce code items s item = some t) : Inv code items carry t := by
  have hMore : s.filled < items.length := (List.getElem?_eq_some_iff.mp hItem).1
  have hAt := h.producer
  have hDone := h.done
  rw [ProducerAt] at hAt
  cases hPlace : s.producer with
  | raise => exact h.raise hItem hPlace hStep
  | test =>
      rw [HandOff.produce, hPlace] at hStep
      cases hStep
      rw [hPlace] at hDone
      have hTaken := h.lanes.taken
      split
      · rename_i hReady
        rw [hReady, eq_comm, decide_eq_true_eq] at hTaken
        exact h.goes ⟨hMore, hTaken⟩ hDone
      · rename_i hReady
        rw [Bool.eq_false_of_not_eq_true hReady, eq_comm, decide_eq_false_iff_not] at hTaken
        have hHigh := h.lanes.high
        exact h.goes ⟨hMore, show s.filled ≤ s.emptied + 1 by omega⟩ hDone
  | copying left =>
      cases left with
      | zero =>
          rw [HandOff.produce, hPlace] at hStep
          cases hStep
          rw [hPlace] at hAt hDone
          exact h.goes hAt hDone
      | succ left =>
          rw [HandOff.produce, hPlace] at hStep
          cases hStep
  | describe =>
      rw [HandOff.produce, hPlace] at hStep
      cases hStep
      rw [hPlace] at hAt hDone
      refine h.writes hAt.2 (fun b hb => Function.update_of_ne hb ..) (fun b _ => rfl)
        ⟨hAt.1, hAt.2, fun item' hItem' => ?_⟩ hDone
      cases hItem.symm.trans hItem'
      exact Function.update_self ..
  | asleep | finish | joining =>
      rw [HandOff.produce, hPlace] at hStep
      cases hStep

theorem Inv.consume (h : Inv code items carry s) (hStep : consume code s = some t) :
    Inv code items carry t := by
  have hAt := h.consumer
  rw [ConsumerAt] at hAt
  cases hPlace : s.consumer with
  | test =>
      rw [HandOff.consume, hPlace] at hStep
      obtain ⟨_, hStep⟩ := Option.ite_none_left_eq_some.mp hStep
      cases hStep
      have hReady := h.lanes.first
      split
      · rename_i hFull
        rw [hFull, eq_comm, decide_eq_true_eq] at hReady
        exact h.turns ⟨hReady, Nat.zero_le _, rfl⟩ (by rw [State.seen, State.seen, hPlace])
      · rename_i hEmpty
        rw [Bool.not_eq_true] at hEmpty
        rw [hEmpty, eq_comm, decide_eq_false_iff_not] at hReady
        have hSame := Nat.le_antisymm (Nat.le_of_not_lt hReady) h.lanes.low
        split
        · rename_i hDone
          exact h.turns ⟨hSame, hDone⟩ (by rw [State.seen, State.seen, hPlace])
        · rename_i hDone
          exact h.turns ⟨hSame, Bool.eq_false_of_not_eq_true hDone⟩
            (by rw [State.seen, State.seen, hPlace])
  | looking seen =>
      rw [HandOff.consume, hPlace] at hStep
      dsimp only at hStep
      split at hStep
      · rename_i hMore
        cases hStep
        rw [hPlace] at hAt
        obtain ⟨hFull, _, hSeen⟩ := hAt
        refine h.turns ⟨hFull, ?_, ?_⟩ (by rw [State.seen, State.seen, hPlace])
        · rw [List.length_append]
          exact hMore
        · rw [List.length_append, List.length_singleton, List.replicate_succ', ← hSeen]
      · rename_i hLast
        cases hStep
        exact h.tally hPlace hLast
  | release =>
      rw [HandOff.consume, hPlace] at hStep
      obtain ⟨hRaise, hStep⟩ := Option.ite_none_left_eq_some.mp hStep
      cases hStep
      exact h.release hPlace hRaise
  | asleep | exited =>
      rw [HandOff.consume, hPlace] at hStep
      cases hStep

theorem Inv.next (h : Inv code items carry s) {label : Label Buffer}
    (hNext : next code items s label = some t) : Inv code items carry t := by
  have hAt := h.producer
  have hDone := h.done
  rw [ProducerAt] at hAt
  cases label with
  | step side =>
      cases side with
      | producer =>
          rw [HandOff.next] at hNext
          split at hNext
          · rename_i hFinish
            cases hNext
            exact h.finish hFinish
          · obtain ⟨item, hItem, hStep⟩ := Option.bind_eq_some_iff.mp hNext
            exact h.produce hItem hStep
      | consumer => exact h.consume hNext
  | copy buffer =>
      rw [HandOff.next] at hNext
      split at hNext
      · rename_i left hPlace
        cases hNext
        rw [hPlace] at hAt hDone
        exact h.writes hAt.2 (fun b _ => rfl) (fun b hb => Function.update_of_ne hb ..) hAt hDone
      · cases hNext
  | fail =>
      rw [HandOff.next] at hNext
      split at hNext
      · rename_i left hPlace
        obtain ⟨hStops, hStep⟩ := Option.ite_none_right_eq_some.mp hNext
        cases hStep
        rw [hPlace] at hDone
        exact h.goes (fun hGoes => absurd (hGoes.symm.trans hStops) Bool.false_ne_true) hDone
      · cases hNext
  | wake side =>
      cases side with
      | producer =>
          obtain ⟨hPlace, hStep⟩ := Option.ite_none_right_eq_some.mp hNext
          cases hStep
          rw [hPlace] at hAt hDone
          exact h.goes hAt.1 hDone
      | consumer =>
          rw [HandOff.next] at hNext
          split at hNext
          · rename_i hPlace
            cases hNext
            exact h.turns trivial (by rw [State.seen, State.seen, hPlace])
          · cases hNext

/-- Whatever the turns are. -/
theorem inv_run {slots : Bool → Desc} {buffers : Bool → Buffer} {labels : List (Label Buffer)}
    (hRun : execute (HandOff.next code items) (start items slots buffers carry 0) labels = some s) :
    Inv code items carry s :=
  invariant_execute (fun _ _ _ (h : Inv code items carry _) hNext => h.next hNext) labels _ s
    (inv_start slots buffers) hRun

/-- A thread waits for the other one, which does not wait for it. -/
theorem Inv.not_both_asleep (h : Inv code items carry s) :
    ¬(s.producer = .asleep ∧ s.consumer = .asleep) := by
  rintro ⟨hProducer, hConsumer⟩
  have hFull := h.producer
  have hEmpty := h.consumer
  rw [ProducerAt, hProducer] at hFull
  rw [ConsumerAt, hConsumer] at hEmpty
  omega

/-- The producer goes on unless it sleeps or is done. -/
theorem Inv.producer_goes_on (h : Inv code items carry s) (hAwake : s.producer ≠ .asleep)
    (hMore : s.producer ≠ .joining) :
    ∃ label, (∀ side, label ≠ .wake side) ∧ (HandOff.next code items s label).isSome = true := by
  have hAt := h.producer
  rw [ProducerAt] at hAt
  have hStep : ∀ item, items[s.filled]? = some item → s.producer ≠ .finish →
      (HandOff.produce code items s item).isSome = true →
      ∃ label, (∀ side, label ≠ .wake side) ∧ (HandOff.next code items s label).isSome = true := by
    intro item hItem hFinish hStep
    refine ⟨.step .producer, fun _ => nofun, ?_⟩
    rw [HandOff.next, if_neg hFinish, hItem]
    exact hStep
  cases hPlace : s.producer with
  | asleep => exact (hAwake hPlace).elim
  | joining => exact (hMore hPlace).elim
  | finish =>
      refine ⟨.step .producer, fun _ => nofun, ?_⟩
      rw [HandOff.next, if_pos hPlace]
      rfl
  | test =>
      rw [hPlace] at hAt
      refine hStep _ (List.getElem?_eq_getElem hAt) (by rw [hPlace]; exact nofun) ?_
      rw [HandOff.produce, hPlace]
      rfl
  | describe | raise =>
      rw [hPlace] at hAt
      refine hStep _ (List.getElem?_eq_getElem hAt.1) (by rw [hPlace]; exact nofun) ?_
      rw [HandOff.produce, hPlace]
      rfl
  | copying left =>
      rw [hPlace] at hAt
      cases left with
      | zero =>
          refine hStep _ (List.getElem?_eq_getElem hAt.1) (by rw [hPlace]; exact nofun) ?_
          rw [HandOff.produce, hPlace]
          rfl
      | succ left =>
          refine ⟨.copy (s.buffers (lane s.filled)), fun _ => nofun, ?_⟩
          rw [HandOff.next, hPlace]
          rfl

/-- Until both are done, one of them can go on without being woken by chance. -/
theorem Inv.goes_on (h : Inv code items carry s)
    (hOver : ¬(s.producer = .joining ∧ s.consumer = .exited)) :
    ∃ label, (∀ side, label ≠ .wake side) ∧ (HandOff.next code items s label).isSome = true := by
  have hAt := h.consumer
  have hDone := h.done
  rw [ConsumerAt] at hAt
  cases hPlace : s.consumer with
  | looking seen =>
      refine ⟨.step .consumer, fun _ => nofun, ?_⟩
      rw [HandOff.next, HandOff.consume, hPlace]
      dsimp only
      split <;> rfl
  | test | release =>
      by_cases hRaise : s.producer = .raise
      · exact h.producer_goes_on (by rw [hRaise]; exact nofun) (by rw [hRaise]; exact nofun)
      · refine ⟨.step .consumer, fun _ => nofun, ?_⟩
        rw [HandOff.next, HandOff.consume, hPlace]
        exact congrArg Option.isSome (if_neg hRaise)
  | asleep =>
      rw [hPlace] at hAt
      refine h.producer_goes_on (fun hAsleep => h.not_both_asleep ⟨hAsleep, hPlace⟩) fun hJoin => ?_
      rw [hJoin, hAt.2] at hDone
      cases hDone
  | exited =>
      rw [hPlace] at hAt
      rw [hAt.2, eq_comm, decide_eq_true_eq] at hDone
      exact (hOver ⟨hDone, hPlace⟩).elim

theorem Inv.delivers (h : Inv code items carry s) : Delivers code items carry s := by
  have hLength : s.drained.length = s.seen := by
    rw [h.logged.drained, List.length_map, List.length_take, h.handed.count]
    exact Nat.min_eq_left h.seen_le
  have hProducer := h.producer
  have hConsumer := h.consumer
  have hDone := h.done
  rw [ProducerAt] at hProducer
  rw [ConsumerAt] at hConsumer
  exact
    { published := by rw [h.handed.count, h.handed.described]
      drained := by rw [hLength, ← h.logged.drained]
      refill := by
        intro hWorks j hj hLane
        rw [h.handed.count] at hj hLane
        have hFree : s.filled ≤ s.emptied + 1 := by
          cases hPlace : s.producer <;> rw [hPlace] at hWorks hProducer <;>
            first
              | exact hProducer.2
              | exact hProducer.2.1
              | cases hWorks
        have hSeen : s.emptied ≤ s.seen := by
          rw [State.seen]
          split
          · exact Nat.le_succ _
          · exact Nat.le_refl _
        rw [hLength]
        by_contra hLate
        exact lane_ne hFree (Nat.le_trans hSeen (Nat.le_of_not_lt hLate)) hj hLane
      exits := by
        intro hExited
        rw [hExited] at hConsumer
        rw [hConsumer.2, eq_comm, decide_eq_true_eq] at hDone
        refine ⟨hDone, ?_⟩
        rw [hLength, h.handed.count, State.seen, hExited, hConsumer.1]
      whole := by
        intro hGoes hJoining
        rw [hJoining] at hProducer
        rw [h.handed.count, hProducer hGoes]
      total := by rw [hLength, ← h.logged.total]
      awake := h.not_both_asleep
      going := h.goes_on }

end HandOff
