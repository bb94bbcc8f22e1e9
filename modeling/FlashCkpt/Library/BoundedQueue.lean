import Mathlib.Algebra.Order.Ring.Nat
import Mathlib.Data.List.Basic
import Mathlib.Data.List.Range
import Mathlib.Logic.Function.Basic

/-! A queue in an array of fixed size, whose head and tail go round the array, and a stack of
the slots of a pool that are free. Each of them is described by the list it holds. -/
namespace BoundedQueue

universe u
variable {Item : Type u}

structure Queue (Item : Type u) where
  slots : Nat → Item
  capacity : Nat
  head : Nat
  tail : Nat
  count : Nat
  closed : Bool

namespace Queue

/-- An empty queue in an array of one and the same item. -/
def init (blank : Item) (capacity : Nat) : Queue Item where
  slots := fun _ => blank
  capacity := capacity
  head := 0
  tail := 0
  count := 0
  closed := false

variable (q : Queue Item)

def push (item : Item) : Queue Item :=
  { q with
    slots := Function.update q.slots q.tail item
    tail := (q.tail + 1) % q.capacity
    count := q.count + 1 }

def front : Item := q.slots q.head

def pop : Queue Item :=
  { q with
    head := (q.head + 1) % q.capacity
    count := q.count - 1 }

def close : Queue Item := { q with closed := true }

/-- The items from the head on. -/
def contents : List Item :=
  (List.range q.count).map fun i => q.slots ((q.head + i) % q.capacity)

@[simp] theorem contents_length : q.contents.length = q.count := by simp [contents]

@[simp] theorem contents_close : q.close.contents = q.contents := rfl

@[simp] theorem count_push (item : Item) : (q.push item).count = q.count + 1 := rfl

@[simp] theorem count_pop : q.pop.count = q.count - 1 := rfl

@[simp] theorem count_close : q.close.count = q.count := rfl

@[simp] theorem closed_push (item : Item) : (q.push item).closed = q.closed := rfl

@[simp] theorem closed_pop : q.pop.closed = q.closed := rfl

@[simp] theorem closed_close : q.close.closed = true := rfl

@[simp] theorem capacity_push (item : Item) : (q.push item).capacity = q.capacity := rfl

@[simp] theorem capacity_pop : q.pop.capacity = q.capacity := rfl

@[simp] theorem capacity_close : q.close.capacity = q.capacity := rfl

/-- The head is where the items taken so far have led it, and the tail where the items put in
have. -/
structure Turned (taken put : Nat) : Prop where
  head : q.head = taken % q.capacity
  tail : q.tail = put % q.capacity
  count : taken + q.count = put
  bound : q.count ≤ q.capacity

variable {q} {taken put : Nat}

theorem turned_init (blank : Item) (capacity : Nat) : (init blank capacity).Turned 0 0 where
  head := (Nat.zero_mod capacity).symm
  tail := (Nat.zero_mod capacity).symm
  count := rfl
  bound := Nat.zero_le capacity

theorem Turned.close (h : q.Turned taken put) : q.close.Turned taken put :=
  ⟨h.head, h.tail, h.count, h.bound⟩

theorem Turned.push (h : q.Turned taken put) (hRoom : q.count < q.capacity) (item : Item) :
    (q.push item).Turned taken (put + 1) where
  head := h.head
  tail := by
    change (q.tail + 1) % q.capacity = (put + 1) % q.capacity
    rw [h.tail, Nat.mod_add_mod]
  count := by
    have := h.count
    rw [count_push]
    omega
  bound := hRoom

theorem Turned.pop (h : q.Turned taken put) (hItem : 0 < q.count) :
    q.pop.Turned (taken + 1) put where
  head := by
    change (q.head + 1) % q.capacity = (taken + 1) % q.capacity
    rw [h.head, Nat.mod_add_mod]
  tail := h.tail
  count := by
    have := h.count
    rw [count_pop]
    omega
  bound := Nat.le_trans (Nat.sub_le _ _) h.bound

/-- Two places less than a round apart are different ones. -/
theorem mod_ne {start i j capacity : Nat} (hLow : i < j) (hHigh : j < capacity) :
    (start + i) % capacity ≠ (start + j) % capacity := by
  intro hSame
  have hGap := Nat.sub_mod_eq_zero_of_mod_eq hSame.symm
  rw [Nat.add_sub_add_left, Nat.mod_eq_of_lt (by omega)] at hGap
  omega

/-- The item goes behind those that are there. -/
theorem contents_push (h : q.Turned taken put) (hRoom : q.count < q.capacity) (item : Item) :
    (q.push item).contents = q.contents ++ [item] := by
  have hTail : q.tail = (q.head + q.count) % q.capacity := by
    rw [h.tail, h.head, Nat.mod_add_mod, h.count]
  simp only [contents, count_push, List.range_succ, List.map_append, List.map_cons, List.map_nil]
  congr 1
  · refine List.map_congr_left fun i hi => ?_
    have hNe : (q.head + i) % q.capacity ≠ q.tail :=
      hTail ▸ mod_ne (List.mem_range.mp hi) hRoom
    exact Function.update_of_ne hNe item q.slots
  · refine congrArg (fun a => [a]) ?_
    change Function.update q.slots q.tail item ((q.head + q.count) % q.capacity) = item
    rw [← hTail, Function.update_self]

/-- The item at the head is the first of those that are there. -/
theorem contents_pop (h : q.Turned taken put) (hItem : 0 < q.count) :
    q.contents = q.front :: q.pop.contents := by
  obtain ⟨n, hCount⟩ : ∃ n, q.count = n + 1 := ⟨q.count - 1, by omega⟩
  have hPos : 0 < q.capacity := Nat.lt_of_lt_of_le hItem h.bound
  have hHead : q.head % q.capacity = q.head := by rw [h.head, Nat.mod_mod]
  simp only [contents, count_pop, hCount, Nat.add_sub_cancel, List.range_succ_eq_map,
    List.map_cons, List.map_map, Nat.add_zero, hHead]
  refine congrArg (q.front :: ·) (List.map_congr_left fun i _ => ?_)
  change q.slots ((q.head + (i + 1)) % q.capacity) =
    q.slots (((q.head + 1) % q.capacity + i) % q.capacity)
  rw [Nat.mod_add_mod, Nat.add_assoc, Nat.add_comm 1 i]

end Queue

/-- The free slots of a pool lie on a stack. -/
structure SlotPool where
  freeStack : Nat → Nat
  nSlots : Nat
  nFree : Nat

namespace SlotPool

/-- All slots are free. -/
def init (nSlots : Nat) : SlotPool := ⟨id, nSlots, nSlots⟩

variable (p : SlotPool)

/-- The slot on top of the stack; none when no slot is free. -/
def acquire : Option (Nat × SlotPool) :=
  if p.nFree = 0 then none
  else some (p.freeStack (p.nFree - 1), { p with nFree := p.nFree - 1 })

def release (slot : Nat) : SlotPool :=
  { p with
    freeStack := Function.update p.freeStack p.nFree slot
    nFree := p.nFree + 1 }

/-- The stack, from the bottom up. -/
def free : List Nat := (List.range p.nFree).map p.freeStack

@[simp] theorem free_length : p.free.length = p.nFree := by simp [free]

@[simp] theorem nSlots_release (slot : Nat) : (p.release slot).nSlots = p.nSlots := rfl

@[simp] theorem free_init (nSlots : Nat) : (init nSlots).free = List.range nSlots := by
  simp [free, init]

variable {p}

theorem acquire_eq_none : p.acquire = none ↔ p.nFree = 0 := by
  rw [acquire]
  split <;> simp_all

theorem free_acquire {slot : Nat} {p' : SlotPool} (h : p.acquire = some (slot, p')) :
    p.free = p'.free ++ [slot] ∧ p'.nSlots = p.nSlots := by
  rw [acquire] at h
  split at h
  · cases h
  · rename_i hSome
    cases h
    refine ⟨?_, rfl⟩
    obtain ⟨n, hFree⟩ : ∃ n, p.nFree = n + 1 := ⟨p.nFree - 1, by omega⟩
    simp [free, hFree, List.range_succ]

theorem free_release (slot : Nat) : (p.release slot).free = p.free ++ [slot] := by
  simp only [free, release, List.range_succ, List.map_append, List.map_cons, List.map_nil,
    Function.update_self]
  congr 1
  refine List.map_congr_left fun i hi => ?_
  exact Function.update_of_ne (Nat.ne_of_lt (List.mem_range.mp hi)) slot p.freeStack

end SlotPool

end BoundedQueue
