import FlashCkpt.Library.Transition
import Mathlib.Logic.Function.Basic

/-! Two buffers between a producer and a consumer. Item `i` goes through buffer `i mod 2`:
the producer fills the buffer when it is free and hands it over, the consumer drains it and
frees it. Whatever their turns are, the items are drained in order, each from its buffer as
it was filled. -/
namespace PingPong

open Transition

variable {Item Buffer Store : Type}

/-- What an item makes of its buffer, and what draining the buffer makes of the store. -/
structure Pipe (Item Buffer Store : Type) where
  fill : Item → Buffer → Buffer
  drain : Item → Buffer → Store → Store

/-- The buffer of an item. -/
def lane (i : Nat) : Bool := i % 2 = 1

/-- The buffers with the items handed over in them, and how many were filled and drained. -/
structure State (Item Buffer Store : Type) where
  buffers : Bool → Buffer
  ready : Bool → Option Item
  filled : Nat
  drained : Nat
  store : Store

def State.start (buffers : Bool → Buffer) (store : Store) : State Item Buffer Store :=
  ⟨buffers, fun _ => none, 0, 0, store⟩

inductive Side where
  | producer
  | consumer
  deriving DecidableEq, Repr

section System

variable (pipe : Pipe Item Buffer Store) (items : List Item)

def next (s : State Item Buffer Store) : Side → Option (State Item Buffer Store)
  | .producer =>
      match items[s.filled]?, s.ready (lane s.filled) with
      | some item, none => some { s with
          buffers := Function.update s.buffers (lane s.filled)
            (pipe.fill item (s.buffers (lane s.filled)))
          ready := Function.update s.ready (lane s.filled) (some item)
          filled := s.filled + 1 }
      | _, _ => none
  | .consumer =>
      match s.ready (lane s.drained) with
      | some item => some { s with
          ready := Function.update s.ready (lane s.drained) none
          drained := s.drained + 1
          store := pipe.drain item (s.buffers (lane s.drained)) s.store }
      | none => none

/-- The producer is done, and the consumer finds nothing in its buffer. -/
def State.Over (s : State Item Buffer Store) : Prop :=
  s.filled = items.length ∧ s.ready (lane s.drained) = none

/-- Some run of the two sides ends with this store. -/
def Ends (buffers : Bool → Buffer) (store last : Store) : Prop :=
  ∃ sides s, execute (next pipe items) (.start buffers store) sides = some s ∧ s.Over items ∧
    s.store = last

/-- The items one after the other, from item number `i` on. -/
def pass (pipe : Pipe Item Buffer Store) :
    List Item → Nat → (Bool → Buffer) → Store → Store
  | [], _, _, store => store
  | item :: rest, i, buffers, store =>
      let buffer := pipe.fill item (buffers (lane i))
      pass pipe rest (i + 1) (Function.update buffers (lane i) buffer) (pipe.drain item buffer store)

end System

variable {pipe : Pipe Item Buffer Store} {items : List Item}

theorem lane_succ (i : Nat) : lane (i + 1) = !lane i := by
  rw [lane, lane, ← decide_not, decide_eq_decide]
  omega

theorem lane_succ_succ (i : Nat) : lane (i + 2) = lane i := by
  rw [lane_succ, lane_succ, Bool.not_not]

theorem lane_succ_ne (i : Nat) : lane (i + 1) ≠ lane i := by
  rw [lane_succ]
  exact Bool.not_ne_self _

/-- What the run still makes of the store, by the number of buffers handed over. -/
inductive Leads (pipe : Pipe Item Buffer Store) (items : List Item) (last : Store)
    (s : State Item Buffer Store) : Prop where
  | none (hFilled : s.filled = s.drained) (hReady : ∀ b, s.ready b = none)
      (hLast : pass pipe (items.drop s.filled) s.filled s.buffers s.store = last)
  | one (first : Item) (hFilled : s.filled = s.drained + 1)
      (hFirst : s.ready (lane s.drained) = some first) (hFree : s.ready (lane s.filled) = none)
      (hLast : pass pipe (items.drop s.filled) s.filled s.buffers
        (pipe.drain first (s.buffers (lane s.drained)) s.store) = last)
  | two (first second : Item) (hFilled : s.filled = s.drained + 2)
      (hFirst : s.ready (lane s.drained) = some first)
      (hSecond : s.ready (lane (s.drained + 1)) = some second)
      (hLast : pass pipe (items.drop s.filled) s.filled s.buffers
        (pipe.drain second (s.buffers (lane (s.drained + 1)))
          (pipe.drain first (s.buffers (lane s.drained)) s.store)) = last)

theorem leads_start (buffers : Bool → Buffer) (store : Store) :
    Leads pipe items (pass pipe items 0 buffers store) (.start buffers store) :=
  .none rfl (fun _ => rfl) rfl

theorem Leads.next {last : Store} {s t : State Item Buffer Store} (h : Leads pipe items last s)
    {side : Side} (hNext : next pipe items s side = some t) : Leads pipe items last t := by
  cases side with
  | producer =>
      rw [PingPong.next] at hNext
      split at hNext
      case h_2 => cases hNext
      case h_1 item hItem hFree =>
        cases hNext
        have hDrop : items.drop s.filled = item :: items.drop (s.filled + 1) := by
          obtain ⟨hLt, rfl⟩ := List.getElem?_eq_some_iff.mp hItem
          exact List.drop_eq_getElem_cons hLt
        cases h with
        | none hFilled hReady hLast =>
            rw [hDrop, pass] at hLast
            apply Leads.one item (by simp [hFilled])
            · simp [hFilled]
            · simp [Function.update_of_ne (lane_succ_ne s.filled), hReady]
            · simpa [hFilled] using hLast
        | one first hFilled hFirst _ hLast =>
            have hOther : lane s.drained ≠ lane s.filled := by
              rw [hFilled]
              exact (lane_succ_ne s.drained).symm
            rw [hDrop, pass] at hLast
            apply Leads.two first item (by simp [hFilled])
            · simp [Function.update_of_ne hOther, hFirst]
            · simp [← hFilled]
            · simpa [Function.update_of_ne hOther, ← hFilled] using hLast
        | two first second hFilled hFirst _ _ =>
            rw [hFilled, lane_succ_succ, hFirst] at hFree
            cases hFree
  | consumer =>
      rw [PingPong.next] at hNext
      split at hNext
      case h_2 => cases hNext
      case h_1 item hItem =>
        cases hNext
        cases h with
        | none _ hReady _ =>
            rw [hReady] at hItem
            cases hItem
        | one first hFilled hFirst hFree hLast =>
            cases hItem.symm.trans hFirst
            refine Leads.none hFilled (fun b => ?_) hLast
            by_cases hb : b = lane s.drained
            · rw [hb]
              exact Function.update_self ..
            · have hOther : b = lane s.filled := by
                rw [hFilled, lane_succ]
                exact Bool.eq_not_of_ne hb
              refine (Function.update_of_ne hb ..).trans ?_
              rw [hOther, hFree]
        | two first second hFilled hFirst hSecond hLast =>
            cases hItem.symm.trans hFirst
            refine Leads.one second hFilled ?_ ?_ hLast
            · exact (Function.update_of_ne (lane_succ_ne s.drained) ..).trans hSecond
            · dsimp only
              rw [hFilled, lane_succ_succ]
              exact Function.update_self ..

theorem Leads.over {last : Store} {s : State Item Buffer Store} (h : Leads pipe items last s)
    (hOver : s.Over items) : s.store = last := by
  obtain ⟨hFilled, hFree⟩ := hOver
  cases h with
  | none _ _ hLast =>
      rw [hFilled, List.drop_length, pass] at hLast
      exact hLast
  | one first _ hFirst _ _ => cases hFree.symm.trans hFirst
  | two first _ _ hFirst _ _ => cases hFree.symm.trans hFirst

/-- A run in which the sides take turns comes to its end. -/
theorem exists_over (rest front : List Item) (hItems : items = front ++ rest)
    {s : State Item Buffer Store} (hFilled : s.filled = front.length)
    (hDrained : s.drained = front.length) (hReady : ∀ b, s.ready b = none) :
    ∃ sides t, execute (next pipe items) s sides = some t ∧ t.Over items := by
  induction rest generalizing front s with
  | nil =>
      refine ⟨[], s, rfl, ?_, hReady _⟩
      rw [hFilled, hItems, List.append_nil]
  | cons item rest ih =>
      have hItem : items[s.filled]? = some item := by
        rw [hItems, hFilled, List.getElem?_append_right (Nat.le_refl _), Nat.sub_self]
        rfl
      have hSame : lane s.drained = lane s.filled := by rw [hDrained, hFilled]
      let filled : State Item Buffer Store := { s with
        buffers := Function.update s.buffers (lane s.filled)
          (pipe.fill item (s.buffers (lane s.filled)))
        ready := Function.update s.ready (lane s.filled) (some item)
        filled := s.filled + 1 }
      have hProduce : next pipe items s .producer = some filled := by
        rw [next, hItem, hReady]
      have hHanded : filled.ready (lane filled.drained) = some item := by
        rw [show filled.drained = s.drained from rfl, hSame]
        exact Function.update_self ..
      obtain ⟨drained, hConsume, hNext⟩ : ∃ t, next pipe items filled .consumer = some t ∧
          t.filled = s.filled + 1 ∧ t.drained = s.drained + 1 ∧ ∀ b, t.ready b = none := by
        refine ⟨_, by rw [next, hHanded], rfl, rfl, fun b => ?_⟩
        by_cases hb : b = lane s.drained
        · rw [hb]
          exact Function.update_self ..
        · refine (Function.update_of_ne hb ..).trans ?_
          exact (Function.update_of_ne (fun h => hb (h.trans hSame.symm)) ..).trans (hReady b)
      obtain ⟨sides, t, hRun, hOver⟩ := ih (front ++ [item])
        (by rw [hItems, List.append_assoc]; rfl) (by simp [hNext.1, hFilled])
        (by simp [hNext.2.1, hDrained]) hNext.2.2
      refine ⟨.producer :: .consumer :: sides, t, ?_, hOver⟩
      rw [execute_cons, hProduce, Option.bind_some, execute_cons, hConsume]
      exact hRun

/-- The store behind every run is that of the items one after the other. -/
theorem ends_iff {buffers : Bool → Buffer} {store last : Store} :
    Ends pipe items buffers store last ↔ last = pass pipe items 0 buffers store := by
  have hLeads : ∀ sides s, execute (next pipe items) (.start buffers store) sides = some s →
      Leads pipe items (pass pipe items 0 buffers store) s := fun sides s hRun =>
    invariant_execute (fun _ _ _ h hNext => h.next hNext) sides _ s (leads_start buffers store) hRun
  constructor
  · rintro ⟨sides, s, hRun, hOver, rfl⟩
    exact (hLeads sides s hRun).over hOver
  · rintro rfl
    obtain ⟨sides, s, hRun, hOver⟩ := exists_over items [] rfl
      (s := .start buffers store) rfl rfl (fun _ => rfl)
    exact ⟨sides, s, hRun, hOver, (hLeads sides s hRun).over hOver⟩

/-- Where the buffers stay good and what is drained from a good buffer depends on the item
only, the items are folded into the store. -/
theorem pass_eq_foldl (Good : Buffer → Prop) (step : Item → Store → Store)
    (hFill : ∀ item ∈ items, ∀ b, Good b → Good (pipe.fill item b))
    (hDrain : ∀ item ∈ items, ∀ b, Good b → ∀ store,
      pipe.drain item (pipe.fill item b) store = step item store)
    {buffers : Bool → Buffer} (hGood : ∀ b, Good (buffers b)) (i : Nat) (store : Store) :
    pass pipe items i buffers store = items.foldl (fun store item => step item store) store := by
  induction items generalizing i buffers store with
  | nil => rfl
  | cons item rest ih =>
      have hNext : ∀ b, Good (Function.update buffers (lane i) (pipe.fill item (buffers (lane i))) b) := by
        intro b
        by_cases hb : b = lane i
        · rw [hb, Function.update_self]
          exact hFill item List.mem_cons_self _ (hGood _)
        · rw [Function.update_of_ne hb]
          exact hGood b
      rw [pass, List.foldl_cons, hDrain item List.mem_cons_self _ (hGood _)]
      exact ih (fun other h => hFill other (List.mem_cons_of_mem item h))
        (fun other h => hDrain other (List.mem_cons_of_mem item h)) hNext (i + 1) _

end PingPong
