import Mathlib.Algebra.Order.Ring.Nat
import Mathlib.Data.List.Basic
import Mathlib.Logic.Function.Basic
import Mathlib.Tactic.SplitIfs

/-! A ring of `n` slots read at `get` and written at `put`. One slot stays free, so that equal
indices mean that there is nothing to read. -/
namespace GetPutRing

universe u
variable {Item : Type u} {n get put : Nat}

/-- Slots written and not read. -/
def pending (n get put : Nat) : Nat :=
  if get ≤ put then put - get else n - get + put

/-- What they hold, in the order of writing. -/
def contents (slots : Nat → Item) (n get put : Nat) : List Item :=
  (List.range (pending n get put)).map fun i => slots ((get + i) % n)

theorem succ_mod (h : put < n) : (put + 1) % n = if put + 1 = n then 0 else put + 1 := by
  split
  · next hWrap => rw [hWrap, Nat.mod_self]
  · next hNext => exact Nat.mod_eq_of_lt (by omega)

theorem succ_mod_lt (h : put < n) : (put + 1) % n < n := Nat.mod_lt _ (by omega)

theorem pending_lt (hGet : get < n) (hPut : put < n) : pending n get put < n := by
  unfold pending
  split <;> omega

theorem pending_eq_zero (hGet : get < n) : pending n get put = 0 ↔ get = put := by
  unfold pending
  split <;> omega

theorem pending_self (n get : Nat) : pending n get get = 0 := by
  rw [pending, if_pos (Nat.le_refl get), Nat.sub_self]

theorem get_add_pending (hGet : get < n) (hPut : put < n) : (get + pending n get put) % n = put := by
  unfold pending
  split
  · next h => rw [Nat.add_sub_cancel' h, Nat.mod_eq_of_lt hPut]
  · next h =>
      rw [show get + (n - get + put) = put + n by omega, Nat.add_mod_right, Nat.mod_eq_of_lt hPut]

theorem pending_put (hGet : get < n) (hPut : put < n) (hRoom : pending n get put + 1 < n) :
    pending n get ((put + 1) % n) = pending n get put + 1 := by
  rw [succ_mod hPut]
  unfold pending at hRoom ⊢
  split_ifs at hRoom ⊢ <;> omega

theorem pending_get (hGet : get < n) (hPut : put < n) (hSome : get ≠ put) :
    pending n ((get + 1) % n) put + 1 = pending n get put := by
  rw [succ_mod hGet]
  unfold pending
  split_ifs <;> omega

@[simp] theorem contents_self (slots : Nat → Item) (n get : Nat) : contents slots n get get = [] := by
  rw [contents, pending_self, List.range_zero, List.map_nil]

@[simp] theorem contents_length (slots : Nat → Item) (n get put : Nat) :
    (contents slots n get put).length = pending n get put := by
  rw [contents, List.length_map, List.length_range]

/-- The slot at `put` is none of those that are pending. -/
theorem slot_ne_put (hGet : get < n) (hPut : put < n) {i : Nat} (hi : i < pending n get put) :
    (get + i) % n ≠ put := by
  have hLt := pending_lt hGet hPut
  unfold pending at hi hLt
  rcases Nat.lt_or_ge (get + i) n with hLow | hHigh
  · rw [Nat.mod_eq_of_lt hLow]
    split at hi <;> omega
  · rw [Nat.mod_eq_sub_mod hHigh, Nat.mod_eq_of_lt (by omega)]
    split at hi <;> omega

theorem contents_put (hGet : get < n) (hPut : put < n) (hRoom : pending n get put + 1 < n)
    (slots : Nat → Item) (item : Item) :
    contents (Function.update slots put item) n get ((put + 1) % n) =
      contents slots n get put ++ [item] := by
  rw [contents, pending_put hGet hPut hRoom, List.range_succ, List.map_append, List.map_singleton,
    get_add_pending hGet hPut, Function.update_self]
  congr 1
  refine List.map_congr_left fun i hi => ?_
  exact Function.update_of_ne (slot_ne_put hGet hPut (List.mem_range.mp hi)) item slots

theorem contents_get (hGet : get < n) (hPut : put < n) (hSome : get ≠ put) (slots : Nat → Item) :
    contents slots n get put = slots get :: contents slots n ((get + 1) % n) put := by
  rw [contents, ← pending_get hGet hPut hSome, List.range_succ_eq_map, List.map_cons, List.map_map,
    Nat.add_zero, Nat.mod_eq_of_lt hGet]
  congr 1
  refine List.map_congr_left fun i _ => ?_
  rw [Function.comp_apply, Nat.mod_add_mod, Nat.succ_eq_add_one, Nat.add_assoc, Nat.add_comm 1 i]

end GetPutRing
