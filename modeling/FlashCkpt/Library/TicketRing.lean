import Mathlib.Algebra.Order.Ring.Nat
import Mathlib.Data.List.Basic

/-! Tickets served by a ring of slots. Ticket `j` belongs to slot `j % ring`, and every
slot serves its own tickets in increasing order; the slots need not keep pace with each
other. -/
namespace TicketRing

variable {ring : Nat} {served : List Nat}

/-- The ticket that a slot serves next. -/
def turn (ring : Nat) (served : List Nat) (slot : Nat) : Nat :=
  slot + ring * served.countP fun j => decide (j % ring = slot)

/-- Each slot has served its tickets up to the next one, and no others. -/
def InTurn (ring : Nat) (served : List Nat) : Prop :=
  ∀ j, j ∈ served ↔ j < turn ring served (j % ring)

theorem turn_nil (slot : Nat) : turn ring [] slot = slot := rfl

theorem turn_mod {slot : Nat} (h : slot < ring) : turn ring served slot % ring = slot := by
  rw [turn, Nat.add_mul_mod_self_left, Nat.mod_eq_of_lt h]

theorem turn_append_self (j : Nat) :
    turn ring (served ++ [j]) (j % ring) = turn ring served (j % ring) + ring := by
  simp only [turn, List.countP_append, List.countP_cons, List.countP_nil, decide_true, if_true]
  rw [Nat.zero_add, Nat.mul_add, Nat.mul_one, Nat.add_assoc]

theorem turn_append_other {slot j : Nat} (h : j % ring ≠ slot) :
    turn ring (served ++ [j]) slot = turn ring served slot := by
  simp [turn, h]

theorem inTurn_nil : InTurn ring [] := by
  intro j
  have hLe := Nat.mod_le j ring
  simp only [List.not_mem_nil, turn_nil, false_iff, not_lt]
  exact hLe

/-- Tickets of one slot are a full round apart. -/
theorem eq_of_slot_eq {i j : Nat} (hSlot : i % ring = j % ring) (hLow : j ≤ i) (hHigh : i < j + ring) :
    i = j := by
  have hGap := Nat.sub_mod_eq_zero_of_mod_eq hSlot
  rw [Nat.mod_eq_of_lt (by omega)] at hGap
  omega

/-- A slot that serves its next ticket stays in turn. -/
theorem InTurn.serve (h : InTurn ring served) (hRing : 0 < ring) {j : Nat}
    (hTurn : turn ring served (j % ring) = j) : InTurn ring (served ++ [j]) := by
  intro i
  rw [List.mem_append, List.mem_singleton, h i]
  by_cases hSlot : i % ring = j % ring
  · rw [hSlot, turn_append_self, hTurn]
    constructor
    · rintro (hBefore | rfl) <;> omega
    · intro hLess
      by_cases hBefore : i < j
      · exact .inl hBefore
      · exact .inr (eq_of_slot_eq hSlot (not_lt.mp hBefore) hLess)
  · rw [turn_append_other (Ne.symm hSlot)]
    constructor
    · rintro (hBefore | rfl)
      · exact hBefore
      · exact absurd rfl hSlot
    · exact .inl

/-- The first ticket that is not served is the next one of its slot. -/
theorem InTurn.turn_first (h : InTurn ring served) (hRing : 0 < ring) {j : Nat}
    (hBefore : ∀ i < j, i ∈ served) (hFirst : j ∉ served) :
    turn ring served (j % ring) = j := by
  have hLow : turn ring served (j % ring) ≤ j := not_lt.mp (mt (h j).mpr hFirst)
  by_contra hNe
  have hServed := (h _).mp (hBefore _ (lt_of_le_of_ne hLow hNe))
  rw [turn_mod (Nat.mod_lt j hRing)] at hServed
  omega

/-- When a ticket's turn has come, the one a round before it is served. -/
theorem InTurn.previous (h : InTurn ring served) (hRing : 0 < ring) {j : Nat}
    (hTurn : turn ring served (j % ring) = j) (hLate : ring ≤ j) : j - ring ∈ served := by
  rw [h, show (j - ring) % ring = j % ring from (Nat.mod_eq_sub_mod hLate).symm, hTurn]
  omega

end TicketRing
