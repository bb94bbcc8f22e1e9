import Mathlib.Algebra.BigOperators.Group.Finset.Basic
import Mathlib.Algebra.Order.BigOperators.Group.Finset

/-! What the parties of a system hold together. A step of one of them changes the total by what
it takes or gives, and leaves alone what the others hold. -/
namespace Tally

open Finset

universe u v w
variable {Party : Type u} {Place : Type v} {Amount : Type w} [Fintype Party]

section Sum

variable [DecidableEq Party] [AddCommMonoid Amount] (held : Place → Amount) (place : Party → Place) (t : Party)

/-- What the parties but one hold. -/
def others : Amount := ∑ u ∈ univ.erase t, held (place u)

theorem sum_eq_others_add : ∑ u, held (place u) = others held place t + held (place t) :=
  (sum_erase_add univ _ (mem_univ t)).symm

theorem sum_update (p : Place) :
    ∑ u, held (Function.update place t p u) = others held place t + held p := by
  rw [sum_eq_others_add _ _ t, Function.update_self]
  congr 1
  exact sum_congr rfl fun u hu => by rw [Function.update_of_ne (ne_of_mem_erase hu)]

end Sum

section Nat

variable (held : Place → Nat) (place : Party → Place)

theorem exists_of_pos (h : 0 < ∑ u, held (place u)) : ∃ t, 0 < held (place t) := by
  by_contra hNone
  rw [not_exists] at hNone
  rw [sum_eq_zero fun u _ => Nat.le_zero.mp (not_lt.mp (hNone u))] at h
  exact absurd h (lt_irrefl 0)

variable [DecidableEq Party]

theorem le_sum (t : Party) : held (place t) ≤ ∑ u, held (place u) := by
  rw [sum_eq_others_add held place t]
  exact Nat.le_add_left _ _

/-- Two parties hold no more than all of them. -/
theorem add_le_sum {t t' : Party} (hNe : t' ≠ t) :
    held (place t) + held (place t') ≤ ∑ u, held (place u) := by
  rw [sum_eq_others_add held place t, Nat.add_comm]
  exact Nat.add_le_add_right
    (single_le_sum (f := fun u => held (place u)) (fun _ _ => Nat.zero_le _)
      (mem_erase.mpr ⟨hNe, mem_univ t'⟩)) _

/-- Less is held after a step that makes the party's part smaller. -/
theorem sum_update_lt {t : Party} {p : Place} (h : held p < held (place t)) :
    ∑ u, held (Function.update place t p u) < ∑ u, held (place u) := by
  rw [sum_update, sum_eq_others_add held place t]
  exact Nat.add_lt_add_left h _

end Nat

end Tally
