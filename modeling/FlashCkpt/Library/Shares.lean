import Mathlib.Algebra.Order.Ring.Nat
import Mathlib.Data.List.Basic

/-! A list dealt out in contiguous shares of one size. What does not come out even goes to
the first shares, one item each. -/
namespace Shares

variable {α : Type}

def size (items count i : Nat) : Nat := items / count + if i < items % count then 1 else 0

/-- The item the share begins with. -/
def start (items count : Nat) : Nat → Nat
  | 0 => 0
  | i + 1 => start items count i + size items count i

def share (count : Nat) (items : List α) (i : Nat) : List α :=
  (items.drop (start items.length count i)).take (size items.length count i)

def shares (count : Nat) (items : List α) : List (List α) :=
  (List.range count).map (share count items)

theorem start_eq (items count i : Nat) :
    start items count i = i * (items / count) + min i (items % count) := by
  induction i with
  | zero => simp [start]
  | succ i ih =>
      rw [start, ih, size, Nat.succ_mul]
      split <;> omega

theorem size_one (items : Nat) : size items 1 0 = items := by
  rw [size, Nat.div_one, Nat.mod_one, if_neg (Nat.lt_irrefl 0), Nat.add_zero]

theorem start_count (items : Nat) {count : Nat} (hCount : 0 < count) :
    start items count count = items := by
  have hLt := Nat.mod_lt items hCount
  rw [start_eq, Nat.min_eq_right (Nat.le_of_lt hLt), Nat.div_add_mod]

theorem start_mono (items count : Nat) {i j : Nat} (h : i ≤ j) :
    start items count i ≤ start items count j := by
  induction h with
  | refl => exact Nat.le_refl _
  | step _ ih => exact Nat.le_trans ih (Nat.le_add_right _ _)

/-- A share ends before the next ones begin. -/
theorem start_add_size_le (items count : Nat) {i j : Nat} (h : i < j) :
    start items count i + size items count i ≤ start items count j := start_mono items count h

/-- Each place in the list is in a share. -/
theorem exists_share {items count r : Nat} (hCount : 0 < count) (hr : r < items) :
    ∃ i < count, start items count i ≤ r ∧ r < start items count i + size items count i := by
  have hEnd := start_count items hCount
  have hLast : ∀ n, r < start items count n → ∃ i < n, start items count i ≤ r ∧
      r < start items count i + size items count i := by
    intro n
    induction n with
    | zero =>
        intro h
        exact absurd h (Nat.not_lt_zero r)
    | succ n ih =>
        intro h
        by_cases hFirst : r < start items count n
        · obtain ⟨i, hi, hIn⟩ := ih hFirst
          exact ⟨i, Nat.lt_succ_of_lt hi, hIn⟩
        · exact ⟨n, Nat.lt_succ_self n, Nat.le_of_not_lt hFirst, h⟩
  exact hLast count (by omega)

/-- The first shares are the front of the list. -/
theorem flatten_take (count : Nat) (items : List α) (i : Nat) :
    ((List.range i).map (share count items)).flatten =
      items.take (start items.length count i) := by
  induction i with
  | zero => simp [start]
  | succ i ih =>
      rw [List.range_succ, List.map_append, List.flatten_append, ih, start, List.take_add]
      simp [share]

/-- Each item is in one share, in the order of the list. -/
theorem flatten_shares {count : Nat} (hCount : 0 < count) (items : List α) :
    (shares count items).flatten = items := by
  rw [shares, flatten_take, start_count items.length hCount, List.take_length]

/-- Lists of the sizes of the shares, one after the other. -/
theorem flatten_take_length {parts : List (List α)} {items count : Nat}
    (hSizes : ∀ k part, parts[k]? = some part → part.length = size items count k) {k : Nat}
    (hk : k ≤ parts.length) : (parts.take k).flatten.length = start items count k := by
  induction k with
  | zero => simp [start]
  | succ k ih =>
      have hPart := List.getElem?_eq_getElem (show k < parts.length by omega)
      rw [List.take_add_one, List.flatten_append, List.length_append, ih (by omega), hPart, start,
        ← hSizes k _ hPart]
      simp

theorem getElem?_flatten {parts : List (List α)} {items count : Nat}
    (hSizes : ∀ k part, parts[k]? = some part → part.length = size items count k) {k j : Nat}
    {part : List α} (hPart : parts[k]? = some part) (hj : j < part.length) :
    parts.flatten[start items count k + j]? = part[j]? := by
  obtain ⟨hk, rfl⟩ := List.getElem?_eq_some_iff.mp hPart
  have hFront := flatten_take_length hSizes (Nat.le_of_lt hk)
  conv_lhs => rw [← List.take_append_drop k parts, List.drop_eq_getElem_cons hk]
  rw [List.flatten_append, List.flatten_cons, ← hFront, List.getElem?_append_right (by omega),
    Nat.add_sub_cancel_left, List.getElem?_append_left hj]

@[simp] theorem shares_length (count : Nat) (items : List α) :
    (shares count items).length = count := by
  rw [shares, List.length_map, List.length_range]

end Shares
