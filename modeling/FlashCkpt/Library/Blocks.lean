import Mathlib.Algebra.Order.Ring.Nat
import Mathlib.Data.List.Basic

/-! Lists cut into blocks of one size, and lists put together from such blocks. -/
namespace Blocks

variable {α : Type} {size : Nat}

/-- The block of this size with number `k`; the last one may be short. -/
def block (size : Nat) (l : List α) (k : Nat) : List α := (l.drop (k * size)).take size

theorem block_length {l : List α} {k : Nat} (h : (k + 1) * size ≤ l.length) :
    (block size l k).length = size := by
  rw [Nat.succ_mul] at h
  rw [block, List.length_take, List.length_drop]
  omega

/-- The first blocks are the front of the list. -/
theorem flatMap_blocks (l : List α) (n : Nat) :
    (List.range n).flatMap (block size l) = l.take (n * size) := by
  induction n with
  | zero => simp
  | succ n ih =>
      rw [List.range_succ, List.flatMap_append, ih, List.flatMap_singleton, block, Nat.succ_mul,
        List.take_add]

theorem flatMap_block_self {l : List α} {n : Nat} (h : l.length = n * size) :
    (List.range n).flatMap (block size l) = l := by
  rw [flatMap_blocks, ← h, List.take_length]

theorem block_drop (l : List α) (a k : Nat) :
    block size (l.drop (a * size)) k = block size l (a + k) := by
  rw [block, List.drop_drop, ← Nat.add_mul, block]

/-- A block of a slice that begins with a block. -/
theorem block_slice (l : List α) {a n k : Nat} (h : k < n) :
    block size ((l.drop (a * size)).take (n * size)) k = block size l (a + k) := by
  have hEnd := Nat.mul_le_mul_right size h
  rw [Nat.succ_mul] at hEnd
  rw [block, List.drop_take, List.take_take, List.drop_drop, ← Nat.add_mul,
    Nat.min_eq_left (by omega), block]

theorem flatMap_add (f : Nat → List α) (a n : Nat) :
    (List.range (a + n)).flatMap f =
      (List.range a).flatMap f ++ (List.range n).flatMap fun k => f (a + k) := by
  rw [List.range_add, List.flatMap_append, List.flatMap_map]

theorem flatMap_length {f : Nat → List α} {n : Nat} (h : ∀ k < n, (f k).length = size) :
    ((List.range n).flatMap f).length = n * size := by
  induction n with
  | zero => simp
  | succ n ih =>
      rw [List.range_succ, List.flatMap_append, List.length_append,
        ih fun k hk => h k (Nat.lt_succ_of_lt hk), List.flatMap_singleton, h n (Nat.lt_succ_self n),
        Nat.succ_mul]

/-- A slice of a list of blocks that begins and ends with a block. -/
theorem flatMap_slice {f : Nat → List α} {total a n : Nat}
    (hSize : ∀ k < total, (f k).length = size) (h : a + n ≤ total) :
    (((List.range total).flatMap f).drop (a * size)).take (n * size) =
      (List.range n).flatMap fun k => f (a + k) := by
  obtain ⟨rest, rfl⟩ := Nat.exists_eq_add_of_le h
  have hFront : ((List.range a).flatMap f).length = a * size :=
    flatMap_length fun k hk => hSize k (by omega)
  have hSlice : ((List.range n).flatMap fun k => f (a + k)).length = n * size :=
    flatMap_length fun k hk => hSize (a + k) (by omega)
  rw [Nat.add_assoc, flatMap_add, List.drop_left' hFront, flatMap_add, List.take_left' hSlice]

theorem block_flatMap {f : Nat → List α} {total k : Nat}
    (hSize : ∀ i < total, (f i).length = size) (h : k < total) :
    block size ((List.range total).flatMap f) k = f k := by
  have hSlice := flatMap_slice hSize (a := k) (n := 1) h
  rw [Nat.one_mul] at hSlice
  rw [block, hSlice]
  simp

theorem block_append_zero {front : List α} (h : size ≤ front.length) (l : List α) :
    block size (front ++ l) 0 = block size front 0 := by
  rw [block, block, Nat.zero_mul, List.drop_zero, List.drop_zero, List.take_append_of_le_length h]

/-- The block behind one that is put in front. -/
theorem block_append_succ {front : List α} (h : front.length = size) (l : List α) (k : Nat) :
    block size (front ++ l) (k + 1) = block size l k := by
  rw [block, Nat.succ_mul, Nat.add_comm, ← List.drop_drop, List.drop_left' h, block]

end Blocks
