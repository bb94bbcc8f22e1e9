import Mathlib.Algebra.Order.Ring.Nat
import Mathlib.Data.List.Basic

/-! Next fit: sizes go in their order into bins of a fixed room, each into the last bin
unless it does not fit there. No other division of the sequence into bins needs fewer. -/
namespace NextFit

/-- How many bins are opened behind one that holds `total` already. -/
def openings (room : Nat) : Nat → List Nat → Nat
  | _, [] => 0
  | total, size :: rest =>
      if 0 < total ∧ room < total + size then openings room size rest + 1
      else openings room (total + size) rest

/-- Later sizes only open more. -/
theorem openings_le_append (room total : Nat) (front back : List Nat) :
    openings room total front ≤ openings room total (front ++ back) := by
  induction front generalizing total with
  | nil => exact Nat.zero_le _
  | cons size rest ih =>
      rw [List.cons_append, openings, openings]
      split
      · exact Nat.succ_le_succ (ih size)
      · exact ih (total + size)

/-- The sizes can be divided in their order into at most `count` bins. -/
def Divides (room count : Nat) (sizes : List Nat) : Prop :=
  ∃ bins : List (List Nat), bins.flatten = sizes ∧ (∀ bin ∈ bins, bin.sum ≤ room) ∧
    bins.length ≤ count

theorem divides_nil (room count : Nat) : Divides room count [] :=
  ⟨[], rfl, fun _ h => absurd h List.not_mem_nil, Nat.zero_le _⟩

theorem Divides.cons {room count : Nat} {bin sizes : List Nat} (hBin : bin.sum ≤ room)
    (h : Divides room count sizes) : Divides room (count + 1) (bin ++ sizes) := by
  obtain ⟨bins, hFlat, hRoom, hCount⟩ := h
  refine ⟨bin :: bins, by rw [List.flatten_cons, hFlat], ?_, Nat.succ_le_succ hCount⟩
  exact List.forall_mem_cons.mpr ⟨hBin, hRoom⟩

/-- The first size is in some bin, with what follows it there. -/
theorem Divides.head {room count size : Nat} {rest : List Nat}
    (h : Divides room count (size :: rest)) :
    ∃ front back, rest = front ++ back ∧ size + front.sum ≤ room ∧ 0 < count ∧
      Divides room (count - 1) back := by
  obtain ⟨bins, hFlat, hRoom, hCount⟩ := h
  induction bins generalizing count with
  | nil => cases hFlat
  | cons bin bins ih =>
      obtain ⟨hBin, hBins⟩ := List.forall_mem_cons.mp hRoom
      rw [List.length_cons] at hCount
      cases bin with
      | nil => exact ih (by simpa using hFlat) hBins (by omega)
      | cons first front =>
          obtain ⟨rfl, rfl⟩ : first = size ∧ front ++ bins.flatten = rest := by simpa using hFlat
          exact ⟨front, bins.flatten, rfl, by simpa using hBin, by omega, bins, rfl, hBins, by omega⟩

theorem Divides.tail {room count size : Nat} {rest : List Nat}
    (h : Divides room count (size :: rest)) : Divides room count rest := by
  obtain ⟨front, back, rfl, hFront, hCount, hBack⟩ := h.head
  obtain ⟨count, rfl⟩ := Nat.exists_eq_succ_of_ne_zero (Nat.ne_of_gt hCount)
  exact hBack.cons (Nat.le_of_add_left_le hFront)

/-- A bin that has no room for the next size takes nothing more. -/
theorem front_iff_of_full {room total size count : Nat} {rest : List Nat} (hTotal : total ≤ room)
    (hFull : room < total + size) :
    (∃ front back, size :: rest = front ++ back ∧ total + front.sum ≤ room ∧ Divides room count back) ↔
      Divides room count (size :: rest) := by
  constructor
  · rintro ⟨front, back, hSplit, hFront, hBack⟩
    cases front with
    | nil => exact hSplit ▸ hBack
    | cons first front =>
        obtain ⟨rfl, rfl⟩ : size = first ∧ rest = front ++ back := by simpa using hSplit
        rw [List.sum_cons] at hFront
        omega
  · exact fun h => ⟨[], size :: rest, rfl, hTotal, h⟩

/-- What next fit opens is enough, and as few as any division needs. -/
theorem openings_le_iff {room total : Nat} {sizes : List Nat} (hTotal : total ≤ room)
    (hSizes : ∀ size ∈ sizes, size ≤ room) (count : Nat) :
    openings room total sizes ≤ count ↔
      ∃ front back, sizes = front ++ back ∧ total + front.sum ≤ room ∧ Divides room count back := by
  induction sizes generalizing total count with
  | nil =>
      refine ⟨fun _ => ⟨[], [], rfl, hTotal, divides_nil room count⟩, fun _ => Nat.zero_le _⟩
  | cons size rest ih =>
      obtain ⟨hSize, hRest⟩ := List.forall_mem_cons.mp hSizes
      rw [openings]
      split
      · rename_i hOpen
        rw [front_iff_of_full hTotal hOpen.2]
        cases count with
        | zero =>
            refine ⟨fun h => absurd h (by omega), fun h => ?_⟩
            obtain ⟨_, _, _, _, hCount, _⟩ := h.head
            exact absurd hCount (by omega)
        | succ count =>
            rw [Nat.add_le_add_iff_right, ih hSize hRest]
            constructor
            · rintro ⟨front, back, rfl, hFront, hBack⟩
              have hBin : (size :: front).sum ≤ room := by
                rw [List.sum_cons]
                exact hFront
              exact hBack.cons hBin
            · intro h
              obtain ⟨front, back, hSplit, hFront, _, hBack⟩ := h.head
              exact ⟨front, back, hSplit, hFront, hBack⟩
      · rename_i hOpen
        rw [ih (by omega) hRest]
        constructor
        · rintro ⟨front, back, rfl, hFront, hBack⟩
          exact ⟨size :: front, back, rfl, by rw [List.sum_cons]; omega, hBack⟩
        · rintro ⟨front, back, hSplit, hFront, hBack⟩
          cases front with
          | nil =>
              rw [List.nil_append] at hSplit
              subst hSplit
              exact ⟨[], rest, rfl, by rw [List.sum_nil]; omega, hBack.tail⟩
          | cons first front =>
              obtain ⟨rfl, rfl⟩ : size = first ∧ rest = front ++ back := by simpa using hSplit
              rw [List.sum_cons] at hFront
              exact ⟨front, back, rfl, by omega, hBack⟩

/-- Into empty bins: one more than are opened. -/
theorem openings_zero_le_iff {room : Nat} {sizes : List Nat} (hSizes : ∀ size ∈ sizes, size ≤ room)
    (count : Nat) : openings room 0 sizes ≤ count ↔ Divides room (count + 1) sizes := by
  rw [openings_le_iff (Nat.zero_le room) hSizes]
  constructor
  · rintro ⟨front, back, rfl, hFront, hBack⟩
    exact hBack.cons (by simpa using hFront)
  · intro h
    cases sizes with
    | nil => exact ⟨[], [], rfl, Nat.zero_le _, divides_nil room count⟩
    | cons size rest =>
        obtain ⟨front, back, rfl, hFront, _, hBack⟩ := h.head
        exact ⟨size :: front, back, rfl, by simpa using hFront, hBack⟩

/-- What the bins hold in the end, from one that holds `total` already. -/
def totals (room : Nat) : Nat → List Nat → List Nat
  | total, [] => [total]
  | total, size :: rest =>
      if 0 < total ∧ room < total + size then total :: totals room size rest
      else totals room (total + size) rest

theorem totals_ne_nil (room total : Nat) (sizes : List Nat) : totals room total sizes ≠ [] := by
  induction sizes generalizing total with
  | nil => exact List.cons_ne_nil _ _
  | cons size rest ih =>
      rw [totals]
      split
      · exact List.cons_ne_nil _ _
      · exact ih (total + size)

/-- One more size goes into the last bin or opens one. -/
theorem totals_concat (size : Nat) {room total last : Nat} {sizes front : List Nat}
    (h : totals room total sizes = front ++ [last]) :
    totals room total (sizes ++ [size]) =
      if 0 < last ∧ room < last + size then front ++ [last, size] else front ++ [last + size] := by
  induction sizes generalizing total front with
  | nil =>
      cases front with
      | nil =>
          obtain rfl : total = last := by simpa [totals] using h
          rfl
      | cons first rest => simp [totals] at h
  | cons first rest ih =>
      rw [totals] at h
      rw [List.cons_append, totals]
      split at h
      · rename_i hOpen
        rw [if_pos hOpen]
        cases front with
        | nil => exact absurd (List.cons.inj h).2 (totals_ne_nil room first rest)
        | cons head front =>
            obtain ⟨rfl, hRest⟩ := List.cons.inj h
            rw [ih hRest]
            split <;> rfl
      · rename_i hOpen
        rw [if_neg hOpen]
        exact ih h

end NextFit
