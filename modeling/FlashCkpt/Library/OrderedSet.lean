import Mathlib.Data.List.Basic

/-! `std::set` with a comparison of its own, as the list of its elements in order. Elements of
which neither is less than the other count as equal. -/
namespace OrderedSet

variable {α : Type} (less : α → α → Bool) (set : List α) (x : α)

/-- The position of the first element that is not less. -/
def lowerBound : Nat := set.findIdx fun y => !less y x

/-- The position of the first element that is greater. -/
def upperBound : Nat := set.findIdx fun y => less x y

/-- Nothing is put in where an equal element is. -/
def emplace : List α :=
  match set[lowerBound less set x]? with
  | none => set ++ [x]
  | some y => if less x y then set.insertIdx (lowerBound less set x) x else set

variable {less set x} {front back : List α}

/-- A condition that holds from some place on. -/
theorem findIdx_append {p : α → Bool} (hFront : ∀ y ∈ front, p y = false)
    (hBack : ∀ y ∈ back, p y = true) : (front ++ back).findIdx p = front.length := by
  induction front with
  | nil =>
      cases back with
      | nil => rfl
      | cons y rest => simp [List.findIdx_cons, hBack y List.mem_cons_self]
  | cons y rest ih =>
      have hRest := ih fun z hz => hFront z (List.mem_cons_of_mem y hz)
      simp [List.findIdx_cons, hFront y List.mem_cons_self, hRest]

theorem lowerBound_append (hFront : ∀ y ∈ front, less y x = true)
    (hBack : ∀ y ∈ back, less y x = false) : lowerBound less (front ++ back) x = front.length := by
  apply findIdx_append
  · intro y hy
    simp [hFront y hy]
  · intro y hy
    simp [hBack y hy]

theorem upperBound_append (hFront : ∀ y ∈ front, less x y = false)
    (hBack : ∀ y ∈ back, less x y = true) : upperBound less (front ++ back) x = front.length :=
  findIdx_append hFront hBack

theorem insertIdx_append (front back : List α) (x : α) :
    (front ++ back).insertIdx front.length x = front ++ x :: back := by
  induction front with
  | nil => simp
  | cons y rest ih => simp [ih]

/-- An element between those that are less and those that are greater. -/
theorem emplace_append (hFront : ∀ y ∈ front, less y x = true)
    (hBack : ∀ y ∈ back, less x y = true ∧ less y x = false) :
    emplace less (front ++ back) x = front ++ x :: back := by
  rw [emplace, lowerBound_append hFront fun y hy => (hBack y hy).2]
  cases back with
  | nil => simp
  | cons y rest => simp [(hBack y List.mem_cons_self).1, insertIdx_append]

end OrderedSet
