import Mathlib.Algebra.Order.Ring.Nat
import Mathlib.Data.List.Basic

/-! Lists of entries with sizes, cut where the sizes of the entries from the
front reach a target. A cut is exact when the target lies between two entries. -/
namespace SizeCut

variable {α β : Type} (size : α → Nat)

def total (entries : List α) : Nat := (entries.map size).sum

/-- The entries from the front whose sizes, added to `acc`, reach the target,
and the entries after them. -/
def takeUpTo (target : Nat) : Nat → List α → List α × List α
  | _, [] => ([], [])
  | acc, entry :: rest =>
      if acc < target then
        let (taken, left) := takeUpTo target (acc + size entry) rest
        (entry :: taken, left)
      else ([], entry :: rest)

/-- The offset lies between two entries. -/
def Boundary (entries : List α) (off : Nat) : Prop :=
  ∃ front back, entries = front ++ back ∧ total size front = off

@[simp] theorem total_nil : total size [] = 0 := rfl

@[simp] theorem total_cons (entry : α) (rest : List α) :
    total size (entry :: rest) = size entry + total size rest := by
  simp [total]

theorem total_append (front back : List α) :
    total size (front ++ back) = total size front + total size back := by
  simp [total]

theorem total_mul (entries : List α) (c : Nat) :
    total (fun a => size a * c) entries = total size entries * c := by
  induction entries with
  | nil => simp
  | cons entry rest ih => rw [total_cons, total_cons, ih, Nat.add_mul]

theorem takeUpTo_append (target acc : Nat) (entries : List α) :
    (takeUpTo size target acc entries).1 ++ (takeUpTo size target acc entries).2 = entries := by
  induction entries generalizing acc with
  | nil => rfl
  | cons entry rest ih =>
      rw [takeUpTo]
      split
      · exact congrArg (entry :: ·) (ih (acc + size entry))
      · rfl

theorem takeUpTo_map (f : β → α) (target acc : Nat) (entries : List β) :
    takeUpTo size target acc (entries.map f) =
      ((takeUpTo (fun b => size (f b)) target acc entries).1.map f,
        (takeUpTo (fun b => size (f b)) target acc entries).2.map f) := by
  induction entries generalizing acc with
  | nil => rfl
  | cons entry rest ih =>
      rw [List.map_cons, takeUpTo, takeUpTo]
      split
      · rw [ih]
        rfl
      · rfl

theorem total_map (f : β → α) (entries : List β) :
    total size (entries.map f) = total (fun b => size (f b)) entries := by
  simp [total, Function.comp_def]

/-- A target between two entries of positive size is where the list is cut. -/
theorem takeUpTo_exact {front : List α} (hPos : ∀ a ∈ front, 0 < size a) (acc : Nat)
    (back : List α) :
    takeUpTo size (acc + total size front) acc (front ++ back) = (front, back) := by
  induction front generalizing acc with
  | nil =>
      rw [List.nil_append, total_nil, Nat.add_zero]
      cases back with
      | nil => rfl
      | cons entry rest => rw [takeUpTo, if_neg (Nat.lt_irrefl acc)]
  | cons entry rest ih =>
      have hHead := hPos entry List.mem_cons_self
      rw [List.cons_append, takeUpTo, total_cons, if_pos (by omega), ← Nat.add_assoc,
        ih fun a ha => hPos a (List.mem_cons_of_mem entry ha)]

theorem boundary_map (f : β → α) (entries : List β) (off : Nat) :
    Boundary size (entries.map f) off ↔ Boundary (fun b => size (f b)) entries off := by
  refine ⟨?_, ?_⟩
  · rintro ⟨front, back, hSplit, hTotal⟩
    obtain ⟨front', back', rfl, rfl, rfl⟩ := List.map_eq_append_iff.mp hSplit
    exact ⟨front', back', rfl, by rw [← hTotal, total_map]⟩
  · rintro ⟨front, back, rfl, hTotal⟩
    exact ⟨front.map f, back.map f, List.map_append, by rw [total_map, hTotal]⟩

theorem boundary_le {entries : List α} {off : Nat} (h : Boundary size entries off) :
    off ≤ total size entries := by
  obtain ⟨front, back, rfl, rfl⟩ := h
  rw [total_append]
  omega

/-- A boundary at or behind a boundary lies between entries of the back part. -/
theorem boundary_drop (front back : List α) (off : Nat) :
    Boundary size (front ++ back) (total size front + off) ↔ Boundary size back off := by
  constructor
  · intro h
    induction front with
    | nil => simpa using h
    | cons entry rest ih =>
        obtain ⟨before, after, hSplit, hTotal⟩ := h
        cases before with
        | nil =>
            have hOff : off = 0 := by
              rw [total_nil, total_cons] at hTotal
              omega
            exact ⟨[], back, rfl, hOff.symm⟩
        | cons first others =>
            rw [List.cons_append, List.cons_append, List.cons.injEq] at hSplit
            obtain ⟨rfl, hSplit⟩ := hSplit
            rw [total_cons, total_cons] at hTotal
            exact ih ⟨others, after, hSplit, by omega⟩
  · rintro ⟨front', back', rfl, rfl⟩
    exact ⟨front ++ front', back', (List.append_assoc _ _ _).symm, total_append size _ _⟩

/-- A boundary no further than the front part lies between entries of it. -/
theorem boundary_left {front back : List α} (hPos : ∀ a ∈ front ++ back, 0 < size a) {off : Nat}
    (hOff : off ≤ total size front) (h : Boundary size (front ++ back) off) :
    Boundary size front off := by
  induction front generalizing off with
  | nil => exact ⟨[], [], rfl, (Nat.le_zero.mp hOff).symm⟩
  | cons entry rest ih =>
      obtain ⟨before, after, hSplit, hTotal⟩ := h
      cases before with
      | nil => exact ⟨[], entry :: rest, rfl, hTotal⟩
      | cons first others =>
          rw [List.cons_append, List.cons_append, List.cons.injEq] at hSplit
          obtain ⟨rfl, hSplit⟩ := hSplit
          rw [total_cons] at hTotal hOff
          obtain ⟨before, after, hRest, hSize⟩ := ih
            (fun a ha => hPos a (List.mem_cons_of_mem entry ha)) (by omega)
            ⟨others, after, hSplit, rfl⟩
          exact ⟨entry :: before, after, by rw [hRest, List.cons_append], by
            rw [total_cons, hSize]; omega⟩

/-- A cut does not pass a boundary at or behind its target. -/
theorem takeUpTo_boundary {entries : List α} {target acc off : Nat}
    (h : Boundary size entries off) (hTarget : target ≤ acc + off) :
    total size (takeUpTo size target acc entries).1 ≤ off ∧
      Boundary size (takeUpTo size target acc entries).2
        (off - total size (takeUpTo size target acc entries).1) := by
  induction entries generalizing acc off with
  | nil =>
      refine ⟨Nat.zero_le off, ?_⟩
      simpa [takeUpTo] using h
  | cons entry rest ih =>
      rw [takeUpTo]
      split
      · obtain ⟨front, back, hSplit, hTotal⟩ := h
        cases front with
        | nil =>
            rw [total_nil] at hTotal
            omega
        | cons first others =>
            rw [List.cons_append, List.cons.injEq] at hSplit
            obtain ⟨rfl, hSplit⟩ := hSplit
            rw [total_cons] at hTotal
            have hRest : Boundary size rest (off - size entry) :=
              ⟨others, back, hSplit, by omega⟩
            obtain ⟨hLe, hBoundary⟩ := ih hRest (by omega : target ≤ acc + size entry + _)
            refine ⟨?_, ?_⟩
            · simp only [total_cons]
              omega
            · simp only [total_cons]
              rwa [← Nat.sub_sub]
      · exact ⟨Nat.zero_le off, by simpa using h⟩

/-- The entries that are taken reach the target, if there are enough of them. -/
theorem takeUpTo_reaches {target acc : Nat} {entries : List α}
    (h : target ≤ acc + total size entries) :
    target ≤ acc + total size (takeUpTo size target acc entries).1 := by
  induction entries generalizing acc with
  | nil => exact h
  | cons entry rest ih =>
      rw [total_cons, ← Nat.add_assoc] at h
      rw [takeUpTo]
      split
      · simp only [total_cons]
        rw [← Nat.add_assoc]
        exact ih h
      · rename_i hReached
        exact Nat.le_add_right_of_le (Nat.le_of_not_lt hReached)

/-- A cut comes to its target where the target lies between two entries. -/
theorem takeUpTo_total_iff {target acc : Nat} (entries : List α) (hAcc : acc ≤ target) :
    acc + total size (takeUpTo size target acc entries).1 = target ↔
      Boundary size entries (target - acc) := by
  constructor
  · intro h
    exact ⟨_, _, (takeUpTo_append size target acc entries).symm, by omega⟩
  · intro h
    have hEnough := boundary_le size h
    have hReaches : target ≤ acc + total size (takeUpTo size target acc entries).1 :=
      takeUpTo_reaches size (by omega)
    have hStops : total size (takeUpTo size target acc entries).1 ≤ target - acc :=
      (takeUpTo_boundary size h (by omega)).1
    omega

/-- Entries with the places where they start. -/
def starts : Nat → List α → List (Nat × α)
  | _, [] => []
  | acc, entry :: rest => (acc, entry) :: starts (acc + size entry) rest

theorem starts_append (acc : Nat) (front back : List α) :
    starts size acc (front ++ back) =
      starts size acc front ++ starts size (acc + total size front) back := by
  induction front generalizing acc with
  | nil => rfl
  | cons entry rest ih =>
      rw [List.cons_append, starts, starts, ih, total_cons, Nat.add_assoc]
      rfl

theorem le_of_mem_starts {acc : Nat} {entries : List α} {t : Nat × α}
    (h : t ∈ starts size acc entries) : acc ≤ t.1 := by
  induction entries generalizing acc with
  | nil => cases h
  | cons entry rest ih =>
      rcases List.mem_cons.mp h with rfl | h
      · exact Nat.le_refl acc
      · exact Nat.le_trans (Nat.le_add_right acc _) (ih h)

/-- Entries that are taken start before the target. -/
theorem starts_takeUpTo_lt {target acc : Nat} {entries : List α} {cut : List α × List α}
    (hCut : takeUpTo size target acc entries = cut) {t : Nat × α} (off : Nat)
    (h : t ∈ starts size (off + acc) cut.1) : t.1 < off + target := by
  subst hCut
  induction entries generalizing acc with
  | nil => cases h
  | cons entry rest ih =>
      rw [takeUpTo] at h
      split at h
      · rename_i hMore
        rcases List.mem_cons.mp h with rfl | h
        · exact Nat.add_lt_add_left hMore off
        · rw [Nat.add_assoc] at h
          exact ih h
      · cases h

/-- Entries that reach the target have all that are taken at their front. -/
theorem takeUpTo_prefix {target acc : Nat} {front : List α} (back : List α)
    (h : target ≤ acc + total size front) :
    (takeUpTo size target acc (front ++ back)).1 <+: front := by
  induction front generalizing acc with
  | nil =>
      rw [total_nil, Nat.add_zero] at h
      have hTaken : (takeUpTo size target acc back).1 = [] := by
        cases back with
        | nil => rfl
        | cons entry rest => rw [takeUpTo, if_neg (Nat.not_lt.mpr h)]
      rw [List.nil_append, List.prefix_nil]
      exact hTaken
  | cons entry rest ih =>
      rw [List.cons_append, takeUpTo]
      split
      · rw [total_cons, ← Nat.add_assoc] at h
        exact List.cons_prefix_cons.mpr ⟨rfl, ih h⟩
      · exact List.nil_prefix

/-- The end of the last cell of a grid that an interval from zero enters. -/
def roundUp (n cell : Nat) : Nat := (n + cell - 1) / cell * cell

theorem le_roundUp {n cell : Nat} (hCell : 0 < cell) : n ≤ roundUp n cell := by
  have hDiv := Nat.div_add_mod (n + cell - 1) cell
  have hMod := Nat.mod_lt (n + cell - 1) hCell
  rw [roundUp, Nat.mul_comm]
  omega

/-- A cell that starts inside ends no later, and one that starts behind the interval
starts behind the last cell. -/
theorem mul_lt_iff_roundUp {n cell k : Nat} (hCell : 0 < cell) :
    k * cell < n ↔ (k + 1) * cell ≤ roundUp n cell := by
  rw [roundUp, Nat.mul_le_mul_right_iff hCell, Nat.le_div_iff_mul_le hCell, Nat.add_mul]
  omega

theorem roundUp_le {n cell k : Nat} (hCell : 0 < cell) (h : n ≤ k * cell) :
    roundUp n cell ≤ k * cell := by
  refine Nat.mul_le_mul_right cell ?_
  by_contra hMore
  have hStart := (mul_lt_iff_roundUp (n := n) (k := k) hCell).mpr
    (Nat.mul_le_mul_right cell (Nat.lt_of_not_le hMore))
  omega

end SizeCut
