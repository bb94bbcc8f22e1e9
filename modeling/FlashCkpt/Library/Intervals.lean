import Mathlib.Algebra.Order.Ring.Nat
import Mathlib.Data.List.Basic
import Mathlib.Data.List.Pairwise

/-! Intervals given by start and length, merged into groups where one reaches the
start of the next. An interval lies inside one group exactly when the merged
intervals leave no gap in it. -/
namespace Intervals

/-- The interval added to the groups so far, of which the last one stands first. -/
def extend : List (Nat × Nat) → Nat × Nat → List (Nat × Nat)
  | [], r => [r]
  | (start, size) :: rest, r =>
      if start + size < r.1 then r :: (start, size) :: rest
      else if start + size < r.1 + r.2 then
        (start, size + (r.1 + r.2 - (start + size))) :: rest
      else (start, size) :: rest

/-- The groups of intervals that stand in the order of their starts. -/
def merge (ranges : List (Nat × Nat)) : List (Nat × Nat) := (ranges.foldl extend []).reverse

def Covered (ranges : List (Nat × Nat)) (a : Nat) : Prop :=
  ∃ r ∈ ranges, r.1 ≤ a ∧ a < r.1 + r.2

/-- What the groups have to do with the intervals merged into them. -/
structure Merged (ranges groups : List (Nat × Nat)) : Prop where
  inside : ∀ r ∈ ranges, ∃ g ∈ groups, g.1 ≤ r.1 ∧ r.1 + r.2 ≤ g.1 + g.2
  covered : ∀ g ∈ groups, ∀ a, g.1 ≤ a → a < g.1 + g.2 → Covered ranges a
  apart : groups.Pairwise fun late early => early.1 + early.2 < late.1
  starts : ∀ g ∈ groups, ∃ r ∈ ranges, r.1 = g.1

theorem Covered.append {ranges more : List (Nat × Nat)} {a : Nat} (h : Covered ranges a) :
    Covered (ranges ++ more) a := by
  obtain ⟨r, hr, hIn⟩ := h
  exact ⟨r, List.mem_append_left more hr, hIn⟩

/-- A group of its own for an interval behind all others. -/
theorem Merged.cons {ranges groups : List (Nat × Nat)} (h : Merged ranges groups) (r : Nat × Nat)
    (hApart : ∀ g ∈ groups, g.1 + g.2 < r.1) : Merged (ranges ++ [r]) (r :: groups) := by
  refine ⟨?_, ?_, List.pairwise_cons.mpr ⟨hApart, h.apart⟩, ?_⟩
  · intro r' hr'
    rcases List.mem_append.mp hr' with hOld | hNew
    · obtain ⟨g, hg, hIn⟩ := h.inside r' hOld
      exact ⟨g, List.mem_cons_of_mem r hg, hIn⟩
    · rw [List.mem_singleton] at hNew
      subst hNew
      exact ⟨r', List.mem_cons_self, Nat.le_refl _, Nat.le_refl _⟩
  · intro g hg a hLow hHigh
    rcases List.mem_cons.mp hg with rfl | hg
    · exact ⟨g, List.mem_append_right _ List.mem_cons_self, hLow, hHigh⟩
    · exact (h.covered g hg a hLow hHigh).append
  · intro g hg
    rcases List.mem_cons.mp hg with rfl | hg
    · exact ⟨g, List.mem_append_right _ List.mem_cons_self, rfl⟩
    · obtain ⟨r', hr', hStart⟩ := h.starts g hg
      exact ⟨r', List.mem_append_left _ hr', hStart⟩

/-- The last group grown to the end of an interval that it reaches. -/
theorem Merged.grow {ranges rest : List (Nat × Nat)} {start size size' : Nat}
    (h : Merged ranges ((start, size) :: rest)) {r : Nat × Nat} (hStart : start ≤ r.1)
    (hReach : r.1 ≤ start + size) (hSize : size ≤ size') (hStop : r.1 + r.2 ≤ start + size')
    (hGrown : size' = size ∨ start + size' = r.1 + r.2) :
    Merged (ranges ++ [r]) ((start, size') :: rest) := by
  refine ⟨?_, ?_, ?_, ?_⟩
  · intro r' hr'
    rcases List.mem_append.mp hr' with hOld | hNew
    · obtain ⟨g, hg, hLow, hHigh⟩ := h.inside r' hOld
      rcases List.mem_cons.mp hg with rfl | hg
      · exact ⟨(start, size'), List.mem_cons_self, hLow, by dsimp only at hHigh ⊢; omega⟩
      · exact ⟨g, List.mem_cons_of_mem _ hg, hLow, hHigh⟩
    · rw [List.mem_singleton] at hNew
      subst hNew
      exact ⟨(start, size'), List.mem_cons_self, hStart, hStop⟩
  · intro g hg a hLow hHigh
    rcases List.mem_cons.mp hg with rfl | hg
    · by_cases hOld : a < start + size
      · exact (h.covered (start, size) List.mem_cons_self a hLow hOld).append
      · refine ⟨r, List.mem_append_right _ List.mem_cons_self, by omega, ?_⟩
        dsimp only at hHigh
        rcases hGrown with hSame | hEnd <;> omega
    · exact (h.covered g (List.mem_cons_of_mem _ hg) a hLow hHigh).append
  · obtain ⟨hHead, hTail⟩ := List.pairwise_cons.mp h.apart
    exact List.pairwise_cons.mpr ⟨hHead, hTail⟩
  · intro g hg
    have hOld : ∃ g' ∈ (start, size) :: rest, g'.1 = g.1 := by
      rcases List.mem_cons.mp hg with rfl | hg
      · exact ⟨(start, size), List.mem_cons_self, rfl⟩
      · exact ⟨g, List.mem_cons_of_mem _ hg, rfl⟩
    obtain ⟨g', hg', hSame⟩ := hOld
    obtain ⟨r', hr', hStarts⟩ := h.starts g' hg'
    exact ⟨r', List.mem_append_left _ hr', hStarts.trans hSame⟩

theorem Merged.extend {ranges groups : List (Nat × Nat)} (h : Merged ranges groups)
    {r : Nat × Nat} (hOrder : ∀ r' ∈ ranges, r'.1 ≤ r.1) :
    Merged (ranges ++ [r]) (extend groups r) := by
  cases groups with
  | nil => exact h.cons r fun g hg => by cases hg
  | cons head rest =>
      obtain ⟨start, size⟩ := head
      have hStart : start ≤ r.1 := by
        obtain ⟨r', hr', hSame⟩ := h.starts (start, size) List.mem_cons_self
        have := hOrder r' hr'
        dsimp only at hSame
        omega
      rw [Intervals.extend]
      split
      · rename_i hGap
        apply h.cons
        intro g hg
        rcases List.mem_cons.mp hg with rfl | hg
        · exact hGap
        · have := (List.pairwise_cons.mp h.apart).1 g hg
          dsimp only at this
          omega
      · split
        · exact h.grow hStart (by omega) (by omega) (by omega) (.inr (by omega))
        · exact h.grow hStart (by omega) (Nat.le_refl _) (by omega) (.inl rfl)

theorem merged_foldl (ranges done groups : List (Nat × Nat)) (h : Merged done groups)
    (hOrder : (done ++ ranges).Pairwise fun a b => a.1 ≤ b.1) :
    Merged (done ++ ranges) (ranges.foldl extend groups) := by
  induction ranges generalizing done groups with
  | nil => simpa using h
  | cons r rest ih =>
      have hBefore : ∀ r' ∈ done, r'.1 ≤ r.1 := fun r' hr' =>
        (List.pairwise_append.mp hOrder).2.2 r' hr' r List.mem_cons_self
      have hSplit : done ++ r :: rest = (done ++ [r]) ++ rest := by simp
      rw [List.foldl_cons, hSplit]
      exact ih _ _ (h.extend hBefore) (hSplit ▸ hOrder)

theorem merged_nil : Merged [] [] where
  inside := fun _ hr => absurd hr List.not_mem_nil
  covered := fun _ hg => absurd hg List.not_mem_nil
  apart := List.Pairwise.nil
  starts := fun _ hg => absurd hg List.not_mem_nil

/-- A further interval takes no group away. -/
theorem length_le_extend (groups : List (Nat × Nat)) (r : Nat × Nat) :
    groups.length ≤ (extend groups r).length := by
  cases groups with
  | nil => exact Nat.zero_le _
  | cons last rest =>
      rw [extend]
      split
      · exact Nat.le_succ _
      · split <;> exact Nat.le_refl _

theorem length_le_foldl (ranges groups : List (Nat × Nat)) :
    groups.length ≤ (ranges.foldl extend groups).length := by
  induction ranges generalizing groups with
  | nil => exact Nat.le_refl _
  | cons r rest ih => exact (length_le_extend groups r).trans (ih _)

variable {ranges : List (Nat × Nat)}

/-- An interval with something in it lies inside one group if and only if the
ranges cover it. -/
theorem inside_merge_iff (hOrder : ranges.Pairwise fun a b => a.1 ≤ b.1) {lo hi : Nat}
    (hPos : lo < hi) :
    (∃ g ∈ merge ranges, g.1 ≤ lo ∧ hi ≤ g.1 + g.2) ↔
      ∀ a, lo ≤ a → a < hi → Covered ranges a := by
  have h : Merged ranges (ranges.foldl extend []) := by
    simpa using merged_foldl ranges [] [] merged_nil (by simpa using hOrder)
  simp only [merge, List.mem_reverse]
  refine ⟨?_, ?_⟩
  · rintro ⟨g, hg, hLow, hHigh⟩ a hLo hHi
    exact h.covered g hg a (by omega) (by omega)
  · intro hAll
    obtain ⟨r, hr, hFrom, hTo⟩ := hAll lo (Nat.le_refl _) hPos
    obtain ⟨g, hg, hLow, hHigh⟩ := h.inside r hr
    refine ⟨g, hg, by omega, ?_⟩
    -- the first address behind the group is covered by a range of another group
    by_contra hShort
    obtain ⟨r', hr', hFrom', hTo'⟩ := hAll (g.1 + g.2) (by omega) (by omega)
    obtain ⟨g', hg', hLow', hHigh'⟩ := h.inside r' hr'
    have hNe : g ≠ g' := by
      rintro rfl
      omega
    have hSymm : Std.Symm fun a b : Nat × Nat => b.1 + b.2 < a.1 ∨ a.1 + a.2 < b.1 :=
      ⟨fun _ _ => Or.symm⟩
    have hApart := (h.apart.imp (S := fun a b : Nat × Nat => b.1 + b.2 < a.1 ∨ a.1 + a.2 < b.1)
      Or.inl).forall hg hg' hNe
    omega

end Intervals
