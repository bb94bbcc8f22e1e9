import Mathlib.Data.List.Pairwise
import Mathlib.Data.List.TakeWhile
import Mathlib.Order.MinMax

/-! A set of points kept as half-open ranges in order with a gap between neighbours.
An insertion merges the new range with those that it overlaps or touches. -/
namespace RangeSet

universe u
variable {α : Type u}

structure Range (α : Type u) where
  start : α
  stop : α
  deriving DecidableEq, Repr

variable [LinearOrder α]

def Range.Covers (r : Range α) (a : α) : Prop := r.start ≤ a ∧ a < r.stop

instance (r : Range α) (a : α) : Decidable (r.Covers a) := inferInstanceAs (Decidable (_ ∧ _))

/-- Some range of the list has the point. -/
def Covered (ranges : List (Range α)) (a : α) : Prop := ∃ r ∈ ranges, r.Covers a

/-- Ranges in order, none empty and no two touching. -/
structure Separated (ranges : List (Range α)) : Prop where
  nonempty : ∀ r ∈ ranges, r.start < r.stop
  gaps : ranges.Pairwise fun r s => r.stop < s.start

/-- The smallest range around two. -/
def hull (r s : Range α) : Range α := ⟨min r.start s.start, max r.stop s.stop⟩

/-- The ranges before the new one, those it meets merged into it, and those behind it. -/
def insertMerge (r : Range α) (ranges : List (Range α)) : List (Range α) :=
  let before := ranges.takeWhile fun s => s.stop < r.start
  let rest := ranges.dropWhile fun s => s.stop < r.start
  let touched := rest.takeWhile fun s => s.start ≤ r.stop
  before ++ touched.foldl hull r :: rest.dropWhile fun s => s.start ≤ r.stop

@[simp] theorem covered_nil (a : α) : ¬Covered [] a := fun ⟨_, h, _⟩ => List.not_mem_nil h

@[simp] theorem covered_cons (r : Range α) (ranges : List (Range α)) (a : α) :
    Covered (r :: ranges) a ↔ r.Covers a ∨ Covered ranges a := by
  simp [Covered]

@[simp] theorem covered_append (front back : List (Range α)) (a : α) :
    Covered (front ++ back) a ↔ Covered front a ∨ Covered back a := by
  simp [Covered, or_and_right, exists_or]

/-- A range and one that it meets have the points of their hull. -/
theorem covers_hull {r s : Range α} (hLow : r.start ≤ s.stop) (hHigh : s.start ≤ r.stop) (a : α) :
    (hull r s).Covers a ↔ r.Covers a ∨ s.Covers a := by
  simp only [hull, Range.Covers, min_le_iff, lt_max_iff]
  constructor
  · rintro ⟨hStart, hStop⟩
    rcases lt_or_ge a r.stop with h | h
    · rcases le_or_gt r.start a with h' | h'
      · exact .inl ⟨h', h⟩
      · exact .inr ⟨hStart.resolve_left h'.not_ge, lt_of_lt_of_le h' hLow⟩
    · exact .inr ⟨hHigh.trans h, hStop.resolve_left h.not_gt⟩
  · rintro (⟨h, h'⟩ | ⟨h, h'⟩)
    · exact ⟨.inl h, .inl h'⟩
    · exact ⟨.inr h, .inr h'⟩

/-- The bounds of a range grown by others. -/
theorem hull_bounds (r : Range α) (touched : List (Range α)) :
    (touched.foldl hull r).start ≤ r.start ∧ r.stop ≤ (touched.foldl hull r).stop ∧
      (∀ a, a < r.start → (∀ s ∈ touched, a < s.start) → a < (touched.foldl hull r).start) ∧
      ∀ a, r.stop < a → (∀ s ∈ touched, s.stop < a) → (touched.foldl hull r).stop < a := by
  induction touched generalizing r with
  | nil => exact ⟨le_rfl, le_rfl, fun _ h _ => h, fun _ h _ => h⟩
  | cons s rest ih =>
      obtain ⟨hStart, hStop, hBelow, hAbove⟩ := ih (hull r s)
      refine ⟨hStart.trans (min_le_left _ _), (le_max_left _ _).trans hStop, ?_, ?_⟩
      · intro a ha hs
        exact hBelow a (lt_min ha (hs s List.mem_cons_self))
          fun t ht => hs t (List.mem_cons_of_mem s ht)
      · intro a ha hs
        exact hAbove a (max_lt ha (hs s List.mem_cons_self))
          fun t ht => hs t (List.mem_cons_of_mem s ht)

theorem covers_foldl_hull (r : Range α) (touched : List (Range α))
    (hMeets : ∀ s ∈ touched, r.start ≤ s.stop ∧ s.start ≤ r.stop) (a : α) :
    (touched.foldl hull r).Covers a ↔ r.Covers a ∨ Covered touched a := by
  induction touched generalizing r with
  | nil => simp
  | cons s rest ih =>
      obtain ⟨hLow, hHigh⟩ := hMeets s List.mem_cons_self
      have hRest : ∀ t ∈ rest, (hull r s).start ≤ t.stop ∧ t.start ≤ (hull r s).stop := by
        intro t ht
        obtain ⟨h, h'⟩ := hMeets t (List.mem_cons_of_mem s ht)
        exact ⟨(min_le_left _ _).trans h, h'.trans (le_max_left _ _)⟩
      rw [List.foldl_cons, ih (hull r s) hRest, covers_hull hLow hHigh, covered_cons, or_assoc]

/-- Where each element that meets a condition makes those before it meet it too, none
that is left meets it. -/
theorem not_of_mem_dropWhile {β : Type*} {p : β → Bool} {l : List β}
    (h : l.Pairwise fun a b => p b = true → p a = true) {b : β} (hb : b ∈ l.dropWhile p) :
    ¬p b = true := by
  induction l with
  | nil => cases hb
  | cons a rest ih =>
      obtain ⟨hHead, hTail⟩ := List.pairwise_cons.mp h
      by_cases ha : p a = true
      · rw [List.dropWhile_cons_of_pos ha] at hb
        exact ih hTail hb
      · rw [List.dropWhile_cons_of_neg ha] at hb
        rcases List.mem_cons.mp hb with rfl | hb
        · exact ha
        · exact fun hp => ha (hHead b hb hp)

/-- What the insertion makes of the list: ranges before the new one, those that it meets,
and ranges behind it. -/
theorem split_ranges {ranges : List (Range α)} (h : Separated ranges) (r : Range α) :
    ∃ before touched behind, ranges = before ++ touched ++ behind ∧
      insertMerge r ranges = before ++ touched.foldl hull r :: behind ∧
      (∀ s ∈ before, s.stop < r.start) ∧ (∀ s ∈ touched, r.start ≤ s.stop ∧ s.start ≤ r.stop) ∧
      ∀ s ∈ behind, r.stop < s.start := by
  have hOrder : ranges.Pairwise fun s t => s.stop < t.stop ∧ s.start < t.start := by
    refine h.gaps.imp_of_mem fun hs ht hGap => ?_
    exact ⟨hGap.trans (h.nonempty _ ht), (h.nonempty _ hs).trans hGap⟩
  refine ⟨ranges.takeWhile fun s => s.stop < r.start,
    (ranges.dropWhile fun s => s.stop < r.start).takeWhile fun s => s.start ≤ r.stop,
    (ranges.dropWhile fun s => s.stop < r.start).dropWhile fun s => s.start ≤ r.stop,
    ?_, rfl, ?_, ?_, ?_⟩
  · rw [List.append_assoc, List.takeWhile_append_dropWhile, List.takeWhile_append_dropWhile]
  · exact fun s hs => by simpa using List.mem_takeWhile_imp hs
  · intro s hs
    have hReach := not_of_mem_dropWhile (hOrder.imp fun hst ht =>
      decide_eq_true (hst.1.trans (of_decide_eq_true ht))) ((List.takeWhile_subset _) hs)
    exact ⟨by simpa using hReach, by simpa using List.mem_takeWhile_imp hs⟩
  · intro s hs
    have hRest := hOrder.sublist (List.dropWhile_sublist fun s => decide (s.stop < r.start))
    have hBehind := not_of_mem_dropWhile (hRest.imp fun hst ht =>
      decide_eq_true (hst.2.le.trans (of_decide_eq_true ht))) hs
    simpa using hBehind

/-- The insertion adds the points of the new range and no other. -/
theorem covered_insertMerge {ranges : List (Range α)} (h : Separated ranges) (r : Range α) (a : α) :
    Covered (insertMerge r ranges) a ↔ r.Covers a ∨ Covered ranges a := by
  obtain ⟨before, touched, behind, rfl, hInsert, _, hMeets, _⟩ := split_ranges h r
  rw [hInsert]
  simp only [covered_append, covered_cons, covers_foldl_hull r touched hMeets]
  simp only [or_assoc, or_left_comm]

theorem separated_insertMerge {ranges : List (Range α)} (h : Separated ranges) {r : Range α}
    (hr : r.start < r.stop) : Separated (insertMerge r ranges) := by
  obtain ⟨before, touched, behind, rfl, hInsert, hBefore, _, hBehind⟩ := split_ranges h r
  obtain ⟨hStart, hStop, hBelow, hAbove⟩ := hull_bounds r touched
  have hGaps := h.gaps
  rw [List.append_assoc, List.pairwise_append, List.pairwise_append] at hGaps
  obtain ⟨hFront, ⟨_, hBack, hMiddle⟩, hCross⟩ := hGaps
  rw [hInsert]
  refine ⟨?_, List.pairwise_append.mpr ⟨hFront, List.pairwise_cons.mpr ⟨?_, hBack⟩, ?_⟩⟩
  · intro s hs
    rcases List.mem_append.mp hs with hs | hs
    · exact h.nonempty s (by simp [hs])
    · rcases List.mem_cons.mp hs with rfl | hs
      · exact hStart.trans_lt (hr.trans_le hStop)
      · exact h.nonempty s (by simp [hs])
  · exact fun s hs => hAbove s.start (hBehind s hs) fun t ht => hMiddle t ht s hs
  · intro s hs t ht
    rcases List.mem_cons.mp ht with rfl | ht
    · exact hBelow s.stop (hBefore s hs) fun t ht => hCross s hs t (by simp [ht])
    · exact hCross s hs t (by simp [ht])

theorem Separated.sublist {ranges part : List (Range α)} (h : Separated ranges)
    (hPart : part.Sublist ranges) : Separated part where
  nonempty := fun r hr => h.nonempty r (hPart.subset hr)
  gaps := h.gaps.sublist hPart

/-- No point is in two ranges. -/
theorem Separated.eq_of_covers {ranges : List (Range α)} (h : Separated ranges) {r s : Range α}
    (hr : r ∈ ranges) (hs : s ∈ ranges) {a : α} (hra : r.Covers a) (hsa : s.Covers a) : r = s := by
  by_contra hNe
  have hApart : ranges.Pairwise fun r s => r.stop < s.start ∨ s.stop < r.start :=
    h.gaps.imp .inl
  have hSymm : Std.Symm fun r s : Range α => r.stop < s.start ∨ s.stop < r.start :=
    ⟨fun _ _ h => h.symm⟩
  rcases hApart.forall hr hs hNe with hGap | hGap
  · exact lt_irrefl a (hra.2.trans (hGap.trans_le hsa.1))
  · exact lt_irrefl a (hsa.2.trans (hGap.trans_le hra.1))

/-- The first range has the first points. -/
theorem Separated.start_le {r : Range α} {rest : List (Range α)} (h : Separated (r :: rest)) {a : α}
    (ha : Covered (r :: rest) a) : r.start ≤ a := by
  rcases (covered_cons r rest a).mp ha with hFirst | ⟨s, hs, hCovers⟩
  · exact hFirst.1
  · have hGap := (List.pairwise_cons.mp h.gaps).1 s hs
    exact ((h.nonempty r List.mem_cons_self).le.trans hGap.le).trans hCovers.1

/-- The points behind the first range are those of the others. -/
theorem Separated.tail_covered {r : Range α} {rest : List (Range α)} (h : Separated (r :: rest))
    (a : α) : Covered rest a ↔ Covered (r :: rest) a ∧ r.stop ≤ a := by
  rw [covered_cons]
  constructor
  · rintro ⟨s, hs, hCovers⟩
    have hGap := (List.pairwise_cons.mp h.gaps).1 s hs
    exact ⟨.inr ⟨s, hs, hCovers⟩, hGap.le.trans hCovers.1⟩
  · rintro ⟨hFirst | hRest, hStop⟩
    · exact absurd hFirst.2 (not_lt.mpr hStop)
    · exact hRest

theorem Separated.stop_le {r s : Range α} {rest rest' : List (Range α)}
    (h : Separated (r :: rest)) (hStart : r.start = s.start)
    (hSame : ∀ a, Covered (r :: rest) a ↔ Covered (s :: rest') a) : s.stop ≤ r.stop := by
  by_contra hLt
  rw [not_le] at hLt
  have hIn : Covered (s :: rest') r.stop :=
    (covered_cons s rest' _).mpr (.inl ⟨hStart ▸ (h.nonempty r List.mem_cons_self).le, hLt⟩)
  rcases (covered_cons r rest _).mp ((hSame _).mpr hIn) with hFirst | ⟨t, ht, hCovers⟩
  · exact lt_irrefl _ hFirst.2
  · exact not_lt.mpr hCovers.1 ((List.pairwise_cons.mp h.gaps).1 t ht)

/-- A set of points has one list of ranges only. -/
theorem Separated.unique {ranges ranges' : List (Range α)} (h : Separated ranges)
    (h' : Separated ranges') (hSame : ∀ a, Covered ranges a ↔ Covered ranges' a) :
    ranges = ranges' := by
  induction ranges generalizing ranges' with
  | nil =>
      cases ranges' with
      | nil => rfl
      | cons s rest' =>
          have hStart : Covered (s :: rest') s.start := (covered_cons s rest' _).mpr
            (.inl ⟨le_rfl, h'.nonempty s List.mem_cons_self⟩)
          exact absurd ((hSame _).mpr hStart) (covered_nil _)
  | cons r rest ih =>
      cases ranges' with
      | nil =>
          have hStart : Covered (r :: rest) r.start := (covered_cons r rest _).mpr
            (.inl ⟨le_rfl, h.nonempty r List.mem_cons_self⟩)
          exact absurd ((hSame _).mp hStart) (covered_nil _)
      | cons s rest' =>
          have hFirst : ∀ {t : Range α} {others : List (Range α)}, Separated (t :: others) →
              Covered (t :: others) t.start := fun hSep => (covered_cons _ _ _).mpr
            (.inl ⟨le_rfl, hSep.nonempty _ List.mem_cons_self⟩)
          have hStart : r.start = s.start := le_antisymm
            (h.start_le ((hSame _).mpr (hFirst h'))) (h'.start_le ((hSame _).mp (hFirst h)))
          have hStop : r.stop = s.stop := le_antisymm
            (h'.stop_le hStart.symm fun a => (hSame a).symm) (h.stop_le hStart hSame)
          have hEq : r = s := by
            obtain ⟨start, stop⟩ := r
            obtain ⟨start', stop'⟩ := s
            exact congr (congrArg Range.mk hStart) hStop
          have hRest : Separated rest := h.sublist (List.sublist_cons_self r rest)
          have hRest' : Separated rest' := h'.sublist (List.sublist_cons_self s rest')
          rw [hEq, ih hRest hRest' fun a => by
            rw [h.tail_covered, h'.tail_covered, hSame, hStop]]

/-- A set of points as its ranges. -/
structure Ranges (α : Type u) [LinearOrder α] where
  list : List (Range α)
  separated : Separated list

theorem separated_nil : Separated ([] : List (Range α)) where
  nonempty := fun _ h => absurd h List.not_mem_nil
  gaps := List.Pairwise.nil

def Ranges.empty : Ranges α := ⟨[], separated_nil⟩

/-- Insert the points from `start` up to `stop`; nothing where there are none. -/
def Ranges.insert (start stop : α) (set : Ranges α) : Ranges α :=
  if h : start < stop then ⟨insertMerge ⟨start, stop⟩ set.list, separated_insertMerge set.separated h⟩
  else set

def Ranges.Has (set : Ranges α) (a : α) : Prop := Covered set.list a

theorem Ranges.has_insert (start stop : α) (set : Ranges α) (a : α) :
    (set.insert start stop).Has a ↔ (start ≤ a ∧ a < stop) ∨ set.Has a := by
  rw [Ranges.insert]
  split
  · exact covered_insertMerge set.separated _ a
  · rename_i hEmpty
    refine ⟨.inr, fun h => h.resolve_left ?_⟩
    exact fun h => hEmpty (h.1.trans_lt h.2)

end RangeSet
