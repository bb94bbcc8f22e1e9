import FlashCkpt.Library.OrderedSet
import FlashCkpt.Library.RangeSet
import Mathlib.Data.Set.Card
import Mathlib.Order.Interval.Finset.Nat

/-! The dirty set of `dirty_templates.cpp` over calls with arbitrary pointers. The `std::set`
stays a list of separated ranges, in which the elements that count as equal to a new one are
those that it overlaps or touches. -/
namespace FlashCkpt.Emul.Gcr

open OrderedSet RangeSet

/-- A pointer has 64 bits. -/
abbrev Pointer := Fin (2 ^ 64)

/-- `dirty_address::operator<`. -/
def dirtyLess (r other : Range Nat) : Bool := r.stop < other.start

/-- `add_and_merge_dirty_address`: the elements from the lower to the upper bound are erased and
merged into the new one. -/
def addAndMergeDirtyAddress (set : List (Range Nat)) (start stop : Pointer) : List (Range Nat) :=
  if start ≥ stop then set
  else
    let new : Range Nat := ⟨start, stop⟩
    let lower := lowerBound dirtyLess set new
    let upper := upperBound dirtyLess set new
    let erased := (set.drop lower).take (upper - lower)
    emplace dirtyLess (set.take lower ++ set.drop upper) (erased.foldl hull new)

/-- The loop of `gcr_snapshot_dirty_set`. -/
def snapshotLoop (max : Nat) : List (Range Nat) → List (Range Nat) → Nat → List (Range Nat) × Nat
  | [], out, tot => (out, tot)
  | r :: rest, out, tot =>
      if max ≤ out.length then (out, tot)
      else snapshotLoop max rest (out ++ [r]) ((tot + (r.stop - r.start)) % 2 ^ 64)

/-- The ranges written and `total_bytes`. -/
def gcrSnapshotDirtySet (set : List (Range Nat)) (max : Nat) : List (Range Nat) × Nat :=
  snapshotLoop max set [] 0

/-- The set after calls from the empty one. -/
def dirtySet (calls : List (Pointer × Pointer)) : List (Range Nat) :=
  calls.foldl (fun set call => addAndMergeDirtyAddress set call.1 call.2) []

/-- The addresses of the calls. -/
def Inserted (calls : List (Pointer × Pointer)) (a : Nat) : Prop :=
  ∃ call ∈ calls, call.1.val ≤ a ∧ a < call.2.val

/-- The comparison puts the separated ranges in order, and finds equal to the new one those that
it meets: the call is an insertion into the set of ranges. -/
theorem addAndMerge_eq {set : List (Range Nat)} (h : Separated set) {start stop : Pointer}
    (hLt : start < stop) :
    addAndMergeDirtyAddress set start stop = insertMerge ⟨start.val, stop.val⟩ set := by
  obtain ⟨before, touched, behind, hSet, hInsert, hBefore, hMeets, hBehind⟩ :=
    split_ranges h ⟨start.val, stop.val⟩
  obtain ⟨hStart, hStop, hBelow, hAbove⟩ := hull_bounds ⟨start.val, stop.val⟩ touched
  have hNew : start.val < stop.val := hLt
  have hOrdered : ∀ r ∈ set, r.start < r.stop := h.nonempty
  have hGaps := h.gaps
  rw [hSet, List.append_assoc, List.pairwise_append, List.pairwise_append] at hGaps
  obtain ⟨-, ⟨-, -, hMiddle⟩, hCross⟩ := hGaps
  have hLower : lowerBound dirtyLess set ⟨start, stop⟩ = before.length := by
    rw [hSet, List.append_assoc]
    apply lowerBound_append
    · intro r hr
      simpa [dirtyLess] using hBefore r hr
    · intro r hr
      rcases List.mem_append.mp hr with hTouched | hLast
      · simpa [dirtyLess] using (hMeets r hTouched).1
      · have hGap := hBehind r hLast
        have := hOrdered r (by simp [hSet, hLast])
        simp only [dirtyLess, decide_eq_false_iff_not, not_lt] at hGap ⊢
        omega
  have hUpper : upperBound dirtyLess set ⟨start, stop⟩ = (before ++ touched).length := by
    rw [hSet]
    apply upperBound_append
    · intro r hr
      rcases List.mem_append.mp hr with hFirst | hTouched
      · have hGap := hBefore r hFirst
        have := hOrdered r (by simp [hSet, hFirst])
        simp only [dirtyLess, decide_eq_false_iff_not, not_lt] at hGap ⊢
        omega
      · simpa [dirtyLess] using (hMeets r hTouched).2
    · intro r hr
      simpa [dirtyLess] using hBehind r hr
  rw [addAndMergeDirtyAddress, if_neg (not_le.mpr hLt)]
  dsimp only
  have hErased : (set.drop before.length).take ((before ++ touched).length - before.length) =
      touched := by
    rw [hSet, List.append_assoc, List.drop_left, List.length_append, Nat.add_sub_cancel_left,
      List.take_left]
  have hKept : set.take before.length ++ set.drop (before ++ touched).length = before ++ behind := by
    rw [hSet, List.drop_left, List.append_assoc, List.take_left]
  rw [hLower, hUpper, hInsert, hErased, hKept]
  apply emplace_append
  · intro r hr
    simpa [dirtyLess] using
      hBelow r.stop (hBefore r hr) fun s hs => hCross r hr s (List.mem_append_left _ hs)
  · intro r hr
    have hAfter := hAbove r.start (hBehind r hr) fun s hs => hMiddle s hs r hr
    have := hOrdered r (by simp [hSet, hr])
    dsimp only at hStart hStop
    simp only [dirtyLess, decide_eq_true_eq, decide_eq_false_iff_not]
    omega

/-- The call is the insertion of the library. -/
theorem addAndMerge_insert (set : Ranges Nat) (start stop : Pointer) :
    addAndMergeDirtyAddress set.list start stop = (set.insert start.val stop.val).list := by
  rw [Ranges.insert]
  by_cases hLt : start < stop
  · rw [addAndMerge_eq set.separated hLt, dif_pos (Fin.lt_def.mp hLt)]
  · rw [addAndMergeDirtyAddress, if_pos (not_lt.mp hLt), dif_neg (fun h => hLt (Fin.lt_def.mpr h))]

/-- After any calls the set is separated and has the addresses of the calls. -/
theorem dirtySet_spec (calls : List (Pointer × Pointer)) :
    Separated (dirtySet calls) ∧ ∀ a, Covered (dirtySet calls) a ↔ Inserted calls a := by
  have hStep : ∀ (rest : List (Pointer × Pointer)) (set : Ranges Nat), ∃ set' : Ranges Nat,
      rest.foldl (fun set call => addAndMergeDirtyAddress set call.1 call.2) set.list = set'.list ∧
        ∀ a, set'.Has a ↔ set.Has a ∨ Inserted rest a := by
    intro rest
    induction rest with
    | nil => exact fun set => ⟨set, rfl, fun a => by simp [Inserted]⟩
    | cons call rest ih =>
        intro set
        obtain ⟨set', hSet', hHas⟩ := ih (set.insert call.1.val call.2.val)
        refine ⟨set', ?_, fun a => ?_⟩
        · rw [List.foldl_cons, addAndMerge_insert, hSet']
        · rw [hHas, Ranges.has_insert]
          simp only [Inserted, List.mem_cons, exists_eq_or_imp, or_assoc, or_left_comm]
  obtain ⟨set, hSet, hHas⟩ := hStep calls .empty
  rw [dirtySet, show ([] : List (Range Nat)) = Ranges.empty.list from rfl, hSet]
  refine ⟨set.separated, fun a => ?_⟩
  rw [← Ranges.Has, hHas]
  simp [Ranges.Has, Ranges.empty]

/-- As many addresses as the lengths of the ranges add up to. -/
theorem ncard_covered {ranges : List (Range Nat)} (h : Separated ranges) :
    {a | Covered ranges a}.Finite ∧
      {a | Covered ranges a}.ncard = (ranges.map fun r => r.stop - r.start).sum := by
  induction ranges with
  | nil => simp
  | cons r rest ih =>
      obtain ⟨hFinite, hCard⟩ := ih (h.sublist (List.sublist_cons_self r rest))
      have hUnion : {a | Covered (r :: rest) a} =
          ↑(Finset.Ico r.start r.stop) ∪ {a | Covered rest a} := by
        ext a
        simp [Range.Covers]
      have hDisjoint : Disjoint (↑(Finset.Ico r.start r.stop) : Set Nat) {a | Covered rest a} := by
        rw [Set.disjoint_left]
        intro a hFirst hRest
        rw [Finset.coe_Ico] at hFirst
        exact absurd ((h.tail_covered a).mp hRest).2 (not_le.mpr hFirst.2)
      rw [hUnion]
      refine ⟨(Finset.finite_toSet _).union hFinite, ?_⟩
      rw [Set.ncard_union_eq hDisjoint (Finset.finite_toSet _) hFinite, Set.ncard_coe_finset,
        Nat.card_Ico, hCard, List.map_cons, List.sum_cons]

/-- With room for all of them the loop goes through all ranges. -/
theorem snapshotLoop_eq {max : Nat} {set out : List (Range Nat)} {tot : Nat} (hTot : tot < 2 ^ 64)
    (hRoom : out.length + set.length ≤ max) :
    snapshotLoop max set out tot =
      (out ++ set, (tot + (set.map fun r => r.stop - r.start).sum) % 2 ^ 64) := by
  induction set generalizing out tot with
  | nil => rw [snapshotLoop, List.append_nil, List.map_nil, List.sum_nil, Nat.add_zero,
      Nat.mod_eq_of_lt hTot]
  | cons r rest ih =>
      rw [List.length_cons] at hRoom
      rw [snapshotLoop, if_neg (by omega), ih (Nat.mod_lt _ (by decide)) (by simp; omega),
        List.append_assoc, List.singleton_append, List.map_cons, List.sum_cons, Nat.mod_add_mod,
        Nat.add_assoc]

/-- The addresses of the calls, counted, do not wrap around. -/
theorem ncard_inserted_lt (calls : List (Pointer × Pointer)) :
    {a | Inserted calls a}.ncard < 2 ^ 64 := by
  have hBound : {a | Inserted calls a} ⊆ ↑(Finset.range (2 ^ 64 - 1)) := by
    rintro a ⟨call, -, -, hHigh⟩
    have := call.2.isLt
    rw [Finset.coe_range, Set.mem_Iio]
    omega
  have hLe := Set.ncard_le_ncard hBound (Finset.finite_toSet _)
  rw [Set.ncard_coe_finset, Finset.card_range] at hLe
  omega

/-- Whatever the calls, the set is the one list of separated ranges with their addresses, so it
does not depend on their order or repetition, and a snapshot with room for all of it counts
these addresses. -/
theorem dirtySet_canonical (calls : List (Pointer × Pointer)) :
    Separated (dirtySet calls) ∧ (∀ a, Covered (dirtySet calls) a ↔ Inserted calls a) ∧
      (∀ ranges, Separated ranges → (∀ a, Covered ranges a ↔ Inserted calls a) →
        ranges = dirtySet calls) ∧
      (∀ others, (∀ a, Inserted others a ↔ Inserted calls a) → dirtySet others = dirtySet calls) ∧
      ∀ max, (dirtySet calls).length ≤ max → gcrSnapshotDirtySet (dirtySet calls) max =
        (dirtySet calls, {a | Inserted calls a}.ncard) := by
  obtain ⟨hSeparated, hCovered⟩ := dirtySet_spec calls
  refine ⟨hSeparated, hCovered, ?_, ?_, ?_⟩
  · intro ranges h hSame
    exact h.unique hSeparated fun a => (hSame a).trans (hCovered a).symm
  · intro others hSame
    obtain ⟨hOthers, hTheirs⟩ := dirtySet_spec others
    exact hOthers.unique hSeparated fun a =>
      (hTheirs a).trans ((hSame a).trans (hCovered a).symm)
  · intro max hRoom
    have hCard := (ncard_covered hSeparated).2
    simp only [hCovered] at hCard
    rw [gcrSnapshotDirtySet, snapshotLoop_eq (by decide) (by simpa using hRoom), Nat.zero_add,
      ← hCard, Nat.mod_eq_of_lt (ncard_inserted_lt calls), List.nil_append]

/-- Touching calls in either order. -/
example : dirtySet [(4, 8), (0, 2), (2, 4)] = [⟨0, 8⟩] := by decide

end FlashCkpt.Emul.Gcr
