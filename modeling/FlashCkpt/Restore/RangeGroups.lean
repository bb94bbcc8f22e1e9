import FlashCkpt.Restore.Selective

/-! The groups of the readers of `librst_vllm.c`, with the 64-bit sums of the loop that builds
them. The buffer of a group has the size of the group, and a range is copied into it from
`base_va - group_va` on. -/
namespace FlashCkpt.Restore

open ByteImage Intervals Crypto Image

/-- `group_va` and `group_sz`, the last group first, and `range_group`. -/
structure Grouping where
  groups : List (Nat × Nat)
  rangeGroup : List Nat
  deriving DecidableEq, Repr

/-- `group_va + group_sz`. -/
def groupStop (group : Nat × Nat) : Nat := (group.1 + group.2) % 2 ^ 64

def openGroup (groups : List (Nat × Nat)) (d : RangeDesc) : Option (List (Nat × Nat)) :=
  if maxGroups ≤ groups.length then none else some ((d.baseVa, d.length) :: groups)

/-- The group grown to the end of a range, if that lies behind its own. -/
def growGroup (group : Nat × Nat) (d : RangeDesc) : Nat × Nat :=
  if groupStop group < rangeStop d then
    (group.1, (group.2 + (rangeStop d - groupStop group)) % 2 ^ 64)
  else group

def addGroup (groups : List (Nat × Nat)) (d : RangeDesc) : Option (List (Nat × Nat)) :=
  match groups with
  | [] => openGroup [] d
  | last :: rest =>
      if groupStop last < d.baseVa then openGroup (last :: rest) d
      else some (growGroup last d :: rest)

def Grouping.add (g : Grouping) (d : RangeDesc) : Option Grouping :=
  (addGroup g.groups d).map fun groups => ⟨groups, g.rangeGroup ++ [groups.length - 1]⟩

/-- The loop over the sorted descriptors, the same in both readers. -/
def groupRanges (sorted : List RangeDesc) : Option Grouping :=
  if maxRanges < sorted.length then none else sorted.foldlM Grouping.add ⟨[], []⟩

/-- The group with this number. -/
def Grouping.group? (g : Grouping) (k : Nat) : Option (Nat × Nat) := g.groups.reverse[k]?

/-- What the assembly of a range copies. -/
inductive GroupReader where
  | plain
  | encrypted (keys : Keys)

def GroupReader.log (r : GroupReader) (base : BaseFile) (d : RangeDesc) : Option Log :=
  match r with
  | .plain => dataLog (isV3 base) base.data base.size d
  | .encrypted keys => rangeLog keys base d

def rangeSpan (d : RangeDesc) : Nat × Nat := (d.baseVa, d.length)

/-- The group has the range from its start to its end. -/
def InGroup (d : RangeDesc) (group : Nat × Nat) : Prop :=
  group.1 ≤ d.baseVa ∧ d.baseVa + d.length ≤ group.1 + group.2

/-- `base_va - group_va`. -/
def groupOffset (d : RangeDesc) (group : Nat × Nat) : Nat :=
  (d.baseVa + 2 ^ 64 - group.1) % 2 ^ 64

/-- What the readers take for granted about the groups: they stand in order with gaps between
them, and are the ranges in other pieces; `range_group` has the one group of each range, with
room for its length and for the pages that are copied. -/
structure GroupsSound (copies : RangeDesc → Option Log) (sorted : List RangeDesc) (g : Grouping) :
    Prop where
  apart : g.groups.reverse.Pairwise fun a b => a.1 + a.2 < b.1
  union : ∀ a, Covered g.groups.reverse a ↔ Covered (sorted.map rangeSpan) a
  assigned : g.rangeGroup.length = sorted.length
  unique : ∀ (i : Nat) d, sorted[i]? = some d → ∀ k, g.rangeGroup[i]? = some k ↔
    ∃ group, g.group? k = some group ∧ InGroup d group
  fits : ∀ (i : Nat) d k group, sorted[i]? = some d → g.rangeGroup[i]? = some k →
    g.group? k = some group → groupOffset d group + d.length ≤ group.2
  copied : ∀ (i : Nat) d k group, sorted[i]? = some d → g.rangeGroup[i]? = some k →
    g.group? k = some group → ∀ log, copies d = some log →
    ∀ w ∈ log, groupOffset d group + (w.1 - d.baseVa) + w.2.length ≤ group.2

/-- The fields of a descriptor have 64 bits. -/
structure Fields64 (d : RangeDesc) : Prop where
  baseVa_lt : d.baseVa < 2 ^ 64
  length_lt : d.length < 2 ^ 64

def ReachesTop (d : RangeDesc) : Prop := 2 ^ 64 ≤ d.baseVa + d.length

/-- A range that ends at the end of the address space, or wraps around it, begins behind the
ends of all others. -/
def TopApart (descs : List RangeDesc) : Prop :=
  descs.Pairwise fun a b =>
    (ReachesTop a → b.baseVa + b.length < a.baseVa) ∧
      (ReachesTop b → a.baseVa + a.length < b.baseVa)

/-- From the start of a range to the end of each page that is copied for it there are only
addresses of ranges. -/
def CopiesCovered (copies : RangeDesc → Option Log) (descs : List RangeDesc) : Prop :=
  ∀ d ∈ descs, ∀ log, copies d = some log → ∀ w ∈ log, ∀ a, d.baseVa ≤ a → a < w.1 + w.2.length →
    Covered (descs.map rangeSpan) a

section Step

variable {groups groups' : List (Nat × Nat)} {group : Nat × Nat} {d : RangeDesc}

theorem groupStop_eq (h : group.1 + group.2 < 2 ^ 64) : groupStop group = group.1 + group.2 :=
  Nat.mod_eq_of_lt h

/-- A group that ends below the end of the address space is grown without wrapping around. -/
theorem growGroup_eq (h : group.1 + group.2 < 2 ^ 64) :
    growGroup group d =
      if group.1 + group.2 < rangeStop d then
        (group.1, group.2 + (rangeStop d - (group.1 + group.2)))
      else group := by
  have hStop : rangeStop d < 2 ^ 64 := Nat.mod_lt _ (Nat.two_pow_pos 64)
  rw [growGroup, groupStop_eq h]
  split
  · rw [Nat.mod_eq_of_lt (by omega)]
  · rfl

theorem growGroup_lt (h : group.1 + group.2 < 2 ^ 64) :
    (growGroup group d).1 + (growGroup group d).2 < 2 ^ 64 := by
  have hStop : rangeStop d < 2 ^ 64 := Nat.mod_lt _ (Nat.two_pow_pos 64)
  rw [growGroup_eq h]
  split
  · dsimp only
    omega
  · exact h

theorem growGroup_le (h : group.1 + group.2 < 2 ^ 64) : group.2 ≤ (growGroup group d).2 := by
  rw [growGroup_eq h]
  split
  · exact Nat.le_add_right _ _
  · exact Nat.le_refl _

@[simp] theorem growGroup_fst : (growGroup group d).1 = group.1 := by
  rw [growGroup]
  split <;> rfl

/-- The last group is grown, or there is a new one behind it. -/
theorem addGroup_cases (h : addGroup groups d = some groups') :
    (groups' = (d.baseVa, d.length) :: groups ∧
        ∀ last rest, groups = last :: rest → groupStop last < d.baseVa) ∨
      ∃ last rest, groups = last :: rest ∧ d.baseVa ≤ groupStop last ∧
        groups' = growGroup last d :: rest := by
  cases groups with
  | nil =>
      rw [addGroup, openGroup] at h
      split at h
      · cases h
      · cases h
        refine .inl ⟨rfl, fun last rest hCons => ?_⟩
        cases hCons
  | cons last rest =>
      rw [addGroup] at h
      split at h
      · rename_i hGap
        rw [openGroup] at h
        split at h
        · cases h
        · cases h
          refine .inl ⟨rfl, fun last' rest' hCons => ?_⟩
          cases hCons
          exact hGap
      · rename_i hReach
        cases h
        exact .inr ⟨last, rest, rfl, Nat.le_of_not_lt hReach, rfl⟩

/-- A group keeps its number and its start, and all but the last one keep their size. -/
theorem group_kept (h : addGroup groups d = some groups') {k : Nat}
    (hGroup : groups.reverse[k]? = some group) :
    groups'.reverse[k]? = some group ∨
      k + 1 = groups.length ∧ groups'.reverse[k]? = some (growGroup group d) := by
  obtain ⟨hLess, -⟩ := List.getElem?_eq_some_iff.mp hGroup
  rw [List.length_reverse] at hLess
  rcases addGroup_cases h with ⟨rfl, -⟩ | ⟨last, rest, rfl, -, rfl⟩
  · left
    rw [List.reverse_cons, List.getElem?_append_left (by rwa [List.length_reverse])]
    exact hGroup
  · rw [List.reverse_cons] at hGroup
    rw [List.reverse_cons, List.length_cons]
    rw [List.length_cons] at hLess
    by_cases hOld : k < rest.length
    · left
      rw [List.getElem?_append_left (by rwa [List.length_reverse])] at hGroup ⊢
      exact hGroup
    · right
      obtain rfl : k = rest.length := by omega
      rw [List.getElem?_append_right (by rw [List.length_reverse]), List.length_reverse,
        Nat.sub_self] at hGroup ⊢
      cases hGroup
      exact ⟨rfl, rfl⟩

/-- Below the end of the address space the sums of the loop are those of numbers. -/
theorem addGroup_extend (h : addGroup groups d = some groups')
    (hLow : ∀ group ∈ groups, group.1 + group.2 < 2 ^ 64)
    (hEnd : ReachesTop d → groups' = (d.baseVa, d.length) :: groups) :
    groups' = extend groups (rangeSpan d) := by
  rcases addGroup_cases h with ⟨rfl, hGap⟩ | ⟨last, rest, rfl, hReach, rfl⟩
  · cases groups with
    | nil => rfl
    | cons last rest =>
        have hBehind : last.1 + last.2 < (rangeSpan d).1 := by
          rw [← groupStop_eq (hLow last List.mem_cons_self)]
          exact hGap last rest rfl
        rw [extend, if_pos hBehind]
        rfl
  · have hLast := hLow last List.mem_cons_self
    have hNoGap : ¬last.1 + last.2 < (rangeSpan d).1 := by
      rw [← groupStop_eq hLast]
      exact Nat.not_lt.mpr hReach
    have hBelow : ¬ReachesTop d := by
      intro hTop
      have hLength := congrArg List.length (hEnd hTop)
      simp at hLength
    have hStop : rangeStop d = (rangeSpan d).1 + (rangeSpan d).2 :=
      Nat.mod_eq_of_lt (Nat.lt_of_not_le hBelow)
    rw [growGroup_eq hLast, hStop, extend, if_neg hNoGap]
    by_cases hBehind : last.1 + last.2 < (rangeSpan d).1 + (rangeSpan d).2
    · rw [if_pos hBehind, if_pos hBehind]
    · rw [if_neg hBehind, if_neg hBehind]

end Step

/-- The groups so far are those of numbers, and have the ranges so far. -/
structure Tracks (done : List RangeDesc) (g : Grouping) : Prop where
  groups : g.groups = (done.map rangeSpan).foldl extend []
  assigned : g.rangeGroup.length = done.length
  member : ∀ (i : Nat) d, done[i]? = some d → ∃ k group, g.rangeGroup[i]? = some k ∧
    g.group? k = some group ∧ InGroup d group

/-- A range lost its end to a sum that wrapped around, or two groups meet. -/
def Torn (done : List RangeDesc) (g : Grouping) : Prop :=
  (∃ (i : Nat) (d : RangeDesc) (k : Nat) (group : Nat × Nat), done[i]? = some d ∧
      g.rangeGroup[i]? = some k ∧ g.group? k = some group ∧ group.1 + group.2 < 2 ^ 64 ∧
      ReachesTop d) ∨
    ∃ (k : Nat) (group behind : Nat × Nat), g.group? k = some group ∧
      g.group? (k + 1) = some behind ∧ behind.1 ≤ group.1 + group.2

/-- No sum wrapped around so far. -/
structure Clean (done : List RangeDesc) (g : Grouping) : Prop where
  tracks : Tracks done g
  low : ∀ group ∈ g.groups, group.1 + group.2 < 2 ^ 64
  below : ∀ d ∈ done, ¬ReachesTop d

/-- What the loop has made of the ranges so far. -/
inductive Progress (done : List RangeDesc) (g : Grouping) : Prop where
  | clean (clean : Clean done g)
  | topped (tracks : Tracks done g) (apart : TopApart done) (d : RangeDesc)
      (rest : List (Nat × Nat)) (mem : d ∈ done) (top : ReachesTop d)
      (groups : g.groups = (d.baseVa, d.length) :: rest)
  | torn (broken : Torn done g) (apart : ¬TopApart done)

section Loop

variable {done : List RangeDesc} {g g' : Grouping} {d : RangeDesc}

def SortedByVa (descs : List RangeDesc) : Prop := descs.Pairwise fun a b => a.baseVa ≤ b.baseVa

theorem Tracks.merged (h : Tracks done g) (hSorted : SortedByVa done) :
    Merged (done.map rangeSpan) g.groups := by
  have hOrder : ([] ++ done.map rangeSpan).Pairwise fun a b : Nat × Nat => a.1 ≤ b.1 := by
    rw [List.nil_append, List.pairwise_map]
    exact hSorted
  have hMerged := merged_foldl (done.map rangeSpan) [] [] merged_nil hOrder
  rw [List.nil_append] at hMerged
  rw [h.groups]
  exact hMerged

theorem add_cases (h : g.add d = some g') :
    ∃ groups, addGroup g.groups d = some groups ∧
      g' = ⟨groups, g.rangeGroup ++ [groups.length - 1]⟩ := by
  obtain ⟨groups, hGroups, rfl⟩ := Option.map_eq_some_iff.mp h
  exact ⟨groups, hGroups, rfl⟩

theorem getElem?_concat {α : Type} {l : List α} {a b : α} {i : Nat} (h : (l ++ [a])[i]? = some b) :
    l[i]? = some b ∨ i = l.length ∧ b = a := by
  by_cases hOld : i < l.length
  · rw [List.getElem?_append_left hOld] at h
    exact .inl h
  · rw [List.getElem?_append_right (Nat.le_of_not_lt hOld), List.getElem?_singleton] at h
    split at h
    · cases h
      exact .inr ⟨by omega, rfl⟩
    · cases h

theorem Tracks.add {groups : List (Nat × Nat)} (h : Tracks done g)
    (hAdd : addGroup g.groups d = some groups)
    (hLow : ∀ group ∈ g.groups, group.1 + group.2 < 2 ^ 64)
    (hEnd : ReachesTop d → groups = (d.baseVa, d.length) :: g.groups)
    (hHead : ∃ group rest, groups = group :: rest ∧ InGroup d group) :
    Tracks (done ++ [d]) ⟨groups, g.rangeGroup ++ [groups.length - 1]⟩ where
  groups := by
    rw [List.map_append, List.foldl_append, ← h.groups]
    exact addGroup_extend hAdd hLow hEnd
  assigned := by simp [h.assigned]
  member := by
    intro i e hi
    rcases getElem?_concat hi with hOld | ⟨rfl, rfl⟩
    · obtain ⟨k, group, hNumber, hGroup, hIn⟩ := h.member i e hOld
      have hLess := (List.getElem?_eq_some_iff.mp hNumber).1
      have hMem : group ∈ g.groups := List.mem_reverse.mp (List.mem_of_getElem? hGroup)
      have hNumber' : (g.rangeGroup ++ [groups.length - 1])[i]? = some k := by
        rw [List.getElem?_append_left hLess, hNumber]
      rcases group_kept hAdd hGroup with hKept | ⟨-, hGrown⟩
      · exact ⟨k, group, hNumber', hKept, hIn⟩
      · refine ⟨k, growGroup group d, hNumber', hGrown, ?_, ?_⟩
        · rw [growGroup_fst]
          exact hIn.1
        · rw [growGroup_fst]
          exact hIn.2.trans (Nat.add_le_add_left (growGroup_le (hLow group hMem)) _)
    · obtain ⟨group, rest, rfl, hIn⟩ := hHead
      refine ⟨rest.length, group, ?_, ?_, hIn⟩
      · rw [List.getElem?_append_right (Nat.le_of_eq h.assigned), h.assigned, Nat.sub_self]
        rfl
      · rw [Grouping.group?, List.reverse_cons,
          List.getElem?_append_right (by rw [List.length_reverse]), List.length_reverse,
          Nat.sub_self]
        rfl

/-- The end of a group is the end of a range. -/
theorem exists_stop (h : Tracks done g) (hSorted : SortedByVa done) {group : Nat × Nat}
    (hGroup : group ∈ g.groups) : ∃ e ∈ done, group.1 + group.2 ≤ e.baseVa + e.length := by
  have hMerged := h.merged hSorted
  by_cases hEmpty : group.2 = 0
  · obtain ⟨r, hr, hStart⟩ := hMerged.starts group hGroup
    obtain ⟨e, he, rfl⟩ := List.mem_map.mp hr
    refine ⟨e, he, ?_⟩
    simp only [rangeSpan] at hStart
    omega
  · obtain ⟨r, hr, hLow, hHigh⟩ := hMerged.covered group hGroup (group.1 + group.2 - 1) (by omega)
      (by omega)
    obtain ⟨e, he, rfl⟩ := List.mem_map.mp hr
    refine ⟨e, he, ?_⟩
    simp only [rangeSpan] at hHigh
    omega

/-- A range behind the last group is behind all ranges. -/
theorem stop_lt (h : Tracks done g) (hSorted : SortedByVa done)
    (hLow : ∀ group ∈ g.groups, group.1 + group.2 < 2 ^ 64)
    (hGap : ∀ last rest, g.groups = last :: rest → groupStop last < d.baseVa) :
    ∀ e ∈ done, e.baseVa + e.length < d.baseVa := by
  intro e he
  have hMerged := h.merged hSorted
  obtain ⟨group, hGroup, hStart, hStop⟩ := hMerged.inside _ (List.mem_map_of_mem he)
  obtain ⟨last, rest, hCons⟩ := List.exists_cons_of_ne_nil (List.ne_nil_of_mem hGroup)
  have hApart := hMerged.apart
  have hBehind := hGap last rest hCons
  rw [groupStop_eq (hLow last (hCons ▸ List.mem_cons_self))] at hBehind
  rw [hCons] at hGroup hApart
  simp only [rangeSpan] at hStart hStop
  rcases List.mem_cons.mp hGroup with rfl | hEarlier
  · omega
  · have := (List.pairwise_cons.mp hApart).1 group hEarlier
    omega

theorem Torn.add (h : Torn done g) (hAdd : g.add d = some g') : Torn (done ++ [d]) g' := by
  obtain ⟨groups, hGroups, rfl⟩ := add_cases hAdd
  rcases h with ⟨i, e, k, group, hi, hNumber, hGroup, hLow, hTop⟩ |
    ⟨k, group, behind, hGroup, hBehind, hMeet⟩
  · have hi' : (done ++ [d])[i]? = some e := by
      rw [List.getElem?_append_left (List.getElem?_eq_some_iff.mp hi).1, hi]
    have hNumber' : (g.rangeGroup ++ [groups.length - 1])[i]? = some k := by
      rw [List.getElem?_append_left (List.getElem?_eq_some_iff.mp hNumber).1, hNumber]
    rcases group_kept hGroups hGroup with hKept | ⟨-, hGrown⟩
    · exact .inl ⟨i, e, k, group, hi', hNumber', hKept, hLow, hTop⟩
    · exact .inl ⟨i, e, k, growGroup group d, hi', hNumber', hGrown, growGroup_lt hLow, hTop⟩
  · have hLess := (List.getElem?_eq_some_iff.mp hBehind).1
    rw [List.length_reverse] at hLess
    have hKept : groups.reverse[k]? = some group := by
      rcases group_kept hGroups hGroup with hKept | ⟨hLast, -⟩
      · exact hKept
      · omega
    rcases group_kept hGroups hBehind with hSame | ⟨-, hGrown⟩
    · exact .inr ⟨k, group, behind, hKept, hSame, hMeet⟩
    · exact .inr ⟨k, group, growGroup behind d, hKept, hGrown, by rwa [growGroup_fst]⟩

/-- Behind a group that wraps around there is a new one, and the two meet. -/
theorem torn_of_topped {e : RangeDesc} {rest groups : List (Nat × Nat)}
    (hAdd : addGroup g.groups d = some groups) (hLast : g.groups = (e.baseVa, e.length) :: rest)
    (hTop : ReachesTop e) (hWide : Fields64 e) (hBase : d.baseVa < 2 ^ 64)
    (hStart : e.baseVa ≤ d.baseVa) :
    Torn (done ++ [d]) ⟨groups, g.rangeGroup ++ [groups.length - 1]⟩ := by
  have hLow := hWide.baseVa_lt
  have hLength := hWide.length_lt
  rw [ReachesTop] at hTop
  have hWrapped : groupStop (e.baseVa, e.length) = e.baseVa + e.length - 2 ^ 64 := by
    rw [groupStop, Nat.mod_eq_sub_mod hTop, Nat.mod_eq_of_lt (by omega)]
  rcases addGroup_cases hAdd with ⟨rfl, -⟩ | ⟨last, rest', hCons, hReach, -⟩
  · refine .inr ⟨rest.length, (e.baseVa, e.length), (d.baseVa, d.length), ?_, ?_, ?_⟩
    · simp [Grouping.group?, hLast]
    · simp [Grouping.group?, hLast]
    · exact Nat.le_of_lt (Nat.lt_of_lt_of_le hBase hTop)
  · rw [hLast] at hCons
    cases hCons
    omega

theorem topApart_of_below {descs : List RangeDesc} (h : ∀ d ∈ descs, ¬ReachesTop d) :
    TopApart descs :=
  List.pairwise_of_forall_mem_list fun a ha b hb =>
    ⟨fun hA => absurd hA (h a ha), fun hB => absurd hB (h b hb)⟩

theorem Clean.opens (h : Clean done g) (hSorted : SortedByVa done)
    (hAdd : addGroup g.groups d = some ((d.baseVa, d.length) :: g.groups))
    (hGap : ∀ last rest, g.groups = last :: rest → groupStop last < d.baseVa) :
    Progress (done ++ [d]) ⟨(d.baseVa, d.length) :: g.groups,
      g.rangeGroup ++ [((d.baseVa, d.length) :: g.groups).length - 1]⟩ := by
  have hTracks := h.tracks.add hAdd h.low (fun _ => rfl) ⟨_, _, rfl, Nat.le_refl _, Nat.le_refl _⟩
  by_cases hTop : ReachesTop d
  · refine .topped hTracks ?_ d g.groups (List.mem_append_right done List.mem_cons_self) hTop rfl
    refine List.pairwise_append.mpr ⟨topApart_of_below h.below, List.pairwise_singleton _ _, ?_⟩
    intro a ha b hb
    obtain rfl := List.mem_singleton.mp hb
    exact ⟨fun hA => absurd hA (h.below a ha), fun _ => stop_lt h.tracks hSorted h.low hGap a ha⟩
  · refine .clean ⟨hTracks, ?_, ?_⟩
    · exact List.forall_mem_cons.mpr ⟨Nat.lt_of_not_le hTop, h.low⟩
    · exact List.forall_mem_append.mpr ⟨h.below, List.forall_mem_singleton.mpr hTop⟩

theorem Clean.grows (h : Clean done g) (hSorted : SortedByVa (done ++ [d])) {last : Nat × Nat}
    {rest : List (Nat × Nat)} (hAdd : addGroup g.groups d = some (growGroup last d :: rest))
    (hCons : g.groups = last :: rest) (hReach : d.baseVa ≤ groupStop last) :
    Progress (done ++ [d]) ⟨growGroup last d :: rest,
      g.rangeGroup ++ [(growGroup last d :: rest).length - 1]⟩ := by
  obtain ⟨hBefore, -, hOrder⟩ := List.pairwise_append.mp hSorted
  have hHere : last ∈ g.groups := by
    rw [hCons]
    exact List.mem_cons_self
  have hLow := h.low last hHere
  rw [groupStop_eq hLow] at hReach
  by_cases hTop : ReachesTop d
  · -- the range reaches on behind the group, and the loop does not see it
    refine .torn (.inl ⟨done.length, d, rest.length, growGroup last d, ?_, ?_, ?_,
      growGroup_lt hLow, hTop⟩) ?_
    · simp
    · simp [← h.tracks.assigned]
    · simp [Grouping.group?]
    · intro hApart
      obtain ⟨e, he, hStop⟩ := exists_stop h.tracks hBefore hHere
      have hBehind := ((List.pairwise_append.mp hApart).2.2 e he d List.mem_cons_self).2 hTop
      omega
  · have hStop : rangeStop d = d.baseVa + d.length := Nat.mod_eq_of_lt (Nat.lt_of_not_le hTop)
    have hIn : InGroup d (growGroup last d) := by
      obtain ⟨r, hr, hSame⟩ := (h.tracks.merged hBefore).starts last hHere
      obtain ⟨e, he, rfl⟩ := List.mem_map.mp hr
      have hStart : e.baseVa ≤ d.baseVa := hOrder e he d List.mem_cons_self
      simp only [rangeSpan] at hSame
      refine ⟨by rw [growGroup_fst]; omega, ?_⟩
      rw [growGroup_eq hLow, hStop]
      split
      · dsimp only
        omega
      · omega
    have hRest : ∀ group ∈ rest, group.1 + group.2 < 2 ^ 64 := by
      have hAll := h.low
      rw [hCons] at hAll
      exact (List.forall_mem_cons.mp hAll).2
    refine .clean ⟨h.tracks.add hAdd h.low (fun hNot => absurd hNot hTop) ⟨_, _, rfl, hIn⟩, ?_, ?_⟩
    · exact List.forall_mem_cons.mpr ⟨growGroup_lt hLow, hRest⟩
    · exact List.forall_mem_append.mpr ⟨h.below, List.forall_mem_singleton.mpr hTop⟩

/-- Sums that wrap around in the last range tear the groups unless it is behind all others. -/
theorem Progress.add (h : Progress done g) (hAdd : g.add d = some g')
    (hSorted : SortedByVa (done ++ [d])) (hFields : ∀ e ∈ done ++ [d], Fields64 e) :
    Progress (done ++ [d]) g' := by
  obtain ⟨hBefore, -, hOrder⟩ := List.pairwise_append.mp hSorted
  obtain ⟨groups, hGroups, hThen⟩ := add_cases hAdd
  cases h with
  | torn broken apart =>
      exact .torn (broken.add hAdd) fun hApart => apart (List.pairwise_append.mp hApart).1
  | topped tracks apart e rest mem top hLast =>
      subst hThen
      have hStart : e.baseVa ≤ d.baseVa := hOrder e mem d List.mem_cons_self
      refine .torn (torn_of_topped hGroups hLast top (hFields e (List.mem_append_left _ mem))
        (hFields d (List.mem_append_right done List.mem_cons_self)).baseVa_lt hStart) ?_
      intro hApart
      have hBehind := ((List.pairwise_append.mp hApart).2.2 e mem d List.mem_cons_self).1 top
      omega
  | clean clean =>
      subst hThen
      rcases addGroup_cases hGroups with ⟨rfl, hGap⟩ | ⟨last, rest, hCons, hReach, rfl⟩
      · exact clean.opens hBefore hGroups hGap
      · exact clean.grows hSorted hGroups hCons hReach

theorem progress_foldlM (rest : List RangeDesc) (h : Progress done g)
    (hSorted : SortedByVa (done ++ rest)) (hFields : ∀ e ∈ done ++ rest, Fields64 e)
    (hRun : rest.foldlM Grouping.add g = some g') : Progress (done ++ rest) g' := by
  induction rest generalizing done g with
  | nil =>
      cases hRun
      rw [List.append_nil]
      exact h
  | cons d rest ih =>
      rw [List.foldlM_cons, Option.bind_eq_bind, Option.bind_eq_some_iff] at hRun
      obtain ⟨middle, hAdd, hRest⟩ := hRun
      have hSplit : done ++ d :: rest = (done ++ [d]) ++ rest := by simp
      rw [hSplit] at hSorted hFields ⊢
      have hStep := h.add hAdd (List.pairwise_append.mp hSorted).1
        fun e he => hFields e (List.mem_append_left rest he)
      exact ih hStep hSorted hFields hRest

theorem progress_start : Progress [] ⟨[], []⟩ := by
  refine .clean ⟨⟨rfl, rfl, ?_⟩, List.forall_mem_nil _, List.forall_mem_nil _⟩
  intro i d hi
  cases hi

/-- Unless the next range tears the groups, they are those of numbers so far, and end below the end
of the address space. -/
theorem Progress.next (h : Progress done g) (hSorted : SortedByVa (done ++ [d]))
    (hApart : TopApart (done ++ [d])) :
    Tracks done g ∧ ∀ group ∈ g.groups, group.1 + group.2 < 2 ^ 64 := by
  obtain ⟨hBefore, -, hTop⟩ := List.pairwise_append.mp hApart
  cases h with
  | torn broken apart => exact absurd hBefore apart
  | topped tracks apart e rest mem top groups =>
      have hBehind := (hTop e mem d List.mem_cons_self).1 top
      have hStart := (List.pairwise_append.mp hSorted).2.2 e mem d List.mem_cons_self
      omega
  | clean clean => exact ⟨clean.tracks, clean.low⟩

theorem addGroup_length {groups groups' : List (Nat × Nat)} (h : addGroup groups d = some groups')
    (hRoom : groups.length ≤ maxGroups) : groups'.length ≤ maxGroups := by
  cases groups with
  | nil =>
      rw [addGroup, openGroup] at h
      split at h
      · cases h
      · cases h
        exact Nat.succ_le_of_lt (by decide)
  | cons last rest =>
      rw [addGroup, openGroup] at h
      split at h
      · split at h
        · cases h
        · rename_i hLess
          cases h
          exact Nat.succ_le_of_lt (Nat.lt_of_not_le hLess)
      · cases h
        exact hRoom

/-- Without room for one more group, the range lies behind all groups. -/
theorem addGroup_none {groups : List (Nat × Nat)} (h : addGroup groups d = none)
    (hLow : ∀ group ∈ groups, group.1 + group.2 < 2 ^ 64) :
    maxGroups < (extend groups (rangeSpan d)).length := by
  cases groups with
  | nil =>
      rw [addGroup, openGroup] at h
      split at h
      · rename_i hFull
        exact absurd hFull (by decide)
      · cases h
  | cons last rest =>
      rw [addGroup, openGroup] at h
      split at h
      · rename_i hGap
        rw [groupStop_eq (hLow last List.mem_cons_self)] at hGap
        split at h
        · rename_i hFull
          rw [extend, rangeSpan, if_pos hGap]
          exact Nat.lt_succ_of_le hFull
        · cases h
      · cases h

/-- The loop gives up exactly if there are more groups than it has room for. -/
theorem foldlM_groups (rest : List RangeDesc) (h : Progress done g)
    (hSorted : SortedByVa (done ++ rest)) (hFields : ∀ e ∈ done ++ rest, Fields64 e)
    (hApart : TopApart (done ++ rest)) (hRoom : g.groups.length ≤ maxGroups) :
    (rest.foldlM Grouping.add g).map Grouping.groups =
      if maxGroups < (((done ++ rest).map rangeSpan).foldl extend []).length then none
      else some (((done ++ rest).map rangeSpan).foldl extend []) := by
  induction rest generalizing done g with
  | nil =>
      rw [List.append_nil] at hApart ⊢
      have hGroups : g.groups = (done.map rangeSpan).foldl extend [] := by
        cases h with
        | clean clean => exact clean.tracks.groups
        | topped tracks apart => exact tracks.groups
        | torn broken apart => exact absurd hApart apart
      rw [← hGroups, if_neg (Nat.not_lt.mpr hRoom)]
      rfl
  | cons d rest ih =>
      have hSplit : done ++ d :: rest = (done ++ [d]) ++ rest := by simp
      rw [hSplit] at hSorted hFields hApart ⊢
      have hHere := (List.pairwise_append.mp hSorted).1
      obtain ⟨hTracks, hLow⟩ := h.next hHere (List.pairwise_append.mp hApart).1
      rw [List.foldlM_cons, Option.bind_eq_bind]
      cases hAdd : g.add d with
      | none =>
          have hFull := addGroup_none (Option.map_eq_none_iff.mp hAdd) hLow
          have hGroups : extend g.groups (rangeSpan d) =
              ((done ++ [d]).map rangeSpan).foldl extend [] := by
            rw [hTracks.groups, List.map_append, List.foldl_append]
            rfl
          have hMore := length_le_foldl (rest.map rangeSpan) (extend g.groups (rangeSpan d))
          rw [hGroups, ← List.foldl_append, ← List.map_append, ← hGroups] at hMore
          rw [if_pos (Nat.lt_of_lt_of_le hFull hMore)]
          rfl
      | some next =>
          obtain ⟨groups, hGroups, hNext⟩ := add_cases hAdd
          have hStep := h.add hAdd hHere fun e he => hFields e (List.mem_append_left rest he)
          have hFits : next.groups.length ≤ maxGroups := by
            rw [hNext]
            exact addGroup_length hGroups hRoom
          exact ih hStep hSorted hFields hApart hFits

end Loop

section Numbers

variable {sorted : List RangeDesc} {g : Grouping} {d : RangeDesc} {group group' : Nat × Nat} {k k' : Nat}
  {copies : RangeDesc → Option Log}

/-- Groups with gaps between them that share a point are the same. -/
theorem number_unique (hApart : g.groups.reverse.Pairwise fun a b => a.1 + a.2 < b.1)
    (hGroup : g.group? k = some group) (hGroup' : g.group? k' = some group') {x : Nat}
    (hHere : group.1 ≤ x ∧ x ≤ group.1 + group.2) (hThere : group'.1 ≤ x ∧ x ≤ group'.1 + group'.2) :
    k = k' := by
  obtain ⟨hLess, rfl⟩ := List.getElem?_eq_some_iff.mp hGroup
  obtain ⟨hLess', rfl⟩ := List.getElem?_eq_some_iff.mp hGroup'
  have hGaps := List.pairwise_iff_getElem.mp hApart
  rcases Nat.lt_trichotomy k k' with hBefore | hSame | hBehind
  · have := hGaps k k' hLess hLess' hBefore
    omega
  · exact hSame
  · have := hGaps k' k hLess' hLess hBehind
    omega

theorem groupOffset_eq (hBase : d.baseVa < 2 ^ 64) (hLow : group.1 ≤ d.baseVa) :
    groupOffset d group = d.baseVa - group.1 := by
  have hShift : d.baseVa + 2 ^ 64 - group.1 = d.baseVa - group.1 + 2 ^ 64 := by omega
  rw [groupOffset, hShift, Nat.add_mod_right, Nat.mod_eq_of_lt (by omega)]

theorem Torn.not_sound (h : Torn sorted g) : ¬GroupsSound copies sorted g := by
  intro hSound
  rcases h with ⟨i, d, k, group, hi, hNumber, hGroup, hLow, hTop⟩ |
    ⟨k, group, behind, hGroup, hBehind, hMeet⟩
  · obtain ⟨group', hGroup', hIn⟩ := (hSound.unique i d hi k).mp hNumber
    rw [hGroup] at hGroup'
    cases hGroup'
    have := hIn.2
    rw [ReachesTop] at hTop
    omega
  · obtain ⟨hLess, rfl⟩ := List.getElem?_eq_some_iff.mp hGroup
    obtain ⟨hLess', rfl⟩ := List.getElem?_eq_some_iff.mp hBehind
    have := List.pairwise_iff_getElem.mp hSound.apart k (k + 1) hLess hLess' (Nat.lt_succ_self k)
    omega

theorem Tracks.reverse (h : Tracks sorted g) : g.groups.reverse = merge (sorted.map rangeSpan) := by
  rw [h.groups, merge]

theorem Tracks.apart (h : Tracks sorted g) (hSorted : SortedByVa sorted) :
    g.groups.reverse.Pairwise fun a b => a.1 + a.2 < b.1 :=
  List.pairwise_reverse.mpr (h.merged hSorted).apart

theorem Tracks.unique (h : Tracks sorted g) (hSorted : SortedByVa sorted) {i : Nat}
    (hi : sorted[i]? = some d) (k : Nat) :
    g.rangeGroup[i]? = some k ↔ ∃ group, g.group? k = some group ∧ InGroup d group := by
  obtain ⟨k', group', hNumber, hGroup', hIn'⟩ := h.member i d hi
  constructor
  · intro hk
    rw [hNumber] at hk
    cases hk
    exact ⟨group', hGroup', hIn'⟩
  · rintro ⟨group, hGroup, hIn⟩
    have hSame : k' = k := number_unique (h.apart hSorted) hGroup' hGroup
      ⟨hIn'.1, (Nat.le_add_right _ _).trans hIn'.2⟩ ⟨hIn.1, (Nat.le_add_right _ _).trans hIn.2⟩
    rw [hNumber, hSame]

/-- Where a range lies in its group. -/
theorem Tracks.place (h : Tracks sorted g) (hSorted : SortedByVa sorted) {i : Nat}
    (hi : sorted[i]? = some d) (hFields : Fields64 d) (hk : g.rangeGroup[i]? = some k)
    (hGroup : g.group? k = some group) :
    InGroup d group ∧ groupOffset d group = d.baseVa - group.1 := by
  obtain ⟨group', hGroup', hIn⟩ := (h.unique hSorted hi k).mp hk
  rw [hGroup] at hGroup'
  cases hGroup'
  exact ⟨hIn, groupOffset_eq hFields.baseVa_lt hIn.1⟩

theorem Tracks.union (h : Tracks sorted g) (hSorted : SortedByVa sorted) (a : Nat) :
    Covered g.groups.reverse a ↔ Covered (sorted.map rangeSpan) a := by
  have hMerged := h.merged hSorted
  constructor
  · rintro ⟨group, hGroup, hLow, hHigh⟩
    exact hMerged.covered group (List.mem_reverse.mp hGroup) a hLow hHigh
  · rintro ⟨r, hr, hLow, hHigh⟩
    obtain ⟨group, hGroup, hStart, hStop⟩ := hMerged.inside r hr
    exact ⟨group, List.mem_reverse.mpr hGroup, by omega, by omega⟩

/-- A copy at a range lies in the group of the range exactly if there are ranges all the way. -/
theorem Tracks.copied_iff (h : Tracks sorted g) (hSorted : SortedByVa sorted) {i : Nat}
    (hi : sorted[i]? = some d) (hFields : Fields64 d) (hk : g.rangeGroup[i]? = some k)
    (hGroup : g.group? k = some group) {w : Nat × Buffer} (hStart : d.baseVa ≤ w.1)
    (hPos : 0 < w.2.length) :
    groupOffset d group + (w.1 - d.baseVa) + w.2.length ≤ group.2 ↔
      ∀ a, d.baseVa ≤ a → a < w.1 + w.2.length → Covered (sorted.map rangeSpan) a := by
  obtain ⟨hIn, hOffset⟩ := h.place hSorted hi hFields hk hGroup
  have hLow := hIn.1
  rw [hOffset]
  constructor
  · intro hCopy a hFrom hTo
    exact (h.merged hSorted).covered group (List.mem_reverse.mp (List.mem_of_getElem? hGroup)) a
      (by omega) (by omega)
  · intro hRuns
    have hOrder : (sorted.map rangeSpan).Pairwise fun a b => a.1 ≤ b.1 :=
      List.pairwise_map.mpr hSorted
    obtain ⟨group', hMem, hLow', hHigh'⟩ :=
      (inside_merge_iff hOrder (by omega : d.baseVa < w.1 + w.2.length)).mpr hRuns
    rw [← h.reverse] at hMem
    obtain ⟨k', hGroup'⟩ := List.getElem?_of_mem hMem
    have hSame : k = k' := number_unique (h.apart hSorted) hGroup hGroup'
      ⟨hIn.1, (Nat.le_add_right _ _).trans hIn.2⟩ ⟨hLow', by omega⟩
    subst hSame
    have hEq : group = group' := Option.some.inj (hGroup.symm.trans hGroup')
    subst hEq
    omega

/-- Groups that have their ranges have room for the copies exactly if those stay in ranges. -/
theorem Tracks.sound_iff (h : Tracks sorted g) (hSorted : SortedByVa sorted)
    (hFields : ∀ d ∈ sorted, Fields64 d)
    (hPages : ∀ d log, copies d = some log → ∀ w ∈ log, d.baseVa ≤ w.1 ∧ 0 < w.2.length) :
    GroupsSound copies sorted g ↔ CopiesCovered copies sorted := by
  constructor
  · intro hSound d hd log hLog w hw
    obtain ⟨i, hi⟩ := List.getElem?_of_mem hd
    obtain ⟨k, group, hk, hGroup, -⟩ := h.member i d hi
    obtain ⟨hStart, hPos⟩ := hPages d log hLog w hw
    exact (h.copied_iff hSorted hi (hFields d hd) hk hGroup hStart hPos).mp
      (hSound.copied i d k group hi hk hGroup log hLog w hw)
  · intro hCovered
    refine ⟨h.apart hSorted, h.union hSorted, h.assigned, fun i d hi => h.unique hSorted hi, ?_, ?_⟩
    · intro i d k group hi hk hGroup
      obtain ⟨hIn, hOffset⟩ :=
        h.place hSorted hi (hFields d (List.mem_of_getElem? hi)) hk hGroup
      have hLow := hIn.1
      have hHigh := hIn.2
      rw [hOffset]
      omega
    · intro i d k group hi hk hGroup log hLog w hw
      have hd := List.mem_of_getElem? hi
      obtain ⟨hStart, hPos⟩ := hPages d log hLog w hw
      exact (h.copied_iff hSorted hi (hFields d hd) hk hGroup hStart hPos).mpr
        (hCovered d hd log hLog w hw)

end Numbers

/-- The copies of a range are pages of its residency map. -/
theorem GroupReader.log_pages (r : GroupReader) (base : BaseFile) (d : RangeDesc) (log : Log)
    (h : r.log base d = some log) :
    ∀ w ∈ log, d.baseVa ≤ w.1 ∧ 0 < w.2.length ∧
      w.1 + w.2.length ≤ d.baseVa + d.numPages * pageSize := by
  have hResmap : (readResmap base.data d).length * pageSize ≤ d.numPages * pageSize :=
    Nat.mul_le_mul_right _ (List.length_take_le _ _)
  have hPages : ∀ checked cpu gpu, ∀ w ∈ placePages checked d.baseVa (readResmap base.data d) cpu gpu,
      d.baseVa ≤ w.1 ∧ 0 < w.2.length ∧
        w.1 + w.2.length ≤ d.baseVa + d.numPages * pageSize := by
    intro checked cpu gpu w hw
    obtain ⟨hStart, hStop⟩ := placePages_within checked d.baseVa _ cpu gpu w hw
    refine ⟨hStart, ?_, hStop.trans (Nat.add_le_add_left hResmap _)⟩
    rw [placePages_length checked d.baseVa _ cpu gpu w hw]
    exact Nat.zero_lt_succ _
  cases r with
  | plain =>
      rw [GroupReader.log, dataLog] at h
      split at h
      · cases h
      · cases h
        exact hPages _ _ _
  | encrypted keys =>
      rw [GroupReader.log, rangeLog] at h
      split at h
      · cases h
      · obtain ⟨sections, -, rfl⟩ := Option.map_eq_some_iff.mp h
        exact hPages _ _ _

/-- The pages of a range that lie in its length, as the writers describe it. -/
theorem copiesCovered_of_pages (r : GroupReader) (base : BaseFile)
    (h : ∀ d ∈ base.descs, d.numPages * pageSize ≤ d.length) :
    CopiesCovered (r.log base) base.descs := by
  intro d hd log hLog w hw a hLow hHigh
  have hStop := (r.log_pages base d log hLog w hw).2.2
  have hLength := h d hd
  exact ⟨rangeSpan d, List.mem_map_of_mem hd, hLow, by simp only [rangeSpan]; omega⟩

theorem topApart_perm {descs sorted : List RangeDesc} (h : sorted.Perm descs) :
    TopApart sorted ↔ TopApart descs :=
  h.pairwise_iff fun hPair => ⟨hPair.2, hPair.1⟩

theorem copiesCovered_perm {copies : RangeDesc → Option Log} {descs sorted : List RangeDesc}
    (h : sorted.Perm descs) : CopiesCovered copies sorted ↔ CopiesCovered copies descs := by
  have hSpans : ∀ a, Covered (sorted.map rangeSpan) a ↔ Covered (descs.map rangeSpan) a := by
    intro a
    simp only [Covered, (h.map rangeSpan).mem_iff]
  simp only [CopiesCovered, h.mem_iff, hSpans]

/-- The readers have the groups of numbers, or give up, where no sum wraps around. -/
theorem groupRanges_sortDescs {descs : List RangeDesc} (hFields : ∀ d ∈ descs, Fields64 d)
    (hApart : TopApart descs) :
    (groupRanges (sortDescs descs)).map (fun g => g.groups.reverse) =
      if maxRanges < descs.length ∨ maxGroups < (groupDescs descs).length then none
      else some (groupDescs descs) := by
  have hPerm : (sortDescs descs).Perm descs := List.mergeSort_perm _ _
  have hLoop := foldlM_groups (sortDescs descs) progress_start (sortDescs_pairwise descs)
    (fun d hd => hFields d (hPerm.mem_iff.mp hd)) ((topApart_perm hPerm).mpr hApart)
    (Nat.zero_le _)
  have hGroups : groupDescs descs = (((sortDescs descs).map rangeSpan).foldl extend []).reverse := rfl
  rw [List.nil_append] at hLoop
  rw [groupRanges, hPerm.length_eq, hGroups, List.length_reverse]
  by_cases hRanges : maxRanges < descs.length
  · rw [if_pos hRanges, if_pos (.inl hRanges)]
    rfl
  · have hCompose := congrArg (Option.map List.reverse) hLoop
    rw [Option.map_map] at hCompose
    rw [if_neg hRanges]
    refine hCompose.trans ?_
    simp only [hRanges, false_or, apply_ite (Option.map List.reverse), Option.map_none,
      Option.map_some]

/-- Three ranges out of order, one of them inside another one. -/
def nestedBase : BaseFile where
  version := 2
  descs := [⟨0x4000, 0x1000, 1, 0, 1, 0x1000, 0, 0⟩, ⟨0x1000, 0x2000, 2, 0, 2, 0x2000, 0, 0⟩,
    ⟨0x1000, 0x1000, 1, 0, 1, 0x1000, 0, 0⟩]
  data := fun _ => 0
  size := 0x10000

/-- Two ranges that begin together two pages in front of the end of the address space, one of
one page and one of two. -/
def topBase : BaseFile where
  version := 2
  descs := [⟨2 ^ 64 - 8192, 4096, 1, 0, 1, 4096, 0, 0⟩, ⟨2 ^ 64 - 8192, 8192, 2, 0, 2, 8192, 0, 0⟩]
  data := fun _ => 0
  size := 0x10000

end FlashCkpt.Restore
