import FlashCkpt.Faults.Fetch

/-! Every fault that is fetched belongs to a ring with one entry that is not filtered, and that
entry is on the same page with an access at least as intrusive. -/
namespace FlashCkpt.Faults

variable {V : Type}

namespace Batch

section Rings

variable {pair ring : List Nat} {i j k : Nat}

theorem mem_link (hPair : pair.Perm [i, j]) : k ∈ link pair j ring ↔ k ∈ ring ∨ k = i ∧ j ∈ ring := by
  rw [link, List.mem_flatMap]
  constructor
  · rintro ⟨x, hx, hk⟩
    split at hk
    · rename_i hSame
      subst hSame
      rcases List.mem_cons.mp (hPair.mem_iff.mp hk) with rfl | hk
      · exact .inr ⟨rfl, hx⟩
      · exact .inl (List.mem_singleton.mp hk ▸ hx)
    · exact .inl (List.mem_singleton.mp hk ▸ hx)
  · rintro (hk | ⟨rfl, hj⟩)
    · refine ⟨k, hk, ?_⟩
      split
      · rename_i hSame
        exact hPair.mem_iff.mpr (hSame ▸ List.mem_cons_of_mem i List.mem_cons_self)
      · exact List.mem_cons_self
    · refine ⟨j, hj, ?_⟩
      rw [if_pos rfl]
      exact hPair.mem_iff.mpr List.mem_cons_self

theorem link_of_not_mem (h : j ∉ ring) : link pair j ring = ring := by
  induction ring with
  | nil => rfl
  | cons x rest ih =>
      rw [List.mem_cons, not_or] at h
      rw [link, List.flatMap_cons, if_neg (Ne.symm h.1)]
      exact congrArg (x :: ·) (ih h.2)

theorem link_perm (hPair : pair.Perm [i, j]) (hNodup : ring.Nodup) (hj : j ∈ ring) :
    (link pair j ring).Perm (i :: ring) := by
  induction ring with
  | nil => cases hj
  | cons x rest ih =>
      rw [List.nodup_cons] at hNodup
      rw [link, List.flatMap_cons]
      by_cases hSame : x = j
      · subst hSame
        rw [if_pos rfl]
        have hRest : link pair x rest = rest := link_of_not_mem hNodup.1
        exact (congrArg (pair ++ ·) hRest) ▸ hPair.append_right rest
      · rw [if_neg hSame]
        have hRest := ih hNodup.2 ((List.mem_cons.mp hj).resolve_left (Ne.symm hSame))
        exact (hRest.cons x).trans (List.Perm.swap i x rest)

theorem flatten_map_link (rings : List (List Nat)) :
    (rings.map (link pair j)).flatten = link pair j rings.flatten := by
  induction rings with
  | nil => rfl
  | cons ring rest ih =>
      rw [List.map_cons, List.flatten_cons, List.flatten_cons, ih, link, link, link,
        List.flatMap_append]

end Rings

/-- The entries at one index after one of them is replaced and another one is added. -/
theorem getElem?_set_append {α : Type} (l : List α) {j : Nat} (hj : j < l.length) (x y : α) (k : Nat) :
    (l.set j x ++ [y])[k]? =
      if k = l.length then some y else if k = j then some x else l[k]? := by
  by_cases hEnd : k = l.length
  · rw [if_pos hEnd, hEnd, List.getElem?_append_right (Nat.le_of_eq List.length_set), List.length_set,
      Nat.sub_self]
    rfl
  · rw [if_neg hEnd]
    by_cases hLess : k < l.length
    · rw [List.getElem?_append_left (by rwa [List.length_set]), List.getElem?_set]
      by_cases hSame : k = j
      · rw [if_pos hSame, if_pos hSame.symm, if_pos hj]
      · rw [if_neg hSame, if_neg (Ne.symm hSame)]
    · have hPast : (l.set j x ++ [y]).length ≤ k := by
        rw [List.length_append, List.length_set, List.length_singleton]
        omega
      rw [List.getElem?_eq_none hPast, if_neg (by omega), List.getElem?_eq_none (by omega)]

/-- What one round of the fetch can do with an entry. -/
inductive Fetched (mayFilter : Bool) (b : Batch V) (current : Entry V) : Batch V → Prop
  | added (same : Bool)
      (hSame : same = true ↔ ∀ j last, b.lastFault = some j → b.cache[j]? = some last →
        current.sameInstance last.toReport = true) :
      Fetched mayFilter b current (b.addEntry current same)
  | merged (j : Nat) (last : Entry V) (hFilter : mayFilter = true) (hLast : b.cache[j]? = some last)
      (hPage : current.SamePage last.toReport) (hAccess : current.accessType ≤ last.accessType) :
      Fetched mayFilter b current (b.mergeEntry current last j)
  | promoted (last : Entry V) (hFilter : mayFilter = true)
      (hPending : 0 < (b.utlbs current.utlbId).numPendingFaults)
      (hLast : b.cache[(b.utlbs current.utlbId).lastFault]? = some last)
      (hPage : current.SamePage last.toReport) (hAccess : last.accessType < current.accessType) :
      Fetched mayFilter b current
        ((b.mergeEntry current last (b.utlbs current.utlbId).lastFault).setUtlbLast current.utlbId)

theorem samePage_of_last {current : Entry V} {last : Report}
    (h : (current.sameInstance last && current.faultAddress == last.faultAddress) = true) :
    current.SamePage last := by
  rw [Bool.and_eq_true, Report.sameInstance_iff, beq_iff_eq] at h
  exact h

theorem tryMergeEntry_fetched {b b' : Batch V} {current last : Entry V} {j : Nat}
    (hLast : b.cache[j]? = some last) (h : b.tryMergeEntry current last j = some b') :
    Fetched true b current b' := by
  rw [tryMergeEntry] at h
  cases hTlb : b.lastTlbEntry current with
  | some lastTlb =>
      simp only [hTlb, Option.some.injEq] at h
      rw [lastTlbEntry, Option.ite_none_right_eq_some, Option.filter_eq_some_iff] at hTlb
      obtain ⟨hPending, hEntry, hSame⟩ := hTlb
      have hPage := samePage_of_last hSame
      split at h
      · rename_i hAccess
        exact h ▸ .promoted lastTlb rfl hPending hEntry hPage hAccess
      · rename_i hAccess
        exact h ▸ .merged _ lastTlb rfl hEntry hPage (not_lt.mp hAccess)
  | none =>
      simp only [hTlb, Option.ite_none_right_eq_some, Option.some.injEq] at h
      obtain ⟨hBoth, h⟩ := h
      rw [Bool.and_eq_true, decide_eq_true_eq] at hBoth
      rw [if_neg (not_lt.mpr hBoth.2)] at h
      exact h ▸ .merged j last rfl hLast (samePage_of_last hBoth.1) hBoth.2

theorem placeEntry_fetched (mayFilter : Bool) {b : Batch V} (current : Entry V)
    (hIndex : ∀ j, b.lastFault = some j → j < b.cache.length) :
    Fetched mayFilter b current (b.placeEntry mayFilter current) := by
  rw [placeEntry]
  cases hFault : b.lastFault with
  | none =>
      refine .added true (iff_of_true rfl fun j last hSome => ?_)
      rw [hFault] at hSome
      cases hSome
  | some j =>
      obtain ⟨last, hLast⟩ : ∃ last, b.cache[j]? = some last :=
        ⟨_, List.getElem?_eq_getElem (hIndex j hFault)⟩
      simp only [hLast]
      split
      · rename_i merged hMerged
        rw [Option.ite_none_right_eq_some, Bool.and_eq_true] at hMerged
        rw [hMerged.1.1]
        exact tryMergeEntry_fetched hLast hMerged.2
      · refine .added _ ⟨fun hSame k other hk hOther => ?_, fun hAll => hAll j last hFault hLast⟩
        rw [hFault] at hk
        cases hk
        rw [hLast] at hOther
        cases hOther
        exact hSame

/-- The entry `r` at `j` stands for the faults of a ring. -/
structure Stands (b : Batch V) (ring : List Nat) (j : Nat) (r : Entry V) : Prop where
  mem : j ∈ ring
  entry : b.cache[j]? = some r
  unfiltered : r.filtered = false
  others : ∀ k ∈ ring, ∀ e, b.cache[k]? = some e →
    e.SamePage r.toReport ∧ e.accessType ≤ r.accessType ∧ (k ≠ j → e.filtered = true)
  highest : r.accessType ∈ r.accessTypeMask
  mask : ∀ a ∈ r.accessTypeMask, a ≤ r.accessType ∧
    ∃ k ∈ ring, ∃ e, b.cache[k]? = some e ∧ e.accessType = a

/-- What holds of a batch while the entries for these reports are fetched. -/
structure Inv (b : Batch V) (reports : List Report) : Prop where
  fetched : b.cache.map Entry.toReport = reports.map Report.aligned
  rings : b.rings.flatten.Perm (List.range b.cache.length)
  stands : ∀ ring ∈ b.rings, ∃ j r, b.Stands ring j r
  started : b.lastFault = none ↔ reports = []
  lastFault : ∀ j, b.lastFault = some j → ∃ e, b.cache[j]? = some e ∧ 0 < e.numInstances
  utlbs : ∀ id, 0 < (b.utlbs id).numPendingFaults →
    ∃ e, b.cache[(b.utlbs id).lastFault]? = some e ∧ 0 < e.numInstances ∧ e.filtered = false ∧
      e.utlbId = id
  pending : ∀ id, (b.utlbs id).numPendingFaults =
    b.cache.countP fun e => !e.filtered && e.utlbId == id
  coalesced : b.numCoalescedFaults = b.cache.countP fun e => !e.filtered
  maxUtlbId : ∀ id, b.maxUtlbId < id → (b.utlbs id).numPendingFaults = 0
  single : b.isSingleInstancePtr = true ↔ ∀ r ∈ reports, ∀ r' ∈ reports, r.context = r'.context

section Linked

variable {b : Batch V} {j : Nat} {last x y : Entry V} {pair ring : List Nat}

/-- What is found at the indices of a ring after a merge. -/
theorem lookup_linked (hj : j < b.cache.length) (hPair : pair.Perm [b.cache.length, j])
    (hRing : ∀ k ∈ ring, k < b.cache.length) {k : Nat} {e : Entry V} (hk : k ∈ link pair j ring)
    (he : (b.cache.set j x ++ [y])[k]? = some e) :
    (k = b.cache.length ∧ j ∈ ring ∧ e = y) ∨ (k = j ∧ j ∈ ring ∧ e = x) ∨
      (k ∈ ring ∧ k ≠ j ∧ k ≠ b.cache.length ∧ b.cache[k]? = some e) := by
  rw [getElem?_set_append b.cache hj] at he
  rcases (mem_link hPair).mp hk with hOld | ⟨rfl, hMem⟩
  · have hNe := Nat.ne_of_lt (hRing k hOld)
    rw [if_neg hNe] at he
    by_cases hSame : k = j
    · rw [if_pos hSame, Option.some.injEq] at he
      exact .inr (.inl ⟨hSame, hSame ▸ hOld, he.symm⟩)
    · rw [if_neg hSame] at he
      exact .inr (.inr ⟨hOld, hSame, hNe, he⟩)
  · rw [if_pos rfl, Option.some.injEq] at he
    exact .inl ⟨rfl, hMem, he.symm⟩

/-- An access that a ring had it has after a merge. -/
theorem access_linked (hPair : pair.Perm [b.cache.length, j]) (hRing : ∀ k ∈ ring, k < b.cache.length)
    (hLast : b.cache[j]? = some last) (hx : x.toReport = last.toReport) {a : AccessType}
    (h : ∃ k ∈ ring, ∃ e, b.cache[k]? = some e ∧ e.accessType = a) :
    ∃ k ∈ link pair j ring, ∃ e, (b.cache.set j x ++ [y])[k]? = some e ∧ e.accessType = a := by
  obtain ⟨k, hk, e, he, hAccess⟩ := h
  have hj : j < b.cache.length := (List.getElem?_eq_some_iff.mp hLast).1
  refine ⟨k, (mem_link hPair).mpr (.inl hk), ?_⟩
  rw [getElem?_set_append b.cache hj, if_neg (Nat.ne_of_lt (hRing k hk))]
  by_cases hSame : k = j
  · rw [if_pos hSame]
    rw [hSame, hLast, Option.some.injEq] at he
    exact ⟨x, rfl, hAccess ▸ he ▸ congrArg Report.accessType hx⟩
  · rw [if_neg hSame]
    exact ⟨e, he, hAccess⟩

theorem Stands.congr {b' : Batch V} {r : Entry V} {k : Nat} (h : b.Stands ring k r)
    (hSame : ∀ k ∈ ring, b'.cache[k]? = b.cache[k]?) : b'.Stands ring k r where
  mem := h.mem
  entry := (hSame k h.mem).trans h.entry
  unfiltered := h.unfiltered
  others := fun k' hk e he => h.others k' hk e (hSame k' hk ▸ he)
  highest := h.highest
  mask := fun a ha =>
    ⟨(h.mask a ha).1, (h.mask a ha).2.imp fun k' hk => ⟨hk.1, hk.2.imp fun _ he =>
      ⟨(hSame k' hk.1).trans he.1, he.2⟩⟩⟩

/-- A fault of no higher access leaves the entry that stands for its ring in place. -/
theorem Stands.merged {b' : Batch V} {current r : Entry V} {k : Nat} (h : b.Stands ring k r)
    (hCache : b'.cache = b.cache.set j x ++ [y]) (hPair : pair.Perm [b.cache.length, j]) (hRing : ∀ k ∈ ring, k < b.cache.length)
    (hLast : b.cache[j]? = some last) (hj : j ∈ ring) (hPage : current.SamePage last.toReport)
    (hAccess : current.accessType ≤ last.accessType) (hx : x.toReport = last.toReport)
    (hFiltered : x.filtered = last.filtered)
    (hMask : x.accessTypeMask = insert current.accessType last.accessTypeMask)
    (hy : y.toReport = current.toReport) (hyFiltered : y.filtered = true) : ∃ r', b'.Stands (link pair j ring) k r' := by
  have hBound : j < b.cache.length := (List.getElem?_eq_some_iff.mp hLast).1
  have hLookup : ∀ k, b'.cache[k]? = if k = b.cache.length then some y else
      if k = j then some x else b.cache[k]? := by
    intro k
    rw [hCache]
    exact getElem?_set_append b.cache hBound x y k
  obtain ⟨hLastPage, hLastAccess, hLastFiltered⟩ := h.others j hj last hLast
  -- the entry that stands for the ring is the one of before, with a new mask if it is the last one
  obtain ⟨r', hEntry, hReport, hUnfiltered, hMask'⟩ : ∃ r', b'.cache[k]? = some r' ∧
      r'.toReport = r.toReport ∧ r'.filtered = false ∧
      (r'.accessTypeMask = r.accessTypeMask ∨
        r'.accessTypeMask = insert current.accessType r.accessTypeMask) := by
    rw [hLookup, if_neg (Nat.ne_of_lt (hRing k h.mem))]
    by_cases hSame : k = j
    · have hr : last = r := by
        have hEntry := h.entry
        rw [hSame, hLast, Option.some.injEq] at hEntry
        exact hEntry
      rw [if_pos hSame]
      subst hr
      exact ⟨x, rfl, hx, hFiltered.trans h.unfiltered, .inr hMask⟩
    · rw [if_neg hSame]
      exact ⟨r, h.entry, rfl, h.unfiltered, .inl rfl⟩
  have hHigh : r'.accessType = r.accessType := congrArg Report.accessType hReport
  have hSubset : ∀ a ∈ r'.accessTypeMask, a = current.accessType ∨ a ∈ r.accessTypeMask := by
    intro a ha
    rcases hMask' with hEq | hEq
    · exact .inr (hEq ▸ ha)
    · exact Finset.mem_insert.mp (hEq ▸ ha)
  refine ⟨r', (mem_link hPair).mpr (.inl h.mem), hEntry, hUnfiltered, fun k' hk e he => ?_, ?_,
    fun a ha => ?_⟩
  · rw [hReport]
    rw [hCache] at he
    rcases lookup_linked hBound hPair hRing hk he with ⟨-, -, rfl⟩ | ⟨rfl, -, rfl⟩ | ⟨hOld, -, -, he⟩
    · rw [hy]
      exact ⟨hPage.trans hLastPage, hAccess.trans hLastAccess, fun _ => hyFiltered⟩
    · rw [hx]
      exact ⟨hLastPage, hLastAccess, fun hNe => hFiltered.trans (hLastFiltered hNe)⟩
    · exact h.others k' hOld e he
  · rw [hHigh]
    rcases hMask' with hEq | hEq
    · exact hEq ▸ h.highest
    · exact hEq ▸ Finset.mem_insert_of_mem h.highest
  · rw [hHigh, hCache]
    rcases hSubset a ha with rfl | ha
    · refine ⟨hAccess.trans hLastAccess, b.cache.length, (mem_link hPair).mpr (.inr ⟨rfl, hj⟩), y, ?_,
        congrArg Report.accessType hy⟩
      rw [getElem?_set_append b.cache hBound, if_pos rfl]
    · exact ⟨(h.mask a ha).1, access_linked hPair hRing hLast hx (h.mask a ha).2⟩

/-- A fault of a higher access takes the place of the entry that stands for its ring. -/
theorem Stands.promoted {b' : Batch V} {current r : Entry V} {k : Nat} (h : b.Stands ring k r)
    (hCache : b'.cache = b.cache.set j x ++ [y]) (hPair : pair.Perm [b.cache.length, j]) (hRing : ∀ k ∈ ring, k < b.cache.length)
    (hLast : b.cache[j]? = some last) (hj : j ∈ ring) (hPage : current.SamePage last.toReport)
    (hAccess : last.accessType < current.accessType) (hUnfiltered : last.filtered = false)
    (hx : x.toReport = last.toReport) (hFiltered : x.filtered = true)
    (hMask : y.accessTypeMask = insert current.accessType last.accessTypeMask)
    (hy : y.toReport = current.toReport) (hyFiltered : y.filtered = false) :
    b'.Stands (link pair j ring) b.cache.length y := by
  have hBound : j < b.cache.length := (List.getElem?_eq_some_iff.mp hLast).1
  have hSame : j = k := by
    by_contra hNe
    have hAlready := (h.others j hj last hLast).2.2 hNe
    rw [hUnfiltered] at hAlready
    cases hAlready
  subst hSame
  have hr : last = r := by
    have hEntry := h.entry
    rw [hLast, Option.some.injEq] at hEntry
    exact hEntry
  subst hr
  have hHigh : y.accessType = current.accessType := congrArg Report.accessType hy
  have hEntry : b'.cache[b.cache.length]? = some y := by
    rw [hCache, getElem?_set_append b.cache hBound, if_pos rfl]
  refine ⟨(mem_link hPair).mpr (.inr ⟨rfl, hj⟩), hEntry, hyFiltered, fun k' hk e he => ?_, ?_,
    fun a ha => ?_⟩
  · rw [hCache] at he
    rcases lookup_linked hBound hPair hRing hk he with ⟨rfl, -, rfl⟩ | ⟨rfl, -, rfl⟩ |
      ⟨hOld, hNe, -, he⟩
    · exact ⟨⟨rfl, rfl⟩, le_rfl, fun hNe => absurd rfl hNe⟩
    · rw [hx, hy]
      exact ⟨hPage.symm, le_of_lt hAccess, fun _ => hFiltered⟩
    · obtain ⟨hOldPage, hOldAccess, hOldFiltered⟩ := h.others k' hOld e he
      rw [hy]
      exact ⟨hOldPage.trans hPage.symm, hOldAccess.trans (le_of_lt hAccess), fun _ => hOldFiltered hNe⟩
  · rw [hHigh, hMask]
    exact Finset.mem_insert_self _ _
  · rw [hHigh]
    rw [hMask, Finset.mem_insert] at ha
    rcases ha with rfl | ha
    · exact ⟨le_rfl, b.cache.length, (mem_link hPair).mpr (.inr ⟨rfl, hj⟩), y, hEntry, hHigh⟩
    · rw [hCache]
      exact ⟨(h.mask a ha).1.trans (le_of_lt hAccess),
        access_linked hPair hRing hLast hx (h.mask a ha).2⟩

end Linked

section Rounds

variable {b b' : Batch V} {reports : List Report} {report : Report} {current last x y : Entry V}
  {pair : List Nat} {j : Nat}

theorem Inv.length (h : b.Inv reports) : b.cache.length = reports.length := by
  have hFetched := congrArg List.length h.fetched
  rwa [List.length_map, List.length_map] at hFetched

theorem Inv.ring_lt (h : b.Inv reports) {ring : List Nat} (hRing : ring ∈ b.rings) :
    ∀ k ∈ ring, k < b.cache.length := fun _ hk =>
  List.mem_range.mp (h.rings.mem_iff.mp (List.mem_flatten_of_mem hRing hk))

theorem Inv.report_of (h : b.Inv reports) {e : Entry V} (he : b.cache[j]? = some e) :
    ∃ r ∈ reports, r.aligned = e.toReport := by
  have hMem : e.toReport ∈ reports.map Report.aligned :=
    h.fetched ▸ List.mem_map_of_mem (List.mem_of_getElem? he)
  exact List.mem_map.mp hMem

theorem Inv.addEntry (h : b.Inv reports) {same : Bool} (hReport : current.toReport = report.aligned)
    (hUnfiltered : current.filtered = false) (hMax : current.utlbId ≤ b.maxUtlbId)
    (hSame : same = true ↔ ∀ j last, b.lastFault = some j → b.cache[j]? = some last →
      current.sameInstance last.toReport = true) :
    (b.addEntry current same).Inv (reports ++ [report]) := by
  have hEnd : (b.addEntry current same).cache[b.cache.length]? =
      some { current with numInstances := 1, accessTypeMask := {current.accessType} } :=
    List.getElem?_concat_length
  have hOld : ∀ k, k < b.cache.length → (b.addEntry current same).cache[k]? = b.cache[k]? := fun k hk =>
    List.getElem?_append_left hk
  refine ⟨?_, ?_, fun ring hRing => ?_, ?_, fun j hj => ?_, fun id hId => ?_, fun id => ?_, ?_,
    fun id hId => ?_, ?_⟩
  · change (b.cache ++ [_]).map Entry.toReport = _
    rw [List.map_append, List.map_append, h.fetched]
    exact congrArg (_ ++ [·]) hReport
  · change (b.rings ++ [[b.cache.length]]).flatten.Perm (List.range (b.cache ++ [_]).length)
    rw [List.flatten_append, List.length_append, List.length_singleton, List.range_succ]
    exact h.rings.append_right _
  · rcases List.mem_append.mp hRing with hRing | hRing
    · obtain ⟨k, r, hStands⟩ := h.stands ring hRing
      exact ⟨k, r, hStands.congr fun k hk => hOld k (h.ring_lt hRing k hk)⟩
    · rw [List.mem_singleton] at hRing
      subst hRing
      refine ⟨_, _, List.mem_singleton_self _, hEnd, hUnfiltered, fun k hk e he => ?_,
        Finset.mem_singleton_self _, fun a ha => ?_⟩
      · rw [List.mem_singleton] at hk
        rw [hk, hEnd, Option.some.injEq] at he
        subst he
        exact ⟨⟨rfl, rfl⟩, le_rfl, fun hNe => absurd hk hNe⟩
      · rw [Finset.mem_singleton] at ha
        exact ⟨le_of_eq ha, _, List.mem_singleton_self _, _, hEnd, ha.symm⟩
  · exact iff_of_false (Option.some_ne_none _) (List.append_ne_nil_of_right_ne_nil _ (List.cons_ne_nil _ _))
  · cases hj
    exact ⟨_, hEnd, Nat.one_pos⟩
  · by_cases hHere : id = current.utlbId
    · subst hHere
      refine ⟨{ current with numInstances := 1, accessTypeMask := {current.accessType} }, ?_,
        Nat.one_pos, hUnfiltered, rfl⟩
      change (b.addEntry current same).cache[(Function.update b.utlbs _ _ current.utlbId).lastFault]? = _
      rw [Function.update_self]
      exact hEnd
    · change 0 < (Function.update b.utlbs _ _ id).numPendingFaults at hId
      change ∃ e, (b.addEntry current same).cache[(Function.update b.utlbs _ _ id).lastFault]? = _ ∧ _
      rw [Function.update_of_ne hHere] at hId ⊢
      obtain ⟨e, he, hRest⟩ := h.utlbs id hId
      exact ⟨e, (hOld _ (List.getElem?_eq_some_iff.mp he).1).trans he, hRest⟩
  · change (Function.update b.utlbs _ _ id).numPendingFaults = (b.cache ++ [_]).countP _
    rw [List.countP_append, List.countP_singleton, ← h.pending id]
    by_cases hHere : id = current.utlbId
    · subst hHere
      rw [Function.update_self, hUnfiltered, beq_self_eq_true]
      rfl
    · rw [Function.update_of_ne hHere, beq_eq_false_iff_ne.mpr (Ne.symm hHere), Bool.and_false]
      rfl
  · change b.numCoalescedFaults + 1 = (b.cache ++ [_]).countP _
    rw [List.countP_append, List.countP_singleton, ← h.coalesced, hUnfiltered]
    rfl
  · have hNe : id ≠ current.utlbId := fun hEq => Nat.not_le_of_gt hId (hEq ▸ hMax)
    change (Function.update b.utlbs _ _ id).numPendingFaults = 0
    rw [Function.update_of_ne hNe]
    exact h.maxUtlbId id hId
  · change (b.isSingleInstancePtr && same) = true ↔ _
    have hContext : current.context = report.aligned.context := congrArg Report.context hReport
    change current.context = report.context at hContext
    rw [Bool.and_eq_true, h.single, hSame]
    constructor
    · rintro ⟨hAll, hLast⟩ r hr r' hr'
      have hNew : ∀ r ∈ reports, r.context = report.context := by
        intro r hr
        cases hFault : b.lastFault with
        | none => exact absurd hr ((h.started.mp hFault) ▸ List.not_mem_nil)
        | some j =>
            obtain ⟨e, he, -⟩ := h.lastFault j hFault
            obtain ⟨r₀, hr₀, hEq⟩ := h.report_of he
            have hShared := Report.sameInstance_iff.mp (hLast j e hFault he)
            rw [hContext, ← hEq] at hShared
            exact (hAll r hr r₀ hr₀).trans hShared.symm
      rcases List.mem_append.mp hr with hr | hr <;> rcases List.mem_append.mp hr' with hr' | hr'
      · exact hAll r hr r' hr'
      · exact List.mem_singleton.mp hr' ▸ hNew r hr
      · exact List.mem_singleton.mp hr ▸ (hNew r' hr').symm
      · rw [List.mem_singleton.mp hr, List.mem_singleton.mp hr']
    · refine fun hAll => ⟨fun r hr r' hr' => hAll r (List.mem_append_left _ hr) r'
        (List.mem_append_left _ hr'), fun j e _ he => Report.sameInstance_iff.mpr ?_⟩
      obtain ⟨r₀, hr₀, hEq⟩ := h.report_of he
      rw [hContext, ← hEq]
      exact hAll report (List.mem_append_right _ (List.mem_singleton_self _)) r₀
        (List.mem_append_left _ hr₀)

/-- A merge changes a count only where the entries that it writes do. -/
theorem countP_linked (p : Entry V → Bool) (hLast : b.cache[j]? = some last)
    (h : p x = p last ∧ p y = false ∨ p x = false ∧ p y = p last) :
    (b.cache.set j x ++ [y]).countP p = b.cache.countP p := by
  obtain ⟨hBound, hGet⟩ := List.getElem?_eq_some_iff.mp hLast
  have hMem : last ∈ b.cache := List.mem_of_getElem? hLast
  rw [List.countP_append, List.countP_singleton, List.countP_set hBound, hGet]
  cases hp : p last
  · rcases h with ⟨hx, hy⟩ | ⟨hx, hy⟩ <;> rw [hx, hy, hp] <;> rfl
  · have hPos : 0 < b.cache.countP p := List.countP_pos_iff.mpr ⟨last, hMem, hp⟩
    rcases h with ⟨hx, hy⟩ | ⟨hx, hy⟩ <;> rw [hx, hy, hp] <;> simp <;> omega

/-- What a merge keeps, whichever entry stands for the ring behind it. -/
theorem Inv.linked (h : b.Inv reports) (hCache : b'.cache = b.cache.set j x ++ [y])
    (hRings : b'.rings = b.rings.map (link pair j)) (hPair : pair.Perm [b.cache.length, j])
    (hLast : b.cache[j]? = some last) (hPage : current.SamePage last.toReport)
    (hReport : current.toReport = report.aligned) (hx : x.toReport = last.toReport)
    (hxCount : 0 < x.numInstances) (hy : y.toReport = current.toReport)
    (hStands : ∀ ring ∈ b.rings, j ∈ ring → ∃ k r, b'.Stands (link pair j ring) k r)
    (hFault : b'.lastFault = b.lastFault)
    (hUtlbs : ∀ id, 0 < (b'.utlbs id).numPendingFaults →
      ∃ e, b'.cache[(b'.utlbs id).lastFault]? = some e ∧ 0 < e.numInstances ∧ e.filtered = false ∧
        e.utlbId = id)
    (hSamePending : ∀ id, (b'.utlbs id).numPendingFaults = (b.utlbs id).numPendingFaults)
    (hCounts : ∀ q : Nat → Bool, (b'.cache.countP fun e => !e.filtered && q e.utlbId) =
      b.cache.countP fun e => !e.filtered && q e.utlbId)
    (hMax : b'.maxUtlbId = b.maxUtlbId) (hSingle : b'.isSingleInstancePtr = b.isSingleInstancePtr)
    (hCoalesced : b'.numCoalescedFaults = b.numCoalescedFaults) : b'.Inv (reports ++ [report]) := by
  obtain ⟨hBound, hGet⟩ := List.getElem?_eq_some_iff.mp hLast
  have hContext : ∃ r ∈ reports, r.context = report.context := by
    obtain ⟨r, hr, hEq⟩ := h.report_of hLast
    have hShared := hPage.1
    rw [← hEq, hReport] at hShared
    exact ⟨r, hr, hShared.symm⟩
  refine ⟨?_, ?_, fun ring hRing => ?_, ?_, fun k hk => ?_, hUtlbs, fun id => ?_, ?_, fun id hId => ?_, ?_⟩
  · have hSet : (b.cache.map Entry.toReport).set j last.toReport = b.cache.map Entry.toReport := by
      have hMapped : j < (b.cache.map Entry.toReport).length := by rwa [List.length_map]
      have hSelf := List.set_getElem_self hMapped
      rwa [List.getElem_map, hGet] at hSelf
    rw [hCache, List.map_append, List.map_set, hx, hSet, h.fetched, List.map_append, List.map_singleton,
      List.map_singleton, hy, hReport]
  · have hNodup : b.rings.flatten.Nodup := h.rings.nodup_iff.mpr List.nodup_range
    have hMem : j ∈ b.rings.flatten := h.rings.mem_iff.mpr (List.mem_range.mpr hBound)
    rw [hRings, hCache, flatten_map_link, List.length_append, List.length_set, List.length_singleton,
      List.range_succ]
    exact ((link_perm hPair hNodup hMem).trans (h.rings.cons _)).trans (List.perm_append_singleton _ _).symm
  · rw [hRings, List.mem_map] at hRing
    obtain ⟨old, hOld, rfl⟩ := hRing
    by_cases hMem : j ∈ old
    · exact hStands old hOld hMem
    · rw [link_of_not_mem hMem]
      obtain ⟨k, r, hOldStands⟩ := h.stands old hOld
      refine ⟨k, r, hOldStands.congr fun k hk => ?_⟩
      rw [hCache, getElem?_set_append b.cache hBound, if_neg (Nat.ne_of_lt (h.ring_lt hOld k hk)),
        if_neg fun hSame : k = j => hMem (hSame ▸ hk)]
  · have hSome : ¬b.lastFault = none := by
      rw [h.started]
      obtain ⟨r, hr, -⟩ := hContext
      exact List.ne_nil_of_mem hr
    rw [hFault]
    exact iff_of_false hSome (List.append_ne_nil_of_right_ne_nil _ (List.cons_ne_nil _ _))
  · obtain ⟨e, he, hCount⟩ := h.lastFault k (hFault ▸ hk)
    rw [hCache, getElem?_set_append b.cache hBound,
      if_neg (Nat.ne_of_lt (List.getElem?_eq_some_iff.mp he).1)]
    by_cases hSame : k = j
    · rw [if_pos hSame]
      exact ⟨x, rfl, hxCount⟩
    · rw [if_neg hSame]
      exact ⟨e, he, hCount⟩
  · rw [hSamePending, hCounts (· == id)]
    exact h.pending id
  · have hAll := hCounts fun _ => true
    simp only [Bool.and_true] at hAll
    rw [hCoalesced, hAll]
    exact h.coalesced
  · rw [hSamePending]
    exact h.maxUtlbId id (hMax ▸ hId)
  · obtain ⟨r₀, hr₀, hEq⟩ := hContext
    rw [hSingle, h.single]
    constructor
    · intro hAll r hr r' hr'
      rcases List.mem_append.mp hr with hr | hr <;> rcases List.mem_append.mp hr' with hr' | hr'
      · exact hAll r hr r' hr'
      · exact List.mem_singleton.mp hr' ▸ (hAll r hr r₀ hr₀).trans hEq
      · exact List.mem_singleton.mp hr ▸ hEq.symm.trans (hAll r₀ hr₀ r' hr')
      · rw [List.mem_singleton.mp hr, List.mem_singleton.mp hr']
    · exact fun hAll r hr r' hr' => hAll r (List.mem_append_left _ hr) r' (List.mem_append_left _ hr')

theorem Inv.placeEntry {mayFilter : Bool} (h : b.Inv reports)
    (hReport : current.toReport = report.aligned) (hUnfiltered : current.filtered = false)
    (hMax : current.utlbId ≤ b.maxUtlbId) : (b.placeEntry mayFilter current).Inv (reports ++ [report]) := by
  have hIndex : ∀ j, b.lastFault = some j → j < b.cache.length := fun j hj =>
    (List.getElem?_eq_some_iff.mp (h.lastFault j hj).choose_spec.1).1
  have hFetched := placeEntry_fetched mayFilter current hIndex
  generalize b.placeEntry mayFilter current = placed at hFetched ⊢
  cases hFetched with
  | added same hSame => exact h.addEntry hReport hUnfiltered hMax hSame
  | merged j last hFilter hLast hPage hAccess =>
      rw [mergeEntry, if_neg (not_lt.mpr hAccess)]
      have hPair : [j, b.cache.length].Perm [b.cache.length, j] := List.Perm.swap _ _ _
      have hBound := (List.getElem?_eq_some_iff.mp hLast).1
      refine h.linked rfl rfl hPair hLast hPage hReport rfl (Nat.succ_pos _) rfl (fun ring hRing hj => ?_)
        rfl (fun id hId => ?_) (fun _ => rfl) (fun q => countP_linked _ hLast (.inl ⟨rfl, rfl⟩)) rfl rfl rfl
      · obtain ⟨k, r, hStands⟩ := h.stands ring hRing
        exact ⟨k, hStands.merged rfl hPair (h.ring_lt hRing) hLast hj hPage hAccess rfl rfl rfl rfl rfl⟩
      · obtain ⟨e, he, hRest⟩ := h.utlbs id hId
        change ∃ e, (b.cache.set j _ ++ [_])[(b.utlbs id).lastFault]? = some e ∧ _
        rw [getElem?_set_append b.cache hBound,
          if_neg (Nat.ne_of_lt (List.getElem?_eq_some_iff.mp he).1)]
        by_cases hSame : (b.utlbs id).lastFault = j
        · rw [hSame, hLast, Option.some.injEq] at he
          rw [if_pos hSame]
          subst he
          exact ⟨_, rfl, Nat.succ_pos _, hRest.2⟩
        · rw [if_neg hSame]
          exact ⟨e, he, hRest⟩
  | promoted last hFilter hPending hLast hPage hAccess =>
      generalize hj : (b.utlbs current.utlbId).lastFault = j at hLast
      have hBound := (List.getElem?_eq_some_iff.mp hLast).1
      -- the last fault of the uTLB stands for its ring, and comes from that uTLB
      obtain ⟨hLastUnfiltered, hLastUtlb⟩ : last.filtered = false ∧ last.utlbId = current.utlbId := by
        obtain ⟨e, he, -, hRest⟩ := h.utlbs current.utlbId hPending
        rw [hj, hLast, Option.some.injEq] at he
        exact he ▸ hRest
      rw [mergeEntry, if_pos hAccess]
      refine h.linked rfl rfl (List.Perm.refl _) hLast hPage hReport rfl (Nat.succ_pos _) rfl
        (fun ring hRing hMem => ?_) rfl (fun id hId => ?_) (fun id => ?_) (fun q => ?_) rfl rfl rfl
      · obtain ⟨k, r, hStands⟩ := h.stands ring hRing
        exact ⟨_, _, hStands.promoted rfl (List.Perm.refl _) (h.ring_lt hRing) hLast hMem hPage
          hAccess hLastUnfiltered rfl rfl rfl rfl hUnfiltered⟩
      · change 0 < (Function.update b.utlbs _ _ id).numPendingFaults at hId
        change ∃ e, (b.cache.set j _ ++ [_])[(Function.update b.utlbs _ _ id).lastFault]? = some e ∧ _
        rw [getElem?_set_append b.cache hBound]
        by_cases hHere : id = current.utlbId
        · subst hHere
          rw [Function.update_self]
          rw [if_pos (by rw [List.length_append, List.length_set]; rfl)]
          exact ⟨_, rfl, Nat.succ_pos _, hUnfiltered, rfl⟩
        · rw [Function.update_of_ne hHere] at hId ⊢
          obtain ⟨e, he, hRest⟩ := h.utlbs id hId
          rw [if_neg (Nat.ne_of_lt (List.getElem?_eq_some_iff.mp he).1), if_neg]
          · exact ⟨e, he, hRest⟩
          · intro hSame
            rw [hSame, hLast, Option.some.injEq] at he
            subst he
            exact hHere (hRest.2.2.symm.trans hLastUtlb)
      · change (Function.update b.utlbs _ _ id).numPendingFaults = _
        by_cases hHere : id = current.utlbId
        · subst hHere
          rw [Function.update_self]
        · rw [Function.update_of_ne hHere]
      · refine countP_linked _ hLast (.inr ⟨rfl, ?_⟩)
        change (!current.filtered && q current.utlbId) = (!last.filtered && q last.utlbId)
        rw [hUnfiltered, hLastUnfiltered, hLastUtlb]

theorem Inv.fetchEntry (h : b.Inv reports) (mayFilter : Bool) (report : Report) :
    (b.fetchEntry mayFilter report).Inv (reports ++ [report]) := by
  have hNoted : (b.noteUtlb report.utlbId).Inv reports :=
    ⟨h.fetched, h.rings, fun ring hRing => (h.stands ring hRing).imp fun j hr => hr.imp fun r hStands =>
      hStands.congr fun _ _ => rfl, h.started, h.lastFault, h.utlbs, h.pending, h.coalesced,
      fun id hId => h.maxUtlbId id (Nat.lt_of_le_of_lt (Nat.le_max_left _ _) hId), h.single⟩
  exact hNoted.placeEntry rfl rfl (Nat.le_max_right _ _)

end Rounds

section Runs

variable {b : Batch V} {reports : List Report}

/-- The uTLBs that a batch has not seen are clear. -/
def Clean (b : Batch V) : Prop := ∀ id, b.maxUtlbId < id → (b.utlbs id).numPendingFaults = 0

theorem Clean.reset (h : b.Clean) : b.reset.Inv [] := by
  have hNone : ∀ id, (b.reset.utlbs id).numPendingFaults = 0 := by
    intro id
    change (if id ≤ b.maxUtlbId then _ else b.utlbs id : Utlb).numPendingFaults = 0
    split
    · rfl
    · exact h id (Nat.not_le.mp ‹_›)
  refine ⟨rfl, List.Perm.refl _, fun _ hRing => absurd hRing List.not_mem_nil, iff_of_true rfl rfl,
    fun _ hFault => absurd hFault (Option.some_ne_none _).symm, fun id hId => ?_, hNone, rfl,
    fun id _ => hNone id, ?_⟩
  · rw [hNone id] at hId
    cases hId
  · exact iff_of_true rfl fun _ hr => absurd hr List.not_mem_nil

theorem Inv.foldl {mayFilter : Bool} {seen : List Report} (h : b.Inv seen) :
    (reports.foldl (Batch.fetchEntry mayFilter) b).Inv (seen ++ reports) := by
  induction reports generalizing b seen with
  | nil =>
      rw [List.append_nil]
      exact h
  | cons report rest ih =>
      have hRest := ih (h.fetchEntry mayFilter report)
      rwa [List.append_assoc] at hRest

theorem Clean.fetchEntries (h : b.Clean) (mayFilter : Bool) (reports : List Report) :
    (b.fetchEntries mayFilter reports).Inv reports :=
  h.reset.foldl

/-- The context behind any earlier batches. -/
def after (V : Type) (earlier : List (Bool × List Report)) : Batch V :=
  earlier.foldl (fun b batch => b.fetchEntries batch.1 batch.2) (empty V)

theorem after_clean (earlier : List (Bool × List Report)) : (after V earlier).Clean := by
  have hStep : ∀ (earlier : List (Bool × List Report)) (b : Batch V), b.Clean →
      (earlier.foldl (fun b batch => b.fetchEntries batch.1 batch.2) b).Clean := by
    intro earlier
    induction earlier with
    | nil => exact fun _ h => h
    | cons batch rest ih =>
        intro b h
        exact ih _ (h.fetchEntries batch.1 batch.2).maxUtlbId
  exact hStep earlier _ fun _ _ => rfl

theorem fetchEntry_unmerged {seen : List Report} (h : b.Inv seen) (report : Report)
    (hAll : b.numCoalescedFaults = b.cache.length) :
    (b.fetchEntry false report).numCoalescedFaults = (b.fetchEntry false report).cache.length := by
  have hIndex : ∀ j, (b.noteUtlb report.utlbId).lastFault = some j →
      j < (b.noteUtlb report.utlbId).cache.length := fun j hj =>
    (List.getElem?_eq_some_iff.mp (h.lastFault j hj).choose_spec.1).1
  have hFetched := placeEntry_fetched false (Entry.parsed V report) hIndex
  rw [Batch.fetchEntry]
  generalize (b.noteUtlb report.utlbId).placeEntry false (Entry.parsed V report) = placed
    at hFetched ⊢
  cases hFetched with
  | added same _ =>
      change b.numCoalescedFaults + 1 = (b.cache ++ [_]).length
      rw [List.length_append, hAll]
      rfl
  | merged _ _ hFilter => cases hFilter
  | promoted _ hFilter => cases hFilter

theorem Clean.fetchEntries_unmerged (h : b.Clean) (reports : List Report) :
    (b.fetchEntries false reports).numCoalescedFaults = reports.length := by
  have hStep : ∀ (reports : List Report) (b : Batch V) (seen : List Report), b.Inv seen →
      b.numCoalescedFaults = b.cache.length →
      (reports.foldl (Batch.fetchEntry false) b).numCoalescedFaults =
        (reports.foldl (Batch.fetchEntry false) b).cache.length := by
    intro reports
    induction reports with
    | nil => exact fun _ _ _ hAll => hAll
    | cons report rest ih =>
        exact fun b seen hInv hAll => ih _ _ (hInv.fetchEntry false report) (fetchEntry_unmerged hInv report hAll)
  rw [← (h.fetchEntries false reports).length]
  exact hStep reports _ [] h.reset rfl

/-- Each fault that is fetched has an entry that is not filtered and stands for it. -/
theorem Inv.represented (h : b.Inv reports) {report : Report} (hReport : report ∈ reports) :
    ∃ r ∈ b.cache, r.filtered = false ∧ report.aligned.SamePage r.toReport ∧
      report.accessType ≤ r.accessType := by
  obtain ⟨k, hk, hGet⟩ := List.mem_iff_getElem.mp hReport
  have hBound : k < b.cache.length := h.length ▸ hk
  have hMem : k ∈ b.rings.flatten := h.rings.mem_iff.mpr (List.mem_range.mpr hBound)
  obtain ⟨ring, hRing, hk'⟩ := List.mem_flatten.mp hMem
  obtain ⟨j, r, hStands⟩ := h.stands ring hRing
  have hOthers := hStands.others k hk' b.cache[k] (List.getElem?_eq_getElem hBound)
  have hEntry : b.cache[k].toReport = report.aligned := by
    have hFetched := congrArg (·[k]?) h.fetched
    simp only [List.getElem?_map, List.getElem?_eq_getElem hBound, List.getElem?_eq_getElem hk, hGet,
      Option.map_some, Option.some.injEq] at hFetched
    exact hFetched
  rw [hEntry] at hOthers
  exact ⟨r, List.mem_of_getElem? hStands.entry, hStands.unfiltered, hOthers.1, hOthers.2.1⟩

/-- No fault is lost by the merging: the faults of a batch are divided into rings, each with exactly
one entry that is not filtered, and that entry has the context and the page of all faults of its
ring and the most intrusive access of them. -/
theorem fetch_represents (earlier : List (Bool × List Report)) (mayFilter : Bool)
    (reports : List Report) :
    let b := (after V earlier).fetchEntries mayFilter reports
    b.rings.flatten.Perm (List.range reports.length) ∧
    (∀ ring ∈ b.rings, ∃ j ∈ ring, ∃ r, b.cache[j]? = some r ∧ r.filtered = false ∧
      (∀ k ∈ ring, ∀ report, reports[k]? = some report →
        report.aligned.SamePage r.toReport ∧ report.accessType ≤ r.accessType) ∧
      (∀ k ∈ ring, ∀ e, b.cache[k]? = some e → e.filtered = false → k = j) ∧
      r.accessType ∈ r.accessTypeMask ∧ ∀ a ∈ r.accessTypeMask, a ≤ r.accessType ∧
        ∃ k ∈ ring, ∃ report, reports[k]? = some report ∧ report.accessType = a) ∧
    b.numCoalescedFaults = (b.cache.countP fun e => !e.filtered) ∧
    (b.isSingleInstancePtr = true ↔ ∀ r ∈ reports, ∀ r' ∈ reports, r.context = r'.context) ∧
    (mayFilter = false → b.numCoalescedFaults = reports.length) := by
  have hClean := after_clean (V := V) earlier
  have hInv := hClean.fetchEntries mayFilter reports
  -- an entry of the cache and the report it was made of
  have hReport : ∀ (k : Nat) (e : Entry V), ((after V earlier).fetchEntries mayFilter reports).cache[k]? = some e →
      ∃ report : Report, reports[k]? = some report ∧ report.aligned = e.toReport := by
    intro k e he
    have hGet := congrArg (·[k]?) hInv.fetched
    simp only [List.getElem?_map, he, Option.map_some] at hGet
    exact Option.map_eq_some_iff.mp hGet.symm
  have hEntry : ∀ (k : Nat) (report : Report), reports[k]? = some report →
      ∃ e, ((after V earlier).fetchEntries mayFilter reports).cache[k]? = some e ∧
        e.toReport = report.aligned := by
    intro k report hk
    have hGet := congrArg (·[k]?) hInv.fetched
    simp only [List.getElem?_map, hk, Option.map_some] at hGet
    exact Option.map_eq_some_iff.mp hGet
  refine ⟨hInv.length ▸ hInv.rings, fun ring hRing => ?_, hInv.coalesced, hInv.single, ?_⟩
  · obtain ⟨j, r, hStands⟩ := hInv.stands ring hRing
    refine ⟨j, hStands.mem, r, hStands.entry, hStands.unfiltered, fun k hk report hReported => ?_,
      fun k hk e he hUnfiltered => ?_, hStands.highest, fun a ha => ?_⟩
    · obtain ⟨e, he, hEq⟩ := hEntry k report hReported
      have hOthers := hStands.others k hk e he
      rw [hEq] at hOthers
      exact ⟨hOthers.1, hOthers.2.1⟩
    · by_contra hNe
      rw [(hStands.others k hk e he).2.2 hNe] at hUnfiltered
      cases hUnfiltered
    · obtain ⟨hHigh, k, hk, e, he, hAccess⟩ := hStands.mask a ha
      obtain ⟨report, hReported, hEq⟩ := hReport k e he
      have hSame : report.aligned.accessType = e.accessType := congrArg Report.accessType hEq
      exact ⟨hHigh, k, hk, report, hReported, hSame.trans hAccess⟩
  · rintro rfl
    exact hClean.fetchEntries_unmerged reports

/-- A write from a uTLB replaces its read, and a prefetch from another uTLB is still merged into the
read, so that the mask of the write lacks it. -/
example :
    (((empty Nat).fetchEntries true
      [⟨0, 0, 0, 4096, .read, false⟩, ⟨0, 0, 0, 4096, .write, false⟩,
        ⟨0, 0, 1, 4096, .prefetch, false⟩]).cache.map fun e => (e.filtered, e.accessTypeMask)) =
      [(true, {.read, .write, .prefetch}), (false, {.read, .write}), (true, ∅)] := by
  decide

end Runs

end Batch

end FlashCkpt.Faults
